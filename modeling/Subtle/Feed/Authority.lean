import Subtle.Feed.Edits
import Subtle.Feed.Likes
import Subtle.Feed.Pictures
import Subtle.Firestore.Rules
import Subtle.Lib.Issuers

/-!
# Who may change what

Under the rules of the store anyone signed in may update any post: the app itself sees to
it that a post is edited and deleted by its poster only.  Each operation is marked with the
user whose call it goes back to, and a record is kept of who created which post and for which
post an image was uploaded.

* `attributed_run`: the marks and the record change no run.
* `entitled`: **in every run of the app a post is edited and deleted by the user that created
  it only, an image deleted by the user whose post it was uploaded for only, and everyone likes
  for themselves only**.
* `allows_iff`: **the rules admit what the app asks for, but for the deletion of a post that
  is gone**.
-/

namespace Subtle.Feed

open Subtle.Firestore Subtle.Lib Subtle.Storage

/-! ### The record -/

/-- The user that made the post of an id, and the post that an image was uploaded for. -/
structure Authors where
  author : String → Option String
  home : URL → Option String

/-- The post that an upload is for. -/
def Op.home (s : App) : Op → Option String
  | upload _ _ _ (.addPost _ post) => post.id
  | upload _ _ _ (.modifyPost i _ _) => (s.vms[i]?).bind fun vm => vm.post.id
  | _ => none

namespace Authors

/-- The record after a call: a form that is completed makes a post. -/
def noteCall (a : Authors) : Call → Authors
  | .submit currentUser _ _ id _ => { a with author := Function.update a.author id currentUser }
  | _ => a

/-- The record after an answer: an image that was uploaded belongs to a post. -/
def note (a : Authors) (s : App) (op : Op) : Reply → Authors
  | .uploaded url => { a with home := Function.update a.home url (op.home s) }
  | _ => a

/-- The images were uploaded for the post. -/
def Uploaded (a : Authors) (id : String) (urls : List URL) : Prop :=
  ∀ url ∈ urls, a.home url = some id

/-- The stored post names the user that made it, and lists images of its own. -/
def Ascribes (a : Authors) (id : String) (document : Document) : Prop :=
  ∃ user, a.author id = some user ∧ document "posterId" = some (.string user) ∧
    a.Uploaded id (pictures document)

/-- Nothing on record has changed. -/
structure Extends (a b : Authors) : Prop where
  author : ∀ {id user}, a.author id = some user → b.author id = some user
  home : ∀ {url id}, a.home url = some id → b.home url = some id

variable {a b : Authors} {id : String}

theorem Extends.rfl : Extends a a := ⟨fun h => h, fun h => h⟩

theorem Uploaded.extend (h : Extends a b) {urls : List URL} (hurls : a.Uploaded id urls) :
    b.Uploaded id urls := fun url hurl => h.home (hurls url hurl)

theorem Uploaded.append {urls urls' : List URL} (h : a.Uploaded id urls)
    (h' : a.Uploaded id urls') : a.Uploaded id (urls ++ urls') := by
  intro url hurl
  rcases List.mem_append.mp hurl with hurl | hurl
  · exact h url hurl
  · exact h' url hurl

theorem Ascribes.extend (h : Extends a b) {document : Document}
    (hdoc : a.Ascribes id document) : b.Ascribes id document := by
  obtain ⟨user, hauthor, hposter, hpictures⟩ := hdoc
  exact ⟨user, h.author hauthor, hposter, hpictures.extend h⟩

end Authors

/-- On whose device a call is made. -/
def App.issuer (s : App) : Call → Option String
  | .submit currentUser .. | .openPost currentUser _ => currentUser
  | .fill i _ | .addImage i _ | .toggle i _ | .deleteImages i _ _ | .save i | .like i
  | .unlike i | .deletePost i => (s.vms[i]?).bind PostVM.currentUser

/-- The app with the marks and the record. -/
def attributed : Service (App × Authors) Call (Option String × Op) Reply :=
  (app.signed App.issuer).watched id id (fun a _ x => some (a.noteCall x))
    fun a s op r => some (a.note s op.2 r)

/-- The marks and the record change no run. -/
theorem attributed_run (c : Config (App × Authors) (Option String × Op))
    (es : List (Event Call Reply)) : app.machine.run (Service.unsigned (Service.unwatched c)) es =
      (attributed.machine.run c es).map (Service.unsigned ∘ Service.unwatched) := by
  rw [Service.run_signed, Service.run_watched, Option.map_map]
  rfl

/-- What the user may ask for. -/
def Op.Entitled (a : Authors) (user : String) : Op → Prop
  | upload _ _ urls (.addPost _ post) => post.posterId = user ∧
      ∃ id, post.id = some id ∧ a.author id = some user ∧ a.Uploaded id urls
  | upload _ _ urls (.modifyPost _ _ newImages) =>
      ∃ id, a.author id = some user ∧ a.Uploaded id (newImages ++ urls)
  | setData id post => post.posterId = user ∧ a.author id = some user ∧
      a.Uploaded id post.pictures
  | updateData _ id (.edit data) => a.author id = some user ∧ a.Uploaded id (pictures data)
  | updateData _ _ (.like likerId) => likerId = user
  | updateData _ _ (.unlike unlikerId) => unlikerId = user
  | getDocument _ _ => True
  | response _ post => ∃ id, post.id = some id ∧ a.author id = some post.posterId
  | deleteImage urls _ => ∃ id, a.author id = some user ∧ a.Uploaded id urls
  | deleteDocument id => a.author id = some user

/-- A form makes a post under an id that no post ever had. -/
def NewId (p : App × Authors) : Call → Prop
  | .submit _ _ _ id _ => p.2.author id = none
  | _ => True

instance (p : App × Authors) : ∀ x, Decidable (NewId p x)
  | .submit _ _ _ id _ => inferInstanceAs (Decidable (p.2.author id = none))
  | .openPost .. | .fill .. | .addImage .. | .toggle .. | .deleteImages .. | .save _ | .like _
  | .unlike _ | .deletePost _ => isTrue trivial

/-! ### The copies on the devices -/

/-- A device shows the post to the user. -/
def App.Serves (s : App) (i : Nat) (user id : String) : Prop :=
  ∃ vm, s.vms[i]? = some vm ∧ vm.currentUser = some user ∧ vm.post.id = some id

/-- The operation belongs to a device of the user, and its images to the post that this
shows. -/
def Op.ServedBy (s : App) (a : Authors) (user : String) : Op → Prop
  | upload _ _ _ (.addPost currentUser _) => currentUser = some user
  | upload _ _ urls (.modifyPost i _ newImages) =>
      ∃ id, s.Serves i user id ∧ a.author id = some user ∧ a.Uploaded id (newImages ++ urls)
  | updateData i id _ => s.Serves i user id
  | getDocument i id => s.Serves i user id
  | response i post => ∃ id, post.id = some id ∧ s.Serves i user id
  | _ => True

/-- The copy names the creator of the post, and its form holds images of this post. -/
structure Authors.Holds (a : Authors) (id : String) (vm : PostVM) : Prop where
  id_eq : vm.post.id = some id
  author : a.author id = some vm.post.posterId
  edit : a.Uploaded id vm.editImages
  selected : ∀ url ∈ vm.selected, a.home url = some id
  delete : a.Uploaded id vm.imagesToDelete

variable {s s' : App} {a b : Authors} {i : Nat} {user id : String} {op : Op} {new : List Op}

theorem Authors.Holds.extend {vm : PostVM} (h : a.Extends b) (hvm : a.Holds id vm) :
    b.Holds id vm :=
  ⟨hvm.id_eq, h.author hvm.author, hvm.edit.extend h,
    fun url hurl => h.home (hvm.selected url hurl), hvm.delete.extend h⟩

/-- Every copy of a post names its creator. -/
def Authors.HoldsAll (a : Authors) (s : App) : Prop := ∀ vm ∈ s.vms, ∃ id, a.Holds id vm

theorem Authors.HoldsAll.extend (h : a.Extends b) (hforms : a.HoldsAll s) : b.HoldsAll s := by
  intro vm hvm
  obtain ⟨id, hheld⟩ := hforms vm hvm
  exact ⟨id, hheld.extend h⟩

theorem Op.Entitled.extend (h : a.Extends b) (hop : op.Entitled a user) : op.Entitled b user := by
  cases op with
  | upload image rest urls after =>
    cases after with
    | addPost currentUser post =>
      obtain ⟨hposter, id, hid, hauthor, hurls⟩ := hop
      exact ⟨hposter, id, hid, h.author hauthor, hurls.extend h⟩
    | modifyPost i params newImages =>
      obtain ⟨id, hauthor, hurls⟩ := hop
      exact ⟨id, h.author hauthor, hurls.extend h⟩
  | setData id post => exact ⟨hop.1, h.author hop.2.1, hop.2.2.extend h⟩
  | updateData i id change =>
    cases change with
    | edit data => exact ⟨h.author hop.1, hop.2.extend h⟩
    | like likerId => exact hop
    | unlike unlikerId => exact hop
  | getDocument i id => trivial
  | response i post =>
    obtain ⟨id, hid, hauthor⟩ := hop
    exact ⟨id, hid, h.author hauthor⟩
  | deleteImage urls index =>
    obtain ⟨id, hauthor, hurls⟩ := hop
    exact ⟨id, h.author hauthor, hurls.extend h⟩
  | deleteDocument id => exact h.author hop

/-- Devices go on to serve who they served. -/
def Keeps (s s' : App) : Prop := ∀ i user id, s.Serves i user id → s'.Serves i user id

theorem Op.ServedBy.keep (h : Keeps s s') (hextends : a.Extends b) (hop : op.ServedBy s a user) :
    op.ServedBy s' b user := by
  cases op with
  | upload image rest urls after =>
    cases after with
    | addPost currentUser post => exact hop
    | modifyPost i params newImages =>
      obtain ⟨id, hserves, hauthor, hurls⟩ := hop
      exact ⟨id, h _ _ _ hserves, hextends.author hauthor, hurls.extend hextends⟩
  | updateData i id change => exact h _ _ _ hop
  | getDocument i id => exact h _ _ _ hop
  | response i post =>
    obtain ⟨id, hid, hserves⟩ := hop
    exact ⟨id, hid, h _ _ _ hserves⟩
  | setData id post => trivial
  | deleteImage urls index => trivial
  | deleteDocument id => trivial

theorem keeps_of_vms (h : s'.vms = s.vms) : Keeps s s' := by
  intro i user id hserves
  unfold App.Serves
  rwa [h]

theorem keeps_append (vm : PostVM) : Keeps s { s with vms := s.vms ++ [vm] } := by
  rintro i user id ⟨w, hw, huser⟩
  obtain ⟨hi, -⟩ := List.getElem?_eq_some_iff.mp hw
  exact ⟨w, (List.getElem?_append_left hi).trans hw, huser⟩

/-- The form of a device changes. -/
theorem keeps_set {vm vm' : PostVM} (hvm : s.vms[i]? = some vm)
    (huser : vm'.currentUser = vm.currentUser) (hpost : vm'.post = vm.post) :
    Keeps s { s with vms := s.vms.set i vm' } := by
  rintro j user id ⟨w, hw, hcurrent, hid⟩
  by_cases hj : i = j
  · subst hj
    obtain rfl := Option.some.inj (hvm.symm.trans hw)
    obtain ⟨hi, -⟩ := List.getElem?_eq_some_iff.mp hw
    refine ⟨vm', ?_, huser.trans hcurrent, hpost ▸ hid⟩
    exact List.getElem?_set_self hi
  · exact ⟨w, (List.getElem?_set_ne hj).trans hw, hcurrent, hid⟩

/-- A device shows another copy of its post. -/
theorem keeps_modify {post : Post} (hid : post.id = some id) (h : s.Serves i user id) :
    Keeps s { s with vms := s.vms.modify i fun vm => { vm with post := post } } := by
  obtain ⟨vm, hvm, -, hvmid⟩ := h
  rintro j user' id' ⟨w, hw, hcurrent, hwid⟩
  by_cases hj : i = j
  · subst hj
    obtain rfl := Option.some.inj (hvm.symm.trans hw)
    refine ⟨{ vm with post := post }, ?_, hcurrent, ?_⟩
    · rw [List.getElem?_modify_eq, hvm]
      rfl
    · exact (hid.trans hvmid.symm).trans hwid
  · exact ⟨w, (List.getElem?_modify_ne _ _ hj).trans hw, hcurrent, hwid⟩

/-! ### The operations that are issued -/

/-- The operation is one that the user may ask for, from one of the user's devices. -/
def Op.Rightful (s : App) (a : Authors) (user : String) (op : Op) : Prop :=
  op.Entitled a user ∧ op.ServedBy s a user

theorem rightful_addPost (post : Post) (hposter : post.posterId = user)
    (hid : post.id = some id) (hauthor : a.author id = some user)
    (hpictures : a.Uploaded id post.pictures) {currentUser : Option String}
    (hop : op ∈ addPost currentUser post) : op.Rightful s a user := by
  cases currentUser with
  | none => exact absurd hop List.not_mem_nil
  | some currentUser =>
    simp only [addPost, hid] at hop
    obtain rfl := List.mem_singleton.mp hop
    exact ⟨⟨hposter, hauthor, hpictures⟩, trivial⟩

theorem rightful_modifyPost {vm : PostVM} (hvm : s.vms[i]? = some vm)
    (huser : vm.currentUser = some user) (hheld : a.Holds id vm) {data : Document}
    (hpictures : a.Uploaded id (pictures data)) (hop : op ∈ modifyPost i vm data) :
    op.Rightful s a user := by
  simp only [modifyPost, huser, hheld.id_eq] at hop
  split at hop
  · next hposter =>
    obtain rfl := List.mem_singleton.mp hop
    exact ⟨⟨hposter ▸ hheld.author, hpictures⟩, vm, hvm, huser, hheld.id_eq⟩
  · exact absurd hop List.not_mem_nil

theorem rightful_deletePost {vm : PostVM} (huser : vm.currentUser = some user)
    (hheld : a.Holds id vm) (hop : op ∈ deletePost vm.currentUser vm.post) :
    op.Rightful s a user := by
  simp only [deletePost, huser, hheld.id_eq] at hop
  split at hop
  · next hposter =>
    obtain rfl := List.mem_singleton.mp hop
    have hentitled : a.author id = some user := hposter ▸ hheld.author
    exact ⟨hentitled, trivial⟩
  · exact absurd hop List.not_mem_nil

theorem rightful_likePost {vm : PostVM} (hvm : s.vms[i]? = some vm)
    (huser : vm.currentUser = some user) (hop : op ∈ vm.likePost i) : op.Rightful s a user := by
  simp only [PostVM.likePost, huser, likePost] at hop
  split at hop
  · split at hop
    · next id hid =>
      obtain rfl := List.mem_singleton.mp hop
      exact ⟨rfl, vm, hvm, huser, hid⟩
    · exact absurd hop List.not_mem_nil
  · exact absurd hop List.not_mem_nil

theorem rightful_unlikePost {vm : PostVM} (hvm : s.vms[i]? = some vm)
    (huser : vm.currentUser = some user) (hop : op ∈ vm.unlikePost i) :
    op.Rightful s a user := by
  simp only [PostVM.unlikePost, huser, unlikePost] at hop
  split at hop
  · split at hop
    · next id hid =>
      obtain rfl := List.mem_singleton.mp hop
      exact ⟨rfl, vm, hvm, huser, hid⟩
    · exact absurd hop List.not_mem_nil
  · exact absurd hop List.not_mem_nil

theorem rightful_startDeletion {currentUser : Option String} {urls : List URL}
    (hauthor : a.author id = some user) (hurls : a.Uploaded id urls)
    (hop : op ∈ startDeletion currentUser urls) : op.Rightful s a user := by
  obtain ⟨index, rfl⟩ := mem_startDeletion hop
  exact ⟨⟨id, hauthor, hurls⟩, trivial⟩

/-- The completion of a batch of uploads, or its next upload. -/
theorem rightful_addImageHelper (hforms : a.HoldsAll s) {after : After}
    {urls : List URL} {images : List UIImage}
    (h : ∀ image rest, (Op.upload image rest urls after).Rightful s a user)
    (hop : op ∈ s.addImageHelper urls after images) : op.Rightful s a user := by
  cases images with
  | cons image rest =>
    obtain rfl := List.mem_singleton.mp hop
    exact h image rest
  | nil =>
    cases after with
    | addPost currentUser post =>
      obtain ⟨hposter, id, hid, hauthor, hurls⟩ := (h "" []).1
      exact rightful_addPost { post with pictures := urls } hposter hid hauthor hurls hop
    | modifyPost i params newImages =>
      obtain ⟨-, id, ⟨vm, hvm, huser, hid⟩, -, hurls⟩ := h "" []
      obtain ⟨id', hheld⟩ := hforms vm (List.mem_of_getElem? hvm)
      obtain rfl := Option.some.inj (hid.symm.trans hheld.id_eq)
      simp only [App.addImageHelper, App.uploaded, hvm] at hop
      refine rightful_modifyPost hvm huser hheld ?_ hop
      rw [PostVM.pictures_withPictures]
      exact hurls

theorem rightful_addImages (hforms : a.HoldsAll s) {after : After}
    {currentUser : Option String} {images : List UIImage}
    (h : ∀ image rest, (Op.upload image rest [] after).Rightful s a user)
    (hop : op ∈ s.addImages currentUser images after) : op.Rightful s a user := by
  unfold App.addImages at hop
  split at hop
  · exact rightful_addImageHelper hforms h hop
  · exact absurd hop List.not_mem_nil

theorem rightful_editPostAndImages (hforms : a.HoldsAll s) {vm : PostVM}
    (hvm : s.vms[i]? = some vm) (huser : vm.currentUser = some vm.post.posterId)
    (hop : op ∈ editPostAndImages s i vm) : op.Rightful s a vm.post.posterId := by
  obtain ⟨id, hheld⟩ := hforms vm (List.mem_of_getElem? hvm)
  unfold editPostAndImages at hop
  split at hop
  · have hurls : a.Uploaded id (vm.editImages ++ []) := by
      rw [List.append_nil]
      exact hheld.edit
    have hafter : ∀ image rest,
        (Op.upload image rest [] (.modifyPost i vm.editParams vm.editImages)).Rightful s a
          vm.post.posterId := fun image rest =>
      ⟨⟨id, hheld.author, hurls⟩, id, ⟨vm, hvm, huser, hheld.id_eq⟩, hheld.author, hurls⟩
    exact rightful_addImages hforms hafter hop
  · rcases List.mem_append.mp hop with hop | hop
    · refine rightful_modifyPost hvm huser hheld ?_ hop
      rw [PostVM.pictures_withPictures]
      exact hheld.edit
    · exact rightful_startDeletion hheld.author hheld.delete hop

/-- A call that acts on the post of a device. -/
theorem rightful_form {f : PostVM → List Op}
    (h : (s.vms[i]?).map (fun vm => (s, f vm)) = some (s', new)) (hop : op ∈ new)
    (hnone : ∀ vm, vm.currentUser = none → f vm = [])
    (hf : ∀ vm user, s.vms[i]? = some vm → vm.currentUser = some user → op ∈ f vm →
      op.Rightful s a user) :
    ∃ user, (s.vms[i]?).bind PostVM.currentUser = some user ∧ op.Rightful s a user := by
  obtain ⟨vm, hvm, heq⟩ := Option.map_eq_some_iff.mp h
  obtain ⟨-, rfl⟩ := Prod.mk.inj heq
  cases huser : vm.currentUser with
  | none =>
    rw [hnone vm huser] at hop
    exact absurd hop List.not_mem_nil
  | some user => exact ⟨user, by rw [hvm]; exact huser, hf vm user hvm huser hop⟩

/-- The record only grows with a call: a form makes a post of a new id. -/
theorem extends_noteCall {x : Call} (hnew : NewId (s, a) x) : a.Extends (a.noteCall x) := by
  cases x with
  | submit currentUser form images id creationDate =>
    refine ⟨fun {id' user} hauthor => ?_, fun h => h⟩
    have hne : id' ≠ id := by
      rintro rfl
      exact Option.some_ne_none user (hauthor.symm.trans hnew)
    exact (Function.update_of_ne hne _ _).trans hauthor
  | _ => exact .rfl

/-- **What a call issues is rightful**, for the user of the device it is made on. -/
theorem rightful_call (hforms : a.HoldsAll s) {x : Call} (hnew : NewId (s, a) x)
    (h : s.call x = some (s', new)) (hop : op ∈ new) :
    ∃ user, s.issuer x = some user ∧ op.Rightful s (a.noteCall x) user := by
  cases called_of_call h with
  | submitted currentUser form images id creationDate p hp =>
    obtain ⟨user, rfl, hpost⟩ := Option.map_eq_some_iff.mp hp
    have hposter : p.posterId = user := hpost ▸ rfl
    have hid : p.id = some id := hpost ▸ rfl
    have hauthor : (a.noteCall (.submit (some user) form images id creationDate)).author id =
        some user := Function.update_self _ _ _
    have hafter : ∀ image rest, (Op.upload image rest [] (.addPost (some user) p)).Rightful s
        (a.noteCall (.submit (some user) form images id creationDate)) user :=
      fun image rest => ⟨⟨hposter, id, hid, hauthor, List.forall_mem_nil _⟩, rfl⟩
    have hforms' := hforms.extend (extends_noteCall hnew)
    exact ⟨user, rfl, rightful_addImages hforms' hafter hop⟩
  | opened => exact absurd hop List.not_mem_nil
  | filled => exact absurd hop List.not_mem_nil
  | imageAdded => exact absurd hop List.not_mem_nil
  | toggled => exact absurd hop List.not_mem_nil
  | imagesDeleted => exact absurd hop List.not_mem_nil
  | saved i vm hvm hshows =>
    have huser : vm.currentUser = some vm.post.posterId := by simpa [PostVM.showsEdit] using hshows
    have hissuer : s.issuer (.save i) = some vm.post.posterId := by
      rw [App.issuer, hvm]
      exact huser
    exact ⟨_, hissuer, rightful_editPostAndImages hforms hvm huser hop⟩
  | liked i vm =>
    refine rightful_form h hop (fun vm huser => ?_) fun vm user hvm huser hop =>
      rightful_likePost hvm huser hop
    rw [PostVM.likePost, huser]
  | unliked i vm =>
    refine rightful_form h hop (fun vm huser => ?_) fun vm user hvm huser hop =>
      rightful_unlikePost hvm huser hop
    rw [PostVM.unlikePost, huser]
  | postDeleted i vm =>
    refine rightful_form h hop (fun vm huser => ?_) fun vm user hvm huser hop => ?_
    · simp only [deletePost, huser]
    · obtain ⟨id, hheld⟩ := hforms vm (List.mem_of_getElem? hvm)
      exact rightful_deletePost huser hheld hop

/-! ### Calls and answers -/

theorem holds_toggle {vm : PostVM} (h : a.Holds id vm) {url : URL} (hurl : url ∈ vm.editImages) :
    a.Holds id (vm.toggle url) := by
  refine ⟨h.id_eq, h.author, h.edit, fun url' hurl' => ?_, h.delete⟩
  simp only [PostVM.toggle] at hurl'
  split at hurl'
  · exact h.selected url' (Finset.mem_of_mem_erase hurl')
  · rcases Finset.mem_insert.mp hurl' with rfl | hold
    · exact h.edit url' hurl
    · exact h.selected url' hold

theorem holds_deleteImages {vm : PostVM} (h : a.Holds id vm) {imagesToRetain deleted : List URL}
    (hretain : PostVM.Enumerates imagesToRetain (vm.editImages.toFinset \ vm.selected))
    (hdeleted : PostVM.Enumerates deleted vm.selected) :
    a.Holds id (vm.deleteImages imagesToRetain deleted) := by
  refine ⟨h.id_eq, h.author, fun url hurl => ?_,
    fun url hurl => absurd hurl (Finset.notMem_empty url), fun url hurl => ?_⟩
  · have hmem := (PostVM.mem_of_enumerates hretain).mp hurl
    exact h.edit url (List.mem_toFinset.mp (Finset.mem_sdiff.mp hmem).1)
  · rcases List.mem_append.mp hurl with hold | hnew
    · exact h.delete url hold
    · exact h.selected url ((PostVM.mem_of_enumerates hdeleted).mp hnew)

/-- A device opens a copy of a post. -/
theorem holds_of_author {p : Post} {currentUser : Option String}
    (hid : p.id = some id) (hauthor : a.author id = some p.posterId)
    (hpictures : a.Uploaded id p.pictures) : a.Holds id (PostVM.init currentUser p) :=
  ⟨hid, hauthor, hpictures, fun url hurl => absurd hurl (Finset.notMem_empty url),
    List.forall_mem_nil _⟩

/-- A device opens a stored post. -/
theorem holds_init {document : Document} (h : a.Ascribes id document) {p : Post}
    (hdecode : Post.decode id document = some p) {currentUser : Option String} :
    a.Holds id (PostVM.init currentUser p) := by
  obtain ⟨user, hauthor, hposter, hpictures⟩ := h
  have huser : user = p.posterId := by
    have hread := posterId_of_decode hdecode
    rw [hposter] at hread
    exact Option.some.inj hread
  subst huser
  rw [← pictures_decode hdecode] at hpictures
  exact holds_of_author (id_of_decode hdecode) hauthor hpictures

/-- What a call leaves of the devices. -/
theorem forms_call {x : Call} (hposts : ∀ id document, s.posts id = some document →
    a.Ascribes id document) (hforms : a.HoldsAll s) (h : Called s x s' new) :
    a.HoldsAll s' ∧ Keeps s s' ∧ s'.issued = s.issued := by
  have hset : ∀ {i vm vm'}, s.vms[i]? = some vm → (∀ id, a.Holds id vm → a.Holds id vm') →
      ∀ w ∈ s.vms.set i vm', ∃ id, a.Holds id w := by
    intro i vm vm' hvm hheld w hw
    rcases List.mem_or_eq_of_mem_set hw with hw | rfl
    · exact hforms w hw
    · obtain ⟨id, hvm⟩ := hforms vm (List.mem_of_getElem? hvm)
      exact ⟨id, hheld id hvm⟩
  cases h with
  | submitted => exact ⟨hforms, keeps_of_vms rfl, rfl⟩
  | opened currentUser id document p hdoc hdecode =>
    refine ⟨fun vm hvm => ?_, keeps_append _, rfl⟩
    rcases List.mem_append.mp hvm with hvm | hvm
    · exact hforms vm hvm
    · obtain rfl := List.mem_singleton.mp hvm
      exact ⟨id, holds_init (hposts id document hdoc) hdecode⟩
  | filled i form vm hvm =>
    exact ⟨hset hvm fun id h => ⟨h.id_eq, h.author, h.edit, h.selected, h.delete⟩,
      keeps_set hvm rfl rfl, rfl⟩
  | imageAdded i image vm hvm =>
    exact ⟨hset hvm fun id h => ⟨h.id_eq, h.author, h.edit, h.selected, h.delete⟩,
      keeps_set hvm rfl rfl, rfl⟩
  | toggled i url vm hvm hurl =>
    exact ⟨hset hvm fun id h => holds_toggle h hurl, keeps_set hvm rfl rfl, rfl⟩
  | imagesDeleted i imagesToRetain deleted vm hvm hretain hdeleted =>
    exact ⟨hset hvm fun id h => holds_deleteImages h hretain hdeleted, keeps_set hvm rfl rfl, rfl⟩
  | saved => exact ⟨hforms, keeps_of_vms rfl, rfl⟩
  | liked => exact ⟨hforms, keeps_of_vms rfl, rfl⟩
  | unliked => exact ⟨hforms, keeps_of_vms rfl, rfl⟩
  | postDeleted => exact ⟨hforms, keeps_of_vms rfl, rfl⟩

/-- The stored posts, the copies and what is outstanding agree with the record. -/
structure Attributed (p : App × Authors) (ops : List (Option String × Op)) : Prop where
  posts : ∀ id document, p.1.posts id = some document → p.2.Ascribes id document
  forms : p.2.HoldsAll p.1
  rightful : ∀ op ∈ ops, ∃ user, op.1 = some user ∧ op.2.Rightful p.1 p.2 user
  edits : ∀ op ∈ ops, op.2.Edits OfForm
  issued : ∀ url id, p.2.home url = some id → url ∈ p.1.issued

variable {p p' : App × Authors} {ops pre post new' : List (Option String × Op)}

/-- A call of the marked app is one of the app. -/
theorem call_of_attributed {x : Call} (hx : attributed.call (s, a) x = some (p', new')) :
    ∃ s' new, s.call x = some (s', new) ∧ p' = (s', a.noteCall x) ∧
      new' = new.map (Prod.mk (s.issuer x)) := by
  obtain ⟨s', a'⟩ := p'
  obtain ⟨hnote, hsigned⟩ := Service.watched_call hx
  obtain rfl := Option.some.inj hnote
  obtain ⟨new, hcall, rfl⟩ := Service.signed_call hsigned
  exact ⟨s', new, hcall, rfl, rfl⟩

theorem answer_of_attributed {u : Option String} {r : Reply}
    (hx : attributed.answer (s, a) (u, op) r = some (p', new')) :
    ∃ s' new, s.answer op r = some (s', new) ∧ p' = (s', a.note s op r) ∧
      new' = new.map (Prod.mk u) := by
  obtain ⟨s', a'⟩ := p'
  obtain ⟨hnote, hsigned⟩ := Service.watched_answer hx
  obtain rfl := Option.some.inj hnote
  obtain ⟨new, hanswer, rfl⟩ := Service.signed_answer hsigned
  exact ⟨s', new, hanswer, rfl, rfl⟩

theorem attributed_call {x : Call} (h : Attributed p ops) (hnewId : NewId p x)
    (hx : attributed.call p x = some (p', new')) : Attributed p' (ops ++ new') := by
  obtain ⟨s, a⟩ := p
  obtain ⟨s', new, hcall, rfl, rfl⟩ := call_of_attributed hx
  have hcalled := called_of_call hcall
  have hextends := extends_noteCall hnewId
  obtain ⟨hforms, hkeeps, hissued⟩ := forms_call h.posts h.forms hcalled
  obtain ⟨hposts, -, -⟩ := call_frames hcalled
  refine ⟨?_, hforms.extend hextends, fun op hop => ?_, fun op hop => ?_, ?_⟩
  · intro id document hdoc
    exact (h.posts id document (hposts ▸ hdoc)).extend hextends
  · rcases List.mem_append.mp hop with hop | hop
    · obtain ⟨user, huser, hentitled, hserved⟩ := h.rightful op hop
      exact ⟨user, huser, hentitled.extend hextends, hserved.keep hkeeps hextends⟩
    · obtain ⟨op', hnew, rfl⟩ := List.mem_map.mp hop
      obtain ⟨user, huser, hentitled, hserved⟩ := rightful_call h.forms hnewId hcall hnew
      exact ⟨user, huser, hentitled, hserved.keep hkeeps .rfl⟩
  · rcases List.mem_append.mp hop with hop | hop
    · exact h.edits op hop
    · obtain ⟨op', hnew, rfl⟩ := List.mem_map.mp hop
      exact edits_call formData_ofForm hcalled op' hnew
  · intro url id hurl
    rw [hissued]
    refine h.issued url id ?_
    cases x <;> exact hurl

/-- A write of the app leaves the creator of a post. -/
theorem ascribes_commit {change : Change} {document : Document} (h : a.Ascribes id document)
    (hentitled : (Op.updateData i id change).Entitled a user)
    (hedits : (Op.updateData i id change).Edits OfForm) :
    a.Ascribes id (change.commit document) := by
  obtain ⟨author, hauthor, hposter, hpictures⟩ := h
  have hlikes : ∀ v, a.Ascribes id (assign document "likes" v) := by
    intro v
    refine ⟨author, hauthor, (assign_of_ne (by decide) _ _).trans hposter, ?_⟩
    rwa [pictures, assign_of_ne (by decide)]
  cases change with
  | edit data =>
    have hdata : OfForm data := hedits
    obtain ⟨-, hlisted⟩ := hentitled
    refine ⟨author, hauthor, ?_, ?_⟩
    · exact (Record.overwrite_of_none (hdata _ (by decide)) _).trans hposter
    · show a.Uploaded id (pictures (document.overwrite data))
      cases hlist : data "pictures" with
      | none => rwa [pictures, Record.overwrite_of_none hlist]
      | some v =>
        rw [pictures, hlist] at hlisted
        rwa [pictures, Record.overwrite_of_some hlist]
  | like likerId => exact hlikes _
  | unlike unlikerId => exact hlikes _

/-- The record only grows with an answer: objects have new URLs. -/
theorem extends_note {r : Reply} (h : Attributed (s, a) ops)
    (hanswer : Answered s op r s' new) : a.Extends (a.note s op r) := by
  cases hanswer with
  | failed => exact .rfl
  | uploaded image rest urls after url hfresh =>
    refine ⟨fun h => h, fun {url' id} hurl => ?_⟩
    have hne : url' ≠ url := by
      rintro rfl
      exact hfresh (h.issued url' id hurl)
    exact (Function.update_of_ne hne _ _).trans hurl
  | created => exact .rfl
  | updated => exact .rfl
  | missing => exact .rfl
  | read => exact .rfl
  | delivered => exact .rfl
  | removed => exact .rfl
  | kept => exact .rfl
  | deleted => exact .rfl

/-- The posts after an answer name their creators. -/
theorem posts_answer {r : Reply} (h : Attributed (s, a) ops)
    (hentitled : op.Entitled a user) (hedits : op.Edits OfForm)
    (hextends : a.Extends (a.note s op r)) (hanswer : Answered s op r s' new) :
    ∀ id document, s'.posts id = some document →
      (a.note s op r).Ascribes id document := by
  have hposts : ∀ id document, s.posts id = some document →
      (a.note s op r).Ascribes id document := fun id document hdoc =>
    (h.posts id document hdoc).extend hextends
  cases hanswer with
  | failed => exact hposts
  | uploaded => exact hposts
  | created id p =>
    intro id' document hdoc
    rcases Record.of_update hdoc with ⟨rfl, hnew⟩ | ⟨-, hold⟩
    · obtain rfl := Option.some.inj hnew
      obtain ⟨hposter, hauthor, hpictures⟩ := hentitled
      refine ⟨user, hauthor, congrArg (some ∘ Value.string) hposter, ?_⟩
      rw [pictures_encode]
      exact hpictures
    · exact hposts id' document hold
  | updated i id change old hdoc =>
    intro id' document hdoc'
    rcases Record.of_update hdoc' with ⟨rfl, hnew⟩ | ⟨-, hold⟩
    · obtain rfl := Option.some.inj hnew
      exact ascribes_commit (h.posts _ old hdoc) hentitled hedits
    · exact hposts id' document hold
  | missing => exact hposts
  | read => exact hposts
  | delivered => exact hposts
  | removed => exact hposts
  | kept => exact hposts
  | deleted id =>
    intro id' document hdoc
    rcases Record.of_update hdoc with ⟨-, hnew⟩ | ⟨-, hold⟩
    · exact absurd hnew (by simp)
    · exact hposts id' document hold

/-- A delivered copy names the creator of the post that the device shows. -/
theorem holds_response {p : Post} {vm : PostVM} (hvm : s.vms[i]? = some vm)
    (hheld : a.Holds id vm) (h : (Op.response i p).Rightful s a user) :
    a.Holds id { vm with post := p } := by
  obtain ⟨⟨id', hid, hauthor⟩, id'', hid', w, hw, -, hwid⟩ := h
  obtain rfl := Option.some.inj (hvm.symm.trans hw)
  obtain rfl := Option.some.inj (hid.symm.trans hid')
  obtain rfl := Option.some.inj (hwid.symm.trans hheld.id_eq)
  exact ⟨hid, hauthor, hheld.edit, hheld.selected, hheld.delete⟩

/-- What an answer leaves of the devices. -/
theorem forms_answer {r : Reply} (hforms : a.HoldsAll s)
    (hrightful : op.Rightful s a user) (hanswer : Answered s op r s' new) :
    a.HoldsAll s' ∧ Keeps s s' := by
  cases hanswer with
  | failed => exact ⟨hforms, keeps_of_vms rfl⟩
  | uploaded => exact ⟨hforms, keeps_of_vms rfl⟩
  | created => exact ⟨hforms, keeps_of_vms rfl⟩
  | updated => exact ⟨hforms, keeps_of_vms rfl⟩
  | missing => exact ⟨hforms, keeps_of_vms rfl⟩
  | read => exact ⟨hforms, keeps_of_vms rfl⟩
  | delivered i p =>
    obtain ⟨id, hid, hserves⟩ := hrightful.2
    refine ⟨fun w hw => ?_, keeps_modify hid hserves⟩
    obtain ⟨j, hj⟩ := List.mem_iff_getElem?.mp hw
    by_cases hij : i = j
    · subst hij
      rw [List.getElem?_modify_eq] at hj
      obtain ⟨vm, hvm, rfl⟩ := Option.map_eq_some_iff.mp hj
      obtain ⟨id, hheld⟩ := hforms vm (List.mem_of_getElem? hvm)
      exact ⟨id, holds_response hvm hheld hrightful⟩
    · rw [List.getElem?_modify_ne _ _ hij] at hj
      exact hforms w (List.mem_of_getElem? hj)
  | removed => exact ⟨hforms, keeps_of_vms rfl⟩
  | kept => exact ⟨hforms, keeps_of_vms rfl⟩
  | deleted => exact ⟨hforms, keeps_of_vms rfl⟩

/-- The copy that is read is the stored post. -/
theorem decode_of_read {p : Post}
    (h : s.answer (.getDocument i id) .ok = some (s', [.response i p])) :
    (s.posts id).bind (Post.decode id) = some p := by
  obtain ⟨-, heq⟩ := Prod.mk.inj (Option.some.inj h)
  cases hread : (s.posts id).bind (Post.decode id) with
  | none =>
    rw [hread] at heq
    exact absurd heq (by simp)
  | some q =>
    rw [hread] at heq
    obtain ⟨-, rfl⟩ := Op.response.inj (List.singleton_inj.mp heq)
    rfl

/-- An upload adds an image to the post that it is for. -/
theorem uploaded_note {url : URL} (h : op.home s = some id) :
    (a.note s op (.uploaded url)).Uploaded id [url] := by
  intro url' hurl
  obtain rfl := List.mem_singleton.mp hurl
  exact (Function.update_self _ _ _).trans h

/-- **What an answer issues is rightful**, for the user of the operation that is answered. -/
theorem rightful_answer {r : Reply} (h : Attributed (s, a) ops) (hrightful : op.Rightful s a user)
    (hextends : a.Extends (a.note s op r)) (hx : s.answer op r = some (s', new)) :
    ∀ op' ∈ new, op'.Rightful s' (a.note s op r) user := by
  have hanswer := answered_of_answer hx
  obtain ⟨hforms, hkeeps⟩ := forms_answer h.forms hrightful hanswer
  obtain ⟨hentitled, hserved⟩ := hrightful
  intro op' hop'
  cases hanswer with
  | failed => exact absurd hop' List.not_mem_nil
  | uploaded image rest urls after url hfresh =>
    refine rightful_addImageHelper (hforms.extend hextends) (fun image' rest' => ?_) hop'
    cases after with
    | addPost currentUser post =>
      obtain ⟨hposter, id, hid, hauthor, hurls⟩ := hentitled
      have hnew : (a.note s (.upload image rest urls (.addPost currentUser post))
        (.uploaded url)).Uploaded id [url] := uploaded_note hid
      exact ⟨⟨hposter, id, hid, hauthor, (hurls.extend hextends).append hnew⟩, hserved⟩
    | modifyPost i params newImages =>
      obtain ⟨id, ⟨vm, hvm, huser, hid⟩, hauthor, hurls⟩ := hserved
      have hnew : (a.note s (.upload image rest urls (.modifyPost i params newImages))
        (.uploaded url)).Uploaded id [url] := uploaded_note (by simp [Op.home, hvm, hid])
      have hall := (hurls.extend hextends).append hnew
      rw [List.append_assoc] at hall
      exact ⟨⟨id, hauthor, hall⟩, id, hkeeps _ _ _ ⟨vm, hvm, huser, hid⟩, hauthor, hall⟩
  | created => exact absurd hop' List.not_mem_nil
  | updated i id change old hdoc =>
    obtain rfl := List.mem_singleton.mp hop'
    exact ⟨trivial, hkeeps _ _ _ hserved⟩
  | missing => exact absurd hop' List.not_mem_nil
  | read i id p =>
    obtain rfl := List.mem_singleton.mp hop'
    obtain ⟨document, hdoc, hdecode⟩ := Option.bind_eq_some_iff.mp (decode_of_read hx)
    have hheld : a.Holds id (.init none p) := holds_init (h.posts id document hdoc) hdecode
    exact ⟨⟨id, hheld.id_eq, hheld.author⟩, id, hheld.id_eq, hserved⟩
  | delivered => exact absurd hop' List.not_mem_nil
  | removed urls index =>
    rw [mem_nextDeletion hop']
    exact ⟨hentitled, trivial⟩
  | kept urls index =>
    rw [mem_nextDeletion hop']
    exact ⟨hentitled, trivial⟩
  | deleted => exact absurd hop' List.not_mem_nil

/-- The uploads on record have been given out. -/
theorem issued_answer {r : Reply} (h : ∀ url id, a.home url = some id → url ∈ s.issued)
    (hanswer : Answered s op r s' new) :
    ∀ url id, (a.note s op r).home url = some id → url ∈ s'.issued := by
  cases hanswer with
  | failed => exact h
  | uploaded image rest urls after url hfresh =>
    intro url' id hurl
    rcases Record.of_update hurl with ⟨rfl, -⟩ | ⟨-, hold⟩
    · exact Finset.mem_insert_self _ _
    · exact Finset.mem_insert_of_mem (h url' id hold)
  | created => exact h
  | updated => exact h
  | missing => exact h
  | read => exact h
  | delivered => exact h
  | removed => exact h
  | kept => exact h
  | deleted => exact h

theorem attributed_answer {op : Option String × Op} {r : Reply}
    (h : Attributed p (pre ++ op :: post)) (hx : attributed.answer p op r = some (p', new')) :
    Attributed p' (pre ++ post ++ new') := by
  obtain ⟨s, a⟩ := p
  obtain ⟨u, op⟩ := op
  obtain ⟨s', new, hx', rfl, rfl⟩ := answer_of_attributed hx
  have hmem : ∀ {o}, o ∈ pre ++ post → o ∈ pre ++ (u, op) :: post := fun ho =>
    Service.mem_pending_iff.mpr (Or.inr ho)
  have hop : (u, op) ∈ pre ++ (u, op) :: post := Service.mem_pending_iff.mpr (Or.inl rfl)
  obtain ⟨user, hu, hrightful⟩ := h.rightful _ hop
  obtain rfl : u = some user := hu
  have hedits := h.edits _ hop
  have hanswer : Answered s op r s' new := answered_of_answer hx'
  have hextends : a.Extends (a.note s op r) := extends_note h hanswer
  obtain ⟨hforms, hkeeps⟩ := forms_answer h.forms hrightful hanswer
  refine ⟨posts_answer h hrightful.1 hedits hextends hanswer,
    hforms.extend hextends, fun o ho => ?_, fun o ho => ?_, issued_answer h.issued hanswer⟩
  · rcases List.mem_append.mp ho with ho | ho
    · obtain ⟨user', huser', hentitled, hserved⟩ := h.rightful o (hmem ho)
      exact ⟨user', huser', hentitled.extend hextends, hserved.keep hkeeps hextends⟩
    · obtain ⟨op', hop', rfl⟩ := List.mem_map.mp ho
      exact ⟨user, rfl, rightful_answer h hrightful hextends hx' op' hop'⟩
  · rcases List.mem_append.mp ho with ho | ho
    · exact h.edits o (hmem ho)
    · obtain ⟨op', hop', rfl⟩ := List.mem_map.mp ho
      exact edits_answer formData_ofForm hedits hanswer op' hop'

/-- The record only grows. -/
theorem extends_call {x : Call} (hnew : NewId p x)
    (hx : attributed.call p x = some (p', new')) : p.2.Extends p'.2 := by
  obtain ⟨s', new, -, rfl, -⟩ := call_of_attributed hx
  exact extends_noteCall hnew

theorem extends_answer {op : Option String × Op} {r : Reply} (h : Attributed p ops)
    (hx : attributed.answer p op r = some (p', new')) : p.2.Extends p'.2 := by
  obtain ⟨s', new, hanswer, rfl, -⟩ := answer_of_attributed hx
  exact extends_note h (answered_of_answer hanswer)

/-- Operations of the app may be left out. -/
theorem Attributed.mono (h : Attributed p ops) {ops' : List (Option String × Op)}
    (hops : ∀ op ∈ ops', op ∈ ops) : Attributed p ops' :=
  ⟨h.posts, h.forms, fun op hop => h.rightful op (hops op hop),
    fun op hop => h.edits op (hops op hop), h.issued⟩

/-- A rightful operation from elsewhere may join. -/
theorem Attributed.join (h : Attributed p ops) {op : Option String × Op}
    (hrightful : ∃ user, op.1 = some user ∧ op.2.Rightful p.1 p.2 user)
    (hedits : op.2.Edits OfForm) : Attributed p (op :: ops) := by
  refine ⟨h.posts, h.forms, fun o ho => ?_, fun o ho => ?_, h.issued⟩
  · rcases List.mem_cons.mp ho with rfl | ho
    · exact hrightful
    · exact h.rightful o ho
  · rcases List.mem_cons.mp ho with rfl | ho
    · exact hedits
    · exact h.edits o ho

/-- One more device shows a post. -/
theorem Attributed.openPost (h : Attributed p ops) {vm : PostVM} (hvm : p.2.Holds id vm) :
    Attributed ({ p.1 with vms := p.1.vms ++ [vm] }, p.2) ops := by
  refine ⟨h.posts, fun w hw => ?_, fun o ho => ?_, h.edits, h.issued⟩
  · rcases List.mem_append.mp hw with hw | hw
    · exact h.forms w hw
    · exact ⟨id, List.mem_singleton.mp hw ▸ hvm⟩
  · obtain ⟨user, huser, hentitled, hserved⟩ := h.rightful o ho
    exact ⟨user, huser, hentitled, hserved.keep (keeps_append vm) .rfl⟩

/-! ### Runs -/

section

variable {posts : String → Option Document} {objects : Finset URL}
  {es : List (Event Call Reply)} {c : Config (App × Authors) (Option String × Op)}

theorem attributed_of_run
    (hposts : ∀ id document, posts id = some document → a.Ascribes id document)
    (hobjects : ∀ url id, a.home url = some id → url ∈ objects)
    (hnew : attributed.machine.Along (Service.OnCall NewId)
      ⟨(App.start posts objects, a), []⟩ es)
    (hrun : attributed.machine.run ⟨(App.start posts objects, a), []⟩ es = some c) :
    Attributed c.core c.pending := by
  refine Service.run_inv (I := Attributed) ?_ ?_ ?_ hnew hrun
  · intro p ops x p' new h hP hx
    exact attributed_call h hP hx
  · intro p pre op post r p' new h _ hx
    exact attributed_answer h hx
  · exact ⟨hposts, List.forall_mem_nil _, List.forall_mem_nil _, List.forall_mem_nil _, hobjects⟩

/-- **Whatever is outstanding its user may ask for**, in every state of the app, and every
stored post names the user that created it. -/
theorem entitled
    (hposts : ∀ id document, posts id = some document → a.Ascribes id document)
    (hobjects : ∀ url id, a.home url = some id → url ∈ objects)
    (hnew : attributed.machine.Along (Service.OnCall NewId)
      ⟨(App.start posts objects, a), []⟩ es)
    (hrun : attributed.machine.run ⟨(App.start posts objects, a), []⟩ es = some c) :
    (∀ id document, c.core.1.posts id = some document → c.core.2.Ascribes id document) ∧
      ∀ op ∈ c.pending, ∃ user, op.1 = some user ∧ op.2.Entitled c.core.2 user := by
  have h := attributed_of_run hposts hobjects hnew hrun
  refine ⟨h.posts, fun op hop => ?_⟩
  obtain ⟨user, huser, hentitled, -⟩ := h.rightful op hop
  exact ⟨user, huser, hentitled⟩

/-- Nobody has done anything. -/
def Authors.none : Authors := ⟨fun _ => Option.none, fun _ => Option.none⟩

/-- Ann posts an image, Bob and Ann open the post, Bob likes it and Ann deletes it. -/
def likedAndDeleted : List (Event Call Reply) :=
  [.call (.submit (some "ann") ⟨"Carl", 0, "Duke University", "Durham", "hi", []⟩ ["i"] "p" 0),
    .answer 0 (.uploaded "u"), .answer 0 .ok, .call (.openPost (some "bob") "p"),
    .call (.openPost (some "ann") "p"), .call (.like 0), .call (.deletePost 1)]

theorem newId_likedAndDeleted : attributed.machine.Along (Service.OnCall NewId)
    ⟨(App.start (fun _ => none) ∅, .none), []⟩ likedAndDeleted := by decide +kernel

theorem entitled_example : ∃ c, attributed.machine.run
      ⟨(App.start (fun _ => none) ∅, .none), []⟩ likedAndDeleted = some c ∧
    (c.pending.map Prod.fst) = [some "bob", some "ann"] ∧
    ∀ op ∈ c.pending, ∃ user, op.1 = some user ∧ op.2.Entitled c.core.2 user := by
  have hrun : ∃ c, attributed.machine.run
      ⟨(App.start (fun _ => none) ∅, .none), []⟩ likedAndDeleted = some c ∧
      c.pending.map Prod.fst = [some "bob", some "ann"] := ⟨_, rfl, rfl⟩
  obtain ⟨c, hrun, husers⟩ := hrun
  exact ⟨c, hrun, husers,
    (entitled (by simp) (by simp [Authors.none]) newId_likedAndDeleted hrun).2⟩

/-- What an operation asks of the store, of the document that is there by then. -/
def Op.request (s : App) (user : String) : Op → Option Request
  | setData id _ => some ⟨some user, if s.posts id = none then .create else .update,
      ["Posts", id], s.posts id⟩
  | updateData _ id _ => some ⟨some user, .update, ["Posts", id], s.posts id⟩
  | getDocument _ id => some ⟨some user, .read, ["Posts", id], s.posts id⟩
  | deleteDocument id => some ⟨some user, .delete, ["Posts", id], s.posts id⟩
  | _ => none

/-- **The rules admit what the app asks for**, but for the deletion of a post that is gone. -/
theorem allows_iff
    (hposts : ∀ id document, posts id = some document → a.Ascribes id document)
    (hobjects : ∀ url id, a.home url = some id → url ∈ objects)
    (hnew : attributed.machine.Along (Service.OnCall NewId)
      ⟨(App.start posts objects, a), []⟩ es)
    (hrun : attributed.machine.run ⟨(App.start posts objects, a), []⟩ es = some c)
    {op : Option String × Op} (hop : op ∈ c.pending) :
    ∃ user, op.1 = some user ∧ ∀ request, op.2.request c.core.1 user = some request →
      (allows request = true ↔ (request.method = .delete → request.resource ≠ none)) := by
  have h := attributed_of_run hposts hobjects hnew hrun
  obtain ⟨u, op⟩ := op
  obtain ⟨user, huser, hentitled, -⟩ := h.rightful _ hop
  refine ⟨user, huser, fun request hrequest => ?_⟩
  cases op with
  | setData id p =>
    obtain rfl := Option.some.inj hrequest
    by_cases hnone : c.core.1.posts id = none
    · rw [if_pos hnone]
      exact iff_of_true rfl fun hmethod => Method.noConfusion hmethod
    · rw [if_neg hnone]
      exact iff_of_true rfl fun hmethod => Method.noConfusion hmethod
  | updateData i id change =>
    obtain rfl := Option.some.inj hrequest
    exact iff_of_true rfl fun hmethod => Method.noConfusion hmethod
  | getDocument i id =>
    obtain rfl := Option.some.inj hrequest
    exact iff_of_true rfl fun hmethod => Method.noConfusion hmethod
  | deleteDocument id =>
    obtain rfl := Option.some.inj hrequest
    cases hdoc : c.core.1.posts id with
    | none => exact iff_of_false Bool.false_ne_true fun h => h rfl rfl
    | some document =>
      obtain ⟨author, hauthor, hposter, -⟩ := h.posts id document hdoc
      obtain rfl := Option.some.inj (hauthor.symm.trans hentitled)
      refine iff_of_true ?_ fun _ => Option.some_ne_none document
      simp [allows, Request.signedIn, Request.isPoster, hposter]
  | upload => exact absurd hrequest (by simp [Op.request])
  | response => exact absurd hrequest (by simp [Op.request])
  | deleteImage => exact absurd hrequest (by simp [Op.request])

theorem allows_iff_example : ∃ c, attributed.machine.run
      ⟨(App.start (fun _ => none) ∅, .none), []⟩ likedAndDeleted = some c ∧
    allows ⟨some "ann", .delete, ["Posts", "p"], c.core.1.posts "p"⟩ = true := by
  have hrun : ∃ c, attributed.machine.run
      ⟨(App.start (fun _ => none) ∅, .none), []⟩ likedAndDeleted = some c ∧
      (some "ann", .deleteDocument "p") ∈ c.pending ∧ c.core.1.posts "p" ≠ none :=
    ⟨_, rfl, List.mem_cons_of_mem _ List.mem_cons_self, Option.some_ne_none _⟩
  obtain ⟨c, hrun, hop, hpost⟩ := hrun
  obtain ⟨user, huser, hallows⟩ :=
    allows_iff (by simp) (by simp [Authors.none]) newId_likedAndDeleted hrun hop
  obtain rfl := Option.some.inj huser
  exact ⟨c, hrun, (hallows _ rfl).mpr fun _ => hpost⟩

end

end Subtle.Feed
