import Subtle.Feed.System

/-!
# The pictures of a post exist

A save lists pictures in a post and deletes others, and the two are answered in any
order.  An object is safe when it exists and no outstanding deletion reaches it.
As long as nothing goes wrong, every picture that a stored post lists is safe, or
an outstanding update of the post drops it.

Three things can go wrong: a save lists a picture that is not safe, a save deletes a
picture that is listed elsewhere, and the update that would have dropped a picture is
rejected although the deletion goes on.  `Careful` excludes them step by step.

* `Sound`: the invariant.
* `sound_call`, `sound_answer`: careful steps keep it.
* `pictures_exist`: **after a careful run that has come to rest every picture that a
  stored post lists exists**.
-/

namespace Subtle.Feed

open Subtle.Firestore Subtle.Lib Subtle.Storage

/-- The pictures that a batch of uploads will list. -/
def After.lists (urls : List URL) : After → List URL
  | addPost _ _ => urls
  | modifyPost _ _ newImages => newImages ++ urls

namespace Op

/-- The pictures that an operation lists in a post. -/
def lists : Op → List URL
  | upload _ _ urls after => after.lists urls
  | setData _ post => post.pictures
  | updateData _ _ (.edit data) => pictures data
  | _ => []

/-- The objects that an operation deletes, now or later. -/
def deletes : Op → List URL
  | deleteImage urls index => urls.drop index
  | _ => []

/-- The operation updates the post and does not list the picture. -/
def Drops (id : String) (url : URL) : Op → Prop
  | updateData _ id' (.edit data) => id' = id ∧ data "pictures" ≠ none ∧ url ∉ pictures data
  | _ => False

end Op

/-- The object exists, and no outstanding deletion reaches it. -/
def Safe (s : App) (ops : List Op) (url : URL) : Prop :=
  url ∈ s.objects ∧ ∀ op ∈ ops, url ∉ op.deletes

/-- The picture of a post is safe, or an outstanding update drops it. -/
def Covered (s : App) (ops : List Op) (id : String) (url : URL) : Prop :=
  Safe s ops url ∨ ∃ op ∈ ops, op.Drops id url

/-- A save lists safe pictures only and deletes none that is listed elsewhere; an
update of the edit form is rejected only if the pictures of its post are covered
without it. -/
def Careful (c : Config App Op) : Event Call Reply → Prop
  | .call (.save i) => ∀ vm, c.core.vms[i]? = some vm →
      (∀ url ∈ vm.editImages, Safe c.core c.pending url) ∧
      (vm.additionalImages = [] → ∀ url ∈ vm.imagesToDelete,
        (∀ op ∈ c.pending, url ∉ op.lists) ∧
        ∀ id document, c.core.posts id = some document → url ∈ pictures document →
          vm.post.id = some id)
  | .answer k .error => ∀ i id data, c.pending[k]? = some (.updateData i id (.edit data)) →
      ∀ document, c.core.posts id = some document → ∀ url ∈ pictures document,
        Covered c.core (c.pending.eraseIdx k) id url
  | _ => True

/-- The pictures of an edit form have been given out, and the removed ones are not in
the form. -/
structure Known (issued : Finset URL) (vm : PostVM) : Prop where
  edit : ∀ url ∈ vm.editImages, url ∈ issued
  selected : vm.selected ⊆ issued
  delete : ∀ url ∈ vm.imagesToDelete, url ∈ issued ∧ url ∉ vm.editImages

structure Sound (s : App) (ops : List Op) : Prop where
  stored : ∀ id document, s.posts id = some document → ∀ url ∈ pictures document,
    Covered s ops id url
  listed : ∀ op ∈ ops, ∀ url ∈ op.lists, Safe s ops url
  objects : s.objects ⊆ s.issued
  deleted : ∀ op ∈ ops, ∀ url ∈ op.deletes, url ∈ s.issued
  known : ∀ id document, s.posts id = some document → ∀ url ∈ pictures document, url ∈ s.issued
  forms : ∀ vm ∈ s.vms, Known s.issued vm

variable {s s' : App} {ops new pre post : List Op} {op : Op} {url : URL} {id : String}

theorem Safe.mono (h : Safe s ops url) (hobjects : url ∈ s.objects → url ∈ s'.objects)
    {ops' : List Op} (hops : ∀ op ∈ ops', url ∈ op.deletes → ∃ op' ∈ ops, url ∈ op'.deletes) :
    Safe s' ops' url := by
  refine ⟨hobjects h.1, ?_⟩
  intro op hop hdel
  obtain ⟨op', hop', hdel'⟩ := hops op hop hdel
  exact h.2 op' hop' hdel'

theorem Safe.discard (h : Safe s (pre ++ op :: post) url) : Safe s (pre ++ post) url := by
  refine h.mono (fun hmem => hmem) ?_
  intro op' hop' hdel
  exact ⟨op', Service.mem_pending_iff.mpr (Or.inr hop'), hdel⟩

namespace Sound

/-! ### What keeps the pictures sound -/

/-- An operation is answered. -/
theorem discard (h : Sound s (pre ++ op :: post))
    (hcover : ∀ id document, s.posts id = some document → ∀ url ∈ pictures document,
      op.Drops id url → Covered s (pre ++ post) id url) : Sound s (pre ++ post) := by
  have hmem : ∀ {op'}, op' ∈ pre ++ post → op' ∈ pre ++ op :: post := fun hop' =>
    Service.mem_pending_iff.mpr (Or.inr hop')
  refine ⟨?_, ?_, h.objects, fun op' hop' => h.deleted op' (hmem hop'), h.known, h.forms⟩
  · intro id document hdoc url hurl
    rcases h.stored id document hdoc url hurl with hsafe | ⟨op', hop', hdrops⟩
    · exact Or.inl hsafe.discard
    · rcases Service.mem_pending_iff.mp hop' with rfl | hop'
      · exact hcover id document hdoc url hurl hdrops
      · exact Or.inr ⟨op', hop', hdrops⟩
  · intro op' hop' url hurl
    exact (h.listed op' (hmem hop') url hurl).discard

/-- Operations are issued. -/
theorem issue (h : Sound s ops)
    (hlists : ∀ op ∈ new, ∀ url ∈ op.lists, Safe s (ops ++ new) url)
    (hdeletes : ∀ op ∈ new, ∀ url ∈ op.deletes, url ∈ s.issued ∧
      (∀ op' ∈ ops, url ∉ op'.lists) ∧
      ∀ id document, s.posts id = some document → url ∈ pictures document →
        ∃ op' ∈ ops ++ new, op'.Drops id url) : Sound s (ops ++ new) := by
  have hkeep : ∀ {url}, Safe s ops url → (∀ op ∈ new, url ∉ op.deletes) →
      Safe s (ops ++ new) url := by
    intro url hsafe hnew
    refine ⟨hsafe.1, ?_⟩
    intro op hop
    rcases List.mem_append.mp hop with hop | hop
    · exact hsafe.2 op hop
    · exact hnew op hop
  refine ⟨?_, ?_, h.objects, ?_, h.known, h.forms⟩
  · intro id document hdoc url hurl
    by_cases hnew : ∃ op ∈ new, url ∈ op.deletes
    · obtain ⟨op, hop, hdel⟩ := hnew
      exact Or.inr ((hdeletes op hop url hdel).2.2 id document hdoc hurl)
    · have hnone : ∀ op ∈ new, url ∉ op.deletes := fun op hop hdel => hnew ⟨op, hop, hdel⟩
      rcases h.stored id document hdoc url hurl with hsafe | ⟨op', hop', hdrops⟩
      · exact Or.inl (hkeep hsafe hnone)
      · exact Or.inr ⟨op', List.mem_append_left _ hop', hdrops⟩
  · intro op hop url hurl
    rcases List.mem_append.mp hop with hop | hop
    · refine hkeep (h.listed op hop url hurl) ?_
      intro op' hop' hdel
      exact (hdeletes op' hop' url hdel).2.1 op hop hurl
    · exact hlists op hop url hurl
  · intro op hop url hurl
    rcases List.mem_append.mp hop with hop | hop
    · exact h.deleted op hop url hurl
    · exact (hdeletes op hop url hurl).1

/-- Operations that delete nothing are issued. -/
theorem issue_of_safe (h : Sound s ops)
    (hnew : ∀ op ∈ new, op.deletes = [] ∧ ∀ url ∈ op.lists, Safe s ops url) :
    Sound s (ops ++ new) := by
  refine h.issue ?_ ?_
  · intro op hop url hurl
    refine ((hnew op hop).2 url hurl).mono (fun hmem => hmem) ?_
    intro op' hop' hdel
    rcases List.mem_append.mp hop' with hop' | hop'
    · exact ⟨op', hop', hdel⟩
    · rw [(hnew op' hop').1] at hdel
      exact absurd hdel List.not_mem_nil
  · intro op hop url hurl
    rw [(hnew op hop).1] at hurl
    exact absurd hurl List.not_mem_nil

/-- Operations that neither list nor delete a picture are issued. -/
theorem issue_idle (h : Sound s ops) (hnew : ∀ op ∈ new, op.deletes = [] ∧ op.lists = []) :
    Sound s (ops ++ new) := by
  refine h.issue_of_safe ?_
  intro op hop
  obtain ⟨hdel, hlists⟩ := hnew op hop
  rw [hlists]
  exact ⟨hdel, List.forall_mem_nil _⟩

/-- The edit forms change. -/
theorem of_vms (h : Sound s ops) {vms : List PostVM} (hvms : ∀ vm ∈ vms, Known s.issued vm) :
    Sound { s with vms := vms } ops :=
  ⟨h.stored, h.listed, h.objects, h.deleted, h.known, hvms⟩

/-- The stored posts change. -/
theorem of_posts (h : Sound s ops) {posts : String → Option Document}
    {history : String → Option (Document × List Change)}
    (hposts : ∀ id document, posts id = some document → ∀ url ∈ pictures document,
      url ∈ s.issued ∧ Covered s ops id url) :
    Sound { s with posts := posts, history := history } ops :=
  ⟨fun id document hdoc url hurl => (hposts id document hdoc url hurl).2, h.listed, h.objects,
    h.deleted, fun id document hdoc url hurl => (hposts id document hdoc url hurl).1, h.forms⟩

/-- An object is uploaded. -/
theorem upload (h : Sound s ops) :
    Sound { s with objects := insert url s.objects, issued := insert url s.issued } ops := by
  have hsafe : ∀ {u}, Safe s ops u →
      Safe { s with objects := insert url s.objects, issued := insert url s.issued } ops u := by
    intro u hu
    exact hu.mono Finset.mem_insert_of_mem fun op hop hdel => ⟨op, hop, hdel⟩
  refine ⟨?_, ?_, Finset.insert_subset_insert _ h.objects, ?_, ?_, ?_⟩
  · intro id document hdoc u hu
    exact (h.stored id document hdoc u hu).imp_left hsafe
  · intro op hop u hu
    exact hsafe (h.listed op hop u hu)
  · intro op hop u hu
    exact Finset.mem_insert_of_mem (h.deleted op hop u hu)
  · intro id document hdoc u hu
    exact Finset.mem_insert_of_mem (h.known id document hdoc u hu)
  · intro vm hvm
    obtain ⟨hedit, hselected, hdelete⟩ := h.forms vm hvm
    refine ⟨?_, fun u hu => Finset.mem_insert_of_mem (hselected hu), ?_⟩
    · intro u hu
      exact Finset.mem_insert_of_mem (hedit u hu)
    · intro u hu
      exact ⟨Finset.mem_insert_of_mem (hdelete u hu).1, (hdelete u hu).2⟩

/-- An object is deleted that an outstanding deletion reaches. -/
theorem delete (h : Sound s ops) {urls : List URL} {index : Nat}
    (hop : .deleteImage urls index ∈ ops) :
    Sound { s with objects := s.objects.filter fun url => urls[index]? ≠ some url } ops := by
  have hsafe : ∀ {u}, Safe s ops u →
      Safe { s with objects := s.objects.filter fun url => urls[index]? ≠ some url } ops u := by
    intro u hu
    refine hu.mono ?_ fun op hop hdel => ⟨op, hop, hdel⟩
    intro hmem
    refine Finset.mem_filter.mpr ⟨hmem, ?_⟩
    intro hget
    refine hu.2 _ hop ?_
    show u ∈ urls.drop index
    exact List.mem_of_getElem? (i := 0) (by rw [List.getElem?_drop]; exact hget)
  refine ⟨?_, ?_, (Finset.filter_subset _ _).trans h.objects, h.deleted, h.known, h.forms⟩
  · intro id document hdoc u hu
    exact (h.stored id document hdoc u hu).imp_left hsafe
  · intro op hop u hu
    exact hsafe (h.listed op hop u hu)

end Sound

/-! ### The operations that are issued -/

/-- The save of a shown edit form drops the pictures that it does not list. -/
theorem exists_drops {i : Nat} {vm : PostVM} {params : Document} {urls : List URL}
    (hshows : vm.showsEdit = true) (hid : vm.post.id = some id) (hurl : url ∉ urls) :
    ∃ op ∈ modifyPost i vm (PostVM.withPictures params urls), op.Drops id url := by
  have huser : vm.currentUser = some vm.post.posterId := by simpa [PostVM.showsEdit] using hshows
  refine ⟨.updateData i id (.edit (PostVM.withPictures params urls)), ?_, rfl, ?_, ?_⟩
  · simp [modifyPost, huser, hid]
  · simp [PostVM.withPictures]
  · rwa [PostVM.pictures_withPictures]

theorem mem_addImageHelper {after : After} {urls : List URL} {images : List UIImage}
    (h : op ∈ s.addImageHelper urls after images) :
    op.deletes = [] ∧ op.lists = after.lists urls := by
  cases images with
  | cons image rest =>
    obtain rfl := List.mem_singleton.mp h
    exact ⟨rfl, rfl⟩
  | nil =>
    cases after with
    | addPost currentUser p =>
      obtain ⟨id, rfl⟩ := mem_addPost h
      exact ⟨rfl, rfl⟩
    | modifyPost i params newImages =>
      simp only [App.addImageHelper, App.uploaded] at h
      split at h
      · obtain ⟨id, rfl⟩ := mem_modifyPost h
        exact ⟨rfl, PostVM.pictures_withPictures _ _⟩
      · exact absurd h List.not_mem_nil

theorem mem_addImages {currentUser : Option String} {after : After} {images : List UIImage}
    (h : op ∈ s.addImages currentUser images after) :
    op.deletes = [] ∧ op.lists = after.lists [] := by
  unfold App.addImages at h
  split at h
  · exact mem_addImageHelper h
  · exact absurd h List.not_mem_nil

theorem mem_deletes_succ {urls : List URL} {index : Nat}
    (h : url ∈ (Op.deleteImage urls (index + 1)).deletes) :
    url ∈ (Op.deleteImage urls index).deletes := by
  have hsub : urls.drop (index + 1) <:+ urls.drop index := by
    rw [← List.drop_drop]
    exact List.drop_suffix 1 _
  exact hsub.subset h

/-! ### Calls -/

/-- An edit form changes. -/
theorem Sound.set_form (h : Sound s ops) {i : Nat} {vm' : PostVM} (hknown : Known s.issued vm') :
    Sound { s with vms := s.vms.set i vm' } (ops ++ []) := by
  rw [List.append_nil]
  refine h.of_vms ?_
  intro vm hvm
  rcases List.mem_or_eq_of_mem_set hvm with hvm | rfl
  · exact h.forms vm hvm
  · exact hknown

theorem known_init (h : Sound s ops) {currentUser : Option String} {p : Post} {document : Document}
    (hdoc : s.posts id = some document) (hdecode : Post.decode id document = some p) :
    Known s.issued (PostVM.init currentUser p) := by
  refine ⟨?_, Finset.empty_subset _, ?_⟩
  · intro url hurl
    refine h.known id document hdoc url ?_
    rw [← pictures_decode hdecode]
    exact hurl
  · intro url hurl
    exact absurd hurl List.not_mem_nil

theorem known_toggle {issued : Finset URL} {vm : PostVM} (h : Known issued vm)
    (hurl : url ∈ vm.editImages) : Known issued (vm.toggle url) := by
  refine ⟨h.edit, ?_, h.delete⟩
  show (if url ∈ vm.selected then vm.selected.erase url else insert url vm.selected) ⊆ issued
  split
  · exact (Finset.erase_subset _ _).trans h.selected
  · exact Finset.insert_subset (h.edit url hurl) h.selected

theorem known_deleteImages {issued : Finset URL} {vm : PostVM} (h : Known issued vm)
    {imagesToRetain deleted : List URL}
    (hretain : PostVM.Enumerates imagesToRetain (vm.editImages.toFinset \ vm.selected))
    (hdeleted : PostVM.Enumerates deleted vm.selected) :
    Known issued (vm.deleteImages imagesToRetain deleted) := by
  have hkept : ∀ {url}, url ∈ imagesToRetain → url ∈ vm.editImages ∧ url ∉ vm.selected := by
    intro url hurl
    have hmem := (PostVM.mem_of_enumerates hretain).mp hurl
    rw [Finset.mem_sdiff, List.mem_toFinset] at hmem
    exact hmem
  refine ⟨?_, Finset.empty_subset _, ?_⟩
  · intro url hurl
    exact h.edit url (hkept hurl).1
  · intro url hurl
    rcases List.mem_append.mp hurl with hurl | hurl
    · exact ⟨(h.delete url hurl).1, fun hin => (h.delete url hurl).2 (hkept hin).1⟩
    · have hsel := (PostVM.mem_of_enumerates hdeleted).mp hurl
      exact ⟨h.selected hsel, fun hin => (hkept hin).2 hsel⟩

/-- The deletions of a save without new images reach removed pictures only. -/
theorem mem_imagesToDelete {i : Nat} {vm : PostVM} {data : Document}
    (hop : op ∈ modifyPost i vm data ++ startDeletion vm.currentUser vm.imagesToDelete)
    (hurl : url ∈ op.deletes) : url ∈ vm.imagesToDelete := by
  rcases List.mem_append.mp hop with hop | hop
  · obtain ⟨id, rfl⟩ := mem_modifyPost hop
    exact absurd hurl List.not_mem_nil
  · obtain ⟨index, rfl⟩ := mem_startDeletion hop
    exact List.mem_of_mem_drop hurl

/-- Its update lists the pictures of the form. -/
theorem mem_editImages {i : Nat} {vm : PostVM} {params : Document}
    (hop : op ∈ modifyPost i vm (PostVM.withPictures params vm.editImages) ++
      startDeletion vm.currentUser vm.imagesToDelete)
    (hurl : url ∈ op.lists) : url ∈ vm.editImages := by
  rcases List.mem_append.mp hop with hop | hop
  · obtain ⟨id, rfl⟩ := mem_modifyPost hop
    rw [← PostVM.pictures_withPictures params vm.editImages]
    exact hurl
  · obtain ⟨index, rfl⟩ := mem_startDeletion hop
    exact absurd hurl List.not_mem_nil

/-- **A careful save keeps the pictures sound.** -/
theorem sound_save (h : Sound s ops) {i : Nat} {vm : PostVM} (hvm : s.vms[i]? = some vm)
    (hshows : vm.showsEdit = true) (hcareful : Careful ⟨s, ops⟩ (.call (.save i))) :
    Sound s (ops ++ editPostAndImages s i vm) := by
  obtain ⟨hsafe, hremove⟩ := hcareful vm hvm
  have hknown := h.forms vm (List.mem_of_getElem? hvm)
  unfold editPostAndImages
  split
  · refine h.issue_of_safe ?_
    intro op hop
    obtain ⟨hdel, hlists⟩ := mem_addImages hop
    refine ⟨hdel, ?_⟩
    intro url hurl
    rw [hlists] at hurl
    exact hsafe url (by simpa [After.lists] using hurl)
  · rename_i hnone
    have hremove := hremove (not_not.mp hnone)
    refine h.issue ?_ ?_
    · intro op hop url hurl
      have hurl := mem_editImages hop hurl
      refine ⟨(hsafe url hurl).1, ?_⟩
      intro op' hop' hdel
      rcases List.mem_append.mp hop' with hop' | hop'
      · exact (hsafe url hurl).2 op' hop' hdel
      · exact (hknown.delete url (mem_imagesToDelete hop' hdel)).2 hurl
    · intro op hop url hurl
      have hdel := mem_imagesToDelete hop hurl
      refine ⟨(hknown.delete url hdel).1, (hremove url hdel).1, ?_⟩
      -- the post that lists a removed picture is the one that the update drops it from
      intro id document hdoc hlisted
      have hid := (hremove url hdel).2 id document hdoc hlisted
      obtain ⟨op', hop', hdrops⟩ := exists_drops (i := i) hshows hid (hknown.delete url hdel).2
      exact ⟨op', List.mem_append_right _ (List.mem_append_left _ hop'), hdrops⟩

theorem sound_submit (h : Sound s ops) (currentUser : Option String) (p : Post)
    (images : List UIImage) : Sound s (ops ++ addPostAndImages s currentUser p images) := by
  refine h.issue_of_safe ?_
  intro op hop
  obtain ⟨hdel, hlists⟩ := mem_addImages hop
  refine ⟨hdel, ?_⟩
  intro url hurl
  rw [hlists] at hurl
  exact absurd hurl List.not_mem_nil

/-- **A careful call keeps the pictures sound.** -/
theorem sound_call (h : Sound s ops) {x : Call} (hcareful : Careful ⟨s, ops⟩ (.call x))
    (hcall : Called s x s' new) : Sound s' (ops ++ new) := by
  have hform : ∀ {i : Nat} {vm}, s.vms[i]? = some vm → Known s.issued vm := fun hvm =>
    h.forms _ (List.mem_of_getElem? hvm)
  cases hcall with
  | submitted currentUser form images id creationDate p hp =>
    exact sound_submit h currentUser p images
  | opened currentUser id document p hdoc hdecode =>
    rw [List.append_nil]
    refine h.of_vms ?_
    intro vm hvm
    rcases List.mem_append.mp hvm with hvm | hvm
    · exact h.forms vm hvm
    · obtain rfl := List.mem_singleton.mp hvm
      exact known_init h hdoc hdecode
  | filled i form vm hvm =>
    exact h.set_form ⟨(hform hvm).edit, (hform hvm).selected, (hform hvm).delete⟩
  | imageAdded i image vm hvm =>
    exact h.set_form ⟨(hform hvm).edit, (hform hvm).selected, (hform hvm).delete⟩
  | toggled i url vm hvm hurl => exact h.set_form (known_toggle (hform hvm) hurl)
  | imagesDeleted i imagesToRetain deleted vm hvm hretain hdeleted =>
    exact h.set_form (known_deleteImages (hform hvm) hretain hdeleted)
  | saved i vm hvm hshows => exact sound_save h hvm hshows hcareful
  | liked i vm =>
    refine h.issue_idle ?_
    intro op hop
    obtain ⟨id, user, rfl⟩ := mem_likePost hop
    exact ⟨rfl, rfl⟩
  | unliked i vm =>
    refine h.issue_idle ?_
    intro op hop
    obtain ⟨id, user, rfl⟩ := mem_unlikePost hop
    exact ⟨rfl, rfl⟩
  | postDeleted i vm =>
    refine h.issue_idle ?_
    intro op hop
    obtain ⟨id, rfl⟩ := mem_deletePost hop
    exact ⟨rfl, rfl⟩

/-! ### Answers -/

/-- An answered operation that is no update of the edit form is not missed. -/
theorem Sound.answered (h : Sound s (pre ++ op :: post ++ new))
    (hno : ∀ id url, ¬ op.Drops id url) : Sound s (pre ++ post ++ new) := by
  rw [List.append_assoc, List.cons_append] at h
  rw [List.append_assoc]
  exact h.discard fun id _ _ url _ hdrops => absurd hdrops (hno id url)

/-- An operation without further operations is answered. -/
theorem Sound.answered_nil (h : Sound s (pre ++ op :: post))
    (hno : ∀ id url, ¬ op.Drops id url) : Sound s (pre ++ post ++ []) :=
  Sound.answered (by rwa [List.append_nil]) hno

theorem sound_upload {image : UIImage} {rest : List UIImage} {urls : List URL} {after : After}
    (h : Sound s (pre ++ .upload image rest urls after :: post)) (hfresh : url ∉ s.issued) :
    Sound { s with objects := insert url s.objects, issued := insert url s.issued }
      (pre ++ post ++ App.addImageHelper
        { s with objects := insert url s.objects, issued := insert url s.issued }
        (urls ++ [url]) after rest) := by
  refine Sound.answered (h.upload.issue_of_safe ?_) fun id u hdrops => hdrops
  intro op hop
  obtain ⟨hdel, hlists⟩ := mem_addImageHelper hop
  refine ⟨hdel, ?_⟩
  intro u hu
  rw [hlists] at hu
  have hmem : u ∈ after.lists urls ∨ u = url := by
    cases after <;> simpa [After.lists, or_assoc] using hu
  rcases hmem with hu | rfl
  · exact h.upload.listed (.upload image rest urls after) (by simp) u hu
  · refine ⟨Finset.mem_insert_self _ _, ?_⟩
    intro op' hop' hdel'
    exact hfresh (h.deleted op' hop' _ hdel')

theorem sound_setData {p : Post} (h : Sound s (pre ++ .setData id p :: post)) :
    Sound { s with
        posts := Function.update s.posts id (some p.encode)
        history := Function.update s.history id (some (p.encode, [])) } (pre ++ post ++ []) := by
  refine Sound.answered_nil (h.of_posts ?_) fun id u hdrops => hdrops
  intro id' document hdoc u hu
  rcases Record.of_update hdoc with ⟨rfl, hnew⟩ | ⟨-, hold⟩
  · obtain rfl := Option.some.inj hnew
    rw [pictures_encode] at hu
    have hsafe : Safe s _ u := h.listed (.setData id' p) (by simp) u hu
    exact ⟨h.objects hsafe.1, Or.inl hsafe⟩
  · exact ⟨h.known id' document hold u hu, h.stored id' document hold u hu⟩

/-- The pictures of a post after a write are those of the post or those that the write
lists. -/
theorem pictures_commit (change : Change) (document : Document) :
    pictures (change.commit document) = pictures document ∨
      ∃ data, change = .edit data ∧ data "pictures" ≠ none ∧
        pictures (change.commit document) = pictures data := by
  cases change with
  | edit data =>
    cases hdata : data "pictures" with
    | none =>
      left
      simp [pictures, Change.commit, Record.overwrite, hdata]
    | some v =>
      right
      refine ⟨data, rfl, by simp [hdata], ?_⟩
      simp [pictures, Change.commit, Record.overwrite, hdata]
  | like likerId => exact Or.inl rfl
  | unlike unlikerId => exact Or.inl rfl

/-- An update drops none of the pictures that the post has after it. -/
theorem not_drops_commit {i : Nat} {id' : String} {change : Change} {document : Document}
    (hurl : url ∈ pictures (change.commit document)) :
    ¬ (Op.updateData i id change).Drops id' url := by
  intro hdrops
  cases change with
  | like likerId => exact hdrops
  | unlike unlikerId => exact hdrops
  | edit data =>
    obtain ⟨-, hdata, hnot⟩ := hdrops
    obtain ⟨v, hv⟩ := Option.ne_none_iff_exists'.mp hdata
    refine hnot ?_
    simpa [pictures, Change.commit, Record.overwrite, hv] using hurl

theorem sound_commit {i : Nat} {change : Change} {document : Document}
    (h : Sound s ops) (hop : .updateData i id change ∈ ops) (hdoc : s.posts id = some document)
    (history : String → Option (Document × List Change)) :
    Sound { s with
        posts := Function.update s.posts id (some (change.commit document))
        history := history } ops := by
  refine h.of_posts ?_
  intro id' document' hdoc' u hu
  rcases Record.of_update hdoc' with ⟨rfl, hnew⟩ | ⟨-, hold⟩
  · obtain rfl := Option.some.inj hnew
    rcases pictures_commit change document with hsame | ⟨data, rfl, -, hlists⟩
    · rw [hsame] at hu
      exact ⟨h.known id' document hdoc u hu, h.stored id' document hdoc u hu⟩
    · rw [hlists] at hu
      have hsafe : Safe s ops u := h.listed (.updateData i id' (.edit data)) hop u hu
      exact ⟨h.objects hsafe.1, Or.inl hsafe⟩
  · exact ⟨h.known id' document' hold u hu, h.stored id' document' hold u hu⟩

theorem sound_updateData {i : Nat} {change : Change} {document : Document}
    (h : Sound s (pre ++ .updateData i id change :: post)) (hdoc : s.posts id = some document) :
    Sound { s with
        posts := Function.update s.posts id (some (change.commit document))
        history := Function.update s.history id
          ((s.history id).map fun h => (h.1, h.2 ++ [change])) }
      (pre ++ post ++ [.getDocument i id]) := by
  have hop : .updateData i id change ∈ pre ++ .updateData i id change :: post := by simp
  have hcommitted := sound_commit h hop hdoc
    (Function.update s.history id ((s.history id).map fun h => (h.1, h.2 ++ [change])))
  have hissued := @Sound.issue_idle _ _ [.getDocument i id] hcommitted
    (by simp [Op.deletes, Op.lists])
  rw [List.append_assoc, List.cons_append] at hissued
  rw [List.append_assoc]
  refine hissued.discard ?_
  -- the update that is answered has taken effect
  intro id' document' hdoc' u hu hdrops
  by_cases hid : id' = id
  · subst hid
    have hcommit : document' = change.commit document :=
      Option.some.inj (hdoc'.symm.trans (Function.update_self _ _ _))
    rw [hcommit] at hu
    exact absurd hdrops (not_drops_commit hu)
  · cases change with
    | like likerId => exact absurd hdrops not_false
    | unlike unlikerId => exact absurd hdrops not_false
    | edit data => exact absurd hdrops.1.symm hid

theorem sound_nextDeletion {urls : List URL} {index : Nat} (ok : Bool)
    (h : Sound s (pre ++ .deleteImage urls index :: post)) :
    Sound s (pre ++ post ++ nextDeletion urls index ok) := by
  refine Sound.answered (h.issue ?_ ?_) fun id u hdrops => hdrops
  · intro op hop u hu
    rw [mem_nextDeletion hop] at hu
    exact absurd hu List.not_mem_nil
  · intro op hop u hu
    rw [mem_nextDeletion hop] at hu
    -- the rest of the batch was to be deleted already
    have hdel := mem_deletes_succ hu
    have hnot : ¬ Safe s (pre ++ .deleteImage urls index :: post) u := by
      intro hsafe
      exact hsafe.2 _ (by simp) hdel
    refine ⟨h.deleted _ (by simp) u hdel, ?_, ?_⟩
    · intro op' hop' hlisted
      exact hnot (h.listed op' hop' u hlisted)
    · intro id document hdoc hpic
      obtain ⟨op', hop', hdrops⟩ := (h.stored id document hdoc u hpic).resolve_left hnot
      exact ⟨op', List.mem_append_left _ hop', hdrops⟩

theorem sound_delivered (h : Sound s (pre ++ op :: post)) (i : Nat) (p : Post) :
    Sound { s with vms := s.vms.modify i fun vm => { vm with post := p } }
      (pre ++ op :: post) := by
  refine h.of_vms ?_
  intro vm hvm
  obtain ⟨k, hk⟩ := List.mem_iff_getElem?.mp hvm
  rw [List.getElem?_modify] at hk
  obtain ⟨vm₀, hvm₀, rfl⟩ := Option.map_eq_some_iff.mp hk
  have hknown := h.forms vm₀ (List.mem_of_getElem? hvm₀)
  split
  · exact ⟨hknown.edit, hknown.selected, hknown.delete⟩
  · exact hknown

theorem sound_deleted (h : Sound s ops) (id : String) :
    Sound { s with
        posts := Function.update s.posts id none
        history := Function.update s.history id none } ops := by
  refine h.of_posts ?_
  intro id' document hdoc u hu
  rcases Record.of_update hdoc with ⟨-, hnew⟩ | ⟨-, hold⟩
  · exact absurd hnew (Option.some_ne_none _).symm
  · exact ⟨h.known id' document hold u hu, h.stored id' document hold u hu⟩

/-- A rejected operation; the pictures of a post are covered without a rejected
update. -/
theorem sound_failed (h : Sound s (pre ++ op :: post))
    (hcareful : Careful ⟨s, pre ++ op :: post⟩ (.answer pre.length .error)) :
    Sound s (pre ++ post) := by
  refine h.discard ?_
  intro id document hdoc url hurl hdrops
  unfold Op.Drops at hdrops
  split at hdrops
  · rename_i i id' data
    obtain ⟨rfl, -, -⟩ := hdrops
    have hcover := hcareful i id' data (by simp) document hdoc url hurl
    rwa [List.eraseIdx_append_of_length_le (Nat.le_refl _), Nat.sub_self,
      List.eraseIdx_cons_zero] at hcover
  · exact absurd hdrops not_false

/-- **A careful answer keeps the pictures sound.** -/
theorem sound_answer (h : Sound s (pre ++ op :: post)) {r : Reply}
    (hcareful : Careful ⟨s, pre ++ op :: post⟩ (.answer pre.length r))
    (hanswer : Answered s op r s' new) : Sound s' (pre ++ post ++ new) := by
  cases hanswer with
  | failed =>
    rw [List.append_nil]
    exact sound_failed h hcareful
  | uploaded image rest urls after url hfresh => exact sound_upload h hfresh
  | created id p => exact sound_setData h
  | updated i id change document hdoc => exact sound_updateData h hdoc
  | missing i id => exact h.answered_nil fun id u hdrops => hdrops
  | read i id p =>
    exact Sound.answered (h.issue_idle (by simp [Op.deletes, Op.lists])) fun id u hdrops => hdrops
  | delivered i p => exact (sound_delivered h i p).answered_nil fun id u hdrops => hdrops
  | removed urls index => exact sound_nextDeletion true (h.delete (by simp))
  | kept urls index => exact sound_nextDeletion false h
  | deleted id => exact (sound_deleted h id).answered_nil fun id u hdrops => hdrops

/-! ### Whole runs -/

/-- Every picture that a stored post lists exists. -/
def PicturesExist (s : App) : Prop :=
  ∀ id document, s.posts id = some document → ∀ url ∈ pictures document, url ∈ s.objects

theorem sound_start {posts : String → Option Document} {objects : Finset URL}
    (h : PicturesExist (App.start posts objects)) : Sound (App.start posts objects) [] := by
  refine ⟨?_, ?_, Finset.Subset.refl _, ?_, h, ?_⟩
  · intro id document hdoc url hurl
    exact Or.inl ⟨h id document hdoc url hurl, List.forall_mem_nil _⟩
  · intro op hop
    exact absurd hop List.not_mem_nil
  · intro op hop
    exact absurd hop List.not_mem_nil
  · intro vm hvm
    exact absurd hvm List.not_mem_nil

theorem sound_run {c d : Config App Op} {es : List (Event Call Reply)}
    (hstart : Sound c.core c.pending) (hcareful : app.machine.Along Careful c es)
    (h : app.machine.run c es = some d) : Sound d.core d.pending := by
  refine Service.run_inv (I := Sound) ?_ ?_ hstart hcareful h
  · intro s ops x s' new hI hP hcall
    exact sound_call hI hP (called_of_call hcall)
  · intro s pre op post r s' new hI hP hanswer
    exact sound_answer hI hP (answered_of_answer hanswer)

/-- **After a careful run that has come to rest every listed picture exists.** -/
theorem pictures_exist {posts : String → Option Document} {objects : Finset URL}
    {es : List (Event Call Reply)} {d : Config App Op}
    (hstart : PicturesExist (App.start posts objects))
    (hcareful : app.machine.Along Careful ⟨App.start posts objects, []⟩ es)
    (h : app.machine.run ⟨App.start posts objects, []⟩ es = some d) (hquiet : d.pending = []) :
    PicturesExist d.core := by
  have hsound := sound_run (sound_start hstart) hcareful h
  rw [hquiet] at hsound
  intro id document hdoc url hurl
  rcases hsound.stored id document hdoc url hurl with hsafe | ⟨op, hop, -⟩
  · exact hsafe.1
  · exact absurd hop List.not_mem_nil

/-- Ann's post of two pictures. -/
def annsPost : Post where
  id := some "p"
  posterId := "ann"
  name := "Beth"
  university := "Duke University"
  location := "Durham"
  birthday := 0
  text := "Tall"
  likes := []
  tags := []
  taggedUserIds := []
  pictures := ["a", "b"]
  childCommentIds := []
  creationDate := 0

def annsStore : App :=
  App.start (fun id => if id = "p" then some annsPost.encode else none) {"a", "b"}

theorem id_of_annsStore {document : Document} (h : annsStore.posts id = some document) :
    id = "p" ∧ document = annsPost.encode := by
  by_cases hid : id = "p"
  · exact ⟨hid, Option.some.inj (h.symm.trans (if_pos hid))⟩
  · exact absurd (h.symm.trans (if_neg hid)) (Option.some_ne_none _)

theorem annsStore_picturesExist : PicturesExist annsStore := by
  intro id document hdoc
  obtain ⟨-, rfl⟩ := id_of_annsStore hdoc
  decide

/-- Ann removes the first picture and saves. -/
def removal : List (Event Call Reply) :=
  [.call (.openPost (some "ann") "p"), .call (.toggle 0 "a"), .call (.deleteImages 0 ["b"] ["a"]),
    .call (.save 0)]

theorem careful_removal : app.machine.Along Careful ⟨annsStore, []⟩ removal := by
  refine Machine.along_cons rfl trivial (Machine.along_cons rfl trivial
    (Machine.along_cons rfl trivial (Machine.along_cons rfl ?_ trivial)))
  intro vm hvm
  obtain rfl := Option.some.inj hvm
  refine ⟨?_, ?_⟩
  · intro url hurl
    obtain rfl := List.mem_singleton.mp hurl
    exact ⟨by decide, List.forall_mem_nil _⟩
  · intro _ url _
    refine ⟨List.forall_mem_nil _, ?_⟩
    intro id document hdoc _
    rw [(id_of_annsStore hdoc).1]
    rfl

theorem pictures_exist_example : ∃ d, app.machine.run ⟨annsStore, []⟩
      (removal ++ [.answer 0 .ok, .answer 0 .ok, .answer 0 .ok, .answer 0 .ok]) = some d ∧
    d.core.objects = {"b"} ∧ PicturesExist d.core := by
  have hrun : ∃ d, app.machine.run ⟨annsStore, []⟩
      (removal ++ [.answer 0 .ok, .answer 0 .ok, .answer 0 .ok, .answer 0 .ok]) = some d ∧
      d.core.objects = {"b"} ∧ d.pending = [] := ⟨_, rfl, by decide, rfl⟩
  obtain ⟨d, hrun, hobjects, hquiet⟩ := hrun
  refine ⟨d, hrun, hobjects, pictures_exist annsStore_picturesExist ?_ hrun hquiet⟩
  refine Machine.along_append.mpr ⟨careful_removal, ?_⟩
  intro c _
  exact ⟨trivial, fun _ _ => ⟨trivial, fun _ _ => ⟨trivial, fun _ _ => ⟨trivial, fun _ _ =>
    trivial⟩⟩⟩⟩

/-- The update is rejected and the picture deleted. -/
theorem picture_lost : ¬ ∀ (posts : String → Option Document) (objects : Finset URL)
    (es : List (Event Call Reply)) (d : Config App Op),
      PicturesExist (App.start posts objects) →
        app.machine.run ⟨App.start posts objects, []⟩ es = some d → d.pending = [] →
          PicturesExist d.core := by
  intro h
  have hexist := h _ _ (removal ++ [.answer 0 .error, .answer 0 .ok]) _ annsStore_picturesExist rfl
    rfl "p" annsPost.encode rfl "a" (by decide)
  exact absurd hexist (by decide)

end Subtle.Feed
