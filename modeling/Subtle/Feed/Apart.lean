import Subtle.Feed.Authority

/-!
# The images of different posts stay apart

A deletion of images does not say which post they were taken from.  Each operation is marked
with the post that its call was about, the one that the form makes or the device shows, and
the mark is compared with the posts that the images were uploaded for.

* `targeted_run`: the marks change no run.
* `Op.Concerns`: the operation is about the post, and its images were uploaded for it.
* `concerns_call`, `concerns_answer`: what is issued concerns the post of its call.
* `pictures_apart`: **no image is listed by two stored posts, and whatever is outstanding lists
  and deletes images of the post of its call only**.
-/

namespace Subtle.Feed

open Subtle.Firestore Subtle.Lib Subtle.Storage

/-- The post that a call is about. -/
def App.target (s : App) : Call → Option String
  | .submit _ _ _ id _ => some id
  | .openPost _ id => some id
  | .fill i _ | .addImage i _ | .toggle i _ | .deleteImages i _ _ | .save i | .like i
  | .unlike i | .deletePost i => (s.vms[i]?).bind fun vm => vm.post.id

/-- The app, each operation with the post of its call and the user. -/
def targeted : Service (App × Authors) Call (Option String × (Option String × Op)) Reply :=
  attributed.signed fun p x => p.1.target x

/-- The marks change no run. -/
theorem targeted_run (c : Config (App × Authors) (Option String × (Option String × Op)))
    (es : List (Event Call Reply)) : attributed.machine.run (Service.unsigned c) es =
      (targeted.machine.run c es).map Service.unsigned := Service.run_signed c es

/-- The post that an operation names. -/
def Op.post (s : App) : Op → Option String
  | upload image rest urls after => (upload image rest urls after).home s
  | setData id _ => some id
  | updateData _ id _ => some id
  | getDocument _ id => some id
  | response _ post => post.id
  | deleteImage _ _ => none
  | deleteDocument id => some id

/-- The operation names no other post, and lists and deletes images of this one only. -/
structure Op.Concerns (s : App) (a : Authors) (id : String) (op : Op) : Prop where
  post : ∀ id', op.post s = some id' → id' = id
  images : a.Uploaded id (op.lists ++ op.deletes)

variable {s s' : App} {a b : Authors} {i : Nat} {id user : String} {op : Op} {new : List Op}

/-! ### The operations of each service -/

theorem post_addPost {currentUser : Option String} {p : Post} (hop : op ∈ addPost currentUser p) :
    op.post s = p.id := by
  unfold addPost at hop
  split at hop
  · next id hid =>
    obtain rfl := List.mem_singleton.mp hop
    exact hid.symm
  · exact absurd hop List.not_mem_nil

theorem post_modifyPost {vm : PostVM} {data : Document} (hop : op ∈ modifyPost i vm data) :
    op.post s = vm.post.id := by
  unfold modifyPost at hop
  split at hop
  · next userId id huser hid =>
    obtain ⟨-, hop⟩ := List.mem_ite_nil_right.mp hop
    obtain rfl := List.mem_singleton.mp hop
    exact hid.symm
  · exact absurd hop List.not_mem_nil

theorem post_deletePost {currentUser : Option String} {p : Post}
    (hop : op ∈ deletePost currentUser p) : op.post s = p.id := by
  unfold deletePost at hop
  split at hop
  · next userId id hid =>
    obtain ⟨-, hop⟩ := List.mem_ite_nil_right.mp hop
    obtain rfl := List.mem_singleton.mp hop
    exact hid.symm
  · exact absurd hop List.not_mem_nil

theorem post_likePost {vm : PostVM} (hop : op ∈ vm.likePost i) : op.post s = vm.post.id := by
  unfold PostVM.likePost likePost at hop
  split at hop
  · obtain ⟨-, hop⟩ := List.mem_ite_nil_right.mp hop
    split at hop
    · next id hid =>
      obtain rfl := List.mem_singleton.mp hop
      exact hid.symm
    · exact absurd hop List.not_mem_nil
  · exact absurd hop List.not_mem_nil

theorem post_unlikePost {vm : PostVM} (hop : op ∈ vm.unlikePost i) :
    op.post s = vm.post.id := by
  unfold PostVM.unlikePost unlikePost at hop
  split at hop
  · obtain ⟨-, hop⟩ := List.mem_ite_nil_right.mp hop
    split at hop
    · next id hid =>
      obtain rfl := List.mem_singleton.mp hop
      exact hid.symm
    · exact absurd hop List.not_mem_nil
  · exact absurd hop List.not_mem_nil

/-- A batch of uploads goes on to name the post that it is for. -/
theorem post_addImageHelper {after : After} {urls : List URL} {images : List UIImage}
    (hop : op ∈ s.addImageHelper urls after images) :
    op.post s = (Op.upload "" [] urls after).home s := by
  cases images with
  | cons image rest =>
    obtain rfl := List.mem_singleton.mp hop
    cases after <;> rfl
  | nil =>
    cases after with
    | addPost currentUser p =>
      have hpost : op.post s = ({ p with pictures := urls } : Post).id := post_addPost hop
      exact hpost
    | modifyPost i params newImages =>
      simp only [App.addImageHelper, App.uploaded] at hop
      split at hop
      · next vm hvm =>
        rw [post_modifyPost hop, Op.home, hvm]
        rfl
      · exact absurd hop List.not_mem_nil

theorem concerns_addImageHelper {after : After} {urls : List URL} {images : List UIImage}
    (hhome : ∀ id', (Op.upload "" [] urls after).home s = some id' → id' = id)
    (hurls : a.Uploaded id (after.lists urls)) (hop : op ∈ s.addImageHelper urls after images) :
    op.Concerns s a id := by
  obtain ⟨hdeletes, hlists⟩ := mem_addImageHelper hop
  refine ⟨fun id' hid' => hhome id' ?_, ?_⟩
  · rwa [← post_addImageHelper hop]
  · rwa [hdeletes, hlists, List.append_nil]

theorem concerns_addImages {after : After} {currentUser : Option String} {images : List UIImage}
    (hhome : ∀ id', (Op.upload "" [] [] after).home s = some id' → id' = id)
    (hurls : a.Uploaded id (after.lists [])) (hop : op ∈ s.addImages currentUser images after) :
    op.Concerns s a id := by
  unfold App.addImages at hop
  split at hop
  · exact concerns_addImageHelper hhome hurls hop
  · exact absurd hop List.not_mem_nil

theorem concerns_deleteImage {urls : List URL} {index : Nat}
    (hurls : a.Uploaded id (urls.drop index)) : (Op.deleteImage urls index).Concerns s a id :=
  ⟨fun _ hid' => absurd hid'.symm (Option.some_ne_none _), hurls⟩

/-- **A save concerns the post of its form**, the deletion of the removed pictures as well. -/
theorem concerns_editPostAndImages {vm : PostVM} (hvm : s.vms[i]? = some vm)
    (hheld : a.Holds id vm) (hop : op ∈ editPostAndImages s i vm) : op.Concerns s a id := by
  have hid : ∀ id', vm.post.id = some id' → id' = id := fun id' hid' =>
    Option.some.inj (hid'.symm.trans hheld.id_eq)
  unfold editPostAndImages at hop
  split at hop
  · refine concerns_addImages (fun id' hid' => hid id' ?_) ?_ hop
    · rwa [Op.home, hvm] at hid'
    · show a.Uploaded id (vm.editImages ++ [])
      rw [List.append_nil]
      exact hheld.edit
  · rcases List.mem_append.mp hop with hop | hop
    · refine ⟨fun id' hid' => hid id' ((post_modifyPost hop).symm.trans hid'), ?_⟩
      obtain ⟨id', rfl⟩ := mem_modifyPost hop
      show a.Uploaded id (pictures (PostVM.withPictures vm.editParams vm.editImages) ++ [])
      rw [PostVM.pictures_withPictures, List.append_nil]
      exact hheld.edit
    · obtain ⟨index, rfl⟩ := mem_startDeletion hop
      exact concerns_deleteImage fun url hurl => hheld.delete url (List.mem_of_mem_drop hurl)

/-! ### Calls and answers -/

/-- A call that acts on the post of a device, and on none of its images. -/
theorem concerns_form {f : PostVM → List Op} (hforms : a.HoldsAll s)
    (h : (s.vms[i]?).map (fun vm => (s, f vm)) = some (s', new)) (hop : op ∈ new)
    (hf : ∀ vm : PostVM, op ∈ f vm → op.post s = vm.post.id ∧ op.lists ++ op.deletes = []) :
    ∃ id, ((s.vms[i]?).bind fun vm => vm.post.id) = some id ∧ op.Concerns s a id := by
  obtain ⟨vm, hvm, heq⟩ := Option.map_eq_some_iff.mp h
  obtain ⟨-, rfl⟩ := Prod.mk.inj heq
  obtain ⟨id, hheld⟩ := hforms vm (List.mem_of_getElem? hvm)
  obtain ⟨hpost, hnone⟩ := hf vm hop
  refine ⟨id, by rw [hvm]; exact hheld.id_eq, fun id' hid' => ?_, ?_⟩
  · exact Option.some.inj ((hid'.symm.trans hpost).trans hheld.id_eq)
  · rw [hnone]
    exact List.forall_mem_nil _

/-- **What a call issues concerns its post.** -/
theorem concerns_call {x : Call} (hforms : a.HoldsAll s) (h : s.call x = some (s', new))
    (hop : op ∈ new) : ∃ id, s.target x = some id ∧ op.Concerns s a id := by
  cases called_of_call h with
  | submitted currentUser form images id creationDate p hp =>
    obtain ⟨user, rfl, hpost⟩ := Option.map_eq_some_iff.mp hp
    have hid : p.id = some id := hpost ▸ rfl
    have hnone : a.Uploaded id ((After.addPost (some user) p).lists []) := List.forall_mem_nil _
    refine ⟨id, rfl, concerns_addImages (fun id' hid' => ?_) hnone hop⟩
    exact Option.some.inj (hid'.symm.trans hid)
  | opened => exact absurd hop List.not_mem_nil
  | filled => exact absurd hop List.not_mem_nil
  | imageAdded => exact absurd hop List.not_mem_nil
  | toggled => exact absurd hop List.not_mem_nil
  | imagesDeleted => exact absurd hop List.not_mem_nil
  | saved i vm hvm hshows =>
    obtain ⟨id, hheld⟩ := hforms vm (List.mem_of_getElem? hvm)
    refine ⟨id, ?_, concerns_editPostAndImages hvm hheld hop⟩
    rw [App.target, hvm]
    exact hheld.id_eq
  | liked i vm =>
    refine concerns_form hforms h hop fun vm hop => ⟨post_likePost hop, ?_⟩
    obtain ⟨id, likerId, rfl⟩ := mem_likePost hop
    rfl
  | unliked i vm =>
    refine concerns_form hforms h hop fun vm hop => ⟨post_unlikePost hop, ?_⟩
    obtain ⟨id, unlikerId, rfl⟩ := mem_unlikePost hop
    rfl
  | postDeleted i vm =>
    refine concerns_form hforms h hop fun vm hop => ⟨post_deletePost hop, ?_⟩
    obtain ⟨id, rfl⟩ := mem_deletePost hop
    rfl

/-- The post of an upload is the one that its device shows all along. -/
theorem post_keep (hserved : op.ServedBy s a user) (h : Keeps s s') : op.post s' = op.post s := by
  cases op with
  | upload image rest urls after =>
    cases after with
    | addPost currentUser p => rfl
    | modifyPost i params newImages =>
      obtain ⟨id, ⟨vm, hvm, huser, hid⟩, -, -⟩ := hserved
      obtain ⟨vm', hvm', -, hid'⟩ := h _ _ _ ⟨vm, hvm, huser, hid⟩
      simp only [Op.post, Op.home, hvm, hvm', Option.bind_some, hid, hid']
  | setData => rfl
  | updateData => rfl
  | getDocument => rfl
  | response => rfl
  | deleteImage => rfl
  | deleteDocument => rfl

theorem Op.Concerns.keep {c : Authors} (hop : op.Concerns s a id) (hserved : op.ServedBy s c user)
    (h : Keeps s s') (hextends : a.Extends b) : op.Concerns s' b id := by
  refine ⟨fun id' hid' => hop.post id' ?_, hop.images.extend hextends⟩
  rwa [← post_keep hserved h]

/-- An upload on its way is for a post. -/
theorem home_of_rightful {image : UIImage} {rest : List UIImage} {urls : List URL} {after : After}
    (h : (Op.upload image rest urls after).Rightful s a user) :
    ∃ id, (Op.upload image rest urls after).home s = some id := by
  cases after with
  | addPost currentUser p =>
    obtain ⟨⟨-, id, hid, -, -⟩, -⟩ := h
    exact ⟨id, hid⟩
  | modifyPost i params newImages =>
    obtain ⟨-, id, ⟨vm, hvm, -, hid⟩, -, -⟩ := h
    exact ⟨id, by rw [Op.home, hvm]; exact hid⟩

theorem After.lists_append (urls urls' : List URL) (after : After) :
    after.lists (urls ++ urls') = after.lists urls ++ urls' := by
  cases after with
  | addPost => rfl
  | modifyPost => exact (List.append_assoc _ _ _).symm

/-- **What an answer issues concerns the post** of the operation that is answered. -/
theorem concerns_answer {r : Reply} {ops : List (Option String × Op)} (h : Attributed (s, a) ops)
    (hrightful : op.Rightful s a user) (hconcerns : op.Concerns s a id)
    (hx : s.answer op r = some (s', new)) :
    ∀ op' ∈ new, op'.Concerns s' (a.note s op r) id := by
  have hanswer := answered_of_answer hx
  have hextends := extends_note h hanswer
  intro op' hop'
  cases hanswer with
  | failed => exact absurd hop' List.not_mem_nil
  | uploaded image rest urls after url hfresh =>
    obtain ⟨home, hhome⟩ := home_of_rightful hrightful
    obtain rfl := hconcerns.post home hhome
    have hold : (a.note s (.upload image rest urls after) (.uploaded url)).Uploaded home
        (after.lists urls) := fun url' hurl' =>
      hconcerns.images.extend hextends url' (List.mem_append_left _ hurl')
    refine concerns_addImageHelper (fun id' hid' => hconcerns.post id' ?_) ?_ hop'
    · cases after <;> exact hid'
    · rw [After.lists_append]
      exact hold.append (uploaded_note hhome)
  | created => exact absurd hop' List.not_mem_nil
  | updated i id' change old hdoc =>
    obtain rfl := List.mem_singleton.mp hop'
    exact ⟨hconcerns.post, List.forall_mem_nil _⟩
  | missing => exact absurd hop' List.not_mem_nil
  | read i id' p =>
    obtain rfl := List.mem_singleton.mp hop'
    obtain ⟨document, -, hdecode⟩ := Option.bind_eq_some_iff.mp (decode_of_read hx)
    refine ⟨fun id'' hid'' => hconcerns.post id'' ?_, List.forall_mem_nil _⟩
    exact (id_of_decode hdecode).symm.trans hid''
  | delivered => exact absurd hop' List.not_mem_nil
  | removed urls index =>
    rw [mem_nextDeletion hop']
    exact concerns_deleteImage fun url hurl => hconcerns.images url (mem_deletes_succ hurl)
  | kept urls index =>
    rw [mem_nextDeletion hop']
    exact concerns_deleteImage fun url hurl => hconcerns.images url (mem_deletes_succ hurl)
  | deleted => exact absurd hop' List.not_mem_nil

/-! ### Runs -/

/-- Whatever is outstanding concerns the post of its call. -/
structure Targeted (p : App × Authors) (ops : List (Option String × (Option String × Op))) :
    Prop where
  attributed : Attributed p (ops.map Prod.snd)
  concerns : ∀ op ∈ ops, ∃ id, op.1 = some id ∧ op.2.2.Concerns p.1 p.2 id

variable {p p' : App × Authors} {ops pre post new' : List (Option String × (Option String × Op))}

theorem targeted_call {x : Call} (h : Targeted p ops) (hnewId : NewId p x)
    (hx : targeted.call p x = some (p', new')) : Targeted p' (ops ++ new') := by
  obtain ⟨new, hattributed, rfl⟩ := Service.signed_call hx
  obtain ⟨s, a⟩ := p
  obtain ⟨s', new, hcall, rfl, rfl⟩ := call_of_attributed hattributed
  obtain ⟨-, hkeeps, -⟩ := forms_call h.attributed.posts h.attributed.forms (called_of_call hcall)
  have hextends := extends_noteCall hnewId
  refine ⟨?_, fun op hop => ?_⟩
  · rw [List.map_append, Service.map_snd_mk]
    exact attributed_call h.attributed hnewId hattributed
  · rcases List.mem_append.mp hop with hop | hop
    · obtain ⟨id, hid, hconcerns⟩ := h.concerns op hop
      obtain ⟨user, -, -, hserved⟩ := h.attributed.rightful op.2 (List.mem_map_of_mem hop)
      exact ⟨id, hid, hconcerns.keep hserved hkeeps hextends⟩
    · obtain ⟨op', hop', rfl⟩ := List.mem_map.mp hop
      obtain ⟨op'', hop'', rfl⟩ := List.mem_map.mp hop'
      obtain ⟨id, hid, hconcerns⟩ := concerns_call h.attributed.forms hcall hop''
      obtain ⟨user, -, -, hserved⟩ := rightful_call h.attributed.forms hnewId hcall hop''
      exact ⟨id, hid, hconcerns.keep hserved hkeeps hextends⟩

theorem targeted_answer {op : Option String × (Option String × Op)} {r : Reply}
    (h : Targeted p (pre ++ op :: post)) (hx : targeted.answer p op r = some (p', new')) :
    Targeted p' (pre ++ post ++ new') := by
  obtain ⟨new, hattributed, rfl⟩ := Service.signed_answer hx
  obtain ⟨s, a⟩ := p
  obtain ⟨target, u, op⟩ := op
  obtain ⟨s', new, hanswer, rfl, rfl⟩ := answer_of_attributed hattributed
  have hall : Attributed (s, a) (pre.map Prod.snd ++ (u, op) :: post.map Prod.snd) := by
    have hmap := h.attributed
    rwa [List.map_append, List.map_cons] at hmap
  have hmem : ∀ {o}, o ∈ pre ++ post → o ∈ pre ++ (target, u, op) :: post := fun ho =>
    Service.mem_pending_iff.mpr (Or.inr ho)
  have hop : (target, u, op) ∈ pre ++ (target, u, op) :: post :=
    Service.mem_pending_iff.mpr (Or.inl rfl)
  obtain ⟨id, hid, hconcerns⟩ := h.concerns _ hop
  obtain ⟨user, -, hrightful⟩ := h.attributed.rightful _ (List.mem_map_of_mem hop)
  have hextends := extends_note hall (answered_of_answer hanswer)
  obtain ⟨-, hkeeps⟩ := forms_answer hall.forms hrightful (answered_of_answer hanswer)
  refine ⟨?_, fun o ho => ?_⟩
  · rw [List.map_append, List.map_append, Service.map_snd_mk]
    exact attributed_answer hall hattributed
  · rcases List.mem_append.mp ho with ho | ho
    · obtain ⟨id', hid', hconcerns'⟩ := h.concerns o (hmem ho)
      obtain ⟨user', -, -, hserved⟩ := h.attributed.rightful o.2 (List.mem_map_of_mem (hmem ho))
      exact ⟨id', hid', hconcerns'.keep hserved hkeeps hextends⟩
    · obtain ⟨o', ho', rfl⟩ := List.mem_map.mp ho
      obtain ⟨op', hop', rfl⟩ := List.mem_map.mp ho'
      exact ⟨id, hid, concerns_answer hall hrightful hconcerns hanswer op' hop'⟩

section

variable {posts : String → Option Document} {objects : Finset URL}
  {es : List (Event Call Reply)}
  {c : Config (App × Authors) (Option String × (Option String × Op))}

/-- **The images of different posts stay apart**: no image is listed by two stored posts, and an
operation names the post of its call only, and lists and deletes images of this post only. -/
theorem pictures_apart
    (hposts : ∀ id document, posts id = some document → a.Ascribes id document)
    (hobjects : ∀ url id, a.home url = some id → url ∈ objects)
    (hnew : targeted.machine.Along (Service.OnCall NewId)
      ⟨(App.start posts objects, a), []⟩ es)
    (hrun : targeted.machine.run ⟨(App.start posts objects, a), []⟩ es = some c) :
    (∀ id document id' document' url, c.core.1.posts id = some document →
      c.core.1.posts id' = some document' → url ∈ pictures document →
        url ∈ pictures document' → id = id') ∧
    ∀ op ∈ c.pending, ∃ id, op.1 = some id ∧
      (∀ id', op.2.2.post c.core.1 = some id' → id' = id) ∧
      c.core.2.Uploaded id (op.2.2.lists ++ op.2.2.deletes) ∧
      ∀ id' document url, c.core.1.posts id' = some document → url ∈ pictures document →
        url ∈ op.2.2.lists ++ op.2.2.deletes → id' = id := by
  have h : Targeted c.core c.pending := by
    refine Service.run_inv (I := Targeted) ?_ ?_ ?_ hnew hrun
    · intro p ops x p' new h hP hx
      exact targeted_call h hP hx
    · intro p pre op post r p' new h _ hx
      exact targeted_answer h hx
    · exact ⟨⟨hposts, List.forall_mem_nil _, List.forall_mem_nil _, List.forall_mem_nil _,
        hobjects⟩, List.forall_mem_nil _⟩
  have hlisted : ∀ {id document url}, c.core.1.posts id = some document →
      url ∈ pictures document → c.core.2.home url = some id := by
    intro id document url hdoc hurl
    obtain ⟨user, -, -, hpictures⟩ := h.attributed.posts id document hdoc
    exact hpictures url hurl
  refine ⟨fun id document id' document' url hdoc hdoc' hurl hurl' => ?_, fun op hop => ?_⟩
  · exact Option.some.inj ((hlisted hdoc hurl).symm.trans (hlisted hdoc' hurl'))
  · obtain ⟨id, hid, hconcerns⟩ := h.concerns op hop
    exact ⟨id, hid, hconcerns.post, hconcerns.images, fun id' document url hdoc hurl hurl' =>
      Option.some.inj ((hlisted hdoc hurl).symm.trans (hconcerns.images url hurl'))⟩

/-- Ann posts two images, one a post, and takes the first out of its post. -/
def twoPosts : List (Event Call Reply) :=
  [.call (.submit (some "ann") ⟨"Carl", 0, "Duke University", "Durham", "hi", []⟩ ["i"] "p" 0),
    .answer 0 (.uploaded "u"), .answer 0 .ok,
    .call (.submit (some "ann") ⟨"Dan", 0, "Duke University", "Durham", "hi", []⟩ ["j"] "q" 0),
    .answer 0 (.uploaded "v"), .answer 0 .ok, .call (.openPost (some "ann") "p"),
    .call (.toggle 0 "u"), .call (.deleteImages 0 [] ["u"]), .call (.save 0)]

theorem pictures_apart_example : ∃ c, targeted.machine.run
      ⟨(App.start (fun _ => none) ∅, .none), []⟩ twoPosts = some c ∧
    (some "p", some "ann", .deleteImage ["u"] 0) ∈ c.pending ∧ c.core.2.Uploaded "p" ["u"] ∧
    ∀ id document, c.core.1.posts id = some document → "u" ∈ pictures document → id = "p" := by
  have hrun : ∃ c, targeted.machine.run
      ⟨(App.start (fun _ => none) ∅, .none), []⟩ twoPosts = some c ∧
      (some "p", some "ann", .deleteImage ["u"] 0) ∈ c.pending :=
    ⟨_, rfl, List.mem_cons_of_mem _ List.mem_cons_self⟩
  obtain ⟨c, hrun, hop⟩ := hrun
  have hnew : targeted.machine.Along (Service.OnCall NewId)
      ⟨(App.start (fun _ => none) ∅, .none), []⟩ twoPosts := by decide +kernel
  obtain ⟨id, hid, -, himages, hapart⟩ :=
    (pictures_apart (by simp) (by simp [Authors.none]) hnew hrun).2 _ hop
  obtain rfl := Option.some.inj hid
  exact ⟨c, hrun, hop, himages, fun id document hdoc hurl =>
    hapart id document "u" hdoc hurl List.mem_cons_self⟩

end

end Subtle.Feed
