import Subtle.Feed.Pictures

/-!
# The edit form of a post

A form is edited action by action.  `deleteImages` makes arrays of two sets, in the
order in which the runtime happens to enumerate them.

* `editing`: the form as a machine; `run_editCalls`: the calls of the app act on it.
* `Partitions`: the kept and the removed pictures are those of the post, each once.
* `edit_partitions`: **no save deletes a picture that it keeps**.
* `keeping`: what the user sees of the form, whatever the enumerations.
* `written_in_order_iff`: **every save writes the kept pictures in their order exactly
  when `deleteImages` was not called or leaves no two pictures**.
-/

namespace Subtle.Feed

open Subtle.Firestore Subtle.Lib Subtle.Storage

/-- One action in the edit form.  For `deleteImages` the runtime chooses how to enumerate
the two sets. -/
inductive EditAction where
  | fill (form : PostForm)
  | addImage (image : UIImage)
  | toggle (url : URL)
  | deleteImages (imagesToRetain deleted : List URL)
  deriving DecidableEq

def PostVM.edit (vm : PostVM) : EditAction → Option PostVM
  | .fill form => some (vm.fill form)
  | .addImage image => some { vm with additionalImages := vm.additionalImages ++ [image] }
  | .toggle url => if url ∈ vm.editImages then some (vm.toggle url) else none
  | .deleteImages imagesToRetain deleted =>
      if PostVM.Enumerates imagesToRetain (vm.editImages.toFinset \ vm.selected) ∧
          PostVM.Enumerates deleted vm.selected then
        some (vm.deleteImages imagesToRetain deleted)
      else none

/-- The edit form as a machine. -/
def editing : Machine PostVM EditAction := ⟨PostVM.edit⟩

/-! ### The form in the app -/

/-- The call of the app that acts on the form at `i`. -/
def EditAction.call (i : Nat) : EditAction → Call
  | .fill form => .fill i form
  | .addImage image => .addImage i image
  | .toggle url => .toggle i url
  | .deleteImages imagesToRetain deleted => .deleteImages i imagesToRetain deleted

theorem call_edit (s : App) (i : Nat) (action : EditAction) :
    s.call (action.call i) = s.editForm i fun vm => vm.edit action := by
  cases action <;> rfl

variable {post : Post} {currentUser : Option String} {vm vm' : PostVM} {action : EditAction}
  {actions : List EditAction} {url : URL}

/-- **An action and what it makes of the form.** -/
inductive Edited (vm : PostVM) : EditAction → PostVM → Prop where
  | fill (form : PostForm) : Edited vm (.fill form) (vm.fill form)
  | addImage (image : UIImage) :
      Edited vm (.addImage image) { vm with additionalImages := vm.additionalImages ++ [image] }
  | toggle (url : URL) (hurl : url ∈ vm.editImages) : Edited vm (.toggle url) (vm.toggle url)
  | deleteImages (imagesToRetain deleted : List URL)
      (hretain : PostVM.Enumerates imagesToRetain (vm.editImages.toFinset \ vm.selected))
      (hdeleted : PostVM.Enumerates deleted vm.selected) :
      Edited vm (.deleteImages imagesToRetain deleted) (vm.deleteImages imagesToRetain deleted)

theorem edited_of_edit (h : vm.edit action = some vm') : Edited vm action vm' := by
  cases action with
  | fill form =>
    obtain rfl := Option.some.inj h
    exact .fill form
  | addImage image =>
    obtain rfl := Option.some.inj h
    exact .addImage image
  | toggle url =>
    obtain ⟨hurl, rfl⟩ := Option.ite_some_none_eq_some.mp h
    exact .toggle url hurl
  | deleteImages imagesToRetain deleted =>
    obtain ⟨⟨hretain, hdeleted⟩, rfl⟩ := Option.ite_some_none_eq_some.mp h
    exact .deleteImages imagesToRetain deleted hretain hdeleted

/-- No action changes the post that is shown, or its user. -/
theorem edit_frame (h : vm.edit action = some vm') :
    vm'.post = vm.post ∧ vm'.currentUser = vm.currentUser := by
  cases edited_of_edit h with
  | fill form => exact ⟨rfl, rfl⟩
  | addImage image => exact ⟨rfl, rfl⟩
  | toggle url hurl => exact ⟨rfl, rfl⟩
  | deleteImages imagesToRetain deleted hretain hdeleted => exact ⟨rfl, rfl⟩

theorem editing_frame (h : editing.run vm actions = some vm') :
    vm'.post = vm.post ∧ vm'.currentUser = vm.currentUser := by
  refine Machine.run_inv_of_step
    (I := fun w => w.post = vm.post ∧ w.currentUser = vm.currentUser) ?_ ⟨rfl, rfl⟩ h
  rintro w action w' ⟨hpost, huser⟩ hstep
  obtain ⟨hpost', huser'⟩ := edit_frame hstep
  exact ⟨hpost'.trans hpost, huser'.trans huser⟩

/-- **The form calls of the app edit the form**, and nothing else. -/
theorem run_editCalls {s : App} {i : Nat} (ops : List Op) (hvm : s.vms[i]? = some vm)
    (hshows : vm.showsEdit = true) (hrun : editing.run vm actions = some vm') :
    app.machine.run ⟨s, ops⟩ (actions.map fun action => .call (action.call i)) =
      some ⟨{ s with vms := s.vms.set i vm' }, ops⟩ := by
  induction actions generalizing s vm with
  | nil =>
    obtain rfl := Option.some.inj hrun
    obtain ⟨hi, rfl⟩ := List.getElem?_eq_some_iff.mp hvm
    rw [List.set_getElem_self]
    rfl
  | cons action actions ih =>
    obtain ⟨w, hstep, hrest⟩ := Machine.run_cons.mp hrun
    have hcall : s.call (action.call i) = some ({ s with vms := s.vms.set i w }, []) := by
      rw [call_edit, App.editForm, hvm, Option.bind_some, if_pos hshows]
      exact congrArg (Option.map _) hstep
    obtain ⟨hi, -⟩ := List.getElem?_eq_some_iff.mp hvm
    have hw : (s.vms.set i w)[i]? = some w := List.getElem?_set_self hi
    have hshows' : w.showsEdit = true := by
      obtain ⟨hpost, huser⟩ := edit_frame hstep
      rw [PostVM.showsEdit, hpost, huser]
      exact hshows
    have hnext := ih (s := { s with vms := s.vms.set i w }) hw hshows' hrest
    refine Machine.run_cons.mpr ⟨⟨{ s with vms := s.vms.set i w }, ops⟩, ?_, ?_⟩
    · refine (congrArg (Option.map _) hcall).trans ?_
      rw [Option.map_some, List.append_nil]
    · rw [hnext, List.set_set]

/-! ### The kept and the removed pictures -/

/-- The pictures that an action removes. -/
def EditAction.removes : EditAction → List URL
  | .deleteImages _ deleted => deleted
  | .fill _ | .addImage _ | .toggle _ => []

/-- The pictures that are removed in an edit session. -/
def removedIn (actions : List EditAction) : List URL := actions.flatMap EditAction.removes

theorem imagesToDelete_edit (h : vm.edit action = some vm') :
    vm'.imagesToDelete = vm.imagesToDelete ++ action.removes := by
  cases edited_of_edit h with
  | fill form => exact (List.append_nil _).symm
  | addImage image => exact (List.append_nil _).symm
  | toggle url hurl => exact (List.append_nil _).symm
  | deleteImages imagesToRetain deleted hretain hdeleted => rfl

/-- A session adds what it removes to what was to be deleted before. -/
theorem imagesToDelete_run (h : editing.run vm actions = some vm') :
    vm'.imagesToDelete = vm.imagesToDelete ++ removedIn actions := by
  induction actions generalizing vm with
  | nil =>
    obtain rfl := Option.some.inj h
    exact (List.append_nil _).symm
  | cons action actions ih =>
    obtain ⟨w, hstep, hrest⟩ := Machine.run_cons.mp h
    rw [ih hrest, imagesToDelete_edit hstep, List.append_assoc]
    rfl

/-- Every picture of the post is either kept or removed. -/
structure Covers (originals : List URL) (vm : PostVM) : Prop where
  selected : ∀ url ∈ vm.selected, url ∈ vm.editImages
  cover : ∀ url, url ∈ originals ↔ url ∈ vm.editImages ∨ url ∈ vm.imagesToDelete
  apart : ∀ url ∈ vm.imagesToDelete, url ∉ vm.editImages

namespace Covers

variable {originals : List URL}

theorem toggle (h : Covers originals vm) (hurl : url ∈ vm.editImages) :
    Covers originals (vm.toggle url) := by
  refine ⟨?_, h.cover, h.apart⟩
  intro u hu
  simp only [PostVM.toggle] at hu
  split at hu
  · exact h.selected u (Finset.mem_of_mem_erase hu)
  · rcases Finset.mem_insert.mp hu with rfl | hu
    · exact hurl
    · exact h.selected u hu

theorem deleteImages (h : Covers originals vm) {imagesToRetain deleted : List URL}
    (hretain : PostVM.Enumerates imagesToRetain (vm.editImages.toFinset \ vm.selected))
    (hdeleted : PostVM.Enumerates deleted vm.selected) :
    Covers originals (vm.deleteImages imagesToRetain deleted) := by
  have hkept : ∀ {url}, url ∈ imagesToRetain ↔ url ∈ vm.editImages ∧ url ∉ vm.selected := by
    intro url
    rw [PostVM.mem_of_enumerates hretain, Finset.mem_sdiff, List.mem_toFinset]
  have hgone : ∀ {url}, url ∈ vm.imagesToDelete ++ deleted ↔
      url ∈ vm.imagesToDelete ∨ url ∈ vm.selected := by
    intro url
    rw [List.mem_append, PostVM.mem_of_enumerates hdeleted]
  refine ⟨fun _ hu => absurd hu (Finset.notMem_empty _), ?_, ?_⟩
  · intro url
    show _ ↔ url ∈ imagesToRetain ∨ url ∈ vm.imagesToDelete ++ deleted
    rw [h.cover url, hkept, hgone]
    constructor
    · rintro (hedit | hdel)
      · by_cases hsel : url ∈ vm.selected
        · exact Or.inr (Or.inr hsel)
        · exact Or.inl ⟨hedit, hsel⟩
      · exact Or.inr (Or.inl hdel)
    · rintro (⟨hedit, -⟩ | hdel | hsel)
      · exact Or.inl hedit
      · exact Or.inr hdel
      · exact Or.inl (h.selected url hsel)
  · intro url hurl hin
    obtain ⟨hedit, hsel⟩ := hkept.mp hin
    exact (hgone.mp hurl).elim (fun hdel => h.apart url hdel hedit) hsel

end Covers

theorem covers_init (post : Post) (currentUser : Option String) :
    Covers post.pictures (PostVM.init currentUser post) :=
  ⟨fun _ h => absurd h (Finset.notMem_empty _), fun _ => (or_iff_left List.not_mem_nil).symm,
    List.forall_mem_nil _⟩

theorem covers_edit {originals : List URL} (h : Covers originals vm)
    (hstep : vm.edit action = some vm') : Covers originals vm' := by
  cases edited_of_edit hstep with
  | fill form => exact ⟨h.selected, h.cover, h.apart⟩
  | addImage image => exact ⟨h.selected, h.cover, h.apart⟩
  | toggle url hurl => exact h.toggle hurl
  | deleteImages imagesToRetain deleted hretain hdeleted => exact h.deleteImages hretain hdeleted

/-- The kept and the removed pictures are those of the post, each once. -/
structure Partitions (originals : List URL) (vm : PostVM) : Prop
    extends Covers originals vm where
  kept_nodup : vm.editImages.Nodup
  removed_nodup : vm.imagesToDelete.Nodup

/-- The invariant of the form. -/
theorem partitions_edit {originals : List URL} (h : Partitions originals vm)
    (hstep : vm.edit action = some vm') : Partitions originals vm' := by
  have hcovers := covers_edit h.toCovers hstep
  cases edited_of_edit hstep with
  | fill form => exact ⟨hcovers, h.kept_nodup, h.removed_nodup⟩
  | addImage image => exact ⟨hcovers, h.kept_nodup, h.removed_nodup⟩
  | toggle url hurl => exact ⟨hcovers, h.kept_nodup, h.removed_nodup⟩
  | deleteImages imagesToRetain deleted hretain hdeleted =>
    refine ⟨hcovers, hretain.1, List.nodup_append.mpr ⟨h.removed_nodup, hdeleted.1, ?_⟩⟩
    -- a selected picture is in the form, and thus was not removed before
    rintro url hold _ hnew rfl
    exact h.apart url hold (h.selected url ((PostVM.mem_of_enumerates hdeleted).mp hnew))

theorem partitions_run (hnodup : post.pictures.Nodup)
    (hrun : editing.run (PostVM.init currentUser post) actions = some vm) :
    Partitions post.pictures vm :=
  Machine.run_inv_of_step (I := Partitions post.pictures)
    (fun _ _ _ h hstep => partitions_edit h hstep)
    ⟨covers_init post currentUser, hnodup, List.nodup_nil⟩ hrun

/-- A save deletes removed pictures only, and none that it lists. -/
theorem deletes_apart (h : ∀ url ∈ vm.imagesToDelete, url ∉ vm.editImages) {s : App} {i : Nat}
    {op op' : Op} (hop : op ∈ editPostAndImages s i vm) (hurl : url ∈ op.deletes)
    (hop' : op' ∈ editPostAndImages s i vm) : url ∉ vm.editImages ∧ url ∉ op'.lists := by
  unfold editPostAndImages at hop hop'
  split at hop
  · rw [(mem_addImages hop).1] at hurl
    exact absurd hurl List.not_mem_nil
  · rename_i hnone
    rw [if_neg hnone] at hop'
    have hgone := h url (mem_imagesToDelete hop hurl)
    exact ⟨hgone, fun hlisted => hgone (mem_editImages hop' hlisted)⟩

/-- **Kept and removed pictures partition the pictures of the post, and no save deletes a
picture that it keeps.** -/
theorem edit_partitions (hnodup : post.pictures.Nodup)
    (hrun : editing.run (PostVM.init currentUser post) actions = some vm) :
    Partitions post.pictures vm ∧
      ∀ s i, ∀ op ∈ editPostAndImages s i vm, ∀ url ∈ op.deletes, url ∉ vm.editImages ∧
        ∀ op' ∈ editPostAndImages s i vm, url ∉ op'.lists := by
  have h := partitions_run hnodup hrun
  refine ⟨h, ?_⟩
  intro s i op hop url hurl
  exact ⟨(deletes_apart h.apart hop hurl hop).1,
    fun op' hop' => (deletes_apart h.apart hop hurl hop').2⟩

theorem edit_partitions_example :
    ∃ vm, editing.run (PostVM.init (some "ann") annsPost)
        [.toggle "a", .toggle "b", .toggle "b", .deleteImages ["b"] ["a"]] = some vm ∧
      vm.editImages = ["b"] ∧ vm.imagesToDelete = ["a"] ∧ Partitions annsPost.pictures vm := by
  have hrun : editing.run (PostVM.init (some "ann") annsPost)
      [.toggle "a", .toggle "b", .toggle "b", .deleteImages ["b"] ["a"]] =
        some (((((PostVM.init (some "ann") annsPost).toggle "a").toggle "b").toggle
          "b").deleteImages ["b"] ["a"]) := by
    decide +kernel
  exact ⟨_, hrun, rfl, rfl, (edit_partitions (by decide) hrun).1⟩

/-! ### What the user sees of the form -/

/-- What the user does, whatever the enumerations. -/
inductive UserAction where
  | fill (form : PostForm)
  | addImage (image : UIImage)
  | toggle (url : URL)
  | deleteImages
  deriving DecidableEq

def EditAction.user : EditAction → UserAction
  | .fill form => .fill form
  | .addImage image => .addImage image
  | .toggle url => .toggle url
  | .deleteImages _ _ => .deleteImages

/-- The pictures that are kept, in the order of the post, and those that are selected. -/
structure Kept where
  pictures : List URL
  nodup : pictures.Nodup
  selected : Finset URL
  deriving DecidableEq

namespace Kept

def init (post : Post) (hnodup : post.pictures.Nodup) : Kept := ⟨post.pictures, hnodup, ∅⟩

def act (k : Kept) : UserAction → Option Kept
  | .fill _ | .addImage _ => some k
  | .toggle url =>
      if url ∈ k.pictures then
        some { k with
          selected := if url ∈ k.selected then k.selected.erase url else insert url k.selected }
      else none
  | .deleteImages => some
      ⟨k.pictures.filter fun url => url ∉ k.selected, k.nodup.filter _, ∅⟩

end Kept

/-- The session as the user sees it. -/
def keeping : Machine Kept UserAction := ⟨Kept.act⟩

/-- The form shows the kept pictures, in some order. -/
structure Shows (vm : PostVM) (k : Kept) : Prop where
  pictures : vm.editImages.Perm k.pictures
  selected : vm.selected = k.selected

variable {k k' : Kept} {acts : List UserAction}

theorem shows_init (hnodup : post.pictures.Nodup) :
    Shows (PostVM.init currentUser post) (Kept.init post hnodup) := ⟨List.Perm.refl _, rfl⟩

/-- Any array of the retained set is an arrangement of the pictures that remain. -/
theorem Shows.enumerates_iff (h : Shows vm k) {urls : List URL} :
    PostVM.Enumerates urls (vm.editImages.toFinset \ vm.selected) ↔
      urls.Perm (k.pictures.filter fun url => url ∉ k.selected) := by
  have hmem : ∀ url, url ∈ vm.editImages.toFinset \ vm.selected ↔
      url ∈ k.pictures.filter fun url => url ∉ k.selected := by
    intro url
    rw [Finset.mem_sdiff, List.mem_toFinset, h.pictures.mem_iff, h.selected, List.mem_filter,
      decide_eq_true_iff]
  constructor
  · intro henum
    refine (List.perm_ext_iff_of_nodup henum.1 (k.nodup.filter _)).mpr fun url => ?_
    rw [PostVM.mem_of_enumerates henum, hmem]
  · intro hperm
    refine ⟨hperm.nodup_iff.mpr (k.nodup.filter _), Finset.ext fun url => ?_⟩
    rw [List.mem_toFinset, hperm.mem_iff, hmem]

/-- **The form refines the session that the user sees.** -/
theorem shows_edit (h : Shows vm k) (hstep : vm.edit action = some vm') :
    ∃ k', k.act action.user = some k' ∧ Shows vm' k' := by
  cases edited_of_edit hstep with
  | fill form => exact ⟨k, rfl, h.pictures, h.selected⟩
  | addImage image => exact ⟨k, rfl, h.pictures, h.selected⟩
  | toggle url hurl =>
    refine ⟨_, if_pos (h.pictures.mem_iff.mp hurl), h.pictures, ?_⟩
    rw [← h.selected]
    rfl
  | deleteImages imagesToRetain deleted hretain hdeleted =>
    exact ⟨_, rfl, h.enumerates_iff.mp hretain, rfl⟩

theorem shows_run (h : Shows vm k) (hrun : editing.run vm actions = some vm') :
    ∃ k', keeping.run k (actions.map EditAction.user) = some k' ∧ Shows vm' k' := by
  induction actions generalizing vm k with
  | nil =>
    obtain rfl := Option.some.inj hrun
    exact ⟨k, rfl, h⟩
  | cons action actions ih =>
    obtain ⟨w, hstep, hrest⟩ := Machine.run_cons.mp hrun
    obtain ⟨l, hact, hw⟩ := shows_edit h hstep
    obtain ⟨k', hrun', hk'⟩ := ih hw hrest
    exact ⟨k', Machine.run_cons.mpr ⟨l, hact, hrun'⟩, hk'⟩

/-! ### The order of the kept pictures -/

/-- The kept pictures stand in the order of the post. -/
theorem kept_sublist (hrun : keeping.run k acts = some k') :
    k'.pictures.Sublist k.pictures := by
  refine Machine.run_inv_of_step (I := fun l => l.pictures.Sublist k.pictures) ?_
    (List.Sublist.refl _) hrun
  intro l act l' hl hstep
  cases act with
  | fill form => exact Option.some.inj hstep ▸ hl
  | addImage image => exact Option.some.inj hstep ▸ hl
  | toggle url =>
    obtain ⟨-, rfl⟩ := Option.ite_some_none_eq_some.mp hstep
    exact hl
  | deleteImages =>
    obtain rfl := Option.some.inj hstep
    exact List.filter_sublist.trans hl

/-- A part of a list in its order is what a membership test leaves of the list. -/
theorem filter_mem_of_sublist {urls originals : List URL} (h : urls.Sublist originals)
    (hnodup : originals.Nodup) : (originals.filter fun url => url ∈ urls) = urls := by
  have hsub : urls.Sublist (originals.filter fun url => url ∈ urls) := by
    have hfilter := h.filter fun url => url ∈ urls
    rwa [List.filter_eq_self.mpr fun url hurl => decide_eq_true hurl] at hfilter
  refine (hsub.eq_of_length_le (List.Subperm.length_le ?_)).symm
  refine List.subperm_of_subset (hnodup.filter _) fun url hurl => ?_
  exact of_decide_eq_true (List.mem_filter.mp hurl).2

/-- The kept pictures of the form, put in the order of the post. -/
theorem Shows.filter_eq (h : Shows vm k) (hnodup : post.pictures.Nodup)
    (hsub : k.pictures.Sublist post.pictures) :
    (post.pictures.filter fun url => url ∈ vm.editImages) = k.pictures := by
  rw [List.filter_congr fun url _ => decide_eq_decide.mpr (h.pictures.mem_iff (a := url))]
  exact filter_mem_of_sublist hsub hnodup

/-- Only a list of at most one element reads the same in both directions, if no element
comes twice. -/
theorem length_le_one_of_reverse {urls : List URL} (hnodup : urls.Nodup)
    (h : urls.reverse = urls) : urls.length ≤ 1 := by
  by_contra hlong
  have hends : urls[0]? = urls[urls.length - 1]? := by
    calc urls[0]? = urls.reverse[0]? := by rw [h]
      _ = urls[urls.length - 1]? := List.getElem?_reverse' (by omega)
  have hsame := (List.getElem?_inj (by omega) hnodup).mp hends
  omega

theorem eq_of_perm_of_length_le_one {urls urls' : List URL} (hlength : urls'.length ≤ 1)
    (h : urls.Perm urls') : urls = urls' := by
  match urls' with
  | [] => exact List.perm_nil.mp h
  | [url] => exact List.perm_singleton.mp h

/-- Nothing but `deleteImages` rearranges the pictures. -/
theorem editImages_of_no_deletion (hno : UserAction.deleteImages ∉ actions.map EditAction.user)
    (hrun : editing.run vm actions = some vm') : vm'.editImages = vm.editImages := by
  have hacts : ∀ action ∈ actions, action.user ≠ .deleteImages := by
    intro action haction heq
    exact hno (List.mem_map.mpr ⟨action, haction, heq⟩)
  refine Machine.run_inv (I := fun w => w.editImages = vm.editImages) ?_ rfl
    (Machine.along_of_mem hacts _) hrun
  intro w action w' hw haction hstep
  cases edited_of_edit hstep with
  | fill form => exact hw
  | addImage image => exact hw
  | toggle url hurl => exact hw
  | deleteImages imagesToRetain deleted hretain hdeleted => exact absurd rfl haction

/-- What the user did can have led to a form with the pictures in this order. -/
def Arranges (vm : PostVM) (acts : List UserAction) (urls : List URL) : Prop :=
  ∃ actions vm', actions.map EditAction.user = acts ∧ editing.run vm actions = some vm' ∧
    vm'.editImages = urls

/-- One more action after a session that left the pictures arranged as `before`. -/
theorem Arranges.snoc {k₀ l : Kept} {before urls : List URL} (h : Arranges vm acts before)
    (h₀ : Shows vm k₀) (hl : keeping.run k₀ acts = some l) (action : EditAction)
    (last : PostVM → PostVM)
    (hstep : ∀ w, Shows w l → w.editImages = before → w.edit action = some (last w))
    (hlast : ∀ w, w.editImages = before → (last w).editImages = urls) :
    Arranges vm (acts ++ [action.user]) urls := by
  obtain ⟨actions, w, hacts, hw, himages⟩ := h
  have hshows : Shows w l := by
    obtain ⟨l', hl', hshows⟩ := shows_run h₀ hw
    rw [hacts, hl] at hl'
    exact Option.some.inj hl' ▸ hshows
  refine ⟨actions ++ [action], last w, ?_, ?_, hlast w himages⟩
  · rw [List.map_append, hacts, List.map_singleton]
  · exact Machine.run_append.mpr ⟨w, hw, Machine.run_cons.mpr
      ⟨last w, hstep w hshows himages, rfl⟩⟩

/-- What the user did can have led to any arrangement of the kept pictures, once
`deleteImages` was called. -/
theorem exists_arrangement {k₀ : Kept} (h₀ : Shows vm k₀) (hsame : vm.editImages = k₀.pictures)
    (hrun : keeping.run k₀ acts = some k) {urls : List URL}
    (hurls : urls = k.pictures ∨ UserAction.deleteImages ∈ acts ∧ urls.Perm k.pictures) :
    Arranges vm acts urls := by
  induction acts using List.reverseRecOn generalizing k urls with
  | nil =>
    obtain rfl := Option.some.inj hrun
    have hinit : urls = k₀.pictures := by
      rcases hurls with heq | ⟨hmem, -⟩
      · exact heq
      · exact absurd hmem List.not_mem_nil
    exact ⟨[], vm, rfl, rfl, hsame.trans hinit.symm⟩
  | append_singleton acts act ih =>
    obtain ⟨l, hl, hlast⟩ := Machine.run_append.mp hrun
    obtain ⟨k', hact, hlast⟩ := Machine.run_cons.mp hlast
    obtain rfl := Option.some.inj hlast
    -- an action that is not `deleteImages` leaves the arrangement
    have hkeep : act ≠ .deleteImages → k'.pictures = l.pictures → Arranges vm acts urls := by
      intro hne hpictures
      refine ih hl ?_
      rw [← hpictures]
      refine hurls.imp_right fun h => ⟨?_, h.2⟩
      exact (List.mem_append.mp h.1).resolve_right fun hin =>
        hne (List.mem_singleton.mp hin).symm
    cases act with
    | fill form =>
      obtain rfl := Option.some.inj hact
      exact (hkeep (by simp) rfl).snoc h₀ hl (.fill form) (fun w => w.fill form)
        (fun _ _ _ => rfl) fun _ h => h
    | addImage image =>
      obtain rfl := Option.some.inj hact
      exact (hkeep (by simp) rfl).snoc h₀ hl (.addImage image)
        (fun w => { w with additionalImages := w.additionalImages ++ [image] })
        (fun _ _ _ => rfl) fun _ h => h
    | toggle url =>
      obtain ⟨hurl, rfl⟩ := Option.ite_some_none_eq_some.mp hact
      refine (hkeep (by simp) rfl).snoc h₀ hl (.toggle url) (fun w => w.toggle url) ?_
        fun _ h => h
      intro w hw _
      exact if_pos (hw.pictures.mem_iff.mpr hurl)
    | deleteImages =>
      obtain rfl := Option.some.inj hact
      have hperm : urls.Perm (l.pictures.filter fun url => url ∉ l.selected) := by
        rcases hurls with rfl | ⟨-, hperm⟩
        · exact List.Perm.refl _
        · exact hperm
      -- the runtime enumerates the retained pictures as `urls`
      obtain ⟨deleted, hdeleted⟩ := Finset.exists_list_nodup_eq l.selected
      refine (ih hl (Or.inl rfl)).snoc h₀ hl (.deleteImages urls deleted)
        (fun w => w.deleteImages urls deleted) ?_ fun _ _ => rfl
      intro w hw _
      refine if_pos ⟨hw.enumerates_iff.mpr hperm, ?_⟩
      rw [hw.selected]
      exact hdeleted

/-- The save updates the post at once, if no image is added. -/
theorem editPostAndImages_of_nil {id : String} (hnone : vm.additionalImages = [])
    (huser : vm.currentUser = some vm.post.posterId) (hid : vm.post.id = some id) (s : App)
    (i : Nat) : editPostAndImages s i vm =
      .updateData i id (.edit (PostVM.withPictures vm.editParams vm.editImages)) ::
        startDeletion vm.currentUser vm.imagesToDelete := by
  rw [editPostAndImages, if_neg (not_not.mpr hnone), modifyPost, huser, hid]
  exact congrArg (· ++ _) (if_pos rfl)

/-- No image is added in the session. -/
theorem additionalImages_of_no_image (hno : ∀ image, UserAction.addImage image ∉
      actions.map EditAction.user) (hrun : editing.run vm actions = some vm') :
    vm'.additionalImages = vm.additionalImages := by
  have hacts : ∀ action ∈ actions, ∀ image, action.user ≠ .addImage image := by
    intro action haction image heq
    exact hno image (List.mem_map.mpr ⟨action, haction, heq⟩)
  refine Machine.run_inv (I := fun w => w.additionalImages = vm.additionalImages) ?_ rfl
    (Machine.along_of_mem hacts _) hrun
  intro w action w' hw haction hstep
  cases edited_of_edit hstep with
  | fill form => exact hw
  | addImage image => exact absurd rfl (haction image)
  | toggle url hurl => exact hw
  | deleteImages imagesToRetain deleted hretain hdeleted => exact hw

/-- The save of the form updates the post with the kept pictures in the order of the post. -/
def WritesInOrder (id : String) (post : Post) (vm : PostVM) : Prop :=
  ∀ s i, ∃ data rest, editPostAndImages s i vm = .updateData i id (.edit data) :: rest ∧
    pictures data = post.pictures.filter fun url => url ∈ vm.editImages

theorem writesInOrder_iff {id : String} (hnone : vm.additionalImages = [])
    (huser : vm.currentUser = some vm.post.posterId) (hid : vm.post.id = some id) :
    WritesInOrder id post vm ↔
      vm.editImages = post.pictures.filter fun url => url ∈ vm.editImages := by
  constructor
  · intro h
    obtain ⟨data, rest, hops, hdata⟩ := h annsStore 0
    rw [editPostAndImages_of_nil hnone huser hid] at hops
    have hop := (List.cons.inj hops).1
    simp only [Op.updateData.injEq, Change.edit.injEq, true_and] at hop
    rw [← hdata, ← hop, PostVM.pictures_withPictures]
  · intro h s i
    refine ⟨_, _, editPostAndImages_of_nil hnone huser hid s i, ?_⟩
    rw [PostVM.pictures_withPictures, ← h]

/-- **Whatever the enumerations, the save writes the kept pictures in their order exactly
when `deleteImages` was not called or at most one picture is kept.** -/
theorem written_in_order_iff {id : String} (hid : post.id = some id)
    (hnodup : post.pictures.Nodup) (hno : ∀ image, UserAction.addImage image ∉ acts)
    (hacts : keeping.run (Kept.init post hnodup) acts = some k) :
    (∀ actions vm, actions.map EditAction.user = acts →
        editing.run (PostVM.init (some post.posterId) post) actions = some vm →
          WritesInOrder id post vm) ↔
      UserAction.deleteImages ∉ acts ∨ k.pictures.length ≤ 1 := by
  have hsub : k.pictures.Sublist post.pictures := kept_sublist hacts
  have hsave : ∀ {actions vm}, actions.map EditAction.user = acts →
      editing.run (PostVM.init (some post.posterId) post) actions = some vm →
        Shows vm k ∧ (WritesInOrder id post vm ↔ vm.editImages = k.pictures) := by
    intro actions vm hactions hrun
    obtain ⟨k', hk', hshows⟩ := shows_run (shows_init hnodup) hrun
    rw [hactions, hacts] at hk'
    obtain rfl := Option.some.inj hk'
    obtain ⟨hpost, huser⟩ := editing_frame hrun
    refine ⟨hshows, ?_⟩
    rw [← hshows.filter_eq hnodup hsub]
    refine writesInOrder_iff ?_ ?_ ?_
    · exact additionalImages_of_no_image (hactions ▸ hno) hrun
    · rw [huser, hpost]
      rfl
    · rw [hpost]
      exact hid
  constructor
  · intro hall
    by_cases hdel : UserAction.deleteImages ∈ acts
    · right
      -- the runtime may have turned the kept pictures around
      obtain ⟨actions, vm, hactions, hrun, himages⟩ :=
        exists_arrangement (shows_init hnodup) rfl hacts
          (Or.inr ⟨hdel, List.reverse_perm k.pictures⟩)
      have horder := (hsave hactions hrun).2.mp (hall actions vm hactions hrun)
      rw [himages] at horder
      exact length_le_one_of_reverse k.nodup horder
    · exact Or.inl hdel
  · rintro hcond actions vm hactions hrun
    obtain ⟨hshows, hiff⟩ := hsave hactions hrun
    refine hiff.mpr ?_
    rcases hcond with hdel | hlength
    · rw [editImages_of_no_deletion (hactions ▸ hdel) hrun]
      obtain ⟨actions', vm', hactions', hrun', himages⟩ :=
        exists_arrangement (shows_init hnodup) rfl hacts (Or.inl rfl)
      rw [editImages_of_no_deletion (hactions' ▸ hdel) hrun'] at himages
      exact himages
    · exact eq_of_perm_of_length_le_one hlength hshows.pictures

theorem written_in_order_iff_example :
    ∃ vm, editing.run (PostVM.init (some "ann") annsPost)
        [.toggle "a", .deleteImages ["b"] ["a"]] = some vm ∧ WritesInOrder "p" annsPost vm := by
  have hacts : keeping.run (Kept.init annsPost (by decide)) [.toggle "a", .deleteImages] =
      some ⟨["b"], by decide, ∅⟩ := by
    decide +kernel
  have hrun : editing.run (PostVM.init (some "ann") annsPost)
      [.toggle "a", .deleteImages ["b"] ["a"]] =
        some (((PostVM.init (some "ann") annsPost).toggle "a").deleteImages ["b"] ["a"]) := by
    decide +kernel
  have horder := (written_in_order_iff rfl (by decide) (by simp) hacts).mpr (Or.inr (by decide))
  exact ⟨_, hrun, horder _ _ rfl hrun⟩

/-- Ann removes one of three pictures, and the runtime enumerates the other two in the
order in which they are not in the post. -/
theorem pictures_reordered : ¬ ∀ (post : Post) (id : String) (actions : List EditAction)
    (vm : PostVM), post.id = some id → post.pictures.Nodup →
      (∀ image, UserAction.addImage image ∉ actions.map EditAction.user) →
        editing.run (PostVM.init (some post.posterId) post) actions = some vm →
          WritesInOrder id post vm := by
  intro h
  let post : Post := { annsPost with pictures := ["a", "b", "c"] }
  let vm := ((PostVM.init (some "ann") post).toggle "a").deleteImages ["c", "b"] ["a"]
  have hrun : editing.run (PostVM.init (some "ann") post)
      [.toggle "a", .deleteImages ["c", "b"] ["a"]] = some vm := by
    decide +kernel
  have horder := h post "p" _ vm rfl (by decide) (by simp [EditAction.user]) hrun
  have himages := (@writesInOrder_iff post vm "p" rfl rfl rfl).mp horder
  exact absurd himages (by decide +kernel)

end Subtle.Feed
