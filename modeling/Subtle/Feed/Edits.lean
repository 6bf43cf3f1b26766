import Subtle.Feed.System

/-!
# The data of the edits on their way

An edit is computed when a form is saved, and waits while its images are uploaded.  What
holds of the data that a form computes, and of such data with the pictures added, holds of
every edit on its way.

* `edits_call`, `edits_answer`: **the rule for the data of edits**, for one step.
* `formData_ofForm`: no edit writes a field that is not one of the form.
-/

namespace Subtle.Feed

open Subtle.Firestore Subtle.Lib Subtle.Storage

section

variable (P : Document → Prop)

/-- The edit that waits for uploads meets `P`. -/
def After.Edits : After → Prop
  | addPost _ _ => True
  | modifyPost _ editParams _ => P editParams

/-- The edit that an operation carries meets `P`. -/
def Op.Edits : Op → Prop
  | upload _ _ _ after => after.Edits P
  | updateData _ _ (.edit data) => P data
  | _ => True

/-- `P` holds of the data of a form, and is kept when the pictures are added. -/
structure FormData : Prop where
  editParams : ∀ vm : PostVM, P vm.editParams
  withPictures : ∀ params urls, P params → P (PostVM.withPictures params urls)

variable {P} {s s' : App} {new pre post : List Op} {op : Op}

theorem edits_addImageHelper (h : FormData P) {after : After} (hafter : after.Edits P)
    {urls : List URL} {images : List UIImage} (hop : op ∈ s.addImageHelper urls after images) :
    op.Edits P := by
  cases images with
  | cons image rest =>
    obtain rfl := List.mem_singleton.mp hop
    exact hafter
  | nil =>
    cases after with
    | addPost currentUser p =>
      obtain ⟨id, rfl⟩ := mem_addPost hop
      trivial
    | modifyPost i params newImages =>
      simp only [App.addImageHelper, App.uploaded] at hop
      split at hop
      · obtain ⟨id, rfl⟩ := mem_modifyPost hop
        exact h.withPictures _ _ hafter
      · exact absurd hop List.not_mem_nil

theorem edits_addImages (h : FormData P) {after : After} (hafter : after.Edits P)
    {currentUser : Option String} {images : List UIImage}
    (hop : op ∈ s.addImages currentUser images after) : op.Edits P := by
  unfold App.addImages at hop
  split at hop
  · exact edits_addImageHelper h hafter hop
  · exact absurd hop List.not_mem_nil

/-- The operations of a call carry edits of forms only. -/
theorem edits_call (h : FormData P) {x : Call} (hcall : Called s x s' new) :
    ∀ op ∈ new, op.Edits P := by
  intro op hop
  cases hcall with
  | submitted currentUser form images id creationDate p hp =>
    have hafter : (After.addPost currentUser p).Edits P := trivial
    exact edits_addImages h hafter hop
  | opened => exact absurd hop List.not_mem_nil
  | filled => exact absurd hop List.not_mem_nil
  | imageAdded => exact absurd hop List.not_mem_nil
  | toggled => exact absurd hop List.not_mem_nil
  | imagesDeleted => exact absurd hop List.not_mem_nil
  | saved i vm hvm hshows =>
    unfold editPostAndImages at hop
    split at hop
    · have hafter : (After.modifyPost i vm.editParams vm.editImages).Edits P := h.editParams vm
      exact edits_addImages h hafter hop
    · rcases List.mem_append.mp hop with hop | hop
      · obtain ⟨id, rfl⟩ := mem_modifyPost hop
        exact h.withPictures _ _ (h.editParams vm)
      · obtain ⟨index, rfl⟩ := mem_startDeletion hop
        trivial
  | liked i vm =>
    obtain ⟨id, user, rfl⟩ := mem_likePost hop
    trivial
  | unliked i vm =>
    obtain ⟨id, user, rfl⟩ := mem_unlikePost hop
    trivial
  | postDeleted i vm =>
    obtain ⟨id, rfl⟩ := mem_deletePost hop
    trivial

/-- The operations that an answer leads to carry the edit that it answers, if any. -/
theorem edits_answer (h : FormData P) {r : Reply} (hop : op.Edits P)
    (hanswer : Answered s op r s' new) : ∀ op' ∈ new, op'.Edits P := by
  intro op' hop'
  cases hanswer with
  | failed => exact absurd hop' List.not_mem_nil
  | uploaded image rest urls after url hfresh => exact edits_addImageHelper h hop hop'
  | created => exact absurd hop' List.not_mem_nil
  | updated i id change document hdoc =>
    obtain rfl := List.mem_singleton.mp hop'
    trivial
  | missing => exact absurd hop' List.not_mem_nil
  | read i id p =>
    obtain rfl := List.mem_singleton.mp hop'
    trivial
  | delivered => exact absurd hop' List.not_mem_nil
  | removed urls index =>
    rw [mem_nextDeletion hop']
    trivial
  | kept urls index =>
    rw [mem_nextDeletion hop']
    trivial
  | deleted => exact absurd hop' List.not_mem_nil

end

/-- The data of an edit has no field that is not one of the form. -/
def OfForm (data : Document) : Prop := ∀ k, k ∉ PostVM.editable → data k = none

theorem formData_ofForm : FormData OfForm where
  editParams vm _ hk := PostVM.editParams_of_not_editable hk vm
  withPictures _ urls h k hk := PostVM.withPictures_of_not_editable hk (h k hk) urls

end Subtle.Feed
