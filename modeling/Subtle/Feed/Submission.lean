import Subtle.Feed.System
import Subtle.Storage.Upload

/-!
# Submitting a post with its images

`addPostAndImages` uploads the images and then stores the post with their URLs.

* `addImages_eq_batch`, `addImageHelper_eq_batch`: the uploads of the app are those of
  a batch.
* `submissions`: the app with what is submitted, uploaded and stored.
* `Submitted`: every upload on the way to a post is the next one of its submission.
* `uploads_all_or_nothing`: **a batch of uploads is ordered and all or nothing, and every
  stored post has one picture for each submitted image, in order**.
-/

namespace Subtle.Feed

open Subtle.Firestore Subtle.Lib Subtle.Storage

/-! ### The batch in the app -/

/-- The operations of a batch: the uploads that are outstanding, and what the completion
leads to. -/
def App.batchOps (s : App) (images : List UIImage) (after : After)
    (p : UploadRun UIImage × List Nat) : List Op :=
  (p.2.flatMap fun k => (images[k]?).toList.map fun image =>
    .upload image (images.drop (k + 1)) p.1.urls after) ++
  p.1.completed.flatMap fun urls => s.uploaded urls after

variable {s s' : App} {op : Op} {ops pre tail new : List Op}

theorem addImageHelper_eq_batch (s : App) (after : After) {images started : List UIImage}
    {urls : List URL} {k : Nat} (hk : k ≤ images.length) :
    s.addImageHelper urls after (images.drop k) =
      s.batchOps images after (Storage.addImageHelper images k ⟨started, urls, []⟩) := by
  unfold Storage.addImageHelper
  split
  · rename_i hlt
    rw [List.drop_eq_getElem_cons hlt]
    simp [App.addImageHelper, App.batchOps, List.getElem?_eq_getElem hlt]
  · rw [List.drop_of_length_le (by omega)]
    simp [App.addImageHelper, App.batchOps]

/-- The uploads that the app starts with are those of `StorageService.addImages`. -/
theorem addImages_eq_batch (s : App) (currentUser : Option String) (images : List UIImage)
    (after : After) : s.addImages currentUser images after =
      s.batchOps images after ((Storage.addImages currentUser images).core,
        (Storage.addImages currentUser images).pending) := by
  cases currentUser with
  | none => rfl
  | some user => exact addImageHelper_eq_batch s after (Nat.zero_le _)

/-- An uploaded image carries the batch on. -/
theorem upload_eq_batch {image : UIImage} {images started : List UIImage} {urls : List URL}
    {after : After} {k : Nat} {url : URL} (hk : k < images.length)
    (hanswer : s.answer (.upload image (images.drop (k + 1)) urls after) (.uploaded url) =
      some (s', new)) :
    new = s'.batchOps images after (answerUpload images ⟨started, urls, []⟩ k (some url)) := by
  simp only [App.answer] at hanswer
  split at hanswer
  · exact absurd hanswer (Option.some_ne_none _).symm
  · obtain ⟨rfl, rfl⟩ := Prod.mk.inj (Option.some.inj hanswer)
    exact addImageHelper_eq_batch _ after hk

/-! ### What is submitted and what is stored -/

/-- The posts submitted with their images, the images uploaded for each post, and the posts
stored. -/
structure SubmissionLog where
  submitted : List (Post × List UIImage)
  uploaded : List (Post × UIImage × URL)
  stored : List Post

namespace SubmissionLog

def noteCall (log : SubmissionLog) (_ : App) : Call → Option SubmissionLog
  | .submit currentUser form images id creationDate =>
      (formCompletion currentUser form id creationDate).map fun post =>
        { log with submitted := log.submitted ++ [(post, images)] }
  | _ => some log

def noteAnswer (log : SubmissionLog) (_ : App) : Op → Reply → Option SubmissionLog
  | .upload image _ _ (.addPost _ post), .uploaded url =>
      some { log with uploaded := log.uploaded ++ [(post, image, url)] }
  | .setData _ post, .ok => some { log with stored := log.stored ++ [post] }
  | _, _ => some log

/-- The URLs are those of the images, one each and in order. -/
structure PicturesOf (log : SubmissionLog) (post : Post) (images : List UIImage)
    (urls : List URL) : Prop where
  order : List.Forall₂ (fun image url => (post, image, url) ∈ log.uploaded) images urls
  nodup : urls.Nodup

/-- The stored post is a submitted one with the URLs of all its images. -/
def Complete (log : SubmissionLog) (stored : Post) : Prop :=
  ∃ post images, (post, images) ∈ log.submitted ∧
    stored = { post with pictures := stored.pictures } ∧
      log.PicturesOf post images stored.pictures

end SubmissionLog

/-- The app with a record of what is submitted. -/
def submissions : Service (App × SubmissionLog) Call Op Reply :=
  app.watched id id SubmissionLog.noteCall SubmissionLog.noteAnswer

def submissions.start (posts : String → Option Document) (objects : Finset URL) :
    Config (App × SubmissionLog) Op := ⟨(App.start posts objects, ⟨[], [], []⟩), []⟩

/-- The operation is the next one of a submission. -/
def Op.Follows (log : SubmissionLog) : Op → Prop
  | .upload image rest urls (.addPost _ post) => ∃ done,
      (post, done ++ image :: rest) ∈ log.submitted ∧ log.PicturesOf post done urls
  | .setData _ post => log.Complete post
  | _ => True

/-- Every operation on the way to a post is the next one of its submission. -/
structure Submitted (p : App × SubmissionLog) (ops : List Op) : Prop where
  follows : ∀ op ∈ ops, op.Follows p.2
  issued : ∀ upload ∈ p.2.uploaded, upload.2.2 ∈ p.1.issued
  stored : ∀ post ∈ p.2.stored, p.2.Complete post

variable {log log' : SubmissionLog} {post : Post} {images : List UIImage} {urls : List URL}

namespace SubmissionLog

/-- The record grows. -/
structure Grows (log log' : SubmissionLog) : Prop where
  submitted : log.submitted ⊆ log'.submitted
  uploaded : log.uploaded ⊆ log'.uploaded

theorem PicturesOf.mono (h : log.PicturesOf post images urls) (hgrows : Grows log log') :
    log'.PicturesOf post images urls :=
  ⟨h.order.imp fun _ _ hmem => hgrows.uploaded hmem, h.nodup⟩

theorem Complete.mono {stored : Post} (h : log.Complete stored) (hgrows : Grows log log') :
    log'.Complete stored := by
  obtain ⟨post, images, hsubmitted, hpost, hpictures⟩ := h
  exact ⟨post, images, hgrows.submitted hsubmitted, hpost, hpictures.mono hgrows⟩

end SubmissionLog

theorem Op.Follows.mono (h : op.Follows log) (hgrows : log.Grows log') : op.Follows log' := by
  unfold Op.Follows at h ⊢
  split at h
  · obtain ⟨done, hsubmitted, hpictures⟩ := h
    exact ⟨done, hgrows.submitted hsubmitted, hpictures.mono hgrows⟩
  · exact h.mono hgrows
  · trivial

/-! ### Steps -/

theorem follows_addImageHelper {currentUser : Option String} {done rest : List UIImage}
    (hsubmitted : (post, done ++ rest) ∈ log.submitted) (hpictures : log.PicturesOf post done urls)
    (hop : op ∈ s.addImageHelper urls (.addPost currentUser post) rest) : op.Follows log := by
  cases rest with
  | cons image rest =>
    obtain rfl := List.mem_singleton.mp hop
    exact ⟨done, hsubmitted, hpictures⟩
  | nil =>
    rw [List.append_nil] at hsubmitted
    simp only [App.addImageHelper, App.uploaded, addPost] at hop
    split at hop
    · obtain rfl := List.mem_singleton.mp hop
      exact ⟨post, done, hsubmitted, rfl, hpictures⟩
    · exact absurd hop List.not_mem_nil

/-- A batch for an edit form adds no post. -/
theorem follows_modifyPost {i : Nat} {params : Document} {newImages : List URL}
    {rest : List UIImage} (hop : op ∈ s.addImageHelper urls (.modifyPost i params newImages) rest) :
    op.Follows log := by
  cases rest with
  | cons image rest =>
    obtain rfl := List.mem_singleton.mp hop
    trivial
  | nil =>
    simp only [App.addImageHelper, App.uploaded] at hop
    split at hop
    · obtain ⟨id, rfl⟩ := mem_modifyPost hop
      trivial
    · exact absurd hop List.not_mem_nil

theorem follows_save {i : Nat} {vm : PostVM} (hop : op ∈ editPostAndImages s i vm) :
    op.Follows log := by
  unfold editPostAndImages App.addImages at hop
  split at hop
  · split at hop
    · exact follows_modifyPost hop
    · exact absurd hop List.not_mem_nil
  · rcases List.mem_append.mp hop with hop | hop
    · obtain ⟨id, rfl⟩ := mem_modifyPost hop
      trivial
    · obtain ⟨index, rfl⟩ := mem_startDeletion hop
      trivial

theorem SubmissionLog.PicturesOf.exists_image (h : log.PicturesOf post images urls) {url : URL}
    (hurl : url ∈ urls) : ∃ image, (post, image, url) ∈ log.uploaded := by
  obtain ⟨⟨k, hk⟩, rfl⟩ := List.mem_iff_get.mp hurl
  exact ⟨_, h.order.get (h.order.length_eq ▸ hk) hk⟩

namespace Submitted

/-- A step that adds to the record at most. -/
theorem grow (h : Submitted (s, log) ops) (hgrows : log.Grows log') (hissued : s.issued ⊆ s'.issued)
    (hops : ∀ op ∈ new, op ∈ ops ∨ op.Follows log')
    (huploaded : ∀ upload ∈ log'.uploaded, upload ∈ log.uploaded ∨ upload.2.2 ∈ s'.issued)
    (hstored : ∀ post ∈ log'.stored, post ∈ log.stored ∨ log'.Complete post) :
    Submitted (s', log') new := by
  refine ⟨?_, ?_, ?_⟩
  · intro op hop
    rcases hops op hop with hold | hnew
    · exact (h.follows op hold).mono hgrows
    · exact hnew
  · intro upload hupload
    rcases huploaded upload hupload with hold | hnew
    · exact hissued (h.issued upload hold)
    · exact hnew
  · intro post hpost
    rcases hstored post hpost with hold | hnew
    · exact (h.stored post hold).mono hgrows
    · exact hnew

theorem idle (h : Submitted (s, log) ops) (hissued : s.issued ⊆ s'.issued)
    (hops : ∀ op ∈ new, op ∈ ops ∨ op.Follows log) : Submitted (s', log) new :=
  h.grow ⟨List.Subset.refl _, List.Subset.refl _⟩ hissued hops (fun _ => Or.inl) fun _ => Or.inl

/-- **A call keeps every operation the next one of its submission.** -/
theorem call (h : Submitted (s, log) ops) {x : Call} (hnote : log.noteCall s x = some log')
    (hcall : Called s x s' new) : Submitted (s', log') (ops ++ new) := by
  have hidle : ∀ {new}, (∀ op ∈ new, op.Follows log) →
      ∀ op ∈ ops ++ new, op ∈ ops ∨ op.Follows log := fun hnew op hop =>
    (List.mem_append.mp hop).imp_right (hnew op)
  have hnil : ∀ op ∈ ops ++ [], op ∈ ops ∨ op.Follows log := hidle (List.forall_mem_nil _)
  cases hcall with
  | submitted currentUser form images id creationDate post hpost =>
    simp only [SubmissionLog.noteCall, hpost, Option.map_some, Option.some.injEq] at hnote
    subst hnote
    refine h.grow ⟨List.subset_append_left _ _, List.Subset.refl _⟩ (Finset.Subset.refl _) ?_
      (fun _ => Or.inl) fun _ => Or.inl
    intro op hop
    refine (List.mem_append.mp hop).imp_right fun hop => ?_
    unfold addPostAndImages App.addImages at hop
    split at hop
    · refine @follows_addImageHelper s op _ post [] _ [] images ?_ ⟨.nil, List.nodup_nil⟩ hop
      exact List.mem_append_right _ (List.mem_singleton_self _)
    · exact absurd hop List.not_mem_nil
  | opened currentUser id document p hdoc hdecode =>
    obtain rfl := Option.some.inj hnote
    exact h.idle (Finset.Subset.refl _) hnil
  | filled i form vm hvm =>
    obtain rfl := Option.some.inj hnote
    exact h.idle (Finset.Subset.refl _) hnil
  | imageAdded i image vm hvm =>
    obtain rfl := Option.some.inj hnote
    exact h.idle (Finset.Subset.refl _) hnil
  | toggled i url vm hvm hurl =>
    obtain rfl := Option.some.inj hnote
    exact h.idle (Finset.Subset.refl _) hnil
  | imagesDeleted i imagesToRetain deleted vm hvm hretain hdeleted =>
    obtain rfl := Option.some.inj hnote
    exact h.idle (Finset.Subset.refl _) hnil
  | saved i vm hvm hshows =>
    obtain rfl := Option.some.inj hnote
    exact h.idle (Finset.Subset.refl _) (hidle fun op hop => follows_save hop)
  | liked i vm =>
    obtain rfl := Option.some.inj hnote
    refine h.idle (Finset.Subset.refl _) (hidle fun op hop => ?_)
    obtain ⟨id, likerId, rfl⟩ := mem_likePost hop
    trivial
  | unliked i vm =>
    obtain rfl := Option.some.inj hnote
    refine h.idle (Finset.Subset.refl _) (hidle fun op hop => ?_)
    obtain ⟨id, unlikerId, rfl⟩ := mem_unlikePost hop
    trivial
  | postDeleted i vm =>
    obtain rfl := Option.some.inj hnote
    refine h.idle (Finset.Subset.refl _) (hidle fun op hop => ?_)
    obtain ⟨id, rfl⟩ := mem_deletePost hop
    trivial

theorem upload {image : UIImage} {rest : List UIImage} {currentUser : Option String} {url : URL}
    (h : Submitted (s, log) (pre ++ .upload image rest urls (.addPost currentUser post) :: tail))
    (hfresh : url ∉ s.issued) (hissued : s'.issued = insert url s.issued) :
    Submitted (s', { log with uploaded := log.uploaded ++ [(post, image, url)] })
      (pre ++ tail ++ s'.addImageHelper (urls ++ [url]) (.addPost currentUser post) rest) := by
  have hgrows : log.Grows { log with uploaded := log.uploaded ++ [(post, image, url)] } :=
    ⟨List.Subset.refl _, List.subset_append_left _ _⟩
  obtain ⟨done, hsubmitted, hpictures⟩ :=
    h.follows _ (Service.mem_pending_iff.mpr (Or.inl rfl))
  refine h.grow hgrows ?_ ?_ ?_ fun _ => Or.inl
  · rw [hissued]
    exact Finset.subset_insert _ _
  · intro op hop
    rcases List.mem_append.mp hop with hop | hop
    · exact Or.inl (Service.mem_pending_iff.mpr (Or.inr hop))
    · right
      have hsubmitted' : (post, (done ++ [image]) ++ rest) ∈ log.submitted := by
        rwa [List.append_assoc]
      refine follows_addImageHelper hsubmitted' ⟨?_, ?_⟩ hop
      · exact List.rel_append (hpictures.mono hgrows).order
          (.cons (List.mem_append_right _ (List.mem_singleton_self _)) .nil)
      · -- the new URL is that of no image uploaded before
        refine List.nodup_append.mpr ⟨hpictures.nodup, List.nodup_singleton _, ?_⟩
        rintro url' hold _ hnew rfl
        obtain rfl := List.mem_singleton.mp hnew
        obtain ⟨image', hmem⟩ := hpictures.exists_image hold
        exact hfresh (h.issued _ hmem)
  · intro upload hupload
    refine (List.mem_append.mp hupload).imp_right fun hnew => ?_
    obtain rfl := List.mem_singleton.mp hnew
    rw [hissued]
    exact Finset.mem_insert_self _ _

theorem store {id : String} (h : Submitted (s, log) (pre ++ .setData id post :: tail))
    (hissued : s'.issued = s.issued) :
    Submitted (s', { log with stored := log.stored ++ [post] }) (pre ++ tail ++ []) := by
  have hgrows : log.Grows { log with stored := log.stored ++ [post] } :=
    ⟨List.Subset.refl _, List.Subset.refl _⟩
  have hcomplete : log.Complete post := h.follows _ (Service.mem_pending_iff.mpr (Or.inl rfl))
  rw [List.append_nil]
  refine h.grow hgrows hissued.ge (fun op hop => ?_) (fun _ => Or.inl) ?_
  · exact Or.inl (Service.mem_pending_iff.mpr (Or.inr hop))
  · intro stored hstored
    refine (List.mem_append.mp hstored).imp_right fun hnew => ?_
    obtain rfl := List.mem_singleton.mp hnew
    exact hcomplete.mono hgrows

/-- **An answer keeps every operation the next one of its submission.** -/
theorem answer (h : Submitted (s, log) (pre ++ op :: tail)) {r : Reply}
    (hnote : log.noteAnswer s op r = some log') (hanswered : Answered s op r s' new) :
    Submitted (s', log') (pre ++ tail ++ new) := by
  have hidle : ∀ {new}, (∀ op' ∈ new, op'.Follows log) →
      ∀ op' ∈ pre ++ tail ++ new, op' ∈ pre ++ op :: tail ∨ op'.Follows log := fun hnew op' hop =>
    (List.mem_append.mp hop).imp (fun hold => Service.mem_pending_iff.mpr (Or.inr hold)) (hnew op')
  have hnil := hidle (List.forall_mem_nil _)
  cases hanswered with
  | failed op hop =>
    cases op with
    | upload image rest urls after =>
      cases after <;> obtain rfl := Option.some.inj hnote <;>
        exact h.idle (Finset.Subset.refl _) hnil
    | _ =>
      obtain rfl := Option.some.inj hnote
      exact h.idle (Finset.Subset.refl _) hnil
  | uploaded image rest urls after url hfresh =>
    cases after with
    | addPost currentUser post =>
      obtain rfl := Option.some.inj hnote
      exact h.upload hfresh rfl
    | modifyPost i params newImages =>
      obtain rfl := Option.some.inj hnote
      exact h.idle (Finset.subset_insert _ _) (hidle fun op' hop => follows_modifyPost hop)
  | created id post =>
    obtain rfl := Option.some.inj hnote
    exact h.store rfl
  | updated i id change document hdoc =>
    obtain rfl := Option.some.inj hnote
    refine h.idle (Finset.Subset.refl _) (hidle fun op' hop => ?_)
    obtain rfl := List.mem_singleton.mp hop
    trivial
  | missing i id =>
    obtain rfl := Option.some.inj hnote
    exact h.idle (Finset.Subset.refl _) hnil
  | read i id p =>
    obtain rfl := Option.some.inj hnote
    refine h.idle (Finset.Subset.refl _) (hidle fun op' hop => ?_)
    obtain rfl := List.mem_singleton.mp hop
    trivial
  | delivered i p =>
    obtain rfl := Option.some.inj hnote
    exact h.idle (Finset.Subset.refl _) hnil
  | removed urls index =>
    obtain rfl := Option.some.inj hnote
    refine h.idle (Finset.Subset.refl _) (hidle fun op' hop => ?_)
    rw [mem_nextDeletion hop]
    trivial
  | kept urls index =>
    obtain rfl := Option.some.inj hnote
    refine h.idle (Finset.Subset.refl _) (hidle fun op' hop => ?_)
    rw [mem_nextDeletion hop]
    trivial
  | deleted id =>
    obtain rfl := Option.some.inj hnote
    exact h.idle (Finset.Subset.refl _) hnil

end Submitted

/-- Every run keeps every operation the next one of its submission. -/
theorem submitted_run {posts : String → Option Document} {objects : Finset URL}
    {es : List (Event Call Reply)} {c : Config (App × SubmissionLog) Op}
    (hrun : submissions.machine.run (submissions.start posts objects) es = some c) :
    Submitted c.core c.pending := by
  refine Service.run_inv_of_step (I := Submitted) ?_ ?_ ?_ hrun
  · rintro ⟨s, log⟩ ops x ⟨s', log'⟩ new h hcall
    obtain ⟨hnote, hcall⟩ := Service.watched_call hcall
    exact h.call hnote (called_of_call hcall)
  · rintro ⟨s, log⟩ pre op tail r ⟨s', log'⟩ new h hanswer
    obtain ⟨hnote, hanswer⟩ := Service.watched_answer hanswer
    exact h.answer hnote (answered_of_answer hanswer)
  · exact ⟨List.forall_mem_nil _, List.forall_mem_nil _, List.forall_mem_nil _⟩

/-- **A batch of uploads is ordered and all or nothing, and every stored post has the
pictures of all its images, in order.** -/
theorem uploads_all_or_nothing :
    (∀ (images : List UIImage) (reports : Nat → UploadReport) (user : String)
      (es : List (Event Empty Unit)) (d : Config (UploadRun UIImage) Nat),
      (uploading images reports).machine.run (Storage.addImages (some user) images) es = some d →
        es.length ≤ images.length ∧ d.core.completed.length ≤ 1 ∧
          (d.pending = [] → AllOrNothing images reports d.core)) ∧
    ∀ (posts : String → Option Document) (objects : Finset URL) (es : List (Event Call Reply))
      (c : Config (App × SubmissionLog) Op),
      submissions.machine.run (submissions.start posts objects) es = some c →
        ∀ post ∈ c.core.2.stored, c.core.2.Complete post :=
  ⟨fun _ _ _ _ _ hrun => uploading_run hrun, fun _ _ _ _ hrun => (submitted_run hrun).stored⟩

/-- Reports of uploads that all succeed, each with a URL of its own. -/
def successes (i : Nat) : UploadReport :=
  ⟨some "data", some "ann", false, false, some (if i = 0 then "u" else "v")⟩

/-- Ann submits a post with two images. -/
def submission : List (Event Call Reply) :=
  [.call (.submit (some "ann") ⟨"Beth", 0, "Duke University", "Durham", "Tall", []⟩ ["x", "y"] "p"
      0), .answer 0 (.uploaded "u"), .answer 0 (.uploaded "v"), .answer 0 .ok]

theorem uploads_all_or_nothing_example :
    AllOrNothing ["x", "y"] successes ⟨["x", "y"], ["u", "v"], [["u", "v"]]⟩ ∧
      ∃ c, submissions.machine.run (submissions.start (fun _ => none) ∅) submission = some c ∧
        c.core.2.stored.map Post.pictures = [["u", "v"]] ∧
          ∀ post ∈ c.core.2.stored, c.core.2.Complete post := by
  have hbatch : (uploading ["x", "y"] successes).machine.run
      (Storage.addImages (some "ann") ["x", "y"]) [.answer 0 (), .answer 0 ()] =
        some ⟨⟨["x", "y"], ["u", "v"], [["u", "v"]]⟩, []⟩ := rfl
  have hrun : ∃ c, submissions.machine.run (submissions.start (fun _ => none) ∅) submission =
      some c ∧ c.core.2.stored.map Post.pictures = [["u", "v"]] := ⟨_, rfl, rfl⟩
  obtain ⟨c, hc, hpictures⟩ := hrun
  exact ⟨(uploads_all_or_nothing.1 _ _ _ _ _ hbatch).2.2 rfl, c, hc, hpictures,
    uploads_all_or_nothing.2 _ _ _ _ hc⟩

end Subtle.Feed
