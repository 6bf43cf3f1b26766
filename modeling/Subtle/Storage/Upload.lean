import Subtle.Storage.Batch

/-!
# Uploading a batch of images

`StorageService.addImages` uploads the images of a list one after the other, by a
recursion through the completion of each upload that shares one list of URLs.  An upload
that fails never calls its completion, so the recursion ends there.

* `uploading`: a batch, with what the backend reports of the upload at each position.
* `Uploads`: a batch after some number of reports.
* `uploading_run`: **the completion is called at most once, exactly when every upload
  succeeds, and then with the URLs in the order of the images**.
-/

namespace Subtle.Storage

open Subtle.Lib

/-- What happens to one upload: the data of the image, the user, and what `putData` and
`downloadURL` pass to their handlers. -/
structure UploadReport where
  imageData : Option String
  posterId : Option String
  putError : Bool
  urlError : Bool
  url : Option URL
  deriving DecidableEq

/-- What `BatchUploader.upload` passes to its completion, if it calls it. -/
def BatchUploader.upload (report : UploadReport) : Option URL :=
  match report.imageData, report.posterId with
  | some _, some _ =>
      if report.putError then none else if report.urlError then none else report.url
  | _, _ => none

variable {α : Type}

/-- One call of `addImages`: the uploads started, the `urls` collected, and the lists its
completion was called with. -/
structure UploadRun (α : Type) where
  started : List α
  urls : List URL
  completed : List (List URL)
  deriving DecidableEq

/-- Start the upload at `index`, or call `finalCompletion` after the last. -/
def addImageHelper (images : List α) (index : Nat) (st : UploadRun α) : UploadRun α × List Nat :=
  if h : index < images.length then ({ st with started := st.started ++ [images[index]] }, [index])
  else ({ st with completed := st.completed ++ [st.urls] }, [])

/-- What the completion of the upload at `index` does, if it is called. -/
def answerUpload (images : List α) (st : UploadRun α) (index : Nat) :
    Option URL → UploadRun α × List Nat
  | some url => addImageHelper images (index + 1) { st with urls := st.urls ++ [url] }
  | none => (st, [])

/-- The backend reports on the outstanding uploads. -/
def uploading (images : List α) (reports : Nat → UploadReport) :
    Service (UploadRun α) Empty Nat Unit where
  call _ x := x.elim
  answer st index _ := some (answerUpload images st index (BatchUploader.upload (reports index)))

/-- `addImages` itself: nothing happens when no user is signed in. -/
def addImages (currentUser : Option String) (images : List α) : Config (UploadRun α) Nat :=
  match currentUser with
  | none => ⟨⟨[], [], []⟩, []⟩
  | some _ =>
      let p := addImageHelper images 0 ⟨[], [], []⟩
      ⟨p.1, p.2⟩

/-- The first `k` uploads succeed, and these are their URLs in order. -/
def Yields (reports : Nat → UploadReport) (k : Nat) (urls : List URL) : Prop :=
  urls.length = k ∧ ∀ i < k, BatchUploader.upload (reports i) = urls[i]?

/-- What a batch comes to once no upload is outstanding: the uploads through the first that
fails were started, and the completion was called with all URLs, or not at all. -/
structure AllOrNothing (images : List α) (reports : Nat → UploadReport) (st : UploadRun α) :
    Prop where
  started : ∃ k ≤ images.length, (∀ i < k, BatchUploader.upload (reports i) ≠ none) ∧
    (k < images.length → BatchUploader.upload (reports k) = none) ∧
      st.started = images.take (k + 1)
  completed : (∃ urls, st.completed = [urls]) ↔
    ∀ i < images.length, BatchUploader.upload (reports i) ≠ none
  nothing : st.completed = [] ∨ ∃ urls, st.completed = [urls] ∧ Yields reports images.length urls

/-! ### The recursion -/

/-- A batch after `n` reports. -/
inductive Uploads (images : List α) (reports : Nat → UploadReport) :
    Nat → UploadRun α → List Nat → Prop
  | uploading (k : Nat) (urls : List URL) (hk : k < images.length) (hurls : Yields reports k urls) :
      Uploads images reports k ⟨images.take (k + 1), urls, []⟩ [k]
  | failed (k : Nat) (urls : List URL) (hk : k < images.length) (hurls : Yields reports k urls)
      (hfailed : BatchUploader.upload (reports k) = none) :
      Uploads images reports (k + 1) ⟨images.take (k + 1), urls, []⟩ []
  | completed (urls : List URL) (hurls : Yields reports images.length urls) :
      Uploads images reports images.length ⟨images, urls, [urls]⟩ []

variable {images : List α} {reports : Nat → UploadReport} {k n : Nat} {urls : List URL}

theorem yields_zero (reports : Nat → UploadReport) : Yields reports 0 [] :=
  ⟨rfl, fun _ hi => absurd hi (Nat.not_lt_zero _)⟩

theorem Yields.ne_none (h : Yields reports k urls) {i : Nat} (hi : i < k) :
    BatchUploader.upload (reports i) ≠ none := by
  rw [h.2 i hi, ne_eq, List.getElem?_eq_none_iff]
  have hlength := h.1
  omega

theorem Yields.concat (h : Yields reports k urls) {url : URL}
    (hurl : BatchUploader.upload (reports k) = some url) :
    Yields reports (k + 1) (urls ++ [url]) := by
  obtain ⟨hlength, hget⟩ := h
  refine ⟨by rw [List.length_append, hlength, List.length_singleton], ?_⟩
  intro i hi
  by_cases hik : i = k
  · subst hik
    rw [hurl, ← hlength, List.getElem?_concat_length]
  · rw [List.getElem?_append_left (by omega)]
    exact hget i (by omega)

/-- The upload at `k` is started, or the batch is complete. -/
theorem uploads_helper (hk : k ≤ images.length) (hurls : Yields reports k urls) :
    Uploads images reports k (addImageHelper images k ⟨images.take k, urls, []⟩).1
      (addImageHelper images k ⟨images.take k, urls, []⟩).2 := by
  unfold addImageHelper
  split
  · rename_i hlt
    show Uploads images reports k ⟨images.take k ++ [images[k]], urls, []⟩ [k]
    rw [← List.take_succ_eq_append_getElem hlt]
    exact .uploading k urls hlt hurls
  · rename_i hge
    obtain rfl : k = images.length := by omega
    show Uploads images reports images.length ⟨images.take images.length, urls, [urls]⟩ []
    rw [List.take_length]
    exact .completed urls hurls

/-- **A report carries the recursion on, or ends it.** -/
theorem uploads_answer {st : UploadRun α} {pre post : List Nat} {index : Nat}
    (h : Uploads images reports n st (pre ++ index :: post)) :
    Uploads images reports (n + 1)
      (answerUpload images st index (BatchUploader.upload (reports index))).1
      (pre ++ post ++
        (answerUpload images st index (BatchUploader.upload (reports index))).2) := by
  generalize hpending : pre ++ index :: post = pending at h
  cases h with
  | uploading k urls hk hurls =>
    obtain ⟨rfl, rfl, rfl⟩ := Service.eq_of_pending_singleton hpending
    cases hreport : BatchUploader.upload (reports index) with
    | none => exact .failed index urls hk hurls hreport
    | some url => exact uploads_helper hk (hurls.concat hreport)
  | failed k urls hk hurls hfailed => exact absurd hpending (by simp)
  | completed urls hurls => exact absurd hpending (by simp)

variable {user : String} {es : List (Event Empty Unit)} {d : Config (UploadRun α) Nat}

theorem uploads_run
    (h : (uploading images reports).machine.run (addImages (some user) images) es = some d) :
    Uploads images reports es.length d.core d.pending := by
  have hstart : Uploads images reports ([] : List (Event Empty Unit)).length
      (addImages (some user) images).core (addImages (some user) images).pending :=
    uploads_helper (Nat.zero_le _) (yields_zero reports)
  refine @Machine.run_trace_inv _ _ (uploading images reports).machine
    (fun c h => Uploads images reports h.length c.core c.pending) ?_ _ _ [] es hstart h
  rintro ⟨st, pending⟩ past e c' hc hstep
  rcases Service.step_cases hstep with ⟨x, -⟩ |
    ⟨pre, index, post, r, st', new, rfl, hpending, hanswer, rfl⟩
  · exact x.elim
  · obtain ⟨rfl, rfl⟩ := Prod.mk.inj (Option.some.inj hanswer)
    obtain rfl : pending = pre ++ index :: post := hpending
    rw [List.length_append, List.length_singleton]
    exact uploads_answer hc

theorem Uploads.length_le {st : UploadRun α} {pending : List Nat}
    (h : Uploads images reports n st pending) : n ≤ images.length := by
  cases h with
  | uploading k urls hk hurls => exact Nat.le_of_lt hk
  | failed k urls hk hurls hfailed => exact hk
  | completed urls hurls => exact Nat.le_refl _

theorem Uploads.completed_le {st : UploadRun α} {pending : List Nat}
    (h : Uploads images reports n st pending) : st.completed.length ≤ 1 := by
  cases h with
  | uploading k urls hk hurls => exact Nat.zero_le _
  | failed k urls hk hurls hfailed => exact Nat.zero_le _
  | completed urls hurls => exact Nat.le_refl _

theorem Uploads.allOrNothing {st : UploadRun α} (h : Uploads images reports n st []) :
    AllOrNothing images reports st := by
  generalize hpending : ([] : List Nat) = pending at h
  cases h with
  | uploading k urls hk hurls => exact absurd hpending (by simp)
  | failed k urls hk hurls hfailed =>
    refine ⟨⟨k, Nat.le_of_lt hk, fun i hi => hurls.ne_none hi, fun _ => hfailed, rfl⟩, ?_,
      Or.inl rfl⟩
    constructor
    · rintro ⟨urls', hcompleted⟩
      exact absurd hcompleted.symm (List.cons_ne_nil _ _)
    · intro hall
      exact absurd hfailed (hall k hk)
  | completed urls hurls =>
    refine ⟨⟨images.length, Nat.le_refl _, fun i hi => hurls.ne_none hi,
      fun hlt => absurd hlt (Nat.lt_irrefl _), ?_⟩, ?_, Or.inr ⟨urls, rfl, hurls⟩⟩
    · rw [List.take_of_length_le (Nat.le_succ _)]
    · exact iff_of_true ⟨urls, rfl⟩ fun i hi => hurls.ne_none hi

/-- **A batch is answered at most once for each image; its completion is called at most
once, and as `AllOrNothing` says when no upload is outstanding.** -/
theorem uploading_run
    (h : (uploading images reports).machine.run (addImages (some user) images) es = some d) :
    es.length ≤ images.length ∧ d.core.completed.length ≤ 1 ∧
      (d.pending = [] → AllOrNothing images reports d.core) := by
  have huploads := uploads_run h
  refine ⟨huploads.length_le, huploads.completed_le, ?_⟩
  intro hquiet
  rw [hquiet] at huploads
  exact huploads.allOrNothing

end Subtle.Storage
