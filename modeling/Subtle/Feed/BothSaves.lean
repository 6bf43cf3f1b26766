import Subtle.Feed.Pictures
import Subtle.Feed.Sessions

/-!
# The changes of two edit sessions

A save writes the text fields that were changed, but on either of its branches the
whole list of pictures.

* `DisjointChanges`: the two forms change no field in common.
* `Contained`: a document has the changes of a form.
* `both_contained_iff`: **the post has the changes of both sessions exactly when a session
  that changes the pictures is the one that commits last**.
-/

namespace Subtle.Feed

open Subtle.Firestore Subtle.Lib Subtle.Storage

/-! ### The changes of an edit form -/

/-- The fields of the edit form, the pictures apart. -/
def textFields : List String := ["name", "birthday", "university", "location", "text", "tags"]

namespace PostVM

/-- The form has another value for the field than the version it started from. -/
def ChangesField (post : Post) (vm : PostVM) (k : String) : Prop :=
  vm.formValues k ≠ post.encode k

/-- Images are removed or added. -/
def ChangesPictures (vm : PostVM) : Prop := vm.imagesToDelete ≠ [] ∨ vm.additionalImages ≠ []

/-- The two forms change no field in common. -/
structure DisjointChanges (post : Post) (v w : PostVM) : Prop where
  fields : ∀ k ∈ textFields, ¬ (v.ChangesField post k ∧ w.ChangesField post k)
  pictures : ¬ (v.ChangesPictures ∧ w.ChangesPictures)

instance (post : Post) (vm : PostVM) (k : String) : Decidable (vm.ChangesField post k) :=
  inferInstanceAs (Decidable (vm.formValues k ≠ post.encode k))

instance (vm : PostVM) : Decidable vm.ChangesPictures :=
  inferInstanceAs (Decidable (vm.imagesToDelete ≠ [] ∨ vm.additionalImages ≠ []))

instance (post : Post) (v w : PostVM) : Decidable (DisjointChanges post v w) :=
  decidable_of_iff
    ((∀ k ∈ textFields, ¬ (v.ChangesField post k ∧ w.ChangesField post k)) ∧
      ¬ (v.ChangesPictures ∧ w.ChangesPictures))
    ⟨fun h => ⟨h.1, h.2⟩, fun h => ⟨h.fields, h.pictures⟩⟩

/-- The document has the changes of the form, whose images were uploaded under the URLs
of `uploads`. -/
structure Contained (post : Post) (vm : PostVM) (uploads : List (UIImage × URL))
    (document : Document) : Prop where
  fields : ∀ k ∈ textFields, vm.ChangesField post k → document k = vm.formValues k
  removed : ∀ url ∈ vm.imagesToDelete, url ∉ pictures document
  added : uploads.map Prod.fst = vm.additionalImages ∧
    ∀ upload ∈ uploads, upload.2 ∈ pictures document

end PostVM

/-! ### The stored post after both saves -/

variable {post : Post} {id : String} {document : Document} {s : App} {log : EditLog} {i j : Nat}

namespace PostVM

variable {v w vm : PostVM} {uploads uploads' : List (UIImage × URL)} {k : String}

theorem ne_pictures (hk : k ∈ textFields) : k ≠ "pictures" := by
  rintro rfl
  exact absurd hk (by decide)

theorem formValues_ne_none (hk : k ∈ textFields) : vm.formValues k ≠ none := by
  simp only [textFields, List.mem_cons, List.not_mem_nil, or_false] at hk
  rcases hk with rfl | rfl | rfl | rfl | rfl | rfl <;> exact Option.some_ne_none _

theorem updateData_of_changes (hshown : vm.post = post) (hk : k ∈ textFields)
    (h : vm.ChangesField post k) : vm.updateData uploads k = vm.formValues k := by
  rw [updateData, withPictures_of_ne (ne_pictures hk), editParams_apply, hshown, if_neg h]

theorem updateData_of_not_changes (hshown : vm.post = post) (hk : k ∈ textFields)
    (h : ¬ vm.ChangesField post k) : vm.updateData uploads k = none := by
  rw [updateData, withPictures_of_ne (ne_pictures hk), editParams_apply, hshown,
    if_pos (not_not.mp h)]

theorem pictures_overwrite (r : Document) :
    pictures (r.overwrite (vm.updateData uploads)) = vm.editImages ++ uploads.map Prod.snd :=
  pictures_of_strings (Record.overwrite_of_some (assign_self _ _ _) r)

theorem overwrite_of_changes (hshown : vm.post = post) (hk : k ∈ textFields)
    (h : vm.ChangesField post k) (r : Document) :
    r.overwrite (vm.updateData uploads) k = vm.formValues k := by
  obtain ⟨value, hvalue⟩ := Option.ne_none_iff_exists'.mp (@formValues_ne_none vm k hk)
  rw [hvalue]
  exact Record.overwrite_of_some ((updateData_of_changes hshown hk h).trans hvalue) r

/-- **The session that commits last** has its changes in the post. -/
theorem contained_last (hedits : Edits post vm)
    (hadded : uploads.map Prod.fst = vm.additionalImages)
    (hfresh : ∀ upload ∈ uploads, upload.2 ∉ post.pictures) (r : Document) :
    vm.Contained post uploads (r.overwrite (vm.updateData uploads)) := by
  refine ⟨fun k hk h => overwrite_of_changes hedits.shown hk h r, ?_, hadded, ?_⟩
  · intro url hurl
    rw [pictures_overwrite, List.mem_append, not_or]
    refine ⟨hedits.apart url hurl, ?_⟩
    intro hmem
    obtain ⟨upload, hupload, rfl⟩ := List.mem_map.mp hmem
    exact hfresh upload hupload ((hedits.cover _).mpr (Or.inr hurl))
  · intro upload hupload
    rw [pictures_overwrite]
    exact List.mem_append_right _ (List.mem_map_of_mem hupload)

/-- The text fields that the first session changes outlast the second. -/
theorem fields_outlast (hv : v.post = post) (hw : w.post = post)
    (hdisjoint : DisjointChanges post v w) (hk : k ∈ textFields) (h : v.ChangesField post k)
    (r : Document) :
    (r.overwrite (v.updateData uploads)).overwrite (w.updateData uploads') k = v.formValues k := by
  have hnot : ¬ w.ChangesField post k := fun hw' => hdisjoint.fields k hk ⟨h, hw'⟩
  rw [Record.overwrite_of_none (updateData_of_not_changes hw hk hnot)]
  exact overwrite_of_changes hv hk h r

/-- A form that changes no picture lists the pictures of the post. -/
theorem mem_editImages_iff (hedits : Edits post vm) (h : vm.imagesToDelete = []) {url : URL} :
    url ∈ vm.editImages ↔ url ∈ post.pictures := by
  rw [hedits.cover url, h, or_iff_left List.not_mem_nil]

/-- **The session that commits first** has its changes in the post exactly when it does
not change the pictures. -/
theorem contained_first_iff (hv : Edits post v) (hw : Edits post w)
    (haddedv : uploads.map Prod.fst = v.additionalImages)
    (haddedw : uploads'.map Prod.fst = w.additionalImages)
    (hfresh : ∀ upload ∈ uploads, upload.2 ∉ post.pictures)
    (hdisjoint : DisjointChanges post v w) (r : Document) :
    v.Contained post uploads
        ((r.overwrite (v.updateData uploads)).overwrite (w.updateData uploads')) ↔
      ¬ v.ChangesPictures := by
  constructor
  · intro hcontained hchanges
    have hsame : ¬ w.ChangesPictures := fun h => hdisjoint.pictures ⟨hchanges, h⟩
    rw [ChangesPictures, not_or, not_not, not_not] at hsame
    obtain ⟨hdelete, hadd⟩ := hsame
    have huploads : uploads' = [] := List.map_eq_nil_iff.mp (haddedw.trans hadd)
    -- the second session lists the pictures that both started from
    have hlisted : ∀ {url}, url ∈ pictures
        ((r.overwrite (v.updateData uploads)).overwrite (w.updateData uploads')) ↔
          url ∈ post.pictures := by
      intro url
      rw [pictures_overwrite, huploads, List.map_nil, List.append_nil,
        mem_editImages_iff hw hdelete]
    rcases hchanges with hremoved | hadded
    · obtain ⟨url, hurl⟩ := List.exists_mem_of_ne_nil _ hremoved
      exact hcontained.removed url hurl (hlisted.mpr ((hv.cover url).mpr (Or.inr hurl)))
    · have hne : uploads ≠ [] := by
        rintro rfl
        exact hadded haddedv.symm
      obtain ⟨upload, hupload⟩ := List.exists_mem_of_ne_nil _ hne
      exact hfresh upload hupload (hlisted.mp (hcontained.added.2 upload hupload))
  · intro hsame
    rw [ChangesPictures, not_or, not_not, not_not] at hsame
    obtain ⟨hdelete, hadd⟩ := hsame
    have huploads : uploads = [] := List.map_eq_nil_iff.mp (haddedv.trans hadd)
    refine ⟨fun k hk h => fields_outlast hv.shown hw.shown hdisjoint hk h r, ?_, haddedv, ?_⟩
    · intro url hurl
      rw [hdelete] at hurl
      exact absurd hurl List.not_mem_nil
    · intro upload hupload
      rw [huploads] at hupload
      exact absurd hupload List.not_mem_nil

theorem DisjointChanges.symm (h : DisjointChanges post v w) : DisjointChanges post w v :=
  ⟨fun k hk hwv => h.fields k hk hwv.symm, fun hwv => h.pictures hwv.symm⟩

end PostVM

/-- The post has the changes of both sessions exactly when the one that committed first
does not change the pictures. -/
theorem TwoSessions.both_contained {v w : PostVM} (h : TwoSessions post id document (s, log) [])
    (hi : i < 2) (hj : j < 2) (hv : log.saved i = some v) (hw : log.saved j = some w)
    (horder : log.committed =
      [(i, v.updateData (log.uploads i)), (j, w.updateData (log.uploads j))])
    (hdisjoint : PostVM.DisjointChanges post v w) :
    (∃ document', s.posts id = some document' ∧ v.Contained post (log.uploads i) document' ∧
      w.Contained post (log.uploads j) document') ↔ ¬ v.ChangesPictures := by
  obtain ⟨heditsv, -, haddedv⟩ := h.saved_of_rest hi hv
  obtain ⟨heditsw, -, haddedw⟩ := h.saved_of_rest hj hw
  have hstored : s.posts id = some ((document.overwrite (v.updateData (log.uploads i))).overwrite
      (w.updateData (log.uploads j))) := by
    have hall := h.stored
    rw [horder] at hall
    exact hall
  have hfirst := PostVM.contained_first_iff heditsv heditsw haddedv haddedw (h.fresh i) hdisjoint
    document
  constructor
  · rintro ⟨document', hdoc', hcontained, -⟩
    obtain rfl := Option.some.inj (hstored.symm.trans hdoc')
    exact hfirst.mp hcontained
  · intro hsame
    exact ⟨_, hstored, hfirst.mpr hsame, PostVM.contained_last heditsw haddedw (h.fresh j) _⟩

/-- **After both saves the post has the changes of both sessions exactly when a session
that changes the pictures is the one that committed last.** -/
theorem both_contained_iff {posts : String → Option Document} {objects : Finset URL}
    {es : List (Event Call Reply)} {c : Config (App × EditLog) Op} {v w : PostVM}
    (hdoc : posts id = some document) (hdecode : Post.decode id document = some post)
    (hrun : sessions.machine.run (sessions.start posts objects post) es = some c)
    (hrest : c.pending = []) (hv : c.core.2.saved 0 = some v) (hw : c.core.2.saved 1 = some w)
    (hdisjoint : PostVM.DisjointChanges post v w) :
    (∃ document', c.core.1.posts id = some document' ∧
        v.Contained post (c.core.2.uploads 0) document' ∧
          w.Contained post (c.core.2.uploads 1) document') ↔
      (v.ChangesPictures → c.core.2.last = some 0) ∧
        (w.ChangesPictures → c.core.2.last = some 1) := by
  have h := twoSessions_run hdoc (id_of_decode hdecode) hrun
  obtain ⟨⟨s, log⟩, pending⟩ := c
  obtain rfl := hrest
  obtain ⟨-, hcommitv, -⟩ := h.saved_of_rest (by omega) hv
  obtain ⟨-, hcommitw, -⟩ := h.saved_of_rest (by omega) hw
  rcases log.committed_cases h.writers hcommitv hcommitw with horder | horder
  · rw [h.both_contained (by omega) (by omega) hv hw horder hdisjoint]
    simp [EditLog.last, horder]
  · have hswap := h.both_contained (by omega) (by omega) hw hv horder hdisjoint.symm
    simp only [and_comm (a := w.Contained _ _ _)] at hswap
    rw [hswap]
    simp [EditLog.last, horder]

/-- Ann's form without the first picture. -/
def withoutPicture : PostVM :=
  ((PostVM.init (some "ann") annsPost).toggle "a").deleteImages ["b"] ["a"]

/-- Ann's form with another name. -/
def withName : PostVM :=
  (PostVM.init (some "ann") annsPost).fill ⟨"Betty", 0, "Duke University", "Durham", "Tall", []⟩

/-- Both forms are saved, and then the backend answers. -/
def bothSaves (answers : List (Event Call Reply)) : List (Event Call Reply) :=
  [.call (.toggle 0 "a"), .call (.deleteImages 0 ["b"] ["a"]),
    .call (.fill 1 ⟨"Betty", 0, "Duke University", "Durham", "Tall", []⟩), .call (.save 0),
    .call (.save 1)] ++ answers

/-- What a run comes to: the number of outstanding operations, the two forms as they were
saved, the session that committed last and the pictures of the stored post. -/
structure Outcome where
  outstanding : Nat
  first : Option PostVM
  second : Option PostVM
  last : Option Nat
  pictures : Option (List URL)
  deriving DecidableEq

def Outcome.of (c : Config (App × EditLog) Op) : Outcome :=
  ⟨c.pending.length, c.core.2.saved 0, c.core.2.saved 1, c.core.2.last,
    (c.core.1.posts "p").map Feed.pictures⟩

theorem both_contained_iff_example : ∃ c, sessions.machine.run
      (sessions.start annsStore.posts {"a", "b"} annsPost)
      (bothSaves (.answer 2 .ok :: List.replicate 6 (.answer 0 .ok))) = some c ∧
    ∃ document', c.core.1.posts "p" = some document' ∧
      withoutPicture.Contained annsPost (c.core.2.uploads 0) document' ∧
        withName.Contained annsPost (c.core.2.uploads 1) document' := by
  have hrun : (sessions.machine.run (sessions.start annsStore.posts {"a", "b"} annsPost)
      (bothSaves (.answer 2 .ok :: List.replicate 6 (.answer 0 .ok)))).map Outcome.of =
        some ⟨0, some withoutPicture, some withName, some 0, some ["b"]⟩ := by
    decide +kernel
  obtain ⟨c, hc, houtcome⟩ := Option.map_eq_some_iff.mp hrun
  simp only [Outcome.of, Outcome.mk.injEq] at houtcome
  obtain ⟨hpending, hv, hw, hlast, -⟩ := houtcome
  refine ⟨c, hc, (both_contained_iff rfl (decode_encode "p" annsPost) hc
    (List.length_eq_zero_iff.mp hpending) hv hw (by decide +kernel)).mpr ⟨fun _ => hlast, ?_⟩⟩
  intro hchanges
  exact absurd hchanges (by decide +kernel)

/-- The removed picture is back after the session that renames commits last. -/
theorem edit_lost : ¬ ∀ (posts : String → Option Document) (objects : Finset URL) (id : String)
    (document : Document) (post : Post) (es : List (Event Call Reply))
    (c : Config (App × EditLog) Op) (v w : PostVM), posts id = some document →
      Post.decode id document = some post →
        sessions.machine.run (sessions.start posts objects post) es = some c → c.pending = [] →
          c.core.2.saved 0 = some v → c.core.2.saved 1 = some w →
            PostVM.DisjointChanges post v w →
              ∃ document', c.core.1.posts id = some document' ∧
                v.Contained post (c.core.2.uploads 0) document' ∧
                  w.Contained post (c.core.2.uploads 1) document' := by
  intro h
  have hrun : (sessions.machine.run (sessions.start annsStore.posts {"a", "b"} annsPost)
      (bothSaves (List.replicate 7 (.answer 0 .ok)))).map Outcome.of =
        some ⟨0, some withoutPicture, some withName, some 1, some ["a", "b"]⟩ := by
    decide +kernel
  obtain ⟨c, hc, houtcome⟩ := Option.map_eq_some_iff.mp hrun
  simp only [Outcome.of, Outcome.mk.injEq] at houtcome
  obtain ⟨hpending, hv, hw, -, hpictures⟩ := houtcome
  obtain ⟨document', hdoc, hcontained, -⟩ := h _ _ "p" _ annsPost _ c _ _ rfl
    (decode_encode "p" annsPost) hc (List.length_eq_zero_iff.mp hpending) hv hw (by decide +kernel)
  rw [hdoc, Option.map_some, Option.some.injEq] at hpictures
  refine hcontained.removed "a" (by decide) ?_
  rw [hpictures]
  exact List.mem_cons_self

end Subtle.Feed
