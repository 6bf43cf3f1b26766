import Subtle.Index.Triggers

/-!
# Triggers delivered out of order

The platform invokes the trigger of every write at least once and in no fixed
order, and the triggers carry no version of the document.  What the index holds in
the end depends on the last deliveries only:

* `replay_updates`: updates after a creation overwrite, last writer wins.
* `deliver_converges`: **the record is that of the write order when the last
  deliveries are in write order since the creation of the document, or, if it was
  deleted last, when no creation is delivered after the deletions**.
-/

namespace Subtle.Index

open Subtle.Firestore Subtle.Lib

namespace Change

def isCreate : Change → Bool
  | create _ => true
  | _ => false

def isUpdate : Change → Bool
  | update _ => true
  | _ => false

end Change

/-- The writes on one document. -/
def history : Machine (Option Document) Change := ⟨fun post change => change.commit post⟩

/-- The triggers of the changes `h` of a document, invoked as `D` says. -/
def deliver (getTime : Option Value → Value) (id : String) (h : List Change)
    (D : List (Fin h.length)) (ix : AlgoliaIndex) : AlgoliaIndex :=
  D.foldl (fun ix i => (h.get i).handle getTime id ix) ix

/-- The last deliveries settle the record: since the creation that the document still
has, they come last and in write order; of a deleted document, no creation comes
after the last deletion. -/
structure Settles (h : List Change) (D : List (Fin h.length)) : Prop where
  live : ∀ c, (h.get c).isCreate → (∀ j, c < j → (h.get j).isUpdate) →
    (List.finRange h.length).drop c <:+ D.dedup
  gone : h.getLast? = some .delete → ∃ before after, D.map h.get = before ++ .delete :: after ∧
    ∀ change ∈ after, change.isUpdate

variable {getTime : Option Value → Value} {id : String}

/-! ### The record of the document -/

/-- What a list of changes does to the record of its post. -/
def replay (getTime : Option Value → Value) (id : String) (changes : List Change)
    (record : Option Document) : Option Document :=
  changes.foldl (fun record change => change.next getTime id record) record

theorem replay_append (as bs : List Change) (record : Option Document) :
    replay getTime id (as ++ bs) record = replay getTime id bs (replay getTime id as record) :=
  List.foldl_append

theorem deliver_apply (h : List Change) (D : List (Fin h.length)) (ix : AlgoliaIndex) :
    deliver getTime id h D ix id = replay getTime id (D.map h.get) (ix id) := by
  induction D generalizing ix with
  | nil => rfl
  | cons i D ih =>
    have hhead : (h.get i).handle getTime id ix id = (h.get i).next getTime id (ix id) :=
      (handle_apply id id (h.get i) ix).trans (if_pos rfl)
    show deliver getTime id h D ((h.get i).handle getTime id ix) id = _
    rw [ih, hhead]
    rfl

/-- The object that an update merges. -/
def Change.object (getTime : Option Value → Value) (id : String) : Change → Document
  | update post => modifiedObject getTime id post
  | _ => fun _ => none

/-- **Updates after a creation overwrite**, last writer wins. -/
theorem replay_updates {changes : List Change} (hall : ∀ change ∈ changes, change.isUpdate)
    (record : Option Document) : replay getTime id changes record =
      record.map (·.overwriteAll (changes.map (Change.object getTime id))) := by
  induction changes generalizing record with
  | nil => cases record <;> rfl
  | cons change changes ih =>
    obtain ⟨hhead, htail⟩ := List.forall_mem_cons.mp hall
    cases change with
    | update post =>
      show replay getTime id changes _ = _
      rw [ih htail]
      cases record <;> rfl
    | create post => exact absurd hhead Bool.false_ne_true
    | delete => exact absurd hhead Bool.false_ne_true

/-! ### How a history ends -/

/-- A document there is has been created and then updated only; one there is not has
been deleted, if it ever was. -/
def Ends (post : Option Document) (h : List Change) : Prop :=
  (post = none ∧ (h = [] ∨ h.getLast? = some .delete)) ∨
    ∃ before first later, post.isSome ∧ h = before ++ .create first :: later ∧
      ∀ change ∈ later, change.isUpdate

theorem ends_step {post post' : Option Document} {h : List Change} {change : Change}
    (hends : Ends post h) (hstep : history.step post change = some post') :
    Ends post' (h ++ [change]) := by
  cases change with
  | create data =>
    cases post with
    | some old => exact absurd hstep (by simp [history, Change.commit])
    | none =>
      obtain rfl := Option.some.inj hstep
      exact Or.inr ⟨h, data, [], rfl, rfl, by simp⟩
  | update data =>
    cases post with
    | none => exact absurd hstep (by simp [history, Change.commit])
    | some old =>
      obtain rfl := Option.some.inj hstep
      rcases hends with ⟨hnone, -⟩ | ⟨before, first, later, -, rfl, hlater⟩
      · exact absurd hnone (Option.some_ne_none old)
      · refine Or.inr ⟨before, first, later ++ [.update data], rfl, by simp, ?_⟩
        intro change hmem
        rcases List.mem_append.mp hmem with hmem | hmem
        · exact hlater change hmem
        · obtain rfl := List.mem_singleton.mp hmem
          rfl
  | delete =>
    cases post with
    | none => exact absurd hstep (by simp [history, Change.commit])
    | some old =>
      obtain rfl := Option.some.inj hstep
      exact Or.inl ⟨rfl, Or.inr List.getLast?_concat⟩

theorem ends_run {h : List Change} {post : Option Document}
    (hrun : history.run none h = some post) : Ends post h :=
  Machine.run_trace_inv (I := Ends) (fun _ _ _ _ => ends_step) (Or.inl ⟨rfl, Or.inl rfl⟩) hrun

/-! ### Last deliveries -/

/-- What stands at the end of the last occurrences stands there after the last
occurrence of its first element. -/
theorem exists_split_of_suffix_dedup {ι : Type*} [DecidableEq ι] {x : ι} {ys D : List ι}
    (h : x :: ys <:+ D.dedup) : ∃ A B, D = A ++ x :: B ∧ B.dedup = ys := by
  induction D with
  | nil => exact absurd (List.suffix_nil.mp h) (List.cons_ne_nil _ _)
  | cons d D ih =>
    by_cases hd : d ∈ D
    · rw [List.dedup_cons_of_mem hd] at h
      obtain ⟨A, B, rfl, hB⟩ := ih h
      exact ⟨d :: A, B, rfl, hB⟩
    · rw [List.dedup_cons_of_notMem hd] at h
      rcases List.suffix_cons_iff.mp h with heq | hsuf
      · obtain ⟨rfl, rfl⟩ := List.cons.inj heq
        exact ⟨[], D, rfl, rfl⟩
      · obtain ⟨A, B, rfl, hB⟩ := ih hsuf
        exact ⟨d :: A, B, rfl, hB⟩

/-- The deliveries after the last one of the creation leave the record of the updates
in write order. -/
theorem replay_of_suffix {h before later : List Change} {first : Document}
    (hh : h = before ++ .create first :: later) (hlater : ∀ change ∈ later, change.isUpdate)
    {D : List (Fin h.length)} (hD : (List.finRange h.length).drop before.length <:+ D.dedup)
    (record : Option Document) :
    replay getTime id (D.map h.get) record = replay getTime id (.create first :: later) none := by
  have hlen : before.length < h.length := by
    rw [hh, List.length_append, List.length_cons]
    omega
  have hdrop : (List.finRange h.length).drop before.length =
      ⟨before.length, hlen⟩ :: (List.finRange h.length).drop (before.length + 1) := by
    rw [List.drop_eq_getElem_cons (by simpa using hlen)]
    simp
  have hget : ((List.finRange h.length).drop (before.length + 1)).map h.get = later := by
    rw [List.map_drop, List.map_get_finRange, hh, List.drop_append]
    simp
  rw [hdrop] at hD
  obtain ⟨A, B, rfl, hB⟩ := exists_split_of_suffix_dedup hD
  have hcreate : h.get ⟨before.length, hlen⟩ = .create first := by
    simp [hh]
  have hupdates : ∀ change ∈ B.map h.get, change.isUpdate := by
    intro change hmem
    obtain ⟨i, hi, rfl⟩ := List.mem_map.mp hmem
    refine hlater _ ?_
    rw [← hget, ← hB]
    exact List.mem_map_of_mem (List.mem_dedup.mpr hi)
  have hmerge : ∀ r : Document, r.overwriteAll ((B.map h.get).map (Change.object getTime id)) =
      r.overwriteAll (later.map (Change.object getTime id)) := by
    intro r
    rw [List.map_map, ← Record.overwriteAll_dedup, hB, ← List.map_map, hget]
  rw [List.map_append, List.map_cons, replay_append, hcreate]
  show replay getTime id (B.map h.get) (some (createdObject getTime id first)) =
    replay getTime id later (some (createdObject getTime id first))
  rw [replay_updates hupdates, replay_updates hlater, Option.map_some, Option.map_some, hmerge]

/-- **The record is that of the write order** when the last deliveries settle it. -/
theorem deliver_converges {h : List Change} {post : Option Document} {D : List (Fin h.length)}
    (hrun : history.run none h = some post) (hD : Settles h D) :
    deliver getTime id h D (fun _ => none) id =
      deliver getTime id h (List.finRange h.length) (fun _ => none) id := by
  rw [deliver_apply, deliver_apply, List.map_get_finRange]
  rcases ends_run hrun with ⟨-, hend⟩ | ⟨before, first, later, -, hh, hlater⟩
  · rcases hend with rfl | hdelete
    · obtain rfl : D = [] := List.eq_nil_iff_forall_not_mem.mpr fun i => i.elim0
      rfl
    · obtain ⟨before, after, hsplit, hafter⟩ := hD.gone hdelete
      obtain ⟨init, hinit⟩ := List.getLast?_eq_some_iff.mp hdelete
      rw [hsplit, replay_append, hinit, replay_append]
      show replay getTime id after none = none
      rw [replay_updates hafter]
      rfl
  · have hlen : before.length < h.length := by
      rw [hh, List.length_append, List.length_cons]
      omega
    have hsuf : (List.finRange h.length).drop before.length <:+ D.dedup := by
      refine hD.live ⟨before.length, hlen⟩ (by simp [hh, Change.isCreate]) ?_
      intro j hj
      refine hlater _ ?_
      have hj' : before.length < j.val := hj
      subst hh
      rw [List.get_eq_getElem, List.getElem_append_right (Nat.le_of_lt hj')]
      have := j.isLt
      simp [List.getElem_cons, Nat.sub_ne_zero_of_lt hj']
    rw [replay_of_suffix hh hlater hsuf]
    conv_rhs => rw [hh, replay_append]
    rfl

/-- A second delivery of the creation, before the update is delivered, does no
harm. -/
theorem deliver_converges_example :
    deliver (fun _ => .null) "p" [.create fun _ => none, .update fun _ => none] [1, 0, 0, 1]
        (fun _ => none) "p" =
      deliver (fun _ => .null) "p" [.create fun _ => none, .update fun _ => none]
        (List.finRange 2) (fun _ => none) "p" := by
  refine deliver_converges (h := [.create fun _ => none, .update fun _ => none]) rfl ⟨?_, ?_⟩
  · intro c hc _
    match c, hc with
    | 0, _ => decide
    | 1, hc => exact absurd hc Bool.false_ne_true
  · intro hlast
    exact absurd hlast (by simp)

/-- A creation delivered after the deletion brings the record back. -/
theorem deliver_resurrects :
    ¬ ∀ (getTime : Option Value → Value) (id : String) (h : List Change)
        (post : Option Document) (D : List (Fin h.length)),
      history.run none h = some post → (∀ i, i ∈ D) →
        deliver getTime id h D (fun _ => none) id =
          deliver getTime id h (List.finRange h.length) (fun _ => none) id := by
  intro hall
  have heq := hall (fun _ => .null) "p" [.create fun _ => none, .delete] none [1, 0] rfl
    (by decide)
  exact absurd (congrArg Option.isSome heq) (by decide)

end Subtle.Index
