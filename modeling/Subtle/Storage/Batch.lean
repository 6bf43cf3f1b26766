import Subtle.Lib.Machine
import Mathlib.Algebra.BigOperators.Group.List.Basic
import Mathlib.Tactic.Ring

/-!
# Deleting a batch of images

`StorageService.deleteImages` deletes the images of a list one after the other.
The backend is asynchronous, so the loop is a recursion through the handler of
each deletion: `deleteImageHelper` issues the deletion at an index, and what
`BatchUploader.delete` passes to its completion resumes the recursion at the next
index.

When a deletion fails, `BatchUploader.delete` calls its completion with `false` and
then, for want of a `return`, with `true`.  From there on the rest of the list is
deleted twice.

* `threads_run`: deletions outstanding and completions made together are one more
  than the failures so far.
* `answers_le`: every run comes to an end.
* `deleteImages_once_iff`: **the batch is deleted once per URL exactly when no
  deletion of the run fails**.
-/

namespace Subtle.Storage

open Subtle.Lib

abbrev URL := String

/-- One call of `deleteImages`: the deletions issued, the `successes` collected, the
lists its completion was called with, and the outcomes by position in the list. -/
structure DeleteRun where
  issued : List URL
  successes : List Bool
  completed : List (List Bool)
  answered : List (Nat × Bool)
  deriving DecidableEq

/-- Issue the deletion at `index`, or call `finalCompletion` after the last. -/
def deleteImageHelper (urls : List URL) (index : Nat) (st : DeleteRun) : DeleteRun × List Nat :=
  if h : index < urls.length then ({ st with issued := st.issued ++ [urls[index]] }, [index])
  else ({ st with completed := st.completed ++ [st.successes] }, [])

/-- What the completion of the deletion at `index` does. -/
def resume (urls : List URL) (index : Nat) (success : Bool) (st : DeleteRun) :
    DeleteRun × List Nat :=
  deleteImageHelper urls (index + 1) { st with successes := st.successes ++ [success] }

/-- What `BatchUploader.delete` passes to its completion, in order. -/
def BatchUploader.delete (ok : Bool) : List Bool :=
  -- the branch of the error does not return
  (if ok then [] else [false]) ++ [true]

/-- The completion called with each of the values. -/
def resumeAll (urls : List URL) (index : Nat) : List Bool → DeleteRun → DeleteRun × List Nat
  | [], st => (st, [])
  | success :: rest, st =>
      let p := resume urls index success st
      let q := resumeAll urls index rest p.1
      (q.1, p.2 ++ q.2)

/-- The backend answers the deletion at `index`. -/
def answerDelete (urls : List URL) (st : DeleteRun) (index : Nat) (ok : Bool) :
    DeleteRun × List Nat :=
  resumeAll urls index (BatchUploader.delete ok)
    { st with answered := st.answered ++ [(index, ok)] }

/-- The outstanding deletions are answered in any order. -/
def deletion (urls : List URL) : Service DeleteRun Empty Nat Bool where
  call _ x := x.elim
  answer st index ok := some (answerDelete urls st index ok)

/-- `deleteImages` itself: nothing happens when no user is signed in. -/
def deleteImages (currentUser : Option String) (urls : List URL) : Config DeleteRun Nat :=
  match currentUser with
  | none => ⟨⟨[], [], [], []⟩, []⟩
  | some _ =>
      let p := deleteImageHelper urls 0 ⟨[], [], [], []⟩
      ⟨p.1, p.2⟩

/-- The outcome of an event. -/
def outcome : Event Empty Bool → Bool
  | .answer _ ok => ok
  | .call x => x.elim

/-- The deletions are issued once for each position, in order, and the completion is
called once, with the outcomes. -/
def OncePerURL (urls : List URL) (c : Config DeleteRun Nat) : Prop :=
  c.core.issued = urls ∧ ∃ successes, c.core.completed = [successes] ∧
    successes.length = urls.length ∧
      ∀ i, successes[i]? = some true ↔ (i, true) ∈ c.core.answered

variable {urls : List URL}

/-! ### One answer -/

theorem deleteImageHelper_answered (index : Nat) (st : DeleteRun) :
    (deleteImageHelper urls index st).1.answered = st.answered := by
  unfold deleteImageHelper
  split <;> rfl

theorem resumeAll_answered (index : Nat) (bs : List Bool) (st : DeleteRun) :
    (resumeAll urls index bs st).1.answered = st.answered := by
  induction bs generalizing st with
  | nil => rfl
  | cons b bs ih => rw [resumeAll, ih, resume, deleteImageHelper_answered]

theorem answerDelete_answered (st : DeleteRun) (index : Nat) (ok : Bool) :
    (answerDelete urls st index ok).1.answered = st.answered ++ [(index, ok)] :=
  resumeAll_answered index _ _

/-- A step of the recursion leaves one more deletion outstanding or one more
completion made. -/
theorem threads_helper (index : Nat) (st : DeleteRun) :
    (deleteImageHelper urls index st).2.length +
      (deleteImageHelper urls index st).1.completed.length = st.completed.length + 1 := by
  unfold deleteImageHelper
  split
  · simp; omega
  · simp

theorem threads_resumeAll (index : Nat) (bs : List Bool) (st : DeleteRun) :
    (resumeAll urls index bs st).2.length + (resumeAll urls index bs st).1.completed.length =
      st.completed.length + bs.length := by
  induction bs generalizing st with
  | nil => simp [resumeAll]
  | cons b bs ih =>
    have hone := @threads_helper urls (index + 1) { st with successes := st.successes ++ [b] }
    have hrest := ih (resume urls index b st).1
    rw [resume] at hrest
    simp only [resumeAll, resume, List.length_append, List.length_cons]
    simp only at hone
    omega

/-- Deletions outstanding and completions made, against the failures so far. -/
def Threads (st : DeleteRun) (pending : List Nat) : Prop :=
  pending.length + st.completed.length = 1 + st.answered.countP fun a => !a.2

theorem threads_answer {st : DeleteRun} {pre post : List Nat} {index : Nat} {ok : Bool}
    (h : Threads st (pre ++ index :: post)) :
    Threads (answerDelete urls st index ok).1
      (pre ++ post ++ (answerDelete urls st index ok).2) := by
  have hall := @threads_resumeAll urls index (BatchUploader.delete ok)
    { st with answered := st.answered ++ [(index, ok)] }
  unfold Threads at h ⊢
  rw [answerDelete_answered, List.countP_append]
  simp only [answerDelete, List.length_append, List.length_cons] at h hall ⊢
  cases ok with
  | true =>
    have hlen : (BatchUploader.delete true).length = 1 := rfl
    simp only [List.countP_singleton, Bool.not_true, Bool.false_eq_true, if_false]
    omega
  | false =>
    have hlen : (BatchUploader.delete false).length = 2 := rfl
    simp only [List.countP_singleton, Bool.not_false, if_true]
    omega

/-! ### Every run comes to an end -/

/-- Indices are issued within the list. -/
theorem lt_of_mem_resumeAll {index i : Nat} {bs : List Bool} {st : DeleteRun}
    (h : i ∈ (resumeAll urls index bs st).2) : i = index + 1 ∧ i < urls.length := by
  induction bs generalizing st with
  | nil => exact absurd h List.not_mem_nil
  | cons b bs ih =>
    rcases List.mem_append.mp h with h | h
    · unfold resume deleteImageHelper at h
      split at h
      · rename_i hlt
        obtain rfl := List.mem_singleton.mp h
        exact ⟨rfl, hlt⟩
      · exact absurd h List.not_mem_nil
    · exact ih h

/-- The most answers that an outstanding deletion at `index` can still lead to. -/
def weight (urls : List URL) (index : Nat) : Nat := 2 ^ (urls.length - index) - 1

theorem weight_succ {index : Nat} (h : index < urls.length) :
    2 * weight urls (index + 1) + 1 = weight urls index := by
  unfold weight
  obtain ⟨k, hk⟩ : ∃ k, urls.length - index = k + 1 := ⟨urls.length - index - 1, by omega⟩
  rw [hk, show urls.length - (index + 1) = k by omega, pow_succ]
  have := Nat.one_le_two_pow (n := k)
  omega

theorem sum_weight_resumeAll (index : Nat) (bs : List Bool) (st : DeleteRun) :
    ((resumeAll urls index bs st).2.map (weight urls)).sum ≤
      bs.length * weight urls (index + 1) := by
  induction bs generalizing st with
  | nil => simp [resumeAll]
  | cons b bs ih =>
    have hone : ((resume urls index b st).2.map (weight urls)).sum ≤ weight urls (index + 1) := by
      unfold resume deleteImageHelper
      split <;> simp
    have hrest := ih (resume urls index b st).1
    rw [resumeAll]
    simp only [List.map_append, List.sum_append, List.length_cons, Nat.succ_mul]
    omega

/-- Outstanding deletions stand within the list, and their weights and the answers so
far stay below the weight of the first deletion. -/
def Bounded (urls : List URL) (st : DeleteRun) (pending : List Nat) : Prop :=
  (∀ i ∈ pending, i < urls.length) ∧
    (pending.map (weight urls)).sum + st.answered.length ≤ 2 ^ urls.length - 1

theorem bounded_answer {st : DeleteRun} {pre post : List Nat} {index : Nat} {ok : Bool}
    (h : Bounded urls st (pre ++ index :: post)) :
    Bounded urls (answerDelete urls st index ok).1
      (pre ++ post ++ (answerDelete urls st index ok).2) := by
  obtain ⟨hlt, hsum⟩ := h
  have hindex : index < urls.length := hlt index (by simp)
  refine ⟨?_, ?_⟩
  · intro i hi
    rcases List.mem_append.mp hi with hi | hi
    · exact hlt i (Service.mem_pending_iff.mpr (Or.inr hi))
    · exact (lt_of_mem_resumeAll hi).2
  · have hnew := @sum_weight_resumeAll urls index (BatchUploader.delete ok)
      { st with answered := st.answered ++ [(index, ok)] }
    have hlen : (BatchUploader.delete ok).length ≤ 2 := by cases ok <;> decide
    have hmul := Nat.mul_le_mul_right (weight urls (index + 1)) hlen
    have hw := weight_succ hindex
    rw [answerDelete_answered]
    simp only [answerDelete, List.map_append, List.sum_append, List.map_cons, List.sum_cons,
      List.length_append, List.length_singleton] at hsum ⊢
    omega

/-! ### Runs without a failure -/

/-- While nothing has failed, the recursion is a single loop at index `k`. -/
def SingleLoop (urls : List URL) (st : DeleteRun) (pending : List Nat) : Prop :=
  (∀ a ∈ st.answered, a.2 = true) → ∃ k,
    st.answered = (List.range k).map (fun i => (i, true)) ∧
    st.successes = List.replicate k true ∧ st.issued = urls.take (k + 1) ∧
    (k < urls.length ∧ pending = [k] ∧ st.completed = [] ∨
      k = urls.length ∧ pending = [] ∧ st.completed = [List.replicate k true])

theorem singleLoop_helper {k : Nat} {st : DeleteRun} (hk : k ≤ urls.length)
    (ha : st.answered = (List.range k).map fun i => (i, true))
    (hs : st.successes = List.replicate k true) (hi : st.issued = urls.take k)
    (hc : st.completed = []) :
    SingleLoop urls (deleteImageHelper urls k st).1 (deleteImageHelper urls k st).2 := by
  intro _
  refine ⟨k, ?_⟩
  unfold deleteImageHelper
  split
  · rename_i hlt
    refine ⟨ha, hs, ?_, Or.inl ⟨hlt, rfl, hc⟩⟩
    rw [hi, List.take_succ_eq_append_getElem hlt]
  · rename_i hge
    refine ⟨ha, hs, ?_, Or.inr ⟨by omega, rfl, ?_⟩⟩
    · rw [hi, List.take_of_length_le (by omega), List.take_of_length_le (by omega)]
    · rw [hc, hs, List.nil_append]

theorem singleLoop_answer {st : DeleteRun} {pre post : List Nat} {index : Nat} {ok : Bool}
    (h : SingleLoop urls st (pre ++ index :: post)) :
    SingleLoop urls (answerDelete urls st index ok).1
      (pre ++ post ++ (answerDelete urls st index ok).2) := by
  intro hall
  rw [answerDelete_answered] at hall
  have hok : ok = true := hall (index, ok) (by simp)
  subst hok
  obtain ⟨k, ha, hs, hi, hrest⟩ := h fun a hm => hall a (List.mem_append_left _ hm)
  rcases hrest with ⟨hlt, hp, hc⟩ | ⟨-, hp, -⟩
  · obtain ⟨rfl, rfl, rfl⟩ := Service.eq_of_pending_singleton hp
    have hanswer : answerDelete urls st index true = deleteImageHelper urls (index + 1)
        { st with
          answered := st.answered ++ [(index, true)], successes := st.successes ++ [true] } := by
      simp [answerDelete, BatchUploader.delete, resumeAll, resume]
    have hnext := @singleLoop_helper urls (index + 1) { st with
      answered := st.answered ++ [(index, true)], successes := st.successes ++ [true] } hlt
      (by rw [ha, List.range_succ, List.map_append]; rfl)
      (by rw [hs, List.replicate_succ'])  hi hc
    rw [hanswer, List.nil_append, List.nil_append]
    refine hnext ?_
    rw [deleteImageHelper_answered]
    exact hall
  · simp at hp

/-! ### Whole runs -/

variable {user : String} {es : List (Event Empty Bool)} {d : Config DeleteRun Nat}

theorem run_inv {I : DeleteRun → List Nat → Prop}
    (hstart : I (deleteImageHelper urls 0 ⟨[], [], [], []⟩).1
      (deleteImageHelper urls 0 ⟨[], [], [], []⟩).2)
    (hanswer : ∀ st pre index post ok, I st (pre ++ index :: post) →
      I (answerDelete urls st index ok).1 (pre ++ post ++ (answerDelete urls st index ok).2))
    (h : (deletion urls).machine.run (deleteImages (some user) urls) es = some d) :
    I d.core d.pending := by
  refine Service.run_inv_of_step (I := I) ?_ ?_ hstart h
  · intro _ _ x
    exact x.elim
  · intro st pre index post ok st' new hI hstep
    obtain ⟨rfl, rfl⟩ := Prod.mk.inj (Option.some.inj hstep)
    exact hanswer st pre index post ok hI

theorem threads_run (h : (deletion urls).machine.run (deleteImages (some user) urls) es = some d) :
    Threads d.core d.pending := by
  refine run_inv (I := Threads) ?_ (fun _ _ _ _ _ => threads_answer) h
  have := @threads_helper urls 0 ⟨[], [], [], []⟩
  unfold Threads
  rw [deleteImageHelper_answered]
  simpa [Nat.add_comm] using this

theorem bounded_run (h : (deletion urls).machine.run (deleteImages (some user) urls) es = some d) :
    Bounded urls d.core d.pending := by
  refine run_inv (I := Bounded urls) ?_ (fun _ _ _ _ _ => bounded_answer) h
  unfold Bounded deleteImageHelper
  split
  · rename_i hlt
    simpa [weight] using hlt
  · simp

theorem singleLoop_run
    (h : (deletion urls).machine.run (deleteImages (some user) urls) es = some d) :
    SingleLoop urls d.core d.pending := by
  refine run_inv (I := SingleLoop urls) ?_ (fun _ _ _ _ _ => singleLoop_answer) h
  exact singleLoop_helper (Nat.zero_le _) rfl rfl (by simp) rfl

theorem answered_append {c : Config DeleteRun Nat}
    (h : (deletion urls).machine.run c es = some d) :
    d.core.answered.map Prod.snd = c.core.answered.map Prod.snd ++ es.map outcome := by
  induction es generalizing c with
  | nil =>
    obtain rfl := Option.some.inj h
    simp
  | cons e es ih =>
    obtain ⟨c', hstep, hrun⟩ := Machine.run_cons.mp h
    rw [ih hrun, List.map_cons]
    rcases Service.step_cases hstep with ⟨x, -⟩ |
      ⟨pre, index, post, ok, st, new, rfl, -, hans, rfl⟩
    · exact x.elim
    · obtain ⟨rfl, rfl⟩ := Prod.mk.inj (Option.some.inj hans)
      simp [resumeAll_answered, outcome]

/-- The outcomes recorded are those of the events. -/
theorem answered_run
    (h : (deletion urls).machine.run (deleteImages (some user) urls) es = some d) :
    d.core.answered.map Prod.snd = es.map outcome := by
  have hstart : (deleteImages (some user) urls).core.answered = [] :=
    deleteImageHelper_answered 0 _
  rw [answered_append h, hstart, List.map_nil, List.nil_append]

theorem answers_le (h : (deletion urls).machine.run (deleteImages (some user) urls) es = some d) :
    es.length ≤ 2 ^ urls.length - 1 := by
  have hb := (bounded_run h).2
  have hlen := congrArg List.length (answered_run h)
  rw [List.length_map, List.length_map] at hlen
  omega

theorem oncePerURL_iff (h : (deletion urls).machine.run (deleteImages (some user) urls) es = some d)
    (hquiet : d.pending = []) : OncePerURL urls d ↔ ∀ e ∈ es, outcome e = true := by
  have hall : (∀ e ∈ es, outcome e = true) ↔ ∀ a ∈ d.core.answered, a.2 = true := by
    rw [← List.forall_mem_map (f := Prod.snd) (P := fun b => b = true), answered_run h,
      List.forall_mem_map]
  rw [hall]
  constructor
  · rintro ⟨-, successes, hc, -⟩
    have ht := threads_run h
    unfold Threads at ht
    rw [hquiet, hc, List.length_nil, List.length_singleton] at ht
    have hzero : d.core.answered.countP (fun a => !a.2) = 0 := by omega
    intro a ha
    simpa using List.countP_eq_zero.mp hzero a ha
  · intro htrue
    obtain ⟨k, ha, -, hi, hrest⟩ := singleLoop_run h htrue
    rcases hrest with ⟨-, hp, -⟩ | ⟨rfl, -, hc⟩
    · rw [hquiet] at hp
      exact absurd hp.symm (List.cons_ne_nil _ _)
    · refine ⟨?_, _, hc, List.length_replicate, ?_⟩
      · rw [hi, List.take_of_length_le (Nat.le_succ _)]
      · intro i
        simp [ha, List.getElem?_replicate]

/-- **The batch is deleted once per URL exactly when no deletion of the run fails.**
The run ends after finitely many answers in either case. -/
theorem deleteImages_once_iff
    (h : (deletion urls).machine.run (deleteImages (some user) urls) es = some d) :
    es.length ≤ 2 ^ urls.length - 1 ∧
      (d.pending = [] → (OncePerURL urls d ↔ ∀ e ∈ es, outcome e = true)) :=
  ⟨answers_le h, oncePerURL_iff h⟩

theorem deleteImages_once_iff_example :
    OncePerURL ["a", "b"]
      ⟨⟨["a", "b"], [true, true], [[true, true]], [(0, true), (1, true)]⟩, []⟩ := by
  have hrun : (deletion ["a", "b"]).machine.run (deleteImages (some "ann") ["a", "b"])
      [.answer 0 true, .answer 0 true] =
        some ⟨⟨["a", "b"], [true, true], [[true, true]], [(0, true), (1, true)]⟩, []⟩ := rfl
  exact ((deleteImages_once_iff hrun).2 rfl).mpr (by decide)

/-- One failing deletion, and the completion is called with `[false]` and with
`[false, true]`. -/
theorem deleteImages_repeats : ¬ ∀ (urls : List URL) (es : List (Event Empty Bool))
    (d : Config DeleteRun Nat),
    (deletion urls).machine.run (deleteImages (some "ann") urls) es = some d →
      d.pending = [] → OncePerURL urls d := by
  intro h
  obtain ⟨-, successes, hc, -⟩ := h ["a"] [.answer 0 false]
    ⟨⟨["a"], [false, true], [[false], [false, true]], [(0, false)]⟩, []⟩ rfl rfl
  exact absurd (List.cons.inj hc).2 (List.cons_ne_nil _ _)

end Subtle.Storage
