import Mathlib.Data.List.Basic
import Mathlib.Data.List.Nodup

/-!
# Positions in a list

A list is filtered, or one of its elements is removed, and a position in the one list is
used in the other.

* `getElem?_filter_eq_some_iff`: where an element of a filtered list stands in the list.
* `getElem?_filter_iff`: **the two lists have the same element at a position exactly when
  nothing up to it is left out**, or the element comes again at the right place.
* `eraseIdx_eq_filter_iff`: **removing the element at a position is filtering exactly when
  this element alone does not pass**.
-/

namespace Subtle.Lib

variable {α β : Type*}

/-! ### Positions in a filtered list -/

/-- **An element of a filtered list** stands where as many elements before it pass. -/
theorem getElem?_filter_eq_some_iff {p : α → Bool} {l : List α} {i : Nat} {x : α} :
    (l.filter p)[i]? = some x ↔ ∃ k, l[k]? = some x ∧ p x = true ∧ (l.take k).countP p = i := by
  induction l generalizing i with
  | nil => simp
  | cons a l ih =>
    by_cases ha : p a = true
    · rw [List.filter_cons_of_pos ha]
      cases i with
      | zero =>
        rw [List.getElem?_cons_zero]
        constructor
        · intro heq
          obtain rfl := Option.some.inj heq
          exact ⟨0, rfl, ha, rfl⟩
        · rintro ⟨k, hk, -, hcount⟩
          cases k with
          | zero => exact hk
          | succ k =>
            rw [List.take_succ_cons, List.countP_cons_of_pos ha] at hcount
            omega
      | succ i =>
        rw [List.getElem?_cons_succ, ih]
        constructor
        · rintro ⟨k, hk, hx, hcount⟩
          refine ⟨k + 1, hk, hx, ?_⟩
          rw [List.take_succ_cons, List.countP_cons_of_pos ha, hcount]
        · rintro ⟨k, hk, hx, hcount⟩
          cases k with
          | zero => exact absurd hcount (by simp)
          | succ k =>
            rw [List.take_succ_cons, List.countP_cons_of_pos ha] at hcount
            exact ⟨k, hk, hx, by omega⟩
    · rw [List.filter_cons_of_neg ha, ih]
      constructor
      · rintro ⟨k, hk, hx, hcount⟩
        refine ⟨k + 1, hk, hx, ?_⟩
        rw [List.take_succ_cons, List.countP_cons_of_neg ha, hcount]
      · rintro ⟨k, hk, hx, hcount⟩
        cases k with
        | zero =>
          obtain rfl := Option.some.inj hk
          exact absurd hx ha
        | succ k =>
          rw [List.take_succ_cons, List.countP_cons_of_neg ha] at hcount
          exact ⟨k, hk, hx, hcount⟩

theorem countP_take_eq_iff {p : α → Bool} {l : List α} {k : Nat} (hk : k ≤ l.length) :
    (l.take k).countP p = k ↔ ∀ x ∈ l.take k, p x = true := by
  rw [← List.countP_eq_length, List.length_take_of_le hk]

/-- **A list and the filtered list at the same position.**  The element is the same exactly
when nothing up to the position is left out, or the element stands again where the one of
the filtered list does. -/
theorem getElem?_filter_iff {p : α → Bool} {l : List α} {i : Nat} {x : α} (hx : l[i]? = some x) :
    (l.filter p)[i]? = some x ↔ (∀ y ∈ l.take (i + 1), p y = true) ∨
      ∃ k, i < k ∧ l[k]? = some x ∧ p x = true ∧ (l.take k).countP p = i := by
  obtain ⟨hi, -⟩ := List.getElem?_eq_some_iff.mp hx
  have hall : (∀ y ∈ l.take (i + 1), p y = true) ↔ (∀ y ∈ l.take i, p y = true) ∧ p x = true := by
    rw [List.take_add_one, hx, Option.toList_some, List.forall_mem_append]
    simp
  rw [getElem?_filter_eq_some_iff, hall]
  constructor
  · rintro ⟨k, hk, hpx, hcount⟩
    have hle : i ≤ k := by
      have hlength := List.countP_le_length (p := p) (l := l.take k)
      rw [hcount, List.length_take] at hlength
      omega
    rcases Nat.eq_or_lt_of_le hle with rfl | hlt
    · exact Or.inl ⟨(countP_take_eq_iff (Nat.le_of_lt hi)).mp hcount, hpx⟩
    · exact Or.inr ⟨k, hlt, hk, hpx, hcount⟩
  · rintro (⟨htake, hpx⟩ | ⟨k, -, hk, hpx, hcount⟩)
    · exact ⟨i, hx, hpx, (countP_take_eq_iff (Nat.le_of_lt hi)).mpr htake⟩
    · exact ⟨k, hk, hpx, hcount⟩

theorem mapM_eq_some_iff {f : α → Option β} {l : List α} {bs : List β} :
    l.mapM f = some bs ↔ l.map f = bs.map some := by
  induction l generalizing bs with
  | nil => cases bs <;> simp
  | cons a l ih =>
    rw [List.mapM_cons, List.map_cons]
    constructor
    · intro h
      obtain ⟨b, hb, h⟩ := Option.bind_eq_some_iff.mp h
      obtain ⟨rest, hrest, h⟩ := Option.bind_eq_some_iff.mp h
      obtain rfl := Option.some.inj h
      rw [List.map_cons, hb, ih.mp hrest]
    · intro h
      cases bs with
      | nil => exact absurd h (List.cons_ne_nil _ _)
      | cons b bs =>
        obtain ⟨hb, hrest⟩ := List.cons.inj h
        rw [hb, ih.mpr hrest]
        rfl

theorem exists_map_some {g : α → Option β} {l : List α} (hg : ∀ a ∈ l, g a ≠ none) :
    ∃ bs : List β, l.map g = bs.map some := by
  induction l with
  | nil => exact ⟨[], rfl⟩
  | cons a l ih =>
    obtain ⟨b, hb⟩ := Option.ne_none_iff_exists'.mp (hg a List.mem_cons_self)
    obtain ⟨bs, hbs⟩ := ih fun a' ha' => hg a' (List.mem_cons_of_mem a ha')
    exact ⟨b :: bs, by rw [List.map_cons, hb, hbs, List.map_cons]⟩

/-- Two partial functions have the same values on a list on which the second is defined. -/
theorem mapM_eq_mapM_iff {f g : α → Option β} {l : List α} (hg : ∀ a ∈ l, g a ≠ none) :
    l.mapM f = l.mapM g ↔ ∀ a ∈ l, f a = g a := by
  obtain ⟨bs, hbs⟩ := exists_map_some hg
  rw [mapM_eq_some_iff.mpr hbs, mapM_eq_some_iff, ← hbs, List.map_inj_left]

/-! ### Removing what has a key -/

/-- **Removing the element at a position leaves what passes a test exactly when it is the
one element that does not pass.** -/
theorem eraseIdx_eq_filter_iff {p : α → Bool} {l : List α} {i : Nat} (hi : i < l.length) :
    l.eraseIdx i = l.filter p ↔ ∀ k x, l[k]? = some x → (p x = false ↔ k = i) := by
  induction l generalizing i with
  | nil => exact absurd hi (Nat.not_lt_zero _)
  | cons a l ih =>
    cases i with
    | zero =>
      rw [List.eraseIdx_cons_zero]
      constructor
      · intro heq
        have hall : ∀ x ∈ l, p x = true := by
          intro x hx
          rw [heq] at hx
          exact (List.mem_filter.mp hx).2
        have ha : ¬ p a = true := by
          intro ha
          rw [List.filter_cons_of_pos ha, List.filter_eq_self.mpr hall] at heq
          exact absurd (congrArg List.length heq) (by simp)
        intro k x hk
        cases k with
        | zero =>
          obtain rfl := Option.some.inj hk
          simpa using ha
        | succ k => simp [hall x (List.mem_of_getElem? hk)]
      · intro h
        have ha : p a = false := (h 0 a rfl).mpr rfl
        rw [List.filter_cons_of_neg (by simp [ha]), eq_comm, List.filter_eq_self]
        intro x hx
        obtain ⟨k, hk⟩ := List.mem_iff_getElem?.mp hx
        have hne : ¬ p x = false := fun hx => absurd ((h (k + 1) x hk).mp hx) (Nat.succ_ne_zero k)
        simpa using hne
    | succ i =>
      have hi : i < l.length := Nat.lt_of_succ_lt_succ hi
      rw [List.eraseIdx_cons_succ]
      by_cases ha : p a = true
      · rw [List.filter_cons_of_pos ha, List.cons_inj_right, ih hi]
        constructor
        · intro h k x hk
          cases k with
          | zero =>
            obtain rfl := Option.some.inj hk
            simp [ha]
          | succ k => rw [h k x hk, Nat.succ_inj]
        · intro h k x hk
          rw [h (k + 1) x hk, Nat.succ_inj]
      · rw [List.filter_cons_of_neg ha]
        constructor
        · intro heq
          have hmem : a ∈ l.filter p := heq ▸ List.mem_cons_self
          exact absurd (List.mem_filter.mp hmem).2 ha
        · intro h
          exact absurd ((h 0 a rfl).mp (by simpa using ha)) (Nat.succ_ne_zero i).symm

/-! ### Grouping by a key -/

/-- **The elements in groups**, one for each key, are the elements in another order. -/
theorem perm_grouped {κ : Type*} [DecidableEq κ] (key : α → κ) {keys : List κ} {l : List α}
    (hnodup : keys.Nodup) (hkeys : ∀ a ∈ l, key a ∈ keys) :
    (keys.flatMap fun k => l.filter fun a => key a = k).Perm l := by
  induction keys generalizing l with
  | nil =>
    obtain rfl := List.eq_nil_iff_forall_not_mem.mpr fun a ha => List.not_mem_nil (hkeys a ha)
    exact .nil
  | cons k keys ih =>
    obtain ⟨hk, hrest⟩ := List.nodup_cons.mp hnodup
    -- the other groups do not need the elements of the first one
    have hothers : (keys.flatMap fun k' => l.filter fun a => key a = k') =
        keys.flatMap fun k' =>
          (l.filter fun a => !decide (key a = k)).filter fun a => key a = k' := by
      refine List.flatMap_congr fun k' hk' => ?_
      rw [List.filter_filter]
      refine List.filter_congr fun a _ => ?_
      by_cases ha : key a = k'
      · have hne : k' ≠ k := fun heq => hk (heq ▸ hk')
        simp [ha, hne]
      · simp [ha]
    rw [List.flatMap_cons, hothers]
    refine List.Perm.trans (List.Perm.append_left _ (ih hrest fun a ha => ?_))
      (List.filter_append_perm _ _)
    obtain ⟨ha, hne⟩ := List.mem_filter.mp ha
    exact (List.mem_cons.mp (hkeys a ha)).resolve_left (by simpa using hne)

end Subtle.Lib
