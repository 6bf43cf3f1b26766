import Mathlib.Data.List.TakeWhile

/-!
# The first components of a separated list

`List.splitOn` cuts a list at every occurrence of a separator.

* `getElem?_zero_splitOn`: the first component is what comes before the first separator.
* `getElem?_one_splitOn`: the second one is the first component of what comes after it.
* `takeWhile_eq_iff`: what the first component says about the list.
-/

namespace Subtle.Lib

variable {α : Type*} [DecidableEq α] {a : α}

theorem takeWhile_of_notMem {xs : List α} (h : a ∉ xs) : xs.takeWhile (· != a) = xs := by
  apply List.takeWhile_eq_self_iff.mpr
  intro x hx
  rw [bne_iff_ne]
  exact ne_of_mem_of_not_mem hx h

theorem takeWhile_append_cons {xs : List α} (h : a ∉ xs) (ys : List α) :
    (xs ++ a :: ys).takeWhile (· != a) = xs := by
  rw [List.takeWhile_append_of_pos, List.takeWhile_cons_of_neg (by simp), List.append_nil]
  intro x hx
  rw [bne_iff_ne]
  exact ne_of_mem_of_not_mem hx h

/-- A list has a separator, and what comes before the first one has none, or it is all one
component. -/
theorem eq_append_cons_or (a : α) (xs : List α) :
    a ∉ xs ∨ ∃ front back, a ∉ front ∧ xs = front ++ a :: back := by
  by_cases h : a ∈ xs
  · obtain ⟨front, back, hxs, hfront⟩ := List.eq_append_cons_of_mem h
    exact Or.inr ⟨front, back, hfront, hxs⟩
  · exact Or.inl h

/-- A list has only one first separator. -/
theorem append_cons_inj {front front' back back' : List α} (h : a ∉ front) (h' : a ∉ front')
    (heq : front ++ a :: back = front' ++ a :: back') : front = front' ∧ back = back' := by
  have hfront : front = front' := by
    rw [← takeWhile_append_cons h back, heq, takeWhile_append_cons h']
  subst hfront
  exact ⟨rfl, (List.cons.inj (List.append_cancel_left heq)).2⟩

theorem getElem?_zero_splitOn (a : α) (xs : List α) :
    (xs.splitOn a)[0]? = some (xs.takeWhile (· != a)) := by
  rcases eq_append_cons_or a xs with h | ⟨front, back, hfront, rfl⟩
  · rw [List.splitOn_eq_singleton h, takeWhile_of_notMem h]
    rfl
  · rw [List.splitOn_append_cons_self_of_not_mem hfront, takeWhile_append_cons hfront]
    rfl

theorem getElem?_one_splitOn {front : List α} (h : a ∉ front) (back : List α) :
    ((front ++ a :: back).splitOn a)[1]? = some (back.takeWhile (· != a)) := by
  rw [List.splitOn_append_cons_self_of_not_mem h, List.getElem?_cons_succ, getElem?_zero_splitOn]

theorem takeWhile_eq_iff {xs front : List α} :
    xs.takeWhile (· != a) = front ↔
      a ∉ front ∧ (xs = front ∨ ∃ back, xs = front ++ a :: back) := by
  constructor
  · rintro rfl
    rcases eq_append_cons_or a xs with h | ⟨front, back, hfront, rfl⟩
    · rw [takeWhile_of_notMem h]
      exact ⟨h, Or.inl rfl⟩
    · rw [takeWhile_append_cons hfront]
      exact ⟨hfront, Or.inr ⟨back, rfl⟩⟩
  · rintro ⟨hfront, rfl | ⟨back, rfl⟩⟩
    · exact takeWhile_of_notMem hfront
    · exact takeWhile_append_cons hfront back

end Subtle.Lib
