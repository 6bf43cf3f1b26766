import Mathlib.Data.List.Dedup
import Mathlib.Logic.Function.Basic

/-!
# Records and overwriting

A `Record` gives a value to some of the keys.  Overwriting one by another takes
the second's value wherever it has one.  A sequence of such overwrites is last
writer wins, key by key:

* `overwriteAll_apply`: **the value at a key is the last one written to it**.
* `overwriteAll_of_mem`: an overwrite that comes again later may be left out, so
  `overwriteAll_dedup`: only the last occurrence of each overwrite counts.
-/

namespace Subtle.Lib

/-- Values for some of the keys. -/
abbrev Record (κ ν : Type*) := κ → Option ν

namespace Record

variable {κ ν : Type*}

/-- A value after a write is the written one or was there before. -/
theorem of_update [DecidableEq κ] {r : Record κ ν} {k k' : κ} {v : Option ν} {w : ν}
    (h : Function.update r k' v k = some w) : k = k' ∧ v = some w ∨ k ≠ k' ∧ r k = some w := by
  by_cases hk : k = k'
  · subst hk
    rw [Function.update_self] at h
    exact Or.inl ⟨rfl, h⟩
  · rw [Function.update_of_ne hk] at h
    exact Or.inr ⟨hk, h⟩

/-- The record with the values of `d` wherever `d` has one. -/
def overwrite (r d : Record κ ν) : Record κ ν := fun k => (d k).or (r k)

theorem overwrite_of_none {d : Record κ ν} {k : κ} (h : d k = none) (r : Record κ ν) :
    overwrite r d k = r k := by rw [overwrite, h, Option.none_or]

theorem overwrite_of_some {d : Record κ ν} {k : κ} {v : ν} (h : d k = some v) (r : Record κ ν) :
    overwrite r d k = some v := by rw [overwrite, h, Option.some_or]

/-- An overwrite that changes nothing. -/
theorem overwrite_eq_self_iff {r d : Record κ ν} :
    overwrite r d = r ↔ ∀ k, d k = none ∨ d k = r k := by
  constructor
  · intro h k
    cases hd : d k with
    | none => exact Or.inl rfl
    | some v =>
      right
      rw [← h, overwrite_of_some hd]
  · intro h
    funext k
    rcases h k with hnone | hsame
    · exact overwrite_of_none hnone r
    · rw [overwrite, hsame, Option.or_self]

/-- The same overwrite once more. -/
theorem overwrite_overwrite (r d : Record κ ν) : overwrite (overwrite r d) d = overwrite r d := by
  refine overwrite_eq_self_iff.mpr fun k => ?_
  cases hd : d k with
  | none => exact Or.inl rfl
  | some v => exact Or.inr (overwrite_of_some hd r).symm

def overwriteAll (r : Record κ ν) (ds : List (Record κ ν)) : Record κ ν := ds.foldl overwrite r

@[simp] theorem overwriteAll_nil (r : Record κ ν) : overwriteAll r [] = r := rfl

@[simp] theorem overwriteAll_cons (r d : Record κ ν) (ds : List (Record κ ν)) :
    overwriteAll r (d :: ds) = overwriteAll (overwrite r d) ds := rfl

theorem overwriteAll_append (r : Record κ ν) (ds es : List (Record κ ν)) :
    overwriteAll r (ds ++ es) = overwriteAll (overwriteAll r ds) es := List.foldl_append

theorem overwriteAll_concat (r : Record κ ν) (ds : List (Record κ ν)) (d : Record κ ν) :
    overwriteAll r (ds ++ [d]) = overwrite (overwriteAll r ds) d := overwriteAll_append r ds [d]

/-- **Last writer wins**, key by key. -/
theorem overwriteAll_apply (r : Record κ ν) (ds : List (Record κ ν)) (k : κ) :
    overwriteAll r ds k = ((ds.filterMap fun d => d k).getLast?).or (r k) := by
  induction ds generalizing r with
  | nil => rfl
  | cons d ds ih =>
    rw [overwriteAll_cons, ih, overwrite, List.filterMap_cons]
    cases hd : d k with
    | none => rfl
    | some v =>
      rw [List.getLast?_cons]
      cases (ds.filterMap fun d => d k).getLast? <;> rfl

/-- A key that the last overwrite writes has its value. -/
theorem overwriteAll_getLastD {r : Record κ ν} {ds : List (Record κ ν)} {k : κ} {v : ν}
    (h : (ds.getLastD r) k = some v) : overwriteAll r ds k = some v := by
  rcases ds.eq_nil_or_concat with rfl | ⟨init, d, rfl⟩
  · exact h
  · rw [List.concat_eq_append, List.getLastD_concat] at h
    rw [List.concat_eq_append, overwriteAll_concat, overwrite, h]
    rfl

/-- The value last written to a key is the one in the last record exactly when that
record has one, or none has. -/
theorem overwriteAll_eq_getLastD_iff {r : Record κ ν} {ds : List (Record κ ν)} {k : κ} :
    overwriteAll r ds k = (ds.getLastD r) k ↔
      ((∃ d ∈ r :: ds, d k ≠ none) → (ds.getLastD r) k ≠ none) := by
  constructor
  · intro heq hsome hnone
    rw [hnone, overwriteAll_apply, Option.or_eq_none_iff, List.getLast?_eq_none_iff,
      List.filterMap_eq_nil_iff] at heq
    obtain ⟨d, hd, hne⟩ := hsome
    rcases List.mem_cons.mp hd with rfl | hd
    · exact hne heq.2
    · exact hne (heq.1 d hd)
  · intro himp
    cases hlast : (ds.getLastD r) k with
    | some v => exact overwriteAll_getLastD hlast
    | none =>
      have hall : ∀ d ∈ r :: ds, d k = none := by
        intro d hd
        by_contra hne
        exact himp ⟨d, hd, hne⟩ hlast
      rw [overwriteAll_apply, hall r List.mem_cons_self, Option.or_none,
        List.getLast?_eq_none_iff, List.filterMap_eq_nil_iff]
      intro d hd
      exact hall d (List.mem_cons_of_mem _ hd)

/-- Only the writes to a key decide the value at the key. -/
theorem overwriteAll_map_apply {r r' : Record κ ν} {ds : List (Record κ ν)}
    {f : Record κ ν → Record κ ν} {k : κ} (hr : r' k = r k) (hf : ∀ d, f d k = d k) :
    overwriteAll r' (ds.map f) k = overwriteAll r ds k := by
  have hcomp : ((fun d : Record κ ν => d k) ∘ f) = fun d => d k := funext hf
  rw [overwriteAll_apply, overwriteAll_apply, List.filterMap_map, hcomp, hr]

/-- Two records that agree on the keys that are not written agree after the
writes. -/
theorem overwriteAll_congr {r r' : Record κ ν} {ds : List (Record κ ν)} {k : κ}
    (h : (∀ d ∈ ds, d k = none) → r k = r' k) : overwriteAll r ds k = overwriteAll r' ds k := by
  rw [overwriteAll_apply, overwriteAll_apply]
  cases hl : (ds.filterMap fun d => d k).getLast? with
  | some v => rfl
  | none =>
    rw [List.getLast?_eq_none_iff, List.filterMap_eq_nil_iff] at hl
    rw [h hl]

/-- An overwrite that comes again later may be left out. -/
theorem overwriteAll_of_mem {r d : Record κ ν} {ds : List (Record κ ν)} (h : d ∈ ds) :
    overwriteAll (overwrite r d) ds = overwriteAll r ds := by
  funext k
  refine overwriteAll_congr fun hnone => ?_
  rw [overwrite, hnone d h, Option.none_or]

/-- **Only the last occurrence of each overwrite counts.** -/
theorem overwriteAll_dedup {ι : Type*} [DecidableEq ι] (f : ι → Record κ ν) (r : Record κ ν)
    (is : List ι) : overwriteAll r (is.dedup.map f) = overwriteAll r (is.map f) := by
  induction is generalizing r with
  | nil => rfl
  | cons i is ih =>
    by_cases hi : i ∈ is
    · rw [List.dedup_cons_of_mem hi, ih, List.map_cons, overwriteAll_cons,
        overwriteAll_of_mem (List.mem_map_of_mem hi)]
    · rw [List.dedup_cons_of_notMem hi, List.map_cons, overwriteAll_cons, ih, List.map_cons,
        overwriteAll_cons]

end Record

end Subtle.Lib
