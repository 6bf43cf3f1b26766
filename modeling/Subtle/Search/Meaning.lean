import Subtle.Search.Query
import Mathlib.Data.List.Forall2

/-!
# What the search query means

The documentation of the search says: the filters are joined with AND, and
filters on the same string field with OR.  `documented` is that meaning as a
Boolean value over the texts of the single filters.

`constructQuery` puts every conjunct but the first in parentheses.  The first one
is an OR group when no filter is numeric, and then the tail of the query attaches
to its last literal wherever AND binds tighter.  `Parenthesised` says when this
cannot be seen, and `constructQuery_readsAsDocumented_iff` that it is exactly
then that the query means what is documented, whichever connective binds tighter.
-/

namespace Subtle.Search

open Subtle.Lib

/-- The documented meaning, under a valuation of the texts of single filters. -/
def documented (v : String → Bool) (fs : List Filter) : Bool :=
  ((fs.filter Filter.numeric).all fun f => v (constructSingleQuery f)) &&
    (fieldNames fs).all fun n => (onField fs n).any fun f => v (constructSingleQuery f)

/-- The query reads as its documented meaning under either precedence. -/
def ReadsAsDocumented (fields operators values : List String) : Prop :=
  ∀ t : Connective, ∃ φ : Formula String,
    Reads t .loose (constructTokens fields operators values) φ ∧
      ∀ v, φ.eval v = documented v (filtersOf fields operators values)

/-- Some filter is numeric, or all filters are on one field, or the first
filter is the only one on its field. -/
def Parenthesised (fields : List String) : Prop :=
  (∃ n ∈ fields, n ∈ numericFields) ∨ (∀ n ∈ fields, n = fields.headD "") ∨
    fields.count (fields.headD "") = 1

instance (fields : List String) : Decidable (Parenthesised fields) :=
  inferInstanceAs (Decidable (_ ∨ _ ∨ _))

/-! ### Groups -/

/-- The filters of each conjunct of the query. -/
def groups (fs : List Filter) : List (List Filter) :=
  (fs.filter Filter.numeric).map (fun f => [f]) ++ (fieldNames fs).map (onField fs)

theorem conjuncts_eq_groups {τ : Type*} (T : Templates τ) (fs : List Filter) :
    conjuncts T fs = (groups fs).map (orGroup T) := by
  rw [conjuncts, groups, List.map_append, List.map_map, List.map_map, orGroups, JSMap.values,
    List.map_map]
  rfl

theorem ne_nil_of_mem_groups {fs g : List Filter} (h : g ∈ groups fs) : g ≠ [] := by
  rcases List.mem_append.mp h with h | h
  · obtain ⟨f, -, rfl⟩ := List.mem_map.mp h
    exact List.cons_ne_nil f []
  · obtain ⟨n, hn, rfl⟩ := List.mem_map.mp h
    exact onField_ne_nil hn

theorem documented_eq (v : String → Bool) (fs : List Filter) :
    documented v fs = (groups fs).all fun g => g.any fun f => v (constructSingleQuery f) := by
  rw [documented, groups, List.all_append, List.all_map, List.all_map]
  congr 1
  exact congrArg (List.all _) (funext fun f => by simp)

theorem fieldNames_cons_of_textual {f : Filter} {fs : List Filter} (h : f.textual = true) :
    ∃ ns, fieldNames (f :: fs) = f.field :: ns ∧ ∀ n, n ∈ ns ↔
      n ≠ f.field ∧ ∃ g ∈ fs, g.textual = true ∧ g.field = n := by
  refine ⟨_, by rw [fieldNames, List.filter_cons_of_pos h, List.map_cons, List.eraseDups_cons], ?_⟩
  intro n
  simp only [List.mem_eraseDups, List.mem_filter, List.mem_map, Bool.not_eq_true',
    beq_eq_false_iff_ne, and_assoc]
  exact and_comm

theorem length_onField (fs : List Filter) (n : String) :
    (onField fs n).length = (fs.map Filter.field).count n := by
  rw [onField, ← List.countP_eq_length_filter, List.count, List.countP_map]
  rfl

theorem onField_cons_self (f : Filter) (fs : List Filter) :
    onField (f :: fs) f.field = f :: onField fs f.field := by
  simp [onField]

/-- With a numeric filter the first conjunct is one literal. -/
theorem groups_of_numeric {fs : List Filter} (h : fs.filter Filter.numeric ≠ []) :
    Parenthesised (fs.map Filter.field) ∧ ∃ f gs, groups fs = [f] :: gs := by
  obtain ⟨f, fs', hfs'⟩ := List.exists_cons_of_ne_nil h
  have hf : f ∈ fs.filter Filter.numeric := hfs' ▸ List.mem_cons_self
  obtain ⟨hf, hfn⟩ := List.mem_filter.mp hf
  refine ⟨Or.inl ⟨f.field, List.mem_map_of_mem hf, of_decide_eq_true hfn⟩, f, ?_⟩
  rw [groups, hfs']
  exact ⟨_, rfl⟩

/-- With string filters only, the first conjunct needs no parentheses exactly when it
is one literal or the only conjunct; `ns` are the other fields. -/
theorem parenthesised_iff_of_textual {f : Filter} {fs : List Filter} {ns : List String}
    (htext : ∀ x ∈ f :: fs, x.textual = true)
    (hmem : ∀ n, n ∈ ns ↔ n ≠ f.field ∧ ∃ g ∈ fs, g.textual = true ∧ g.field = n) :
    Parenthesised ((f :: fs).map Filter.field) ↔ onField fs f.field = [] ∨ ns = [] := by
  have hnone : ¬ ∃ n ∈ (f :: fs).map Filter.field, n ∈ numericFields := by
    rintro ⟨n, hn, hnn⟩
    obtain ⟨x, hx, rfl⟩ := List.mem_map.mp hn
    have := Filter.textual_of_not_numeric_field (htext x hx)
    exact absurd hnn (of_decide_eq_false this)
  have hone : ((f :: fs).map Filter.field).count f.field = 1 ↔ onField fs f.field = [] := by
    rw [← length_onField, onField_cons_self, List.length_cons, Nat.add_eq_right,
      List.length_eq_zero_iff]
  have hall : (∀ n ∈ (f :: fs).map Filter.field, n = f.field) ↔ ns = [] := by
    rw [List.eq_nil_iff_forall_not_mem]
    constructor
    · intro h n hn
      obtain ⟨hnf, x, hx, -, rfl⟩ := (hmem n).mp hn
      exact hnf (h _ (List.mem_map_of_mem (List.mem_cons_of_mem f hx)))
    · intro h n hn
      obtain ⟨x, hx, rfl⟩ := List.mem_map.mp hn
      by_contra hxf
      rcases List.mem_cons.mp hx with rfl | hx'
      · exact hxf rfl
      · exact h _ ((hmem _).mpr ⟨hxf, x, hx', htext x hx, rfl⟩)
  rw [Parenthesised, List.map_cons, List.headD_cons, ← List.map_cons, hone, hall,
    or_iff_right hnone, or_comm]

/-- **The first conjunct and the others**, and what `Parenthesised` says of them. -/
theorem groups_cases {fs : List Filter} (hne : fs ≠ [])
    (hv : ∀ f ∈ fs, validateSingleFilter f = true) :
    ∃ f g gs, groups fs = (f :: g) :: gs ∧
      (Parenthesised (fs.map Filter.field) ↔ g = [] ∨ gs = []) ∧
      (¬ Parenthesised (fs.map Filter.field) → ∀ h ∈ gs, ∀ x ∈ h,
        constructSingleQuery x ≠ constructSingleQuery f) := by
  by_cases hnum : fs.filter Filter.numeric = []
  · have htext : ∀ f ∈ fs, f.textual = true := by
      intro f hf
      have := List.filter_eq_nil_iff.mp hnum f hf
      exact textual_of_valid (hv f hf) (Bool.eq_false_of_not_eq_true this)
    obtain ⟨f, fs', rfl⟩ := List.exists_cons_of_ne_nil hne
    have hf := htext f List.mem_cons_self
    obtain ⟨ns, hns, hmem⟩ := @fieldNames_cons_of_textual f fs' hf
    have hgroups : groups (f :: fs') =
        (f :: onField fs' f.field) :: ns.map (onField (f :: fs')) := by
      rw [groups, hnum, hns, List.map_cons, onField_cons_self]
      rfl
    refine ⟨f, _, _, hgroups, ?_, ?_⟩
    · rw [parenthesised_iff_of_textual htext hmem, List.map_eq_nil_iff]
    · -- the text of a filter has its field
      intro _ h hh x hx heq
      obtain ⟨n, hn, rfl⟩ := List.mem_map.mp hh
      obtain ⟨hxm, hxn⟩ := List.mem_filter.mp hx
      have hfield := field_of_constructSingleQuery (hv x hxm) (hv f List.mem_cons_self)
        (htext x hxm) hf heq
      exact ((hmem n).mp hn).1 ((of_decide_eq_true hxn).symm.trans hfield)
  · obtain ⟨hpar, f, gs, hgroups⟩ := groups_of_numeric hnum
    exact ⟨f, [], gs, hgroups, iff_of_true hpar (Or.inl rfl), fun hnot => absurd hpar hnot⟩

/-! ### Readings -/

/-- The formula of one conjunct. -/
def groupFormula : List Filter → Formula String
  | [] => .lit ""
  | f :: fs =>
      chain .or (.lit (constructSingleQuery f)) (fs.map fun g => .lit (constructSingleQuery g))

theorem eval_groupFormula (v : String → Bool) {g : List Filter} (h : g ≠ []) :
    (groupFormula g).eval v = g.any fun f => v (constructSingleQuery f) := by
  cases g with
  | nil => exact absurd rfl h
  | cons f fs => rw [groupFormula, eval_chain_or, List.any_map, List.any_cons]; rfl

theorem foldl_or_tokens (ts : List (Token String)) (fs : List Filter) :
    (fs.map Templates.tokens.query).foldl Templates.tokens.or ts =
      ts ++ opTokens .or (fs.map fun g => [.lit (constructSingleQuery g)]) := by
  induction fs generalizing ts with
  | nil => simp [opTokens]
  | cons f fs ih =>
    rw [List.map_cons, List.foldl_cons, ih]
    simp [Templates.tokens, opTokens]

theorem foldl_and_tokens (ts : List (Token String)) (us : List (List (Token String))) :
    us.foldl Templates.tokens.and ts =
      ts ++ opTokens .and (us.map fun u => .lparen :: (u ++ [.rparen])) := by
  induction us generalizing ts with
  | nil => simp [opTokens]
  | cons u us ih =>
    rw [List.foldl_cons, ih]
    simp [Templates.tokens, opTokens]

theorem orGroup_tokens (f : Filter) (fs : List Filter) : orGroup Templates.tokens (f :: fs) =
    .lit (constructSingleQuery f) ::
      opTokens .or (fs.map fun g => [.lit (constructSingleQuery g)]) := by
  rw [orGroup, List.map_cons, reduce, foldl_or_tokens]
  rfl

theorem reads_lits (t : Connective) (fs : List Filter) :
    List.Forall₂ (Reads t .atom) (fs.map fun g => [.lit (constructSingleQuery g)])
      (fs.map fun g => .lit (constructSingleQuery g)) := by
  rw [List.forall₂_map_left_iff, List.forall₂_map_right_iff, List.forall₂_same]
  intro g _
  exact .lit _

/-- An OR group reads as its formula under either precedence. -/
theorem reads_orGroup (t : Connective) {g : List Filter} (h : g ≠ []) :
    Reads t .loose (orGroup Templates.tokens g) (groupFormula g) := by
  obtain ⟨f, fs, rfl⟩ := List.exists_cons_of_ne_nil h
  rw [orGroup_tokens]
  cases t with
  | or => exact .loose (.tightChain (reads_lits .or fs) (.tight (.lit _)))
  | and =>
    have hlits := (reads_lits .and fs).imp fun _ _ hr => Reads.tight hr
    exact .looseChain hlits (.loose (.tight (.lit _)))

/-- The later conjuncts, each in parentheses. -/
theorem reads_parens (t : Connective) {gs : List (List Filter)} (h : ∀ g ∈ gs, g ≠ []) :
    List.Forall₂ (Reads t .atom)
      ((gs.map (orGroup Templates.tokens)).map fun u => .lparen :: (u ++ [.rparen]))
      (gs.map groupFormula) := by
  rw [List.map_map, List.forall₂_map_left_iff, List.forall₂_map_right_iff, List.forall₂_same]
  intro g hg
  exact .paren (reads_orGroup t (h g hg))

theorem all_groupFormula (v : String → Bool) {gs : List (List Filter)} (h : ∀ g ∈ gs, g ≠ []) :
    ((gs.map groupFormula).all fun ψ => ψ.eval v) =
      gs.all fun g => g.any fun f => v (constructSingleQuery f) := by
  rw [List.all_map, Bool.eq_iff_iff, List.all_eq_true, List.all_eq_true]
  refine forall₂_congr fun g hg => ?_
  rw [Function.comp_apply, eval_groupFormula v (h g hg)]

/-- **Where OR binds tighter, the query means the conjunction of its groups.** -/
theorem reading_or {g : List Filter} {gs : List (List Filter)} (hg : g ≠ [])
    (hgs : ∀ h ∈ gs, h ≠ []) :
    ∃ φ, Reads .or .loose ((gs.map (orGroup Templates.tokens)).foldl Templates.tokens.and
        (orGroup Templates.tokens g)) φ ∧
      ∀ v, φ.eval v = (g :: gs).all fun h => h.any fun f => v (constructSingleQuery f) := by
  rw [foldl_and_tokens]
  have hatoms := (reads_parens .or hgs).imp fun _ _ hr => Reads.tight hr
  refine ⟨_, .looseChain hatoms (reads_orGroup .or hg), ?_⟩
  intro v
  rw [Connective.other_or, eval_chain_and, all_groupFormula v hgs, eval_groupFormula v hg,
    List.all_cons]

/-- **Where AND binds tighter**, all that follows the first group belongs to the
last literal of it. -/
theorem reading_and (f : Filter) (fs : List Filter) (x : Filter) {gs : List (List Filter)}
    (hgs : ∀ h ∈ gs, h ≠ []) :
    ∃ φ, Reads .and .loose ((gs.map (orGroup Templates.tokens)).foldl Templates.tokens.and
        (orGroup Templates.tokens (f :: (fs ++ [x])))) φ ∧
      ∀ v, φ.eval v = (((f :: fs).any fun y => v (constructSingleQuery y)) ||
        v (constructSingleQuery x) &&
          gs.all fun h => h.any fun y => v (constructSingleQuery y)) := by
  have hlast : Reads .and .tight
      ([.lit (constructSingleQuery x)] ++ opTokens .and
        ((gs.map (orGroup Templates.tokens)).map fun u => .lparen :: (u ++ [.rparen])))
      (chain .and (.lit (constructSingleQuery x)) (gs.map groupFormula)) :=
    .tightChain (reads_parens .and hgs) (.tight (.lit _))
  have hread := Reads.looseOp (reads_orGroup .and (List.cons_ne_nil f fs)) hlast
  refine ⟨.bin .or (groupFormula (f :: fs))
    (chain .and (.lit (constructSingleQuery x)) (gs.map groupFormula)), ?_, ?_⟩
  · rw [foldl_and_tokens, orGroup_tokens, List.map_append]
    rw [orGroup_tokens] at hread
    simpa [opTokens] using hread
  · intro v
    rw [Formula.eval, Connective.eval, eval_groupFormula v (List.cons_ne_nil f fs), eval_chain_and,
      all_groupFormula v hgs, Formula.eval]

/-- The case of a first group of one literal. -/
theorem reading_and_single (f : Filter) {gs : List (List Filter)} (hgs : ∀ h ∈ gs, h ≠ []) :
    ∃ φ, Reads .and .loose ((gs.map (orGroup Templates.tokens)).foldl Templates.tokens.and
        (orGroup Templates.tokens [f])) φ ∧
      ∀ v, φ.eval v = ([f] :: gs).all fun h => h.any fun y => v (constructSingleQuery y) := by
  rw [foldl_and_tokens]
  refine ⟨_, .loose (.tightChain (reads_parens .and hgs) (.tight (.lit _))), ?_⟩
  intro v
  rw [eval_chain_and, all_groupFormula v hgs, List.all_cons]
  simp [Formula.eval]

/-- **A first group of one literal, or no other group**: the query means the conjunction
of its groups where AND binds tighter as well. -/
theorem reading_and_of_short {f : Filter} {g : List Filter} {gs : List (List Filter)}
    (hgs : ∀ h ∈ gs, h ≠ []) (hshort : g = [] ∨ gs = []) :
    ∃ φ, Reads .and .loose ((gs.map (orGroup Templates.tokens)).foldl Templates.tokens.and
        (orGroup Templates.tokens (f :: g))) φ ∧
      ∀ v, φ.eval v = ((f :: g) :: gs).all fun h => h.any fun y => v (constructSingleQuery y) := by
  rcases hshort with rfl | rfl
  · exact reading_and_single f hgs
  · rcases List.eq_nil_or_concat g with rfl | ⟨init, x, rfl⟩
    · exact reading_and_single f hgs
    · obtain ⟨φ, hφ, heval⟩ := reading_and f init x hgs
      rw [List.concat_eq_append]
      refine ⟨φ, hφ, ?_⟩
      intro v
      rw [heval]
      simp [Bool.or_assoc]

/-- **A first group of several literals and another group**: where AND binds tighter,
the valuation that makes the first literal true and no other satisfies the query, and
not its groups. -/
theorem not_reading_and {f x : Filter} {init g : List Filter} {gs : List (List Filter)}
    (hgs : ∀ h ∈ g :: gs, h ≠ [])
    (hfresh : ∀ y ∈ g, constructSingleQuery y ≠ constructSingleQuery f) {φ : Formula String}
    (hφ : Reads .and .loose (((g :: gs).map (orGroup Templates.tokens)).foldl
      Templates.tokens.and (orGroup Templates.tokens (f :: (init ++ [x])))) φ) :
    ¬ ∀ v, φ.eval v = ((f :: (init ++ [x])) :: g :: gs).all fun h =>
      h.any fun y => v (constructSingleQuery y) := by
  intro hdoc
  obtain ⟨ψ, hψ, heval⟩ := reading_and f init x hgs
  have hfirst := hdoc fun s => s == constructSingleQuery f
  rw [hφ.unique hψ, heval] at hfirst
  have hfalse : (g.any fun y => constructSingleQuery y == constructSingleQuery f) = false := by
    rw [List.any_eq_false]
    intro y hy heq
    exact hfresh y hy (beq_iff_eq.mp heq)
  simp [hfalse] at hfirst

/-! ### When the query means what is documented -/

theorem constructTokens_of_groups {fields operators values : List String} {g : List Filter}
    {gs : List (List Filter)} (h : groups (filtersOf fields operators values) = g :: gs) :
    constructTokens fields operators values =
      (gs.map (orGroup Templates.tokens)).foldl Templates.tokens.and
        (orGroup Templates.tokens g) := by
  rw [constructTokens_eq, conjuncts_eq_groups, h]
  rfl

theorem readsAsDocumented_iff {fields operators values : List String} (hne : fields ≠ [])
    (hv : ∀ f ∈ filtersOf fields operators values, validateSingleFilter f = true) :
    ReadsAsDocumented fields operators values ↔ Parenthesised fields := by
  have hfs : filtersOf fields operators values ≠ [] := by
    intro h
    have := map_field_filtersOf fields operators values
    rw [h] at this
    exact hne this.symm
  obtain ⟨f, g, gs, hgroups, hpar, hfresh⟩ := groups_cases hfs hv
  rw [map_field_filtersOf] at hpar hfresh
  have hgs : ∀ h ∈ gs, h ≠ [] := fun h hh =>
    ne_nil_of_mem_groups (hgroups ▸ List.mem_cons_of_mem _ hh)
  unfold ReadsAsDocumented
  simp only [documented_eq, hgroups, constructTokens_of_groups hgroups]
  constructor
  · intro hread
    by_contra hnot
    obtain ⟨hg, hgs'⟩ := not_or.mp fun h => hnot (hpar.mpr h)
    obtain ⟨init, x, rfl⟩ := (List.eq_nil_or_concat g).resolve_left hg
    obtain ⟨h, gs', rfl⟩ := List.exists_cons_of_ne_nil hgs'
    rw [List.concat_eq_append] at hread
    obtain ⟨φ, hφ, hdoc⟩ := hread .and
    exact not_reading_and hgs (hfresh hnot h List.mem_cons_self) hφ hdoc
  · intro h t
    cases t with
    | or => exact reading_or (List.cons_ne_nil f g) hgs
    | and => exact reading_and_of_short hgs (hpar.mp h)

/-- **The query means what is documented exactly when its first conjunct needs no
parentheses.**  The tokens it is read by print as the query itself. -/
theorem constructQuery_readsAsDocumented_iff {fields operators values : List String}
    (hne : fields ≠ [])
    (hv : (validateFilters (some fields) (some operators) (some values)).valid = true) :
    render (constructTokens fields operators values) =
        constructQuery (some fields) (some operators) (some values) ∧
      (ReadsAsDocumented fields operators values ↔ Parenthesised fields) :=
  ⟨render_constructTokens fields operators values, readsAsDocumented_iff hne (valid_iff.mp hv).2.2⟩

theorem constructQuery_readsAsDocumented_iff_example :
    render (constructTokens ["name", "birthday"] ["=", ">"] ["Ann", "0"]) =
        constructQuery (some ["name", "birthday"]) (some ["=", ">"]) (some ["Ann", "0"]) ∧
      (ReadsAsDocumented ["name", "birthday"] ["=", ">"] ["Ann", "0"] ↔
        Parenthesised ["name", "birthday"]) :=
  constructQuery_readsAsDocumented_iff (by decide) (by decide +kernel)

/-- Two names and a university: where AND binds tighter, the university restricts
only the second name. -/
theorem constructQuery_misreads :
    (validateFilters (some ["name", "name", "university"]) (some ["=", "=", "="])
        (some ["Ann", "Bob", "Duke University"])).valid = true ∧
      ¬ ReadsAsDocumented ["name", "name", "university"] ["=", "=", "="]
        ["Ann", "Bob", "Duke University"] := by
  have hv : (validateFilters (some ["name", "name", "university"]) (some ["=", "=", "="])
      (some ["Ann", "Bob", "Duke University"])).valid = true := by decide
  refine ⟨hv, fun h => ?_⟩
  have hpar := (readsAsDocumented_iff (by decide) (valid_iff.mp hv).2.2).mp h
  exact absurd hpar (by decide)

example : constructQuery (some ["name", "name", "university"]) (some ["=", "=", "="])
    (some ["Ann", "Bob", "Duke University"]) =
      "name:\"Ann\" OR name:\"Bob\" AND (university:\"Duke University\")" := by decide

end Subtle.Search
