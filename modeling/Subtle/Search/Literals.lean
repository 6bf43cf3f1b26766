import Subtle.Search.Query
import Subtle.Lib.Positions
import Mathlib.Data.List.GetD
import Mathlib.Data.List.Perm.Basic

/-!
# The literals of the search query

`constructQuery` takes the filters apart by kind and by field and joins them again.

* `literalOrder`: the positions of a request in the order in which the query has them.
* `literalOrder_perm`: every position is in it once.
* `constructQuery_literals`: **the query has one literal for every position, in this
  order, and is empty only for the empty request**.
-/

namespace Subtle.Search

open Subtle.Lib

/-- The literals of a text, in their order. -/
def literals (ts : List (Token String)) : List String :=
  ts.filterMap fun t => match t with
    | .lit s => some s
    | _ => none

/-- The field at a position. -/
def fieldAt (fields : List String) (i : Nat) : String := fields.getD i "undefined"

/-- The positions with a numeric field, and then those of every string field, the fields in
the order in which they occur first. -/
def literalOrder (fields : List String) : List Nat :=
  let positions := List.range fields.length
  positions.filter (fun i => fieldAt fields i ∈ numericFields) ++
    (fields.filter (· ∈ stringFields)).eraseDups.flatMap fun n =>
      positions.filter fun i => fieldAt fields i = n

example : literalOrder ["name", "birthday", "location", "name"] = [1, 0, 3, 2] := by decide

/-! ### The literals of what is pasted together -/

@[simp] theorem literals_append (ts us : List (Token String)) :
    literals (ts ++ us) = literals ts ++ literals us := List.filterMap_append

theorem literals_or (ts us : List (Token String)) :
    literals (Templates.tokens.or ts us) = literals ts ++ literals us := literals_append ts _

theorem literals_and (ts us : List (Token String)) :
    literals (Templates.tokens.and ts us) = literals ts ++ literals us := by
  have hparens : literals (.op .and :: .lparen :: (us ++ [.rparen])) = literals us := by
    show literals (us ++ [.rparen]) = literals us
    rw [literals_append]
    exact List.append_nil _
  rw [← hparens, ← literals_append]
  rfl

/-- Where the callback keeps the literals of both texts, the fold keeps all literals. -/
theorem literals_reduce {f : List (Token String) → List (Token String) → List (Token String)}
    (hf : ∀ ts us, literals (f ts us) = literals ts ++ literals us)
    (xs : List (List (Token String))) : literals (reduce f [] xs) = xs.flatMap literals := by
  cases xs with
  | nil => rfl
  | cons x xs =>
    rw [reduce, List.flatMap_cons]
    induction xs generalizing x with
    | nil => exact (List.append_nil _).symm
    | cons y ys ih => rw [List.foldl_cons, ih, hf, List.flatMap_cons, List.append_assoc]

theorem literals_orGroup (fs : List Filter) :
    literals (orGroup Templates.tokens fs) = fs.map constructSingleQuery := by
  show literals (reduce _ [] _) = _
  rw [literals_reduce literals_or, List.flatMap_map]
  exact List.map_eq_flatMap.symm

/-- **The literals of the query**: those of the numeric filters and then the groups. -/
theorem literals_constructTokens (fields operators values : List String) :
    literals (constructTokens fields operators values) =
      ((filtersOf fields operators values).filter Filter.numeric ++
        (fieldNames (filtersOf fields operators values)).flatMap
          (onField (filtersOf fields operators values))).map constructSingleQuery := by
  generalize hfs : filtersOf fields operators values = fs
  have hgroups : (orGroups Templates.tokens fs).values.flatMap literals =
      ((fieldNames fs).flatMap (onField fs)).map constructSingleQuery := by
    rw [orGroups, JSMap.values, List.map_map, List.flatMap_map, List.map_flatMap]
    exact congrArg (List.flatMap · _) (funext fun n => literals_orGroup (onField fs n))
  have hnumeric : ((fs.filter Filter.numeric).map Templates.tokens.query).flatMap literals =
      (fs.filter Filter.numeric).map constructSingleQuery := by
    rw [List.flatMap_map]
    exact List.map_eq_flatMap.symm
  rw [constructTokens_eq, literals_reduce literals_and, hfs, conjuncts, List.flatMap_append,
    hnumeric, hgroups, List.map_append]

/-! ### The order of the positions -/

theorem filtersOf_eq (fields operators values : List String) :
    filtersOf fields operators values =
      (List.range fields.length).map (filterAt fields operators values) := rfl

theorem fieldNames_filtersOf (fields operators values : List String) :
    fieldNames (filtersOf fields operators values) =
      (fields.filter (· ∈ stringFields)).eraseDups := by
  have hmap := map_field_filtersOf fields operators values
  rw [fieldNames, ← hmap, List.filter_map, hmap]
  rfl

/-- The query takes the filters in the order of their positions. -/
theorem map_literalOrder (fields operators values : List String) :
    (literalOrder fields).map (filterAt fields operators values) =
      (filtersOf fields operators values).filter Filter.numeric ++
        (fieldNames (filtersOf fields operators values)).flatMap
          (onField (filtersOf fields operators values)) := by
  rw [literalOrder, List.map_append, List.map_flatMap, fieldNames_filtersOf, filtersOf_eq,
    List.filter_map]
  congr 1
  refine congrArg (List.flatMap · _) (funext fun n => ?_)
  rw [onField, List.filter_map]
  rfl

theorem nodup_eraseDups (names : List String) : names.eraseDups.Nodup := by
  induction names using List.reverseRecOn with
  | nil => exact List.nodup_nil
  | append_singleton names name ih =>
    rw [eraseDups_concat]
    split
    · exact ih
    · next hname =>
      refine List.nodup_append'.mpr ⟨ih, List.nodup_singleton name, fun n hn hn' => hname ?_⟩
      rw [List.mem_singleton] at hn'
      exact hn' ▸ List.mem_eraseDups.mp hn

/-- **Every position is in the order once**, if all fields are known. -/
theorem literalOrder_perm {fields : List String}
    (h : ∀ field ∈ fields, field ∈ numericFields ∨ field ∈ stringFields) :
    (literalOrder fields).Perm (List.range fields.length) := by
  have hfield : ∀ i ∈ List.range fields.length, fieldAt fields i ∈ fields := by
    intro i hi
    have hi' := List.mem_range.mp hi
    rw [fieldAt, List.getD_eq_getElem fields _ hi']
    exact List.getElem_mem hi'
  have hdisj : ∀ n ∈ stringFields, n ∉ numericFields := by decide
  have hnodup := nodup_eraseDups (fields.filter (· ∈ stringFields))
  -- the positions that are not numeric, by their fields
  have hgrouped : ((fields.filter (· ∈ stringFields)).eraseDups.flatMap fun n =>
      (List.range fields.length).filter fun i => fieldAt fields i = n).Perm
      ((List.range fields.length).filter fun i => !decide (fieldAt fields i ∈ numericFields)) := by
    refine List.Perm.trans (List.Perm.of_eq ?_) (perm_grouped (fieldAt fields) hnodup ?_)
    · refine List.flatMap_congr fun n hn => ?_
      have hn' := (List.mem_filter.mp (List.mem_eraseDups.mp hn)).2
      rw [List.filter_filter]
      refine List.filter_congr fun i _ => ?_
      by_cases hi : fieldAt fields i = n
      · simp [hi, hdisj n (of_decide_eq_true hn')]
      · simp [hi]
    · intro i hi
      obtain ⟨hi, hnot⟩ := List.mem_filter.mp hi
      have hnum : fieldAt fields i ∉ numericFields := by simpa using hnot
      have hstring := (h _ (hfield i hi)).resolve_left hnum
      exact List.mem_eraseDups.mpr (List.mem_filter.mpr ⟨hfield i hi, decide_eq_true hstring⟩)
  exact (List.Perm.append_left _ hgrouped).trans (List.filter_append_perm _ _)

/-! ### The query -/

theorem constructSingleQuery_ne_empty {f : Filter} (h : validateSingleFilter f = true) :
    constructSingleQuery f ≠ "" := by
  rcases field_of_valid h with hnumeric | ⟨htextual, hop⟩
  · rw [Filter.numeric, decide_eq_true_eq] at hnumeric
    rw [constructSingleQuery, if_pos hnumeric]
    split_ifs <;> simp
  · rcases constructSingleQuery_of_textual htextual hop with hq | hq <;> rw [hq] <;> simp

/-- A text with a literal that is not empty is not empty. -/
theorem render_ne_empty {ts : List (Token String)} {s : String} (hs : s ∈ literals ts)
    (hne : s ≠ "") : render ts ≠ "" := by
  induction ts with
  | nil => exact absurd hs List.not_mem_nil
  | cons t ts ih =>
    intro hempty
    obtain ⟨htoken, hrest⟩ := String.append_eq_empty_iff.mp hempty
    cases t with
    | lit s' =>
      rcases List.mem_cons.mp hs with rfl | hs
      · exact hne htoken
      · exact ih hs hrest
    | op c => exact ih hs hrest
    | lparen => exact ih hs hrest
    | rparen => exact ih hs hrest

/-- **The literals of an accepted request are kept**: the query is the text of tokens whose
literals are those of the positions in their order, every position once, and it is empty
exactly when the lists are. -/
theorem constructQuery_literals {fields operators values : List String}
    (h : (validateFilters (some fields) (some operators) (some values)).valid = true) :
    render (constructTokens fields operators values) =
        constructQuery (some fields) (some operators) (some values) ∧
      literals (constructTokens fields operators values) =
        (literalOrder fields).map
          (fun i => constructSingleQuery (filterAt fields operators values i)) ∧
      (literalOrder fields).Perm (List.range fields.length) ∧
      (constructQuery (some fields) (some operators) (some values) = "" ↔
        fields = [] ∧ operators = [] ∧ values = []) := by
  obtain ⟨hlen, hlen', hvalid⟩ := valid_iff.mp h
  have hliterals := literals_constructTokens fields operators values
  rw [← map_literalOrder, List.map_map] at hliterals
  have hknown : ∀ field ∈ fields, field ∈ numericFields ∨ field ∈ stringFields := by
    intro field hfield
    rw [← map_field_filtersOf fields operators values] at hfield
    obtain ⟨f, hf, rfl⟩ := List.mem_map.mp hfield
    rcases field_of_valid (hvalid f hf) with hn | ⟨ht, -⟩
    · exact Or.inl (of_decide_eq_true hn)
    · exact Or.inr (of_decide_eq_true ht)
  have hperm := literalOrder_perm hknown
  refine ⟨render_constructTokens fields operators values, hliterals, hperm, ?_⟩
  rw [← render_constructTokens]
  constructor
  · intro hempty
    have hnil : fields = [] := by
      by_contra hne
      have h0 : 0 ∈ literalOrder fields :=
        hperm.mem_iff.mpr (List.mem_range.mpr (List.length_pos_of_ne_nil hne))
      have hmem : constructSingleQuery (filterAt fields operators values 0) ∈
          literals (constructTokens fields operators values) :=
        hliterals ▸ List.mem_map_of_mem h0
      refine render_ne_empty hmem (constructSingleQuery_ne_empty (hvalid _ ?_)) hempty
      exact List.mem_map_of_mem (List.mem_range.mpr (List.length_pos_of_ne_nil hne))
    subst hnil
    have hoperators := List.length_eq_zero_iff.mp hlen.symm
    subst hoperators
    exact ⟨rfl, rfl, List.length_eq_zero_iff.mp hlen'.symm⟩
  · rintro ⟨rfl, rfl, rfl⟩
    rfl

theorem constructQuery_literals_example :
    literals (constructTokens ["name", "birthday", "location", "name"] ["=", "<", "!=", "="]
      ["Ann", "7", "Durham", "Bob"]) =
        ["birthdayTimestamp < 7", "name:\"Ann\"", "name:\"Bob\"", "NOT location:\"Durham\""] := by
  have hvalid : (validateFilters (some ["name", "birthday", "location", "name"])
      (some ["=", "<", "!=", "="]) (some ["Ann", "7", "Durham", "Bob"])).valid = true := by
    decide +kernel
  rw [(constructQuery_literals hvalid).2.1]
  decide +kernel

end Subtle.Search
