import Subtle.Search.Number

/-!
# Search filters

The filter part of `functions/src/utils.ts`.  A request's filters arrive as three
lists, of fields, operators and values; position `i` of the three is one
`Filter`.

* `validateSingleFilter`, `validateFilters`: which filters the search accepts.
* `constructSingleQuery`: the text of one filter.
* `valid_iff`: acceptance is acceptance of every position of lists of one
  length.
* `field_of_constructSingleQuery`: **the text of a string filter determines
  its field**.
-/

namespace Subtle.Search

def numericOperators : List String := ["<", ">", ">=", "<=", "=", "!="]
def stringOperators : List String := ["=", "!="]

def numericFields : List String := ["birthday", "creationDate"]
def stringFields : List String := ["location", "name", "university"]

structure ValidationResult where
  valid : Bool
  message : String
  deriving DecidableEq, Repr

/-- One filter: the entries of the three lists at one position. -/
structure Filter where
  field : String
  operator : String
  value : String
  deriving DecidableEq, Repr

namespace Filter

/-- The filter is on a numeric field. -/
def numeric (f : Filter) : Bool := f.field ∈ numericFields

/-- The filter is on a string field. -/
def textual (f : Filter) : Bool := f.field ∈ stringFields

theorem textual_of_not_numeric_field {f : Filter} (h : f.textual = true) : f.numeric = false := by
  simp only [textual, stringFields, List.mem_cons, List.not_mem_nil, or_false,
    decide_eq_true_eq] at h
  rcases h with h | h | h <;> simp only [numeric, h] <;> decide

end Filter

/-- The entries at position `i`; a missing one prints as JavaScript's `undefined`. -/
def filterAt (fields operators values : List String) (i : Nat) : Filter where
  field := fields.getD i "undefined"
  operator := operators.getD i "undefined"
  value := values.getD i "undefined"

/-- The filters of a request, one for each position of `fields`. -/
def filtersOf (fields operators values : List String) : List Filter :=
  (List.range fields.length).map (filterAt fields operators values)

def validateSingleFilter (f : Filter) : Bool :=
  if f.field ∈ numericFields then f.operator ∈ numericOperators && !isNaN (Number f.value)
  else if f.field ∈ stringFields then f.operator ∈ stringOperators
  else false

/-- An absent parameter is `none`. -/
def validateFilters : Option (List String) → Option (List String) → Option (List String) →
    ValidationResult
  | some fields, some operators, some values =>
      let f := fields.length
      let o := operators.length
      let v := values.length
      if f ≠ o ∨ o ≠ v ∨ f ≠ v then
        ⟨false, "The number of fields, operators, and values do not match"⟩
      else
        -- the loop returns at the first position that fails
        match (filtersOf fields operators values).find? fun x => !validateSingleFilter x with
        | some x => ⟨false, x.field ++ " " ++ x.operator ++ " " ++ x.value ++ " is not valid"⟩
        | none => ⟨true, "valid filter combinations"⟩
  | _, _, _ => ⟨true, "There are no filters"⟩

def constructSingleQuery (f : Filter) : String :=
  if f.field ∈ numericFields then
    if f.field = "birthday" then "birthdayTimestamp " ++ f.operator ++ " " ++ f.value
    else if f.field = "creationDate" then "creationTimestamp " ++ f.operator ++ " " ++ f.value
    else f.field ++ " " ++ f.operator ++ " " ++ f.value
  else if f.field ∈ stringFields then
    if f.operator = "=" then f.field ++ ":\"" ++ f.value ++ "\""
    else if f.operator = "!=" then "NOT " ++ f.field ++ ":\"" ++ f.value ++ "\""
    else ""
  else ""

/-! ### Acceptance -/

theorem valid_iff {fields operators values : List String} :
    (validateFilters (some fields) (some operators) (some values)).valid = true ↔
      fields.length = operators.length ∧ operators.length = values.length ∧
        ∀ f ∈ filtersOf fields operators values, validateSingleFilter f = true := by
  simp only [validateFilters]
  split_ifs with h
  · refine iff_of_false not_false ?_
    rintro ⟨h₁, h₂, -⟩
    rcases h with h | h | h
    · exact h h₁
    · exact h h₂
    · exact h (h₁.trans h₂)
  · simp only [not_or, not_not] at h
    cases hf : (filtersOf fields operators values).find? fun x => !validateSingleFilter x with
    | none =>
      simp only [List.find?_eq_none, Bool.not_eq_true', Bool.not_eq_false] at hf
      exact iff_of_true rfl ⟨h.1, h.2.1, hf⟩
    | some x =>
      refine iff_of_false Bool.false_ne_true ?_
      rintro ⟨-, -, hall⟩
      have hx := hall x (List.mem_of_find?_eq_some hf)
      have hnot := List.find?_some hf
      simp [hx] at hnot

/-- An accepted filter is on a known field, and a string field takes only `=` and `!=`. -/
theorem field_of_valid {f : Filter} (h : validateSingleFilter f = true) :
    f.numeric = true ∨ f.textual = true ∧ (f.operator = "=" ∨ f.operator = "!=") := by
  unfold validateSingleFilter at h
  split_ifs at h with h₁ h₂
  · exact Or.inl (decide_eq_true h₁)
  · refine Or.inr ⟨decide_eq_true h₂, ?_⟩
    simpa [stringOperators] using h

theorem textual_of_valid {f : Filter} (h : validateSingleFilter f = true)
    (hn : f.numeric = false) : f.textual = true := by
  rcases field_of_valid h with h' | h'
  · rw [hn] at h'; exact absurd h' Bool.false_ne_true
  · exact h'.1

theorem map_field_filtersOf (fields operators values : List String) :
    (filtersOf fields operators values).map Filter.field = fields := by
  rw [filtersOf, List.map_map]
  apply List.ext_getElem (by simp)
  intro i h₁ h₂
  simp [filterAt, h₂]

/-! ### The text of one filter -/

theorem constructSingleQuery_of_textual {f : Filter} (h : f.textual = true)
    (hop : f.operator = "=" ∨ f.operator = "!=") :
    constructSingleQuery f = f.field ++ ":\"" ++ f.value ++ "\"" ∨
      constructSingleQuery f = "NOT " ++ f.field ++ ":\"" ++ f.value ++ "\"" := by
  have hn := Filter.textual_of_not_numeric_field h
  rw [Filter.numeric, decide_eq_false_iff_not] at hn
  rw [Filter.textual, decide_eq_true_eq] at h
  rw [constructSingleQuery, if_neg hn, if_pos h]
  rcases hop with hop | hop
  · rw [if_pos hop]; exact Or.inl rfl
  · rw [hop, if_neg (by decide), if_pos rfl]; exact Or.inr rfl

/-- The letter that tells the string fields apart: the first, or the fifth after
`NOT `. -/
def fieldLetter (text : String) : Option Char :=
  if text.toList.head? = some 'N' then text.toList[4]? else text.toList.head?

theorem fieldLetter_constructSingleQuery {f : Filter} (h : f.textual = true)
    (hop : f.operator = "=" ∨ f.operator = "!=") :
    fieldLetter (constructSingleQuery f) = f.field.toList.head? := by
  have hf : f.field = "location" ∨ f.field = "name" ∨ f.field = "university" := by
    simpa [Filter.textual, stringFields] using h
  rcases constructSingleQuery_of_textual h hop with hq | hq <;> rw [hq] <;>
    rcases hf with hf | hf | hf <;> rw [hf] <;> simp [fieldLetter]

/-- **The text of a string filter determines its field.** -/
theorem field_of_constructSingleQuery {f g : Filter} (hf : validateSingleFilter f = true)
    (hg : validateSingleFilter g = true) (hft : f.textual = true) (hgt : g.textual = true)
    (h : constructSingleQuery f = constructSingleQuery g) : f.field = g.field := by
  have op_of : ∀ x : Filter, validateSingleFilter x = true → x.textual = true →
      x.operator = "=" ∨ x.operator = "!=" := by
    intro x hx hxt
    rcases field_of_valid hx with hn | hn
    · rw [Filter.textual_of_not_numeric_field hxt] at hn
      exact absurd hn Bool.false_ne_true
    · exact hn.2
  have hl : f.field.toList.head? = g.field.toList.head? := by
    rw [← fieldLetter_constructSingleQuery hft (op_of f hf hft), h,
      fieldLetter_constructSingleQuery hgt (op_of g hg hgt)]
  simp only [Filter.textual, stringFields, List.mem_cons, List.not_mem_nil, or_false,
    decide_eq_true_eq] at hft hgt
  rcases hft with hft | hft | hft <;> rcases hgt with hgt | hgt | hgt <;> rw [hft, hgt] at hl ⊢ <;>
    simp at hl

end Subtle.Search
