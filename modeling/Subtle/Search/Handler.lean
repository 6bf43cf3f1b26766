import Subtle.Search.Query

/-!
# The search request

The handler of `functions/src/index.ts`.  Each of the three filter parameters of a
request is absent, a single string or a list of strings; a single string counts as a
list of one.  The filters are validated, and the request is answered with status 400 or
goes on to the search engine.

A request in which one of the three parameters is absent is taken to have no filters,
whatever the other two are: `validateFilters` and `constructQuery` both say so.

* `handle_of_absent`: such a request searches without a filter.
* `handle_of_present`: the three parameters are there.
* `searches_iff`: **which requests go on to search; every other one is answered 400**.
-/

namespace Subtle.Search

/-- A query parameter. -/
inductive QueryParam where
  | absent
  | single (s : String)
  | list (ss : List String)
  deriving DecidableEq

/-- The list that the handler makes of a filter parameter. -/
def QueryParam.entries : QueryParam → Option (List String)
  | absent => none
  | single s => some [s]
  | list ss => some ss

structure SearchRequest where
  text : Option String
  page : Option String
  num : Option String
  fields : QueryParam
  operators : QueryParam
  values : QueryParam

/-- A status 400 with its body, or a search. -/
inductive Response where
  | badRequest (fields operators values : Option (List String)) (message : String)
  | search (text : Option String) (filters : String) (page hitsPerPage : JSNumber)
  deriving DecidableEq

/-- `Number(param) || default`; an absent parameter converts to `NaN`. -/
def numberOr (param : Option String) (default : JSNumber) : JSNumber :=
  match param.map Number with
  | none | some .nan => default
  | some n => if n = .finite 0 then default else n

namespace SearchRequest

def pageNum (r : SearchRequest) : JSNumber := numberOr r.page (.finite 0)

def hitsPerPage (r : SearchRequest) : JSNumber := numberOr r.num (.finite 5)

def handle (r : SearchRequest) : Response :=
  let fields := r.fields.entries
  let operators := r.operators.entries
  let values := r.values.entries
  let result := validateFilters fields operators values
  if result.valid then
    .search r.text (constructQuery fields operators values) r.pageNum r.hitsPerPage
  else .badRequest fields operators values result.message

/-- One of the filter parameters is absent. -/
def NoFilters (r : SearchRequest) : Prop :=
  r.fields = .absent ∨ r.operators = .absent ∨ r.values = .absent

/-- The three filter parameters have equally many entries, and each position is a filter
that is accepted. -/
def WellFormed (r : SearchRequest) : Prop :=
  ∃ fields operators values, r.fields.entries = some fields ∧
    r.operators.entries = some operators ∧ r.values.entries = some values ∧
    fields.length = operators.length ∧ operators.length = values.length ∧
    ∀ (i : Nat) field operator value, fields[i]? = some field → operators[i]? = some operator →
      values[i]? = some value → validateSingleFilter ⟨field, operator, value⟩ = true

/-- The request goes on to search. -/
def Searches (r : SearchRequest) : Prop :=
  ∃ filters, r.handle = .search r.text filters r.pageNum r.hitsPerPage

variable {r : SearchRequest}

theorem entries_eq_none {p : QueryParam} : p.entries = none ↔ p = .absent := by
  cases p <;> simp [QueryParam.entries]

/-- **A request that lacks a filter parameter searches without a filter.** -/
theorem handle_of_absent (h : r.NoFilters) :
    r.handle = .search r.text "" r.pageNum r.hitsPerPage := by
  unfold handle
  simp only [NoFilters, ← entries_eq_none] at h
  cases hf : r.fields.entries with
  | none => rfl
  | some fields =>
    cases ho : r.operators.entries with
    | none => rfl
    | some operators =>
      cases hv : r.values.entries with
      | none => rfl
      | some values => simp [hf, ho, hv] at h

theorem forall_filtersOf_iff {fields operators values : List String}
    (ho : fields.length = operators.length) (hv : operators.length = values.length) :
    (∀ f ∈ filtersOf fields operators values, validateSingleFilter f = true) ↔
      ∀ (i : Nat) field operator value, fields[i]? = some field →
        operators[i]? = some operator → values[i]? = some value →
          validateSingleFilter ⟨field, operator, value⟩ = true := by
  have hat : ∀ {i field operator value}, fields[i]? = some field →
      operators[i]? = some operator → values[i]? = some value →
        filterAt fields operators values i = ⟨field, operator, value⟩ := by
    intro i field operator value hfi hoi hvi
    simp only [filterAt, List.getD_eq_getElem?_getD, hfi, hoi, hvi, Option.getD_some]
  constructor
  · intro h i field operator value hfi hoi hvi
    rw [← hat hfi hoi hvi]
    obtain ⟨hlt, -⟩ := List.getElem?_eq_some_iff.mp hfi
    exact h _ (List.mem_map_of_mem (List.mem_range.mpr hlt))
  · intro h f hf
    obtain ⟨i, hi, rfl⟩ := List.mem_map.mp hf
    have hlt : i < fields.length := List.mem_range.mp hi
    obtain ⟨field, hfi⟩ : ∃ field, fields[i]? = some field := ⟨_, List.getElem?_eq_getElem hlt⟩
    obtain ⟨operator, hoi⟩ : ∃ operator, operators[i]? = some operator :=
      ⟨_, List.getElem?_eq_getElem (by omega)⟩
    obtain ⟨value, hvi⟩ : ∃ value, values[i]? = some value :=
      ⟨_, List.getElem?_eq_getElem (by omega)⟩
    rw [hat hfi hoi hvi]
    exact h i field operator value hfi hoi hvi

/-- A request that has the three filter parameters. -/
theorem handle_of_present (h : ¬ r.NoFilters) :
    (r.WellFormed → r.Searches) ∧
      (¬ r.WellFormed → ∃ message, r.handle =
        .badRequest r.fields.entries r.operators.entries r.values.entries message) := by
  simp only [NoFilters, ← entries_eq_none, not_or] at h
  obtain ⟨fields, hf⟩ := Option.ne_none_iff_exists'.mp h.1
  obtain ⟨operators, ho⟩ := Option.ne_none_iff_exists'.mp h.2.1
  obtain ⟨values, hv⟩ := Option.ne_none_iff_exists'.mp h.2.2
  have hvalid : (validateFilters (some fields) (some operators) (some values)).valid = true ↔
      r.WellFormed := by
    rw [valid_iff]
    constructor
    · rintro ⟨hfo, hov, hall⟩
      exact ⟨fields, operators, values, hf, ho, hv, hfo, hov,
        (forall_filtersOf_iff hfo hov).mp hall⟩
    · rintro ⟨fields', operators', values', hf', ho', hv', hfo, hov, hall⟩
      obtain rfl := Option.some.inj (hf.symm.trans hf')
      obtain rfl := Option.some.inj (ho.symm.trans ho')
      obtain rfl := Option.some.inj (hv.symm.trans hv')
      exact ⟨hfo, hov, (forall_filtersOf_iff hfo hov).mpr hall⟩
  simp only [Searches, handle, hf, ho, hv]
  refine ⟨fun hwell => ⟨_, if_pos (hvalid.mpr hwell)⟩, fun hnot => ⟨_, if_neg ?_⟩⟩
  exact fun htrue => hnot (hvalid.mp htrue)

/-- **Which requests go on to search**: those that lack a filter parameter, without a
filter then, and the well-formed ones; every other one is answered 400. -/
theorem searches_iff (r : SearchRequest) :
    (r.Searches ↔ r.NoFilters ∨ r.WellFormed) ∧
    (r.NoFilters → r.handle = .search r.text "" r.pageNum r.hitsPerPage) ∧
    (¬ r.Searches → ∃ message, r.handle =
      .badRequest r.fields.entries r.operators.entries r.values.entries message) := by
  have hbad : ¬ (r.NoFilters ∨ r.WellFormed) → ∃ message, r.handle =
      .badRequest r.fields.entries r.operators.entries r.values.entries message := fun hnot =>
    (handle_of_present (not_or.mp hnot).1).2 (not_or.mp hnot).2
  have hiff : r.Searches ↔ r.NoFilters ∨ r.WellFormed := by
    constructor
    · rintro ⟨filters, hsearch⟩
      by_contra hnot
      obtain ⟨message, hmessage⟩ := hbad hnot
      exact Response.noConfusion (hsearch.symm.trans hmessage)
    · rintro (habsent | hwell)
      · exact ⟨"", handle_of_absent habsent⟩
      · by_cases habsent : r.NoFilters
        · exact ⟨"", handle_of_absent habsent⟩
        · exact (handle_of_present habsent).1 hwell
  exact ⟨hiff, handle_of_absent, fun hnot => hbad fun h => hnot (hiff.mpr h)⟩

/-- Fields are given, and no operators and no values: the request searches all posts. -/
theorem fields_ignored : ¬ ∀ r : SearchRequest, r.Searches ↔
    (r.fields = .absent ∧ r.operators = .absent ∧ r.values = .absent) ∨ r.WellFormed := by
  intro h
  rcases (h ⟨none, none, none, .single "name", .absent, .absent⟩).mp ⟨"", rfl⟩ with
    ⟨hfields, -⟩ | ⟨fields, operators, values, -, hoperators, -⟩
  · exact QueryParam.noConfusion hfields
  · exact Option.some_ne_none operators hoperators.symm

end SearchRequest

end Subtle.Search
