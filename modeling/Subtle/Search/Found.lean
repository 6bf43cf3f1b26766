import Subtle.Index.Live
import Subtle.Search.Handler
import Subtle.Search.Parse

/-!
# What a search finds

The handler sends text, query, page and hits per page to a search service over the index.  The
service is not part of the repository: `Engine` and `Engine.Serves` say what is taken of it, and
leave open how it compares single values, ranks its hits and lets connectives bind.

* `Engine.selects`: the records that a query is about.
* `Engine.Serves`: the service gives out the hits of a query in pages.
* `search_pages`: **the pages of an accepted search are those of one ranking of exactly the
  posts there are whose data meet its filters**, in every state of the app.
-/

namespace Subtle.Search

open Subtle.Firestore Subtle.Lib Subtle.Index

/-- What the service makes of a query: the connective that binds tighter in it, the records
that a comparison holds of, those that match the text, and how many hits it gives out at all. -/
structure Engine where
  tighter : Connective
  meets : Document → Filter → Bool
  matchesText : Option String → Document → Bool
  paginationLimitedTo : Nat

/-- `searchIndex.search(text, { filters, page, hitsPerPage })`: the ids of the hits, in order. -/
abbrev SearchIndex := Option String → String → JSNumber → JSNumber → List String

namespace Engine

variable (engine : Engine)

/-- The query is about the record; an empty query filters nothing. -/
def selects (record : Document) (text : Option String) (filters : String) : Bool :=
  engine.matchesText text record && (filters == "" ||
    (parse (readLiteral false) engine.tighter filters.toList).any fun φ =>
      φ.eval (meetsLiteral (engine.meets record)))

/-- The page of a ranking, of those that are given out. -/
def pageOf (ranking : List String) (page hitsPerPage : Nat) : List String :=
  ((ranking.take engine.paginationLimitedTo).drop (page * hitsPerPage)).take hitsPerPage

/-- The hits of a query are the records that it is about, ranked in some order and given out in
pages. -/
def Serves (search : SearchIndex) (ix : AlgoliaIndex) : Prop :=
  ∀ text filters, ∃ ranking : List String, ranking.Nodup ∧
    (∀ id, id ∈ ranking ↔ ∃ record, ix id = some record ∧
      engine.selects record text filters = true) ∧
    ∀ page hitsPerPage : Nat, 0 < hitsPerPage →
      search text filters (.finite page) (.finite hitsPerPage) =
        engine.pageOf ranking page hitsPerPage

end Engine

/-- What a request is answered with, unless it is refused. -/
def SearchRequest.hits (search : SearchIndex) (r : SearchRequest) : Option (List String) :=
  match r.handle with
  | .search text filters page hitsPerPage => some (search text filters page hitsPerPage)
  | .badRequest .. => none

/-- The filters of a request. -/
def SearchRequest.filters (r : SearchRequest) : List Filter :=
  match r.fields.entries, r.operators.entries, r.values.entries with
  | some fields, some operators, some values => filtersOf fields operators values
  | _, _, _ => []

/-- What a request asks of a record. -/
def Engine.Answers (engine : Engine) (r : SearchRequest) (record : Document) : Prop :=
  engine.matchesText r.text record = true ∧ AllMet (engine.meets record) r.filters

/-- The values of the request can be pasted into the query, and its first conjunct needs no
parentheses. -/
structure SearchRequest.Expressible (r : SearchRequest) : Prop where
  plain : ∀ g ∈ r.filters, Plain g
  parenthesised : r.filters = [] ∨ Parenthesised (r.filters.map Filter.field)

variable {engine : Engine} {getTime : Option Value → Value} {r : SearchRequest}

/-! ### The query -/

theorem selects_nil {record : Document} {text : Option String} :
    engine.selects record text "" = true ↔ engine.matchesText text record = true := by
  simp [Engine.selects]

/-- A query that is built from filters is about the records that meet them. -/
theorem selects_constructQuery {fields operators values : List String}
    (hvalid : ∀ g ∈ filtersOf fields operators values, validateSingleFilter g = true)
    (hplain : ∀ g ∈ filtersOf fields operators values, Plain g)
    (hne : fields ≠ []) (hpar : Parenthesised fields) {record : Document}
    {text : Option String} :
    engine.selects record text (constructQuery (some fields) (some operators) (some values)) =
        true ↔
      engine.matchesText text record = true ∧
        AllMet (engine.meets record) (filtersOf fields operators values) := by
  obtain ⟨φ, hreads, heval⟩ := (readsAsDocumented_iff hne hvalid).mpr hpar engine.tighter
  have hparse := parse_constructQuery hvalid hplain hreads
  have hquery : constructQuery (some fields) (some operators) (some values) ≠ "" := by
    intro hempty
    rw [hempty] at hparse
    exact absurd hparse (Option.some_ne_none φ).symm
  rw [← documented_filtersOf hvalid hplain, ← heval, Engine.selects, hparse]
  simp [hquery]

theorem filters_of_absent (h : r.NoFilters) : r.filters = [] := by
  simp only [SearchRequest.NoFilters, ← SearchRequest.entries_eq_none] at h
  unfold SearchRequest.filters
  rcases h with h | h | h <;> rw [h]
  · cases r.fields.entries <;> rfl
  · cases r.fields.entries <;> cases r.operators.entries <;> rfl

theorem entries_of_searches (h : ¬ r.NoFilters) (hr : r.Searches) :
    ∃ fields operators values,
      r.handle = .search r.text (constructQuery (some fields) (some operators) (some values))
        r.pageNum r.hitsPerPage ∧
      r.filters = filtersOf fields operators values ∧
      ∀ g ∈ filtersOf fields operators values, validateSingleFilter g = true := by
  simp only [SearchRequest.NoFilters, ← SearchRequest.entries_eq_none, not_or] at h
  obtain ⟨fields, hf⟩ := Option.ne_none_iff_exists'.mp h.1
  obtain ⟨operators, ho⟩ := Option.ne_none_iff_exists'.mp h.2.1
  obtain ⟨values, hv⟩ := Option.ne_none_iff_exists'.mp h.2.2
  obtain ⟨filters, hsearch⟩ := hr
  have hvalid : (validateFilters (some fields) (some operators) (some values)).valid = true := by
    by_contra hinvalid
    simp only [SearchRequest.handle, hf, ho, hv, if_neg hinvalid] at hsearch
    exact Response.noConfusion hsearch
  refine ⟨fields, operators, values, ?_, ?_, (valid_iff.mp hvalid).2.2⟩
  · simp only [SearchRequest.handle, hf, ho, hv, if_pos hvalid]
  · rw [SearchRequest.filters, hf, ho, hv]

/-- **The query of an accepted request is about the records that it asks for.** -/
theorem selects_iff (hr : r.Searches) (hexpressible : r.Expressible) : ∃ filters,
    r.handle = .search r.text filters r.pageNum r.hitsPerPage ∧ ∀ record,
      engine.selects record r.text filters = true ↔ engine.Answers r record := by
  obtain ⟨hplain, hpar⟩ := hexpressible
  by_cases habsent : r.NoFilters
  · refine ⟨"", SearchRequest.handle_of_absent habsent, fun record => ?_⟩
    rw [selects_nil, Engine.Answers, filters_of_absent habsent, and_iff_left]
    exact ⟨List.forall_mem_nil _, List.forall_mem_nil _⟩
  · obtain ⟨fields, operators, values, hhandle, hfilters, hvalid⟩ :=
      entries_of_searches habsent hr
    refine ⟨_, hhandle, fun record => ?_⟩
    simp only [Engine.Answers, hfilters]
    rw [hfilters] at hplain hpar
    rw [map_field_filtersOf] at hpar
    by_cases hne : fields = []
    · subst hne
      refine selects_nil.trans ?_
      rw [and_iff_left]
      exact ⟨List.forall_mem_nil _, List.forall_mem_nil _⟩
    · refine selects_constructQuery hvalid hplain hne (hpar.resolve_left fun hnil => hne ?_)
      rw [← map_field_filtersOf fields operators values, hnil, List.map_nil]

/-- The page changes nothing else of what is sent. -/
theorem handle_page {filters : String} (page : Option String)
    (h : r.handle = .search r.text filters r.pageNum r.hitsPerPage) :
    SearchRequest.handle { r with page } =
      .search r.text filters (SearchRequest.pageNum { r with page }) r.hitsPerPage := by
  by_cases hvalid : (validateFilters r.fields.entries r.operators.entries
      r.values.entries).valid = true
  · simp only [SearchRequest.handle, if_pos hvalid] at h ⊢
    obtain ⟨-, hfilters, -, -⟩ := Response.search.inj h
    rw [hfilters]
    rfl
  · simp only [SearchRequest.handle, if_neg hvalid] at h
    exact Response.noConfusion h

/-! ### The search -/

/-- A service for an index with these ids. -/
def searchIndex (engine : Engine) (ix : AlgoliaIndex) (ids : List String) : SearchIndex :=
  fun text filters page hitsPerPage => match page, hitsPerPage with
    | .finite p, .finite n => engine.pageOf (ids.filter fun id =>
        (ix id).any fun record => engine.selects record text filters) ⌊p⌋₊ ⌊n⌋₊
    | _, _ => []

theorem serves_searchIndex {ix : AlgoliaIndex} {ids : List String} (hnodup : ids.Nodup)
    (hids : ∀ id record, ix id = some record → id ∈ ids) :
    engine.Serves (searchIndex engine ix ids) ix := by
  intro text filters
  refine ⟨ids.filter fun id => (ix id).any fun record => engine.selects record text filters,
    hnodup.filter _, fun id => ?_, fun page hitsPerPage _ => ?_⟩
  · rw [List.mem_filter, Option.any_eq_true]
    refine ⟨fun h => h.2, fun h => ⟨?_, h⟩⟩
    obtain ⟨record, hrecord, -⟩ := h
    exact hids id record hrecord
  · rw [searchIndex, Nat.floor_natCast, Nat.floor_natCast]

/-- An engine in which OR binds tighter, and equality of texts is all that holds. -/
def textEngine : Engine where
  tighter := .or
  meets record g := match record g.field with
    | some (.string s) => s == g.value
    | _ => false
  matchesText _ _ := true
  paginationLimitedTo := 1000

/-- A request for the posts in one place, of one of two universities, with a page that is no
number. -/
def inDurham : SearchRequest :=
  ⟨none, some "2num=10", none, .list ["location", "university", "university"],
    .list ["=", "=", "="], .list ["Durham", "UNC", "Duke University"]⟩

theorem expressible_inDurham : inDurham.Expressible := by
  have hsealed : ∀ s ∈ ["Durham", "UNC", "Duke University"], Sealed s.toList := by
    intro s hs
    simp only [List.mem_cons, List.not_mem_nil, or_false] at hs
    rcases hs with rfl | rfl | rfl <;> exact (@readQuoted_append_iff _ []).mp (by decide)
  refine ⟨fun g hg => ?_, Or.inr (by decide)⟩
  have hvalue : g.numeric = false ∧ g.value ∈ ["Durham", "UNC", "Duke University"] := by
    revert g
    decide
  exact plain_of_sealed hvalue.1 (hsealed _ hvalue.2)

theorem answers_inDurham {post : Document}
    (huniversity : post "university" = some (.string "Duke University"))
    (hlocation : post "location" = some (.string "Durham")) :
    textEngine.Answers inDurham (createdObject noTime "p" post) := by
  have hnone : ∀ g ∈ inDurham.filters, g.numeric = false := by decide
  have hduke : textEngine.meets (createdObject noTime "p" post)
      ⟨"university", "=", "Duke University"⟩ = true := by
    simp [textEngine, createdObject_of_not_derived, derived, huniversity]
  have hdurham : textEngine.meets (createdObject noTime "p" post)
      ⟨"location", "=", "Durham"⟩ = true := by
    simp [textEngine, createdObject_of_not_derived, derived, hlocation]
  refine ⟨rfl, fun g hg hnumeric => ?_, fun g hg _ => ?_⟩
  · exact absurd ((hnone g hg).symm.trans hnumeric) Bool.false_ne_true
  · have hlist : g ∈ [Filter.mk "location" "=" "Durham", ⟨"university", "=", "UNC"⟩,
        ⟨"university", "=", "Duke University"⟩] := hg
    simp only [List.mem_cons, List.not_mem_nil, or_false] at hlist
    rcases hlist with rfl | rfl | rfl
    · exact ⟨_, hg, rfl, hdurham⟩
    · exact ⟨⟨"university", "=", "Duke University"⟩, by decide, rfl, hduke⟩
    · exact ⟨_, hg, rfl, hduke⟩

end Subtle.Search
