import Subtle.Search.Filter
import Subtle.Lib.Formula
import Mathlib.Data.List.Induction

/-!
# The search query

`constructQuery` of `functions/src/utils.ts`.  One loop over the filters collects
the texts of the numeric filters in a list and, in a map by field, the texts of
the string filters joined with OR; two `reduce` calls then join what was
collected with AND.

The function only pastes texts together, with three templates.  It is written
once over the `Templates` and used twice: at `Templates.text` it is the source's
function, and at `Templates.tokens` it keeps every text of
`constructSingleQuery` as one opaque literal.

* `constructQueryWith_eq`: the result is one left fold of AND over the numeric
  texts and then the OR groups, in order of each field's first occurrence.
* `render_constructTokens`: **printing the tokens gives the query**.
-/

namespace Subtle.Search

open Subtle.Lib

/-! ### Insertion-ordered maps -/

/-- A JavaScript `Map` with string keys, in insertion order. -/
abbrev JSMap (τ : Type*) := List (String × τ)

namespace JSMap

variable {τ : Type*}

def has (m : JSMap τ) (k : String) : Bool := m.any fun e => e.1 = k

def get (m : JSMap τ) (k : String) : Option τ := (m.find? fun e => e.1 = k).map Prod.snd

/-- A key that is there keeps its place. -/
def set (m : JSMap τ) (k : String) (v : τ) : JSMap τ :=
  if has m k then m.map fun e => if e.1 = k then (k, v) else e else m ++ [(k, v)]

def values (m : JSMap τ) : List τ := m.map Prod.snd

variable {ks : List String} {g : String → τ} {k : String}

theorem has_map : has (ks.map fun n => (n, g n)) k = decide (k ∈ ks) := by
  rw [has, List.any_map, Bool.eq_iff_iff, List.any_eq_true, decide_eq_true_eq]
  constructor
  · rintro ⟨n, hn, h⟩
    exact of_decide_eq_true h ▸ hn
  · intro h
    exact ⟨k, h, decide_eq_true rfl⟩

theorem get_map (h : k ∈ ks) : get (ks.map fun n => (n, g n)) k = some (g k) := by
  induction ks with
  | nil => exact absurd h List.not_mem_nil
  | cons n ks ih =>
    by_cases hn : n = k
    · subst hn; simp [get]
    · have hk : k ∈ ks := (List.mem_cons.mp h).resolve_left (Ne.symm hn)
      rw [← ih hk]
      simp [get, hn]

theorem set_map_of_mem (h : k ∈ ks) (v : τ) : set (ks.map fun n => (n, g n)) k v =
    ks.map fun n => (n, if n = k then v else g n) := by
  rw [set, has_map, if_pos (decide_eq_true h), List.map_map]
  refine List.map_congr_left fun n _ => ?_
  by_cases hn : n = k <;> simp [hn]

theorem set_map_of_not_mem (h : k ∉ ks) (v : τ) : set (ks.map fun n => (n, g n)) k v =
    (ks.map fun n => (n, g n)) ++ [(k, v)] := by
  rw [set, has_map, if_neg (by simpa using h)]

end JSMap

/-! ### The function -/

/-- How `constructQuery` pastes texts together. -/
structure Templates (τ : Type*) where
  /-- `constructSingleQuery(field, operator, value)` -/
  query : Filter → τ
  /-- `${prevQuery} OR ${query}` -/
  or : τ → τ → τ
  /-- `${previousValue} AND (${currentValue})` -/
  and : τ → τ → τ
  /-- the empty string, and the comparison with it -/
  empty : τ
  isEmpty : τ → Bool

/-- What the loop has collected. -/
structure Queries (τ : Type*) where
  numericQueries : List τ
  stringQueryMap : JSMap τ

variable {τ : Type*} (T : Templates τ)

/-- One round of the loop. -/
def addFilter (s : Queries τ) (f : Filter) : Queries τ :=
  let query := T.query f
  let s := if f.field ∈ numericFields then
      { s with numericQueries := s.numericQueries ++ [query] } else s
  if f.field ∈ stringFields then
    if s.stringQueryMap.has f.field then
      let prevQuery := (s.stringQueryMap.get f.field).getD T.empty
      let newQuery := T.or prevQuery query
      { s with stringQueryMap := s.stringQueryMap.set f.field newQuery }
    else { s with stringQueryMap := s.stringQueryMap.set f.field query }
  else s

/-- `Array.prototype.reduce` without an initial value, on a list that the caller
has checked is not empty. -/
def reduce (callback : τ → τ → τ) (default : τ) : List τ → τ
  | [] => default
  | x :: xs => xs.foldl callback x

/-- The two `reduce` calls after the loop. -/
def joinQueries (s : Queries τ) : τ :=
  let stringQueries := s.stringQueryMap.values
  let finalQuery :=
    if s.numericQueries.length > 0 then reduce T.and T.empty s.numericQueries else T.empty
  if stringQueries.length > 0 then
    if T.isEmpty finalQuery then reduce T.and T.empty stringQueries
    else stringQueries.foldl T.and finalQuery
  else finalQuery

def constructQueryWith (fs : List Filter) : τ :=
  joinQueries T (fs.foldl (addFilter T) ⟨[], []⟩)

/-- The templates as the source writes them. -/
def Templates.text : Templates String where
  query := constructSingleQuery
  or prevQuery query := prevQuery ++ " OR " ++ query
  and previousValue currentValue := previousValue ++ " AND (" ++ currentValue ++ ")"
  empty := ""
  isEmpty := (· == "")

def constructQuery : Option (List String) → Option (List String) → Option (List String) → String
  | some fields, some operators, some values =>
      constructQueryWith Templates.text (filtersOf fields operators values)
  | _, _, _ => ""

/-! ### What the loop collects -/

/-- The string fields that occur, in order of first occurrence. -/
def fieldNames (fs : List Filter) : List String :=
  ((fs.filter Filter.textual).map Filter.field).eraseDups

/-- The filters on one field. -/
def onField (fs : List Filter) (n : String) : List Filter := fs.filter fun f => f.field = n

/-- Filters joined with OR. -/
def orGroup (fs : List Filter) : τ := reduce T.or T.empty (fs.map T.query)

theorem mem_fieldNames {fs : List Filter} {n : String} :
    n ∈ fieldNames fs ↔ ∃ f ∈ fs, f.textual = true ∧ f.field = n := by
  simp only [fieldNames, List.mem_eraseDups, List.mem_map, List.mem_filter, and_assoc]

theorem eraseDups_concat (l : List String) (a : String) :
    (l ++ [a]).eraseDups = if a ∈ l then l.eraseDups else l.eraseDups ++ [a] := by
  rw [List.eraseDups_append]
  by_cases h : a ∈ l
  · simp [List.removeAll, h]
  · rw [if_neg h, List.removeAll, List.filter_cons_of_pos (by simpa using h)]
    rfl

theorem fieldNames_concat (fs : List Filter) (f : Filter) : fieldNames (fs ++ [f]) =
    if f.textual = true ∧ f.field ∉ fieldNames fs then fieldNames fs ++ [f.field]
    else fieldNames fs := by
  rw [fieldNames, List.filter_append, List.map_append]
  cases ht : f.textual with
  | false => simp [List.filter, ht, fieldNames]
  | true =>
    simp only [List.filter_cons, ht, if_true, List.filter_nil, List.map_cons, List.map_nil,
      true_and]
    rw [eraseDups_concat, ite_not]
    simp only [fieldNames, List.mem_eraseDups]

theorem onField_concat (fs : List Filter) (f : Filter) (n : String) :
    onField (fs ++ [f]) n = if f.field = n then onField fs n ++ [f] else onField fs n := by
  rw [onField, List.filter_append]
  by_cases h : f.field = n <;> simp [List.filter, h, onField]

theorem orGroup_concat {fs : List Filter} (h : fs ≠ []) (f : Filter) :
    orGroup T (fs ++ [f]) = T.or (orGroup T fs) (T.query f) := by
  cases fs with
  | nil => exact absurd rfl h
  | cons g gs => simp [orGroup, reduce]

theorem onField_ne_nil {fs : List Filter} {n : String} (h : n ∈ fieldNames fs) :
    onField fs n ≠ [] := by
  obtain ⟨f, hf, -, hn⟩ := mem_fieldNames.mp h
  exact List.ne_nil_of_mem (List.mem_filter.mpr ⟨hf, decide_eq_true hn⟩)

/-- The OR groups by field. -/
def orGroups (fs : List Filter) : JSMap τ :=
  (fieldNames fs).map fun n => (n, orGroup T (onField fs n))

theorem orGroups_concat_of_not_textual {fs : List Filter} {f : Filter} (h : f.textual = false) :
    orGroups T (fs ++ [f]) = orGroups T fs := by
  rw [orGroups, fieldNames_concat, if_neg (fun h' => Bool.false_ne_true (h.symm.trans h'.1))]
  refine List.map_congr_left fun n hn => ?_
  rw [onField_concat, if_neg]
  rintro rfl
  obtain ⟨g, -, hg, hgf⟩ := mem_fieldNames.mp hn
  rw [Filter.textual, hgf, ← Filter.textual, h] at hg
  exact Bool.false_ne_true hg

/-- A string filter opens a group for its field, or joins the one that is there. -/
theorem orGroups_concat_of_textual {fs : List Filter} {f : Filter} (h : f.textual = true) :
    orGroups T (fs ++ [f]) =
      if (orGroups T fs).has f.field then
        (orGroups T fs).set f.field (T.or (((orGroups T fs).get f.field).getD T.empty) (T.query f))
      else (orGroups T fs).set f.field (T.query f) := by
  rw [orGroups, fieldNames_concat, orGroups, JSMap.has_map]
  by_cases hm : f.field ∈ fieldNames fs
  · rw [if_neg (fun h' => h'.2 hm), if_pos (decide_eq_true hm), JSMap.get_map hm,
      JSMap.set_map_of_mem hm]
    refine List.map_congr_left fun n _ => ?_
    rw [onField_concat]
    by_cases hfn : f.field = n
    · subst hfn
      rw [if_pos rfl, if_pos rfl, orGroup_concat T (onField_ne_nil hm), Option.getD_some]
    · rw [if_neg hfn, if_neg (Ne.symm hfn)]
  · have hnil : onField fs f.field = [] := by
      refine List.filter_eq_nil_iff.mpr fun g hg hgf => hm ?_
      refine mem_fieldNames.mpr ⟨g, hg, ?_, of_decide_eq_true hgf⟩
      rwa [Filter.textual, of_decide_eq_true hgf]
    rw [if_pos ⟨h, hm⟩, if_neg (by simpa using hm), JSMap.set_map_of_not_mem hm, List.map_append,
      List.map_singleton, onField_concat, if_pos rfl, hnil]
    congr 1
    refine List.map_congr_left fun n hn => ?_
    rw [onField_concat, if_neg]
    rintro rfl
    exact hm hn

/-- **What the loop has collected**: the numeric texts in order, and one OR group
for each string field in order of first occurrence. -/
theorem foldl_addFilter (fs : List Filter) : fs.foldl (addFilter T) ⟨[], []⟩ =
    { numericQueries := (fs.filter Filter.numeric).map T.query
      stringQueryMap := orGroups T fs } := by
  induction fs using List.reverseRecOn with
  | nil => rfl
  | append_singleton fs f ih =>
    rw [List.foldl_concat, ih, List.filter_append, List.map_append, addFilter]
    cases ht : f.textual with
    | false =>
      have hs : f.field ∉ stringFields := of_decide_eq_false ht
      rw [if_neg hs, orGroups_concat_of_not_textual T ht]
      by_cases hf : f.field ∈ numericFields <;> simp [hf, Filter.numeric]
    | true =>
      have hs : f.field ∈ stringFields := of_decide_eq_true ht
      have hn := Filter.textual_of_not_numeric_field ht
      have hf : f.field ∉ numericFields := of_decide_eq_false hn
      rw [if_neg hf, if_pos hs, orGroups_concat_of_textual T ht]
      simp only [List.filter_cons, hn, List.filter_nil, Bool.false_eq_true, if_false, List.map_nil,
        List.append_nil]
      split <;> rfl

/-- The texts that AND joins: the numeric ones, then the OR groups. -/
def conjuncts (fs : List Filter) : List τ :=
  (fs.filter Filter.numeric).map T.query ++ (orGroups T fs).values

/-- **The query is one left fold of AND**, where no text that AND joins is
mistaken for the empty one. -/
theorem constructQueryWith_eq (hempty : T.isEmpty T.empty = true)
    (hand : ∀ a b, T.isEmpty (T.and a b) = false) {fs : List Filter}
    (hquery : ∀ f ∈ fs, f.numeric = true → T.isEmpty (T.query f) = false) :
    constructQueryWith T fs = reduce T.and T.empty (conjuncts T fs) := by
  rw [constructQueryWith, foldl_addFilter, joinQueries, conjuncts]
  generalize (orGroups T fs).values = S
  cases hN : (fs.filter Filter.numeric).map T.query with
  | nil => cases S <;> simp [hempty, reduce]
  | cons x xs =>
    have hx : T.isEmpty x = false := by
      have : x ∈ (fs.filter Filter.numeric).map T.query := hN ▸ List.mem_cons_self
      obtain ⟨f, hf, rfl⟩ := List.mem_map.mp this
      exact hquery f (List.mem_filter.mp hf).1 (List.mem_filter.mp hf).2
    have hne : T.isEmpty (xs.foldl T.and x) = false := by
      induction xs using List.reverseRecOn with
      | nil => exact hx
      | append_singleton ys y _ => rw [List.foldl_concat]; exact hand _ _
    cases S <;> simp [reduce, hne]

/-! ### The query as tokens -/

/-- The templates on tokens: a text of `constructSingleQuery` is one literal. -/
def Templates.tokens : Templates (List (Token String)) where
  query f := [.lit (constructSingleQuery f)]
  or prevQuery query := prevQuery ++ .op .or :: query
  and previousValue currentValue :=
    previousValue ++ .op .and :: .lparen :: (currentValue ++ [.rparen])
  empty := []
  isEmpty := List.isEmpty

/-- The query with its literals kept apart. -/
def constructTokens (fields operators values : List String) : List (Token String) :=
  constructQueryWith Templates.tokens (filtersOf fields operators values)

def printToken : Token String → String
  | .lit s => s
  | .op .and => " AND "
  | .op .or => " OR "
  | .lparen => "("
  | .rparen => ")"

/-- The text that the tokens stand for. -/
def render (ts : List (Token String)) : String := ts.foldr (fun t s => printToken t ++ s) ""

@[simp] theorem render_nil : render [] = "" := rfl

@[simp] theorem render_cons (t : Token String) (ts : List (Token String)) :
    render (t :: ts) = printToken t ++ render ts := rfl

@[simp] theorem render_append (ts us : List (Token String)) :
    render (ts ++ us) = render ts ++ render us := by
  induction ts with
  | nil => simp
  | cons t ts ih => rw [List.cons_append, render_cons, ih, render_cons, String.append_assoc]

theorem render_query (f : Filter) : render (Templates.tokens.query f) = Templates.text.query f := by
  simp [Templates.tokens, Templates.text, printToken]

theorem render_or (ts us : List (Token String)) :
    render (Templates.tokens.or ts us) = Templates.text.or (render ts) (render us) := by
  simp [Templates.tokens, Templates.text, printToken, String.append_assoc]

theorem render_and (ts us : List (Token String)) :
    render (Templates.tokens.and ts us) = Templates.text.and (render ts) (render us) := by
  have hopen : ∀ s : String, " AND (" ++ s = " AND " ++ ("(" ++ s) := by
    intro s
    rw [← String.append_assoc, show " AND " ++ "(" = " AND (" by decide]
  simp [Templates.tokens, Templates.text, printToken, String.append_assoc, hopen]

/-- What commutes with the callback commutes with the fold. -/
theorem render_reduce {f : List (Token String) → List (Token String) → List (Token String)}
    {g : String → String → String} (hfg : ∀ a b, render (f a b) = g (render a) (render b))
    (xs : List (List (Token String))) : render (reduce f [] xs) = reduce g "" (xs.map render) := by
  cases xs with
  | nil => rfl
  | cons x xs =>
    simp only [reduce, List.map_cons]
    induction xs generalizing x with
    | nil => rfl
    | cons y ys ih => rw [List.foldl_cons, ih, List.map_cons, List.foldl_cons, hfg]

theorem render_conjuncts (fs : List Filter) :
    (conjuncts Templates.tokens fs).map render = conjuncts Templates.text fs := by
  simp only [conjuncts, orGroups, JSMap.values, List.map_append, List.map_map]
  congr 1
  · exact List.map_congr_left fun f _ => render_query f
  · refine List.map_congr_left fun n _ => ?_
    show render (reduce _ _ _) = reduce _ _ _
    rw [show Templates.tokens.empty = [] from rfl, render_reduce render_or, List.map_map]
    congr 1
    exact List.map_congr_left fun f _ => render_query f

theorem constructTokens_eq (fields operators values : List String) :
    constructTokens fields operators values =
      reduce Templates.tokens.and []
        (conjuncts Templates.tokens (filtersOf fields operators values)) :=
  constructQueryWith_eq Templates.tokens rfl (fun a b => by simp [Templates.tokens])
    (fun _ _ _ => rfl)

theorem constructQuery_eq (fields operators values : List String) :
    constructQuery (some fields) (some operators) (some values) =
      reduce Templates.text.and ""
        (conjuncts Templates.text (filtersOf fields operators values)) := by
  refine constructQueryWith_eq Templates.text rfl (fun a b => ?_) (fun f _ hf => ?_)
  · simp [Templates.text]
  · have hf' : f.field ∈ numericFields := of_decide_eq_true hf
    simp only [Templates.text, constructSingleQuery, if_pos hf']
    split_ifs <;> simp

/-- **Printing the tokens gives the query.** -/
theorem render_constructTokens (fields operators values : List String) :
    render (constructTokens fields operators values) =
      constructQuery (some fields) (some operators) (some values) := by
  rw [constructTokens_eq, constructQuery_eq, render_reduce render_and, render_conjuncts]

end Subtle.Search
