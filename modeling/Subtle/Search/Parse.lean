import Subtle.Lib.Parsing
import Subtle.Search.Literal
import Subtle.Search.Literals
import Subtle.Search.Meaning

/-!
# The search query read back

The search engine is given the text of the query only.  Here it takes the text apart again:
a literal goes on to the next connective or closing parenthesis that is not in quotes, and a
literal says which field it compares with what.

* `readFilter_constructSingleQuery`: a filter is read back from its text.
* `closed_constructSingleQuery`: its text is one literal, whatever follows it.
* `constructQuery_means`: **the query that is sent for accepted filters is parsed to a formula
  that holds of a record exactly if all its numeric filters do, and for every string field
  one of its filters**.
-/

namespace Subtle.Search

open Subtle.Lib

/-! ### Reading a literal -/

/-- A literal up to the next connective or closing parenthesis; `quoted` says whether the text
stands in quotes. -/
def readLiteral : (quoted : Bool) → List Char → Option (List Char × List Char)
  | false, [] => some ([], [])
  | true, [] => none
  | true, '\\' :: c :: cs => (readLiteral true cs).map fun p => ('\\' :: c :: p.1, p.2)
  | true, ['\\'] => none
  | true, '"' :: cs => (readLiteral false cs).map fun p => ('"' :: p.1, p.2)
  | true, c :: cs => (readLiteral true cs).map fun p => (c :: p.1, p.2)
  | false, '"' :: cs => (readLiteral true cs).map fun p => ('"' :: p.1, p.2)
  | false, c :: cs =>
      if c = ')' ∨ (readConnective (c :: cs)).isSome then some ([], c :: cs)
      else (readLiteral false cs).map fun p => (c :: p.1, p.2)

/-- The text after `p`. -/
def dropText : (p : List Char) → List Char → Option (List Char)
  | [], cs => some cs
  | _ :: _, [] => none
  | a :: p, c :: cs => if a = c then dropText p cs else none

/-- A comparison with a quoted string. -/
def readEquality (operator : String) (cs : List Char) : Option Filter :=
  stringFields.findSome? fun field =>
    (dropText (field ++ ":\"").toList cs).bind fun rest =>
      match readQuoted rest with
      | some (value, []) => some ⟨field, operator, String.ofList value⟩
      | _ => none

/-- A comparison with a number. -/
def readComparison (cs : List Char) : Option Filter :=
  numericFields.findSome? fun field =>
    (dropText (attributeOf field ++ " ").toList cs).bind fun rest =>
      numericOperators.findSome? fun operator =>
        (dropText (operator ++ " ").toList rest).map fun value =>
          ⟨field, operator, String.ofList value⟩

/-- What a literal says. -/
def readFilter (literal : String) : Option Filter :=
  match dropText "NOT ".toList literal.toList with
  | some rest => readEquality "!=" rest
  | none => (readEquality "=" literal.toList).or (readComparison literal.toList)

example : readFilter "NOT name:\"Ann\"" = some ⟨"name", "!=", "Ann"⟩ := by decide

example : readFilter "birthdayTimestamp >= 12" = some ⟨"birthday", ">=", "12"⟩ := by decide

variable {f : Filter}

theorem dropText_append (p cs : List Char) : dropText p (p ++ cs) = some cs := by
  induction p with
  | nil => rfl
  | cons a p ih => exact (if_pos rfl).trans ih

theorem findSome?_eq_some_of_unique {α β : Type*} {g : α → Option β} {l : List α} {a : α} {b : β}
    (ha : a ∈ l) (hb : g a = some b) (hother : ∀ c ∈ l, c ≠ a → g c = none) :
    l.findSome? g = some b := by
  induction l with
  | nil => exact absurd ha List.not_mem_nil
  | cons c l ih =>
    by_cases hc : c = a
    · subst hc
      rw [List.findSome?_cons, hb]
    · have hnone := hother c List.mem_cons_self hc
      rw [List.findSome?_cons, hnone]
      exact ih ((List.mem_cons.mp ha).resolve_left fun h => hc h.symm)
        fun d hd => hother d (List.mem_cons_of_mem c hd)

/-- No text begins with two of the string fields. -/
theorem dropText_field {field field' : String} (h : field ∈ stringFields)
    (h' : field' ∈ stringFields) (hne : field' ≠ field) (cs : List Char) :
    dropText (field' ++ ":\"").toList ((field ++ ":\"").toList ++ cs) = none := by
  simp only [stringFields, List.mem_cons, List.not_mem_nil, or_false] at h h'
  rcases h with rfl | rfl | rfl <;> rcases h' with rfl | rfl | rfl <;>
    first
      | exact absurd rfl hne
      | rfl

theorem readEquality_text {field operator : String} (hfield : field ∈ stringFields)
    {value : List Char} (h : Sealed value) :
    readEquality operator ((field ++ ":\"").toList ++ (value ++ ['"'])) =
      some ⟨field, operator, String.ofList value⟩ := by
  have hread := (@readQuoted_append_iff value []).mpr h
  refine findSome?_eq_some_of_unique hfield ?_ ?_
  · simp only [dropText_append, Option.bind_some, hread]
  · intro field' hfield' hne
    rw [dropText_field hfield hfield' hne, Option.bind_none]

theorem dropText_attribute {field field' : String} (h : field ∈ numericFields)
    (h' : field' ∈ numericFields) (hne : field' ≠ field) (cs : List Char) :
    dropText (attributeOf field' ++ " ").toList ((attributeOf field ++ " ").toList ++ cs) =
      none := by
  simp only [numericFields, List.mem_cons, List.not_mem_nil, or_false] at h h'
  rcases h with rfl | rfl <;> rcases h' with rfl | rfl <;>
    first
      | exact absurd rfl hne
      | rfl

theorem dropText_operator {operator operator' : String} (h : operator ∈ numericOperators)
    (h' : operator' ∈ numericOperators) (hne : operator' ≠ operator) (cs : List Char) :
    dropText (operator' ++ " ").toList ((operator ++ " ").toList ++ cs) = none := by
  simp only [numericOperators, List.mem_cons, List.not_mem_nil, or_false] at h h'
  rcases h with rfl | rfl | rfl | rfl | rfl | rfl <;>
    rcases h' with rfl | rfl | rfl | rfl | rfl | rfl <;>
    first
      | exact absurd rfl hne
      | rfl

theorem readComparison_text {field operator : String} (hfield : field ∈ numericFields)
    (hoperator : operator ∈ numericOperators) (value : List Char) :
    readComparison ((attributeOf field ++ " ").toList ++ ((operator ++ " ").toList ++ value)) =
      some ⟨field, operator, String.ofList value⟩ := by
  refine findSome?_eq_some_of_unique hfield ?_ ?_
  · rw [dropText_append, Option.bind_some]
    refine findSome?_eq_some_of_unique hoperator ?_ ?_
    · rw [dropText_append, Option.map_some]
    · intro operator' hoperator' hne
      rw [dropText_operator hoperator hoperator' hne, Option.map_none]
  · intro field' hfield' hne
    rw [dropText_attribute hfield hfield' hne, Option.bind_none]

/-- A comparison with a number is none with a quoted string. -/
theorem readEquality_comparison {field operator : String} (hfield : field ∈ numericFields)
    (cs : List Char) : readEquality operator ((attributeOf field ++ " ").toList ++ cs) = none := by
  simp only [numericFields, List.mem_cons, List.not_mem_nil, or_false] at hfield
  rcases hfield with rfl | rfl <;> rfl

theorem toList_constructSingleQuery (hv : validateSingleFilter f = true) :
    (f.field ∈ stringFields ∧ f.operator = "=" ∧ (constructSingleQuery f).toList =
      (f.field ++ ":\"").toList ++ (f.value.toList ++ ['"'])) ∨
    (f.field ∈ stringFields ∧ f.operator = "!=" ∧ (constructSingleQuery f).toList =
      "NOT ".toList ++ ((f.field ++ ":\"").toList ++ (f.value.toList ++ ['"']))) ∨
    (f.field ∈ numericFields ∧ f.operator ∈ numericOperators ∧ (constructSingleQuery f).toList =
      (attributeOf f.field ++ " ").toList ++ ((f.operator ++ " ").toList ++ f.value.toList)) := by
  rcases field_of_valid hv with hn | ⟨ht, hop⟩
  · right; right
    have hfield : f.field ∈ numericFields := of_decide_eq_true hn
    have hop : f.operator ∈ numericOperators := by
      rw [validateSingleFilter, if_pos hfield, Bool.and_eq_true] at hv
      exact of_decide_eq_true hv.1
    refine ⟨hfield, hop, ?_⟩
    rw [constructSingleQuery_of_numeric hn]
    simp only [String.toList_append, List.append_assoc]
  · have hfield : f.field ∈ stringFields := of_decide_eq_true ht
    rw [constructSingleQuery_eq_of_textual ht hop]
    rcases hop with hop | hop
    · left
      refine ⟨hfield, hop, ?_⟩
      rw [hop, if_neg (by decide)]
      simp
    · right; left
      refine ⟨hfield, hop, ?_⟩
      rw [hop, if_pos rfl]
      simp

theorem dropText_not {field : String} (h : field ∈ stringFields) (cs : List Char) :
    dropText "NOT ".toList ((field ++ ":\"").toList ++ cs) = none := by
  simp only [stringFields, List.mem_cons, List.not_mem_nil, or_false] at h
  rcases h with rfl | rfl | rfl <;> rfl

theorem dropText_not_attribute {field : String} (h : field ∈ numericFields) (cs : List Char) :
    dropText "NOT ".toList ((attributeOf field ++ " ").toList ++ cs) = none := by
  simp only [numericFields, List.mem_cons, List.not_mem_nil, or_false] at h
  rcases h with rfl | rfl <;> rfl

/-- **A filter is read back from its text.** -/
theorem readFilter_constructSingleQuery (hv : validateSingleFilter f = true) (hf : Plain f) :
    readFilter (constructSingleQuery f) = some f := by
  have hself : ∀ operator, f.operator = operator →
      some (Filter.mk f.field operator (String.ofList f.value.toList)) = some f := by
    rintro operator rfl
    rw [String.ofList_toList]
  rw [readFilter.eq_def]
  rcases toList_constructSingleQuery hv with ⟨hfield, hop, htext⟩ | ⟨hfield, hop, htext⟩ |
    ⟨hfield, hop, htext⟩
  · rw [htext, dropText_not hfield]
    show (readEquality "=" _).or _ = _
    rw [readEquality_text hfield (hf.1 (decide_eq_true hfield)), Option.some_or]
    exact hself "=" hop
  · rw [htext, dropText_append]
    show readEquality "!=" _ = _
    rw [readEquality_text hfield (hf.1 (decide_eq_true hfield))]
    exact hself "!=" hop
  · rw [htext, dropText_not_attribute hfield]
    show (readEquality "=" _).or (readComparison _) = _
    rw [readEquality_comparison hfield, Option.none_or, readComparison_text hfield hop]
    exact hself f.operator rfl

/-! ### The text of a filter is one literal -/

theorem readLiteral_follows {rest : List Char} (h : Follows rest) :
    readLiteral false rest = some ([], rest) := by
  cases h with
  | nil => rfl
  | rparen cs => rfl
  | op c cs => cases c <;> rfl

theorem readLiteral_quoted {c : Char} (hq : c ≠ '"') (hb : c ≠ '\\') (cs : List Char) :
    readLiteral true (c :: cs) = (readLiteral true cs).map fun p => (c :: p.1, p.2) := by
  rw [readLiteral.eq_def]
  split <;> simp_all

/-- Outside of quotes a character that ends no literal is read. -/
theorem readLiteral_of_ne {c : Char} (hq : c ≠ '"') {cs : List Char}
    (hend : ¬ (c = ')' ∨ (readConnective (c :: cs)).isSome)) :
    readLiteral false (c :: cs) = (readLiteral false cs).map fun p => (c :: p.1, p.2) := by
  rw [readLiteral.eq_def]
  split <;> simp_all

/-- Quoted text is read up to its end. -/
theorem readLiteral_of_readQuoted {cs value rest : List Char}
    (h : readQuoted cs = some (value, rest)) : readLiteral true cs =
      (readLiteral false rest).map fun p => (value ++ '"' :: p.1, p.2) := by
  fun_induction readQuoted cs generalizing value with
  | case1 => exact absurd h (by simp)
  | case2 cs =>
    obtain ⟨rfl, rfl⟩ := Prod.mk.inj (Option.some.inj h)
    rfl
  | case3 => exact absurd h (by simp)
  | case4 c cs ih =>
    obtain ⟨⟨value', rest'⟩, hread, heq⟩ := Option.map_eq_some_iff.mp h
    obtain ⟨rfl, rfl⟩ := Prod.mk.inj heq
    show (readLiteral true cs).map _ = _
    rw [ih hread, Option.map_map]
    rfl
  | case5 c cs hquote hend hescape ih =>
    obtain ⟨⟨value', rest'⟩, hread, heq⟩ := Option.map_eq_some_iff.mp h
    obtain ⟨rfl, rfl⟩ := Prod.mk.inj heq
    have hq : c ≠ '"' := hquote
    have hb : c ≠ '\\' := by
      rintro rfl
      cases cs with
      | nil => exact hend rfl rfl
      | cons d cs => exact hescape d cs rfl rfl
    rw [readLiteral_quoted hq hb, ih hread, Option.map_map]
    rfl

/-- A sealed value in quotes is read to its end. -/
theorem readLiteral_sealed {value : List Char} (h : Sealed value) {rest : List Char}
    (hrest : Follows rest) :
    readLiteral false ('"' :: (value ++ '"' :: rest)) = some ('"' :: (value ++ ['"']), rest) := by
  have hquoted := readLiteral_of_readQuoted ((@readQuoted_append_iff value rest).mpr h)
  rw [readLiteral_follows hrest, Option.map_some] at hquoted
  show (readLiteral true (value ++ '"' :: rest)).map _ = _
  rw [hquoted]
  rfl

/-- A text is read that has none of the characters at which a literal may end. -/
theorem readLiteral_of_forall {cs : List Char} (h : ∀ c ∈ cs, c ≠ '"' ∧ c ≠ ')' ∧ c ≠ ' ')
    {rest : List Char} (hrest : Follows rest) :
    readLiteral false (cs ++ rest) = some (cs, rest) := by
  induction cs with
  | nil => exact readLiteral_follows hrest
  | cons c cs ih =>
    obtain ⟨hq, hparen, hblank⟩ := h c List.mem_cons_self
    have hnone : readConnective (c :: (cs ++ rest)) = none := by
      rw [readConnective.eq_def]
      split <;> simp_all
    have hend : ¬ (c = ')' ∨ (readConnective (c :: (cs ++ rest))).isSome) := by
      simp [hparen, hnone]
    rw [List.cons_append, readLiteral_of_ne hq hend,
      ih fun d hd => h d (List.mem_cons_of_mem c hd)]
    rfl

/-- No literal ends within the text, and none at its end. -/
def passes : List Char → Bool
  | [] => true
  | [c] => c ∉ ['"', ')', ' ']
  | c :: d :: p => c ∉ ['"', ')'] && (c ≠ ' ' || d ∉ ['A', 'O']) && passes (d :: p)

theorem readConnective_of_ne {c : Char} {cs : List Char}
    (h : c ≠ ' ' ∨ ∃ d ds, cs = d :: ds ∧ d ≠ 'A' ∧ d ≠ 'O') : readConnective (c :: cs) = none := by
  rw [readConnective.eq_def]
  split <;> simp_all

theorem readLiteral_passes {p : List Char} (h : passes p = true) (cs : List Char) :
    readLiteral false (p ++ cs) = (readLiteral false cs).map fun q => (p ++ q.1, q.2) := by
  induction p using passes.induct with
  | case1 => simp
  | case2 c =>
    have hc : c ∉ ['"', ')', ' '] := of_decide_eq_true h
    simp only [List.mem_cons, List.not_mem_nil, or_false, not_or] at hc
    have hnone : readConnective (c :: cs) = none := readConnective_of_ne (Or.inl hc.2.2)
    exact readLiteral_of_ne hc.1 (by simp [hc, hnone])
  | case3 c d p ih =>
    rw [passes, Bool.and_eq_true, Bool.and_eq_true] at h
    obtain ⟨⟨hc, hblank⟩, hrest⟩ := h
    simp only [List.mem_cons, List.not_mem_nil, or_false, not_or, decide_eq_true_eq] at hc
    have hnone : readConnective (c :: d :: (p ++ cs)) = none := by
      refine readConnective_of_ne ?_
      rcases Bool.or_eq_true_iff.mp hblank with hc | hd
      · exact Or.inl (of_decide_eq_true hc)
      · have hd' := of_decide_eq_true hd
        simp only [List.mem_cons, List.not_mem_nil, or_false, not_or] at hd'
        exact Or.inr ⟨d, p ++ cs, rfl, hd'⟩
    rw [List.cons_append, readLiteral_of_ne hc.1 (by simp [hc.2, hnone]), ih hrest,
      Option.map_map]
    rfl

theorem passes_field {field : String} (h : field ∈ stringFields) :
    passes (field ++ ":").toList = true ∧ passes ("NOT " ++ field ++ ":").toList = true := by
  simp only [stringFields, List.mem_cons, List.not_mem_nil, or_false] at h
  rcases h with rfl | rfl | rfl <;> decide

/-- The texts in front of the blank before a number. -/
theorem passes_comparison {field operator : String} (h : field ∈ numericFields)
    (h' : operator ∈ numericOperators) :
    passes (attributeOf field ++ " " ++ operator).toList = true := by
  simp only [numericFields, numericOperators, List.mem_cons, List.not_mem_nil, or_false] at h h'
  rcases h with rfl | rfl <;> rcases h' with rfl | rfl | rfl | rfl | rfl | rfl <;> decide

/-- A quoted value after a text that passes. -/
theorem readLiteral_quote {p value : List Char} (hp : passes p = true) (h : Sealed value)
    {rest : List Char} (hrest : Follows rest) :
    readLiteral false (p ++ '"' :: (value ++ '"' :: rest)) =
      some (p ++ '"' :: (value ++ ['"']), rest) := by
  rw [readLiteral_passes hp, readLiteral_sealed h hrest]
  rfl

theorem exists_cons_text (n : Numeral) : ∃ c cs, n.text = c :: cs := by
  obtain ⟨c, cs, hc, -⟩ := n.whole.exists_cons
  refine List.exists_cons_of_ne_nil fun hnil => ?_
  simp [Numeral.text, Numeral.unsignedText, Numeral.mantissaText, hc] at hnil

theorem ne_of_mem_numeral {n : Numeral} {c : Char} (h : c ∈ n.text) {d : Char}
    (hd : d.isDigit = false) (hd' : d ∉ numeralChars) : c ≠ d := by
  rintro rfl
  rcases Numeral.mem_text h with hdigit | hchar
  · exact absurd hdigit (by simp [hd])
  · exact hd' hchar

/-- A numeral after a text that passes and a blank. -/
theorem readLiteral_numeral {p : List Char} (hp : passes p = true) (n : Numeral)
    {rest : List Char} (hrest : Follows rest) :
    readLiteral false (p ++ ' ' :: (n.text ++ rest)) = some (p ++ ' ' :: n.text, rest) := by
  have hchars : ∀ c ∈ n.text, c ≠ '"' ∧ c ≠ ')' ∧ c ≠ ' ' := fun c hc =>
    ⟨ne_of_mem_numeral hc (by decide) (by decide), ne_of_mem_numeral hc (by decide) (by decide),
      ne_of_mem_numeral hc (by decide) (by decide)⟩
  have hread := readLiteral_of_forall hchars hrest
  obtain ⟨d, ds, hd⟩ := exists_cons_text n
  have hmem : d ∈ n.text := hd ▸ List.mem_cons_self
  have hnone : readConnective (' ' :: (n.text ++ rest)) = none := by
    refine readConnective_of_ne (Or.inr ⟨d, ds ++ rest, by rw [hd, List.cons_append], ?_⟩)
    exact ⟨ne_of_mem_numeral hmem (by decide) (by decide),
      ne_of_mem_numeral hmem (by decide) (by decide)⟩
  rw [readLiteral_passes hp, readLiteral_of_ne (by decide) (by simp [hnone]), hread]
  rfl

/-- **The text of a filter is one literal**, whatever may follow it. -/
theorem closed_constructSingleQuery (hv : validateSingleFilter f = true) (hf : Plain f) :
    Closed (readLiteral false) (constructSingleQuery f) := by
  have hreads : ∀ rest, Follows rest →
      readLiteral false ((constructSingleQuery f).toList ++ rest) =
        some ((constructSingleQuery f).toList, rest) := by
    intro rest hrest
    rcases toList_constructSingleQuery hv with ⟨hfield, -, htext⟩ | ⟨hfield, -, htext⟩ |
      ⟨hfield, hop, htext⟩
    · have hread := readLiteral_quote (passes_field hfield).1 (hf.1 (decide_eq_true hfield)) hrest
      rw [htext]
      simpa using hread
    · have hread := readLiteral_quote (passes_field hfield).2 (hf.1 (decide_eq_true hfield)) hrest
      rw [htext]
      simpa using hread
    · obtain ⟨n, hn⟩ := hf.2 (decide_eq_true hfield)
      have hread := readLiteral_numeral (passes_comparison hfield hop) n hrest
      rw [htext, ← hn]
      simpa using hread
  refine ⟨?_, ?_, hreads⟩
  · intro hnil
    exact constructSingleQuery_ne_empty hv (String.toList_inj.mp hnil)
  · rcases toList_constructSingleQuery hv with ⟨hfield, -, htext⟩ | ⟨-, -, htext⟩ |
      ⟨hfield, -, htext⟩ <;> rw [htext]
    · simp only [stringFields, List.mem_cons, List.not_mem_nil, or_false] at hfield
      rcases hfield with h | h | h <;> simp [h]
    · simp
    · simp only [numericFields, List.mem_cons, List.not_mem_nil, or_false] at hfield
      rcases hfield with h | h <;> simp [h, attributeOf]

/-! ### The query -/

theorem toList_render (ts : List (Token String)) : (render ts).toList = print ts := by
  induction ts with
  | nil => rfl
  | cons t ts ih =>
    rw [render_cons, String.toList_append, ih, print_cons]
    congr 1
    cases t with
    | lit s => rfl
    | op c => cases c <;> rfl
    | lparen => rfl
    | rparen => rfl

theorem mem_literals {ts : List (Token String)} {s : String} (h : Token.lit s ∈ ts) :
    s ∈ literals ts := List.mem_filterMap.mpr ⟨_, h, rfl⟩

theorem exists_filter_of_mem {fields operators values : List String} {s : String}
    (h : Token.lit s ∈ constructTokens fields operators values) :
    ∃ g ∈ filtersOf fields operators values, constructSingleQuery g = s := by
  have hs := mem_literals h
  rw [literals_constructTokens] at hs
  obtain ⟨g, hg, rfl⟩ := List.mem_map.mp hs
  refine ⟨g, ?_, rfl⟩
  rcases List.mem_append.mp hg with hg | hg
  · exact (List.mem_filter.mp hg).1
  · obtain ⟨n, -, hg⟩ := List.mem_flatMap.mp hg
    exact (List.mem_filter.mp hg).1

section

variable (meets : Filter → Bool)

/-- All numeric filters are met, and for every string field one of the filters on it. -/
def AllMet (fs : List Filter) : Prop :=
  (∀ g ∈ fs, g.numeric = true → meets g = true) ∧
    ∀ g ∈ fs, g.textual = true → ∃ h ∈ fs, h.field = g.field ∧ meets h = true

/-- A literal is met if it says something that is. -/
def meetsLiteral (literal : String) : Bool := (readFilter literal).any meets

variable {meets}

theorem documented_iff {fs : List Filter}
    (hmeets : ∀ g ∈ fs, meetsLiteral meets (constructSingleQuery g) = meets g) :
    documented (meetsLiteral meets) fs = true ↔ AllMet meets fs := by
  rw [documented, Bool.and_eq_true, List.all_eq_true, List.all_eq_true]
  refine and_congr ?_ ?_
  · constructor
    · intro h g hg hnumeric
      exact (hmeets g hg).symm.trans (h g (List.mem_filter.mpr ⟨hg, hnumeric⟩))
    · intro h g hg
      obtain ⟨hg, hnumeric⟩ := List.mem_filter.mp hg
      exact (hmeets g hg).trans (h g hg hnumeric)
  · constructor
    · intro h g hg htextual
      obtain ⟨g', hg', hmet⟩ := List.any_eq_true.mp (h g.field (mem_fieldNames.mpr
        ⟨g, hg, htextual, rfl⟩))
      obtain ⟨hg', hfield⟩ := List.mem_filter.mp hg'
      exact ⟨g', hg', of_decide_eq_true hfield, (hmeets g' hg').symm.trans hmet⟩
    · intro h n hn
      obtain ⟨g, hg, htextual, rfl⟩ := mem_fieldNames.mp hn
      obtain ⟨g', hg', hfield, hmet⟩ := h g hg htextual
      exact List.any_eq_true.mpr ⟨g', List.mem_filter.mpr ⟨hg', decide_eq_true hfield⟩,
        (hmeets g' hg').trans hmet⟩

/-- What is documented, of filters that are read back from their texts. -/
theorem documented_filtersOf {fs : List Filter}
    (hvalid : ∀ g ∈ fs, validateSingleFilter g = true) (hplain : ∀ g ∈ fs, Plain g)
    (meets : Filter → Bool) :
    documented (meetsLiteral meets) fs = true ↔ AllMet meets fs := by
  refine documented_iff fun g hg => ?_
  rw [meetsLiteral, readFilter_constructSingleQuery (hvalid g hg) (hplain g hg)]
  rfl

end

/-- **The text of the query is parsed to what its tokens read as.** -/
theorem parse_constructQuery {fields operators values : List String}
    (hvalid : ∀ g ∈ filtersOf fields operators values, validateSingleFilter g = true)
    (hplain : ∀ g ∈ filtersOf fields operators values, Plain g) {t : Connective}
    {φ : Formula String} (h : Reads t .loose (constructTokens fields operators values) φ) :
    parse (readLiteral false) t
      (constructQuery (some fields) (some operators) (some values)).toList = some φ := by
  rw [← render_constructTokens, toList_render]
  refine parse_print h fun s hs => ?_
  obtain ⟨g, hg, rfl⟩ := exists_filter_of_mem hs
  exact closed_constructSingleQuery (hvalid g hg) (hplain g hg)

/-- **The query that is sent is parsed to what its filters say**, whichever connective binds
tighter, if their values can be pasted in and its first conjunct needs no parentheses. -/
theorem constructQuery_means {fields operators values : List String} (hne : fields ≠ [])
    (hv : (validateFilters (some fields) (some operators) (some values)).valid = true)
    (hplain : ∀ g ∈ filtersOf fields operators values, Plain g) (hpar : Parenthesised fields)
    (t : Connective) : ∃ φ, parse (readLiteral false) t
        (constructQuery (some fields) (some operators) (some values)).toList = some φ ∧
      ∀ meets : Filter → Bool, φ.eval (meetsLiteral meets) = true ↔
        AllMet meets (filtersOf fields operators values) := by
  have hvalid := (valid_iff.mp hv).2.2
  obtain ⟨φ, hreads, heval⟩ := (readsAsDocumented_iff hne hvalid).mpr hpar t
  refine ⟨φ, parse_constructQuery hvalid hplain hreads, fun meets => ?_⟩
  rw [heval]
  exact documented_filtersOf hvalid hplain meets

theorem plain_of_sealed (hf : f.numeric = false) (h : Sealed f.value.toList) : Plain f := by
  refine ⟨fun _ => h, fun hn => ?_⟩
  rw [hf] at hn
  exact absurd hn Bool.false_ne_true

def twelve : Numeral := ⟨none, ⟨['1', '2'], List.cons_ne_nil _ _, by simp⟩, none, none⟩

/-- One of two universities, no older than a time, and a name with an escaped quote, a
connective and parentheses. -/
theorem constructQuery_means_example : ∃ φ, parse (readLiteral false) .and
      (constructQuery (some ["birthday", "university", "name", "university"])
        (some [">=", "=", "!=", "="])
        (some ["12", "Duke University", "A \\\" AND (B)", "UNC"])).toList = some φ ∧
    ∀ meets : Filter → Bool, φ.eval (meetsLiteral meets) = true ↔
      AllMet meets (filtersOf ["birthday", "university", "name", "university"]
        [">=", "=", "!=", "="] ["12", "Duke University", "A \\\" AND (B)", "UNC"]) := by
  refine constructQuery_means (by decide) (by decide +kernel) ?_ (by decide) .and
  intro g hg
  have hlist : g ∈ [Filter.mk "birthday" ">=" "12", ⟨"university", "=", "Duke University"⟩,
      ⟨"name", "!=", "A \\\" AND (B)"⟩, ⟨"university", "=", "UNC"⟩] := hg
  simp only [List.mem_cons, List.not_mem_nil, or_false] at hlist
  rcases hlist with rfl | rfl | rfl | rfl
  · exact ⟨fun ht => absurd ht (by decide), fun _ => ⟨twelve, by decide⟩⟩
  · exact plain_of_sealed (by decide) ((@readQuoted_append_iff _ []).mp (by decide))
  · exact plain_of_sealed (by decide) ((@readQuoted_append_iff _ []).mp (by decide))
  · exact plain_of_sealed (by decide) ((@readQuoted_append_iff _ []).mp (by decide))

end Subtle.Search
