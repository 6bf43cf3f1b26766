import Subtle.Search.Filter

/-!
# The literal of a filter

The search engine reads the text of a filter as one literal: for a string field the
name of the field and a quoted string, perhaps under `NOT`, and for a numeric field
the name of an attribute, the operator and a decimal numeral.

`constructSingleQuery` pastes the value in as it is.  `validateSingleFilter` does not
look at the value of a string field, and of a numeric field it asks only that
JavaScript converts the value to a number, which it also does for a blank, for
`Infinity`, for hexadecimal digits, for a numeral with spaces around it and for one that
is rounded.

* `literal_of_textual`: **the text of a string filter is its literal exactly when the
  value is sealed**.
* `literal_of_numeric`: **the text of a numeric filter is its literal exactly when the
  value is a decimal numeral as it stands, and its value a double**.
-/

namespace Subtle.Search

open Subtle.Lib

/-- The attribute of the records that a numeric field stands for. -/
def attributeOf (field : String) : String :=
  if field = "birthday" then "birthdayTimestamp" else "creationTimestamp"

/-- The literals of a filter in the language of the search engine. -/
inductive Literal (f : Filter) : String → Prop
  | quoted (rest : List Char) (hf : f.textual = true)
      (hread : readQuoted rest = some (f.value.toList, [])) :
      Literal f ((if f.operator = "!=" then "NOT " else "") ++ f.field ++ ":\"" ++
        String.ofList rest)
  | compared (n : Numeral) (hf : f.numeric = true) (hn : Number f.value = .finite n.value) :
      Literal f (attributeOf f.field ++ " " ++ f.operator ++ " " ++ String.ofList n.text)

/-- The value can be pasted into the text. -/
def Plain (f : Filter) : Prop :=
  (f.textual = true → Sealed f.value.toList) ∧
    (f.numeric = true → ∃ n : Numeral, n.text = f.value.toList)

/-- The value can be pasted into the text, and a numeral is not rounded. -/
def Exact (f : Filter) : Prop :=
  (f.textual = true → Sealed f.value.toList) ∧
    (f.numeric = true → ∃ n : Numeral, n.text = f.value.toList ∧
      FloatFormat.binary64.Represents n.value)

variable {f : Filter}

theorem constructSingleQuery_of_numeric (h : f.numeric = true) :
    constructSingleQuery f = attributeOf f.field ++ " " ++ f.operator ++ " " ++ f.value := by
  have hf : f.field ∈ numericFields := of_decide_eq_true h
  rw [constructSingleQuery, if_pos hf]
  simp only [numericFields, List.mem_cons, List.not_mem_nil, or_false] at hf
  rcases hf with hf | hf <;> simp [hf, attributeOf]

theorem constructSingleQuery_eq_of_textual (h : f.textual = true)
    (hop : f.operator = "=" ∨ f.operator = "!=") :
    constructSingleQuery f = (if f.operator = "!=" then "NOT " else "") ++ f.field ++ ":\"" ++
      String.ofList (f.value.toList ++ ['"']) := by
  have hn : f.field ∉ numericFields := of_decide_eq_false (Filter.textual_of_not_numeric_field h)
  rw [constructSingleQuery, if_neg hn, if_pos (of_decide_eq_true h)]
  rcases hop with hop | hop <;> simp [hop, String.append_assoc]

theorem append_left_cancel {s a b : String} (h : s ++ a = s ++ b) : a = b := by
  have hlist := congrArg String.toList h
  rw [String.toList_append, String.toList_append] at hlist
  exact String.toList_inj.mp (List.append_cancel_left hlist)

/-- **The text of a string filter is its literal exactly when the value is sealed.** -/
theorem literal_of_textual (h : f.textual = true) (hop : f.operator = "=" ∨ f.operator = "!=") :
    Literal f (constructSingleQuery f) ↔ Sealed f.value.toList := by
  rw [constructSingleQuery_eq_of_textual h hop, ← @readQuoted_append_iff _ []]
  constructor
  · intro hlit
    generalize htext : _ ++ String.ofList _ = text at hlit
    cases hlit with
    | quoted rest _ hread =>
      have hrest := String.ofList_inj.mp (append_left_cancel htext)
      rwa [hrest]
    | compared n hf _ =>
      exact absurd hf (by rw [Filter.textual_of_not_numeric_field h]; exact Bool.false_ne_true)
  · exact fun hread => .quoted _ h hread

/-- **The text of a numeric filter is its literal exactly when the value is a decimal
numeral as it stands, and its value a double.** -/
theorem literal_of_numeric (h : f.numeric = true) :
    Literal f (constructSingleQuery f) ↔ ∃ n : Numeral, n.text = f.value.toList ∧
      FloatFormat.binary64.Represents n.value := by
  rw [constructSingleQuery_of_numeric h]
  constructor
  · intro hlit
    generalize htext : _ ++ f.value = text at hlit
    cases hlit with
    | quoted rest hf _ =>
      exact absurd h (by rw [Filter.textual_of_not_numeric_field hf]; exact Bool.false_ne_true)
    | compared n _ hn =>
      have hvalue : n.text = f.value.toList := by
        rw [append_left_cancel htext, String.toList_ofList]
      exact ⟨n, hvalue, (Number_numeral_iff hvalue.symm).mp hn⟩
  · rintro ⟨n, hn, hdouble⟩
    have hvalue : f.value = String.ofList n.text := by rw [hn, String.ofList_toList]
    have hlit := Literal.compared n h ((Number_numeral_iff hn.symm).mpr hdouble)
    rwa [← hvalue] at hlit

/-- **The text of an accepted filter is its literal exactly when the value can be pasted
in**: no quote of a string value is free, and a numeric value is a decimal numeral for a
double. -/
theorem constructSingleQuery_literal_iff (hv : validateSingleFilter f = true) :
    Literal f (constructSingleQuery f) ↔ Exact f := by
  rcases field_of_valid hv with hn | ⟨ht, hop⟩
  · have ht : f.textual ≠ true := fun ht =>
      absurd hn (by rw [Filter.textual_of_not_numeric_field ht]; exact Bool.false_ne_true)
    rw [literal_of_numeric hn]
    exact ⟨fun h => ⟨fun ht' => absurd ht' ht, fun _ => h⟩, fun h => h.2 hn⟩
  · rw [literal_of_textual ht hop]
    refine ⟨fun h => ⟨fun _ => h, ?_⟩, fun h => h.1 ht⟩
    rw [Filter.textual_of_not_numeric_field ht]
    exact fun hn => absurd hn Bool.false_ne_true

theorem constructSingleQuery_literal_iff_example :
    Literal ⟨"name", "!=", "Ann \\\"A\\\" Lee"⟩ "NOT name:\"Ann \\\"A\\\" Lee\"" := by
  have hsealed : Sealed "Ann \\\"A\\\" Lee".toList := (@readQuoted_append_iff _ []).mp (by decide)
  have hexact : Exact ⟨"name", "!=", "Ann \\\"A\\\" Lee"⟩ :=
    ⟨fun _ => hsealed, fun hn => absurd hn (by decide)⟩
  exact (constructSingleQuery_literal_iff (by decide)).mpr hexact

/-- The value closes its string and goes on with a second literal. -/
theorem constructSingleQuery_injects : ¬ ∀ f : Filter, validateSingleFilter f = true →
    Literal f (constructSingleQuery f) := by
  intro h
  have hsealed := (literal_of_textual (by decide) (Or.inl rfl)).mp
    (h ⟨"name", "=", "Ann\" OR name:\"Bob"⟩ (by decide))
  exact absurd (hsealed.quotes ['A', 'n', 'n'] " OR name:\"Bob".toList (by decide)) (by decide)

end Subtle.Search
