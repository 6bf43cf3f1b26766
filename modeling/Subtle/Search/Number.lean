import Subtle.Lib.Lexical
import Subtle.Lib.Rounding
import Mathlib.Data.List.TakeDrop

/-!
# JavaScript's `Number` on strings

`validateSingleFilter` asks `!isNaN(Number(value))`.  A string converts when,
without the white space around it, it is empty, a decimal literal (a sign,
digits with an optional point, an exponent, or `Infinity`), or an unsigned
integer literal in base 2, 8 or 16 after `0b`, `0o` or `0x`.

The value of a literal is rounded to a double, and becomes infinite where it is too large.  A
zero is kept without its sign, which nothing here looks at.

* `Number_numeral_iff`: **a decimal numeral converts to its value exactly when that is a
  double**.
-/

namespace Subtle.Search

open Subtle.Lib

/-- What a string converts to. -/
inductive JSNumber where
  | nan
  | infinity (negative : Bool)
  | finite (q : ℚ)
  deriving DecidableEq

namespace JSNumber

def neg : JSNumber → JSNumber
  | nan => nan
  | infinity n => infinity !n
  | finite q => finite (-q)

/-- The double for an exact value. -/
def rounded : JSNumber → JSNumber
  | finite q => (FloatFormat.binary64.round q).elim (infinity (decide (q < 0))) finite
  | n => n

end JSNumber

/-- White space and line terminators, by code point. -/
def isStrWhiteSpace (c : Char) : Bool :=
  let n := c.toNat
  (9 ≤ n && n ≤ 13) || n = 0x20 || n = 0xA0 || n = 0x1680 || (0x2000 ≤ n && n ≤ 0x200A) ||
    n = 0x2028 || n = 0x2029 || n = 0x202F || n = 0x205F || n = 0x3000 || n = 0xFEFF

/-- The characters without the white space at either end. -/
def trim (cs : List Char) : List Char :=
  ((cs.dropWhile isStrWhiteSpace).reverse.dropWhile isStrWhiteSpace).reverse

/-- The value of a digit in a base. -/
def digitValue (base : Nat) (c : Char) : Option Nat :=
  let d :=
    if '0' ≤ c ∧ c ≤ '9' then c.toNat - '0'.toNat
    else if 'a' ≤ c ∧ c ≤ 'z' then c.toNat - 'a'.toNat + 10
    else if 'A' ≤ c ∧ c ≤ 'Z' then c.toNat - 'A'.toNat + 10
    else base
  if d < base then some d else none

/-- The value of a possibly empty string of digits. -/
def digits (base : Nat) (cs : List Char) : Option Nat :=
  cs.foldlM (fun n c => (digitValue base c).map (n * base + ·)) 0

/-- The value of a string of at least one digit. -/
def digits1 (base : Nat) : List Char → Option Nat
  | [] => none
  | cs => digits base cs

/-- An integer with an optional sign, as after the `e` of an exponent. -/
def signedDigits : List Char → Option Int
  | '+' :: cs => (digits1 10 cs).map Int.ofNat
  | '-' :: cs => (digits1 10 cs).map fun n => -Int.ofNat n
  | cs => (digits1 10 cs).map Int.ofNat

/-- Digits around an optional point, at least one of them. -/
def mantissa (cs : List Char) : Option ℚ :=
  match cs.span (· ≠ '.') with
  | (whole, []) => (digits1 10 whole).map fun n => (n : ℚ)
  | ([], _ :: frac) => (digits1 10 frac).map fun f => (f : ℚ) / 10 ^ frac.length
  | (whole, _ :: frac) => do
      let n ← digits 10 whole
      let f ← digits 10 frac
      return (n : ℚ) + f / 10 ^ frac.length

/-- A decimal literal without its sign. -/
def unsignedDecimal (cs : List Char) : Option JSNumber :=
  if cs = "Infinity".toList then some (.infinity false)
  else
    match cs.span fun c => c ≠ 'e' ∧ c ≠ 'E' with
    | (m, []) => (mantissa m).map .finite
    | (m, _ :: e) => do
        let q ← mantissa m
        let k ← signedDigits e
        return .finite (q * 10 ^ k)

/-- The exact value of the trimmed characters. -/
def numericLiteral : List Char → JSNumber
  | [] => .finite 0
  | '0' :: 'x' :: cs | '0' :: 'X' :: cs => ((digits1 16 cs).map fun n => .finite n).getD .nan
  | '0' :: 'o' :: cs | '0' :: 'O' :: cs => ((digits1 8 cs).map fun n => .finite n).getD .nan
  | '0' :: 'b' :: cs | '0' :: 'B' :: cs => ((digits1 2 cs).map fun n => .finite n).getD .nan
  | '+' :: cs => (unsignedDecimal cs).getD .nan
  | '-' :: cs => ((unsignedDecimal cs).map .neg).getD .nan
  | cs => (unsignedDecimal cs).getD .nan

/-- `Number(value)`. -/
def Number (value : String) : JSNumber := (numericLiteral (trim value.toList)).rounded

/-- `isNaN(Number(value))`. -/
def isNaN : JSNumber → Bool
  | .nan => true
  | _ => false

theorem rounded_finite_iff {q : ℚ} :
    (JSNumber.finite q).rounded = .finite q ↔ FloatFormat.binary64.Represents q := by
  rw [← FloatFormat.round_eq_self_iff, JSNumber.rounded]
  cases FloatFormat.binary64.round q <;> simp

/-! ### Decimal numerals -/

theorem ne_of_isDigit {c d : Char} (h : c.isDigit = true) (hd : d.isDigit = false) : c ≠ d := by
  rintro rfl
  exact absurd h (by simp [hd])

theorem digitValue_of_isDigit {c : Char} (h : c.isDigit = true) :
    digitValue 10 c = some (c.toNat - '0'.toNat) := by
  have hd : '0' ≤ c ∧ c ≤ '9' := by simpa [Char.isDigit, Char.le_def] using h
  have hlt : c.toNat - '0'.toNat < 10 := by
    have h₁ : '0'.toNat ≤ c.toNat := hd.1
    have h₂ : c.toNat ≤ '9'.toNat := hd.2
    simp only [Char.reduceToNat] at h₁ h₂ ⊢
    omega
  rw [digitValue, if_pos hd, if_pos hlt]

theorem digits_eq_foldl {cs : List Char} (h : ∀ c ∈ cs, c.isDigit = true) :
    digits 10 cs = some (cs.foldl (fun n c => n * 10 + (c.toNat - '0'.toNat)) 0) := by
  have hfrom : ∀ n, cs.foldlM (fun n c => (digitValue 10 c).map (n * 10 + ·)) n =
      some (cs.foldl (fun n c => n * 10 + (c.toNat - '0'.toNat)) n) := by
    induction cs with
    | nil => intro n; rfl
    | cons c cs ih =>
      intro n
      have hc := digitValue_of_isDigit (h c List.mem_cons_self)
      rw [List.foldlM_cons, hc]
      exact ih (fun d hd => h d (List.mem_cons_of_mem c hd)) _
  exact hfrom 0

theorem digits_toNat (ds : Digits) : digits 10 ds.chars = some ds.toNat :=
  digits_eq_foldl ds.digit

theorem digits1_toNat (ds : Digits) : digits1 10 ds.chars = some ds.toNat := by
  obtain ⟨c, cs, h, -⟩ := ds.exists_cons
  rw [← digits_toNat, h]
  rfl

theorem signedDigits_exponent (e : Exponent) :
    signedDigits (signText e.sign ++ e.digits.chars) = some e.value := by
  match hs : e.sign with
  | none =>
    obtain ⟨c, cs, hc, hd⟩ := e.digits.exists_cons
    have hplus : c ≠ '+' := ne_of_isDigit hd (by decide)
    have hminus : c ≠ '-' := ne_of_isDigit hd (by decide)
    have hdigits := digits1_toNat e.digits
    rw [hc] at hdigits
    rw [Exponent.value, hs, hc]
    simp only [signText, List.nil_append]
    rw [signedDigits.eq_def]
    split
    · simp_all
    · simp_all
    · rw [hdigits]; rfl
  | some .plus =>
    show (digits1 10 e.digits.chars).map Int.ofNat = _
    rw [digits1_toNat, Exponent.value, hs]
    rfl
  | some .minus =>
    show (digits1 10 e.digits.chars).map (fun n => -Int.ofNat n) = _
    rw [digits1_toNat, Exponent.value, hs]
    rfl

theorem span_append {p : Char → Bool} {as bs : List Char} (h : ∀ c ∈ as, p c = true)
    (hb : ∀ c ∈ bs.head?, p c = false) : (as ++ bs).span p = (as, bs) := by
  rw [List.span_eq_takeWhile_dropWhile, List.takeWhile_append_of_pos h,
    List.dropWhile_append_of_pos h]
  cases bs with
  | nil => simp
  | cons b bs => simp [hb b rfl]

theorem mantissa_text (n : Numeral) : mantissa n.mantissaText = some n.mantissa := by
  have hpoint : ∀ c ∈ n.whole.chars, (decide (c ≠ '.')) = true := by
    intro c hc
    exact decide_eq_true (ne_of_isDigit (n.whole.digit c hc) (by decide))
  obtain ⟨c, cs, hc, -⟩ := n.whole.exists_cons
  cases hf : n.frac with
  | none =>
    have hspan : n.mantissaText.span (· ≠ '.') = (n.whole.chars, []) := by
      rw [Numeral.mantissaText, hf]
      exact span_append hpoint (by simp)
    rw [mantissa, hspan]
    simp [digits1_toNat, Numeral.mantissa, hf]
  | some ds =>
    have hspan : n.mantissaText.span (· ≠ '.') = (n.whole.chars, '.' :: ds.chars) := by
      rw [Numeral.mantissaText, hf]
      exact span_append hpoint (by simp)
    rw [mantissa, hspan, hc]
    simp only [← hc, digits_toNat]
    simp [Numeral.mantissa, hf]

theorem unsignedDecimal_text (n : Numeral) :
    unsignedDecimal n.unsignedText = some (.finite n.unsignedValue) := by
  obtain ⟨c, cs, hc, hd⟩ := n.whole.exists_cons
  have hinf : n.unsignedText ≠ "Infinity".toList := by
    intro h
    rw [Numeral.unsignedText, Numeral.mantissaText, hc] at h
    obtain ⟨rfl, -⟩ := List.cons.inj h
    exact absurd hd (by decide)
  have hnoexp : ∀ x ∈ n.mantissaText, (decide (x ≠ 'e' ∧ x ≠ 'E')) = true := by
    have hdigit : ∀ (ds : Digits), ∀ x ∈ ds.chars, x ≠ 'e' ∧ x ≠ 'E' := fun ds x hx =>
      ⟨ne_of_isDigit (ds.digit x hx) (by decide), ne_of_isDigit (ds.digit x hx) (by decide)⟩
    intro x hx
    refine decide_eq_true ?_
    rcases List.mem_append.mp hx with hx | hx
    · exact hdigit n.whole x hx
    · cases hf : n.frac with
      | none => simp [hf] at hx
      | some ds =>
        rw [hf] at hx
        rcases List.mem_cons.mp hx with rfl | hx
        · decide
        · exact hdigit ds x hx
  rw [unsignedDecimal, if_neg hinf]
  cases he : n.exponent with
  | none =>
    have hspan : n.unsignedText.span (fun c => c ≠ 'e' ∧ c ≠ 'E') = (n.mantissaText, []) := by
      rw [Numeral.unsignedText, he]
      exact span_append hnoexp (by simp)
    rw [hspan]
    simp [mantissa_text, Numeral.unsignedValue, he]
  | some e =>
    have hspan : n.unsignedText.span (fun c => c ≠ 'e' ∧ c ≠ 'E') = (n.mantissaText, e.text) := by
      rw [Numeral.unsignedText, he]
      refine span_append hnoexp ?_
      intro x hx
      obtain rfl := Option.some.inj hx
      split <;> decide
    rw [hspan]
    simp [Exponent.text, mantissa_text, signedDigits_exponent, Numeral.unsignedValue, he]

/-- What starts with a digit and goes on as a numeral is a decimal literal. -/
theorem numericLiteral_cons {c : Char} {cs : List Char} (hc : c.isDigit = true)
    (hcs : ∀ d ∈ cs, d.isDigit = true ∨ d ∈ numeralChars) :
    numericLiteral (c :: cs) = (unsignedDecimal (c :: cs)).getD .nan := by
  have hno : ∀ {d ds}, cs = d :: ds → d.isDigit = false → d ∉ numeralChars → False := by
    intro d ds h hd hm
    subst h
    rcases hcs d List.mem_cons_self with h | h
    · exact absurd h (by simp [hd])
    · exact hm h
  rw [numericLiteral.eq_def]
  split
  · simp_all
  · exact (hno (List.cons.inj ‹_›).2 (by decide) (by decide)).elim
  · exact (hno (List.cons.inj ‹_›).2 (by decide) (by decide)).elim
  · exact (hno (List.cons.inj ‹_›).2 (by decide) (by decide)).elim
  · exact (hno (List.cons.inj ‹_›).2 (by decide) (by decide)).elim
  · exact (hno (List.cons.inj ‹_›).2 (by decide) (by decide)).elim
  · exact (hno (List.cons.inj ‹_›).2 (by decide) (by decide)).elim
  · exact absurd (List.cons.inj ‹_›).1 (ne_of_isDigit hc (by decide))
  · exact absurd (List.cons.inj ‹_›).1 (ne_of_isDigit hc (by decide))
  · rfl

theorem numericLiteral_text (n : Numeral) : numericLiteral n.text = .finite n.value := by
  match hs : n.sign with
  | none =>
    have htext : n.text = n.unsignedText := by rw [Numeral.text, hs]; rfl
    obtain ⟨c, cs, hc, hd⟩ : ∃ c cs, n.unsignedText = c :: cs ∧ c.isDigit = true := by
      obtain ⟨c, cs, hc, hd⟩ := n.whole.exists_cons
      exact ⟨c, _, by rw [Numeral.unsignedText, Numeral.mantissaText, hc]; rfl, hd⟩
    have hchars : ∀ d ∈ cs, d.isDigit = true ∨ d ∈ numeralChars := fun d hm =>
      Numeral.mem_text (by rw [htext, hc]; exact List.mem_cons_of_mem c hm)
    rw [htext, hc, numericLiteral_cons hd hchars, ← hc, unsignedDecimal_text, Numeral.value, hs]
    rfl
  | some .plus =>
    have htext : n.text = '+' :: n.unsignedText := by rw [Numeral.text, hs]; rfl
    rw [htext, Numeral.value, hs]
    show (unsignedDecimal n.unsignedText).getD .nan = _
    rw [unsignedDecimal_text]
    rfl
  | some .minus =>
    have htext : n.text = '-' :: n.unsignedText := by rw [Numeral.text, hs]; rfl
    rw [htext, Numeral.value, hs]
    show ((unsignedDecimal n.unsignedText).map JSNumber.neg).getD .nan = _
    rw [unsignedDecimal_text]
    rfl

theorem trim_of_forall {cs : List Char} (h : ∀ c ∈ cs, isStrWhiteSpace c = false) :
    trim cs = cs := by
  have hdrop : ∀ ds : List Char, (∀ c ∈ ds, isStrWhiteSpace c = false) →
      ds.dropWhile isStrWhiteSpace = ds := by
    intro ds hds
    cases ds with
    | nil => rfl
    | cons d ds => rw [List.dropWhile_cons, hds d List.mem_cons_self]; rfl
  rw [trim, hdrop cs h, hdrop cs.reverse (fun c hc => h c (List.mem_reverse.mp hc)),
    List.reverse_reverse]

/-- No character of a numeral is white space. -/
theorem isStrWhiteSpace_numeral {c : Char} (h : c.isDigit = true ∨ c ∈ numeralChars) :
    isStrWhiteSpace c = false := by
  rcases h with h | h
  · have hd : '0'.toNat ≤ c.toNat ∧ c.toNat ≤ '9'.toNat := by
      simpa [Char.isDigit, UInt32.le_iff_toNat_le] using h
    simp only [Char.reduceToNat] at hd
    simp only [isStrWhiteSpace, Bool.or_eq_false_iff, Bool.and_eq_false_iff,
      decide_eq_false_iff_not]
    omega
  · simp only [numeralChars, List.mem_cons, List.not_mem_nil, or_false] at h
    rcases h with rfl | rfl | rfl | rfl | rfl <;> decide

/-- **A decimal numeral converts to its value exactly when that is a double.** -/
theorem Number_numeral_iff {value : String} {n : Numeral} (h : value.toList = n.text) :
    Number value = .finite n.value ↔ FloatFormat.binary64.Represents n.value := by
  have hspace : ∀ c ∈ n.text, isStrWhiteSpace c = false := fun c hc =>
    isStrWhiteSpace_numeral (Numeral.mem_text hc)
  rw [Number, h, trim_of_forall hspace, numericLiteral_text, rounded_finite_iff]

end Subtle.Search
