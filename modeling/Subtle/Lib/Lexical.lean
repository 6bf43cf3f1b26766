import Mathlib.Data.Rat.Defs
import Mathlib.Algebra.Order.Field.Rat
import Mathlib.Tactic.Cases

/-!
# Quoted strings and decimal numerals

Two kinds of literals in a text.  A quoted string ends at the first double quote that
is not escaped, and a backslash escapes the character after it.  A decimal numeral is
a sign, digits, a fraction and an exponent, all but the digits optional.

* `readQuoted`: reads the content of a quoted string.
* `readQuoted_append_iff`: **a content is read back as it was written exactly when it
  is sealed**: every quote in it is escaped, and its last backslash escapes nothing
  outside.
* `Numeral`: a decimal numeral, with its `Numeral.text` and its `Numeral.value`.
-/

namespace Subtle.Lib

/-! ### Quoted strings -/

/-- The content of a quoted string, after its first quote, and the rest of the text. -/
def readQuoted : List Char → Option (List Char × List Char)
  | [] => none
  | '"' :: cs => some ([], cs)
  | ['\\'] => none
  | '\\' :: c :: cs => (readQuoted cs).map fun p => ('\\' :: c :: p.1, p.2)
  | c :: cs => (readQuoted cs).map fun p => (c :: p.1, p.2)

/-- The number of backslashes at the end. -/
def trailing (cs : List Char) : Nat := (cs.reverse.takeWhile (· = '\\')).length

/-- Every quote stands after an odd number of backslashes, and the end after an even
number. -/
structure Sealed (cs : List Char) : Prop where
  quotes : ∀ before after, cs = before ++ '"' :: after → trailing before % 2 = 1
  last : trailing cs % 2 = 0

theorem readQuoted_of_ne {c : Char} (hq : c ≠ '"') (hb : c ≠ '\\') (cs : List Char) :
    readQuoted (c :: cs) = (readQuoted cs).map fun p => (c :: p.1, p.2) := by
  rw [readQuoted.eq_def]
  split <;> simp_all

theorem readQuoted_escape (c : Char) (cs : List Char) :
    readQuoted ('\\' :: c :: cs) = (readQuoted cs).map fun p => ('\\' :: c :: p.1, p.2) := rfl

/-- A character that is no backslash ends the count. -/
theorem trailing_append_of_ne {c : Char} (hb : c ≠ '\\') (as cs : List Char) :
    trailing (as ++ c :: cs) = trailing cs := by
  have hhead : List.takeWhile (fun x => decide (x = '\\')) (c :: as.reverse) = [] := by simp [hb]
  rw [trailing, trailing, List.reverse_append, List.reverse_cons, List.append_assoc,
    List.singleton_append, List.takeWhile_append, hhead, List.append_nil]
  split_ifs with h
  · rw [h, List.length_reverse]
  · rfl

theorem trailing_cons_of_ne {c : Char} (hb : c ≠ '\\') (cs : List Char) :
    trailing (c :: cs) = trailing cs := trailing_append_of_ne hb [] cs

/-- An escape in front does not change whether the end is escaped. -/
theorem trailing_escape (c : Char) (cs : List Char) :
    trailing ('\\' :: c :: cs) % 2 = trailing cs % 2 := by
  by_cases hc : c = '\\'
  · subst hc
    by_cases hall : ∀ x ∈ cs, x = '\\'
    · obtain ⟨n, rfl⟩ : ∃ n, cs = List.replicate n '\\' :=
        ⟨cs.length, List.eq_replicate_iff.mpr ⟨rfl, hall⟩⟩
      have hlen : ∀ m, trailing (List.replicate m '\\') = m := by simp [trailing]
      rw [← List.replicate_succ, ← List.replicate_succ, hlen, hlen]
      omega
    · obtain ⟨x, hx, hne⟩ : ∃ x ∈ cs, x ≠ '\\' := by simpa using hall
      obtain ⟨as, bs, rfl⟩ := List.append_of_mem hx
      rw [trailing_append_of_ne hne, ← List.cons_append, ← List.cons_append,
        trailing_append_of_ne hne]
  · have hone : trailing ('\\' :: c :: cs) = trailing cs := trailing_append_of_ne hc ['\\'] cs
    rw [hone]

theorem sealed_nil : Sealed [] where
  quotes before after h := by simp at h
  last := rfl

theorem sealed_cons_of_ne {c : Char} (hq : c ≠ '"') (hb : c ≠ '\\') {cs : List Char} :
    Sealed (c :: cs) ↔ Sealed cs := by
  constructor
  · intro h
    refine ⟨?_, by rw [← h.last, trailing_cons_of_ne hb]⟩
    intro before after heq
    rw [← h.quotes (c :: before) after (by rw [heq, List.cons_append]), trailing_cons_of_ne hb]
  · intro h
    refine ⟨?_, by rw [trailing_cons_of_ne hb, h.last]⟩
    intro before after heq
    cases before with
    | nil => exact absurd (List.cons.inj heq).1 hq
    | cons d before =>
      obtain ⟨rfl, htail⟩ := List.cons.inj heq
      rw [trailing_cons_of_ne hb, h.quotes before after htail]

theorem sealed_escape {c : Char} {cs : List Char} : Sealed ('\\' :: c :: cs) ↔ Sealed cs := by
  constructor
  · intro h
    refine ⟨?_, by rw [← h.last, trailing_escape]⟩
    intro before after heq
    rw [← h.quotes ('\\' :: c :: before) after (by rw [heq]; rfl), trailing_escape]
  · intro h
    refine ⟨?_, by rw [trailing_escape, h.last]⟩
    intro before after heq
    cases before with
    | nil => exact absurd (List.cons.inj heq).1 (by decide)
    | cons b before =>
      obtain ⟨rfl, htail⟩ := List.cons.inj heq
      cases before with
      | nil => rfl
      | cons d before =>
        obtain ⟨rfl, hrest⟩ := List.cons.inj htail
        rw [trailing_escape, h.quotes before after hrest]

theorem not_sealed_quote (cs : List Char) : ¬ Sealed ('"' :: cs) := fun h =>
  absurd (h.quotes [] cs rfl) (by decide)

theorem not_sealed_backslash : ¬ Sealed ['\\'] := fun h => absurd h.last (by decide)

/-- **A content is read back as it was written exactly when it is sealed.** -/
theorem readQuoted_append_iff {cs rest : List Char} :
    readQuoted (cs ++ '"' :: rest) = some (cs, rest) ↔ Sealed cs := by
  fun_induction readQuoted cs with
  | case1 => exact iff_of_true rfl sealed_nil
  | case2 cs => exact iff_of_false (by simp [readQuoted]) (not_sealed_quote cs)
  | case3 =>
    refine iff_of_false ?_ not_sealed_backslash
    intro h
    obtain ⟨p, -, hp⟩ := Option.map_eq_some_iff.mp h
    simp at hp
  | case4 c cs ih =>
    rw [sealed_escape, ← ih, List.cons_append, List.cons_append, readQuoted_escape]
    simp
  | case5 c cs hquote hend hescape ih =>
    have hq : c ≠ '"' := hquote
    have hb : c ≠ '\\' := by
      rintro rfl
      cases cs with
      | nil => exact hend rfl rfl
      | cons d cs => exact hescape d cs rfl rfl
    rw [sealed_cons_of_ne hq hb, ← ih, List.cons_append, readQuoted_of_ne hq hb]
    simp

/-! ### Decimal numerals -/

/-- One decimal digit or more. -/
structure Digits where
  chars : List Char
  ne_nil : chars ≠ []
  digit : ∀ c ∈ chars, c.isDigit = true

def Digits.toNat (ds : Digits) : Nat := ds.chars.foldl (fun n c => n * 10 + (c.toNat - '0'.toNat)) 0

inductive Sign where
  | plus
  | minus
  deriving DecidableEq

/-- A sign that may be left out. -/
def signText : Option Sign → List Char
  | none => []
  | some .plus => ['+']
  | some .minus => ['-']

def applySign {α : Type*} [Neg α] : Option Sign → α → α
  | some .minus, x => -x
  | _, x => x

/-- The exponent of a numeral, after `e` or `E`. -/
structure Exponent where
  capital : Bool
  sign : Option Sign
  digits : Digits

namespace Exponent

def text (e : Exponent) : List Char :=
  (if e.capital then 'E' else 'e') :: (signText e.sign ++ e.digits.chars)

def value (e : Exponent) : Int := applySign e.sign (e.digits.toNat : Int)

end Exponent

structure Numeral where
  sign : Option Sign
  whole : Digits
  frac : Option Digits
  exponent : Option Exponent

namespace Numeral

/-- The digits with the fraction. -/
def mantissaText (n : Numeral) : List Char :=
  n.whole.chars ++ n.frac.elim [] fun ds => '.' :: ds.chars

/-- The numeral without its sign. -/
def unsignedText (n : Numeral) : List Char :=
  n.mantissaText ++ n.exponent.elim [] Exponent.text

def text (n : Numeral) : List Char := signText n.sign ++ n.unsignedText

def mantissa (n : Numeral) : ℚ :=
  n.whole.toNat + n.frac.elim 0 fun ds => (ds.toNat : ℚ) / 10 ^ ds.chars.length

def unsignedValue (n : Numeral) : ℚ :=
  n.mantissa * 10 ^ n.exponent.elim 0 Exponent.value

def value (n : Numeral) : ℚ := applySign n.sign n.unsignedValue

end Numeral

theorem Digits.exists_cons (ds : Digits) : ∃ c cs, ds.chars = c :: cs ∧ c.isDigit = true := by
  obtain ⟨c, cs, h⟩ := List.exists_cons_of_ne_nil ds.ne_nil
  exact ⟨c, cs, h, ds.digit c (h ▸ List.mem_cons_self)⟩

/-- What a numeral is made of. -/
def numeralChars : List Char := ['+', '-', '.', 'e', 'E']

theorem mem_signText {sign : Option Sign} {c : Char} (h : c ∈ signText sign) :
    c ∈ numeralChars := by
  match sign, h with
  | some .plus, h => simp [signText] at h; simp [numeralChars, h]
  | some .minus, h => simp [signText] at h; simp [numeralChars, h]

theorem Numeral.mem_text {n : Numeral} {c : Char} (h : c ∈ n.text) :
    c.isDigit = true ∨ c ∈ numeralChars := by
  simp only [text, unsignedText, mantissaText, List.mem_append] at h
  rcases h with h | (h | h) | h
  · exact Or.inr (mem_signText h)
  · exact Or.inl (n.whole.digit c h)
  · cases hf : n.frac with
    | none => simp [hf] at h
    | some ds =>
      rw [hf] at h
      rcases List.mem_cons.mp h with rfl | h
      · exact Or.inr (by decide)
      · exact Or.inl (ds.digit c h)
  · cases he : n.exponent with
    | none => simp [he] at h
    | some e =>
      rw [he] at h
      rcases List.mem_cons.mp h with rfl | h
      · right
        split <;> decide
      · rcases List.mem_append.mp h with h | h
        · exact Or.inr (mem_signText h)
        · exact Or.inl (e.digits.digit c h)

end Subtle.Lib
