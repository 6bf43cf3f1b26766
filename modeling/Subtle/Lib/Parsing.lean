import Subtle.Lib.Formula

/-!
# Formulas read from a text

A text of literals, connectives and parentheses is taken apart into tokens, and these read
as a formula.  How far a literal goes is for `readLiteral` to say, which is given the text
from the literal on.

* `lex`: the tokens of a text.
* `lex_print`: printed tokens of the grammar are taken apart again, if every literal is
  closed: it is read back in front of all that may follow it.
* `parse_print`: **a printed text of the grammar is parsed to what its tokens read as**.
-/

namespace Subtle.Lib

/-! ### Printing -/

/-- ` AND ` and ` OR `. -/
def Connective.chars : Connective → List Char
  | and => [' ', 'A', 'N', 'D', ' ']
  | or => [' ', 'O', 'R', ' ']

def Token.chars : Token String → List Char
  | lit s => s.toList
  | op c => c.chars
  | lparen => ['(']
  | rparen => [')']

def print (ts : List (Token String)) : List Char := ts.flatMap Token.chars

@[simp] theorem print_nil : print [] = [] := rfl

@[simp] theorem print_cons (t : Token String) (ts : List (Token String)) :
    print (t :: ts) = t.chars ++ print ts := rfl

@[simp] theorem print_append (ts us : List (Token String)) :
    print (ts ++ us) = print ts ++ print us := List.flatMap_append

/-! ### Reading -/

/-- The text after a connective in front, and which one it is. -/
def readConnective : List Char → Option (Connective × List Char)
  | ' ' :: 'A' :: 'N' :: 'D' :: ' ' :: cs => some (.and, cs)
  | ' ' :: 'O' :: 'R' :: ' ' :: cs => some (.or, cs)
  | _ => none

@[simp] theorem readConnective_chars (c : Connective) (cs : List Char) :
    readConnective (c.chars ++ cs) = some (c, cs) := by
  cases c <;> rfl

section

variable (readLiteral : List Char → Option (List Char × List Char))

/-- The tokens of a text, if there are at most `fuel` of them; `operand` says whether an
operand is due. -/
def lex : (fuel : Nat) → (operand : Bool) → List Char → Option (List (Token String))
  | 0, true, _ => none
  | 0, false, cs => if cs = [] then some [] else none
  | fuel + 1, true, cs =>
      if cs.head? = some '(' then (lex fuel true cs.tail).map (.lparen :: ·)
      else (readLiteral cs).bind fun p =>
        (lex fuel false p.2).map (.lit (String.ofList p.1) :: ·)
  | fuel + 1, false, cs =>
      if cs = [] then some []
      else if cs.head? = some ')' then (lex fuel false cs.tail).map (.rparen :: ·)
      else (readConnective cs).bind fun p => (lex fuel true p.2).map (.op p.1 :: ·)

/-- The formula that tokens read as. -/
def readFormula (t : Connective) (ts : List (Token String)) : Option (Formula String) :=
  ((reader t).run ⟨.operand ⟨none, none⟩, []⟩ ts).bind fun
    | ⟨.operator l φ, []⟩ => some (close t.other l φ)
    | _ => none

/-- The formula of a text, where `t` binds tighter than the other connective. -/
def parse (t : Connective) (cs : List Char) : Option (Formula String) :=
  (lex readLiteral cs.length true cs).bind (readFormula t)

/-- What may follow an operand. -/
inductive Follows : List Char → Prop
  | nil : Follows []
  | rparen (cs : List Char) : Follows (')' :: cs)
  | op (c : Connective) (cs : List Char) : Follows (c.chars ++ cs)

/-- The literal is read back in front of all that may follow it. -/
structure Closed (s : String) : Prop where
  ne_nil : s.toList ≠ []
  opens : s.toList.head? ≠ some '('
  reads : ∀ rest, Follows rest → readLiteral (s.toList ++ rest) = some (s.toList, rest)

variable {readLiteral}

theorem lex_lit {s : String} (hs : Closed readLiteral s) {rest : List Char} (h : Follows rest)
    (fuel : Nat) : lex readLiteral (fuel + 1) true (s.toList ++ rest) =
      (lex readLiteral fuel false rest).map (.lit s :: ·) := by
  have hhead : (s.toList ++ rest).head? ≠ some '(' := by
    rw [List.head?_append_of_ne_nil _ hs.ne_nil]
    exact hs.opens
  rw [lex, if_neg hhead, hs.reads rest h, Option.bind_some, String.ofList_toList]

theorem lex_lparen (fuel : Nat) (cs : List Char) : lex readLiteral (fuel + 1) true ('(' :: cs) =
    (lex readLiteral fuel true cs).map (.lparen :: ·) := by
  rw [lex, List.head?_cons, if_pos rfl, List.tail_cons]

theorem lex_rparen (fuel : Nat) (cs : List Char) : lex readLiteral (fuel + 1) false (')' :: cs) =
    (lex readLiteral fuel false cs).map (.rparen :: ·) := by
  rw [lex, if_neg (List.cons_ne_nil _ _), List.head?_cons, if_pos rfl, List.tail_cons]

theorem lex_op (c : Connective) (fuel : Nat) (cs : List Char) :
    lex readLiteral (fuel + 1) false (c.chars ++ cs) =
      (lex readLiteral fuel true cs).map (.op c :: ·) := by
  rw [lex, if_neg (by cases c <;> simp [Connective.chars]),
    if_neg (by cases c <;> simp [Connective.chars]), readConnective_chars, Option.bind_some]

/-- The tokens, printed in front of what may follow an operand, are taken apart again. -/
def Lexes (readLiteral : List Char → Option (List Char × List Char)) (ts : List (Token String)) :
    Prop :=
  ∀ rest, Follows rest → ∀ fuel, lex readLiteral (ts.length + fuel) true (print ts ++ rest) =
    (lex readLiteral fuel false rest).map (ts ++ ·)

theorem lexes_lit {s : String} (hs : Closed readLiteral s) : Lexes readLiteral [.lit s] := by
  intro rest hrest fuel
  rw [print_cons, print_nil, List.append_nil, List.length_singleton, Nat.add_comm]
  exact lex_lit hs hrest fuel

theorem Lexes.paren {ts : List (Token String)} (h : Lexes readLiteral ts) :
    Lexes readLiteral (.lparen :: (ts ++ [.rparen])) := by
  intro rest hrest fuel
  have hlength : (Token.lparen :: (ts ++ [.rparen])).length + fuel =
      ts.length + (fuel + 1) + 1 := by
    simp
    omega
  have htext : print (Token.lparen :: (ts ++ [.rparen])) ++ rest =
      '(' :: (print ts ++ ')' :: rest) := by
    simp [Token.chars]
  rw [hlength, htext, lex_lparen, h _ (.rparen rest), lex_rparen, Option.map_map, Option.map_map]
  congr 1
  funext us
  simp

theorem Lexes.op {ts us : List (Token String)} (h : Lexes readLiteral ts)
    (h' : Lexes readLiteral us) (c : Connective) : Lexes readLiteral (ts ++ .op c :: us) := by
  intro rest hrest fuel
  have hlength : (ts ++ .op c :: us).length + fuel = ts.length + (us.length + fuel + 1) := by
    simp
    omega
  have htext : print (ts ++ .op c :: us) ++ rest =
      print ts ++ (c.chars ++ (print us ++ rest)) := by
    simp [Token.chars]
  rw [hlength, htext, h _ (.op c _), lex_op, h' rest hrest, Option.map_map, Option.map_map]
  congr 1
  funext vs
  simp

/-- **Printed tokens of the grammar are taken apart again.** -/
theorem lex_print {t : Connective} {lv : Level} {ts : List (Token String)} {φ : Formula String}
    (h : Reads t lv ts φ) (hclosed : ∀ s, Token.lit s ∈ ts → Closed readLiteral s) :
    Lexes readLiteral ts := by
  induction h with
  | lit a => exact lexes_lit (hclosed a List.mem_cons_self)
  | paren _ ih =>
    exact (ih fun s hs =>
      hclosed s (List.mem_cons_of_mem _ (List.mem_append_left _ hs))).paren
  | tight _ ih => exact ih hclosed
  | tightOp _ _ ih₁ ih₂ =>
    exact (ih₁ fun s hs => hclosed s (List.mem_append_left _ hs)).op
      (ih₂ fun s hs => hclosed s (List.mem_append_right _ (List.mem_cons_of_mem _ hs))) _
  | loose _ ih => exact ih hclosed
  | looseOp _ _ ih₁ ih₂ =>
    exact (ih₁ fun s hs => hclosed s (List.mem_append_left _ hs)).op
      (ih₂ fun s hs => hclosed s (List.mem_append_right _ (List.mem_cons_of_mem _ hs))) _

/-- Every token has a text. -/
theorem length_le_print {ts : List (Token String)}
    (hclosed : ∀ s, Token.lit s ∈ ts → Closed readLiteral s) : ts.length ≤ (print ts).length := by
  induction ts with
  | nil => exact Nat.le_refl 0
  | cons t ts ih =>
    have hrest := ih fun s hs => hclosed s (List.mem_cons_of_mem _ hs)
    have hone : 1 ≤ t.chars.length := by
      cases t with
      | lit s => exact List.length_pos_iff.mpr (hclosed s List.mem_cons_self).ne_nil
      | op c => cases c <;> decide
      | lparen => decide
      | rparen => decide
    rw [print_cons, List.length_append, List.length_cons]
    omega

theorem readFormula_of_reads {t : Connective} {ts : List (Token String)} {φ : Formula String}
    (h : Reads t .loose ts φ) : readFormula t ts = some φ := by
  obtain ⟨l, ψ, rfl, hrun⟩ := h.run []
  rw [readFormula, hrun]
  rfl

/-- **A printed text of the grammar is parsed to what its tokens read as.** -/
theorem parse_print {t : Connective} {ts : List (Token String)} {φ : Formula String}
    (h : Reads t .loose ts φ) (hclosed : ∀ s, Token.lit s ∈ ts → Closed readLiteral s) :
    parse readLiteral t (print ts) = some φ := by
  obtain ⟨fuel, hfuel⟩ := Nat.exists_eq_add_of_le (length_le_print hclosed)
  have hlex := lex_print h hclosed [] .nil fuel
  have hend : lex readLiteral fuel false [] = some [] := by
    cases fuel <;> exact if_pos rfl
  rw [List.append_nil, ← hfuel, hend, Option.map_some, List.append_nil] at hlex
  rw [parse, hlex, Option.bind_some, readFormula_of_reads h]

end

end Subtle.Lib
