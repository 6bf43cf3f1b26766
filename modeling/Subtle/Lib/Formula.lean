import Subtle.Lib.Machine

/-!
# Boolean formulas written with AND, OR and parentheses

A text over opaque literals is a list of `Token`s.  How it reads depends on
which connective binds tighter; `Reads t` is the grammar with `t` the tighter
one, and both connectives associate to the left.

* `Reads.run`: a stack automaton over the tokens computes what a text reads as.
* `Reads.unique`: **the grammar is unambiguous**, since the automaton is a
  function.
* `Reads.tightChain`, `Reads.looseChain`: operands joined by one connective
  read as the chain of them, and `eval_chain_and`, `eval_chain_or` give its
  value.
-/

namespace Subtle.Lib

/-- The two connectives. -/
inductive Connective where
  | and
  | or
  deriving DecidableEq, Repr

namespace Connective

/-- The connective that is not this one. -/
def other : Connective → Connective
  | and => or
  | or => and

@[simp] theorem other_and : other and = or := rfl
@[simp] theorem other_or : other or = and := rfl

theorem other_ne (c : Connective) : c.other ≠ c := by cases c <;> decide

def eval : Connective → Bool → Bool → Bool
  | and, a, b => a && b
  | or, a, b => a || b

end Connective

/-- Formulas over literals in `α`. -/
inductive Formula (α : Type*) where
  | lit (a : α)
  | bin (c : Connective) (φ ψ : Formula α)
  deriving DecidableEq, Repr

inductive Token (α : Type*) where
  | lit (a : α)
  | op (c : Connective)
  | lparen
  | rparen
  deriving DecidableEq, Repr

/-- How tightly a piece of text holds together. -/
inductive Level where
  | atom
  | tight
  | loose

variable {α : Type*}

/-- **The grammar in which `t` binds tighter than the other connective.** -/
inductive Reads (t : Connective) : Level → List (Token α) → Formula α → Prop
  | lit (a : α) : Reads t .atom [.lit a] (.lit a)
  | paren {ts φ} : Reads t .loose ts φ → Reads t .atom (.lparen :: (ts ++ [.rparen])) φ
  | tight {ts φ} : Reads t .atom ts φ → Reads t .tight ts φ
  | tightOp {ts us φ ψ} : Reads t .tight ts φ → Reads t .atom us ψ →
      Reads t .tight (ts ++ .op t :: us) (.bin t φ ψ)
  | loose {ts φ} : Reads t .tight ts φ → Reads t .loose ts φ
  | looseOp {ts us φ ψ} : Reads t .loose ts φ → Reads t .tight us ψ →
      Reads t .loose (ts ++ .op t.other :: us) (.bin t.other φ ψ)

/-! ### The automaton -/

/-- The left operands that wait for their right one, by connective. -/
structure Frame (α : Type*) where
  loose : Option (Formula α)
  tight : Option (Formula α)

/-- Either an operand is due, or an operator after the operand `φ`. -/
inductive Mode (α : Type*) where
  | operand (f : Frame α)
  | operator (loose : Option (Formula α)) (φ : Formula α)

/-- The frames of the open parentheses stand on the stack. -/
structure Reader (α : Type*) where
  mode : Mode α
  stack : List (Frame α)

/-- Join a waiting left operand, if there is one. -/
def close (c : Connective) : Option (Formula α) → Formula α → Formula α
  | none, ψ => ψ
  | some φ, ψ => .bin c φ ψ

def readStep (t : Connective) : Reader α → Token α → Option (Reader α)
  | ⟨.operand f, st⟩, .lit a => some ⟨.operator f.loose (close t f.tight (.lit a)), st⟩
  | ⟨.operand f, st⟩, .lparen => some ⟨.operand ⟨none, none⟩, f :: st⟩
  | ⟨.operator l φ, st⟩, .op c =>
      if c = t then some ⟨.operand ⟨l, some φ⟩, st⟩
      else some ⟨.operand ⟨some (close t.other l φ), none⟩, st⟩
  | ⟨.operator l φ, f :: st⟩, .rparen =>
      some ⟨.operator f.loose (close t f.tight (close t.other l φ)), st⟩
  | _, _ => none

def reader (t : Connective) : Machine (Reader α) (Token α) := ⟨readStep t⟩

/-- Where the automaton stands after a text that reads as `φ` at a level. -/
def ReadsTo (t : Connective) : Level → List (Token α) → Formula α → Prop
  | .atom, ts, φ => ∀ f st, (reader t).run ⟨.operand f, st⟩ ts =
      some ⟨.operator f.loose (close t f.tight φ), st⟩
  | .tight, ts, φ => ∀ l st, (reader t).run ⟨.operand ⟨l, none⟩, st⟩ ts = some ⟨.operator l φ, st⟩
  | .loose, ts, φ => ∀ st, ∃ l ψ, close t.other l ψ = φ ∧
      (reader t).run ⟨.operand ⟨none, none⟩, st⟩ ts = some ⟨.operator l ψ, st⟩

theorem Reads.run {t : Connective} {lv : Level} {ts : List (Token α)} {φ : Formula α}
    (h : Reads t lv ts φ) : ReadsTo t lv ts φ := by
  induction h with
  | lit a => intro f st; rfl
  | paren _ ih =>
    intro f st
    obtain ⟨l, ψ, rfl, hrun⟩ := ih (f :: st)
    exact Machine.run_cons.mpr ⟨_, rfl, Machine.run_append.mpr ⟨_, hrun, rfl⟩⟩
  | tight _ ih => intro l st; exact ih ⟨l, none⟩ st
  | @tightOp ts us φ ψ _ _ ih₁ ih₂ =>
    intro l st
    refine Machine.run_append.mpr ⟨_, ih₁ l st, Machine.run_cons.mpr ⟨_, ?_, ih₂ ⟨l, some φ⟩ st⟩⟩
    exact if_pos rfl
  | loose _ ih => intro st; exact ⟨none, _, rfl, ih none st⟩
  | @looseOp ts us φ ψ _ _ ih₁ ih₂ =>
    intro st
    obtain ⟨l, χ, rfl, hrun⟩ := ih₁ st
    refine ⟨some (close t.other l χ), ψ, rfl,
      Machine.run_append.mpr ⟨_, hrun, Machine.run_cons.mpr ⟨_, ?_, ih₂ _ st⟩⟩⟩
    exact if_neg t.other_ne

/-- **The grammar is unambiguous.** -/
theorem Reads.unique {t : Connective} {ts : List (Token α)} {φ ψ : Formula α}
    (h : Reads t .loose ts φ) (h' : Reads t .loose ts ψ) : φ = ψ := by
  obtain ⟨l, φ', rfl, h₁⟩ := h.run []
  obtain ⟨m, ψ', rfl, h₂⟩ := h'.run []
  rw [h₁, Option.some.injEq, Reader.mk.injEq, Mode.operator.injEq] at h₂
  rw [h₂.1.1, h₂.1.2]

/-! ### Chains -/

/-- The texts of the operands, each after its connective. -/
def opTokens (c : Connective) (us : List (List (Token α))) : List (Token α) :=
  us.flatMap fun u => .op c :: u

/-- Operands joined by one connective, from the left. -/
def chain (c : Connective) (φ : Formula α) (ψs : List (Formula α)) : Formula α :=
  ψs.foldl (.bin c) φ

theorem Reads.tightChain {t : Connective} {us : List (List (Token α))} {ψs : List (Formula α)}
    (hus : List.Forall₂ (Reads t .atom) us ψs) {ts : List (Token α)} {φ : Formula α}
    (h : Reads t .tight ts φ) : Reads t .tight (ts ++ opTokens t us) (chain t φ ψs) := by
  induction hus generalizing ts φ with
  | nil => simpa [opTokens, chain] using h
  | @cons u ψ us ψs hu _ ih =>
    have := ih (.tightOp h hu)
    simpa [opTokens, chain] using this

theorem Reads.looseChain {t : Connective} {us : List (List (Token α))} {ψs : List (Formula α)}
    (hus : List.Forall₂ (Reads t .tight) us ψs) {ts : List (Token α)} {φ : Formula α}
    (h : Reads t .loose ts φ) :
    Reads t .loose (ts ++ opTokens t.other us) (chain t.other φ ψs) := by
  induction hus generalizing ts φ with
  | nil => simpa [opTokens, chain] using h
  | @cons u ψ us ψs hu _ ih =>
    have := ih (.looseOp h hu)
    simpa [opTokens, chain] using this

/-! ### Values -/

/-- The value of a formula under a valuation of its literals. -/
def Formula.eval (v : α → Bool) : Formula α → Bool
  | .lit a => v a
  | .bin c φ ψ => c.eval (φ.eval v) (ψ.eval v)

theorem eval_chain_and (v : α → Bool) (φ : Formula α) (ψs : List (Formula α)) :
    (chain .and φ ψs).eval v = (φ.eval v && ψs.all fun ψ => ψ.eval v) := by
  induction ψs generalizing φ with
  | nil => simp [chain]
  | cons ψ ψs ih =>
    rw [show chain .and φ (ψ :: ψs) = chain .and (.bin .and φ ψ) ψs from rfl, ih, List.all_cons,
      Formula.eval, Connective.eval, Bool.and_assoc]

theorem eval_chain_or (v : α → Bool) (φ : Formula α) (ψs : List (Formula α)) :
    (chain .or φ ψs).eval v = (φ.eval v || ψs.any fun ψ => ψ.eval v) := by
  induction ψs generalizing φ with
  | nil => simp [chain]
  | cons ψ ψs ih =>
    rw [show chain .or φ (ψ :: ψs) = chain .or (.bin .or φ ψ) ψs from rfl, ih, List.any_cons,
      Formula.eval, Connective.eval, Bool.or_assoc]

end Subtle.Lib
