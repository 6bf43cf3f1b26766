import Subtle.Lib.Machine
import Mathlib.Algebra.BigOperators.Group.Multiset.Basic
import Mathlib.Algebra.Order.Group.Multiset

/-!
# What becomes of what a service is given

The calls of a service bring items, counted with their multiplicity.  An item is kept in the
state, or an outstanding operation carries it, or it has been lost on the way.

* `Ledger`: the items of calls, operations and states, which no step multiplies.
* `Ledger.run_le`: **no item is there more often than it was brought**, after any run.
* `Ledger.run_eq`: **every item is there as often as it was brought**, after a run of which
  no answer loses one.
-/

namespace Subtle.Lib

variable {σ ε ω ρ τ : Type*}

/-- A call does with its items what it has to; an answer may lose some. -/
structure Ledger (S : Service σ ε ω ρ) (τ : Type*) where
  brings : ε → Multiset τ
  carries : ω → Multiset τ
  keeps : σ → Multiset τ
  call : ∀ s x s' new, S.call s x = some (s', new) →
    keeps s' + (new.map carries).sum = keeps s + brings x
  answer : ∀ s op r s' new, S.answer s op r = some (s', new) →
    keeps s' + (new.map carries).sum ≤ keeps s + carries op

namespace Ledger

variable {S : Service σ ε ω ρ} (L : Ledger S τ)

/-- The items that are there. -/
def holds (c : Config σ ω) : Multiset τ := L.keeps c.core + (c.pending.map L.carries).sum

/-- The items that an event brings. -/
def bringsOf : Event ε ρ → Multiset τ
  | .call x => L.brings x
  | .answer _ _ => 0

/-- The items that the events bring. -/
def brought (es : List (Event ε ρ)) : Multiset τ := (es.map L.bringsOf).sum

/-- The answer loses nothing. -/
def Lossless (s : σ) (op : ω) (r : ρ) : Prop :=
  ∀ s' new, S.answer s op r = some (s', new) →
    L.keeps s' + (new.map L.carries).sum = L.keeps s + L.carries op

variable {L} {c c' d : Config σ ω} {e : Event ε ρ} {es : List (Event ε ρ)}

@[simp] theorem brought_nil : L.brought [] = 0 := rfl

@[simp] theorem brought_cons : L.brought (e :: es) = L.bringsOf e + L.brought es := rfl

theorem brought_concat (es : List (Event ε ρ)) (e : Event ε ρ) :
    L.brought (es ++ [e]) = L.brought es + L.bringsOf e := by
  rw [brought, List.map_append, List.sum_append]
  exact congrArg _ (add_zero _)

theorem holds_call {s s' : σ} {ops new : List ω} {x : ε} (h : S.call s x = some (s', new)) :
    L.holds ⟨s', ops ++ new⟩ = L.holds ⟨s, ops⟩ + L.brings x := by
  have hcall := L.call s x s' new h
  simp only [holds, List.map_append, List.sum_append]
  calc L.keeps s' + ((ops.map L.carries).sum + (new.map L.carries).sum)
      = L.keeps s' + (new.map L.carries).sum + (ops.map L.carries).sum := by ac_rfl
    _ = L.keeps s + L.brings x + (ops.map L.carries).sum := by rw [hcall]
    _ = L.keeps s + (ops.map L.carries).sum + L.brings x := by ac_rfl

/-- The items before an answer, those of the answered operation apart. -/
theorem holds_before (s : σ) (pre post : List ω) (op : ω) :
    L.holds ⟨s, pre ++ op :: post⟩ =
      L.keeps s + L.carries op + ((pre ++ post).map L.carries).sum := by
  simp only [holds, List.map_append, List.map_cons, List.sum_append, List.sum_cons]
  ac_rfl

/-- The items after an answer, those that it issues apart. -/
theorem holds_after (s : σ) (pre post new : List ω) :
    L.holds ⟨s, pre ++ post ++ new⟩ =
      L.keeps s + (new.map L.carries).sum + ((pre ++ post).map L.carries).sum := by
  rw [holds, List.map_append, List.sum_append]
  ac_rfl

/-- **A step multiplies nothing.** -/
theorem step_le (h : S.machine.step c e = some c') : L.holds c' ≤ L.holds c + L.bringsOf e := by
  obtain ⟨s, ops⟩ := c
  rcases Service.step_cases h with ⟨x, s', new, rfl, hx, rfl⟩ |
    ⟨pre, op, post, r, s', new, rfl, hp, hx, rfl⟩
  · exact (holds_call hx).le
  · subst hp
    rw [holds_before, holds_after, bringsOf, add_zero]
    exact add_le_add_left (L.answer s op r s' new hx) _

/-- **A step whose answer loses nothing** changes nothing but what it brings. -/
theorem step_eq (h : S.machine.step c e = some c') (he : Service.OnAnswer L.Lossless c e) :
    L.holds c' = L.holds c + L.bringsOf e := by
  obtain ⟨s, ops⟩ := c
  rcases Service.step_cases h with ⟨x, s', new, rfl, hx, rfl⟩ |
    ⟨pre, op, post, r, s', new, rfl, hp, hx, rfl⟩
  · exact holds_call hx
  · subst hp
    rw [holds_before, holds_after, bringsOf, add_zero,
      Service.onStep_answer.mp he s' new hx]

/-- **No item is there more often than it was brought.** -/
theorem run_le (h : S.machine.run c es = some d) : L.holds d ≤ L.holds c + L.brought es := by
  induction es generalizing c with
  | nil =>
    obtain rfl := Option.some.inj h
    rw [brought_nil, add_zero]
  | cons e es ih =>
    obtain ⟨c', hstep, hrun⟩ := Machine.run_cons.mp h
    calc L.holds d ≤ L.holds c' + L.brought es := ih hrun
      _ ≤ L.holds c + L.bringsOf e + L.brought es := add_le_add_left (step_le hstep) _
      _ = L.holds c + L.brought (e :: es) := by rw [brought_cons, add_assoc]

/-- **Every item is there as often as it was brought**, if no answer loses one. -/
theorem run_eq (h : S.machine.run c es = some d)
    (hes : S.machine.Along (Service.OnAnswer L.Lossless) c es) :
    L.holds d = L.holds c + L.brought es := by
  induction es generalizing c with
  | nil =>
    obtain rfl := Option.some.inj h
    rw [brought_nil, add_zero]
  | cons e es ih =>
    obtain ⟨c', hstep, hrun⟩ := Machine.run_cons.mp h
    rw [ih hrun (hes.2 c' hstep), step_eq hstep hes.1, brought_cons, add_assoc]

end Ledger

end Subtle.Lib
