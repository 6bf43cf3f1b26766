import Subtle.Lib.Machine

/-!
# Who an operation is issued for

An operation is issued by a call, or by the answer to an operation that was.  The signed
service marks each operation with the issuer of the call that it goes back to.

* `run_signed`: **the marks change no run**.
* `signed_call`, `signed_answer`: what a call and what an answer issues.
-/

namespace Subtle.Lib

namespace Service

variable {σ ε ω ρ υ : Type*} (S : Service σ ε ω ρ) (issuer : σ → ε → υ)

def signed : Service σ ε (υ × ω) ρ where
  call s x := (S.call s x).map fun p => (p.1, p.2.map (Prod.mk (issuer s x)))
  answer s op r := (S.answer s op.2 r).map fun p => (p.1, p.2.map (Prod.mk op.1))

/-- Without the marks. -/
def unsigned (c : Config σ (υ × ω)) : Config σ ω := ⟨c.core, c.pending.map Prod.snd⟩

variable {S issuer} {s s' : σ} {x : ε}

theorem map_snd_mk (u : υ) (ops : List ω) : (ops.map (Prod.mk u)).map Prod.snd = ops := by
  induction ops with
  | nil => rfl
  | cons op ops ih => exact congrArg (op :: ·) ih

theorem step_signed (c : Config σ (υ × ω)) (e : Event ε ρ) :
    S.step (unsigned c) e = ((S.signed issuer).step c e).map unsigned := by
  obtain ⟨s, ops⟩ := c
  cases e with
  | call x =>
    show (S.call s x).map _ = (((S.call s x).map _).map _).map _
    rw [Option.map_map, Option.map_map]
    refine Option.map_congr fun p _ => ?_
    simp only [Function.comp, unsigned, List.map_append, map_snd_mk]
  | answer i r =>
    show ((ops.map Prod.snd)[i]?).bind _ = ((ops[i]?).bind _).map _
    rw [List.getElem?_map]
    cases ops[i]? with
    | none => rfl
    | some op =>
      show (S.answer s op.2 r).map _ = (((S.answer s op.2 r).map _).map _).map _
      rw [Option.map_map, Option.map_map]
      refine Option.map_congr fun p _ => ?_
      simp only [Function.comp, unsigned, List.map_append, map_snd_mk,
        List.eraseIdx_eq_take_drop_succ, List.map_take, List.map_drop]

/-- **The marks change no run.** -/
theorem run_signed (c : Config σ (υ × ω)) (es : List (Event ε ρ)) :
    S.machine.run (unsigned c) es = ((S.signed issuer).machine.run c es).map unsigned := by
  induction es generalizing c with
  | nil => rfl
  | cons e es ih =>
    show (S.step (unsigned c) e).bind _ = (((S.signed issuer).step c e).bind _).map _
    rw [step_signed]
    cases (S.signed issuer).step c e with
    | none => rfl
    | some c' => exact ih c'

theorem signed_call {new : List (υ × ω)} (h : (S.signed issuer).call s x = some (s', new)) :
    ∃ ops, S.call s x = some (s', ops) ∧ new = ops.map (Prod.mk (issuer s x)) := by
  obtain ⟨⟨t, ops⟩, hcall, heq⟩ := Option.map_eq_some_iff.mp h
  obtain ⟨rfl, rfl⟩ := Prod.mk.inj heq
  exact ⟨ops, hcall, rfl⟩

theorem signed_answer {op : υ × ω} {r : ρ} {new : List (υ × ω)}
    (h : (S.signed issuer).answer s op r = some (s', new)) :
    ∃ ops, S.answer s op.2 r = some (s', ops) ∧ new = ops.map (Prod.mk op.1) := by
  obtain ⟨⟨t, ops⟩, hanswer, heq⟩ := Option.map_eq_some_iff.mp h
  obtain ⟨rfl, rfl⟩ := Prod.mk.inj heq
  exact ⟨ops, hanswer, rfl⟩

end Service

end Subtle.Lib
