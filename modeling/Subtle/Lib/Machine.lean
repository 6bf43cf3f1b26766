import Mathlib.Data.List.Basic
import Mathlib.Tactic.Tauto

/-!
# Machines, runs and services

A `Machine` is a partial step function: an event is taken or refused.  A run is
a list of events, every one of them taken.

* `Machine.run`: the state after a list of events.
* `Machine.Along`: a condition on the state before each event and on the event,
  at every event of a run.
* `Machine.run_inv`: **the invariant rule**.  What one step keeps under such a
  condition, a run keeps that meets it throughout.
* `Machine.always_iff`: **the exact rule**.  Where a step keeps a property exactly
  when it meets the condition, the property holds in every state of a run exactly
  when the run meets the condition throughout.

A `Service` is a machine whose clients' calls issue operations.  An operation
stays outstanding until the other side answers it, in any order, and the answer
may issue further operations.  `Service.step_cases` says once what a step of a
service can be, and `Service.run_inv` is the invariant rule in those terms.
`Service.watched` keeps a record beside a service.
-/

namespace Subtle.Lib

variable {σ ε ω ρ : Type*}

/-- A partial step function on states `σ` and events `ε`. -/
structure Machine (σ ε : Type*) where
  step : σ → ε → Option σ

namespace Machine

variable (M : Machine σ ε)

/-- The state after the events, or `none` if one of them was refused. -/
def run : σ → List ε → Option σ
  | s, [] => some s
  | s, e :: es => (M.step s e).bind fun s' => run s' es

/-- `P` holds of the state before each event and of the event. -/
def Along (P : σ → ε → Prop) : σ → List ε → Prop
  | _, [] => True
  | s, e :: es => P s e ∧ ∀ s', M.step s e = some s' → Along P s' es

/-- `P` holds in some state of a run of the events. -/
def Sometime (P : σ → Prop) (s : σ) (es : List ε) : Prop :=
  ∃ es₁ es₂ t, es = es₁ ++ es₂ ∧ M.run s es₁ = some t ∧ P t

/-- `I` holds in every state of the run. -/
def Always (I : σ → Prop) : σ → List ε → Prop
  | s, [] => I s
  | s, e :: es => I s ∧ ∀ s', M.step s e = some s' → Always I s' es

variable {M}

@[simp] theorem run_nil (s : σ) : M.run s [] = some s := rfl

theorem run_cons {s t : σ} {e : ε} {es : List ε} :
    M.run s (e :: es) = some t ↔ ∃ s', M.step s e = some s' ∧ M.run s' es = some t := by
  rw [run, Option.bind_eq_some_iff]

theorem run_append {s t : σ} {es fs : List ε} :
    M.run s (es ++ fs) = some t ↔ ∃ s', M.run s es = some s' ∧ M.run s' fs = some t := by
  induction es generalizing s with
  | nil => simp
  | cons e es ih =>
    rw [List.cons_append, run_cons]
    constructor
    · rintro ⟨s₁, h₁, h₂⟩
      obtain ⟨s', h₃, h₄⟩ := ih.mp h₂
      exact ⟨s', run_cons.mpr ⟨s₁, h₁, h₃⟩, h₄⟩
    · rintro ⟨s', h₁, h₂⟩
      obtain ⟨s₁, h₃, h₄⟩ := run_cons.mp h₁
      exact ⟨s₁, h₃, ih.mpr ⟨s', h₄, h₂⟩⟩

/-- The machine that takes every event, and acts on the state by `f`. -/
def total (f : σ → ε → σ) : Machine σ ε := ⟨fun s e => some (f s e)⟩

theorem run_total (f : σ → ε → σ) (s : σ) (es : List ε) :
    (total f).run s es = some (es.foldl f s) := by
  induction es generalizing s with
  | nil => rfl
  | cons e es ih => exact run_cons.mpr ⟨f s e, rfl, ih (f s e)⟩

/-- **The invariant rule.**  A property of states that every step meeting `P`
keeps holds after every run that meets `P` throughout. -/
theorem run_inv {I : σ → Prop} {P : σ → ε → Prop}
    (hstep : ∀ s e s', I s → P s e → M.step s e = some s' → I s') {s t : σ} {es : List ε}
    (hs : I s) (hP : M.Along P s es) (h : M.run s es = some t) : I t := by
  induction es generalizing s with
  | nil => exact Option.some.inj h ▸ hs
  | cons e es ih =>
    obtain ⟨s', h₁, h₂⟩ := run_cons.mp h
    exact ih (hstep s e s' hs hP.1 h₁) (hP.2 s' h₁) h₂

/-- The same for a property of the state and of the events so far. -/
theorem run_trace_inv {I : σ → List ε → Prop}
    (hstep : ∀ s h e s', I s h → M.step s e = some s' → I s' (h ++ [e])) {s t : σ}
    {h es : List ε} (hs : I s h) (hrun : M.run s es = some t) : I t (h ++ es) := by
  induction es generalizing s h with
  | nil =>
    obtain rfl := Option.some.inj hrun
    rwa [List.append_nil]
  | cons e es ih =>
    obtain ⟨s', h₁, h₂⟩ := run_cons.mp hrun
    have hnext := ih (hstep s h e s' hs h₁) h₂
    rwa [List.append_assoc] at hnext

/-- The same where the events meet a condition. -/
theorem run_trace_inv_along {I : σ → List ε → Prop} {P : σ → ε → Prop}
    (hstep : ∀ s h e s', I s h → P s e → M.step s e = some s' → I s' (h ++ [e])) {s t : σ}
    {h es : List ε} (hs : I s h) (hP : M.Along P s es) (hrun : M.run s es = some t) :
    I t (h ++ es) := by
  induction es generalizing s h with
  | nil =>
    obtain rfl := Option.some.inj hrun
    rwa [List.append_nil]
  | cons e es ih =>
    obtain ⟨s', h₁, h₂⟩ := run_cons.mp hrun
    have hnext := ih (hstep s h e s' hs hP.1 h₁) (hP.2 s' h₁) h₂
    rwa [List.append_assoc] at hnext

theorem sometime_of_run {P : σ → Prop} {s t : σ} {es : List ε} (h : M.run s es = some t)
    (ht : P t) : M.Sometime P s es := ⟨es, [], t, (List.append_nil es).symm, h, ht⟩

theorem Sometime.append {P : σ → Prop} {s : σ} {es : List ε} (h : M.Sometime P s es)
    (fs : List ε) : M.Sometime P s (es ++ fs) := by
  obtain ⟨es₁, es₂, t, rfl, hrun, ht⟩ := h
  exact ⟨es₁, es₂ ++ fs, t, List.append_assoc _ _ _, hrun, ht⟩

theorem run_concat {s t t' : σ} {es : List ε} {e : ε} (h : M.run s es = some t)
    (hstep : M.step t e = some t') : M.run s (es ++ [e]) = some t' :=
  run_append.mpr ⟨t, h, run_cons.mpr ⟨t', hstep, run_nil t'⟩⟩

theorem along_cons {P : σ → ε → Prop} {s s' : σ} {e : ε} {es : List ε}
    (hstep : M.step s e = some s') (hP : P s e) (hes : M.Along P s' es) :
    M.Along P s (e :: es) := by
  refine ⟨hP, fun t ht => ?_⟩
  obtain rfl := Option.some.inj (hstep.symm.trans ht)
  exact hes

/-- A condition that holds of every event of every state meets every run. -/
theorem along_of_forall {P : σ → ε → Prop} (h : ∀ s e, P s e) (s : σ) (es : List ε) :
    M.Along P s es := by
  induction es generalizing s with
  | nil => trivial
  | cons e es ih => exact ⟨h s e, fun s' _ => ih s'⟩

/-- The invariant rule for a property that every step keeps. -/
theorem run_inv_of_step {I : σ → Prop} (hstep : ∀ s e s', I s → M.step s e = some s' → I s')
    {s t : σ} {es : List ε} (hs : I s) (h : M.run s es = some t) : I t :=
  run_inv (P := fun _ _ => True) (fun s e s' hs _ => hstep s e s' hs) hs
    (along_of_forall (fun _ _ => trivial) s es) h

/-- A condition on events alone holds along a run whose events meet it. -/
theorem along_of_mem {Q : ε → Prop} {es : List ε} (h : ∀ e ∈ es, Q e) (s : σ) :
    M.Along (fun _ e => Q e) s es := by
  induction es generalizing s with
  | nil => trivial
  | cons e es ih =>
    exact ⟨h e List.mem_cons_self, fun s' _ => ih (fun e he => h e (List.mem_cons_of_mem _ he)) s'⟩

theorem Along.and {P Q : σ → ε → Prop} {s : σ} {es : List ε} (hP : M.Along P s es)
    (hQ : M.Along Q s es) : M.Along (fun s e => P s e ∧ Q s e) s es := by
  induction es generalizing s with
  | nil => trivial
  | cons e es ih => exact ⟨⟨hP.1, hQ.1⟩, fun s' h => ih (hP.2 s' h) (hQ.2 s' h)⟩

/-- **What an invariant implies at each step** holds along the run. -/
theorem along_of_inv {I : σ → Prop} {P Q : σ → ε → Prop}
    (hstep : ∀ s e s', I s → P s e → M.step s e = some s' → I s')
    (hQ : ∀ s e, I s → P s e → Q s e) {s : σ} {es : List ε} (hs : I s) (hP : M.Along P s es) :
    M.Along Q s es := by
  induction es generalizing s with
  | nil => trivial
  | cons e es ih =>
    exact ⟨hQ s e hs hP.1, fun s' h => ih (hstep s e s' hs hP.1 h) (hP.2 s' h)⟩

theorem Along.mono {P Q : σ → ε → Prop} (h : ∀ s e, P s e → Q s e) {s : σ} {es : List ε}
    (hP : M.Along P s es) : M.Along Q s es :=
  along_of_inv (I := fun _ => True) (fun _ _ _ _ _ _ => trivial) (fun s e _ => h s e) trivial hP

/-- Two conditions that agree in every state in which the invariant `J` holds are met by the
same runs. -/
theorem along_congr {J : σ → Prop} {P Q : σ → ε → Prop}
    (hJ : ∀ s e s', J s → M.step s e = some s' → J s') (h : ∀ s e, J s → (P s e ↔ Q s e)) {s : σ}
    {es : List ε} (hs : J s) : M.Along P s es ↔ M.Along Q s es :=
  ⟨along_of_inv (fun s e s' hs _ => hJ s e s' hs) (fun s e hs hP => (h s e hs).mp hP) hs,
    along_of_inv (fun s e s' hs _ => hJ s e s' hs) (fun s e hs hQ => (h s e hs).mpr hQ) hs⟩

theorem along_append {P : σ → ε → Prop} {s : σ} {es fs : List ε} :
    M.Along P s (es ++ fs) ↔ M.Along P s es ∧ ∀ s', M.run s es = some s' → M.Along P s' fs := by
  induction es generalizing s with
  | nil => simp [Along]
  | cons e es ih =>
    simp only [List.cons_append, Along, ih, run_cons]
    constructor
    · rintro ⟨h, hes⟩
      refine ⟨⟨h, fun s' h' => (hes s' h').1⟩, ?_⟩
      rintro s' ⟨t, h₁, h₂⟩
      exact (hes t h₁).2 s' h₂
    · rintro ⟨⟨h, hes⟩, hfs⟩
      exact ⟨h, fun t ht => ⟨hes t ht, fun s' h' => hfs s' ⟨t, ht, h'⟩⟩⟩

/-- What every step meeting `P` keeps holds in every state of a run that meets `P`
throughout. -/
theorem always_of_along {I : σ → Prop} {P : σ → ε → Prop}
    (hstep : ∀ s e s', I s → P s e → M.step s e = some s' → I s') {s : σ} {es : List ε}
    (hs : I s) (hP : M.Along P s es) : M.Always I s es := by
  induction es generalizing s with
  | nil => exact hs
  | cons e es ih => exact ⟨hs, fun s' h => ih (hstep s e s' hs hP.1 h) (hP.2 s' h)⟩

/-- **The exact rule**, over the states in which the invariant `J` holds. -/
theorem always_iff {I J : σ → Prop} {P : σ → ε → Prop}
    (hJ : ∀ s e s', J s → M.step s e = some s' → J s')
    (hstep : ∀ s e s', J s → I s → M.step s e = some s' → (I s' ↔ P s e)) {s t : σ}
    {es : List ε} (hs : J s) (hI : I s) (h : M.run s es = some t) :
    M.Always I s es ↔ M.Along P s es := by
  induction es generalizing s with
  | nil => exact iff_of_true hI trivial
  | cons e es ih =>
    obtain ⟨s', h₁, h₂⟩ := run_cons.mp h
    have huniq : ∀ u, M.step s e = some u → u = s' := fun u hu =>
      Option.some.inj (hu.symm.trans h₁)
    have hkeep := hstep s e s' hs hI h₁
    constructor
    · rintro ⟨-, hrest⟩
      have hI' : I s' := by
        cases es with
        | nil => exact hrest s' h₁
        | cons _ _ => exact (hrest s' h₁).1
      exact along_cons h₁ (hkeep.mp hI') ((ih (hJ s e s' hs h₁) hI' h₂).mp (hrest s' h₁))
    · rintro ⟨hP, hrest⟩
      have hI' := hkeep.mpr hP
      refine ⟨hI, fun u hu => ?_⟩
      rw [huniq u hu]
      exact (ih (hJ s e s' hs h₁) hI' h₂).mpr (hrest s' h₁)

instance decidableAlong {P : σ → ε → Prop} [∀ s e, Decidable (P s e)] :
    ∀ s es, Decidable (M.Along P s es)
  | _, [] => isTrue trivial
  | s, e :: es =>
      match h : M.step s e with
      | none => decidable_of_iff (P s e) (by simp [Along, h])
      | some s' =>
          have := decidableAlong (P := P) s' es
          decidable_of_iff (P s e ∧ M.Along P s' es) (by simp [Along, h])

end Machine

/-! ### Services -/

/-- A machine whose steps are calls, which issue operations, and answers to
outstanding operations, which may issue more. -/
structure Service (σ ε ω ρ : Type*) where
  call : σ → ε → Option (σ × List ω)
  answer : σ → ω → ρ → Option (σ × List ω)

/-- A state of a service with the operations that still wait for an answer. -/
structure Config (σ ω : Type*) where
  core : σ
  pending : List ω

/-- A call, or the answer `r` to the outstanding operation at position `i`. -/
inductive Event (ε ρ : Type*) where
  | call (x : ε)
  | answer (i : Nat) (r : ρ)
  deriving DecidableEq

namespace Service

variable (S : Service σ ε ω ρ)

/-- One step: issued operations join the outstanding ones at the end, and the
answered one leaves. -/
def step (c : Config σ ω) : Event ε ρ → Option (Config σ ω)
  | .call x => (S.call c.core x).map fun p => ⟨p.1, c.pending ++ p.2⟩
  | .answer i r =>
      (c.pending[i]?).bind fun op =>
        (S.answer c.core op r).map fun p => ⟨p.1, c.pending.eraseIdx i ++ p.2⟩

/-- The machine of a service. -/
def machine : Machine (Config σ ω) (Event ε ρ) := ⟨S.step⟩

/-- The condition `P` on a call, and `Q` on an answer. -/
def OnStep (P : σ → ε → Prop) (Q : σ → ω → ρ → Prop) (c : Config σ ω) : Event ε ρ → Prop
  | .call x => P c.core x
  | .answer i r => ∀ op ∈ c.pending[i]?, Q c.core op r

/-- The condition `P` on a call; every answer meets it. -/
abbrev OnCall (P : σ → ε → Prop) : Config σ ω → Event ε ρ → Prop := OnStep P fun _ _ _ => True

/-- The condition `Q` on an answer; every call meets it. -/
abbrev OnAnswer (Q : σ → ω → ρ → Prop) : Config σ ω → Event ε ρ → Prop :=
  OnStep (fun _ _ => True) Q

variable {S}

theorem onStep_answer {P : σ → ε → Prop} {Q : σ → ω → ρ → Prop} {s : σ} {pre post : List ω}
    {op : ω} {r : ρ} : OnStep P Q ⟨s, pre ++ op :: post⟩ (.answer pre.length r) ↔ Q s op r := by
  simp [OnStep]

/-- Two conditions on answers that agree in a state. -/
theorem onAnswer_congr {Q Q' : σ → ω → ρ → Prop} {c : Config σ ω} (e : Event ε ρ)
    (h : ∀ op r, Q c.core op r ↔ Q' c.core op r) : OnAnswer Q c e ↔ OnAnswer Q' c e := by
  cases e with
  | call x => exact Iff.rfl
  | answer i r => exact forall₂_congr fun op _ => h op r

instance {P : σ → ε → Prop} {Q : σ → ω → ρ → Prop} [∀ s x, Decidable (P s x)]
    [∀ s op r, Decidable (Q s op r)] (c : Config σ ω) (e : Event ε ρ) :
    Decidable (OnStep P Q c e) :=
  match e with
  | .call x => inferInstanceAs (Decidable (P c.core x))
  | .answer i r => inferInstanceAs (Decidable (∀ op ∈ c.pending[i]?, Q c.core op r))

/-- **What a step can be**: a call, or the answer to one outstanding operation,
whatever stands before and after it. -/
theorem step_cases {c c' : Config σ ω} {e : Event ε ρ} (h : S.step c e = some c') :
    (∃ x s ops, e = .call x ∧ S.call c.core x = some (s, ops) ∧ c' = ⟨s, c.pending ++ ops⟩) ∨
    ∃ pre op post r s ops, e = .answer pre.length r ∧ c.pending = pre ++ op :: post ∧
      S.answer c.core op r = some (s, ops) ∧ c' = ⟨s, pre ++ post ++ ops⟩ := by
  cases e with
  | call x =>
    obtain ⟨⟨s, ops⟩, h₁, rfl⟩ := Option.map_eq_some_iff.mp h
    exact Or.inl ⟨x, s, ops, rfl, h₁, rfl⟩
  | answer i r =>
    obtain ⟨op, hop, h₁⟩ := Option.bind_eq_some_iff.mp h
    obtain ⟨⟨s, ops⟩, h₂, rfl⟩ := Option.map_eq_some_iff.mp h₁
    obtain ⟨hi, rfl⟩ := List.getElem?_eq_some_iff.mp hop
    have hlen : (c.pending.take i).length = i := List.length_take_of_le (Nat.le_of_lt hi)
    refine Or.inr ⟨c.pending.take i, c.pending[i], c.pending.drop (i + 1), r, s, ops,
      by rw [hlen], ?_, h₂, ?_⟩
    · rw [← List.drop_eq_getElem_cons hi, List.take_append_drop]
    · rw [List.eraseIdx_eq_take_drop_succ]

/-- The outstanding operations are the answered one and those that stay. -/
theorem mem_pending_iff {pre post : List ω} {op op' : ω} :
    op' ∈ pre ++ op :: post ↔ op' = op ∨ op' ∈ pre ++ post := by
  simp only [List.mem_append, List.mem_cons]
  tauto

/-- The only outstanding operation is the answered one. -/
theorem eq_of_pending_singleton {pre post : List ω} {op op' : ω} (h : pre ++ op :: post = [op']) :
    pre = [] ∧ op = op' ∧ post = [] := by
  obtain ⟨hpre, htail⟩ := (List.append_eq_singleton_iff.mp h).resolve_right (by simp)
  exact ⟨hpre, List.cons.inj htail⟩

/-- **The invariant rule for services**: an invariant relates the state to the
outstanding operations, and calls and answers keep it. -/
theorem run_inv {I : σ → List ω → Prop} {P : Config σ ω → Event ε ρ → Prop}
    (hcall : ∀ s ops x s' new, I s ops → P ⟨s, ops⟩ (.call x) → S.call s x = some (s', new) →
      I s' (ops ++ new))
    (hanswer : ∀ s pre op post r s' new, I s (pre ++ op :: post) →
      P ⟨s, pre ++ op :: post⟩ (.answer pre.length r) → S.answer s op r = some (s', new) →
      I s' (pre ++ post ++ new))
    {c d : Config σ ω} {es : List (Event ε ρ)} (hc : I c.core c.pending)
    (hP : S.machine.Along P c es) (h : S.machine.run c es = some d) : I d.core d.pending := by
  refine Machine.run_inv (M := S.machine) (I := fun c => I c.core c.pending) ?_ hc hP h
  rintro ⟨s, ops⟩ e c' hI hPe hstep
  rcases step_cases hstep with ⟨x, s', new, rfl, hx, rfl⟩ |
    ⟨pre, op, post, r, s', new, rfl, hp, hx, rfl⟩
  · exact hcall s ops x s' new hI hPe hx
  · subst hp
    exact hanswer s pre op post r s' new hI hPe hx

/-- The invariant rule for services, for an invariant that every step keeps. -/
theorem run_inv_of_step {I : σ → List ω → Prop}
    (hcall : ∀ s ops x s' new, I s ops → S.call s x = some (s', new) → I s' (ops ++ new))
    (hanswer : ∀ s pre op post r s' new, I s (pre ++ op :: post) →
      S.answer s op r = some (s', new) → I s' (pre ++ post ++ new))
    {c d : Config σ ω} {es : List (Event ε ρ)} (hc : I c.core c.pending)
    (h : S.machine.run c es = some d) : I d.core d.pending :=
  run_inv (P := fun _ _ => True) (fun s ops x s' new hI _ => hcall s ops x s' new hI)
    (fun s pre op post r s' new hI _ => hanswer s pre op post r s' new hI) hc
    (Machine.along_of_forall (fun _ _ => trivial) c es) h

/-! ### Services without calls -/

/-- A service that takes no calls does nothing once all its operations are answered. -/
theorem run_of_nil (hcall : ∀ s x, S.call s x = none) {s : σ} {es : List (Event ε ρ)}
    {c : Config σ ω} (h : S.machine.run ⟨s, []⟩ es = some c) : es = [] ∧ c = ⟨s, []⟩ := by
  cases es with
  | nil => exact ⟨rfl, (Option.some.inj h).symm⟩
  | cons e es =>
    obtain ⟨c', hstep, -⟩ := Machine.run_cons.mp h
    rcases step_cases hstep with ⟨x, s', ops, rfl, hx, -⟩ |
      ⟨pre, op, post, r, s', ops, -, hpending, -⟩
    · exact absurd ((hcall s x).symm.trans hx) (Option.some_ne_none _).symm
    · exact absurd hpending (by simp)

/-- A service that takes no calls answers the only operation that is outstanding. -/
theorem run_of_singleton (hcall : ∀ s x, S.call s x = none) {s : σ} {op : ω}
    {es : List (Event ε ρ)} {c : Config σ ω} (h : S.machine.run ⟨s, [op]⟩ es = some c)
    (hrest : c.pending = []) : ∃ r s' new es', es = .answer 0 r :: es' ∧
      S.answer s op r = some (s', new) ∧ S.machine.step ⟨s, [op]⟩ (.answer 0 r) = some ⟨s', new⟩ ∧
        S.machine.run ⟨s', new⟩ es' = some c := by
  cases es with
  | nil =>
    obtain rfl := Option.some.inj h
    exact absurd hrest (List.cons_ne_nil _ _)
  | cons e es =>
    obtain ⟨c', hstep, hrun⟩ := Machine.run_cons.mp h
    rcases step_cases hstep with ⟨x, s', ops, rfl, hx, -⟩ |
      ⟨pre, op', post, r, s', ops, rfl, hpending, hanswer, rfl⟩
    · exact absurd ((hcall s x).symm.trans hx) (Option.some_ne_none _).symm
    · obtain ⟨rfl, rfl, rfl⟩ := eq_of_pending_singleton hpending.symm
      exact ⟨r, s', ops, es, rfl, hanswer, hstep, hrun⟩

/-! ### Services under watch -/

/-- The service with a record of type `γ` that is kept of its steps, and that may refuse
one.  The events of the watched service may say more than those of the service. -/
def watched {γ ε' ρ' : Type*} (S : Service σ ε ω ρ) (readCall : ε' → ε) (readAnswer : ρ' → ρ)
    (noteCall : γ → σ → ε' → Option γ) (noteAnswer : γ → σ → ω → ρ' → Option γ) :
    Service (σ × γ) ε' ω ρ' where
  call p x := (noteCall p.2 p.1 x).bind fun g =>
    (S.call p.1 (readCall x)).map fun q => ((q.1, g), q.2)
  answer p op r := (noteAnswer p.2 p.1 op r).bind fun g =>
    (S.answer p.1 op (readAnswer r)).map fun q => ((q.1, g), q.2)

variable {γ ε' ρ' : Type*} {readCall : ε' → ε} {readAnswer : ρ' → ρ}
  {noteCall : γ → σ → ε' → Option γ} {noteAnswer : γ → σ → ω → ρ' → Option γ}

theorem watched_call {s t : σ} {g g' : γ} {x : ε'} {ops : List ω}
    (h : (S.watched readCall readAnswer noteCall noteAnswer).call (s, g) x = some ((t, g'), ops)) :
    noteCall g s x = some g' ∧ S.call s (readCall x) = some (t, ops) := by
  obtain ⟨_, hnote, h⟩ := Option.bind_eq_some_iff.mp h
  obtain ⟨_, hcall, heq⟩ := Option.map_eq_some_iff.mp h
  obtain ⟨hst, rfl⟩ := Prod.mk.inj heq
  obtain ⟨rfl, rfl⟩ := Prod.mk.inj hst
  exact ⟨hnote, hcall⟩

theorem watched_answer {s t : σ} {g g' : γ} {op : ω} {r : ρ'} {ops : List ω}
    (h : (S.watched readCall readAnswer noteCall noteAnswer).answer (s, g) op r =
      some ((t, g'), ops)) :
    noteAnswer g s op r = some g' ∧ S.answer s op (readAnswer r) = some (t, ops) := by
  obtain ⟨_, hnote, h⟩ := Option.bind_eq_some_iff.mp h
  obtain ⟨_, hanswer, heq⟩ := Option.map_eq_some_iff.mp h
  obtain ⟨hst, rfl⟩ := Prod.mk.inj heq
  obtain ⟨rfl, rfl⟩ := Prod.mk.inj hst
  exact ⟨hnote, hanswer⟩

/-- Without the record. -/
def unwatched (c : Config (σ × γ) ω) : Config σ ω := ⟨c.core.1, c.pending⟩

/-- **A record that refuses no step changes no run.** -/
theorem run_watched {noteCall : γ → σ → ε → γ} {noteAnswer : γ → σ → ω → ρ → γ}
    (c : Config (σ × γ) ω) (es : List (Event ε ρ)) :
    S.machine.run (unwatched c) es =
      ((S.watched id id (fun g s x => some (noteCall g s x))
        fun g s op r => some (noteAnswer g s op r)).machine.run c es).map unwatched := by
  induction es generalizing c with
  | nil => rfl
  | cons e es ih =>
    obtain ⟨⟨s, g⟩, ops⟩ := c
    cases e with
    | call x =>
      show ((S.call s x).map _).bind _ = ((((S.call s x).map _).map _).bind _).map _
      cases S.call s x with
      | none => rfl
      | some p => exact ih ⟨(p.1, noteCall g s x), ops ++ p.2⟩
    | answer i r =>
      show ((ops[i]?).bind _).bind _ = (((ops[i]?).bind _).bind _).map _
      cases hop : ops[i]? with
      | none => rfl
      | some op =>
        show ((S.answer s op r).map _).bind _ = ((((S.answer s op r).map _).map _).bind _).map _
        cases S.answer s op r with
        | none => rfl
        | some p => exact ih ⟨(p.1, noteAnswer g s op r), ops.eraseIdx i ++ p.2⟩

end Service

end Subtle.Lib
