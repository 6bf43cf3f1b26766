import Subtle.Lib.Machine

/-!
# A machine and its observers

Observers stand beside a machine.  Its steps may bring new ones, and at any time an observer
is shown something of the state, which it follows in its own way; it never acts on the
machine.

* `Machine.run_core`: **a run of the machine with its observers is a run of the machine**.
* `Machine.observed_inv`: **what holds of the state and of each observer, over whole runs**,
  from what a step keeps and from what an observer makes of what it is shown.
-/

namespace Subtle.Lib

variable {σ ε β ο : Type*}

/-- A state with the observers of it. -/
structure Observed (σ β : Type*) where
  core : σ
  observers : List β

namespace Observed

/-- A step of the machine, or something that the observer at `i` is shown. -/
inductive Event (ε ο : Type*) where
  | core (e : ε)
  | observe (i : Nat) (o : ο)

/-- The steps of the machine among the events. -/
def coreEvents (es : List (Event ε ο)) : List ε :=
  es.filterMap fun e => match e with
    | .core e => some e
    | .observe _ _ => none

/-- A condition on what an observer is shown. -/
def OnObserve (P : σ → Nat → β → ο → Prop) (s : Observed σ β) : Event ε ο → Prop
  | .core _ => True
  | .observe i o => ∀ b ∈ s.observers[i]?, P s.core i b o

/-- An entry of a list in which one has been replaced. -/
theorem getElem?_set_cases {bs : List β} {i j : Nat} {b b' : β}
    (h : (bs.set i b)[j]? = some b') : (j = i ∧ b' = b) ∨ bs[j]? = some b' := by
  by_cases hij : i = j
  · subst hij
    obtain ⟨hlt, -⟩ := List.getElem?_eq_some_iff.mp h
    rw [List.length_set] at hlt
    exact Or.inl ⟨rfl, Option.some.inj (h.symm.trans (List.getElem?_set_self hlt))⟩
  · exact Or.inr ((List.getElem?_set_ne hij).symm.trans h)

end Observed

namespace Machine

variable (M : Machine σ ε) (born : ε → List β) (observe : β → ο → Option β)

/-- The machine with its observers: a step brings those `born` of it. -/
def observed : Machine (Observed σ β) (Observed.Event ε ο) where
  step s
    | .core e => (M.step s.core e).map fun core => ⟨core, s.observers ++ born e⟩
    | .observe i o => (s.observers[i]?).bind fun b => (observe b o).map fun b =>
        { s with observers := s.observers.set i b }

variable {M born observe}

/-- **What a step can be.** -/
theorem observed_cases {s s' : Observed σ β} {e : Observed.Event ε ο}
    (h : (M.observed born observe).step s e = some s') :
    (∃ e₀ core, e = .core e₀ ∧ M.step s.core e₀ = some core ∧
      s' = ⟨core, s.observers ++ born e₀⟩) ∨
    ∃ i o b b', e = .observe i o ∧ s.observers[i]? = some b ∧ observe b o = some b' ∧
      s' = { s with observers := s.observers.set i b' } := by
  cases e with
  | core e =>
    obtain ⟨core, hstep, rfl⟩ := Option.map_eq_some_iff.mp h
    exact Or.inl ⟨e, core, rfl, hstep, rfl⟩
  | observe i o =>
    obtain ⟨b, hb, h⟩ := Option.bind_eq_some_iff.mp h
    obtain ⟨b', hobserve, rfl⟩ := Option.map_eq_some_iff.mp h
    exact Or.inr ⟨i, o, b, b', rfl, hb, hobserve, rfl⟩

/-- **The observers do not act on the machine.** -/
theorem run_core {s t : Observed σ β} {es : List (Observed.Event ε ο)}
    (h : (M.observed born observe).run s es = some t) :
    M.run s.core (Observed.coreEvents es) = some t.core := by
  induction es generalizing s with
  | nil =>
    obtain rfl := Option.some.inj h
    rfl
  | cons e es ih =>
    obtain ⟨s', hstep, hrun⟩ := run_cons.mp h
    rcases observed_cases hstep with ⟨e₀, core, rfl, hcore, rfl⟩ | ⟨i, o, b, b', rfl, -, -, rfl⟩
    · exact run_cons.mpr ⟨core, hcore, ih hrun⟩
    · have hrest := ih hrun
      exact hrest

/-- **The invariant rule with observers**: `I` holds of the state, and `J` of each observer
that has a place in the list. -/
theorem observed_inv {I : σ → Prop} {J : σ → Nat → β → Prop} {P : σ → Nat → β → ο → Prop}
    (hcore : ∀ s e s', I s → M.step s e = some s' → I s')
    (hkeep : ∀ s e s' i b, I s → M.step s e = some s' → J s i b → J s' i b)
    (hborn : ∀ s e s' i, I s → M.step s e = some s' → ∀ b ∈ born e, J s' i b)
    (hobserve : ∀ s i b o b', I s → J s i b → P s i b o → observe b o = some b' → J s i b')
    {s t : Observed σ β} {es : List (Observed.Event ε ο)} (hI : I s.core)
    (hJ : ∀ i b, s.observers[i]? = some b → J s.core i b)
    (hP : (M.observed born observe).Along (Observed.OnObserve P) s es)
    (h : (M.observed born observe).run s es = some t) :
    I t.core ∧ ∀ i b, t.observers[i]? = some b → J t.core i b := by
  refine run_inv (M := M.observed born observe) (P := Observed.OnObserve P)
    (I := fun s => I s.core ∧ ∀ i b, s.observers[i]? = some b → J s.core i b) ?_ ⟨hI, hJ⟩ hP h
  rintro s e s' ⟨hI, hJ⟩ hPe hstep
  rcases observed_cases hstep with ⟨e₀, core, rfl, hcore₀, rfl⟩ | ⟨i, o, b, b', rfl, hb, hb', rfl⟩
  · refine ⟨hcore _ _ _ hI hcore₀, fun i b hb => ?_⟩
    by_cases hlt : i < s.observers.length
    · rw [List.getElem?_append_left hlt] at hb
      exact hkeep _ _ _ i b hI hcore₀ (hJ i b hb)
    · rw [List.getElem?_append_right (Nat.le_of_not_lt hlt)] at hb
      exact hborn _ _ _ i hI hcore₀ b (List.mem_of_getElem? hb)
  · refine ⟨hI, fun j c hc => ?_⟩
    rcases Observed.getElem?_set_cases hc with ⟨rfl, rfl⟩ | hc
    · exact hobserve _ _ b o _ hI (hJ j b hb) (hPe b hb) hb'
    · exact hJ j c hc

end Machine

end Subtle.Lib
