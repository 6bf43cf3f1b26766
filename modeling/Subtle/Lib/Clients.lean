import Subtle.Lib.Machine

/-!
# A machine and the clients that act on it

Clients stand beside a machine that has steps of its own.  A client may join at any time, and
what it does changes its own state and the state of the machine.

* `Machine.serving`: the machine with its clients.
* `Machine.serving_inv`: **what holds of the state and of each client, over whole runs**, from
  what a step leaves of the state for the other clients.
-/

namespace Subtle.Lib

variable {σ ε β ν ο : Type*}

/-- A state with the clients of it. -/
structure Serving (σ β : Type*) where
  core : σ
  clients : List β

namespace Serving

/-- A step of the machine, a client that joins, or something that the client at `i` does. -/
inductive Event (ε ν ο : Type*) where
  | core (e : ε)
  | join (n : ν)
  | act (i : Nat) (o : ο)

/-- The condition `P` on the steps of the machine, and `Q` on what clients do. -/
def OnStep (P : σ → ε → Prop) (Q : σ → β → ο → Prop) (s : Serving σ β) : Event ε ν ο → Prop
  | .core e => P s.core e
  | .join _ => True
  | .act i o => ∀ b ∈ s.clients[i]?, Q s.core b o

theorem OnStep.mono {P : σ → ε → Prop} {Q Q' : σ → β → ο → Prop}
    (hQ : ∀ s b o, Q s b o → Q' s b o) {s : Serving σ β} {e : Event ε ν ο} (h : OnStep P Q s e) :
    OnStep P Q' s e := by
  cases e with
  | core e => exact h
  | join n => trivial
  | act i o => exact fun b hb => hQ _ b o (h b hb)

end Serving

namespace Machine

variable (M : Machine σ ε) (fresh : ν → β) (act : σ → β → ο → Option (σ × β))

/-- The machine with its clients; one that joins starts as `fresh` says. -/
def serving : Machine (Serving σ β) (Serving.Event ε ν ο) where
  step s
    | .core e => (M.step s.core e).map fun core => { s with core }
    | .join n => some { s with clients := s.clients ++ [fresh n] }
    | .act i o => (s.clients[i]?).bind fun b => (act s.core b o).map fun p =>
        ⟨p.1, s.clients.set i p.2⟩

variable {M fresh act}

/-- **What a step can be.** -/
theorem serving_cases {s s' : Serving σ β} {e : Serving.Event ε ν ο}
    (h : (M.serving fresh act).step s e = some s') :
    (∃ e₀ core, e = .core e₀ ∧ M.step s.core e₀ = some core ∧ s' = { s with core }) ∨
    (∃ n, e = .join n ∧ s' = { s with clients := s.clients ++ [fresh n] }) ∨
    ∃ i o b core b', e = .act i o ∧ s.clients[i]? = some b ∧ act s.core b o = some (core, b') ∧
      s' = ⟨core, s.clients.set i b'⟩ := by
  cases e with
  | core e =>
    obtain ⟨core, hstep, rfl⟩ := Option.map_eq_some_iff.mp h
    exact Or.inl ⟨e, core, rfl, hstep, rfl⟩
  | join n =>
    obtain rfl := Option.some.inj h
    exact Or.inr (Or.inl ⟨n, rfl, rfl⟩)
  | act i o =>
    obtain ⟨b, hb, h⟩ := Option.bind_eq_some_iff.mp h
    obtain ⟨⟨core, b'⟩, hact, rfl⟩ := Option.map_eq_some_iff.mp h
    exact Or.inr (Or.inr ⟨i, o, b, core, b', rfl, hb, hact, rfl⟩)

/-- **The invariant rule with clients**: `I` holds of the state and `J` of each client.  A
step leaves the state in the relation `E`, which keeps what holds of a client. -/
theorem serving_inv {I : σ → Prop} {J : σ → β → Prop} {E : σ → σ → Prop} {P : σ → ε → Prop}
    {Q : σ → β → ο → Prop}
    (hcore : ∀ s e s', I s → P s e → M.step s e = some s' → I s' ∧ E s s')
    (hjoin : ∀ s n, I s → J s (fresh n))
    (hact : ∀ s b o s' b', I s → J s b → Q s b o → act s b o = some (s', b') →
      I s' ∧ E s s' ∧ J s' b')
    (hkeep : ∀ s s' b, E s s' → J s b → J s' b)
    {s t : Serving σ β} {es : List (Serving.Event ε ν ο)} (hI : I s.core)
    (hJ : ∀ b ∈ s.clients, J s.core b)
    (hP : (M.serving fresh act).Along (Serving.OnStep P Q) s es)
    (h : (M.serving fresh act).run s es = some t) : I t.core ∧ ∀ b ∈ t.clients, J t.core b := by
  refine run_inv (M := M.serving fresh act) (P := Serving.OnStep P Q)
    (I := fun s => I s.core ∧ ∀ b ∈ s.clients, J s.core b) ?_ ⟨hI, hJ⟩ hP h
  rintro s e s' ⟨hI, hJ⟩ hPe hstep
  rcases serving_cases hstep with ⟨e₀, core, rfl, hstep₀, rfl⟩ | ⟨n, rfl, rfl⟩ |
    ⟨i, o, b, core, b', rfl, hb, hact₀, rfl⟩
  · obtain ⟨hI', hE⟩ := hcore _ _ _ hI hPe hstep₀
    exact ⟨hI', fun b hb => hkeep _ _ b hE (hJ b hb)⟩
  · refine ⟨hI, fun b hb => ?_⟩
    rcases List.mem_append.mp hb with hb | hb
    · exact hJ b hb
    · obtain rfl := List.mem_singleton.mp hb
      exact hjoin _ n hI
  · obtain ⟨hI', hE, hJ'⟩ := hact _ b o _ _ hI (hJ b (List.mem_of_getElem? hb)) (hPe b hb) hact₀
    refine ⟨hI', fun c hc => ?_⟩
    rcases List.mem_or_eq_of_mem_set hc with hc | rfl
    · exact hkeep _ _ c hE (hJ c hc)
    · exact hJ'

end Machine

end Subtle.Lib
