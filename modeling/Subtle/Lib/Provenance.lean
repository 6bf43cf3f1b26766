import Subtle.Lib.Machine

/-!
# Values that come from an offer

The clients of a service pick values from lists that they are offered, and their calls
hand them over to the operations that they issue.  A value on offer is genuine or a
placeholder.

* `Offers`: what has been offered so far.
* `Offers.CallSpec`, `Offers.AnswerSpec`: what a step has to do with the values.
* `Service.genuine_iff`: **the operations carry genuine values throughout a run exactly
  when no call of the run hands over a placeholder**.
-/

namespace Subtle.Lib

variable {σ ε ω ρ α : Type*}

/-- The values that have been offered. -/
structure Offers (α : Type*) where
  genuine : List α
  placeholders : List α

namespace Offers

/-- The list on offer after an attempt to get the genuine values. -/
def offered : Except α (List α) → List α
  | .ok values => values
  | .error a => [a]

/-- An attempt to get the genuine values is over. -/
def bring (o : Offers α) : Except α (List α) → Offers α
  | .ok values => { o with genuine := o.genuine ++ values }
  | .error a => { o with placeholders := o.placeholders ++ [a] }

def Known (o : Offers α) (a : α) : Prop := a ∈ o.genuine ∨ a ∈ o.placeholders

/-- The value has been offered, but not as a genuine one. -/
def Placeholder (o : Offers α) (a : α) : Prop := a ∈ o.placeholders ∧ a ∉ o.genuine

instance [DecidableEq α] (o : Offers α) (a : α) : Decidable (o.Placeholder a) :=
  inferInstanceAs (Decidable (_ ∧ _))

variable {o o' : Offers α} {a : α} {r : Except α (List α)}

theorem mem_genuine_iff (h : o.Known a) : a ∈ o.genuine ↔ ¬ o.Placeholder a := by
  constructor
  · exact fun hgenuine hplaceholder => hplaceholder.2 hgenuine
  · intro hnot
    rcases h with hgenuine | hplaceholder
    · exact hgenuine
    · by_contra hno
      exact hnot ⟨hplaceholder, hno⟩

theorem genuine_subset_bring : o.genuine ⊆ (o.bring r).genuine := by
  cases r with
  | ok values => exact List.subset_append_left _ _
  | error a => exact List.Subset.refl _

theorem Known.bring (h : o.Known a) : (o.bring r).Known a := by
  cases r with
  | ok values => exact h.imp_left fun hgenuine => List.mem_append_left _ hgenuine
  | error b => exact h.imp_right fun hplaceholder => List.mem_append_left _ hplaceholder

/-- What is on offer after an attempt is known. -/
theorem known_of_offered (h : a ∈ offered r) : (o.bring r).Known a := by
  cases r with
  | ok values => exact Or.inl (List.mem_append_right _ h)
  | error b => exact Or.inr (List.mem_append_right _ h)

/-- The operations of a call carry the value that it hands over, which has been offered. -/
structure CallSpec (carries : ω → Option α) (o o' : Offers α) (handed : Option α)
    (new : List ω) : Prop where
  mono : o.genuine ⊆ o'.genuine
  carried : ∀ a, (∃ op ∈ new, a ∈ carries op) ↔ a ∈ handed
  known : ∀ a ∈ handed, o.Known a ∧ o' = o

/-- The operations of an answer carry nothing but what the answered operation carries. -/
structure AnswerSpec (carries : ω → Option α) (o o' : Offers α) (op : ω) (new : List ω) :
    Prop where
  mono : o.genuine ⊆ o'.genuine
  carried : ∀ op' ∈ new, ∀ a ∈ carries op', a ∈ carries op

variable {carries : ω → Option α}

theorem carried_none {new : List ω} (hnew : ∀ op ∈ new, carries op = none) (a : α) :
    (∃ op ∈ new, a ∈ carries op) ↔ a ∈ (none : Option α) := by
  refine ⟨?_, nofun⟩
  rintro ⟨op, hop, ha⟩
  rwa [hnew op hop] at ha

/-- A call that hands nothing over. -/
theorem callSpec_none {new : List ω} (mono : o.genuine ⊆ o'.genuine)
    (hnew : ∀ op ∈ new, carries op = none) : CallSpec carries o o' none new :=
  ⟨mono, carried_none hnew, nofun⟩

end Offers

namespace Service

variable {S : Service σ ε ω ρ} {offers : σ → Offers α} {carries : ω → Option α}
  {hands : σ → ε → Option α} {J : σ → List ω → Prop}

/-- The outstanding operations carry genuine values. -/
def Genuine (offers : σ → Offers α) (carries : ω → Option α) (c : Config σ ω) : Prop :=
  ∀ op ∈ c.pending, ∀ a ∈ carries op, a ∈ (offers c.core).genuine

/-- The call hands over no placeholder. -/
def HandsGenuine (offers : σ → Offers α) (hands : σ → ε → Option α) (s : σ) (x : ε) : Prop :=
  ∀ a ∈ hands s x, ¬ (offers s).Placeholder a

instance [DecidableEq α] (s : σ) (x : ε) : Decidable (HandsGenuine offers hands s x) :=
  inferInstanceAs (Decidable (∀ a ∈ hands s x, ¬ (offers s).Placeholder a))

theorem genuine_call {s s' : σ} {ops new : List ω} {x : ε} (h : Genuine offers carries ⟨s, ops⟩)
    (hspec : Offers.CallSpec carries (offers s) (offers s') (hands s x) new) :
    Genuine offers carries ⟨s', ops ++ new⟩ ↔ HandsGenuine offers hands s x := by
  constructor
  · intro hgenuine a ha
    obtain ⟨hknown, hsame⟩ := hspec.known a ha
    obtain ⟨op, hop, hcarries⟩ := (hspec.carried a).mpr ha
    have hmem := hgenuine op (List.mem_append_right _ hop) a hcarries
    rw [hsame] at hmem
    exact (Offers.mem_genuine_iff hknown).mp hmem
  · intro hhands op hop a ha
    rcases List.mem_append.mp hop with hop | hop
    · exact hspec.mono (h op hop a ha)
    · have hhanded := (hspec.carried a).mp ⟨op, hop, ha⟩
      have hmem := (Offers.mem_genuine_iff (hspec.known a hhanded).1).mpr (hhands a hhanded)
      exact hspec.mono hmem

theorem genuine_answer {s s' : σ} {pre post new : List ω} {op : ω}
    (h : Genuine offers carries ⟨s, pre ++ op :: post⟩)
    (hspec : Offers.AnswerSpec carries (offers s) (offers s') op new) :
    Genuine offers carries ⟨s', pre ++ post ++ new⟩ := by
  intro op' hop' a ha
  rcases List.mem_append.mp hop' with hold | hnew
  · exact hspec.mono (h op' (mem_pending_iff.mpr (Or.inr hold)) a ha)
  · exact hspec.mono (h op (mem_pending_iff.mpr (Or.inl rfl)) a (hspec.carried op' hnew a ha))

/-- **The operations carry genuine values throughout a run exactly when no call hands over
a placeholder**, for a service whose steps meet the two specifications under an invariant. -/
theorem genuine_iff
    (hcall : ∀ s ops x s' new, J s ops → S.call s x = some (s', new) →
      J s' (ops ++ new) ∧ Offers.CallSpec carries (offers s) (offers s') (hands s x) new)
    (hanswer : ∀ s pre op post r s' new, J s (pre ++ op :: post) →
      S.answer s op r = some (s', new) →
        J s' (pre ++ post ++ new) ∧ Offers.AnswerSpec carries (offers s) (offers s') op new)
    {c d : Config σ ω} {es : List (Event ε ρ)} (hJ : J c.core c.pending)
    (hc : Genuine offers carries c) (hrun : S.machine.run c es = some d) :
    S.machine.Always (Genuine offers carries) c es ↔
      S.machine.Along (OnCall (HandsGenuine offers hands)) c es := by
  refine Machine.always_iff (J := fun c => J c.core c.pending) ?_ ?_ hJ hc hrun
  · rintro ⟨s, ops⟩ e c' hJ hstep
    rcases step_cases hstep with ⟨x, s', new, rfl, hx, rfl⟩ |
      ⟨pre, op, post, r, s', new, rfl, hp, hx, rfl⟩
    · exact (hcall s ops x s' new hJ hx).1
    · subst hp
      exact (hanswer s pre op post r s' new hJ hx).1
  · rintro ⟨s, ops⟩ e c' hJ hgenuine hstep
    rcases step_cases hstep with ⟨x, s', new, rfl, hx, rfl⟩ |
      ⟨pre, op, post, r, s', new, rfl, hp, hx, rfl⟩
    · exact genuine_call hgenuine (hcall s ops x s' new hJ hx).2
    · subst hp
      exact iff_of_true (genuine_answer hgenuine (hanswer s pre op post r s' new hJ hx).2)
        fun _ _ => trivial

end Service

end Subtle.Lib
