import Mathlib.Data.List.Basic

/-!
# What a part of the state depends on

Events act on a state by `f`, and `view` reads a part of the state.  Some of the events have
no say in that part, and what the others do to it is decided by the part alone.

* `Footprint.foldl_filter`: **after any events the part is what the events with a say in it
  leave by themselves**.
-/

namespace Subtle.Lib

variable {σ ε γ : Type*}

/-- Only events with `Q` change the part, in a way that the part decides. -/
structure Footprint (f : σ → ε → σ) (view : σ → γ) (Q : ε → Prop) : Prop where
  outside : ∀ s e, ¬ Q e → view (f s e) = view s
  inside : ∀ s t e, Q e → view s = view t → view (f s e) = view (f t e)

namespace Footprint

variable {f : σ → ε → σ} {view : σ → γ} {Q : ε → Prop} [DecidablePred Q]

/-- From two states with the same part, all events and those with a say in it leave the
same part. -/
theorem foldl_filter_of_eq (h : Footprint f view Q) {s t : σ} (hst : view s = view t)
    (es : List ε) : view (es.foldl f s) = view ((es.filter Q).foldl f t) := by
  induction es generalizing s t with
  | nil => exact hst
  | cons e es ih =>
    by_cases he : Q e
    · rw [List.filter_cons_of_pos (by simpa using he)]
      exact ih (h.inside s t e he hst)
    · rw [List.filter_cons_of_neg (by simpa using he)]
      exact ih ((h.outside s e he).trans hst)

/-- **What the events leave in the part**: what those with a say in it leave there. -/
theorem foldl_filter (h : Footprint f view Q) (s : σ) (es : List ε) :
    view (es.foldl f s) = view ((es.filter Q).foldl f s) := h.foldl_filter_of_eq rfl es

end Footprint

end Subtle.Lib
