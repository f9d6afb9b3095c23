/-!
# Runs of a transition system

The states a system reaches from its initial states, and the one induction over runs that every invariant uses.
-/

namespace BootPerl

/-- The states reached by some number of steps from an initial state. -/
inductive Reach {σ : Type} (init : σ → Prop) (step : σ → σ → Prop) : σ → Prop where
  | init {s : σ} : init s → Reach init step s
  | step {s s' : σ} : Reach init step s → step s s' → Reach init step s'

/-- What holds initially and is kept by every step holds in every state reached. -/
theorem Reach.invariant {σ : Type} {init : σ → Prop} {step : σ → σ → Prop} {I : σ → Prop} (h0 : ∀ s, init s → I s)
    (hstep : ∀ s s', I s → step s s' → I s') {s : σ} (h : Reach init step s) : I s := by
  induction h with
  | init hs => exact h0 _ hs
  | step _ hs ih => exact hstep _ _ ih hs

end BootPerl
