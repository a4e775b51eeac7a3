import Mathlib.Tactic.Common

/-!
Transition systems: reachable states, the invariant rule, and refinement.

A system refines another through an abstraction of its states when each of its
steps, from a reachable state, is a step of the other or is not seen by it.
What holds in all reachable states of the abstract system can then be read off
any reachable state of the concrete one.
-/

namespace LowLatency.Lib

structure System (σ : Type) where
  init : σ → Prop
  step : σ → σ → Prop

namespace System

variable {σ τ : Type}

inductive Reachable (S : System σ) : σ → Prop
  | init {s : σ} : S.init s → Reachable S s
  | step {s t : σ} : Reachable S s → S.step s t → Reachable S t

variable {S : System σ} {A : System τ} {f : σ → τ} {s : σ}

/-- The invariant rule. -/
theorem Reachable.invariant (I : σ → Prop) (h0 : ∀ s, S.init s → I s)
    (hstep : ∀ s t, I s → S.step s t → I t) (h : S.Reachable s) : I s := by
  induction h with
  | init h => exact h0 _ h
  | step _ hst ih => exact hstep _ _ ih hst

/-- The simulation rule, with the abstract state known to be reachable when a
step has to be matched. -/
theorem Reachable.map (f : σ → τ) (h0 : ∀ s, S.init s → A.init (f s))
    (hstep : ∀ s t, S.Reachable s → A.Reachable (f s) → S.step s t →
      f t = f s ∨ A.step (f s) (f t)) (h : S.Reachable s) : A.Reachable (f s) := by
  induction h with
  | init h => exact .init (h0 _ h)
  | step hs hst ih =>
      rcases hstep _ _ hs ih hst with heq | hst'
      · rw [heq]
        exact ih
      · exact ih.step hst'

structure Refines (S : System σ) (A : System τ) (f : σ → τ) : Prop where
  init : ∀ s, S.init s → A.init (f s)
  step : ∀ s t, S.Reachable s → S.step s t → f t = f s ∨ A.step (f s) (f t)

theorem Refines.reachable (h : Refines S A f) (hs : S.Reachable s) : A.Reachable (f s) :=
  hs.map f h.init fun s t hs _ hst => h.step s t hs hst

end System

end LowLatency.Lib
