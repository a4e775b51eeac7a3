import Mathlib.Algebra.Ring.Nat
import Mathlib.Logic.Relation
import Mathlib.Order.RelClasses
import LowLatency.Lib.Transition

/-!
Progress in a transition system.

A safety property says nothing about a system that stands still. What shows
that it need not is a measure: as long as the goal has not been reached, some
step lowers it.
-/

namespace LowLatency.Lib

theorem System.Reachable.trans {σ : Type} {S : System σ} {s t : σ} (h : S.Reachable s)
    (hrun : Relation.ReflTransGen S.step s t) : S.Reachable t := by
  induction hrun with
  | refl => exact h
  | tail _ hst ih => exact ih.step hst

/-- The progress rule: when every state on the way either is a goal or has a step
that lowers a measure, a goal can be reached. -/
theorem System.Reachable.exists_goal {σ α : Type} {S : System σ} [LT α] [WellFoundedLT α]
    (μ : σ → α) (P goal : σ → Prop)
    (hprogress : ∀ s, S.Reachable s → P s →
      goal s ∨ ∃ t, S.step s t ∧ P t ∧ μ t < μ s)
    {s : σ} (h : S.Reachable s) (hP : P s) :
    ∃ t, Relation.ReflTransGen S.step s t ∧ goal t := by
  induction hμ : μ s using WellFoundedLT.induction generalizing s with
  | ind a ih =>
      subst hμ
      rcases hprogress s h hP with hgoal | ⟨t, hst, hPt, hlt⟩
      · exact ⟨s, .refl, hgoal⟩
      · obtain ⟨u, htu, hgoal⟩ := ih (μ t) hlt (h.step hst) hPt rfl
        exact ⟨u, .head hst htu, hgoal⟩

/-- The termination rule: a measure that every step lowers bounds the length of every
run. -/
theorem System.length_le_of_decreasing {σ : Type} {S : System σ} (μ : σ → ℕ)
    (hdecreasing : ∀ s t, S.Reachable s → S.step s t → μ t < μ s) {run : ℕ → σ} {k : ℕ}
    (hinit : S.init (run 0)) (hrun : ∀ j < k, S.step (run j) (run (j + 1))) :
    S.Reachable (run k) ∧ μ (run k) + k ≤ μ (run 0) := by
  induction k with
  | zero => exact ⟨.init hinit, le_rfl⟩
  | succ k ih =>
      obtain ⟨hreach, hle⟩ := ih fun j hj => hrun j (hj.trans (Nat.lt_succ_self k))
      have hst := hrun k (Nat.lt_succ_self k)
      have hlt := hdecreasing _ _ hreach hst
      exact ⟨hreach.step hst, by omega⟩

theorem exists_run {σ : Type} {step : σ → σ → Prop} {s t : σ}
    (h : Relation.ReflTransGen step s t) : ∃ (run : ℕ → σ) (k : ℕ), run 0 = s ∧ run k = t ∧
      ∀ j < k, step (run j) (run (j + 1)) := by
  induction h using Relation.ReflTransGen.head_induction_on with
  | refl => exact ⟨fun _ => t, 0, rfl, rfl, fun j hj => absurd hj (Nat.not_lt_zero j)⟩
  | @head a c hac _ ih =>
      obtain ⟨run, k, hstart, hend, hrun⟩ := ih
      refine ⟨fun j => j.casesOn a run, k + 1, rfl, hend, fun j hj => ?_⟩
      cases j with
      | zero =>
          show step a (run 0)
          rwa [hstart]
      | succ j => exact hrun j (Nat.succ_lt_succ_iff.mp hj)

/-- The work that is left to a list of threads goes down when one of them gets on
with its own. -/
theorem sum_map_set_lt {P : Type} (left : P → ℕ) {threads : List P} {k : ℕ} {p p' : P}
    (hp : threads[k]? = some p) (hlt : left p' < left p) :
    ((threads.set k p').map left).sum < (threads.map left).sum := by
  induction threads generalizing k with
  | nil => simp at hp
  | cons q threads ih =>
      cases k with
      | zero =>
          rw [List.getElem?_cons_zero, Option.some.injEq] at hp
          subst hp
          simpa using hlt
      | succ k =>
          rw [List.getElem?_cons_succ] at hp
          simpa using ih hp

end LowLatency.Lib
