import Mathlib.Tactic.Common

/-!
A pool of threads, as the list of where they stand.

Threads are launched at the end of the list and step in their own place. When
all but one of them are at rest, the pool looks like this one thread: `viewAt`
is what is seen of it.
-/

namespace LowLatency.Lib

variable {P C : Type} {threads : List P} {i k : ℕ} {p p' : P}

theorem getElem?_launch (h : (threads ++ [p])[k]? = some p') :
    threads[k]? = some p' ∨ k = threads.length ∧ p' = p := by
  rcases Nat.lt_or_ge k threads.length with hlt | hge
  · rw [List.getElem?_append_left hlt] at h
    exact .inl h
  · rw [List.getElem?_append_right hge, List.getElem?_singleton] at h
    split at h
    · exact .inr ⟨by omega, (Option.some.inj h).symm⟩
    · contradiction

/-- All threads other than the `i`-th are as `Q` says. -/
def Others (Q : P → Prop) (threads : List P) (i : ℕ) : Prop :=
  ∀ j p, j ≠ i → threads[j]? = some p → Q p

namespace Others

variable {Q R : P → Prop}

theorem mono (h : Others Q threads i) (hQR : ∀ p, Q p → R p) : Others R threads i :=
  fun j p hj hp => hQR p (h j p hj hp)

theorem eq_of_not (h : Others Q threads i) (hp : threads[k]? = some p) (hQ : ¬ Q p) : k = i := by
  by_contra hk
  exact hQ (h k p hk hp)

theorem set_self (h : Others Q threads i) (p : P) : Others Q (threads.set i p) i := by
  intro j q hj hq
  rw [List.getElem?_set_ne hj.symm] at hq
  exact h j q hj hq

theorem set (h : Others Q threads i) (hp : Q p) (k : ℕ) : Others Q (threads.set k p) i := by
  intro j q hj hq
  by_cases hk : k = j
  · rw [hk, List.getElem?_set, if_pos rfl] at hq
    split at hq
    · rwa [← Option.some.inj hq]
    · contradiction
  · rw [List.getElem?_set_ne hk] at hq
    exact h j q hj hq

theorem launch (h : Others Q threads i) (hp : Q p) : Others Q (threads ++ [p]) i := by
  intro j q hj hq
  rcases getElem?_launch hq with hq | ⟨-, rfl⟩
  · exact h j q hj hq
  · exact hp

theorem launch_of_forall (h : ∀ p ∈ threads, Q p) (p : P) :
    Others Q (threads ++ [p]) threads.length := by
  intro j q hj hq
  rcases getElem?_launch hq with hq | ⟨hlast, -⟩
  · exact h q (List.mem_of_getElem? hq)
  · exact absurd hlast hj

end Others

/-! ### What is seen of one thread -/

variable {view : P → C} {idle : C}

/-- What is seen of the `i`-th thread. One that is not there is at rest. -/
def viewAt (view : P → C) (idle : C) (threads : List P) (i : ℕ) : C :=
  (threads[i]?.map view).getD idle

theorem viewAt_eq (h : threads[i]? = some p) : viewAt view idle threads i = view p := by
  rw [viewAt, h]
  rfl

theorem viewAt_eq_idle (h : ∀ p, threads[i]? = some p → view p = idle) :
    viewAt view idle threads i = idle := by
  cases hp : threads[i]? with
  | none =>
      rw [viewAt, hp]
      rfl
  | some p => rw [viewAt_eq hp, h p hp]

theorem viewAt_set_self (h : threads[i]? = some p) (p' : P) :
    viewAt view idle (threads.set i p') i = view p' :=
  viewAt_eq (List.getElem?_set_self (List.getElem?_eq_some_iff.mp h).1)

theorem viewAt_set_of_ne (h : k ≠ i) (p : P) :
    viewAt view idle (threads.set k p) i = viewAt view idle threads i := by
  rw [viewAt, List.getElem?_set_ne h, viewAt]

theorem viewAt_launch (hp : view p = idle) :
    viewAt view idle (threads ++ [p]) i = viewAt view idle threads i := by
  cases hi : threads[i]? with
  | some q =>
      have hlt := (List.getElem?_eq_some_iff.mp hi).1
      rw [viewAt, List.getElem?_append_left hlt, viewAt]
  | none =>
      have hrest : viewAt view idle threads i = idle :=
        viewAt_eq_idle fun q hq => absurd (hi.symm.trans hq) (by simp)
      rw [hrest]
      refine viewAt_eq_idle fun q hq => ?_
      rcases getElem?_launch hq with hq | ⟨-, rfl⟩
      · rw [hi] at hq
        contradiction
      · exact hp

end LowLatency.Lib
