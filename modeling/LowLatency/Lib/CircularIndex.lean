import Mathlib.Data.Nat.Find
import Mathlib.Data.Nat.ModEq
import Mathlib.Tactic.Common

/-!
Arithmetic of a position that goes round a circle of `n` places.

A position is best described by how many steps were taken, counted without
ever wrapping; the place it stands at is that count modulo `n`. The lemmas
here translate between the two: what one step does to the place, and when two
counts stand at the same place.
-/

namespace LowLatency.Lib

variable {n : ℕ}

/-- One step forward, written with the test for the end of the circle. -/
theorem step_mod (hn : 0 < n) (a : ℕ) :
    (if a % n + 1 = n then 0 else a % n + 1) = (a + 1) % n := by
  have hlt : a % n < n := Nat.mod_lt a hn
  have hstep : (a + 1) % n = (a % n + 1) % n := (Nat.mod_add_mod a n 1).symm
  split
  · rename_i h
    rw [hstep, h, Nat.mod_self]
  · rename_i h
    have hsucc : a % n + 1 < n := by omega
    rw [hstep, Nat.mod_eq_of_lt hsucc]

theorem mod_succ_mod (a : ℕ) : (a % n + 1) % n = (a + 1) % n :=
  Nat.mod_add_mod a n 1

theorem mod_ne_mod {a b : ℕ} (hab : a < b) (hb : b < a + n) : b % n ≠ a % n := by
  intro h
  have hdvd : n ∣ b - a := (Nat.modEq_iff_dvd' hab.le).mp h.symm
  have hle := Nat.le_of_dvd (by omega) hdvd
  omega

theorem add_mod_eq_self_iff {a k : ℕ} (ha : a < n) (hk : k ≤ n) (hk0 : 0 < k) :
    (a + k) % n = a ↔ k = n := by
  constructor
  · intro h
    by_contra hne
    refine mod_ne_mod (n := n) (a := a) (b := a + k) (by omega) (by omega) ?_
    rw [h, Nat.mod_eq_of_lt ha]
  · rintro rfl
    rw [Nat.add_mod_right, Nat.mod_eq_of_lt ha]

theorem exists_steps {a i : ℕ} (ha : a < n) (hi : i < n) : ∃ k < n, (a + k) % n = i := by
  by_cases h : a ≤ i
  · refine ⟨i - a, by omega, ?_⟩
    rw [Nat.add_sub_cancel' h, Nat.mod_eq_of_lt hi]
  · refine ⟨n - a + i, by omega, ?_⟩
    have hsum : a + (n - a + i) = i + n := by omega
    rw [hsum, Nat.add_mod_right, Nat.mod_eq_of_lt hi]

/-- On the way round from `a`, the first place with `P` is met after `k` steps. -/
structure FirstAfter (n a : ℕ) (P : ℕ → Prop) (k : ℕ) : Prop where
  lt : k < n
  here : P ((a + k) % n)
  before : ∀ j < k, ¬ P ((a + j) % n)

theorem exists_firstAfter {a : ℕ} {P : ℕ → Prop} (ha : a < n) (h : ∃ i < n, P i) :
    ∃ k, FirstAfter n a P k := by
  classical
  obtain ⟨i, hi, hP⟩ := h
  obtain ⟨k, hk, rfl⟩ := exists_steps ha hi
  have hmet : ∃ j, P ((a + j) % n) := ⟨k, hP⟩
  have hle : Nat.find hmet ≤ k := Nat.find_min' hmet hP
  exact ⟨Nat.find hmet, hle.trans_lt hk, Nat.find_spec hmet, fun j hj => Nat.find_min hmet hj⟩

end LowLatency.Lib
