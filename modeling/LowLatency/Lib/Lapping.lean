import LowLatency.Lib.CircularIndex
import Mathlib.Data.List.Infix
import Mathlib.Data.List.Nodup

/-!
A circle of cells whose sender never looks whether there is room.

The reader knows how many values were sent and how many it has read, and goes
on to the next cell. When it is more than a full turn behind, the value it
waits for is gone, and it gets the one that took its place. Who has been
lapped neither skips anything nor stops: there are as many values to read as
were sent, only some of them are read twice and others never.
-/

namespace LowLatency.Lib

/-- Of the values with the numbers below `w`, the last in the cell of number `r`. -/
def newest (n w r : ℕ) : ℕ := r + n * ((w - 1 - r) / n)

section Newest

variable {n w r : ℕ}

theorem newest_mod : newest n w r % n = r % n := Nat.add_mul_mod_self_left r n _

theorem newest_lt (h : r < w) : newest n w r < w := by
  have hle : n * ((w - 1 - r) / n) ≤ w - 1 - r := Nat.mul_div_le _ n
  rw [newest]
  omega

theorem lt_newest_add (hn : 0 < n) (h : r < w) : w ≤ newest n w r + n := by
  have hlt : w - 1 - r < n * ((w - 1 - r) / n) + n := Nat.lt_mul_div_succ _ hn
  rw [newest]
  omega

theorem newest_eq_self_iff (hn : 0 < n) (h : r < w) : newest n w r = r ↔ w ≤ r + n := by
  constructor
  · intro heq
    have hle := lt_newest_add hn h
    omega
  · intro hle
    rw [newest, Nat.div_eq_of_lt (by omega), Nat.mul_zero, Nat.add_zero]

theorem newest_self : newest n w w = w := by
  rw [newest, Nat.sub_right_comm, Nat.sub_self, Nat.zero_sub, Nat.zero_div, Nat.mul_zero,
    Nat.add_zero]

theorem newest_add_left (k : ℕ) : newest n (k + w) (k + r) = k + newest n w r := by
  have hshift : k + w - 1 - (k + r) = w - 1 - r := by omega
  rw [newest, newest, hshift, Nat.add_assoc]

end Newest

/-- What the two ends do. -/
inductive RingOp (T : Type)
  | put (v : T)
  | take

def RingOp.value {T : Type} : RingOp T → Option T
  | .put v => some v
  | .take => none

/-- The values sent and the values read so far. -/
structure Blind (T : Type) where
  sent : List T
  read : List T

namespace Blind

variable {T : Type} {n : ℕ}

/-- Nothing is read when everything has been. -/
def step (n : ℕ) (s : Blind T) : RingOp T → Blind T
  | .put v => { s with sent := s.sent ++ [v] }
  | .take => { s with
      read := s.read ++ s.sent[newest n s.sent.length s.read.length]?.toList }

def run (n : ℕ) (ops : List (RingOp T)) : Blind T := ops.foldl (step n) ⟨[], []⟩

theorem run_snoc (ops : List (RingOp T)) (op : RingOp T) :
    run n (ops ++ [op]) = (run n ops).step n op := by
  rw [run, List.foldl_append]
  rfl

theorem sent_eq (ops : List (RingOp T)) : (run n ops).sent = ops.filterMap RingOp.value := by
  induction ops using List.reverseRecOn with
  | nil => rfl
  | append_singleton ops op ih =>
      rw [run_snoc, List.filterMap_append, ← ih]
      cases op with
      | put v => rfl
      | take => exact (List.append_nil _).symm

theorem step_take_eq {s : Blind T} (h : s.read.length = s.sent.length) :
    s.step n .take = s := by
  rw [step, h, newest_self, List.getElem?_eq_none le_rfl, Option.toList_none, List.append_nil]

theorem read_length_le (ops : List (RingOp T)) :
    (run n ops).read.length ≤ (run n ops).sent.length := by
  induction ops using List.reverseRecOn with
  | nil => exact le_rfl
  | append_singleton ops op ih =>
      rw [run_snoc]
      cases op with
      | put v =>
          show _ ≤ ((run n ops).sent ++ [v]).length
          rw [List.length_append]
          exact ih.trans (Nat.le_add_right _ _)
      | take =>
          rcases ih.eq_or_lt with heq | hlt
          · rw [step_take_eq heq]
            exact ih
          · show ((run n ops).read ++ _).length ≤ (run n ops).sent.length
            rw [List.getElem?_eq_getElem (newest_lt hlt), Option.toList_some, List.length_append]
            exact hlt

theorem isPrefix_step (s : Blind T) (op : RingOp T) :
    s.sent <+: (s.step n op).sent ∧ s.read <+: (s.step n op).read := by
  cases op with
  | put v => exact ⟨List.prefix_append _ _, List.prefix_refl _⟩
  | take => exact ⟨List.prefix_refl _, List.prefix_append _ _⟩

theorem isPrefix_run {pre ops : List (RingOp T)} (h : pre <+: ops) :
    (run n pre).sent <+: (run n ops).sent ∧ (run n pre).read <+: (run n ops).read := by
  obtain ⟨rest, rfl⟩ := h
  induction rest using List.reverseRecOn with
  | nil =>
      rw [List.append_nil]
      exact ⟨List.prefix_refl _, List.prefix_refl _⟩
  | append_singleton rest op ih =>
      rw [← List.append_assoc, run_snoc]
      have hstep := isPrefix_step (n := n) (run n (pre ++ rest)) op
      exact ⟨ih.1.trans hstep.1, ih.2.trans hstep.2⟩

/-! ### A reader that keeps up -/

/-- A reader that finds something is at most a full turn behind. -/
def InTime (n : ℕ) (ops : List (RingOp T)) : Prop :=
  ∀ pre, pre ++ [.take] <+: ops → (run n pre).read.length < (run n pre).sent.length →
    (run n pre).sent.length ≤ (run n pre).read.length + n

theorem read_isPrefix (hn : 0 < n) {ops : List (RingOp T)} (h : InTime n ops) :
    (run n ops).read <+: (run n ops).sent := by
  induction ops using List.reverseRecOn with
  | nil => exact List.prefix_refl _
  | append_singleton ops op ih =>
      have hread := ih fun pre hpre => h pre (hpre.trans (List.prefix_append _ _))
      rw [run_snoc]
      cases op with
      | put v => exact hread.trans (List.prefix_append _ _)
      | take =>
          rcases (read_length_le (n := n) ops).eq_or_lt with heq | hlt
          · rw [step_take_eq heq]
            exact hread
          · have hnewest := (newest_eq_self_iff hn hlt).mpr (h ops (List.prefix_refl _) hlt)
            show (run n ops).read ++ _ <+: (run n ops).sent
            rw [hnewest, List.getElem?_eq_getElem hlt, Option.toList_some]
            exact List.concat_get_prefix hread hlt

/-- Of values that are all different, a reader that was lapped has read one out of
its place. -/
theorem inTime_of_isPrefix (hn : 0 < n) {ops : List (RingOp T)}
    (hnodup : (run n ops).sent.Nodup) (h : (run n ops).read <+: (run n ops).sent) :
    InTime n ops := by
  intro pre hpre hlt
  set s := run n pre with hs
  have hsent : s.sent <+: (run n ops).sent :=
    (isPrefix_run ((List.prefix_append _ _).trans hpre)).1
  have hnew := newest_lt (n := n) hlt
  have hread : (run n (pre ++ [.take])).read =
      s.read ++ [s.sent[newest n s.sent.length s.read.length]] := by
    rw [run_snoc, ← hs, step, List.getElem?_eq_getElem hnew, Option.toList_some]
  have hafter : s.read ++ [s.sent[newest n s.sent.length s.read.length]] <+:
      (run n ops).sent := by
    rw [← hread]
    exact (isPrefix_run hpre).2.trans h
  have hplace := List.prefix_iff_getElem?.mp hafter s.read.length (by simp)
  simp only [List.getElem_append_right le_rfl, Nat.sub_self, List.getElem_cons_zero] at hplace
  have hown := List.prefix_iff_getElem?.mp hsent _ hnew
  have heq : newest n s.sent.length s.read.length = s.read.length :=
    (List.getElem?_inj (hnew.trans_le hsent.length_le) hnodup).mp (hown.trans hplace.symm)
  exact (newest_eq_self_iff hn hlt).mp heq

theorem read_isPrefix_iff (hn : 0 < n) {ops : List (RingOp T)}
    (hnodup : (run n ops).sent.Nodup) :
    (run n ops).read <+: (run n ops).sent ↔ InTime n ops :=
  ⟨inTime_of_isPrefix hn hnodup, read_isPrefix hn⟩

/-! ### A reader that has caught up -/

/-- From a point where everything sent has been read, it is as if the circle were
new. -/
theorem run_append_of_length_eq {pre : List (RingOp T)}
    (h : (run n pre).read.length = (run n pre).sent.length) (ops : List (RingOp T)) :
    run n (pre ++ ops) =
      ⟨(run n pre).sent ++ (run n ops).sent, (run n pre).read ++ (run n ops).read⟩ := by
  induction ops using List.reverseRecOn with
  | nil =>
      rw [List.append_nil]
      show run n pre = ⟨(run n pre).sent ++ [], (run n pre).read ++ []⟩
      rw [List.append_nil, List.append_nil]
  | append_singleton ops op ih =>
      rw [← List.append_assoc, run_snoc, run_snoc, ih]
      cases op with
      | put v =>
          rw [step, step, List.append_assoc]
      | take =>
          rw [step, step, List.length_append, List.length_append, h, newest_add_left,
            List.getElem?_append_right (Nat.le_add_right _ _), Nat.add_sub_cancel_left,
            List.append_assoc]

end Blind

end LowLatency.Lib
