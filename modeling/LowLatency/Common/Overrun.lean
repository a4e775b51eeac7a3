import LowLatency.Common.LFQueue
import LowLatency.Lib.Lapping

/-!
`lf_queue.hpp` with a writer that is faster than the reader.

Nothing in the queue compares the two indices, so it goes on when it is full:
the writer laps the reader. `Laps` says what such a queue holds, whatever was
put and taken; it needs no room, only a count of elements that has not gone
round itself.
-/

namespace LowLatency.Common.LFQueue

open LowLatency.Lib

variable {T : Type}

/-- `sent` has been put into the queue and `read` taken from it. In each cell is
the last value that was put there. -/
structure Laps (q : LFQueue T) (s : Blind T) : Prop where
  length_le : s.read.length ≤ s.sent.length
  readIdx : q.readIdx = s.read.length % q.capacity
  writeIdx : q.writeIdx = s.sent.length % q.capacity
  qSize : q.qSize = s.sent.length - s.read.length
  cells : ∀ i (h : i < s.sent.length), s.sent.length ≤ i + q.capacity →
    q.queue (i % q.capacity) = s.sent[i]

theorem laps_ofSize [Inhabited T] (n : Capacity) : Laps (ofSize n : LFQueue T) ⟨[], []⟩ where
  length_le := le_rfl
  readIdx := (Nat.zero_mod n).symm
  writeIdx := (Nat.zero_mod n).symm
  qSize := rfl
  cells i h := absurd h (Nat.not_lt_zero i)

variable {q q' : LFQueue T} {s : Blind T}

theorem Laps.put (h : Laps q s) (hcount : s.sent.length + 1 < 2 ^ 64) (v : T) :
    Laps (q.put v) (s.step q.capacity (.put v)) := by
  have hlen : (s.sent ++ [v]).length = s.sent.length + 1 := List.length_append
  refine ⟨?_, h.readIdx, ?_, ?_, ?_⟩
  · show s.read.length ≤ (s.sent ++ [v]).length
    rw [hlen]
    exact h.length_le.trans (Nat.le_succ _)
  · show succT q.writeIdx % q.capacity = (s.sent ++ [v]).length % q.capacity
    rw [h.writeIdx, succ_idx, hlen]
  · show succT q.qSize = (s.sent ++ [v]).length - s.read.length
    have hle := h.length_le
    rw [h.qSize, hlen, succT, Nat.mod_eq_of_lt (by omega)]
    omega
  · intro i hi hin
    change i < (s.sent ++ [v]).length at hi
    change (s.sent ++ [v]).length ≤ i + q.capacity at hin
    show Function.update q.queue q.writeIdx v (i % q.capacity) = (s.sent ++ [v])[i]
    rw [hlen] at hi hin
    rw [h.writeIdx]
    by_cases hil : i = s.sent.length
    · subst hil
      simp
    · have hi' : i < s.sent.length := by omega
      have hne : i % q.capacity ≠ s.sent.length % q.capacity :=
        (mod_ne_mod hi' (by omega)).symm
      rw [Function.update_of_ne hne, h.cells i hi' (by omega), List.getElem_append_left hi']

theorem Laps.take (h : Laps q s) (self : ℕ) :
    ∃ q', q.take self = .ok (q', s.sent[newest q.capacity s.sent.length s.read.length]?) ∧
      q'.capacity = q.capacity ∧ Laps q' (s.step q.capacity .take) := by
  rcases h.length_le.eq_or_lt with heq | hlt
  · have hnull : q.getNextToRead = none := by
      rw [getNextToRead, size, h.qSize, heq, Nat.sub_self, if_pos rfl]
    refine ⟨q, ?_, rfl, (Blind.step_take_eq heq).symm ▸ h⟩
    rw [LFQueue.take, hnull, heq, newest_self, List.getElem?_eq_none le_rfl]
  · have hsize : q.qSize ≠ 0 := by
      rw [h.qSize]
      omega
    have hpos : q.qSize > 0 := Nat.pos_of_ne_zero hsize
    have hnew := newest_lt (n := q.capacity) hlt
    have hcell : q.queue q.readIdx = s.sent[newest q.capacity s.sent.length s.read.length] := by
      rw [h.readIdx, ← newest_mod]
      exact h.cells _ hnew (lt_newest_add q.capacity.2.1 hlt)
    have hlen : (s.step q.capacity .take).read.length = s.read.length + 1 := by
      rw [Blind.step, List.getElem?_eq_getElem hnew]
      simp
    refine ⟨q.storeReadIdx.decSize, ?_, rfl, ?_, ?_, h.writeIdx, ?_, h.cells⟩
    · rw [LFQueue.take, getNextToRead, size, if_neg hsize, List.getElem?_eq_getElem hnew]
      simp [updateReadIdx, hpos, hcell]
    · rw [hlen]
      exact hlt
    · show succT q.readIdx % q.capacity = _
      rw [h.readIdx, succ_idx, hlen]
      rfl
    · show predT q.qSize = s.sent.length - _
      rw [hlen, predT, if_neg hsize, h.qSize]
      omega

end LowLatency.Common.LFQueue
