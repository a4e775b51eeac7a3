import LowLatency.Lib.CircularIndex
import LowLatency.Common.Types

/-!
`lf_queue.hpp`: a circular buffer with a write index, a read index and a count
of elements.

The two updates are given in the parts other threads can see: the store of an
index and the change of the count. `Holds q r content` is the sequential
meaning of a queue: from the `r`-th element ever written on, it holds `content`.
There is no test for a full queue in the code, so `Holds.put` has to ask for
room.
-/

namespace LowLatency.Common

open LowLatency.Lib

/-- `x + 1` on a `size_t`. -/
def succT (x : ℕ) : ℕ := (x + 1) % 2 ^ 64

/-- `x - 1` on a `size_t`. -/
def predT (x : ℕ) : ℕ := if x = 0 then 2 ^ 64 - 1 else x - 1

/-- The length of a vector that is not empty. -/
abbrev Capacity := {n : ℕ // 0 < n ∧ n < 2 ^ 64}

structure LFQueue (T : Type) where
  queue : ℕ → T
  capacity : Capacity
  writeIdx : ℕ
  readIdx : ℕ
  qSize : ℕ

namespace LFQueue

variable {T : Type}

/-- `LFQueue(size_t n)`: every cell holds a `T()`. -/
def ofSize [Inhabited T] (n : Capacity) : LFQueue T :=
  { queue := fun _ => default, capacity := n, writeIdx := 0, readIdx := 0, qSize := 0 }

def size (q : LFQueue T) : ℕ := q.qSize

/-- `&queue[write_idx_]`, as the index of the cell. -/
def getNextToWrite (q : LFQueue T) : ℕ := q.writeIdx

/-- An assignment to the cell at `c`. -/
def write (q : LFQueue T) (c : ℕ) (v : T) : LFQueue T :=
  { q with queue := Function.update q.queue c v }

/-- `write_idx_ = (write_idx_ + 1) % queue.size()`. -/
def storeWriteIdx (q : LFQueue T) : LFQueue T :=
  { q with writeIdx := succT q.writeIdx % q.capacity }

def incSize (q : LFQueue T) : LFQueue T := { q with qSize := succT q.qSize }

def updateWriteIdx (q : LFQueue T) : LFQueue T := q.storeWriteIdx.incSize

/-- The index of the cell to read, or null. -/
def getNextToRead (q : LFQueue T) : Option ℕ := if q.size = 0 then none else some q.readIdx

/-- `read_idx_ = (read_idx_ + 1) % queue.size()`. -/
def storeReadIdx (q : LFQueue T) : LFQueue T :=
  { q with readIdx := succT q.readIdx % q.capacity }

def decSize (q : LFQueue T) : LFQueue T := { q with qSize := predT q.qSize }

/-- `updateReadIdx`, on the thread with the number `self`. -/
def updateReadIdx (q : LFQueue T) (self : ℕ) : Exec (LFQueue T) := do
  assert (decide (q.qSize > 0)) ("Empty queue : " ++ toString self)
  .ok q.storeReadIdx.decSize

/-- What every writer does with a value. -/
def put (q : LFQueue T) (v : T) : LFQueue T := (q.write q.getNextToWrite v).updateWriteIdx

/-- What every reader does: nothing while the pointer is null, otherwise use
the value and update the index. -/
def take (q : LFQueue T) (self : ℕ) : Exec (LFQueue T × Option T) :=
  match q.getNextToRead with
  | none => .ok (q, none)
  | some c => do
      let q' ← q.updateReadIdx self
      .ok (q', some (q.queue c))

/-- The `ASSERT` is behind the test for a null pointer. -/
theorem exists_take (q : LFQueue T) (self : ℕ) : ∃ r, q.take self = .ok r := by
  unfold take getNextToRead size
  by_cases h : q.qSize = 0
  · exact ⟨(q, none), by rw [if_pos h]⟩
  · have hpos : q.qSize > 0 := Nat.pos_of_ne_zero h
    exact ⟨(q.storeReadIdx.decSize, some (q.queue q.readIdx)), by
      simp [h, updateReadIdx, hpos]⟩

/-! ### Indices -/

theorem succT_eq {k : ℕ} {n : Capacity} (hk : k < n) : succT k = k + 1 := by
  have hn := n.2.2
  exact Nat.mod_eq_of_lt (by omega)

theorem predT_succ (k : ℕ) : predT (k + 1) = k := rfl

theorem succ_idx (n : Capacity) (k : ℕ) : succT (k % n) % n = (k + 1) % n := by
  rw [succT_eq (Nat.mod_lt k n.2.1), mod_succ_mod]

/-! ### The sequential queue -/

/-- The queue holds `content`, the elements from the `r`-th written on. -/
structure Holds (q : LFQueue T) (r : ℕ) (content : List T) : Prop where
  readIdx : q.readIdx = r % q.capacity
  writeIdx : q.writeIdx = (r + content.length) % q.capacity
  qSize : q.qSize = content.length
  length_le : content.length ≤ q.capacity
  cells : ∀ i (h : i < content.length), q.queue ((r + i) % q.capacity) = content[i]

theorem holds_ofSize [Inhabited T] (n : Capacity) : Holds (ofSize n : LFQueue T) 0 [] where
  readIdx := (Nat.zero_mod n).symm
  writeIdx := (Nat.zero_mod n).symm
  qSize := rfl
  length_le := Nat.zero_le n
  cells i h := absurd h (Nat.not_lt_zero i)

theorem Holds.put {q : LFQueue T} {r : ℕ} {content : List T} (h : Holds q r content)
    (hroom : q.size < q.capacity) (v : T) : Holds (q.put v) r (content ++ [v]) := by
  have hlen : content.length < q.capacity := by
    rw [← h.qSize]
    exact hroom
  refine ⟨h.readIdx, ?_, ?_, ?_, ?_⟩
  · show succT q.writeIdx % q.capacity = _
    rw [h.writeIdx, succ_idx, List.length_append, List.length_singleton, Nat.add_assoc]
    rfl
  · show succT q.qSize = _
    rw [h.qSize, succT_eq hlen, List.length_append, List.length_singleton]
  · rw [List.length_append, List.length_singleton]
    exact hlen
  · intro i hi
    rw [List.length_append, List.length_singleton] at hi
    show Function.update q.queue q.writeIdx v ((r + i) % q.capacity) = _
    rw [h.writeIdx]
    by_cases hil : i = content.length
    · subst hil
      simp
    · have hi' : i < content.length := by omega
      have hne : (r + i) % q.capacity ≠ (r + content.length) % q.capacity :=
        (mod_ne_mod (by omega) (by omega)).symm
      rw [Function.update_of_ne hne, h.cells i hi', List.getElem_append_left hi']

theorem Holds.take {q : LFQueue T} {r : ℕ} {content : List T} (h : Holds q r content)
    (self : ℕ) :
    ∃ q', q.take self = .ok (q', content.head?) ∧ q'.capacity = q.capacity ∧
      ∃ r', Holds q' r' content.tail := by
  cases content with
  | nil =>
      have hnull : q.getNextToRead = none := by
        rw [getNextToRead, size, h.qSize]
        rfl
      exact ⟨q, by rw [LFQueue.take, hnull]; rfl, rfl, r, h⟩
  | cons v rest =>
      have hsize : q.qSize = rest.length + 1 := h.qSize
      have hread : q.getNextToRead = some q.readIdx := by
        simp [getNextToRead, size, hsize]
      have hcell : q.queue q.readIdx = v := by
        rw [h.readIdx]
        exact h.cells 0 (by simp)
      refine ⟨q.storeReadIdx.decSize, ?_, rfl, r + 1, ?_, ?_, ?_, ?_, ?_⟩
      · rw [LFQueue.take, hread]
        simp [updateReadIdx, hsize, hcell]
      · show succT q.readIdx % q.capacity = _
        rw [h.readIdx, succ_idx]
        rfl
      · show q.writeIdx = _
        rw [h.writeIdx, List.length_cons, List.tail_cons, Nat.add_assoc, Nat.add_comm 1]
        rfl
      · show predT q.qSize = _
        rw [hsize, predT_succ]
        rfl
      · exact (Nat.le_succ _).trans h.length_le
      · intro i hi
        have hi' : i + 1 < (v :: rest).length := Nat.succ_lt_succ hi
        have hc := h.cells (i + 1) hi'
        rw [← Nat.add_assoc, Nat.add_right_comm] at hc
        exact hc

end LFQueue

end LowLatency.Common
