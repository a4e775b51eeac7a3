import LowLatency.Lib.CircularIndex
import LowLatency.Common.Types

/-!
`mem_pool.hpp`: a fixed number of blocks, handed out one at a time.

A pool is also the heap of the objects it holds. An object is named by the
index of its block, and a pointer to it is that index or null; `read` and
`modify` are what the code does through such a pointer.
-/

namespace LowLatency.Common

open LowLatency.Lib

/-- The index of a block. -/
abbrev Addr := ℕ

/-- A pointer to an object of a pool. -/
abbrev Ptr := Option Addr

structure ObjBlock (T : Type) where
  object : T
  isFree : Bool

structure MemPool (T : Type) where
  pool : ℕ → ObjBlock T
  size : ℕ
  nextFreeIdx : ℕ

namespace MemPool

variable {T : Type}

/-- `MemPool(size_t n)`: every block holds a `T()` and is free. -/
def ofSize [Inhabited T] (n : ℕ) : MemPool T :=
  { pool := fun _ => ⟨default, true⟩, size := n, nextFreeIdx := 0 }

def object (p : MemPool T) (a : Addr) : T := (p.pool a).object

def isFree (p : MemPool T) (a : Addr) : Bool := (p.pool a).isFree

/-- `pool_[i]`. The index is not checked by the code: past the end the access
has no meaning. -/
def block (p : MemPool T) (i : ℕ) : Exec (ObjBlock T) :=
  if i < p.size then .ok (p.pool i) else .error .undefined

/-! ### Objects behind pointers -/

def write (p : MemPool T) (a : Addr) (x : T) : MemPool T :=
  { p with pool := Function.update p.pool a { p.pool a with object := x } }

/-- `*ptr`. -/
def read (p : MemPool T) : Ptr → Exec T
  | none => .error .undefined
  | some a => .ok (p.object a)

def modify (p : MemPool T) (ptr : Ptr) (f : T → T) : Exec (MemPool T) :=
  match ptr with
  | none => .error .undefined
  | some a => .ok (p.write a (f (p.object a)))

@[simp] theorem read_some (p : MemPool T) (a : Addr) :
    p.read (some a) = .ok (p.object a) := rfl

@[simp] theorem object_write (p : MemPool T) (a b : Addr) (x : T) :
    (p.write a x).object b = if b = a then x else p.object b := by
  by_cases h : b = a
  · subst h
    simp [write, object]
  · simp [write, object, h]

@[simp] theorem write_write (p : MemPool T) (a : Addr) (x y : T) :
    (p.write a x).write a y = p.write a y := by
  simp [write]

@[simp] theorem isFree_write (p : MemPool T) (a b : Addr) (x : T) :
    (p.write a x).isFree b = p.isFree b := by
  by_cases h : b = a
  · subst h
    simp [write, isFree]
  · simp [write, isFree, h]

@[simp] theorem nextFreeIdx_write (p : MemPool T) (a : Addr) (x : T) :
    (p.write a x).nextFreeIdx = p.nextFreeIdx := rfl

/-! ### The search for the next free block -/

/-- The message of the `ASSERT` in `updateNextFreeIdx`. -/
def outOfSpace : Failure := .exit "Memory pool out of space"

/-- The loop of `updateNextFreeIdx`, from the index `idx` on. -/
def searchFree (p : MemPool T) (initFreeIdx : ℕ) : ℕ → ℕ → Exec ℕ
  | 0, _ => .error .endless
  | fuel + 1, idx => do
      let objBlock ← p.block idx
      if objBlock.isFree then
        .ok idx
      else
        let idx := if idx + 1 = p.size then 0 else idx + 1
        if idx = initFreeIdx then
          assert (idx != initFreeIdx) "Memory pool out of space"
        p.searchFree initFreeIdx fuel idx

/-- `updateNextFreeIdx`. The index comes back to its start after `size` steps,
so this much fuel is never used up. -/
def updateNextFreeIdx (p : MemPool T) : Exec (MemPool T) := do
  let idx ← p.searchFree p.nextFreeIdx p.size p.nextFreeIdx
  .ok { p with nextFreeIdx := idx }

/-- `allocate(args...)`, with the constructed object as its argument. -/
def allocate (p : MemPool T) (obj : T) : Exec (MemPool T × Addr) := do
  let idx := p.nextFreeIdx
  let objBlock ← p.block idx
  assert objBlock.isFree ("Expected free block at: " ++ toString idx)
  let p := { p with pool := Function.update p.pool idx ⟨obj, false⟩ }
  let p ← p.updateNextFreeIdx
  .ok (p, idx)

/-- `deallocate(objBlock)`, with the distance of the pointer from the first block
as its argument. -/
def deallocate (p : MemPool T) (idx : ℤ) : Exec (MemPool T) := do
  assert (decide (0 ≤ idx ∧ idx < p.size))
    ("This object at: " ++ toString idx ++ " does not belong to this pool")
  let objBlock ← p.block idx.toNat
  assert (!objBlock.isFree) ("Non-empty block is expected at index: " ++ toString idx)
  .ok { p with pool := Function.update p.pool idx.toNat { objBlock with isFree := true } }

theorem searchFree_taken {p : MemPool T} {init fuel k : ℕ} (hinit : init < p.size)
    (hk : k < p.size) (htaken : p.isFree ((init + k) % p.size) = false) :
    p.searchFree init (fuel + 1) ((init + k) % p.size) =
      if k + 1 = p.size then .error outOfSpace
      else p.searchFree init fuel ((init + (k + 1)) % p.size) := by
  have hpos : 0 < p.size := by omega
  have hlt : (init + k) % p.size < p.size := Nat.mod_lt _ hpos
  have hback := add_mod_eq_self_iff (k := k + 1) hinit (by omega) (by omega)
  have hfree : (p.pool ((init + k) % p.size)).isFree = false := htaken
  simp only [searchFree, block, hlt, if_true, ok_bind, hfree, Bool.false_eq_true,
    if_false, step_mod hpos]
  rw [Nat.add_assoc]
  by_cases hend : k + 1 = p.size
  · rw [hback.mpr hend, if_pos hend]
    simp [outOfSpace]
  · have hne : (init + (k + 1)) % p.size ≠ init := fun h => hend (hback.mp h)
    simp [hne, hend]

theorem searchFree_free {p : MemPool T} {init fuel a : ℕ} (ha : a < p.size)
    (hfree : p.isFree a = true) : p.searchFree init (fuel + 1) a = .ok a := by
  have hblock : (p.pool a).isFree = true := hfree
  simp [searchFree, block, ha, hblock]

theorem searchFree_turns {p : MemPool T} {init k : ℕ} (hinit : init < p.size) (hk : k < p.size)
    (htaken : ∀ j < k, p.isFree ((init + j) % p.size) = false) (fuel : ℕ) :
    p.searchFree init (k + fuel) init = p.searchFree init fuel ((init + k) % p.size) := by
  induction k generalizing fuel with
  | zero => rw [Nat.zero_add, Nat.add_zero, Nat.mod_eq_of_lt hinit]
  | succ k ih =>
      have hturn : p.searchFree init (fuel + 1) ((init + k) % p.size) = _ :=
        searchFree_taken hinit (by omega) (htaken k (Nat.lt_succ_self k))
      rw [if_neg (by omega)] at hturn
      have hbefore : ∀ j < k, p.isFree ((init + j) % p.size) = false := fun j hj =>
        htaken j (by omega)
      rw [Nat.add_assoc, Nat.add_comm 1, ih (by omega) hbefore, hturn]

/-- The loop of `updateNextFreeIdx` ends in its turn `t`, counted from 1, with the
result `r`. Until then it is still running. A turn advances the index at most
once. -/
def EndsInTurn (p : MemPool T) (t : ℕ) (r : Exec ℕ) : Prop :=
  ∀ fuel, p.searchFree p.nextFreeIdx fuel p.nextFreeIdx =
    if fuel < t then .error .endless else r

def Free (p : MemPool T) (a : Addr) : Prop := p.isFree a = true

theorem endsInTurn_found {p : MemPool T} (h : p.nextFreeIdx < p.size) {k : ℕ}
    (hk : FirstAfter p.size p.nextFreeIdx p.Free k) :
    p.EndsInTurn (k + 1) (.ok ((p.nextFreeIdx + k) % p.size)) := by
  have htaken : ∀ j < k, p.isFree ((p.nextFreeIdx + j) % p.size) = false := fun j hj =>
    Bool.eq_false_of_not_eq_true (hk.before j hj)
  intro fuel
  split
  · rename_i hfuel
    have hlt := hk.lt
    have hbefore : ∀ j < fuel, p.isFree ((p.nextFreeIdx + j) % p.size) = false := fun j hj =>
      htaken j (by omega)
    exact searchFree_turns h (by omega) hbefore 0
  · rename_i hfuel
    obtain ⟨more, rfl⟩ := Nat.exists_eq_add_of_le (Nat.le_of_not_lt hfuel)
    rw [Nat.add_assoc, Nat.add_comm 1, searchFree_turns h hk.lt htaken]
    exact searchFree_free (Nat.mod_lt _ (by omega)) hk.here

theorem endsInTurn_full {p : MemPool T} (h : p.nextFreeIdx < p.size)
    (hall : ∀ a < p.size, p.isFree a = false) : p.EndsInTurn p.size (.error outOfSpace) := by
  have htaken : ∀ j, p.isFree ((p.nextFreeIdx + j) % p.size) = false := fun j =>
    hall _ (Nat.mod_lt _ (by omega))
  intro fuel
  split
  · rename_i hfuel
    exact searchFree_turns h hfuel (fun j _ => htaken j) 0
  · rename_i hfuel
    -- the last turn is the one that comes back to the start
    obtain ⟨k, hk⟩ : ∃ k, p.size = k + 1 := ⟨p.size - 1, by omega⟩
    obtain ⟨more, rfl⟩ := Nat.exists_eq_add_of_le (Nat.le_of_not_lt hfuel)
    have hlast : p.searchFree p.nextFreeIdx (more + 1) ((p.nextFreeIdx + k) % p.size) = _ :=
      searchFree_taken h (by omega) (htaken k)
    rw [if_pos hk.symm] at hlast
    have hturns := searchFree_turns h (k := k) (by omega) (fun j _ => htaken j) (more + 1)
    rw [hlast] at hturns
    rw [← hturns, hk, Nat.add_assoc, Nat.add_comm 1]

theorem EndsInTurn.updateNextFreeIdx_eq {p : MemPool T} {t : ℕ} {r : Exec ℕ}
    (h : p.EndsInTurn t r) (ht : t ≤ p.size) :
    p.updateNextFreeIdx = r >>= fun idx => .ok { p with nextFreeIdx := idx } := by
  rw [updateNextFreeIdx, h, if_neg (Nat.not_lt.mpr ht)]

theorem search_cases {p : MemPool T} (h : p.nextFreeIdx < p.size) :
    (∃ k, FirstAfter p.size p.nextFreeIdx p.Free k) ∨ ∀ a < p.size, p.isFree a = false := by
  by_cases hfree : ∃ a < p.size, p.Free a
  · exact .inl (exists_firstAfter h hfree)
  · exact .inr fun a ha => Bool.eq_false_of_not_eq_true fun hf => hfree ⟨a, ha, hf⟩

theorem updateNextFreeIdx_cases (p : MemPool T) (h : p.nextFreeIdx < p.size) :
    (∃ i < p.size, p.isFree i = true ∧
      p.updateNextFreeIdx = .ok { p with nextFreeIdx := i }) ∨
    ((∀ a < p.size, p.isFree a = false) ∧ p.updateNextFreeIdx = .error outOfSpace) := by
  rcases search_cases h with ⟨k, hk⟩ | hall
  · refine .inl ⟨_, Nat.mod_lt _ (by omega), hk.here, ?_⟩
    exact (endsInTurn_found h hk).updateNextFreeIdx_eq hk.lt
  · exact .inr ⟨hall, (endsInTurn_full h hall).updateNextFreeIdx_eq le_rfl⟩

/-- **The search ends at the right block**, within one turn for each block: at the
first free one on the way round, with nothing but the index changed, or by
leaving the process when there is none. It never looks past the last block. -/
theorem updateNextFreeIdx_ends {p : MemPool T} (h : p.nextFreeIdx < p.size) :
    ((∃ a < p.size, p.Free a) → ∃ k, FirstAfter p.size p.nextFreeIdx p.Free k ∧
      p.EndsInTurn (k + 1) (.ok ((p.nextFreeIdx + k) % p.size)) ∧
      p.updateNextFreeIdx = .ok { p with nextFreeIdx := (p.nextFreeIdx + k) % p.size }) ∧
    ((∀ a < p.size, ¬ p.Free a) → p.EndsInTurn p.size (.error outOfSpace)) ∧
    ((∃ msg, p.updateNextFreeIdx = .error (.exit msg)) ↔ ∀ a < p.size, ¬ p.Free a) ∧
    ∀ fuel, p.searchFree p.nextFreeIdx fuel p.nextFreeIdx ≠ .error .undefined := by
  rcases search_cases h with ⟨k, hk⟩ | hall
  · have hends := endsInTurn_found h hk
    have hrun := hends.updateNextFreeIdx_eq hk.lt
    have hfree : ¬ ∀ a < p.size, ¬ p.Free a := fun hnone =>
      hnone _ (Nat.mod_lt _ (by omega)) hk.here
    refine ⟨fun _ => ⟨k, hk, hends, hrun⟩, fun hnone => absurd hnone hfree, ?_, fun fuel => ?_⟩
    · refine iff_of_false ?_ hfree
      rintro ⟨msg, hexit⟩
      rw [hrun] at hexit
      contradiction
    · rw [hends]
      split <;> simp
  · have hends := endsInTurn_full h hall
    have hnone : ∀ a < p.size, ¬ p.Free a := fun a ha hfree => by
      rw [Free, hall a ha] at hfree
      contradiction
    have hrun : p.updateNextFreeIdx = .error outOfSpace := hends.updateNextFreeIdx_eq le_rfl
    refine ⟨?_, fun _ => hends, iff_of_true ⟨_, hrun⟩ hnone, fun fuel => ?_⟩
    · rintro ⟨a, ha, hfree⟩
      exact absurd hfree (hnone a ha)
    · rw [hends]
      split <;> simp [outOfSpace]

/-- Three blocks, the middle one free, and the index at the last. -/
def lastOfThree : MemPool ℕ := ⟨fun a => ⟨a, a = 1⟩, 3, 2⟩

theorem updateNextFreeIdx_ends_three :
    (∃ k, FirstAfter 3 2 lastOfThree.Free k ∧
      lastOfThree.EndsInTurn (k + 1) (.ok ((2 + k) % 3)) ∧
      lastOfThree.updateNextFreeIdx = .ok { lastOfThree with nextFreeIdx := (2 + k) % 3 }) ∧
    ¬ ∃ msg, lastOfThree.updateNextFreeIdx = .error (.exit msg) := by
  have hends := updateNextFreeIdx_ends (p := lastOfThree) (by decide)
  exact ⟨hends.1 ⟨1, by decide, rfl⟩, fun hexit => hends.2.2.1.mp hexit 1 (by decide) rfl⟩

/-! ### Allocation -/

/-- The pool can serve a request: the index stands at a free block. -/
structure Ready (p : MemPool T) : Prop where
  lt : p.nextFreeIdx < p.size
  free : p.isFree p.nextFreeIdx = true

theorem ready_ofSize [Inhabited T] {n : ℕ} (hn : 0 < n) :
    (ofSize n : MemPool T).Ready := ⟨hn, rfl⟩

theorem Ready.write {p : MemPool T} (h : p.Ready) (a : Addr) (x : T) :
    (p.write a x).Ready := ⟨h.lt, by simpa using h.free⟩

structure Allocated (p p' : MemPool T) (obj : T) (a : Addr) : Prop where
  lt : a < p.size
  was_free : p.isFree a = true
  object : ∀ b, p'.object b = if b = a then obj else p.object b
  isFree : ∀ b, p'.isFree b = if b = a then false else p.isFree b
  size : p'.size = p.size
  ready : p'.Ready

/-- The pool right after the object was put into its block. -/
private def taken (p : MemPool T) (obj : T) : MemPool T :=
  { p with pool := Function.update p.pool p.nextFreeIdx ⟨obj, false⟩ }

private theorem object_taken (p : MemPool T) (obj : T) (b : Addr) :
    (p.taken obj).object b = if b = p.nextFreeIdx then obj else p.object b := by
  by_cases h : b = p.nextFreeIdx
  · subst h
    simp [taken, MemPool.object]
  · simp [taken, MemPool.object, h]

private theorem isFree_taken (p : MemPool T) (obj : T) (b : Addr) :
    (p.taken obj).isFree b = if b = p.nextFreeIdx then false else p.isFree b := by
  by_cases h : b = p.nextFreeIdx
  · subst h
    simp [taken, MemPool.isFree]
  · simp [taken, MemPool.isFree, h]

private theorem allocate_eq {p : MemPool T} (h : p.Ready) (obj : T) :
    p.allocate obj =
      (p.taken obj).updateNextFreeIdx >>= fun q => .ok (q, p.nextFreeIdx) := by
  have hfree : (p.pool p.nextFreeIdx).isFree = true := h.free
  simp [allocate, block, h.lt, hfree, taken]

/-- There is a free block beside the one the next allocation takes. -/
def Spare (p : MemPool T) : Prop := ∃ a < p.size, a ≠ p.nextFreeIdx ∧ p.isFree a = true

theorem spare_ofSize [Inhabited T] {n : ℕ} (hn : 1 < n) : (ofSize n : MemPool T).Spare :=
  ⟨1, hn, Nat.one_ne_zero, rfl⟩

/-- A pool that is ready serves the request, or has no block to spare and exits
for lack of space. -/
theorem allocate_cases {p : MemPool T} (h : p.Ready) (obj : T) :
    (∃ p' a, p.allocate obj = .ok (p', a) ∧ Allocated p p' obj a) ∨
    (¬ p.Spare ∧ p.allocate obj = .error outOfSpace) := by
  rw [allocate_eq h]
  rcases (p.taken obj).updateNextFreeIdx_cases h.lt with ⟨i, hi, hfree, hrun⟩ | ⟨hall, hrun⟩
  · refine .inl ⟨{ p.taken obj with nextFreeIdx := i }, p.nextFreeIdx, ?_, ?_⟩
    · rw [hrun, ok_bind]
    · exact ⟨h.lt, h.free, object_taken p obj, isFree_taken p obj, rfl, hi, hfree⟩
  · refine .inr ⟨?_, by rw [hrun, error_bind]⟩
    rintro ⟨a, ha, hne, hfree⟩
    have htaken := hall a ha
    rw [isFree_taken, if_neg hne, hfree] at htaken
    contradiction

theorem allocate_ok {p p' : MemPool T} {obj : T} {a : Addr}
    (h : p.allocate obj = .ok (p', a)) : Allocated p p' obj a := by
  have hready : p.Ready := by
    unfold allocate at h
    obtain ⟨blk, hblk, h⟩ := bind_eq_ok.mp h
    by_cases hlt : p.nextFreeIdx < p.size
    · refine ⟨hlt, ?_⟩
      simp only [block, hlt, if_true, Except.ok.injEq] at hblk
      subst hblk
      cases hfree : (p.pool p.nextFreeIdx).isFree with
      | true => exact hfree
      | false => simp [hfree] at h
    · simp [block, hlt] at hblk
  rcases allocate_cases hready obj with ⟨q, b, hrun, hspec⟩ | ⟨-, hrun⟩
  · rw [hrun, Except.ok.injEq, Prod.mk.injEq] at h
    obtain ⟨rfl, rfl⟩ := h
    exact hspec
  · rw [hrun] at h
    contradiction

/-! ### Deallocation -/

structure Deallocated (p p' : MemPool T) (a : Addr) : Prop where
  object : ∀ b, p'.object b = p.object b
  isFree : ∀ b, p'.isFree b = if b = a then true else p.isFree b
  size : p'.size = p.size
  nextFreeIdx : p'.nextFreeIdx = p.nextFreeIdx

theorem Deallocated.ready {p p' : MemPool T} {a : Addr} (hd : Deallocated p p' a)
    (h : p.Ready) : p'.Ready := by
  refine ⟨?_, ?_⟩
  · rw [hd.nextFreeIdx, hd.size]
    exact h.lt
  · rw [hd.isFree, hd.nextFreeIdx, h.free, ite_self]

theorem deallocate_taken {p : MemPool T} {a : Addr} (hlt : a < p.size)
    (htaken : p.isFree a = false) : ∃ p', p.deallocate a = .ok p' ∧ Deallocated p p' a := by
  have hfree : (p.pool a).isFree = false := htaken
  refine ⟨{ p with pool := Function.update p.pool a { p.pool a with isFree := true } },
    by simp [deallocate, block, hlt, hfree], fun b => ?_, fun b => ?_, rfl, rfl⟩
  · by_cases hb : b = a
    · subst hb
      simp [MemPool.object]
    · simp [MemPool.object, hb]
  · by_cases hb : b = a
    · subst hb
      simp [MemPool.isFree]
    · simp [MemPool.isFree, hb]

theorem deallocate_other {p : MemPool T} {idx : ℤ}
    (h : ∀ a < p.size, idx = a → p.isFree a = true) :
    ∃ msg, p.deallocate idx = .error (.exit msg) := by
  by_cases hin : 0 ≤ idx ∧ idx < p.size
  · obtain ⟨a, rfl⟩ := Int.eq_ofNat_of_zero_le hin.1
    have hlt : a < p.size := Int.ofNat_lt.mp hin.2
    have hfree : (p.pool a).isFree = true := h a hlt rfl
    exact ⟨_, by simp [deallocate, block, hlt, hfree]; rfl⟩
  · exact ⟨_, by simp [deallocate, hin]; rfl⟩

end MemPool

end LowLatency.Common
