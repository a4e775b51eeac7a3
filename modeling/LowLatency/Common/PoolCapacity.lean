import Mathlib.Data.Finset.Card
import Mathlib.Data.Finset.Range
import LowLatency.Common.LiveObjects

/-!
How many objects a `MemPool` of `n` blocks serves.

`allocate` puts the object into the block the index stands at, and then looks
for the block of the next one. So it needs two free blocks to return, and the
process leaves for lack of space while there is still one.
-/

namespace LowLatency.Common

open LowLatency.Lib

namespace MemPool

variable {T : Type}

theorem allocate_returns_iff {p : MemPool T} (h : p.Ready) (obj : T) :
    (∃ r, p.allocate obj = .ok r) ↔ p.Spare := by
  constructor
  · rintro ⟨⟨p', a⟩, hrun⟩
    have hall := allocate_ok hrun
    -- the block of the object and the one the index moved to were both free
    have hnext := hall.ready.free
    rw [hall.isFree] at hnext
    split at hnext
    · contradiction
    · rename_i hne
      by_cases ha : a = p.nextFreeIdx
      · exact ⟨p'.nextFreeIdx, hall.size ▸ hall.ready.lt, ha ▸ hne, hnext⟩
      · exact ⟨a, hall.lt, ha, hall.was_free⟩
  · intro hspare
    rcases allocate_cases h obj with ⟨p', a, hrun, -⟩ | ⟨hnot, -⟩
    · exact ⟨_, hrun⟩
    · exact absurd hspare hnot

namespace Owned

def liveCount (n : ℕ) (s : Owned T) : ℕ :=
  ((Finset.range n).filter fun a => (s.live a).isSome).card

def freeBlocks (n : ℕ) (s : Owned T) : Finset Addr :=
  (Finset.range n).filter fun a => s.pool.isFree a

theorem Holds.mem_freeBlocks {n : ℕ} {s : Owned T} (h : Holds n s) {a : Addr} :
    a ∈ freeBlocks n s ↔ a < s.pool.size ∧ s.pool.isFree a = true := by
  rw [freeBlocks, Finset.mem_filter, Finset.mem_range, h.size]

theorem Holds.live_add_free {n : ℕ} {s : Owned T} (h : Holds n s) :
    liveCount n s + (freeBlocks n s).card = n := by
  have hfree : freeBlocks n s = (Finset.range n).filter fun a => ¬ (s.live a).isSome := by
    refine Finset.filter_congr fun a _ => ?_
    rw [Option.isSome_iff_ne_none, ← h.taken a, Bool.not_eq_false]
  rw [hfree, liveCount, Finset.card_filter_add_card_filter_not, Finset.card_range]

theorem Holds.spare_iff {n : ℕ} {s : Owned T} (h : Holds n s) :
    s.pool.Spare ↔ 1 < (freeBlocks n s).card := by
  have hnext : s.pool.nextFreeIdx ∈ freeBlocks n s :=
    h.mem_freeBlocks.mpr ⟨h.ready.lt, h.ready.free⟩
  constructor
  · rintro ⟨a, hlt, hne, hfree⟩
    exact Finset.one_lt_card.mpr ⟨a, h.mem_freeBlocks.mpr ⟨hlt, hfree⟩, _, hnext, hne⟩
  · intro hcard
    obtain ⟨a, ha, hne⟩ := Finset.exists_mem_ne hcard s.pool.nextFreeIdx
    obtain ⟨hlt, hfree⟩ := h.mem_freeBlocks.mp ha
    exact ⟨a, hlt, hne, hfree⟩

theorem Holds.liveCount_lt {n : ℕ} {s : Owned T} (h : Holds n s) : liveCount n s < n := by
  have hsum := h.live_add_free
  have hpos : 0 < (freeBlocks n s).card :=
    Finset.card_pos.mpr ⟨_, h.mem_freeBlocks.mpr ⟨h.ready.lt, h.ready.free⟩⟩
  omega

theorem Holds.liveCount_pos {n : ℕ} {s : Owned T} (h : Holds n s) {a : Addr}
    (hlive : s.live a ≠ none) : 0 < liveCount n s := by
  refine Finset.card_pos.mpr ⟨a, Finset.mem_filter.mpr ⟨?_, ?_⟩⟩
  · exact Finset.mem_range.mpr (h.lt a hlive)
  · exact Option.isSome_iff_ne_none.mpr hlive

theorem Holds.returns_iff {n : ℕ} {s : Owned T} (h : Holds n s) (obj : T) :
    (∃ r, s.pool.allocate obj = .ok r) ↔ liveCount n s + 1 < n := by
  have hsum := h.live_add_free
  rw [allocate_returns_iff h.ready, h.spare_iff]
  omega

/-- A pool of `n` blocks serves the request as long as fewer than `n` objects are
live, and is out of space only when there are `n`. -/
structure Serves (n : ℕ) (s : Owned T) (obj : T) : Prop where
  returns : liveCount n s < n → ∃ r, s.pool.allocate obj = .ok r
  full : s.pool.allocate obj = .error outOfSpace → liveCount n s = n

end Owned

open Owned

/-- **A pool of `n` blocks serves one object less.** In every state of every run
the next `allocate` does what the number of blocks promises exactly when fewer
than `n - 1` objects are live. -/
theorem serves_iff [Inhabited T] {n : ℕ} (hn : 0 < n) {s : Owned T}
    (h : (ownedSystem n).Reachable s) (obj : T) :
    Serves n s obj ↔ liveCount n s + 1 < n := by
  have hs := holds_of_reachable hn h
  constructor
  · intro hserves
    exact (hs.returns_iff obj).mp (hserves.returns hs.liveCount_lt)
  · intro hlt
    obtain ⟨r, hrun⟩ := (hs.returns_iff obj).mpr hlt
    refine ⟨fun _ => ⟨r, hrun⟩, fun herr => ?_⟩
    rw [hrun] at herr
    contradiction

theorem serves_iff_two :
    Serves 2 (⟨ofSize 2, fun _ => none⟩ : Owned ℕ) 7 :=
  (serves_iff (by decide) (.init rfl) 7).mpr (by decide)

theorem second_of_two :
    ¬ ∀ n > 0, ∀ s : Owned ℕ, (ownedSystem n).Reachable s → ∀ obj, Serves n s obj := by
  intro hall
  have h₀ : (ownedSystem (T := ℕ) 2).Reachable ⟨ofSize 2, fun _ => none⟩ := .init rfl
  obtain ⟨⟨p, a⟩, hrun, -⟩ := exists_of_succeedsWith
    (x := (ofSize 2 : MemPool ℕ).allocate 7) (p := fun _ => true) (by decide)
  have h₁ := h₀.step (.allocate hrun)
  have hs := holds_of_reachable (by decide) h₁
  have hreturns := (hall 2 (by decide) _ h₁ 8).returns hs.liveCount_lt
  have hcount := (hs.returns_iff 8).mp hreturns
  have hpos := hs.liveCount_pos (a := a) (by simp)
  omega

end MemPool

end LowLatency.Common
