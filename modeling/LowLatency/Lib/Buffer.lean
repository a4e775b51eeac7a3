import Mathlib.Data.List.Range
import Mathlib.Tactic.Common

/-!
Buffers that are filled from the front.

A buffer is a function on offsets, together with the number of cells in use.
What it holds is the list of these cells, and copying a list behind them
appends it.
-/

namespace LowLatency.Lib

variable {α : Type}

def contents (buf : ℕ → α) (n : ℕ) : List α := (List.range n).map buf

/-- A copy of `xs` to the cells from `i` on. -/
def copyAt (buf : ℕ → α) (i : ℕ) (xs : List α) : ℕ → α := fun j =>
  if j < i then buf j else xs.getD (j - i) (buf j)

@[simp] theorem length_contents (buf : ℕ → α) (n : ℕ) : (contents buf n).length = n := by
  simp [contents]

theorem contents_congr {buf buf' : ℕ → α} {n : ℕ} (h : ∀ j < n, buf j = buf' j) :
    contents buf n = contents buf' n :=
  List.map_congr_left fun j hj => h j (List.mem_range.mp hj)

@[simp] theorem copyAt_nil (buf : ℕ → α) (i : ℕ) : copyAt buf i [] = buf := by
  ext j
  simp [copyAt]

theorem contents_add (buf : ℕ → α) (n m : ℕ) :
    contents buf (n + m) = contents buf n ++ contents (fun j => buf (n + j)) m := by
  simp [contents, List.range_add, Function.comp_def]

theorem contents_getD (buf : ℕ → α) (xs : List α) :
    contents (fun j => xs.getD j (buf j)) xs.length = xs := by
  refine List.ext_getElem (by simp) fun j hj hj' => ?_
  simp [contents, hj']

theorem contents_copyAt (buf : ℕ → α) (n : ℕ) (xs : List α) :
    contents (copyAt buf n xs) (n + xs.length) = contents buf n ++ xs := by
  have hold : contents (copyAt buf n xs) n = contents buf n :=
    contents_congr fun j hj => by rw [copyAt, if_pos hj]
  have hnew : contents (fun j => copyAt buf n xs (n + j)) xs.length = xs := by
    refine Eq.trans (contents_congr fun j _ => ?_) (contents_getD (fun j => buf (n + j)) xs)
    rw [copyAt, if_neg (by omega), Nat.add_sub_cancel_left]
  rw [contents_add, hold, hnew]

end LowLatency.Lib
