import Mathlib.Data.List.Nodup
import Mathlib.Tactic.Common

/-!
Lists to which an element is appended only when it is not there yet.

Such a list grows at its end and holds every element once: what it holds after
any number of insertions is known from what was inserted.
-/

namespace LowLatency.Lib

variable {α : Type} [DecidableEq α]

/-- Append an element unless the list has it. -/
def pushNew (l : List α) (x : α) : List α := if x ∈ l then l else l ++ [x]

def pushAll (l : List α) (xs : List α) : List α := xs.foldl pushNew l

@[simp] theorem pushAll_nil (l : List α) : pushAll l [] = l := rfl

theorem pushAll_append (l xs ys : List α) :
    pushAll l (xs ++ ys) = pushAll (pushAll l xs) ys :=
  List.foldl_append

@[simp] theorem pushAll_singleton (l : List α) (x : α) : pushAll l [x] = pushNew l x := rfl

theorem mem_pushNew {l : List α} {x a : α} : a ∈ pushNew l x ↔ a ∈ l ∨ a = x := by
  rw [pushNew]
  split
  · rename_i h
    exact ⟨.inl, fun ha => ha.elim id fun hax => hax ▸ h⟩
  · rw [List.mem_append, List.mem_singleton]

theorem pushNew_of_mem {l : List α} {x : α} (h : x ∈ l) : pushNew l x = l := if_pos h

@[simp] theorem pushNew_pushNew (l : List α) (x : α) : pushNew (pushNew l x) x = pushNew l x :=
  pushNew_of_mem (mem_pushNew.mpr (.inr rfl))

theorem prefix_pushNew (l : List α) (x : α) : l <+: pushNew l x := by
  rw [pushNew]
  split
  · exact List.prefix_refl l
  · exact List.prefix_append l [x]

theorem nodup_pushNew {l : List α} (h : l.Nodup) (x : α) : (pushNew l x).Nodup := by
  rw [pushNew]
  split
  · exact h
  · rename_i hx
    exact List.nodup_append.mpr ⟨h, List.nodup_singleton x, fun a ha b hb hab =>
      hx (List.mem_singleton.mp hb ▸ hab ▸ ha)⟩

theorem mem_pushAll {l xs : List α} {a : α} : a ∈ pushAll l xs ↔ a ∈ l ∨ a ∈ xs := by
  induction xs generalizing l with
  | nil => simp
  | cons x xs ih =>
      have hstep : a ∈ pushAll l (x :: xs) ↔ a ∈ pushNew l x ∨ a ∈ xs := ih
      rw [hstep, mem_pushNew, List.mem_cons, or_assoc]

theorem prefix_pushAll (l xs : List α) : l <+: pushAll l xs := by
  induction xs generalizing l with
  | nil => exact List.prefix_refl l
  | cons x xs ih => exact (prefix_pushNew l x).trans (ih (pushNew l x))

theorem nodup_pushAll {l : List α} (h : l.Nodup) (xs : List α) : (pushAll l xs).Nodup := by
  induction xs generalizing l with
  | nil => exact h
  | cons x xs ih => exact ih (nodup_pushNew h x)

end LowLatency.Lib
