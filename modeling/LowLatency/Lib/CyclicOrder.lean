import LowLatency.Lib.Rings
import Mathlib.Data.List.Rotate
import Mathlib.Order.Lattice

/-!
Lists that are sorted up to rotation: what a full turn round a sorted ring
reads when it does not start at the least element.
-/

namespace LowLatency.Lib

variable {α β : Type}

theorem isRotated_iff_append {l s : List α} :
    l.IsRotated s ↔ ∃ A B, l = A ++ B ∧ s = B ++ A := by
  constructor
  · rintro ⟨n, rfl⟩
    refine ⟨l.take (n % l.length), l.drop (n % l.length), ?_, ?_⟩
    · rw [List.take_append_drop]
    · exact List.rotate_eq_drop_append_take_mod
  · rintro ⟨A, B, rfl, rfl⟩
    exact List.isRotated_append

theorem Cyclic.isRotated {R : α → α → Prop} {l l' : List α} (h : Cyclic R l)
    (hl : l.IsRotated l') : Cyclic R l' := by
  obtain ⟨A, B, rfl, rfl⟩ := isRotated_iff_append.mp hl
  exact h.rotate

/-- Two full turns along `next` through one node are the same ring. -/
theorem NextRing.isRotated_of_mem {next : α → Option α} {h : α} {t l : List α}
    (hr : NextRing next (h :: t)) (hl : NextRing next l) (hmem : h ∈ l) :
    l.IsRotated (h :: t) := by
  obtain ⟨A, B, rfl⟩ := List.append_of_mem hmem
  have hrot : NextRing next (h :: (B ++ A)) := hl.rotate
  obtain rfl := hr.unique hrot
  exact List.isRotated_append

/-- A rotation of the list is strictly increasing. -/
def RotSorted [LT α] (l : List α) : Prop := ∃ s, l.IsRotated s ∧ s.Pairwise (· < ·)

theorem rotSorted_nil [LT α] : RotSorted ([] : List α) := ⟨[], .refl [], .nil⟩

theorem exists_isRotated_map {f : α → β} {l : List α} {s : List β}
    (h : (l.map f).IsRotated s) : ∃ l', l.IsRotated l' ∧ l'.map f = s := by
  obtain ⟨A, B, hAB, rfl⟩ := isRotated_iff_append.mp h
  obtain ⟨A', B', rfl, rfl, rfl⟩ := List.map_eq_append_iff.mp hAB
  exact ⟨B' ++ A', List.isRotated_append, List.map_append⟩

/-- A place in front of an element that is not in the second part is in the
first one. -/
theorem exists_of_append_eq {U L U₁ s : List α} {y : α} (h : U₁ ++ y :: s = U ++ L)
    (hy : y ∉ L) : ∃ U₂, U = U₁ ++ y :: U₂ ∧ s = U₂ ++ L := by
  rcases List.append_eq_append_iff.mp h with ⟨M, rfl, hM⟩ | ⟨M, rfl, hM⟩
  · cases M with
    | nil =>
        rw [List.nil_append] at hM
        exact absurd (by simp [← hM]) hy
    | cons z M =>
        simp only [List.cons_append, List.cons.injEq] at hM
        obtain ⟨rfl, rfl⟩ := hM
        exact ⟨M, rfl, rfl⟩
  · exact absurd (by simp [hM]) hy

variable [LinearOrder α]

/-- Read from a given element `p`, the list first rises above `p` and then
comes from the least element up to it. -/
theorem rotSorted_cons_iff {p : α} {l : List α} :
    RotSorted (p :: l) ↔ ∃ U L, l = U ++ L ∧ (L ++ p :: U).Pairwise (· < ·) := by
  constructor
  · rintro ⟨s, hrot, hs⟩
    obtain ⟨A, B, hAB, rfl⟩ := isRotated_iff_append.mp hrot
    cases A with
    | nil =>
        rw [List.nil_append] at hAB
        subst hAB
        rw [List.append_nil] at hs
        exact ⟨l, [], by simp, hs⟩
    | cons q A =>
        simp only [List.cons_append, List.cons.injEq] at hAB
        obtain ⟨rfl, rfl⟩ := hAB
        exact ⟨A, B, rfl, hs⟩
  · rintro ⟨U, L, rfl, hs⟩
    refine ⟨L ++ p :: U, ?_, hs⟩
    exact List.isRotated_append (l := p :: U)

theorem lt_of_mem_rot {p : α} {U L : List α} (hs : (L ++ p :: U).Pairwise (· < ·)) :
    (∀ u ∈ U, p < u) ∧ (∀ q ∈ L, q < p) ∧ U.Pairwise (· < ·) ∧ L.Pairwise (· < ·) := by
  obtain ⟨hL, hpU, hcross⟩ := List.pairwise_append.mp hs
  obtain ⟨hp, hU⟩ := List.pairwise_cons.mp hpU
  exact ⟨hp, fun q hq => hcross q hq p (by simp), hU, hL⟩

theorem pairwise_rot {p : α} {U L : List α} (hpU : ∀ u ∈ U, p < u) (hLp : ∀ q ∈ L, q < p)
    (hU : U.Pairwise (· < ·)) (hL : L.Pairwise (· < ·)) :
    (L ++ p :: U).Pairwise (· < ·) := by
  refine List.pairwise_append.mpr ⟨hL, List.pairwise_cons.mpr ⟨hpU, hU⟩, ?_⟩
  intro q hq u hu
  rcases List.mem_cons.mp hu with rfl | hu
  · exact hLp q hq
  · exact (hLp q hq).trans (hpU u hu)

theorem pairwise_concat {l : List α} {x : α} (h : l.Pairwise (· < ·)) (hl : ∀ u ∈ l, u < x) :
    (l ++ [x]).Pairwise (· < ·) := by
  refine List.pairwise_append.mpr ⟨h, List.pairwise_singleton _ _, ?_⟩
  intro u hu y hy
  rw [List.mem_singleton.mp hy]
  exact hl u hu

theorem pairwise_insert {l r : List α} {x y : α} (h : (l ++ y :: r).Pairwise (· < ·))
    (hl : ∀ u ∈ l, u < x) (hxy : x < y) : (l ++ x :: y :: r).Pairwise (· < ·) := by
  obtain ⟨hsorted, hyr, hcross⟩ := List.pairwise_append.mp h
  refine List.pairwise_append.mpr ⟨hsorted, List.pairwise_cons.mpr ⟨?_, hyr⟩, ?_⟩
  · intro u hu
    rcases List.mem_cons.mp hu with rfl | hu
    · exact hxy
    · exact hxy.trans ((List.pairwise_cons.mp hyr).1 u hu)
  · intro u hu v hv
    rcases List.mem_cons.mp hv with rfl | hv
    · exact hl u hu
    · exact hcross u hu v hv

/-- Two elements of a turn that starts at `p`, in the order they are met:
they rise, or the turn passes from above `p` to below it. -/
theorem RotSorted.pairwise {p : α} {l : List α} (h : RotSorted (p :: l)) :
    l.Pairwise fun a b => (p < b → p < a) ∧ (a < b ∨ b < p) := by
  obtain ⟨U, L, rfl, hUL⟩ := rotSorted_cons_iff.mp h
  obtain ⟨hpU, hLp, hU, hL⟩ := lt_of_mem_rot hUL
  refine List.pairwise_append.mpr ⟨?_, ?_, ?_⟩
  · exact hU.imp_of_mem fun ha _ hab => ⟨fun _ => hpU _ ha, .inl hab⟩
  · exact hL.imp_of_mem fun _ hb hab => ⟨fun hpb => absurd hpb (hLp _ hb).asymm, .inl hab⟩
  · exact fun a ha b hb => ⟨fun _ => hpU a ha, .inr (hLp b hb)⟩

end LowLatency.Lib
