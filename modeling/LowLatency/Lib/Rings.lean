import Mathlib.Data.List.Chain
import Mathlib.Data.List.Nodup
import Mathlib.Logic.Relation
import Mathlib.Tactic.Common

/-!
Circular lists over a heap.

A heap is seen through its pointer fields, partial functions on addresses.
`Cyclic R l` says that the nodes of `l` are distinct and that each is related
by `R` to the one after it, the last one to the first; the list is the ring as
it is read from one of its nodes. With `R` following a field `next` this is
what a full turn along `next` visits; `LinkedRing next prev` asks in addition
that `prev` undo every step. The empty list is a ring as well: it is what a
null head pointer stands for.

The one operation a doubly linked ring needs is the splice of a fresh node in
front of one of its nodes. `Spliced` lists the four pointer writes together
with their frame, so that aliasing between the node, its predecessor and the
head never has to be discussed again: `LinkedRing.splice` covers rings of one,
two or more nodes alike, and `LinkedRing.disjoint` is the frame rule for every
other ring of the same heap.
-/

namespace LowLatency.Lib

variable {α : Type} {R S : α → α → Prop} {next prev next' prev' : α → Option α}

/-- The list of nodes met on a full turn, the first one repeated at the end. -/
def closed : List α → List α
  | [] => []
  | h :: t => h :: (t ++ [h])

structure Cyclic (R : α → α → Prop) (l : List α) : Prop where
  nodup : l.Nodup
  chain : (closed l).IsChain R

theorem mem_closed {l : List α} {a : α} : a ∈ closed l ↔ a ∈ l := by
  cases l with
  | nil => rfl
  | cons h t => simp [closed, or_comm]

theorem Cyclic.nil : Cyclic R [] := ⟨List.nodup_nil, List.isChain_nil⟩

theorem Cyclic.single {x : α} (h : R x x) : Cyclic R [x] :=
  ⟨List.nodup_singleton x, List.isChain_pair.mpr h⟩

theorem Cyclic.imp {l : List α} (h : Cyclic R l) (hRS : ∀ a ∈ l, ∀ b ∈ l, R a b → S a b) :
    Cyclic S l := by
  refine ⟨h.nodup, h.chain.imp_of_mem_imp fun a b ha hb hab => ?_⟩
  exact hRS a (mem_closed.mp ha) b (mem_closed.mp hb) hab

/-- A ring can be read from any of its nodes. -/
theorem Cyclic.rotate {A B : List α} (h : Cyclic R (A ++ B)) : Cyclic R (B ++ A) := by
  refine ⟨List.nodup_append_comm.mp h.nodup, ?_⟩
  cases A with
  | nil => simpa using h.chain
  | cons a A =>
      cases B with
      | nil => simpa using h.chain
      | cons b B =>
          have hc : (a :: A ++ b :: (B ++ [a])).IsChain R := by
            simpa [closed] using h.chain
          obtain ⟨hA, hB⟩ := List.isChain_split.mp hc
          have hc' : (b :: B ++ a :: (A ++ [b])).IsChain R :=
            List.isChain_split.mpr ⟨hB, hA⟩
          simpa [closed] using hc'

theorem Cyclic.rel {A B : List α} {a b : α} (h : Cyclic R (A ++ a :: b :: B)) : R a b := by
  have hr : Cyclic R (a :: b :: B ++ A) := h.rotate
  have hc : (a :: b :: (B ++ A ++ [a])).IsChain R := by
    simpa [closed] using hr.chain
  exact (List.isChain_cons_cons.mp hc).1

theorem Cyclic.rel_closing {A : List α} {h z : α} (hr : Cyclic R (h :: A ++ [z])) :
    R z h := by
  have hr' : Cyclic R ([z] ++ h :: A) := hr.rotate
  exact Cyclic.rel (A := []) hr'

theorem Cyclic.rel_single {x : α} (hr : Cyclic R [x]) : R x x :=
  List.isChain_pair.mp hr.chain

/-! ### Following `next` -/

/-- A full turn along `next`. -/
abbrev NextRing (next : α → Option α) (l : List α) : Prop :=
  Cyclic (fun a b => next a = some b) l

theorem NextRing.next_mem {l : List α} (hr : NextRing next l) {a : α} (ha : a ∈ l) :
    ∃ b ∈ l, next a = some b := by
  obtain ⟨A, B, rfl⟩ := List.append_of_mem ha
  have hr' : NextRing next (a :: (B ++ A)) := hr.rotate
  cases hBA : B ++ A with
  | nil =>
      rw [hBA] at hr'
      exact ⟨a, ha, hr'.rel_single⟩
  | cons b l =>
      rw [hBA] at hr'
      have hb : b ∈ B ++ A := by simp [hBA]
      refine ⟨b, ?_, Cyclic.rel (R := fun a b => next a = some b) (A := []) hr'⟩
      rcases List.mem_append.mp hb with hb | hb <;> simp [hb]

/-- Going round from the head meets the nodes of the ring and no others. -/
theorem NextRing.reach_iff {h : α} {t : List α} (hr : NextRing next (h :: t)) (x : α) :
    Relation.ReflTransGen (fun a b => next a = some b) h x ↔ x ∈ h :: t := by
  constructor
  · intro hx
    induction hx with
    | refl => simp
    | tail _ hbc ih =>
        obtain ⟨c', hc', hnext⟩ := hr.next_mem ih
        rw [hnext, Option.some.injEq] at hbc
        exact hbc ▸ hc'
  · intro hx
    obtain ⟨A, B, hAB⟩ := List.append_of_mem hx
    clear hx
    induction A using List.reverseRecOn generalizing x B with
    | nil =>
        simp only [List.nil_append, List.cons.injEq] at hAB
        exact hAB.1 ▸ Relation.ReflTransGen.refl
    | append_singleton A a ih =>
        have hsplit : h :: t = A ++ a :: x :: B := by simpa using hAB
        have hnext : next a = some x := Cyclic.rel (R := fun a b => next a = some b) (hsplit ▸ hr)
        exact (ih a (x :: B) hsplit).tail hnext

theorem NextRing.mem_of_shared {l l' : List α} (hr : NextRing next l) (hr' : NextRing next l')
    {a x : α} (ha : a ∈ l) (ha' : a ∈ l') (hx : x ∈ l') : x ∈ l := by
  obtain ⟨A, B, rfl⟩ := List.append_of_mem ha
  obtain ⟨A', B', rfl⟩ := List.append_of_mem ha'
  have hrot : NextRing next (a :: (B ++ A)) := hr.rotate
  have hrot' : NextRing next (a :: (B' ++ A')) := hr'.rotate
  have hreach := (hrot'.reach_iff x).mpr (by grind)
  have hmem := (hrot.reach_iff x).mp hreach
  grind

/-- Follow `next` from `a` until it leads back to `first`; `none` when it
leads to a null pointer or the fuel runs out. -/
def walk (next : α → Option α) [DecidableEq α] (first : α) : ℕ → α → Option (List α)
  | 0, _ => none
  | fuel + 1, a =>
      match next a with
      | none => none
      | some b => if b = first then some [a] else (walk next first fuel b).map (a :: ·)

/-- From a node of the ring on, a walk reads the rest of the turn. The
induction is on this rest, `B`. -/
theorem NextRing.walk_suffix [DecidableEq α] {h a : α} {A B C : List α} {fuel : ℕ}
    (hr : NextRing next (h :: A)) (hsplit : h :: A = C ++ a :: B)
    (hfuel : B.length < fuel) : walk next h fuel a = some (a :: B) := by
  induction B generalizing a C fuel with
  | nil =>
      obtain ⟨fuel, rfl⟩ : ∃ n, fuel = n + 1 := ⟨fuel - 1, by omega⟩
      have hnext : next a = some h := by
        cases C with
        | nil =>
            simp only [List.nil_append, List.cons.injEq] at hsplit
            obtain ⟨rfl, rfl⟩ := hsplit
            exact hr.rel_single
        | cons c C =>
            simp only [List.cons_append, List.cons.injEq] at hsplit
            obtain ⟨rfl, rfl⟩ := hsplit
            exact Cyclic.rel_closing (A := C) hr
      simp [walk, hnext]
  | cons b B ih =>
      obtain ⟨fuel, rfl⟩ : ∃ n, fuel = n + 1 := ⟨fuel - 1, by omega⟩
      have hnext : next a = some b :=
        Cyclic.rel (R := fun a b => next a = some b) (hsplit ▸ hr)
      have hbh : b ≠ h := by
        have hnd := hr.nodup
        rw [hsplit] at hnd
        rintro rfl
        cases C with
        | nil => grind
        | cons c C => grind
      rw [List.length_cons] at hfuel
      have hih : walk next h fuel b = some (b :: B) :=
        ih (C := C ++ [a]) (by simp [hsplit]) (by omega)
      simp [walk, hnext, hbh, hih]

theorem NextRing.walk_eq [DecidableEq α] {h : α} {t : List α} {fuel : ℕ}
    (hr : NextRing next (h :: t)) (hfuel : t.length < fuel) :
    walk next h fuel h = some (h :: t) :=
  hr.walk_suffix (C := []) rfl hfuel

/-- There is one ring through a node. -/
theorem NextRing.unique {h : α} {t t' : List α} (hr : NextRing next (h :: t))
    (hr' : NextRing next (h :: t')) : t = t' := by
  classical
  have hw : walk next h (t.length + t'.length + 1) h = some (h :: t) :=
    hr.walk_eq (by omega)
  have hw' : walk next h (t.length + t'.length + 1) h = some (h :: t') :=
    hr'.walk_eq (by omega)
  rw [hw, Option.some.injEq, List.cons.injEq] at hw'
  exact hw'.2

/-! ### Doubly linked rings -/

/-- One step of a doubly linked list, seen from both of its ends. -/
structure Link (next prev : α → Option α) (a b : α) : Prop where
  next_eq : next a = some b
  prev_eq : prev b = some a

abbrev LinkedRing (next prev : α → Option α) (l : List α) : Prop :=
  Cyclic (Link next prev) l

theorem LinkedRing.nextRing {l : List α} (h : LinkedRing next prev l) : NextRing next l :=
  h.imp fun _ _ _ _ hab => hab.next_eq

theorem LinkedRing.congr {l : List α} (h : LinkedRing next prev l)
    (hn : ∀ a ∈ l, next' a = next a) (hp : ∀ a ∈ l, prev' a = prev a) :
    LinkedRing next' prev' l :=
  h.imp fun a ha b hb hab => ⟨(hn a ha).trans hab.next_eq, (hp b hb).trans hab.prev_eq⟩

/-- The heap `next', prev'` is `next, prev` after the node `x` has been put
between `a` and `t`. -/
structure Spliced (next prev next' prev' : α → Option α) (a x t : α) : Prop where
  next_new : next' x = some t
  prev_new : prev' x = some a
  next_before : next' a = some x
  prev_after : prev' t = some x
  next_frame : ∀ y, y ≠ x → y ≠ a → next' y = next y
  prev_frame : ∀ y, y ≠ x → y ≠ t → prev' y = prev y

/-- Splicing in front of the head of a ring puts the new node at its end. -/
theorem LinkedRing.splice_head {a x t : α} {l : List α}
    (hs : Spliced next prev next' prev' a x t) (hr : LinkedRing next prev (t :: l))
    (hx : x ∉ t :: l) (ha : prev t = some a) : LinkedRing next' prev' (t :: l ++ [x]) := by
  obtain ⟨m, z, hm⟩ : ∃ m z, t :: l = m ++ [z] :=
    ⟨_, _, (List.dropLast_append_getLast (List.cons_ne_nil t l)).symm⟩
  have hclosed : closed (t :: l) = m ++ z :: [t] := by
    rw [closed, ← List.cons_append, hm, List.append_assoc, List.singleton_append]
  obtain ⟨hchain, hzt, -⟩ := List.isChain_append_cons_cons.mp (hclosed ▸ hr.chain)
  -- the splice point is the last node, since `prev` is single valued
  obtain rfl : z = a := by simpa [ha] using hzt.prev_eq.symm
  have hnd := hr.nodup
  have hxm := hx
  rw [hm] at hnd hxm
  refine ⟨?_, ?_⟩
  · rw [List.nodup_append]
    exact ⟨hr.nodup, List.nodup_singleton x, by grind⟩
  · have hgoal : closed (t :: l ++ [x]) = m ++ z :: x :: [t] := by
      rw [List.cons_append, closed, ← List.cons_append, ← List.cons_append, hm]
      simp
    rw [hgoal, List.isChain_append_cons_cons]
    refine ⟨?_, ⟨hs.next_before, hs.prev_new⟩, List.isChain_pair.mpr
      ⟨hs.next_new, hs.prev_after⟩⟩
    rw [List.isChain_iff_forall_rel_of_append_cons_cons] at hchain ⊢
    intro c d A B hAB
    have hcd := hchain hAB
    -- `c` is not the last node and `d` is not the first
    have hcz : c ≠ z := by
      rintro rfl
      obtain ⟨B', e, hB'⟩ : ∃ B' e, d :: B = B' ++ [e] :=
        ⟨_, _, (List.dropLast_append_getLast (List.cons_ne_nil d B)).symm⟩
      have hlast : m ++ [c] = (A ++ c :: B') ++ [e] := by rw [hAB, hB']; simp
      have hm' : m = A ++ c :: B' := List.append_inj_left' hlast rfl
      have hcm : c ∈ m := by simp [hm']
      have hdj := (List.nodup_append.mp hnd).2.2 c hcm c (by simp)
      exact hdj rfl
    have hdt : d ≠ t := by
      rintro rfl
      cases A with
      | nil => grind
      | cons e A => grind
    have hcx : c ≠ x := by grind
    have hdx : d ≠ x := by grind
    exact ⟨(hs.next_frame c hcx hcz).trans hcd.next_eq,
      (hs.prev_frame d hdx hdt).trans hcd.prev_eq⟩

theorem LinkedRing.splice {a x t : α} {A B : List α}
    (hs : Spliced next prev next' prev' a x t) (hr : LinkedRing next prev (A ++ t :: B))
    (hx : x ∉ A ++ t :: B) (ha : prev t = some a) :
    LinkedRing next' prev' (A ++ x :: t :: B) := by
  have hrot : LinkedRing next prev (t :: (B ++ A)) := hr.rotate
  have hx' : x ∉ t :: (B ++ A) := by grind
  have hnew := LinkedRing.splice_head hs hrot hx' ha
  have hassoc : t :: (B ++ A) ++ [x] = (t :: B) ++ (A ++ [x]) := by simp
  rw [hassoc] at hnew
  simpa using hnew.rotate

/-- A ring that contains none of the three nodes is untouched by a splice. -/
theorem LinkedRing.disjoint {a x t : α} {l : List α}
    (hs : Spliced next prev next' prev' a x t) (hr : LinkedRing next prev l)
    (hx : x ∉ l) (ha : a ∉ l) (ht : t ∉ l) : LinkedRing next' prev' l := by
  refine hr.congr (fun y hy => hs.next_frame y ?_ ?_) (fun y hy => hs.prev_frame y ?_ ?_)
  all_goals
    rintro rfl
    contradiction

theorem LinkedRing.prev_mem {l : List α} (hr : LinkedRing next prev l) {t : α} (ht : t ∈ l) :
    ∃ a ∈ l, prev t = some a := by
  obtain ⟨A, B, rfl⟩ := List.append_of_mem ht
  have hrot : LinkedRing next prev (t :: (B ++ A)) := hr.rotate
  obtain ⟨m, z, hm⟩ : ∃ m z, t :: (B ++ A) = m ++ [z] :=
    ⟨_, _, (List.dropLast_append_getLast (List.cons_ne_nil t (B ++ A))).symm⟩
  have hz : z ∈ A ++ t :: B := by
    have : z ∈ t :: (B ++ A) := by simp [hm]
    grind
  refine ⟨z, hz, ?_⟩
  have hclosed : closed (t :: (B ++ A)) = m ++ z :: [t] := by
    rw [closed, ← List.cons_append, hm, List.append_assoc, List.singleton_append]
  exact (List.isChain_append_cons_cons.mp (hclosed ▸ hrot.chain)).2.1.prev_eq

theorem LinkedRing.prev_head {h : α} {t : List α} (hr : LinkedRing next prev (h :: t)) :
    prev h = (h :: t).getLast? := by
  rcases List.eq_nil_or_concat' t with rfl | ⟨m, z, rfl⟩
  · exact hr.rel_single.prev_eq
  · have hclose : Link next prev z h := Cyclic.rel_closing (A := m) hr
    rw [hclose.prev_eq, ← List.cons_append, List.getLast?_concat]

end LowLatency.Lib
