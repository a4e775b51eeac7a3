import LowLatency.Lib.Transition
import LowLatency.Common.MemPool

/-!
The objects of a `MemPool` over a run.

A run allocates objects, assigns to them and gives them back. The pool is
compared with a heap that forgets nothing: the live objects with their
contents, as their owners see them. `Sound` is the comparison. Its heart is
that the free index always stands at a free block: `allocate` moves it there
before it returns, and `deallocate` can only add to the free blocks.
-/

namespace LowLatency.Common

open LowLatency.Lib

namespace MemPool

variable {T : Type}

/-- A pool and the objects that were handed out and not yet given back. -/
structure Owned (T : Type) where
  pool : MemPool T
  live : Addr → Option T

/-- What the owners of objects can do. A pointer that is given back was returned
earlier and has not been given back since. -/
inductive Owned.Step : Owned T → Owned T → Prop
  | allocate {s : Owned T} {obj : T} {pool : MemPool T} {a : Addr} :
      s.pool.allocate obj = .ok (pool, a) →
      Step s ⟨pool, Function.update s.live a (some obj)⟩
  | assign {s : Owned T} {a : Addr} {x : T} : s.live a ≠ none →
      Step s ⟨s.pool.write a x, Function.update s.live a (some x)⟩
  | deallocate {s : Owned T} {a : Addr} {pool : MemPool T} : s.live a ≠ none →
      s.pool.deallocate a = .ok pool → Step s ⟨pool, Function.update s.live a none⟩

def ownedSystem [Inhabited T] (n : ℕ) : System (Owned T) where
  init s := s = ⟨ofSize n, fun _ => none⟩
  step := Owned.Step

structure Owned.Holds (n : ℕ) (s : Owned T) : Prop where
  size : s.pool.size = n
  ready : s.pool.Ready
  taken : ∀ a, s.pool.isFree a = false ↔ s.live a ≠ none
  lt : ∀ a, s.live a ≠ none → a < n
  object : ∀ a x, s.live a = some x → s.pool.object a = x

theorem Owned.holds_ofSize [Inhabited T] {n : ℕ} (hn : 0 < n) :
    Owned.Holds n (⟨ofSize n, fun _ => none⟩ : Owned T) where
  size := rfl
  ready := ready_ofSize hn
  taken a := by simp [ofSize, isFree]
  lt a h := absurd rfl h
  object a x h := by simp at h

theorem Owned.Holds.update {n : ℕ} {s : Owned T} (h : Owned.Holds n s) {pool : MemPool T}
    {a : Addr} {v : Option T} (hlt : a < n) (hsize : pool.size = s.pool.size)
    (hready : pool.Ready) (htaken : pool.isFree a = false ↔ v ≠ none)
    (hobject : ∀ x, v = some x → pool.object a = x)
    (hfree : ∀ b, b ≠ a → pool.isFree b = s.pool.isFree b)
    (hother : ∀ b, b ≠ a → pool.object b = s.pool.object b) :
    Owned.Holds n ⟨pool, Function.update s.live a v⟩ := by
  refine ⟨hsize.trans h.size, hready, ?_, ?_, ?_⟩
  all_goals
    intro b
    dsimp only
    by_cases hba : b = a
  · subst hba
    rw [Function.update_self]
    exact htaken
  · rw [Function.update_of_ne hba, hfree b hba]
    exact h.taken b
  · exact fun _ => hba ▸ hlt
  · rw [Function.update_of_ne hba]
    exact h.lt b
  · subst hba
    rw [Function.update_self]
    exact hobject
  · rw [Function.update_of_ne hba, hother b hba]
    exact h.object b

theorem Owned.Holds.step {n : ℕ} {s t : Owned T} (h : Owned.Holds n s)
    (hst : Owned.Step s t) : Owned.Holds n t := by
  cases hst with
  | @allocate obj pool a hok =>
      have hall := allocate_ok hok
      refine h.update (h.size ▸ hall.lt) hall.size hall.ready ?_ ?_ ?_ ?_
      · simp [hall.isFree]
      · intro x hx
        rw [hall.object, if_pos rfl, Option.some.inj hx]
      · intro b hba
        rw [hall.isFree, if_neg hba]
      · intro b hba
        rw [hall.object, if_neg hba]
  | @assign a x hlive =>
      refine h.update (h.lt a hlive) rfl (h.ready.write a x) ?_ ?_ ?_ ?_
      · simp [(h.taken a).mpr hlive]
      · intro y hy
        rw [object_write, if_pos rfl, Option.some.inj hy]
      · intro b hba
        rw [isFree_write]
      · intro b hba
        rw [object_write, if_neg hba]
  | @deallocate a pool hlive hok =>
      have hlt : a < s.pool.size := h.size ▸ h.lt a hlive
      obtain ⟨pool', hrun, hd⟩ := deallocate_taken hlt ((h.taken a).mpr hlive)
      rw [hrun, Except.ok.injEq] at hok
      subst hok
      refine h.update (h.lt a hlive) hd.size (hd.ready h.ready) ?_ ?_ ?_ ?_
      · simp [hd.isFree]
      · intro x hx
        contradiction
      · intro b hba
        rw [hd.isFree, if_neg hba]
      · exact fun b _ => hd.object b

theorem Owned.holds_of_reachable [Inhabited T] {n : ℕ} (hn : 0 < n) {s : Owned T}
    (h : (ownedSystem n).Reachable s) : Owned.Holds n s := by
  refine h.invariant (Owned.Holds n) ?_ fun s t hs hst => hs.step hst
  rintro s rfl
  exact Owned.holds_ofSize hn

/-- **The pool keeps its objects apart.** Whatever was allocated, assigned and
given back so far: the free index stands at a free block, the taken blocks are
those of the live objects, and these have the contents their owners gave them.
The next `allocate` returns a block of no live object or exits for lack of
space; `deallocate` accepts the live objects and nothing else; neither touches
the contents of another object. -/
theorem sound_of_reachable [Inhabited T] {n : ℕ} (hn : 0 < n) {s : Owned T}
    (h : (ownedSystem n).Reachable s) :
    (s.pool.nextFreeIdx < n ∧ s.pool.isFree s.pool.nextFreeIdx = true) ∧
    (∀ a, s.pool.isFree a = false ↔ s.live a ≠ none) ∧
    (∀ a x, s.live a = some x → a < n ∧ s.pool.object a = x) ∧
    (∀ obj, (∃ pool a, s.pool.allocate obj = .ok (pool, a) ∧ s.live a = none ∧
        ∀ b, b ≠ a → pool.object b = s.pool.object b) ∨
      s.pool.allocate obj = .error outOfSpace) ∧
    (∀ a, s.live a ≠ none → ∃ pool, s.pool.deallocate a = .ok pool ∧
      ∀ b, pool.object b = s.pool.object b) ∧
    ∀ idx : ℤ, (∀ a, s.live a ≠ none → idx ≠ a) →
      ∃ msg, s.pool.deallocate idx = .error (.exit msg) := by
  have hs := Owned.holds_of_reachable hn h
  refine ⟨⟨hs.size ▸ hs.ready.lt, hs.ready.free⟩, hs.taken,
    fun a x ha => ⟨hs.lt a (by simp [ha]), hs.object a x ha⟩, fun obj => ?_, fun a ha => ?_,
    fun idx hidx => ?_⟩
  · rcases allocate_cases hs.ready obj with ⟨pool, a, hrun, hall⟩ | ⟨-, hrun⟩
    · refine .inl ⟨pool, a, hrun, ?_, fun b hba => by rw [hall.object, if_neg hba]⟩
      by_contra hlive
      have htaken := (hs.taken a).mpr hlive
      rw [hall.was_free] at htaken
      contradiction
    · exact .inr hrun
  · have hlt : a < s.pool.size := hs.size ▸ hs.lt a ha
    obtain ⟨pool, hrun, hd⟩ := deallocate_taken hlt ((hs.taken a).mpr ha)
    exact ⟨pool, hrun, hd.object⟩
  · refine deallocate_other fun a ha hia => ?_
    have hdead : ¬ s.live a ≠ none := fun hlive => hidx a hlive hia
    rw [← hs.taken] at hdead
    simpa using hdead

theorem sound_of_reachable_two :
    ∃ s : Owned ℕ, (ownedSystem 2).Reachable s ∧ s.live 0 = some 7 ∧
      s.pool.nextFreeIdx < 2 ∧ s.pool.isFree s.pool.nextFreeIdx = true := by
  have h₀ : (ownedSystem (T := ℕ) 2).Reachable ⟨ofSize 2, fun _ => none⟩ := .init rfl
  obtain ⟨r, hrun, haddr⟩ := exists_of_succeedsWith
    (x := (ofSize 2 : MemPool ℕ).allocate 7) (p := fun r => decide (r.2 = 0)) (by decide)
  have h₁ := h₀.step (.allocate hrun)
  refine ⟨_, h₁, ?_, (sound_of_reachable (by decide) h₁).1⟩
  rw [of_decide_eq_true haddr]
  rfl

end MemPool

end LowLatency.Common
