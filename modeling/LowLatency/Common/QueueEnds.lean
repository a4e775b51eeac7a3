import LowLatency.Common.ProducerConsumer

/-!
The two ends of an `LFQueue` apart, for threads that use several queues.

A thread that sends does not know beforehand what it is going to send, and
nothing in the code looks whether there is room. `SendStep` is the way of one
value through the methods, as far as the store of the index; the change of the
count after it completes the call. Over a list that has the value in its
place, these are the steps of the producer of `ProducerConsumer`, provided the
call finds room when it begins.
-/

namespace LowLatency.Common

open LowLatency.Lib

namespace ProducerConsumer

variable {T : Type}

/-- The steps of a call that sends `v`, up to the change of the count. -/
inductive SendStep (v : T) : State T → State T → Prop
  | begin {s : State T} : s.producer = .idle → SendStep v s { s with producer := .ready }
  | getNextToWrite {s : State T} : s.producer = .ready →
      SendStep v s { s with producer := .taken s.q.getNextToWrite }
  | beginWrite {s : State T} {c : ℕ} : s.producer = .taken c →
      SendStep v s { s with q := s.q.write c none, producer := .writing c }
  | endWrite {s : State T} {c : ℕ} : s.producer = .writing c →
      SendStep v s { s with q := s.q.write c (some v), producer := .written }
  | storeWriteIdx {s : State T} : s.producer = .written →
      SendStep v s { s with q := s.q.storeWriteIdx, producer := .stored }

/-- The change of the count, which ends the call. -/
def State.sent (s : State T) : State T :=
  { s with q := s.q.incSize, producer := .idle, next := s.next + 1 }

inductive TakeStep : State T → State T → Prop
  | loadSize {s : State T} : s.consumer = .idle → s.q.size ≠ 0 →
      TakeStep s { s with consumer := .nonEmpty }
  | getNextToRead {s : State T} : s.consumer = .nonEmpty →
      TakeStep s { s with consumer := .holding s.q.readIdx }
  | use {s : State T} {c : ℕ} : s.consumer = .holding c →
      TakeStep s { s with used := s.used ++ [s.q.queue c], consumer := .used c }
  | check {s : State T} {c : ℕ} : s.consumer = .used c → s.q.qSize > 0 →
      TakeStep s { s with consumer := .checked c }
  | fail {s : State T} {c : ℕ} : s.consumer = .used c → ¬ s.q.qSize > 0 →
      TakeStep s { s with consumer := .failed }
  | storeReadIdx {s : State T} {c : ℕ} : s.consumer = .checked c →
      TakeStep s { s with q := s.q.storeReadIdx, consumer := .stored c }
  | decSize {s : State T} {c : ℕ} : s.consumer = .stored c →
      TakeStep s { s with q := s.q.decSize, consumer := .idle }

variable {n : Capacity} {vals : List T} {v : T} {s t : State T}

theorem TakeStep.step (h : TakeStep s t) (vals : List T) : Step vals s t := by
  cases h with
  | loadSize hc hsize => exact .loadSize hc hsize
  | getNextToRead hc => exact .getNextToRead hc
  | use hc => exact .use hc
  | check hc hsize => exact .check hc hsize
  | fail hc hsize => exact .fail hc hsize
  | storeReadIdx hc => exact .storeReadIdx hc
  | decSize hc => exact .decSize hc

theorem TakeStep.next_eq (h : TakeStep s t) : t.next = s.next ∧ t.producer = s.producer := by
  cases h <;> exact ⟨rfl, rfl⟩

theorem SendStep.step (h : SendStep v s t) (hv : vals[s.next]? = some v)
    (hroom : s.producer = .idle → s.q.size < s.q.capacity) : Step vals s t := by
  cases h with
  | begin hp => exact .seeRoom hp (List.getElem?_eq_some_iff.mp hv).1 (hroom hp)
  | getNextToWrite hp => exact .getNextToWrite hp
  | beginWrite hp => exact .beginWrite hp
  | endWrite hp =>
      rw [← hv]
      exact .endWrite hp
  | storeWriteIdx hp => exact .storeWriteIdx hp

theorem SendStep.next_eq (h : SendStep v s t) : t.next = s.next ∧ t.used = s.used := by
  cases h <;> exact ⟨rfl, rfl⟩

/-- Some step of the call is possible until only the count is left. -/
theorem exists_sendStep (v : T) (hp : s.producer ≠ .stored) : ∃ t, SendStep v s t := by
  cases h : s.producer with
  | idle => exact ⟨_, .begin h⟩
  | ready => exact ⟨_, .getNextToWrite h⟩
  | taken c => exact ⟨_, .beginWrite h⟩
  | writing c => exact ⟨_, .endWrite h⟩
  | written => exact ⟨_, .storeWriteIdx h⟩
  | stored => exact absurd h hp

variable [Inhabited T]

/-- What is still to come makes no difference to what has happened. -/
theorem reachable_append (h : (system n vals).Reachable s) (more : List T) :
    (system n (vals ++ more)).Reachable s := by
  refine System.Reachable.map (S := system n vals) id (fun s hs => hs) ?_ h
  intro s t hs _ hst
  refine .inr (show Step (vals ++ more) s t from ?_)
  cases hst with
  | seeRoom hp hlt hroom =>
      refine .seeRoom hp ?_ hroom
      rw [List.length_append]
      exact Nat.lt_add_right _ hlt
  | getNextToWrite hp => exact .getNextToWrite hp
  | beginWrite hp => exact .beginWrite hp
  | @endWrite c hp =>
      obtain ⟨r, hinv⟩ := exists_inv hs
      have hlt := (hinv.active (by simp [hp])).2
      have hstep : Step (vals ++ more) s _ := .endWrite hp
      rwa [List.getElem?_append_left hlt] at hstep
  | storeWriteIdx hp => exact .storeWriteIdx hp
  | incSize hp => exact .incSize hp
  | loadSize hc hsize => exact .loadSize hc hsize
  | getNextToRead hc => exact .getNextToRead hc
  | use hc => exact .use hc
  | check hc hsize => exact .check hc hsize
  | fail hc hsize => exact .fail hc hsize
  | storeReadIdx hc => exact .storeReadIdx hc
  | decSize hc => exact .decSize hc

theorem exists_takeStep (h : (system n vals).Reachable s)
    (hleft : s.consumer ≠ .idle ∨ s.used.length < s.next) : ∃ t, TakeStep s t := by
  obtain ⟨r, hinv⟩ := exists_inv h
  cases hc : s.consumer with
  | idle =>
      have hu := hinv.used_length
      have hq := hinv.qSize
      rw [hc] at hu
      simp only [Consumer.inHand] at hu
      have hlt := hleft.resolve_left (by simp [hc])
      have hsize : s.q.size ≠ 0 := by
        show s.q.qSize ≠ 0
        omega
      exact ⟨_, .loadSize hc hsize⟩
  | nonEmpty => exact ⟨_, .getNextToRead hc⟩
  | holding c => exact ⟨_, .use hc⟩
  | used c =>
      have hlt := hinv.reading (by simp [hc])
      have hq := hinv.qSize
      exact ⟨_, .check hc (by omega)⟩
  | checked c => exact ⟨_, .storeReadIdx hc⟩
  | stored c => exact ⟨_, .decSize hc⟩
  | failed => exact absurd hc hinv.ok

end ProducerConsumer

end LowLatency.Common
