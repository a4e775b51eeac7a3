import LowLatency.Lib.BoundedFifo
import LowLatency.Common.LFQueue

/-!
One producer and one consumer on an `LFQueue`.

Each of the two threads goes through the methods of the queue one atomic step
at a time, as `Logger::pushValue` and `MatchingEngine::run` use them: the
producer sees room, takes a cell, writes it, stores the index and raises the
count; the consumer sees a count, takes a cell, uses it, checks the count,
stores the index and lowers the count. A write is not atomic: between its
begin and its end the cell holds no value.

The invariant counts in values, never wrapped: `next` have been completed by
the producer and `r` by the consumer, and everything else in the state is a
function of the two and of where the threads stand. Atomics are sequentially
consistent, so a run is an interleaving of the steps.
-/

namespace LowLatency.Common

open LowLatency.Lib

namespace ProducerConsumer

variable {T : Type}

/-- Where the producer stands, with the cell it got. -/
inductive Producer
  | idle
  | ready
  | taken (cell : ℕ)
  | writing (cell : ℕ)
  | written
  | stored
  deriving DecidableEq

/-- Where the consumer stands, with the cell it got. In `failed` the `ASSERT`
of `updateReadIdx` has fired. -/
inductive Consumer
  | idle
  | nonEmpty
  | holding (cell : ℕ)
  | used (cell : ℕ)
  | checked (cell : ℕ)
  | stored (cell : ℕ)
  | failed
  deriving DecidableEq

/-- The queue, the number of the value the producer is at, and the values the
consumer has used. A cell with an unfinished write is `none`. -/
structure State (T : Type) where
  q : LFQueue (Option T)
  producer : Producer
  next : ℕ
  consumer : Consumer
  used : List (Option T)

/-- The atomic steps, for a producer with the values `vals`. A load of the count
that finds nothing to do changes nothing and is not listed. -/
inductive Step (vals : List T) : State T → State T → Prop
  | seeRoom {s : State T} : s.producer = .idle → s.next < vals.length →
      s.q.size < s.q.capacity → Step vals s { s with producer := .ready }
  | getNextToWrite {s : State T} : s.producer = .ready →
      Step vals s { s with producer := .taken s.q.getNextToWrite }
  | beginWrite {s : State T} {c : ℕ} : s.producer = .taken c →
      Step vals s { s with q := s.q.write c none, producer := .writing c }
  | endWrite {s : State T} {c : ℕ} : s.producer = .writing c →
      Step vals s { s with q := s.q.write c vals[s.next]?, producer := .written }
  | storeWriteIdx {s : State T} : s.producer = .written →
      Step vals s { s with q := s.q.storeWriteIdx, producer := .stored }
  | incSize {s : State T} : s.producer = .stored →
      Step vals s { s with q := s.q.incSize, producer := .idle, next := s.next + 1 }
  | loadSize {s : State T} : s.consumer = .idle → s.q.size ≠ 0 →
      Step vals s { s with consumer := .nonEmpty }
  | getNextToRead {s : State T} : s.consumer = .nonEmpty →
      Step vals s { s with consumer := .holding s.q.readIdx }
  | use {s : State T} {c : ℕ} : s.consumer = .holding c →
      Step vals s { s with used := s.used ++ [s.q.queue c], consumer := .used c }
  | check {s : State T} {c : ℕ} : s.consumer = .used c → s.q.qSize > 0 →
      Step vals s { s with consumer := .checked c }
  | fail {s : State T} {c : ℕ} : s.consumer = .used c → ¬ s.q.qSize > 0 →
      Step vals s { s with consumer := .failed }
  | storeReadIdx {s : State T} {c : ℕ} : s.consumer = .checked c →
      Step vals s { s with q := s.q.storeReadIdx, consumer := .stored c }
  | decSize {s : State T} {c : ℕ} : s.consumer = .stored c →
      Step vals s { s with q := s.q.decSize, consumer := .idle }

/-- The steps of the producer by itself, on the queue, where it stands and the
number of the value it is at. -/
inductive PushStep (vals : List T) : LFQueue (Option T) → Producer → ℕ →
    LFQueue (Option T) → Producer → ℕ → Prop
  | seeRoom {q next} : next < vals.length → q.size < q.capacity →
      PushStep vals q .idle next q .ready next
  | getNextToWrite {q next} : PushStep vals q .ready next q (.taken q.getNextToWrite) next
  | beginWrite {q next c} : PushStep vals q (.taken c) next (q.write c none) (.writing c) next
  | endWrite {q next c} :
      PushStep vals q (.writing c) next (q.write c vals[next]?) .written next
  | storeWriteIdx {q next} : PushStep vals q .written next q.storeWriteIdx .stored next
  | incSize {q next} : PushStep vals q .stored next q.incSize .idle (next + 1)

theorem PushStep.step {vals : List T} {q q' : LFQueue (Option T)} {p p' : Producer}
    {next next' : ℕ} (h : PushStep vals q p next q' p' next') (consumer : Consumer)
    (used : List (Option T)) :
    Step vals ⟨q, p, next, consumer, used⟩ ⟨q', p', next', consumer, used⟩ := by
  cases h with
  | seeRoom hlt hroom => exact .seeRoom rfl hlt hroom
  | getNextToWrite => exact .getNextToWrite rfl
  | beginWrite => exact .beginWrite rfl
  | endWrite => exact .endWrite rfl
  | storeWriteIdx => exact .storeWriteIdx rfl
  | incSize => exact .incSize rfl

theorem PushStep.readIdx_eq {vals : List T} {q q' : LFQueue (Option T)} {p p' : Producer}
    {next next' : ℕ} (h : PushStep vals q p next q' p' next') : q'.readIdx = q.readIdx := by
  cases h <;> rfl

theorem PushStep.capacity_eq {vals : List T} {q q' : LFQueue (Option T)} {p p' : Producer}
    {next next' : ℕ} (h : PushStep vals q p next q' p' next') : q'.capacity = q.capacity := by
  cases h <;> rfl

def start [Inhabited T] (n : Capacity) : State T := ⟨.ofSize n, .idle, 0, .idle, []⟩

def system [Inhabited T] (n : Capacity) (vals : List T) : System (State T) where
  init s := s = start n
  step := Step vals

/-! ### Reading a state -/

/-- The cell the producer is going to write or is writing. -/
def Producer.target : Producer → Option ℕ
  | .taken c | .writing c => some c
  | _ => none

def Producer.writes : Producer → Option ℕ
  | .writing c => some c
  | _ => none

/-- How far `write_idx_` is ahead of `next`. -/
def Producer.ahead : Producer → ℕ
  | .stored => 1
  | _ => 0

/-- The cell the consumer holds, from the end of `getNextToRead` to the end of
`updateReadIdx`. -/
def Consumer.holds : Consumer → Option ℕ
  | .holding c | .used c | .checked c | .stored c => some c
  | _ => none

/-- How many values have been used and not yet taken off. -/
def Consumer.inHand : Consumer → ℕ
  | .used _ | .checked _ | .stored _ | .failed => 1
  | _ => 0

def Consumer.ahead : Consumer → ℕ
  | .stored _ => 1
  | _ => 0

/-! ### The invariant -/

/-- The consumer has finished with `r` values. -/
structure Inv (n : Capacity) (vals : List T) (s : State T) (r : ℕ) : Prop where
  capacity : s.q.capacity = n
  used_length : s.used.length = r + s.consumer.inHand
  qSize : s.q.qSize + r = s.next
  room : s.next ≤ r + n
  next_le : s.next ≤ vals.length
  writeIdx : s.q.writeIdx = (s.next + s.producer.ahead) % n
  readIdx : s.q.readIdx = (r + s.consumer.ahead) % n
  active : s.producer ≠ .idle → s.next < r + n ∧ s.next < vals.length
  reading : s.consumer ≠ .idle → r < s.next
  target : ∀ c, s.producer.target = some c → c = s.next % n
  holds : ∀ c, s.consumer.holds = some c → c = r % n
  cells : ∀ i, r ≤ i → i < s.next → s.q.queue (i % n) = vals[i]?
  written : s.producer = .written ∨ s.producer = .stored →
    s.q.queue (s.next % n) = vals[s.next]?
  ok : s.consumer ≠ .failed

theorem inv_start [Inhabited T] (n : Capacity) (vals : List T) :
    Inv n vals (start n : State T) 0 where
  capacity := rfl
  used_length := rfl
  qSize := rfl
  room := Nat.zero_le _
  next_le := Nat.zero_le _
  writeIdx := (Nat.zero_mod n).symm
  readIdx := (Nat.zero_mod n).symm
  active h := absurd rfl h
  reading h := absurd rfl h
  target c h := by simp [start, Producer.target] at h
  holds c h := by simp [start, Consumer.holds] at h
  cells i _ h := absurd h (Nat.not_lt_zero i)
  written h := by simp [start] at h
  ok h := by simp [start] at h

theorem Inv.cell_ne {n : Capacity} {vals : List T} {s : State T} {r i : ℕ}
    (h : Inv n vals s r) (hp : s.producer ≠ .idle) (hr : r ≤ i) (hi : i < s.next) :
    i % n ≠ s.next % n := by
  have hroom := (h.active hp).1
  exact (mod_ne_mod hi (by omega)).symm

/-- The two threads never meet in a cell. -/
theorem Inv.holds_ne {n : Capacity} {vals : List T} {s : State T} {r c : ℕ}
    (h : Inv n vals s r) (hc : s.consumer.holds = some c) : s.producer.target ≠ some c := by
  intro ht
  have hp : s.producer ≠ .idle := by
    intro e
    simp [e, Producer.target] at ht
  have hne : s.consumer ≠ .idle := by
    intro e
    simp [e, Consumer.holds] at hc
  refine h.cell_ne hp le_rfl (h.reading hne) ?_
  rw [← h.holds c hc, ← h.target c ht]

theorem Inv.cells_write {n : Capacity} {vals : List T} {s : State T} {r c : ℕ}
    (h : Inv n vals s r) (hc : s.producer.target = some c) (v : Option T) :
    ∀ i, r ≤ i → i < s.next → (s.q.write c v).queue (i % n) = vals[i]? := by
  intro i hr hi
  have hp : s.producer ≠ .idle := by
    intro e
    simp [e, Producer.target] at hc
  have hne : i % n ≠ c := by
    rw [h.target c hc]
    exact h.cell_ne hp hr hi
  show Function.update s.q.queue c v (i % n) = _
  rw [Function.update_of_ne hne, h.cells i hr hi]

/-- The producer moves on and may change cells, as long as the stored values
stay. -/
theorem Inv.producer_moves {n : Capacity} {vals : List T} {s : State T} {r : ℕ}
    (h : Inv n vals s r) (queue : ℕ → Option T) (p : Producer)
    (hactive : s.next < r + n ∧ s.next < vals.length)
    (hahead : s.producer.ahead = p.ahead)
    (htarget : ∀ c, p.target = some c → c = s.next % n)
    (hcells : ∀ i, r ≤ i → i < s.next → queue (i % n) = vals[i]?)
    (hwritten : p = .written ∨ p = .stored → queue (s.next % n) = vals[s.next]?) :
    Inv n vals { s with q := { s.q with queue := queue }, producer := p } r :=
  { h with
    active := fun _ => hactive
    writeIdx := hahead ▸ h.writeIdx
    target := htarget
    cells := hcells
    written := hwritten }

theorem Inv.consumer_moves {n : Capacity} {vals : List T} {s : State T} {r : ℕ}
    (h : Inv n vals s r) (c : Consumer) (used : List (Option T)) (hlt : r < s.next)
    (hused : used.length = r + c.inHand) (hahead : s.consumer.ahead = c.ahead)
    (hholds : ∀ k, c.holds = some k → k = r % n) (hok : c ≠ .failed) :
    Inv n vals { s with consumer := c, used := used } r :=
  { h with
    used_length := hused
    readIdx := hahead ▸ h.readIdx
    reading := fun _ => hlt
    holds := hholds
    ok := hok }

theorem Inv.storeWriteIdx {n : Capacity} {vals : List T} {s : State T} {r : ℕ}
    (h : Inv n vals s r) (hp : s.producer = .written) :
    Inv n vals { s with q := s.q.storeWriteIdx, producer := .stored } r := by
  have hactive := h.active (by simp [hp])
  have hw := h.writeIdx
  rw [hp] at hw
  exact { h with
    active := fun _ => hactive
    writeIdx := by
      show succT s.q.writeIdx % s.q.capacity = _
      rw [hw, h.capacity, LFQueue.succ_idx]
      rfl
    target := fun c hc => by simp [Producer.target] at hc
    written := fun _ => h.written (.inl hp) }

theorem Inv.use {n : Capacity} {vals : List T} {s : State T} {r c : ℕ}
    (h : Inv n vals s r) (hc : s.consumer = .holding c) :
    Inv n vals { s with used := s.used ++ [s.q.queue c], consumer := .used c } r := by
  have hu := h.used_length
  have hholds : s.consumer.holds = some c := congrArg Consumer.holds hc
  rw [hc] at hu
  refine h.consumer_moves (.used c) (s.used ++ [s.q.queue c]) (h.reading (by simp [hc])) ?_
    (by rw [hc]; rfl) (fun k hk => h.holds k (hholds.trans hk)) (by simp)
  rw [List.length_append, hu]
  rfl

theorem Inv.storeReadIdx {n : Capacity} {vals : List T} {s : State T} {r c : ℕ}
    (h : Inv n vals s r) (hc : s.consumer = .checked c) :
    Inv n vals { s with q := s.q.storeReadIdx, consumer := .stored c } r := by
  have hr := h.readIdx
  have hu := h.used_length
  have hlt := h.reading (by simp [hc])
  have hholds : s.consumer.holds = some c := congrArg Consumer.holds hc
  rw [hc] at hr hu
  exact { h with
    used_length := hu
    readIdx := by
      show succT s.q.readIdx % s.q.capacity = _
      rw [hr, h.capacity, LFQueue.succ_idx]
      rfl
    reading := fun _ => hlt
    holds := fun k hk => h.holds k (hholds.trans hk)
    ok := by simp }

theorem Inv.incSize {n : Capacity} {vals : List T} {s : State T} {r : ℕ}
    (h : Inv n vals s r) (hp : s.producer = .stored) :
    Inv n vals { s with q := s.q.incSize, producer := .idle, next := s.next + 1 } r := by
  obtain ⟨hroom, hlt⟩ := h.active (by simp [hp])
  have hw := h.writeIdx
  rw [hp] at hw
  have hq := h.qSize
  have hinc : succT s.q.qSize = s.q.qSize + 1 := LFQueue.succT_eq (n := n) (by omega)
  exact { h with
    qSize := by
      show succT s.q.qSize + r = s.next + 1
      omega
    room := by
      show s.next + 1 ≤ r + n
      omega
    next_le := hlt
    active := fun hne => absurd rfl hne
    writeIdx := hw
    reading := fun hc => (h.reading hc).trans (Nat.lt_succ_self _)
    target := fun c hc => by simp [Producer.target] at hc
    cells := fun i hr hi => by
      show s.q.queue (i % n) = _
      rcases Nat.lt_succ_iff_lt_or_eq.mp hi with hi | rfl
      · exact h.cells i hr hi
      · exact h.written (.inr hp)
    written := fun hw => by simp at hw }

theorem Inv.decSize {n : Capacity} {vals : List T} {s : State T} {r c : ℕ}
    (h : Inv n vals s r) (hc : s.consumer = .stored c) :
    Inv n vals { s with q := s.q.decSize, consumer := .idle } (r + 1) := by
  have hr := h.readIdx
  have hu := h.used_length
  have hlt := h.reading (by simp [hc])
  rw [hc] at hr hu
  have hq := h.qSize
  have hroom := h.room
  obtain ⟨k, hk⟩ : ∃ k, s.q.qSize = k + 1 := ⟨s.q.qSize - 1, by omega⟩
  have hdec : predT s.q.qSize = k := by rw [hk, LFQueue.predT_succ]
  exact { h with
    used_length := hu
    qSize := by
      show predT s.q.qSize + (r + 1) = s.next
      omega
    room := by
      show s.next ≤ r + 1 + n
      omega
    active := fun hp => by
      obtain ⟨hroom, hlt⟩ := h.active hp
      exact ⟨hroom.trans_le (by omega), hlt⟩
    readIdx := hr
    reading := fun hne => absurd rfl hne
    holds := fun c hc => by simp [Consumer.holds] at hc
    cells := fun i hri hi => h.cells i (by omega) hi
    ok := by simp }

/-- One step. Only `decSize` ends a turn of the consumer; all other steps keep
the count `r`. -/
theorem Inv.step {n : Capacity} {vals : List T} {s t : State T} {r : ℕ}
    (h : Inv n vals s r) (hst : Step vals s t) : ∃ r', Inv n vals t r' := by
  cases hst with
  | seeRoom hp hlt hroom =>
      have hnext : s.next < r + n := by
        have hsize : s.q.qSize < n := h.capacity ▸ hroom
        have := h.qSize
        omega
      exact ⟨r, h.producer_moves s.q.queue .ready ⟨hnext, hlt⟩ (by rw [hp]; rfl)
        (by simp [Producer.target]) h.cells (by simp)⟩
  | getNextToWrite hp =>
      have hw := h.writeIdx
      rw [hp] at hw
      refine ⟨r, h.producer_moves s.q.queue (.taken _) (h.active (by simp [hp]))
        (by rw [hp]; rfl) ?_ h.cells (by simp)⟩
      intro c hc
      rw [← Option.some.inj hc]
      exact hw
  | @beginWrite c hp =>
      have htarget : s.producer.target = some c := congrArg Producer.target hp
      exact ⟨r, h.producer_moves (Function.update s.q.queue c none) (.writing c)
        (h.active (by simp [hp])) (by rw [hp]; rfl)
        (fun k hk => h.target k (htarget.trans hk)) (h.cells_write htarget none) (by simp)⟩
  | @endWrite c hp =>
      have htarget : s.producer.target = some c := congrArg Producer.target hp
      refine ⟨r, h.producer_moves (Function.update s.q.queue c vals[s.next]?) .written
        (h.active (by simp [hp])) (by rw [hp]; rfl) (by simp [Producer.target])
        (h.cells_write htarget _) fun _ => ?_⟩
      rw [← h.target c htarget]
      exact Function.update_self ..
  | storeWriteIdx hp => exact ⟨r, h.storeWriteIdx hp⟩
  | incSize hp => exact ⟨r, h.incSize hp⟩
  | loadSize hc hsize =>
      have hu := h.used_length
      rw [hc] at hu
      have hlt : r < s.next := by
        have hq := h.qSize
        have hpos : s.q.qSize ≠ 0 := hsize
        omega
      exact ⟨r, h.consumer_moves .nonEmpty s.used hlt hu (by rw [hc]; rfl)
        (by simp [Consumer.holds]) (by simp)⟩
  | getNextToRead hc =>
      have hr := h.readIdx
      have hu := h.used_length
      rw [hc] at hr hu
      refine ⟨r, h.consumer_moves (.holding _) s.used (h.reading (by simp [hc])) hu
        (by rw [hc]; rfl) ?_ (by simp)⟩
      intro k hk
      rw [← Option.some.inj hk]
      exact hr
  | use hc => exact ⟨r, h.use hc⟩
  | @check c hc _ =>
      have hu := h.used_length
      have hholds : s.consumer.holds = some c := congrArg Consumer.holds hc
      rw [hc] at hu
      exact ⟨r, h.consumer_moves (.checked c) s.used (h.reading (by simp [hc])) hu
        (by rw [hc]; rfl) (fun k hk => h.holds k (hholds.trans hk)) (by simp)⟩
  | fail hc hzero =>
      -- the count was positive when it was loaded, and only this thread lowers it
      have hlt := h.reading (by simp [hc])
      have hq := h.qSize
      omega
  | storeReadIdx hc => exact ⟨r, h.storeReadIdx hc⟩
  | decSize hc => exact ⟨r + 1, h.decSize hc⟩

theorem exists_inv [Inhabited T] {n : Capacity} {vals : List T} {s : State T}
    (h : (system n vals).Reachable s) : ∃ r, Inv n vals s r := by
  refine h.invariant (fun s => ∃ r, Inv n vals s r) ?_ ?_
  · rintro s rfl
    exact ⟨0, inv_start n vals⟩
  · rintro s t ⟨r, hs⟩ hst
    exact hs.step hst

/-! ### Refinement of a bounded queue -/

/-- The queue as it is meant: a value is in it from the count going up to its
use. -/
def toFifo (vals : List T) (s : State T) : Fifo (Option T) where
  pending := (vals.drop s.next).map some
  content := ((vals.drop s.used.length).take (s.next - s.used.length)).map some
  received := s.used

theorem Inv.used_le {n : Capacity} {vals : List T} {s : State T} {r : ℕ}
    (h : Inv n vals s r) : s.used.length ≤ s.next := by
  have hu := h.used_length
  cases hc : s.consumer with
  | idle =>
      rw [hc] at hu
      have := h.qSize
      simp only [Consumer.inHand] at hu
      omega
  | _ =>
      have hr := h.reading (by simp [hc])
      rw [hc] at hu
      simp only [Consumer.inHand] at hu
      omega

/-- Raising the count sends a value. -/
theorem Inv.send {n : Capacity} {vals : List T} {s t : State T} {r : ℕ} (h : Inv n vals s r)
    (hp : s.producer = .stored) (hused : t.used = s.used) (hnext : t.next = s.next + 1) :
    Fifo.Step n (toFifo vals s) (toFifo vals t) := by
  obtain ⟨hroom, hlt⟩ := h.active (by simp [hp])
  have hu := h.used_length
  have hle := h.used_le
  have hpending : (vals.drop s.next).map some =
      some vals[s.next] :: (vals.drop (s.next + 1)).map some := by
    rw [List.drop_eq_getElem_cons hlt, List.map_cons]
  have hcontent : ((vals.drop s.used.length).take (s.next + 1 - s.used.length)).map some =
      ((vals.drop s.used.length).take (s.next - s.used.length)).map some ++
        [some vals[s.next]] := by
    have hi : s.next - s.used.length < (vals.drop s.used.length).length := by
      rw [List.length_drop]
      omega
    rw [Nat.sub_add_comm hle, ← List.take_concat_get' _ _ hi, List.map_append]
    simp [Nat.add_sub_cancel' hle]
  rw [toFifo, toFifo, hused, hnext, hpending, hcontent]
  refine .send ?_
  rw [List.length_map, List.length_take, List.length_drop]
  omega

/-- Using a value receives it. -/
theorem Inv.receive {n : Capacity} {vals : List T} {s t : State T} {r c : ℕ}
    (h : Inv n vals s r) (hc : s.consumer = .holding c)
    (hused : t.used = s.used ++ [s.q.queue c]) (hnext : t.next = s.next) :
    Fifo.Step n (toFifo vals s) (toFifo vals t) := by
  have hlt := h.reading (by simp [hc])
  have hu : s.used.length = r := by
    rw [h.used_length, hc]
    rfl
  have hr : r < vals.length := hlt.trans_le h.next_le
  have hcell : s.q.queue c = some vals[r] := by
    rw [h.holds c (by rw [hc]; rfl), h.cells r le_rfl hlt, List.getElem?_eq_getElem hr]
  have hcontent : ((vals.drop r).take (s.next - r)).map some =
      some vals[r] :: ((vals.drop (r + 1)).take (s.next - (r + 1))).map some := by
    obtain ⟨k, hk⟩ : ∃ k, s.next - r = k + 1 := ⟨s.next - r - 1, by omega⟩
    have hk' : s.next - (r + 1) = k := by omega
    rw [hk, hk', List.drop_eq_getElem_cons hr, List.take_succ_cons, List.map_cons]
  rw [toFifo, toFifo, hused, hnext, List.length_append, List.length_singleton, hu, hcell,
    hcontent]
  exact .receive

/-- **The queue refines a bounded FIFO** under any interleaving of the threads. -/
theorem refines_fifo [Inhabited T] (n : Capacity) (vals : List T) :
    (system n vals).Refines (Fifo.bounded n (vals.map some)) (toFifo vals) where
  init s hs := by
    subst hs
    simp [toFifo, start, Fifo.bounded]
  step s t hs hst := by
    obtain ⟨r, h⟩ := exists_inv hs
    cases hst with
    | incSize hp => exact .inr (h.send hp rfl rfl)
    | use hc => exact .inr (h.receive hc rfl rfl)
    | _ => exact .inl rfl

theorem used_isPrefix [Inhabited T] {n : Capacity} {vals : List T} {s : State T}
    (h : (system n vals).Reachable s) : s.used <+: (vals.take s.next).map some := by
  obtain ⟨r, hinv⟩ := exists_inv h
  have hsent : s.used <+: vals.map some :=
    Fifo.received_isPrefix ((refines_fifo n vals).reachable h)
  rw [List.map_take]
  exact List.prefix_take_iff.mpr ⟨hsent, hinv.used_le⟩

/-- Both threads are between two values, and all `k` that were sent have been taken. -/
structure Resting (s : State T) (k : ℕ) : Prop where
  producer : s.producer = .idle
  consumer : s.consumer = .idle
  next : s.next = k
  used_length : s.used.length = k
  size : s.q.qSize = 0

/-- The consumer can take each value before the next is sent. -/
theorem exists_resting [Inhabited T] (n : Capacity) (vals : List T) {k : ℕ}
    (hk : k ≤ vals.length) : ∃ s, (system n vals).Reachable s ∧ Resting s k := by
  induction k with
  | zero => exact ⟨start n, .init rfl, ⟨rfl, rfl, rfl, rfl, rfl⟩⟩
  | succ k ih =>
      obtain ⟨⟨q, producer, next, consumer, used⟩, h₀, hresting⟩ := ih (Nat.le_of_succ_le hk)
      obtain ⟨hproducer, hconsumer, hnext, hused, hsize⟩ := hresting
      dsimp only at hproducer hconsumer hnext hused hsize
      subst hproducer hconsumer hnext
      have hroom : q.size < q.capacity := by
        rw [LFQueue.size, hsize]
        exact q.capacity.2.1
      have hone : succT q.qSize = 1 := by rw [hsize]; rfl
      have hne : succT q.qSize ≠ 0 := hone ▸ Nat.one_ne_zero
      have h₁ := h₀.step (.seeRoom rfl hk hroom)
      have h₂ := h₁.step (.getNextToWrite rfl)
      have h₃ := h₂.step (.beginWrite rfl)
      have h₄ := h₃.step (.endWrite rfl)
      have h₅ := h₄.step (.storeWriteIdx rfl)
      have h₆ := h₅.step (.incSize rfl)
      have h₇ := h₆.step (.loadSize rfl hne)
      have h₈ := h₇.step (.getNextToRead rfl)
      have h₉ := h₈.step (.use rfl)
      have h₁₀ := h₉.step (.check rfl (Nat.pos_of_ne_zero hne))
      have h₁₁ := h₁₀.step (.storeReadIdx rfl)
      refine ⟨_, h₁₁.step (.decSize rfl), ⟨rfl, rfl, rfl, ?_, ?_⟩⟩
      · rw [List.length_append, hused]
        rfl
      · show predT (succT q.qSize) = 0
        rw [hone]
        rfl

/-- **Lossless FIFO.** In every state of every interleaving, the values used are
a prefix of the values written, all of them whole; the cell the consumer holds
is not being written; and the `ASSERT` has not fired. -/
theorem lossless [Inhabited T] {n : Capacity} {vals : List T} {s : State T}
    (h : (system n vals).Reachable s) :
    s.used <+: (vals.take s.next).map some ∧
      (∀ c, s.consumer.holds = some c → s.producer.writes ≠ some c) ∧
      s.consumer ≠ .failed := by
  obtain ⟨r, hinv⟩ := exists_inv h
  refine ⟨used_isPrefix h, fun c hc hw => ?_, hinv.ok⟩
  apply hinv.holds_ne hc
  cases hp : s.producer with
  | writing c' =>
      rw [hp] at hw
      exact hw
  | _ =>
      rw [hp] at hw
      contradiction

/-- Three values through one cell, each taken to the end of `updateReadIdx`. -/
theorem lossless_three :
    ∃ s : State ℕ, (system ⟨1, by decide⟩ [7, 8, 9]).Reachable s ∧ s.consumer = .idle ∧
      s.q.qSize = 0 ∧ s.used = [some 7, some 8, some 9] := by
  obtain ⟨s, hs, hresting⟩ := exists_resting (T := ℕ) ⟨1, by decide⟩ [7, 8, 9] le_rfl
  obtain ⟨hused, -, -⟩ := lossless hs
  rw [hresting.next, List.take_length] at hused
  exact ⟨s, hs, hresting.consumer, hresting.size,
    hused.eq_of_length_le (by rw [hresting.used_length]; rfl)⟩

theorem exists_step [Inhabited T] {n : Capacity} {vals : List T} {s : State T}
    (h : (system n vals).Reachable s) (hleft : s.used.length < vals.length) :
    ∃ t, Step vals s t := by
  obtain ⟨r, hinv⟩ := exists_inv h
  have hu := hinv.used_length
  have hq := hinv.qSize
  cases hc : s.consumer with
  | nonEmpty => exact ⟨_, .getNextToRead hc⟩
  | holding c => exact ⟨_, .use hc⟩
  | used c =>
      have hlt := hinv.reading (by simp [hc])
      exact ⟨_, .check hc (by omega)⟩
  | checked c => exact ⟨_, .storeReadIdx hc⟩
  | stored c => exact ⟨_, .decSize hc⟩
  | failed => exact absurd hc hinv.ok
  | idle =>
      by_cases hsize : s.q.size = 0
      · -- everything that was sent has been used, so the producer can go on
        cases hp : s.producer with
        | idle =>
            rw [hc] at hu
            simp only [Consumer.inHand] at hu
            have hzero : s.q.qSize = 0 := hsize
            have hroom : s.q.size < s.q.capacity := by
              rw [hsize]
              exact s.q.capacity.2.1
            exact ⟨_, .seeRoom hp (by omega) hroom⟩
        | ready => exact ⟨_, .getNextToWrite hp⟩
        | taken c => exact ⟨_, .beginWrite hp⟩
        | writing c => exact ⟨_, .endWrite hp⟩
        | written => exact ⟨_, .storeWriteIdx hp⟩
        | stored => exact ⟨_, .incSize hp⟩
      · exact ⟨_, .loadSize hc hsize⟩

end ProducerConsumer

end LowLatency.Common
