import LowLatency.Common.LFQueue
import LowLatency.Lib.Transition

/-!
`lf_queue_example.cpp`: a producer that publishes a record before it writes it.

Both threads of the example move the index on first and touch the record
afterwards, through a pointer they keep. So the count no longer says that the
record in a cell is complete, and a consumer can be faster than the writes. What
still holds is that the two threads agree on the cells: the k-th record read is
the k-th record added, if perhaps with fields that have not been written yet.

Each access to an `int` of a record is one step, as are the stores of an index
and the loads and changes of the count. What a thread loads that only it stores
(its own index, and the record the producer has written itself) is loaded in the
step that uses it: the cell of `getNextToWrite`, the cell of `getNextToRead` with
its load of the count, and a line of output with its load of the size.

The example adds 50 records to a queue of 100 cells; here it is `count` records
and a queue with room for all of them.
-/

namespace LowLatency.Common

open LowLatency.Lib

namespace LFQueueExample

/-- `struct data`. -/
abbrev Data := Fin 3 → ℤ

def record (i : ℕ) : Data := fun f => i + f

/-- Where the producer stands, with the cell it got. When it has published the cell,
`fields` of its fields have been written. -/
inductive Producer
  | loop
  | holding (cell : ℕ)
  | stored (cell : ℕ)
  | published (cell fields : ℕ)
  | exited

/-- Where the consumer stands, with the pointer it got. In `failed` the `ASSERT` of
`updateReadIdx` has fired, in `crashed` a null pointer was followed. -/
inductive Consumer
  | loop
  | nonEmpty
  | holding (cell : Option ℕ)
  | checked (cell : Option ℕ)
  | stored (cell : Option ℕ)
  | reading (cell : Option ℕ) (fields : ℕ) (d : Data)
  | exited
  | failed
  | crashed

/-- `i` is the variable of the producer's loop. `added` and `consumed` are the lines
of output, each a record and a size. -/
structure State where
  q : LFQueue Data
  i : ℕ
  producer : Producer
  consumer : Consumer
  added : List (Data × ℕ)
  consumed : List (Data × ℕ)

/-- The steps of `producerFunction`. -/
inductive Produce (count : ℕ) : State → State → Prop
  | getNextToWrite {s : State} : s.producer = .loop → s.i < count →
      Produce count s { s with producer := .holding s.q.getNextToWrite }
  | storeWriteIdx {s : State} {c} : s.producer = .holding c →
      Produce count s { s with q := s.q.storeWriteIdx, producer := .stored c }
  | incSize {s : State} {c} : s.producer = .stored c →
      Produce count s { s with q := s.q.incSize, producer := .published c 0 }
  | writeField {s : State} {c f} (hf : f < 3) : s.producer = .published c f →
      Produce count s { s with
        q := s.q.write c (Function.update (s.q.queue c) ⟨f, hf⟩ (record s.i ⟨f, hf⟩))
        producer := .published c (f + 1) }
  | print {s : State} {c} : s.producer = .published c 3 →
      Produce count s { s with
        added := s.added ++ [(s.q.queue c, s.q.size)], producer := .loop, i := s.i + 1 }
  | exit {s : State} : s.producer = .loop → ¬ s.i < count →
      Produce count s { s with producer := .exited }

/-- The steps of `consumerFunction`. -/
inductive Consume : State → State → Prop
  | loadSize {s : State} : s.consumer = .loop → s.q.size ≠ 0 →
      Consume s { s with consumer := .nonEmpty }
  | exit {s : State} : s.consumer = .loop → s.q.size = 0 →
      Consume s { s with consumer := .exited }
  | getNextToRead {s : State} : s.consumer = .nonEmpty →
      Consume s { s with consumer := .holding s.q.getNextToRead }
  | check {s : State} {c} : s.consumer = .holding c → s.q.qSize > 0 →
      Consume s { s with consumer := .checked c }
  | fail {s : State} {c} : s.consumer = .holding c → ¬ s.q.qSize > 0 →
      Consume s { s with consumer := .failed }
  | storeReadIdx {s : State} {c} : s.consumer = .checked c →
      Consume s { s with q := s.q.storeReadIdx, consumer := .stored c }
  | decSize {s : State} {c} : s.consumer = .stored c →
      Consume s { s with q := s.q.decSize, consumer := .reading c 0 default }
  | readField {s : State} {c f d} (hf : f < 3) : s.consumer = .reading (some c) f d →
      Consume s { s with
        consumer :=
          .reading (some c) (f + 1) (Function.update d ⟨f, hf⟩ (s.q.queue c ⟨f, hf⟩)) }
  | crash {s : State} {f d} : s.consumer = .reading none f d →
      Consume s { s with consumer := .crashed }
  | print {s : State} {c d} : s.consumer = .reading (some c) 3 d →
      Consume s { s with consumed := s.consumed ++ [(d, s.q.size)], consumer := .loop }

def start (n : Capacity) : State := ⟨.ofSize n, 0, .loop, .loop, [], []⟩

def system (n : Capacity) (count : ℕ) : System State where
  init s := s = start n
  step s t := Produce count s t ∨ Consume s t

/-! ### Reading a state -/

/-- How far `write_idx_` is ahead of `i`. -/
def Producer.ahead : Producer → ℕ
  | .stored _ | .published _ _ => 1
  | _ => 0

/-- How far the count is ahead of `i`. -/
def Producer.counted : Producer → ℕ
  | .published _ _ => 1
  | _ => 0

/-- The fields of the record for `i` that have been written. -/
def Producer.fields : Producer → ℕ
  | .published _ f => f
  | _ => 0

def Producer.cell : Producer → Option ℕ
  | .holding c | .stored c | .published c _ => some c
  | _ => none

/-- How far `read_idx_` is ahead of the records consumed. -/
def Consumer.ahead : Consumer → ℕ
  | .stored _ | .reading _ _ _ => 1
  | _ => 0

/-- How far the count is ahead of the records consumed. -/
def Consumer.counted : Consumer → ℕ
  | .reading _ _ _ => 1
  | _ => 0

def Consumer.cell : Consumer → Option (Option ℕ)
  | .holding c | .checked c | .stored c | .reading c _ _ => some c
  | _ => none

/-- The consumer is between its test of the count and the end of its line. -/
def Consumer.Busy : Consumer → Prop
  | .loop | .exited => False
  | _ => True

/-- The fields of the `k`-th record that have been written. -/
def State.fields (s : State) (k : ℕ) : ℕ :=
  if k < s.i then 3 else if k = s.i then s.producer.fields else 0

/-! ### The invariant -/

/-- The fields of `d` are those of the `k`-th record, or as they were before. -/
def Stale (k : ℕ) (d : Data) : Prop := ∀ g, d g = 0 ∨ d g = record k g

structure Inv (n : Capacity) (count : ℕ) (s : State) : Prop where
  capacity : s.q.capacity = n
  i_le : s.i ≤ count
  done : s.producer = .exited → s.i = count
  active : s.producer.cell ≠ none → s.i < count
  cell : ∀ c, s.producer.cell = some c → c = s.i
  fields_le : s.producer.fields ≤ 3
  qSize : s.q.qSize + (s.consumed.length + s.consumer.counted) = s.i + s.producer.counted
  writeIdx : s.q.writeIdx = (s.i + s.producer.ahead) % n
  readIdx : s.q.readIdx = (s.consumed.length + s.consumer.ahead) % n
  busy : s.consumer.Busy → s.consumed.length < s.i + s.producer.counted
  pointer : ∀ p, s.consumer.cell = some p → p = some s.consumed.length
  cells : ∀ k < (n : ℕ), ∀ g : Fin 3,
    s.q.queue k g = if (g : ℕ) < s.fields k then record k g else 0
  reading : ∀ c f d, s.consumer = .reading c f d →
    f ≤ 3 ∧ ∀ g : Fin 3, (g : ℕ) < f → d g = 0 ∨ d g = record s.consumed.length g
  stale : ∀ k l, s.consumed[k]? = some l → Stale k l.1
  added : s.added.map Prod.fst = (List.range s.i).map record
  ok : s.consumer ≠ .failed ∧ s.consumer ≠ .crashed

variable {n : Capacity} {count : ℕ} {s t : State}

theorem inv_start (n : Capacity) (count : ℕ) : Inv n count (start n) where
  capacity := rfl
  i_le := Nat.zero_le _
  done h := by simp [start] at h
  active h := absurd rfl h
  cell c h := by simp [start, Producer.cell] at h
  fields_le := Nat.zero_le _
  qSize := rfl
  writeIdx := (Nat.zero_mod n).symm
  readIdx := (Nat.zero_mod n).symm
  busy h := False.elim h
  pointer p h := by simp [start, Consumer.cell] at h
  cells k _ g := by
    have hfields : (start n).fields k = 0 := by
      show (if k < 0 then 3 else if k = 0 then 0 else 0) = 0
      rw [if_neg (Nat.not_lt_zero k), ite_self]
    rw [hfields, if_neg (Nat.not_lt_zero _)]
    rfl
  reading c f d h := by simp [start] at h
  stale k l h := by simp [start] at h
  added := rfl
  ok := by simp [start]

theorem Inv.stale_cell (h : Inv n count s) {k : ℕ} (hk : k < (n : ℕ)) :
    Stale k (s.q.queue k) := by
  intro g
  rw [h.cells k hk g]
  by_cases hg : (g : ℕ) < s.fields k
  · rw [if_pos hg]
    exact .inr rfl
  · rw [if_neg hg]
    exact .inl rfl

theorem Inv.cell_eq (h : Inv n count s) {k : ℕ} (hk : k < (n : ℕ)) (hlt : k < s.i) :
    s.q.queue k = record k := by
  funext g
  rw [h.cells k hk g, State.fields, if_pos hlt, if_pos g.2]

/-! ### One step -/

theorem Inv.writeField (h : Inv n count s) {c f : ℕ} (hf : f < 3)
    (hp : s.producer = .published c f) : Inv n count { s with
      q := s.q.write c (Function.update (s.q.queue c) ⟨f, hf⟩ (record s.i ⟨f, hf⟩))
      producer := .published c (f + 1) } := by
  have hcell := h.cell c (by rw [hp]; rfl)
  have hactive := h.active (by rw [hp]; simp [Producer.cell])
  subst hcell
  refine { h with
    done := fun hp => by simp at hp
    active := fun _ => hactive
    cell := fun c hc => (Option.some.inj hc).symm
    fields_le := hf
    qSize := ?_
    writeIdx := ?_
    busy := ?_
    cells := ?_ }
  · have hq := h.qSize
    rw [hp] at hq
    exact hq
  · have hw := h.writeIdx
    rw [hp] at hw
    exact hw
  · have hb := h.busy
    rw [hp] at hb
    exact hb
  · intro k hk g
    show Function.update s.q.queue s.i _ k g = _
    have hold := h.cells k hk g
    by_cases hki : k = s.i
    · subst hki
      rw [Function.update_self]
      have hnew : State.fields { s with
          q := s.q.write s.i (Function.update (s.q.queue s.i) ⟨f, hf⟩ (record s.i ⟨f, hf⟩))
          producer := .published s.i (f + 1) } s.i = f + 1 := by
        simp [State.fields, Producer.fields]
      have hfields : s.fields s.i = f := by simp [State.fields, hp, Producer.fields]
      rw [hfields] at hold
      rw [hnew]
      by_cases hg : g = ⟨f, hf⟩
      · subst hg
        simp
      · have hne : (g : ℕ) ≠ f := fun e => hg (Fin.ext e)
        rw [Function.update_of_ne hg, hold]
        by_cases hlt : (g : ℕ) < f
        · rw [if_pos hlt, if_pos (by omega)]
        · rw [if_neg hlt, if_neg (by omega)]
    · rw [Function.update_of_ne hki, hold]
      simp [State.fields, hki]

theorem Inv.producer_moves (h : Inv n count s) (p : Producer) (writeIdx : ℕ)
    (hdone : p = .exited → s.i = count) (hactive : p.cell ≠ none → s.i < count)
    (hcell : ∀ c, p.cell = some c → c = s.i)
    (hfields : p.fields = s.producer.fields) (hcounted : p.counted = s.producer.counted)
    (hidx : writeIdx = (s.i + p.ahead) % n) :
    Inv n count { s with q := { s.q with writeIdx := writeIdx }, producer := p } :=
  { h with
    done := hdone
    active := hactive
    cell := hcell
    fields_le := hfields ▸ h.fields_le
    qSize := hcounted ▸ h.qSize
    writeIdx := hidx
    busy := hcounted ▸ h.busy
    cells := by
      intro k hk g
      have hsame : State.fields { s with q := { s.q with writeIdx := writeIdx }, producer := p } k =
          s.fields k := by
        show (if k < s.i then 3 else if k = s.i then p.fields else 0) = _
        rw [hfields]
        rfl
      rw [hsame]
      exact h.cells k hk g }

theorem Inv.incSize (h : Inv n count s) (hcount : count ≤ n) {c : ℕ}
    (hp : s.producer = .stored c) :
    Inv n count { s with q := s.q.incSize, producer := .published c 0 } := by
  have hactive := h.active (by rw [hp]; simp [Producer.cell])
  have hcell := h.cell c (by rw [hp]; rfl)
  have hq := h.qSize
  have hw := h.writeIdx
  have hb := h.busy
  rw [hp] at hq hw hb
  have hn := n.2.2
  change s.q.qSize + (s.consumed.length + s.consumer.counted) = s.i at hq
  have hinc : succT s.q.qSize = s.q.qSize + 1 := LFQueue.succT_eq (n := n) (by omega)
  refine { h with
    done := fun hp => by simp at hp
    active := fun _ => hactive
    cell := fun c' hc => (Option.some.inj hc).symm.trans hcell
    fields_le := Nat.zero_le _
    qSize := ?_
    writeIdx := hw
    busy := fun hc => (hb hc).trans (Nat.lt_succ_self _)
    cells := ?_ }
  · show succT s.q.qSize + (s.consumed.length + s.consumer.counted) = s.i + 1
    omega
  · intro k hk g
    have hsame : State.fields { s with q := s.q.incSize, producer := .published c 0 } k =
        s.fields k := by simp [State.fields, hp, Producer.fields]
    rw [hsame]
    exact h.cells k hk g

theorem Inv.printAdded (h : Inv n count s) (hcount : count ≤ n) {c : ℕ}
    (hp : s.producer = .published c 3) : Inv n count { s with
      added := s.added ++ [(s.q.queue c, s.q.size)], producer := .loop, i := s.i + 1 } := by
  have hactive := h.active (by rw [hp]; simp [Producer.cell])
  have hcell := h.cell c (by rw [hp]; rfl)
  subst hcell
  have hq := h.qSize
  have hw := h.writeIdx
  have hb := h.busy
  rw [hp] at hq hw hb
  have hwhole : s.q.queue s.i = record s.i := by
    funext g
    have hfields : s.fields s.i = 3 := by simp [State.fields, hp, Producer.fields]
    rw [h.cells s.i (by omega) g, hfields, if_pos g.2]
  refine { h with
    i_le := hactive
    done := fun hp => by simp at hp
    active := fun hne => absurd rfl hne
    cell := fun c hc => by simp [Producer.cell] at hc
    fields_le := Nat.zero_le _
    qSize := hq
    writeIdx := hw
    busy := hb
    cells := ?_
    added := ?_ }
  · intro k hk g
    have hsame : State.fields { s with
        added := s.added ++ [(s.q.queue s.i, s.q.size)], producer := .loop, i := s.i + 1 } k =
          s.fields k := by
      simp only [State.fields, hp, Producer.fields]
      split_ifs <;> omega
    rw [hsame]
    exact h.cells k hk g
  · rw [List.map_append, h.added, hwhole, List.range_succ, List.map_append]
    rfl

theorem Inv.produce (h : Inv n count s) (hcount : count ≤ n) (hst : Produce count s t) :
    Inv n count t := by
  cases hst with
  | getNextToWrite hp hlt =>
      have hw := h.writeIdx
      rw [hp] at hw
      refine h.producer_moves _ s.q.writeIdx (fun hp => by simp at hp) (fun _ => hlt)
        (fun c hc => ?_) (by rw [hp]; rfl) (by rw [hp]; rfl) hw
      rw [← Option.some.inj hc, LFQueue.getNextToWrite, hw]
      exact Nat.mod_eq_of_lt (hlt.trans_le hcount)
  | @storeWriteIdx c hp =>
      have hw := h.writeIdx
      rw [hp] at hw
      refine h.producer_moves (.stored c) _ (fun hp => by simp at hp)
        (fun _ => h.active (by rw [hp]; simp [Producer.cell]))
        (fun c' hc => h.cell c' (by rw [hp]; exact hc)) (by rw [hp]; rfl) (by rw [hp]; rfl) ?_
      rw [hw, h.capacity, LFQueue.succ_idx]
      rfl
  | incSize hp => exact h.incSize hcount hp
  | writeField hf hp => exact h.writeField hf hp
  | print hp => exact h.printAdded hcount hp
  | exit hp hge =>
      have hw := h.writeIdx
      rw [hp] at hw
      exact h.producer_moves .exited s.q.writeIdx
        (fun _ => le_antisymm h.i_le (Nat.le_of_not_lt hge)) (fun hne => absurd rfl hne)
        (fun c hc => by simp [Producer.cell] at hc) (by rw [hp]; rfl) (by rw [hp]; rfl) hw

theorem Inv.published_le (h : Inv n count s) : s.i + s.producer.counted ≤ count := by
  cases hp : s.producer with
  | published c f => exact h.active (by rw [hp]; simp [Producer.cell])
  | loop | holding | stored | exited => exact h.i_le

/-- While the consumer is at a record, the record has a cell of its own. -/
theorem Inv.busy_lt (h : Inv n count s) (hcount : count ≤ n) (hbusy : s.consumer.Busy) :
    s.consumed.length < (n : ℕ) :=
  ((h.busy hbusy).trans_le h.published_le).trans_le hcount

theorem Inv.consumer_moves (h : Inv n count s) (c : Consumer) (readIdx : ℕ)
    (hcounted : c.counted = s.consumer.counted)
    (hbusy : s.consumed.length < s.i + s.producer.counted)
    (hpointer : ∀ p, c.cell = some p → p = some s.consumed.length)
    (hreading : ∀ p f d, c = .reading p f d →
      f ≤ 3 ∧ ∀ g : Fin 3, (g : ℕ) < f → d g = 0 ∨ d g = record s.consumed.length g)
    (hok : c ≠ .failed ∧ c ≠ .crashed)
    (hidx : readIdx = (s.consumed.length + c.ahead) % n) :
    Inv n count { s with q := { s.q with readIdx := readIdx }, consumer := c } :=
  { h with
    qSize := hcounted ▸ h.qSize
    readIdx := hidx
    busy := fun _ => hbusy
    pointer := hpointer
    reading := hreading
    ok := hok }

theorem Inv.decSize (h : Inv n count s) {c : Option ℕ} (hc : s.consumer = .stored c) :
    Inv n count { s with q := s.q.decSize, consumer := .reading c 0 default } := by
  have hbusy := h.busy (by rw [hc]; trivial)
  have hpointer := h.pointer c (by rw [hc]; rfl)
  have hq := h.qSize
  have hr := h.readIdx
  rw [hc] at hq hr
  change s.q.qSize + s.consumed.length = _ at hq
  refine { h with
    qSize := ?_
    readIdx := hr
    busy := fun _ => hbusy
    pointer := fun p hp => (Option.some.inj hp).symm.trans hpointer
    reading := ?_
    ok := by simp }
  · show predT s.q.qSize + (s.consumed.length + 1) = s.i + s.producer.counted
    rw [predT, if_neg (by omega)]
    omega
  · intro p f d hread
    rw [Consumer.reading.injEq] at hread
    obtain ⟨-, rfl, -⟩ := hread
    exact ⟨Nat.zero_le _, fun g hg => absurd hg (Nat.not_lt_zero _)⟩

theorem Inv.readField (h : Inv n count s) (hcount : count ≤ n) {c f : ℕ} {d : Data} (hf : f < 3)
    (hc : s.consumer = .reading (some c) f d) : Inv n count { s with
      consumer :=
        .reading (some c) (f + 1) (Function.update d ⟨f, hf⟩ (s.q.queue c ⟨f, hf⟩)) } := by
  have hbusy : s.consumer.Busy := by
    rw [hc]
    trivial
  have hpointer := h.pointer (some c) (by rw [hc]; rfl)
  have hcell : c = s.consumed.length := Option.some.inj hpointer
  have hr := h.readIdx
  rw [hc] at hr
  refine h.consumer_moves _ s.q.readIdx (by rw [hc]; rfl) (h.busy hbusy)
    (fun p hp => (Option.some.inj hp).symm.trans hpointer) ?_ (by simp) hr
  intro p f' d' hread
  rw [Consumer.reading.injEq] at hread
  obtain ⟨-, rfl, rfl⟩ := hread
  refine ⟨hf, fun g hg => ?_⟩
  by_cases hgf : g = ⟨f, hf⟩
  · subst hgf
    rw [Function.update_self, hcell]
    exact h.stale_cell (h.busy_lt hcount hbusy) _
  · have hne : (g : ℕ) ≠ f := fun e => hgf (Fin.ext e)
    rw [Function.update_of_ne hgf]
    exact (h.reading _ _ _ hc).2 g (by omega)

theorem Inv.printConsumed (h : Inv n count s) {c : ℕ} {d : Data}
    (hc : s.consumer = .reading (some c) 3 d) : Inv n count { s with
      consumed := s.consumed ++ [(d, s.q.size)], consumer := .loop } := by
  have hlen : (s.consumed ++ [(d, s.q.size)]).length = s.consumed.length + 1 := List.length_append
  have hq := h.qSize
  have hr := h.readIdx
  rw [hc] at hq hr
  have hread := (h.reading _ _ _ hc).2
  refine { h with
    qSize := ?_
    readIdx := ?_
    busy := fun hb => False.elim hb
    pointer := fun p hp => by simp [Consumer.cell] at hp
    reading := fun p f d hp => by simp at hp
    stale := ?_
    ok := by simp }
  · show s.q.qSize + ((s.consumed ++ [(d, s.q.size)]).length + 0) = s.i + s.producer.counted
    rw [hlen]
    exact hq
  · show s.q.readIdx = ((s.consumed ++ [(d, s.q.size)]).length + 0) % n
    rw [hlen]
    exact hr
  · intro k l hl
    by_cases hk : k < s.consumed.length
    · rw [List.getElem?_append_left hk] at hl
      exact h.stale k l hl
    · have hlt : k < s.consumed.length + 1 := hlen ▸ (List.getElem?_eq_some_iff.mp hl).1
      have heq : k = s.consumed.length := by omega
      subst heq
      rw [List.getElem?_append_right le_rfl, Nat.sub_self, List.getElem?_cons_zero,
        Option.some.injEq] at hl
      subst hl
      exact fun g => hread g g.2

theorem Inv.consume (h : Inv n count s) (hcount : count ≤ n) (hst : Consume s t) :
    Inv n count t := by
  cases hst with
  | loadSize hc hsize =>
      have hq := h.qSize
      have hr := h.readIdx
      rw [hc] at hq hr
      have hpos : s.q.qSize ≠ 0 := hsize
      change s.q.qSize + s.consumed.length = _ at hq
      exact h.consumer_moves .nonEmpty s.q.readIdx (by rw [hc]; rfl) (by omega)
        (fun p hp => by simp [Consumer.cell] at hp) (fun p f d hp => by simp at hp) (by simp) hr
  | exit hc hsize =>
      have hq := h.qSize
      have hr := h.readIdx
      rw [hc] at hq hr
      exact { h with
        qSize := hq
        readIdx := hr
        busy := fun hb => False.elim hb
        pointer := fun p hp => by simp [Consumer.cell] at hp
        reading := fun p f d hp => by simp at hp
        ok := by simp }
  | getNextToRead hc =>
      have hbusy : s.consumer.Busy := by
        rw [hc]
        trivial
      have hq := h.qSize
      have hr := h.readIdx
      rw [hc] at hq hr
      change s.q.qSize + s.consumed.length = _ at hq
      have hlt := h.busy hbusy
      have hsize : s.q.size ≠ 0 := by
        show s.q.qSize ≠ 0
        omega
      have hidx : s.q.readIdx = s.consumed.length :=
        hr.trans (Nat.mod_eq_of_lt (h.busy_lt hcount hbusy))
      refine h.consumer_moves (.holding s.q.getNextToRead) s.q.readIdx (by rw [hc]; rfl) hlt
        (fun p hp => ?_) (fun p f d hp => by simp at hp) (by simp) hr
      rw [← Option.some.inj hp, LFQueue.getNextToRead, if_neg hsize, hidx]
  | @check c hc hpos =>
      have hr := h.readIdx
      rw [hc] at hr
      exact h.consumer_moves (.checked c) s.q.readIdx (by rw [hc]; rfl)
        (h.busy (by rw [hc]; trivial)) (fun p hp => h.pointer p (by rw [hc]; exact hp))
        (fun p f d hp => by simp at hp) (by simp) hr
  | fail hc hpos =>
      have hq := h.qSize
      have hlt := h.busy (by rw [hc]; trivial)
      rw [hc] at hq
      change s.q.qSize + s.consumed.length = _ at hq
      omega
  | @storeReadIdx c hc =>
      have hr := h.readIdx
      rw [hc] at hr
      refine h.consumer_moves (.stored c) _ (by rw [hc]; rfl)
        (h.busy (by rw [hc]; trivial)) (fun p hp => h.pointer p (by rw [hc]; exact hp))
        (fun p f d hp => by simp at hp) (by simp) ?_
      rw [hr, h.capacity, LFQueue.succ_idx]
      rfl
  | decSize hc => exact h.decSize hc
  | readField hf hc => exact h.readField hcount hf hc
  | crash hc =>
      have hpointer := h.pointer none (by rw [hc]; rfl)
      contradiction
  | print hc => exact h.printConsumed hc

theorem inv_of_reachable (hcount : count ≤ n) (h : (system n count).Reachable s) :
    Inv n count s := by
  refine h.invariant (Inv n count) ?_ ?_
  · rintro s rfl
    exact inv_start n count
  · rintro s t hs (hst | hst)
    · exact hs.produce hcount hst
    · exact hs.consume hcount hst

end LFQueueExample

end LowLatency.Common
