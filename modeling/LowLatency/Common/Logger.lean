import LowLatency.Common.ProducerConsumer

/-!
`logging.hpp`: the logger.

`pushValue` puts tagged unions into a queue, a thread of the logger writes them
to the file, and the destructor waits until the queue is empty before it has
this thread stop and closes the file. The queue between the two threads is the
one of `ProducerConsumer`; what the flush thread does in addition, the flag and
the two tests of the size, is not seen by it.
-/

namespace LowLatency.Common

open LowLatency.Lib

inductive LogType
  | char
  | integer
  | longInteger
  | longLongInteger
  | unsignedInteger
  | unsignedLongInteger
  | unsignedLongLongInteger
  | float
  | double
  deriving DecidableEq

/-- The union of a `LogElement`: the member that was stored, with its value. A
floating-point value is known by its bits. -/
inductive LogUnion
  | c (value : Int8)
  | i (value : Int32)
  | l (value : Int64)
  | ll (value : Int64)
  | u (value : UInt32)
  | ul (value : UInt64)
  | ull (value : UInt64)
  | f (bits : UInt32)
  | d (bits : UInt64)
  deriving DecidableEq

structure LogElement where
  logType : LogType := .char
  u : LogUnion
  deriving DecidableEq

instance : Inhabited LogElement := ⟨{ u := .c 0 }⟩

/-- A call of one of the overloads of `pushValue`. A C string is given by its
bytes, of which the code reads those before the first null. -/
inductive PushValue
  | element (log_element : LogElement)
  | char (value : Int8)
  | int (value : Int32)
  | long (value : Int64)
  | longLong (value : Int64)
  | unsigned (value : UInt32)
  | unsignedLong (value : UInt64)
  | unsignedLongLong (value : UInt64)
  | float (bits : UInt32)
  | double (bits : UInt64)
  | cString (value : List Int8)
  | string (value : List Int8)

/-- `while (*value) { pushValue(*value); ++value; }`. -/
def pushChars (value : List Int8) : List LogElement :=
  (value.takeWhile (· ≠ 0)).map fun c => ⟨.char, .c c⟩

def PushValue.elements : PushValue → List LogElement
  | .element log_element => [log_element]
  | .char value => [⟨.char, .c value⟩]
  | .int value => [⟨.integer, .i value⟩]
  | .long value => [⟨.longInteger, .l value⟩]
  | .longLong value => [⟨.longLongInteger, .ll value⟩]
  | .unsigned value => [⟨.unsignedInteger, .u value⟩]
  | .unsignedLong value => [⟨.unsignedLongInteger, .ul value⟩]
  | .unsignedLongLong value => [⟨.unsignedLongLongInteger, .ull value⟩]
  | .float bits => [⟨.float, .f bits⟩]
  | .double bits => [⟨.double, .d bits⟩]
  | .cString value => pushChars value
  | .string value => pushChars value

/-- The `switch` of `flushQueue`: the member that goes to the file. It has no
meaning to read another member than the one stored. -/
def LogElement.written (e : LogElement) : Option LogUnion :=
  match e.logType, e.u with
  | .char, .c value => some (.c value)
  | .integer, .i value => some (.i value)
  | .longInteger, .l value => some (.l value)
  | .longLongInteger, .ll value => some (.ll value)
  | .unsignedInteger, .u value => some (.u value)
  | .unsignedLongInteger, .ul value => some (.ul value)
  | .unsignedLongLongInteger, .ull value => some (.ull value)
  | .float, .f bits => some (.f bits)
  | .double, .d bits => some (.d bits)
  | _, _ => none

/-- Tags and members agree between the `switch` and all overloads that store a
member; an element that comes as such is the caller's. -/
theorem written_of_elements {call : PushValue} {e : LogElement} (h : e ∈ call.elements) :
    e.written = some e.u ∨ call = .element e := by
  cases call with
  | element log_element =>
      rw [PushValue.elements, List.mem_singleton] at h
      exact .inr (by rw [h])
  | cString value | string value =>
      obtain ⟨c, -, rfl⟩ := List.mem_map.mp h
      exact .inl rfl
  | _ =>
      rw [PushValue.elements, List.mem_singleton] at h
      exact .inl (by rw [h]; rfl)

namespace Logger

/-- Where the flush thread stands. From `testSize` on it has the pointer of the
last `getNextToRead`. -/
inductive Flusher
  | testRunning
  | getNextToRead
  | sizeSeen
  | testSize (next : Option ℕ)
  | holding (cell : ℕ)
  | written (cell : ℕ)
  | checked (cell : ℕ)
  | stored (cell : ℕ)
  | flushing
  | exited
  | failed
  deriving DecidableEq

inductive Destructor
  | notStarted
  | testSize
  | sizeZero
  | joining
  | joined
  | closed
  deriving DecidableEq

/-- The state of both threads. `elements` are those the `switch` was run on, as
they were read from the queue. -/
structure State where
  q : LFQueue (Option LogElement)
  producer : ProducerConsumer.Producer
  next : ℕ
  flusher : Flusher
  elements : List (Option LogElement)
  running : Bool
  destructor : Destructor

def State.fout (s : State) : List (Option LogUnion) :=
  s.elements.map fun e => e.bind LogElement.written

/-- The atomic steps, when the elements `vals` are pushed and the destructor is
called after that. Waiting changes nothing and is not listed. -/
inductive Step (vals : List LogElement) : State → State → Prop
  | push {s : State} {q producer next} :
      ProducerConsumer.PushStep vals s.q s.producer s.next q producer next →
      Step vals s { s with q := q, producer := producer, next := next }
  | enter {s : State} : s.flusher = .testRunning → s.running = true →
      Step vals s { s with flusher := .getNextToRead }
  | leave {s : State} : s.flusher = .testRunning → s.running = false →
      Step vals s { s with flusher := .exited }
  | getNull {s : State} : s.flusher = .getNextToRead → s.q.size = 0 →
      Step vals s { s with flusher := .testSize none }
  | seeSize {s : State} : s.flusher = .getNextToRead → s.q.size ≠ 0 →
      Step vals s { s with flusher := .sizeSeen }
  | getNextToRead {s : State} : s.flusher = .sizeSeen →
      Step vals s { s with flusher := .testSize (some s.q.readIdx) }
  | sizeZero {s : State} {next} : s.flusher = .testSize next → s.q.size = 0 →
      Step vals s { s with flusher := .flushing }
  | nextNull {s : State} : s.flusher = .testSize none → s.q.size ≠ 0 →
      Step vals s { s with flusher := .flushing }
  | useNext {s : State} {c} : s.flusher = .testSize (some c) → s.q.size ≠ 0 →
      Step vals s { s with flusher := .holding c }
  | write {s : State} {c} : s.flusher = .holding c →
      Step vals s { s with elements := s.elements ++ [s.q.queue c], flusher := .written c }
  | check {s : State} {c} : s.flusher = .written c → s.q.qSize > 0 →
      Step vals s { s with flusher := .checked c }
  | fail {s : State} {c} : s.flusher = .written c → ¬ s.q.qSize > 0 →
      Step vals s { s with flusher := .failed }
  | storeReadIdx {s : State} {c} : s.flusher = .checked c →
      Step vals s { s with q := s.q.storeReadIdx, flusher := .stored c }
  | decSize {s : State} {c} : s.flusher = .stored c →
      Step vals s { s with q := s.q.decSize, flusher := .getNextToRead }
  | flush {s : State} : s.flusher = .flushing → Step vals s { s with flusher := .testRunning }
  | destroy {s : State} : s.destructor = .notStarted → s.producer = .idle →
      s.next = vals.length → Step vals s { s with destructor := .testSize }
  | seeEmpty {s : State} : s.destructor = .testSize → s.q.size = 0 →
      Step vals s { s with destructor := .sizeZero }
  | stop {s : State} : s.destructor = .sizeZero →
      Step vals s { s with running := false, destructor := .joining }
  | join {s : State} : s.destructor = .joining → s.flusher = .exited →
      Step vals s { s with destructor := .joined }
  | close {s : State} : s.destructor = .joined → Step vals s { s with destructor := .closed }

def start (n : Capacity) : State :=
  ⟨.ofSize n, .idle, 0, .testRunning, [], true, .notStarted⟩

def system (n : Capacity) (calls : List PushValue) : System State where
  init s := s = start n
  step := Step (calls.flatMap PushValue.elements)

/-! ### The queue inside the logger -/

/-- The flush thread as a consumer: the pointer counts from the moment it is
fetched to the end of `updateReadIdx`. -/
def Flusher.consumer : Flusher → ProducerConsumer.Consumer
  | .sizeSeen => .nonEmpty
  | .testSize (some c) => .holding c
  | .holding c => .holding c
  | .written c => .used c
  | .checked c => .checked c
  | .stored c => .stored c
  | .failed => .failed
  | _ => .idle

def State.toQueue (s : State) : ProducerConsumer.State LogElement :=
  ⟨s.q, s.producer, s.next, s.flusher.consumer, s.elements⟩

/-- A pointer that was fetched is never dropped: the count is raised by the
producer only. -/
theorem size_ne_zero {n : Capacity} {calls : List PushValue} {s : State}
    (h : (ProducerConsumer.system n (calls.flatMap PushValue.elements)).Reachable s.toQueue)
    {c : ℕ} (hc : s.flusher = .testSize (some c)) : s.q.size ≠ 0 := by
  obtain ⟨r, hinv⟩ := ProducerConsumer.exists_inv h
  have hlt := hinv.reading (by simp [State.toQueue, hc, Flusher.consumer])
  have hq := hinv.qSize
  intro hsize
  have hzero : s.toQueue.q.qSize = 0 := hsize
  omega

theorem reachable_toQueue {n : Capacity} {calls : List PushValue} {s : State}
    (h : (system n calls).Reachable s) :
    (ProducerConsumer.system n (calls.flatMap PushValue.elements)).Reachable s.toQueue := by
  apply h.map State.toQueue
  · rintro s rfl
    rfl
  · intro s t _ hq hst
    cases hst with
    | push hp => exact .inr (hp.step _ _)
    | enter hf _ | leave hf _ | getNull hf _ | nextNull hf _ | useNext hf _ | flush hf =>
        exact .inl (by simp [State.toQueue, hf, Flusher.consumer])
    | seeSize hf hsize => exact .inr (.loadSize (congrArg Flusher.consumer hf) hsize)
    | getNextToRead hf => exact .inr (.getNextToRead (congrArg Flusher.consumer hf))
    | @sizeZero next hf hsize =>
        cases next with
        | none => exact .inl (by simp [State.toQueue, hf, Flusher.consumer])
        | some c => exact absurd hsize (size_ne_zero hq hf)
    | write hf => exact .inr (.use (congrArg Flusher.consumer hf))
    | check hf hsize => exact .inr (.check (congrArg Flusher.consumer hf) hsize)
    | fail hf hsize => exact .inr (.fail (congrArg Flusher.consumer hf) hsize)
    | storeReadIdx hf => exact .inr (.storeReadIdx (congrArg Flusher.consumer hf))
    | decSize hf => exact .inr (.decSize (congrArg Flusher.consumer hf))
    | destroy | seeEmpty | stop | join | close => exact .inl rfl

/-! ### The shutdown -/

/-- What the destructor knows where it stands: nothing is pushed any more, and
once it has seen the count at zero, everything has been through the `switch`. -/
structure Closing (vals : List LogElement) (s : State) : Prop where
  pushed : s.destructor ≠ .notStarted → s.producer = .idle ∧ s.next = vals.length
  drained : s.destructor ≠ .notStarted → s.destructor ≠ .testSize →
    vals.length ≤ s.elements.length

/-- A count of zero means that all elements sent were also written: the flush
thread lowers the count after it has written. -/
theorem next_le_of_empty {n : Capacity} {calls : List PushValue} {s : State}
    (h : (system n calls).Reachable s) (hsize : s.q.size = 0) :
    s.next ≤ s.elements.length := by
  obtain ⟨r, hinv⟩ := ProducerConsumer.exists_inv (reachable_toQueue h)
  have hq : s.q.qSize + r = s.next := hinv.qSize
  have hu : s.elements.length = r + s.flusher.consumer.inHand := hinv.used_length
  have hzero : s.q.qSize = 0 := hsize
  omega

theorem Closing.step {n : Capacity} {calls : List PushValue} {s t : State}
    (h : Closing (calls.flatMap PushValue.elements) s) (hs : (system n calls).Reachable s)
    (hst : Step (calls.flatMap PushValue.elements) s t) :
    Closing (calls.flatMap PushValue.elements) t := by
  cases hst with
  | push hp =>
      -- with everything pushed there is no step of the producer left
      have hnone : s.destructor = .notStarted := by
        by_contra hd
        obtain ⟨hidle, hnext⟩ := h.pushed hd
        rw [hidle, hnext] at hp
        cases hp with
        | seeRoom hlt _ => exact lt_irrefl _ hlt
      exact ⟨fun hd => absurd hnone hd, fun hd _ => absurd hnone hd⟩
  | write hf =>
      refine ⟨h.pushed, fun hd ht => (h.drained hd ht).trans ?_⟩
      rw [List.length_append]
      exact Nat.le_add_right _ _
  | destroy hd hp hnext => exact ⟨fun _ => ⟨hp, hnext⟩, fun _ ht => absurd rfl ht⟩
  | seeEmpty hd hsize =>
      have hpushed := h.pushed (by simp [hd])
      refine ⟨fun _ => hpushed, fun _ _ => ?_⟩
      rw [← hpushed.2]
      exact next_le_of_empty hs hsize
  | stop hd | join hd _ | close hd =>
      have hpushed := h.pushed (by simp [hd])
      have hdrained := h.drained (by simp [hd]) (by simp [hd])
      exact ⟨fun _ => hpushed, fun _ _ => hdrained⟩
  | _ => exact ⟨h.pushed, h.drained⟩

theorem closing_of_reachable {n : Capacity} {calls : List PushValue} {s : State}
    (h : (system n calls).Reachable s) : Closing (calls.flatMap PushValue.elements) s := by
  induction h with
  | init hs =>
      subst hs
      exact ⟨fun hd => absurd rfl hd, fun hd _ => absurd rfl hd⟩
  | step hs hst ih => exact ih.step hs hst

/-! ### Runs to the end -/

/-- Everything sent has been written, and nothing else goes on. -/
structure Quiet (s : State) (k : ℕ) : Prop where
  flusher : s.flusher = .getNextToRead
  producer : s.producer = .idle
  next : s.next = k
  size : s.q.qSize = 0
  destructor : s.destructor = .notStarted

/-- The flush thread can take each element before the next is sent. -/
theorem exists_quiet (n : Capacity) (pushes : List PushValue) {k : ℕ}
    (hk : k ≤ (pushes.flatMap PushValue.elements).length) :
    ∃ s, (system n pushes).Reachable s ∧ Quiet s k := by
  induction k with
  | zero =>
      have hstart : (system n pushes).Reachable (start n) := .init rfl
      exact ⟨_, hstart.step (.enter rfl rfl), ⟨rfl, rfl, rfl, rfl, rfl⟩⟩
  | succ k ih =>
      obtain ⟨⟨q, producer, next, flusher, elements, running, destructor⟩, h₀, hquiet⟩ :=
        ih (Nat.le_of_succ_le hk)
      obtain ⟨hflusher, hproducer, hnext, hsize, hdestructor⟩ := hquiet
      dsimp only at hflusher hproducer hnext hsize hdestructor
      subst hflusher hproducer hnext hdestructor
      have hroom : q.size < q.capacity := by
        rw [LFQueue.size, hsize]
        exact q.capacity.2.1
      have hone : succT q.qSize = 1 := by rw [hsize]; rfl
      have hne : succT q.qSize ≠ 0 := hone ▸ Nat.one_ne_zero
      have h₁ := h₀.step (.push (.seeRoom hk hroom))
      have h₂ := h₁.step (.push .getNextToWrite)
      have h₃ := h₂.step (.push .beginWrite)
      have h₄ := h₃.step (.push .endWrite)
      have h₅ := h₄.step (.push .storeWriteIdx)
      have h₆ := h₅.step (.push .incSize)
      have h₇ := h₆.step (.seeSize rfl hne)
      have h₈ := h₇.step (.getNextToRead rfl)
      have h₉ := h₈.step (.useNext rfl hne)
      have h₁₀ := h₉.step (.write rfl)
      have h₁₁ := h₁₀.step (.check rfl (Nat.pos_of_ne_zero hne))
      have h₁₂ := h₁₁.step (.storeReadIdx rfl)
      refine ⟨_, h₁₂.step (.decSize rfl), ⟨rfl, rfl, rfl, ?_, rfl⟩⟩
      show predT (succT q.qSize) = 0
      rw [hone]
      rfl

theorem exists_closed (n : Capacity) (pushes : List PushValue) :
    ∃ s, (system n pushes).Reachable s ∧ s.destructor = .closed := by
  obtain ⟨⟨q, producer, next, flusher, elements, running, destructor⟩, h₀, hquiet⟩ :=
    exists_quiet n pushes le_rfl
  obtain ⟨hflusher, hproducer, hnext, hsize, hdestructor⟩ := hquiet
  dsimp only at hflusher hproducer hnext hsize hdestructor
  subst hflusher hproducer hdestructor
  have h₁ := h₀.step (.destroy rfl rfl hnext)
  have h₂ := h₁.step (.seeEmpty rfl hsize)
  have h₃ := h₂.step (.stop rfl)
  have h₄ := h₃.step (.getNull rfl hsize)
  have h₅ := h₄.step (.sizeZero rfl hsize)
  have h₆ := h₅.step (.flush rfl)
  have h₇ := h₆.step (.leave rfl rfl)
  have h₈ := h₇.step (.join rfl rfl)
  exact ⟨_, h₈.step (.close rfl), rfl⟩

/-! ### The file -/

/-- Everything pushed has been written when the file is closed. -/
theorem elements_at_close {n : Capacity} {calls : List PushValue} {s : State}
    (h : (system n calls).Reachable s) (hclosed : s.destructor = .closed) :
    s.elements = (calls.flatMap PushValue.elements).map some := by
  have hclosing := closing_of_reachable h
  obtain ⟨-, hnext⟩ := hclosing.pushed (by simp [hclosed])
  have hdrained := hclosing.drained (by simp [hclosed]) (by simp [hclosed])
  have hprefix : s.elements <+: ((calls.flatMap PushValue.elements).take s.next).map some :=
    ProducerConsumer.used_isPrefix (reachable_toQueue h)
  rw [hnext, List.take_length] at hprefix
  exact hprefix.eq_of_length_le (by rwa [List.length_map])

/-- **The logger drains everything before it closes.** When the destructor has
closed the file, the elements pushed have been written, in order and each once,
and through the member that was stored. -/
theorem drained_at_close {n : Capacity} {calls : List PushValue} {s : State}
    (h : (system n calls).Reachable s) (hclosed : s.destructor = .closed) :
    s.elements = (calls.flatMap PushValue.elements).map some ∧
      s.fout = (calls.flatMap PushValue.elements).map LogElement.written ∧
      ∀ call ∈ calls, ∀ e ∈ call.elements, e.written = some e.u ∨ call = .element e := by
  have helements := elements_at_close h hclosed
  refine ⟨helements, ?_, fun call _ e he => written_of_elements he⟩
  rw [State.fout, helements, List.map_map]
  rfl

/-- Five elements by four overloads, through two cells. -/
theorem drained_at_close_four :
    ∃ s : State,
      (system ⟨2, by decide⟩
        [.int 7, .string [97, 98], .unsignedLong 9, .char 37]).Reachable s ∧
      s.destructor = .closed ∧
      s.elements = [some ⟨.integer, .i 7⟩, some ⟨.char, .c 97⟩, some ⟨.char, .c 98⟩,
        some ⟨.unsignedLongInteger, .ul 9⟩, some ⟨.char, .c 37⟩] ∧
      s.fout = [some (.i 7), some (.c 97), some (.c 98), some (.ul 9), some (.c 37)] := by
  obtain ⟨s, hs, hclosed⟩ :=
    exists_closed ⟨2, by decide⟩ [.int 7, .string [97, 98], .unsignedLong 9, .char 37]
  obtain ⟨helements, hfout, -⟩ := drained_at_close hs hclosed
  exact ⟨s, hs, hclosed, helements.trans (by decide), hfout.trans (by decide)⟩

end Logger

end LowLatency.Common
