import LowLatency.Lib.ThreadPool
import LowLatency.Common.ProducerConsumer
import LowLatency.Exchange.Messages

/-!
`matching_engine.cpp`: `start`, `stop` and the loops of `run`.

`start` sets the flag and launches a thread, `stop` clears the flag, and neither
waits for a thread that is still in its loop. How many loops read the queue is
therefore a matter of timing, and the queue is made for one reader:
`processed_twice` is a restart after which two threads process one request.

What a run needs is that a thread finds a request only when no other thread is
on one (`Alone`). Then the thread that is on a request is the consumer of
`ProducerConsumer`, whichever thread that is. A caller gets this by launching
a thread only when the earlier ones have left their loops (`AfterExit`).
-/

namespace LowLatency.Exchange

open LowLatency.Lib LowLatency.Common

namespace StartStop

/-- Where an engine thread stands in `run`, with the cell of its request and the
index it is about to store. In `failed` the `ASSERT` of `updateReadIdx` has
fired, which ends the process; here the other threads may still step. -/
inductive Thread
  | testRun
  | getNextToRead
  | sizeSeen
  | holding (cell : ℕ)
  | processed (cell : ℕ)
  | checked (cell : ℕ)
  | incremented (cell idx : ℕ)
  | stored (cell : ℕ)
  | exited
  | failed
  deriving DecidableEq

/-- The engine with everything that runs on its queue. `starting` counts the
calls of `start` that have set the flag and not yet launched, `processed` are
the requests passed to `processClientRequest`. -/
structure State where
  incomingRequests : LFQueue (Option MEClientRequest)
  producer : ProducerConsumer.Producer
  next : ℕ
  run : Bool
  starting : ℕ
  threads : List Thread
  processed : List (Option MEClientRequest)

/-- The atomic steps of one thread in `run`, on the queue, where it stands and
the requests processed. -/
inductive RunStep (run : Bool) : LFQueue (Option MEClientRequest) → Thread →
    List (Option MEClientRequest) → LFQueue (Option MEClientRequest) → Thread →
    List (Option MEClientRequest) → Prop
  | enter {q l} : run = true → RunStep run q .testRun l q .getNextToRead l
  | leave {q l} : run = false → RunStep run q .testRun l q .exited l
  | getNull {q l} : q.size = 0 → RunStep run q .getNextToRead l q .testRun l
  | seeSize {q l} : q.size ≠ 0 → RunStep run q .getNextToRead l q .sizeSeen l
  | getNextToRead {q l} : RunStep run q .sizeSeen l q (.holding q.readIdx) l
  | processClientRequest {q l c} :
      RunStep run q (.holding c) l q (.processed c) (l ++ [q.queue c])
  | check {q l c} : q.qSize > 0 → RunStep run q (.processed c) l q (.checked c) l
  | fail {q l c} : ¬ q.qSize > 0 → RunStep run q (.processed c) l q .failed l
  -- another thread can come between the load of the index and its store
  | incReadIdx {q l c} :
      RunStep run q (.checked c) l q (.incremented c (succT q.readIdx % q.capacity)) l
  | storeReadIdx {q l c idx} :
      RunStep run q (.incremented c idx) l { q with readIdx := idx } (.stored c) l
  | decSize {q l c} : RunStep run q (.stored c) l q.decSize .testRun l

inductive Action
  | enqueue
  | start
  | launch
  | stop
  | run (thread : ℕ)

/-- The atomic steps of all parties, when the producer has `requests` to enqueue.
A call of `start` is the two steps `start` and `launch`. -/
inductive Step (requests : List MEClientRequest) : Action → State → State → Prop
  | enqueue {s : State} {q producer next} :
      ProducerConsumer.PushStep requests s.incomingRequests s.producer s.next q producer next →
      Step requests .enqueue s
        { s with incomingRequests := q, producer := producer, next := next }
  | start {s : State} :
      Step requests .start s { s with run := true, starting := s.starting + 1 }
  | launch {s : State} : 0 < s.starting →
      Step requests .launch s
        { s with starting := s.starting - 1, threads := s.threads ++ [.testRun] }
  | stop {s : State} : Step requests .stop s { s with run := false }
  | run {s : State} {k p q p' l} : s.threads[k]? = some p →
      RunStep s.run s.incomingRequests p s.processed q p' l →
      Step requests (.run k) s
        { s with incomingRequests := q, threads := s.threads.set k p', processed := l }

def start (n : Capacity) : State := ⟨.ofSize n, .idle, 0, false, 0, [], []⟩

/-- The runs in which every step meets a condition on it and the state before. -/
def system (allowed : Action → State → Prop) (n : Capacity)
    (requests : List MEClientRequest) : System State where
  init s := s = start n
  step s t := ∃ a, allowed a s ∧ Step requests a s t

def Thread.consumer : Thread → ProducerConsumer.Consumer
  | .testRun | .getNextToRead | .exited => .idle
  | .sizeSeen => .nonEmpty
  | .holding c => .holding c
  | .processed c => .used c
  | .checked c | .incremented c _ => .checked c
  | .stored c => .stored c
  | .failed => .failed

def anyOrder : Action → State → Prop := fun _ _ => True

/-- A thread that is about to find the queue not empty is alone: no other is
between this point and the end of `updateReadIdx`. -/
def Alone (a : Action) (s : State) : Prop :=
  ∀ k, a = .run k → s.threads[k]? = some .getNextToRead → s.incomingRequests.size ≠ 0 →
    Others (fun p => p.consumer = .idle) s.threads k

/-- When a thread is launched, all earlier ones have left their loops. -/
def AfterExit (a : Action) (s : State) : Prop :=
  a = .launch → ∀ p ∈ s.threads, p = .exited

/-! ### One consumer at a time -/

/-- The queue with its producer and the `i`-th thread. -/
def State.toQueue (s : State) (i : ℕ) : ProducerConsumer.State MEClientRequest :=
  ⟨s.incomingRequests, s.producer, s.next, viewAt Thread.consumer .idle s.threads i,
    s.processed⟩

/-- No thread but the `i`-th is on a request. -/
structure Inv (n : Capacity) (requests : List MEClientRequest) (s : State) (i : ℕ) : Prop where
  others : Others (fun p => p.consumer = .idle) s.threads i
  queue : (ProducerConsumer.system n requests).Reachable (s.toQueue i)
  idx : ∀ c idx, s.threads[i]? = some (.incremented c idx) →
    idx = succT s.incomingRequests.readIdx % s.incomingRequests.capacity

variable {n : Capacity} {requests : List MEClientRequest} {s t : State} {i k : ℕ}

theorem inv_start : Inv n requests (start n) 0 where
  others := fun j p _ hp => absurd hp (by simp [start])
  queue := .init rfl
  idx := fun c idx h => absurd h (by simp [start])

/-- A thread that is alone can take the place of the one that was on requests
before. -/
theorem Inv.turn (h : Inv n requests s i)
    (hk : Others (fun p => p.consumer = .idle) s.threads k) : Inv n requests s k := by
  by_cases hik : i = k
  · rwa [← hik]
  have hi : viewAt Thread.consumer .idle s.threads i = .idle :=
    viewAt_eq_idle fun p hp => hk i p hik hp
  have hk' : viewAt Thread.consumer .idle s.threads k = .idle :=
    viewAt_eq_idle fun p hp => h.others k p (Ne.symm hik) hp
  refine ⟨hk, ?_, fun c idx hp => ?_⟩
  · have hq := h.queue
    rw [State.toQueue, hi] at hq
    rwa [State.toQueue, hk']
  · have hidle := h.others k _ (Ne.symm hik) hp
    simp [Thread.consumer] at hidle

theorem RunStep.consumer_step {run : Bool} {q q' : LFQueue (Option MEClientRequest)}
    {p p' : Thread} {l l' : List (Option MEClientRequest)} (h : RunStep run q p l q' p' l')
    (hidx : ∀ c idx, p = .incremented c idx → idx = succT q.readIdx % q.capacity)
    (requests : List MEClientRequest) (producer : ProducerConsumer.Producer) (next : ℕ) :
    (⟨q', producer, next, p'.consumer, l'⟩ : ProducerConsumer.State MEClientRequest) =
        ⟨q, producer, next, p.consumer, l⟩ ∨
      ProducerConsumer.Step requests ⟨q, producer, next, p.consumer, l⟩
        ⟨q', producer, next, p'.consumer, l'⟩ := by
  cases h with
  | enter | leave | getNull | incReadIdx => exact .inl rfl
  | seeSize hsize => exact .inr (.loadSize rfl hsize)
  | getNextToRead => exact .inr (.getNextToRead rfl)
  | processClientRequest => exact .inr (.use rfl)
  | check hsize => exact .inr (.check rfl hsize)
  | fail hsize => exact .inr (.fail rfl hsize)
  | storeReadIdx =>
      rw [hidx _ _ rfl]
      exact .inr (.storeReadIdx rfl)
  | decSize => exact .inr (.decSize rfl)

theorem RunStep.idx_eq {run : Bool} {q q' : LFQueue (Option MEClientRequest)}
    {p : Thread} {l l' : List (Option MEClientRequest)} {c idx : ℕ}
    (h : RunStep run q p l q' (.incremented c idx) l') :
    idx = succT q'.readIdx % q'.capacity := by
  cases h
  rfl

theorem RunStep.idle {run : Bool} {q q' : LFQueue (Option MEClientRequest)}
    {p p' : Thread} {l l' : List (Option MEClientRequest)} (h : RunStep run q p l q' p' l')
    (hp : p.consumer = .idle) :
    (p = .getNextToRead ∧ q.size ≠ 0) ∨ (p'.consumer = .idle ∧ q' = q ∧ l' = l) := by
  cases h with
  | enter | leave | getNull => exact .inr ⟨rfl, rfl, rfl⟩
  | seeSize hsize => exact .inl ⟨rfl, hsize⟩
  | _ => simp [Thread.consumer] at hp

theorem Inv.run_self (h : Inv n requests s i) {p p' : Thread}
    {q : LFQueue (Option MEClientRequest)} {l : List (Option MEClientRequest)}
    (hp : s.threads[i]? = some p)
    (hst : RunStep s.run s.incomingRequests p s.processed q p' l) :
    Inv n requests
      { s with incomingRequests := q, threads := s.threads.set i p', processed := l } i := by
  have hq := h.queue
  rw [State.toQueue, viewAt_eq hp] at hq
  have hidx : ∀ c idx, p = .incremented c idx →
      idx = succT s.incomingRequests.readIdx % s.incomingRequests.capacity :=
    fun c idx e => h.idx c idx (hp.trans (congrArg some e))
  have hlt := (List.getElem?_eq_some_iff.mp hp).1
  refine ⟨h.others.set_self p', ?_, fun c idx hget => ?_⟩
  · rw [State.toQueue]
    dsimp only
    rw [viewAt_set_self hp]
    rcases hst.consumer_step hidx requests s.producer s.next with heq | hstep
    · rwa [heq]
    · exact hq.step hstep
  · dsimp only at hget
    rw [List.getElem?_set_self hlt, Option.some.injEq] at hget
    subst hget
    exact hst.idx_eq

theorem Inv.run_idle (h : Inv n requests s i) {p' : Thread} (hk : k ≠ i)
    (hp' : p'.consumer = .idle) :
    Inv n requests { s with threads := s.threads.set k p' } i where
  others := h.others.set hp' k
  queue := by
    rw [State.toQueue]
    dsimp only
    rw [viewAt_set_of_ne hk]
    exact h.queue
  idx := fun c idx hget => by
    dsimp only at hget
    rw [List.getElem?_set_ne hk] at hget
    exact h.idx c idx hget

theorem Inv.step {a : Action} (h : Inv n requests s i) (ha : Alone a s)
    (hst : Step requests a s t) : ∃ j, Inv n requests t j := by
  cases hst with
  | @enqueue _ q producer next hp =>
      refine ⟨i, h.others, h.queue.step (hp.step _ _), fun c idx hget => ?_⟩
      show idx = succT q.readIdx % q.capacity
      rw [hp.readIdx_eq, hp.capacity_eq]
      exact h.idx c idx hget
  | start | stop => exact ⟨i, h.others, h.queue, h.idx⟩
  | launch =>
      refine ⟨i, h.others.launch rfl, ?_, fun c idx hget => ?_⟩
      · rw [State.toQueue]
        dsimp only
        rw [viewAt_launch (show Thread.testRun.consumer = .idle from rfl)]
        exact h.queue
      · rcases getElem?_launch hget with hget | ⟨-, hnew⟩
        · exact h.idx c idx hget
        · contradiction
  | @run _ k p q p' l hp hrun =>
      by_cases hk : k = i
      · subst hk
        exact ⟨k, h.run_self hp hrun⟩
      have hidle : p.consumer = .idle := h.others k p hk hp
      rcases hrun.idle hidle with ⟨rfl, hsize⟩ | ⟨hp', rfl, rfl⟩
      · -- the thread finds a request, and the others are on none
        exact ⟨k, (h.turn (ha k rfl hp hsize)).run_self hp hrun⟩
      · exact ⟨i, h.run_idle hk hp'⟩

theorem exists_inv (h : (system Alone n requests).Reachable s) : ∃ i, Inv n requests s i := by
  refine h.invariant (fun s => ∃ i, Inv n requests s i) ?_ ?_
  · rintro s rfl
    exact ⟨0, inv_start⟩
  · rintro s t ⟨i, hs⟩ ⟨a, ha, hst⟩
    exact hs.step ha hst

theorem Inv.isPrefix (h : Inv n requests s i) :
    s.processed <+: (requests.take s.next).map some :=
  ProducerConsumer.used_isPrefix h.queue

/-! ### Launching after the exit -/

theorem others_exited (h : (system AfterExit n requests).Reachable s) :
    ∃ i, Others (· = Thread.exited) s.threads i := by
  refine h.invariant (fun s => ∃ i, Others (· = Thread.exited) s.threads i) ?_ ?_
  · rintro s rfl
    exact ⟨0, fun j p _ hp => absurd hp (by simp [start])⟩
  · rintro s t ⟨i, hi⟩ ⟨a, ha, hst⟩
    cases hst with
    | enqueue | start | stop => exact ⟨i, hi⟩
    | launch => exact ⟨s.threads.length, Others.launch_of_forall (ha rfl) _⟩
    | @run _ k p q p' l hp hrun =>
        have hk : k = i := by
          apply hi.eq_of_not hp
          rintro rfl
          cases hrun
        subst hk
        exact ⟨k, hi.set_self p'⟩

/-- It is enough to look when a thread is launched. -/
theorem reachable_alone (h : (system AfterExit n requests).Reachable s) :
    (system Alone n requests).Reachable s := by
  refine System.Reachable.map (S := system AfterExit n requests) id (fun s hs => hs) ?_ h
  rintro s t hs - ⟨a, -, hst⟩
  obtain ⟨i, hi⟩ := others_exited hs
  refine .inr ⟨a, ?_, hst⟩
  intro k _ hp _
  have hk : k = i := hi.eq_of_not hp (by simp)
  subst hk
  exact hi.mono fun p hp => by rw [hp]; rfl

/-- A caller who waits for the earlier threads before each launch has every
request processed at most once and in order. -/
theorem isPrefix_of_afterExit (h : (system AfterExit n requests).Reachable s) :
    s.processed <+: (requests.take s.next).map some := by
  obtain ⟨i, hinv⟩ := exists_inv (reachable_alone h)
  exact hinv.isPrefix

/-! ### Across start and stop -/

/-- **At most once and in order.** In every run in which a thread finds a request
only when no other thread is on one, the requests processed are a prefix of
those enqueued. -/
theorem processed_isPrefix (h : (system Alone n requests).Reachable s) :
    s.processed <+: (requests.take s.next).map some := by
  obtain ⟨i, hinv⟩ := exists_inv h
  exact hinv.isPrefix

def request : MEClientRequest :=
  { clientRequestType := .new, clientId := 1, orderId := 1, tickerId := 0, side := .buy,
    price := 100, qty := 10 }

/-- A restart after the first thread has left its loop. -/
theorem processed_isPrefix_restart :
    ∃ s : State, (system Alone ⟨1, by decide⟩ [request]).Reachable s ∧
      s.threads.length = 2 ∧ s.processed = [some request] ∧
      s.processed <+: ([request].take s.next).map some := by
  have h₀ : (system AfterExit ⟨1, by decide⟩ [request]).Reachable (start ⟨1, by decide⟩) :=
    .init rfl
  have h₁ := h₀.step ⟨.start, nofun, .start⟩
  have h₂ := h₁.step ⟨.launch, fun _ => by simp [start], .launch (by decide)⟩
  have h₃ := h₂.step ⟨.stop, nofun, .stop⟩
  have h₄ := h₃.step ⟨.run 0, nofun, .run rfl (.leave rfl)⟩
  have h₅ := h₄.step ⟨.start, nofun, .start⟩
  have h₆ := h₅.step ⟨.launch, fun _ => by simp [start], .launch (by decide)⟩
  have h₇ := h₆.step ⟨.run 1, nofun, .run rfl (.enter rfl)⟩
  have h₈ := h₇.step ⟨.enqueue, nofun, .enqueue (.seeRoom (by decide) (by decide))⟩
  have h₉ := h₈.step ⟨.enqueue, nofun, .enqueue .getNextToWrite⟩
  have h₁₀ := h₉.step ⟨.enqueue, nofun, .enqueue .beginWrite⟩
  have h₁₁ := h₁₀.step ⟨.enqueue, nofun, .enqueue .endWrite⟩
  have h₁₂ := h₁₁.step ⟨.enqueue, nofun, .enqueue .storeWriteIdx⟩
  have h₁₃ := h₁₂.step ⟨.enqueue, nofun, .enqueue .incSize⟩
  have h₁₄ := h₁₃.step ⟨.run 1, nofun, .run rfl (.seeSize (by decide))⟩
  have h₁₅ := h₁₄.step ⟨.run 1, nofun, .run rfl .getNextToRead⟩
  have h₁₆ := h₁₅.step ⟨.run 1, nofun, .run rfl .processClientRequest⟩
  exact ⟨_, reachable_alone h₁₆, rfl, rfl, processed_isPrefix (reachable_alone h₁₆)⟩

/-- A restart while the first thread holds a request that it has not processed:
it never sees the flag down, and both threads process the request. -/
theorem processed_twice :
    ∃ s : State, (system anyOrder ⟨1, by decide⟩ [request]).Reachable s ∧
      s.processed = [some request, some request] ∧
      ¬ s.processed <+: ([request].take s.next).map some := by
  have h₀ : (system anyOrder ⟨1, by decide⟩ [request]).Reachable (start ⟨1, by decide⟩) :=
    .init rfl
  have h₁ := h₀.step ⟨.enqueue, trivial, .enqueue (.seeRoom (by decide) (by decide))⟩
  have h₂ := h₁.step ⟨.enqueue, trivial, .enqueue .getNextToWrite⟩
  have h₃ := h₂.step ⟨.enqueue, trivial, .enqueue .beginWrite⟩
  have h₄ := h₃.step ⟨.enqueue, trivial, .enqueue .endWrite⟩
  have h₅ := h₄.step ⟨.enqueue, trivial, .enqueue .storeWriteIdx⟩
  have h₆ := h₅.step ⟨.enqueue, trivial, .enqueue .incSize⟩
  have h₇ := h₆.step ⟨.start, trivial, .start⟩
  have h₈ := h₇.step ⟨.launch, trivial, .launch (by decide)⟩
  have h₉ := h₈.step ⟨.run 0, trivial, .run rfl (.enter rfl)⟩
  have h₁₀ := h₉.step ⟨.run 0, trivial, .run rfl (.seeSize (by decide))⟩
  have h₁₁ := h₁₀.step ⟨.run 0, trivial, .run rfl .getNextToRead⟩
  have h₁₂ := h₁₁.step ⟨.stop, trivial, .stop⟩
  have h₁₃ := h₁₂.step ⟨.start, trivial, .start⟩
  have h₁₄ := h₁₃.step ⟨.launch, trivial, .launch (by decide)⟩
  have h₁₅ := h₁₄.step ⟨.run 1, trivial, .run rfl (.enter rfl)⟩
  have h₁₆ := h₁₅.step ⟨.run 1, trivial, .run rfl (.seeSize (by decide))⟩
  have h₁₇ := h₁₆.step ⟨.run 1, trivial, .run rfl .getNextToRead⟩
  have h₁₈ := h₁₇.step ⟨.run 1, trivial, .run rfl .processClientRequest⟩
  have h₁₉ := h₁₈.step ⟨.run 0, trivial, .run rfl .processClientRequest⟩
  exact ⟨_, h₁₉, rfl, fun hp => absurd hp.length_le (by decide)⟩

end StartStop

end LowLatency.Exchange
