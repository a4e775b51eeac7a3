import Mathlib.Data.Prod.Lex
import LowLatency.Lib.Progress
import LowLatency.Exchange.Pipeline

/-!
The engine gets everything done.

`Pipeline` says that what the readers see is right; here, that they can come
to see all of it. As long as the flag is up and a thread is in its loop, some
party always has a step that leaves less to do, unless the next request is one
that ends the process. The order in which the parties are looked at is from
the readers back to the producer: what is downstream makes room for what is
upstream.
-/

namespace LowLatency.Exchange

open LowLatency.Lib LowLatency.Common

namespace Pipeline

/-! ### What is left to do -/

def rank : ProducerConsumer.Producer → ℕ
  | .idle => 0
  | .ready => 1
  | .taken _ => 2
  | .writing _ => 3
  | .written => 4
  | .stored => 5

/-- The steps of a consumer up to the use of a value, and after it. -/
def stage : ProducerConsumer.Consumer → ℕ
  | .idle => 2
  | .nonEmpty => 1
  | .holding _ => 0
  | .used _ => 6
  | .checked _ => 5
  | .stored _ => 4
  | .failed => 0

/-- The steps of a thread in `run` up to its next request. -/
def threadLeft : StartStop.Thread → ℕ
  | .testRun => 4
  | .getNextToRead => 3
  | .sizeSeen => 2
  | .holding _ => 1
  | .processed _ => 8
  | .checked _ => 7
  | .incremented _ _ => 6
  | .stored _ => 5
  | .exited => 0
  | .failed => 0

/-- The steps of a reader up to the last value sent. -/
def takeLeft {T : Type} (s : ProducerConsumer.State T) : ℕ :=
  7 * (s.next - s.used.length) + stage s.consumer

def work (requests : List MEClientRequest) (s : State) : ℕ :=
  7 * (requests.length - s.front.next) + (5 - rank s.front.producer) +
    (s.front.threads.map threadLeft).sum +
    16 * s.pending.length + (5 - rank s.out.responses.producer) +
    (5 - rank s.out.updates.producer) +
    takeLeft s.out.responses + takeLeft s.out.updates

/-- Serving a request makes new work, so the requests count first. -/
def left (requests : List MEClientRequest) (s : State) : ℕ ×ₗ ℕ :=
  toLex (requests.length - s.front.processed.length, work requests s)

theorem left_lt_of_work {requests : List MEClientRequest} {s t : State}
    (hprocessed : t.front.processed = s.front.processed)
    (hlt : work requests t < work requests s) : left requests t < left requests s := by
  rw [left, left, hprocessed, Prod.Lex.toLex_lt_toLex]
  exact .inr ⟨rfl, hlt⟩

section Ends

variable {T : Type} {v : T} {s t : ProducerConsumer.State T}

theorem rank_le (p : ProducerConsumer.Producer) : rank p ≤ 5 := by
  cases p <;> simp [rank]

theorem sendLeft_of_sendStep (h : ProducerConsumer.SendStep v s t) :
    5 - rank t.producer + takeLeft t < 5 - rank s.producer + takeLeft s := by
  have hle := rank_le t.producer
  have hrank : rank t.producer = rank s.producer + 1 ∧ takeLeft t = takeLeft s := by
    cases h with
    | begin hp | getNextToWrite hp | beginWrite hp | endWrite hp | storeWriteIdx hp =>
        exact ⟨by simp [rank, hp], rfl⟩
  omega

theorem sendLeft_of_sent (h : s.producer = .stored) :
    5 - rank s.sent.producer + takeLeft s.sent ≤ 5 - rank s.producer + takeLeft s + 12 := by
  simp only [takeLeft, ProducerConsumer.State.sent, rank, h]
  omega

theorem takeLeft_of_takeStep (h : ProducerConsumer.TakeStep s t)
    (hlt : ∀ c, s.consumer = .holding c → s.used.length < s.next) :
    takeLeft t < takeLeft s := by
  cases h with
  | @use c hc =>
      have hused := hlt c hc
      simp only [takeLeft, stage, hc, List.length_append, List.length_singleton]
      omega
  | loadSize hc | getNextToRead hc | check hc | fail hc | storeReadIdx hc | decSize hc =>
      simp [takeLeft, stage, hc]

theorem pushLeft_of_pushStep {vals : List T} {q q' : LFQueue (Option T)}
    {p p' : ProducerConsumer.Producer} {next next' : ℕ}
    (h : ProducerConsumer.PushStep vals q p next q' p' next')
    (hactive : p ≠ .idle → next < vals.length) :
    7 * (vals.length - next') + (5 - rank p') < 7 * (vals.length - next) + (5 - rank p) := by
  cases h with
  | incSize =>
      have hlt := hactive (by simp)
      simp only [rank]
      omega
  | _ => simp [rank]

end Ends

/-! ### The engine is on -/

structure On (s : State) : Prop where
  run : s.front.run = true
  alive : ∃ (k : ℕ) (p : StartStop.Thread), s.front.threads[k]? = some p ∧ p ≠ .exited

/-- All requests have been served, and the readers have every message. -/
def Delivered (m : BookMethods) (books : OrderBookHashMap) (requests : List MEClientRequest)
    (s : State) : Prop :=
  ∃ log, processClientRequests m books requests = .ok (s.books, log) ∧
    s.out.responses.used = (responses log).map some ∧
    s.out.updates.used = (updates log).map some

/-- A thread is about to serve a request that ends the process. -/
def Ends (m : BookMethods) (s : State) : Prop :=
  ∃ (k c : ℕ) (r : MEClientRequest) (e : Failure),
    s.front.threads[k]? = some (.holding c) ∧ s.front.incomingRequests.queue c = some r ∧
      processClientRequest m s.books r = .error e

variable {m : BookMethods} {n : Lengths} {books : OrderBookHashMap}
  {requests : List MEClientRequest} {s : State}

def Advances (m : BookMethods) (n : Lengths) (books : OrderBookHashMap)
    (requests : List MEClientRequest) (s : State) : Prop :=
  ∃ t, (system m n books requests).step s t ∧ On t ∧ left requests t < left requests s

/-- A reader has nothing to take and nothing to finish. -/
def AtRest {T : Type} (q : ProducerConsumer.State T) : Prop :=
  q.consumer = .idle ∧ q.next ≤ q.used.length

theorem Carried.takeStep {T : Type} [Inhabited T] {cap : Capacity} {f : EngineCall → Option T}
    {called pending : List EngineCall} {q : ProducerConsumer.State T}
    (h : Carried cap f called pending q) (hrest : ¬ AtRest q) :
    ∃ q', ProducerConsumer.TakeStep q q' ∧ takeLeft q' < takeLeft q := by
  have hleft : q.consumer ≠ .idle ∨ q.used.length < q.next := by
    by_contra hnone
    push Not at hnone
    exact hrest hnone
  obtain ⟨q', hst⟩ := ProducerConsumer.exists_takeStep h.reachable hleft
  refine ⟨q', hst, takeLeft_of_takeStep hst fun c hc => ?_⟩
  obtain ⟨r, hinv⟩ := ProducerConsumer.exists_inv h.reachable
  have hused := hinv.used_length
  have hlt := hinv.reading (by simp [hc])
  simp only [hc, ProducerConsumer.Consumer.inHand, Nat.add_zero] at hused
  omega

/-- With its reader at rest a queue is empty, and has room. -/
theorem Carried.room {T : Type} [Inhabited T] {cap : Capacity} {f : EngineCall → Option T}
    {called pending : List EngineCall} {q : ProducerConsumer.State T}
    (h : Carried cap f called pending q) (hrest : AtRest q) : q.q.size < q.q.capacity := by
  obtain ⟨r, hinv⟩ := ProducerConsumer.exists_inv h.reachable
  have hused := hinv.used_length
  have hsize := hinv.qSize
  have hle := hrest.2
  simp only [hrest.1, ProducerConsumer.Consumer.inHand] at hused
  have hpos := q.q.capacity.2.1
  show q.q.qSize < _
  omega

theorem Carried.used_eq {T : Type} [Inhabited T] {cap : Capacity} {f : EngineCall → Option T}
    {called pending : List EngineCall} {q : ProducerConsumer.State T}
    (h : Carried cap f called pending q) (hrest : AtRest q) :
    q.used = (called.filterMap f).map some := by
  refine h.isPrefix.eq_of_length_le ?_
  rw [List.length_map, ← h.next_eq]
  exact hrest.2

/-! ### One party after the other -/

theorem advances_of_reader (h : (system m n books requests).Reachable s) (hon : On s)
    (hrest : ¬ (AtRest s.out.responses ∧ AtRest s.out.updates)) :
    Advances m n books requests s := by
  have hsends := sends_of_reachable h
  by_cases hr : AtRest s.out.responses
  · obtain ⟨q, hst, hlt⟩ := hsends.updates.takeStep fun hu => hrest ⟨hr, hu⟩
    refine ⟨_, ⟨.readUpdate, trivial, .readUpdate hst⟩, ⟨hon.run, hon.alive⟩,
      left_lt_of_work rfl ?_⟩
    simp only [work, hst.next_eq.2]
    omega
  · obtain ⟨q, hst, hlt⟩ := hsends.responses.takeStep hr
    refine ⟨_, ⟨.readResponse, trivial, .readResponse hst⟩, ⟨hon.run, hon.alive⟩,
      left_lt_of_work rfl ?_⟩
    simp only [work, hst.next_eq.2]
    omega

theorem advances_of_call (h : (system m n books requests).Reachable s) (hon : On s)
    (hr : AtRest s.out.responses) (hu : AtRest s.out.updates) {c : EngineCall}
    {rest : List EngineCall} (hpending : s.pending = c :: rest) :
    Advances m n books requests s := by
  have hsends := sends_of_reachable h
  have hcalm : Calm .call s := by
    intro c' rest' _ _
    cases c' with
    | sendClientResponse r => exact hsends.responses.room hr
    | sendMarketUpdate u => exact hsends.updates.room hu
  by_cases hstored : s.out.producer c = .stored
  · refine ⟨_, ⟨.call, hcalm, .returned hpending hstored⟩, ⟨hon.run, hon.alive⟩,
      left_lt_of_work rfl ?_⟩
    cases c with
    | sendClientResponse r =>
        have hle := sendLeft_of_sent (s := s.out.responses) hstored
        simp only [work, Outgoing.returned, hpending, List.length_cons]
        omega
    | sendMarketUpdate u =>
        have hle := sendLeft_of_sent (s := s.out.updates) hstored
        simp only [work, Outgoing.returned, hpending, List.length_cons]
        omega
  · cases c with
    | sendClientResponse r =>
        obtain ⟨q, hst⟩ := ProducerConsumer.exists_sendStep r hstored
        refine ⟨_, ⟨.call, hcalm, .call hpending (.sendClientResponse hst)⟩,
          ⟨hon.run, hon.alive⟩, left_lt_of_work rfl ?_⟩
        have hlt := sendLeft_of_sendStep hst
        simp only [work]
        omega
    | sendMarketUpdate u =>
        obtain ⟨q, hst⟩ := ProducerConsumer.exists_sendStep u hstored
        refine ⟨_, ⟨.call, hcalm, .call hpending (.sendMarketUpdate hst)⟩,
          ⟨hon.run, hon.alive⟩, left_lt_of_work rfl ?_⟩
        have hlt := sendLeft_of_sendStep hst
        simp only [work]
        omega

theorem advances_of_run (hon : On s) {k : ℕ} {p p' : StartStop.Thread}
    {q : LFQueue (Option MEClientRequest)} (hp : s.front.threads[k]? = some p)
    (hrun : StartStop.RunStep s.front.run s.front.incomingRequests p s.front.processed q p'
      s.front.processed)
    (hout : ∀ c, p ≠ .holding c ∧ (p = .processed c → s.pending = []))
    (halone : StartStop.Alone (.run k) s.front) (hlive : p' ≠ .exited)
    (hlt : threadLeft p' < threadLeft p) : Advances m n books requests s := by
  have houtside : Outside s (.run k) := fun c =>
    ⟨fun hk => (hout c).1 (Option.some.inj (hp.symm.trans hk)),
      fun hk => (hout c).2 (Option.some.inj (hp.symm.trans hk))⟩
  refine ⟨_, ⟨.front (.run k), halone, .front (.run hp hrun) houtside⟩,
    ⟨hon.run, k, p', ?_, hlive⟩, left_lt_of_work rfl ?_⟩
  · exact List.getElem?_set_self (List.getElem?_eq_some_iff.mp hp).1
  · have hsum := sum_map_set_lt threadLeft hp hlt
    simp only [work]
    omega

theorem exists_queue_inv (h : (system m n books requests).Reachable s) {k : ℕ}
    {p : StartStop.Thread} (hp : s.front.threads[k]? = some p) (hbusy : p.consumer ≠ .idle) :
    ∃ r, ProducerConsumer.Inv n.requests requests
      ⟨s.front.incomingRequests, s.front.producer, s.front.next, p.consumer,
        s.front.processed⟩ r := by
  obtain ⟨i, hinv⟩ := exists_front h
  have hk : k = i := hinv.others.eq_of_not hp hbusy
  subst hk
  have hqueue := hinv.queue
  rw [StartStop.State.toQueue, viewAt_eq hp] at hqueue
  exact ProducerConsumer.exists_inv hqueue

theorem advances_of_holding (h : (system m n books requests).Reachable s) (hon : On s)
    {k c : ℕ} (hp : s.front.threads[k]? = some (.holding c)) :
    Ends m s ∨ Advances m n books requests s := by
  obtain ⟨r, hinv⟩ := exists_queue_inv h hp (by simp [StartStop.Thread.consumer])
  have hlt : r < s.front.next := hinv.reading (by simp [StartStop.Thread.consumer])
  have hused : s.front.processed.length = r := hinv.used_length
  have hnext : s.front.next ≤ requests.length := hinv.next_le
  have hrl : r < requests.length := hlt.trans_le hnext
  have hcell : s.front.incomingRequests.queue c = some requests[r] := by
    have hcr : c = r % n.requests := hinv.holds c rfl
    have hcells : s.front.incomingRequests.queue (r % n.requests) = requests[r]? :=
      hinv.cells r le_rfl hlt
    rw [hcr, hcells, List.getElem?_eq_getElem hrl]
  cases hserve : processClientRequest m s.books requests[r] with
  | error e => exact .inl ⟨k, c, _, e, hp, hcell, hserve⟩
  | ok result =>
      obtain ⟨books', sent⟩ := result
      right
      have hfront : StartStop.Step requests (.run k) s.front _ :=
        .run hp .processClientRequest
      have halone : StartStop.Alone (.run k) s.front := by
        intro j hj hget
        rw [← StartStop.Action.run.inj hj, hp] at hget
        simp at hget
      refine ⟨_, ⟨.front (.run k), halone, .processClientRequest hp hcell hserve hfront⟩,
        ⟨hon.run, k, .processed c, ?_, by simp⟩, ?_⟩
      · exact List.getElem?_set_self (List.getElem?_eq_some_iff.mp hp).1
      · refine Prod.Lex.toLex_lt_toLex.mpr (.inl ?_)
        simp only [List.length_append, List.length_singleton]
        omega

theorem advances_of_busy (h : (system m n books requests).Reachable s) (hon : On s)
    (hpending : s.pending = []) {k : ℕ} {p : StartStop.Thread}
    (hp : s.front.threads[k]? = some p) (hbusy : p.consumer ≠ .idle) :
    Ends m s ∨ Advances m n books requests s := by
  obtain ⟨r, hinv⟩ := exists_queue_inv h hp hbusy
  have halone : p ≠ .getNextToRead → StartStop.Alone (.run k) s.front := by
    intro hne j hj hget
    rw [← StartStop.Action.run.inj hj, hp, Option.some.injEq] at hget
    exact absurd hget hne
  cases p with
  | testRun | getNextToRead | exited => exact absurd rfl hbusy
  | holding c => exact advances_of_holding h hon hp
  | failed => exact absurd rfl hinv.ok
  | sizeSeen =>
      exact .inr (advances_of_run hon hp .getNextToRead (by simp) (halone (by simp)) (by simp)
        (by simp [threadLeft]))
  | processed c =>
      have hsize : s.front.incomingRequests.qSize > 0 := by
        have hlt : r < s.front.next := hinv.reading hbusy
        have hq : s.front.incomingRequests.qSize + r = s.front.next := hinv.qSize
        omega
      exact .inr (advances_of_run hon hp (.check hsize) (by simp [hpending])
        (halone (by simp)) (by simp) (by simp [threadLeft]))
  | checked c =>
      exact .inr (advances_of_run hon hp .incReadIdx (by simp) (halone (by simp)) (by simp)
        (by simp [threadLeft]))
  | incremented c idx =>
      exact .inr (advances_of_run hon hp .storeReadIdx (by simp) (halone (by simp)) (by simp)
        (by simp [threadLeft]))
  | stored c =>
      exact .inr (advances_of_run hon hp .decSize (by simp) (halone (by simp)) (by simp)
        (by simp [threadLeft]))

/-- With all threads on no request, one in its loop finds the next. -/
theorem advances_of_found (hon : On s)
    (hidle : ∀ (k : ℕ) p, s.front.threads[k]? = some p → p.consumer = .idle)
    (hsize : s.front.incomingRequests.size ≠ 0) : Advances m n books requests s := by
  obtain ⟨k, p, hp, hlive⟩ := hon.alive
  have halone : StartStop.Alone (.run k) s.front := fun _ _ _ _ j p _ hj => hidle j p hj
  have hpk := hidle k p hp
  cases p with
  | testRun =>
      exact advances_of_run hon hp (.enter hon.run) (by simp) halone (by simp)
        (by simp [threadLeft])
  | getNextToRead =>
      exact advances_of_run hon hp (.seeSize hsize) (by simp) halone (by simp)
        (by simp [threadLeft])
  | exited => exact absurd rfl hlive
  | _ => simp [StartStop.Thread.consumer] at hpk

/-- With an empty queue and all threads on no request, what has been enqueued has
been processed. -/
theorem next_eq_of_idle (h : (system m n books requests).Reachable s)
    (hidle : ∀ (k : ℕ) p, s.front.threads[k]? = some p → p.consumer = .idle)
    (hsize : s.front.incomingRequests.size = 0) :
    s.front.next = s.front.processed.length ∧ s.front.next ≤ requests.length ∧
      (s.front.producer ≠ .idle → s.front.next < requests.length) := by
  obtain ⟨i, hinv⟩ := exists_front h
  have hqueue := hinv.queue
  have hview : viewAt StartStop.Thread.consumer .idle s.front.threads i = .idle :=
    viewAt_eq_idle fun p hp => hidle i p hp
  rw [StartStop.State.toQueue, hview] at hqueue
  obtain ⟨r, hr⟩ := ProducerConsumer.exists_inv hqueue
  have hused : s.front.processed.length = r := hr.used_length
  have hq : s.front.incomingRequests.qSize + r = s.front.next := hr.qSize
  have hzero : s.front.incomingRequests.qSize = 0 := hsize
  exact ⟨by omega, hr.next_le, fun hp => (hr.active hp).2⟩

theorem advances_of_producer (h : (system m n books requests).Reachable s) (hon : On s)
    (hidle : ∀ (k : ℕ) p, s.front.threads[k]? = some p → p.consumer = .idle)
    (hsize : s.front.incomingRequests.size = 0)
    (hleft : s.front.next < requests.length) : Advances m n books requests s := by
  obtain ⟨-, -, hactive⟩ := next_eq_of_idle h hidle hsize
  have hstep : ∃ q p next, ProducerConsumer.PushStep requests s.front.incomingRequests
      s.front.producer s.front.next q p next := by
    cases s.front.producer with
    | idle =>
        have hroom : s.front.incomingRequests.size < s.front.incomingRequests.capacity := by
          rw [hsize]
          exact s.front.incomingRequests.capacity.2.1
        exact ⟨_, _, _, .seeRoom hleft hroom⟩
    | ready => exact ⟨_, _, _, .getNextToWrite⟩
    | taken c => exact ⟨_, _, _, .beginWrite⟩
    | writing c => exact ⟨_, _, _, .endWrite⟩
    | written => exact ⟨_, _, _, .storeWriteIdx⟩
    | stored => exact ⟨_, _, _, .incSize⟩
  obtain ⟨q, p, next, hpush⟩ := hstep
  refine ⟨_, ⟨.front .enqueue, nofun, .front (.enqueue hpush) trivial⟩, ⟨hon.run, hon.alive⟩,
    left_lt_of_work rfl ?_⟩
  have hlt := pushLeft_of_pushStep hpush hactive
  simp only [work]
  omega

/-! ### Everything gets done -/

/-- One step, from the readers back to the producer. -/
theorem advances (h : (system m n books requests).Reachable s) (hon : On s) :
    (Delivered m books requests s ∨ Ends m s) ∨ Advances m n books requests s := by
  by_cases hrest : AtRest s.out.responses ∧ AtRest s.out.updates
  swap
  · exact .inr (advances_of_reader h hon hrest)
  obtain ⟨hr, hu⟩ := hrest
  cases hpending : s.pending with
  | cons c rest => exact .inr (advances_of_call h hon hr hu hpending)
  | nil =>
      by_cases hidle : ∀ (k : ℕ) p, s.front.threads[k]? = some p → p.consumer = .idle
      swap
      · push Not at hidle
        obtain ⟨k, p, hp, hbusy⟩ := hidle
        rcases advances_of_busy h hon hpending hp hbusy with hends | hadv
        · exact .inl (.inr hends)
        · exact .inr hadv
      by_cases hsize : s.front.incomingRequests.size = 0
      swap
      · exact .inr (advances_of_found hon hidle hsize)
      obtain ⟨hnext, hle, -⟩ := next_eq_of_idle h hidle hsize
      rcases Nat.lt_or_ge s.front.next requests.length with hlt | hge
      · exact .inr (advances_of_producer h hon hidle hsize hlt)
      · have hsends := sends_of_reachable h
        obtain ⟨hprocessed, hprefix⟩ := served_isPrefix h
        rw [List.take_of_length_le hge] at hprefix
        have hserved : s.served = requests := by
          refine hprefix.eq_of_length_le ?_
          have hlen := congrArg List.length hprocessed
          rw [List.length_map] at hlen
          omega
        have hrun := run_served h
        rw [hserved, hpending, List.append_nil] at hrun
        refine .inl (.inl ⟨s.called, hrun, ?_, ?_⟩)
        · rw [responses_eq]
          exact hsends.responses.used_eq hr
        · rw [updates_eq]
          exact hsends.updates.used_eq hu

/-- **Nothing gets stuck.** From every state of every run in which the flag is up
and a thread is in its loop, there is a way on to a state in which every request
has been served and the readers have every message, or to a request that ends
the process. -/
theorem delivered_reachable (h : (system m n books requests).Reachable s) (hon : On s) :
    ∃ t, Relation.ReflTransGen (system m n books requests).step s t ∧
      (Delivered m books requests t ∨ Ends m t) :=
  h.exists_goal (left requests) On _ (fun _ => advances) hon

theorem delivered_reachable_started :
    ∃ t, Delivered restingBooks (constructBooks fun _ => .zero) [StartStop.request] t ∨
      Ends restingBooks t := by
  have h₀ : (system restingBooks lengthsOne (constructBooks fun _ => .zero)
    [StartStop.request]).Reachable (start lengthsOne (constructBooks fun _ => .zero)) := .init rfl
  have h₁ := h₀.step ⟨.front .start, nofun, .front .start trivial⟩
  have h₂ := h₁.step ⟨.front .launch, nofun, .front (.launch (by decide)) trivial⟩
  obtain ⟨t, -, hgoal⟩ := delivered_reachable h₂ ⟨rfl, 0, .testRun, rfl, by simp⟩
  exact ⟨t, hgoal⟩

end Pipeline

end LowLatency.Exchange
