import LowLatency.Lib.Server
import LowLatency.Common.QueueEnds
import LowLatency.Exchange.StartStop
import LowLatency.Exchange.Survival

/-!
The engine between its queues.

Requests come in through one queue, the thread in `run` serves them, and what
the books send leaves through two others, each with a reader of its own. All
of these go on at the same time, one atomic step after the other. What a book
does to itself while it serves a request is seen by nobody else, so serving is
one step; the calls it makes on the engine are then made one at a time, each
in the steps of its queue.

`Calm` is what the code leaves to its callers: no two threads of the engine on
a request, and room for a message when it is sent. With it the engine refines
a server: whatever the timing, the readers see what serving the requests one
after the other puts out.
-/

namespace LowLatency.Exchange

open LowLatency.Lib LowLatency.Common

namespace Pipeline

/-- The queues out of the engine, each with the thread of the engine that
writes to it and its reader. -/
structure Outgoing where
  responses : ProducerConsumer.State MEClientResponse
  updates : ProducerConsumer.State MEMarketUpdate

/-- `front` is the incoming queue with the threads in `run`, `pending` are the
calls of the request in hand that have not returned, `called` those that
have. -/
structure State where
  front : StartStop.State
  books : OrderBookHashMap
  pending : List EngineCall
  called : List EngineCall
  out : Outgoing

/-! ### One call -/

def Outgoing.producer (o : Outgoing) : EngineCall → ProducerConsumer.Producer
  | .sendClientResponse _ => o.responses.producer
  | .sendMarketUpdate _ => o.updates.producer

/-- The queue of a call has room for its message. -/
def Outgoing.Room (o : Outgoing) : EngineCall → Prop
  | .sendClientResponse _ => o.responses.q.size < o.responses.q.capacity
  | .sendMarketUpdate _ => o.updates.q.size < o.updates.q.capacity

/-- The steps of `sendClientResponse` and `sendMarketUpdate` before the last. -/
inductive CallStep : EngineCall → Outgoing → Outgoing → Prop
  | sendClientResponse {o : Outgoing} {r t} : ProducerConsumer.SendStep r o.responses t →
      CallStep (.sendClientResponse r) o { o with responses := t }
  | sendMarketUpdate {o : Outgoing} {u t} : ProducerConsumer.SendStep u o.updates t →
      CallStep (.sendMarketUpdate u) o { o with updates := t }

/-- The last step of a call. -/
def Outgoing.returned (o : Outgoing) : EngineCall → Outgoing
  | .sendClientResponse _ => { o with responses := o.responses.sent }
  | .sendMarketUpdate _ => { o with updates := o.updates.sent }

/-! ### The system -/

inductive Action
  | front (a : StartStop.Action)
  | call
  | readResponse
  | readUpdate

/-- The step of `front` is outside of `processClientRequest`: it does not enter
it, and leaves it only when its calls have returned. -/
def Outside (s : State) : StartStop.Action → Prop
  | .run k => ∀ c, s.front.threads[k]? ≠ some (.holding c) ∧
      (s.front.threads[k]? = some (.processed c) → s.pending = [])
  | _ => True

/-- The atomic steps of all parties. A request that ends the process has no step. -/
inductive Step (m : BookMethods) (requests : List MEClientRequest) :
    Action → State → State → Prop
  | front {s : State} {a t} : StartStop.Step requests a s.front t → Outside s a →
      Step m requests (.front a) s { s with front := t }
  | processClientRequest {s : State} {k c r books sent t} :
      s.front.threads[k]? = some (.holding c) → s.front.incomingRequests.queue c = some r →
      processClientRequest m s.books r = .ok (books, sent) →
      StartStop.Step requests (.run k) s.front t →
      Step m requests (.front (.run k)) s
        { s with front := t, books := books, pending := s.pending ++ sent }
  | call {s : State} {c rest o} : s.pending = c :: rest → CallStep c s.out o →
      Step m requests .call s { s with out := o }
  | returned {s : State} {c rest} : s.pending = c :: rest → s.out.producer c = .stored →
      Step m requests .call s { s with
        out := s.out.returned c, pending := rest, called := s.called ++ [c] }
  | readResponse {s : State} {t} : ProducerConsumer.TakeStep s.out.responses t →
      Step m requests .readResponse s { s with out := { s.out with responses := t } }
  | readUpdate {s : State} {t} : ProducerConsumer.TakeStep s.out.updates t →
      Step m requests .readUpdate s { s with out := { s.out with updates := t } }

/-- Each thread of the engine finds a request only when no other is on one, and
each call finds room in its queue when it begins. -/
def Calm : Action → State → Prop
  | .front a, s => StartStop.Alone a s.front
  | .call, s => ∀ c rest, s.pending = c :: rest → s.out.producer c = .idle → s.out.Room c
  | _, _ => True

/-- The lengths of the three queues. -/
structure Lengths where
  requests : Capacity
  responses : Capacity
  updates : Capacity

def start (n : Lengths) (books : OrderBookHashMap) : State where
  front := StartStop.start n.requests
  books := books
  pending := []
  called := []
  out := ⟨ProducerConsumer.start n.responses, ProducerConsumer.start n.updates⟩

def system (m : BookMethods) (n : Lengths) (books : OrderBookHashMap)
    (requests : List MEClientRequest) : System State where
  init s := s = start n books
  step s t := ∃ a, Calm a s ∧ Step m requests a s t

variable {m : BookMethods} {n : Lengths} {books : OrderBookHashMap}
  {requests : List MEClientRequest} {s t : State}

/-! ### A run -/

theorem calm_call {c : EngineCall} {rest : List EngineCall} (hpending : s.pending = c :: rest)
    (hroom : s.out.Room c) : Calm .call s := by
  intro c' rest' h _
  rw [hpending] at h
  obtain ⟨rfl, rfl⟩ := List.cons.inj h
  exact hroom

theorem alone_of_one {s : StartStop.State} {k : ℕ} (h : s.threads.length ≤ 1) (hk : k = 0) :
    StartStop.Alone (.run k) s := by
  rintro j hj - - i p hi hp
  have hlt := (List.getElem?_eq_some_iff.mp hp).1
  have hjk := StartStop.Action.run.inj hj
  omega

def lengthsOne : Lengths := ⟨⟨1, by decide⟩, ⟨1, by decide⟩, ⟨1, by decide⟩⟩

theorem exists_served : ∃ s : State,
    (system restingBooks lengthsOne (constructBooks fun _ => .zero)
      [StartStop.request]).Reachable s ∧
      s.front.processed = [some StartStop.request] ∧
      s.out.responses.used = [some (StartStop.request.acceptance 1)] ∧
      s.out.updates.used = [some ⟨.add, 1, 0, .buy, 100, 10, 1⟩] ∧
      s.front.threads = [.processed 0] ∧ s.front.incomingRequests.qSize = 1 ∧
      s.pending = [] ∧ s.called = [.sendClientResponse (StartStop.request.acceptance 1),
        .sendMarketUpdate ⟨.add, 1, 0, .buy, 100, 10, 1⟩] := by
  obtain ⟨⟨books, sent⟩, hserve, hsent⟩ := exists_of_succeedsWith
    (p := fun r => decide (r.2 = [.sendClientResponse (StartStop.request.acceptance 1),
      .sendMarketUpdate ⟨.add, 1, 0, .buy, 100, 10, 1⟩]))
    (x := processClientRequest restingBooks (constructBooks fun _ => .zero) StartStop.request)
    (by decide +kernel)
  obtain rfl := of_decide_eq_true hsent
  have h₀ : (system restingBooks lengthsOne (constructBooks fun _ => .zero)
    [StartStop.request]).Reachable (start lengthsOne (constructBooks fun _ => .zero)) := .init rfl
  have h₁ := h₀.step ⟨.front .enqueue, nofun,
    .front (.enqueue (.seeRoom (by decide) (by decide))) trivial⟩
  have h₂ := h₁.step ⟨.front .enqueue, nofun, .front (.enqueue .getNextToWrite) trivial⟩
  have h₃ := h₂.step ⟨.front .enqueue, nofun, .front (.enqueue .beginWrite) trivial⟩
  have h₄ := h₃.step ⟨.front .enqueue, nofun, .front (.enqueue .endWrite) trivial⟩
  have h₅ := h₄.step ⟨.front .enqueue, nofun, .front (.enqueue .storeWriteIdx) trivial⟩
  have h₆ := h₅.step ⟨.front .enqueue, nofun, .front (.enqueue .incSize) trivial⟩
  have h₇ := h₆.step ⟨.front .start, nofun, .front .start trivial⟩
  have h₈ := h₇.step ⟨.front .launch, nofun, .front (.launch (by decide)) trivial⟩
  have h₉ := h₈.step ⟨.front (.run 0), alone_of_one (by decide) rfl,
    .front (.run rfl (.enter rfl)) fun c => by simp [StartStop.start, start]⟩
  have h₁₀ := h₉.step ⟨.front (.run 0), alone_of_one (by decide) rfl,
    .front (.run rfl (.seeSize (by decide))) fun c => by simp [StartStop.start, start]⟩
  have h₁₁ := h₁₀.step ⟨.front (.run 0), alone_of_one (by decide) rfl,
    .front (.run rfl .getNextToRead) fun c => by simp [StartStop.start, start]⟩
  have h₁₂ := h₁₁.step ⟨.front (.run 0), alone_of_one (by decide) rfl,
    .processClientRequest rfl rfl hserve (.run rfl .processClientRequest)⟩
  have h₁₃ := h₁₂.step ⟨.call, calm_call rfl Nat.one_pos,
    .call rfl (.sendClientResponse (.begin rfl))⟩
  have h₁₄ := h₁₃.step ⟨.call, calm_call rfl Nat.one_pos,
    .call rfl (.sendClientResponse (.getNextToWrite rfl))⟩
  have h₁₅ := h₁₄.step ⟨.call, calm_call rfl Nat.one_pos,
    .call rfl (.sendClientResponse (.beginWrite rfl))⟩
  have h₁₆ := h₁₅.step ⟨.call, calm_call rfl Nat.one_pos,
    .call rfl (.sendClientResponse (.endWrite rfl))⟩
  have h₁₇ := h₁₆.step ⟨.call, calm_call rfl Nat.one_pos,
    .call rfl (.sendClientResponse (.storeWriteIdx rfl))⟩
  have h₁₈ := h₁₇.step ⟨.call, calm_call rfl Nat.one_pos, .returned rfl rfl⟩
  have h₁₉ := h₁₈.step ⟨.call, calm_call rfl Nat.one_pos,
    .call rfl (.sendMarketUpdate (.begin rfl))⟩
  have h₂₀ := h₁₉.step ⟨.call, calm_call rfl Nat.one_pos,
    .call rfl (.sendMarketUpdate (.getNextToWrite rfl))⟩
  have h₂₁ := h₂₀.step ⟨.call, calm_call rfl Nat.one_pos,
    .call rfl (.sendMarketUpdate (.beginWrite rfl))⟩
  have h₂₂ := h₂₁.step ⟨.call, calm_call rfl Nat.one_pos,
    .call rfl (.sendMarketUpdate (.endWrite rfl))⟩
  have h₂₃ := h₂₂.step ⟨.call, calm_call rfl Nat.one_pos,
    .call rfl (.sendMarketUpdate (.storeWriteIdx rfl))⟩
  have h₂₄ := h₂₃.step ⟨.call, calm_call rfl Nat.one_pos, .returned rfl rfl⟩
  have h₂₅ := h₂₄.step ⟨.readResponse, trivial, .readResponse (.loadSize rfl Nat.one_ne_zero)⟩
  have h₂₆ := h₂₅.step ⟨.readResponse, trivial, .readResponse (.getNextToRead rfl)⟩
  have h₂₇ := h₂₆.step ⟨.readResponse, trivial, .readResponse (.use rfl)⟩
  have h₂₈ := h₂₇.step ⟨.readUpdate, trivial, .readUpdate (.loadSize rfl Nat.one_ne_zero)⟩
  have h₂₉ := h₂₈.step ⟨.readUpdate, trivial, .readUpdate (.getNextToRead rfl)⟩
  have h₃₀ := h₂₉.step ⟨.readUpdate, trivial, .readUpdate (.use rfl)⟩
  exact ⟨_, h₃₀, rfl, rfl, rfl, rfl, rfl, rfl, rfl⟩

theorem exists_exited (h : (system m n books requests).Reachable s) {c : ℕ}
    (hthreads : s.front.threads = [.processed c]) (hsize : 0 < s.front.incomingRequests.qSize)
    (hpending : s.pending = []) : ∃ t : State, (system m n books requests).Reachable t ∧
      t.front.threads = [.exited] ∧ t.front.processed = s.front.processed ∧
      t.called = s.called := by
  obtain ⟨⟨q, producer, next, run, starting, threads, processed⟩, books', pending, called, out⟩ := s
  dsimp only at hthreads hsize hpending
  subst hthreads hpending
  have h₁ := h.step ⟨.front (.run 0), alone_of_one le_rfl rfl,
    .front (.run rfl (.check hsize)) fun c => by simp⟩
  have h₂ := h₁.step ⟨.front (.run 0), alone_of_one le_rfl rfl,
    .front (.run rfl .incReadIdx) fun c => by simp⟩
  have h₃ := h₂.step ⟨.front (.run 0), alone_of_one le_rfl rfl,
    .front (.run rfl .storeReadIdx) fun c => by simp⟩
  have h₄ := h₃.step ⟨.front (.run 0), alone_of_one le_rfl rfl,
    .front (.run rfl .decSize) fun c => by simp⟩
  have h₅ := h₄.step ⟨.front .stop, nofun, .front .stop trivial⟩
  have h₆ := h₅.step ⟨.front (.run 0), alone_of_one le_rfl rfl,
    .front (.run rfl (.leave rfl)) fun c => by simp⟩
  exact ⟨_, h₆, rfl, rfl, rfl⟩

/-! ### The engine as a server -/

/-- The requests served: those processed, which are all whole. -/
def State.served (s : State) : List MEClientRequest := s.front.processed.filterMap id

def State.toServer (s : State) : Server OrderBookHashMap MEClientRequest EngineCall :=
  ⟨s.books, s.served, s.pending, s.called⟩

theorem processed_eq {a : StartStop.Action} {t : StartStop.State}
    (hst : StartStop.Step requests a s.front t) (hout : Outside s a) :
    t.processed = s.front.processed := by
  cases hst with
  | run hp hrun =>
      cases hrun with
      | processClientRequest => exact absurd hp (hout _).1
      | _ => rfl
  | _ => rfl

theorem processed_holding {k c : ℕ} {t : StartStop.State}
    (hk : s.front.threads[k]? = some (.holding c))
    (hst : StartStop.Step requests (.run k) s.front t) :
    t.processed = s.front.processed ++ [s.front.incomingRequests.queue c] ∧
      t.threads = s.front.threads.set k (.processed c) ∧ t.producer = s.front.producer ∧
      t.next = s.front.next ∧ t.run = s.front.run := by
  cases hst with
  | run hp hrun =>
      obtain rfl := Option.some.inj (hp.symm.trans hk)
      cases hrun
      exact ⟨rfl, rfl, rfl, rfl, rfl⟩

/-- **The engine refines a server** under any interleaving of its threads with
the producer and the readers. -/
theorem refines_server (m : BookMethods) (n : Lengths) (books : OrderBookHashMap)
    (requests : List MEClientRequest) :
    (system m n books requests).Refines (Server.system (processClientRequest m) books)
      State.toServer where
  init s hs := by
    subst hs
    rfl
  step s t _ hst := by
    obtain ⟨a, -, hst⟩ := hst
    cases hst with
    | front hfront hout =>
        left
        simp only [State.toServer, State.served, processed_eq hfront hout]
    | @processClientRequest _ k c r _ sent t hk hcell hserve hfront =>
        have hserved : t.processed.filterMap id = s.served ++ [r] := by
          rw [(processed_holding hk hfront).1, hcell, List.filterMap_append]
          rfl
        right
        simp only [State.toServer, State.served, hserved]
        exact .serve (s := s.toServer) hserve
    | returned hpending _ => exact .inr (Server.Step.send (s := s.toServer) hpending)
    | call | readResponse | readUpdate => exact .inl rfl

/-- Its incoming half is the engine of `StartStop`. -/
theorem refines_front (m : BookMethods) (n : Lengths) (books : OrderBookHashMap)
    (requests : List MEClientRequest) :
    (system m n books requests).Refines
      (StartStop.system StartStop.Alone n.requests requests) State.front where
  init s hs := by
    subst hs
    rfl
  step s t _ hst := by
    obtain ⟨a, ha, hst⟩ := hst
    cases hst with
    | front hfront _ => exact .inr ⟨_, ha, hfront⟩
    | processClientRequest _ _ _ hfront => exact .inr ⟨_, ha, hfront⟩
    | call | returned | readResponse | readUpdate => exact .inl rfl

theorem exists_front (h : (system m n books requests).Reachable s) :
    ∃ i, StartStop.Inv n.requests requests s.front i :=
  StartStop.exists_inv ((refines_front m n books requests).reachable h)

theorem served_isPrefix (h : (system m n books requests).Reachable s) :
    s.front.processed = s.served.map some ∧ s.served <+: requests.take s.front.next := by
  obtain ⟨i, hinv⟩ := exists_front h
  obtain ⟨rest, hrest⟩ := hinv.isPrefix
  have hmap : s.front.processed = ((requests.take s.front.next).take
      s.front.processed.length).map some := by
    rw [List.map_take, ← hrest, List.take_left]
  have hserved : s.served =
      (requests.take s.front.next).take s.front.processed.length := by
    rw [State.served]
    conv_lhs => rw [hmap]
    simp
  rw [hserved]
  exact ⟨hmap, List.take_prefix _ _⟩

/-! ### The queues out of the engine -/

section Carried

variable {T : Type} [Inhabited T] {cap : Capacity} {f : EngineCall → Option T}
  {called pending : List EngineCall} {q q' : ProducerConsumer.State T}

/-- The queue carries the messages `f` finds in the calls: it sends those of the
calls that have returned and then those of the pending ones. -/
structure Carried (cap : Capacity) (f : EngineCall → Option T)
    (called pending : List EngineCall) (q : ProducerConsumer.State T) : Prop where
  reachable : (ProducerConsumer.system cap ((called ++ pending).filterMap f)).Reachable q
  next_eq : q.next = (called.filterMap f).length

theorem carried_start (cap : Capacity) (f : EngineCall → Option T) :
    Carried cap f [] [] (ProducerConsumer.start cap) := ⟨.init rfl, rfl⟩

theorem Carried.append (h : Carried cap f called pending q) (more : List EngineCall) :
    Carried cap f called (pending ++ more) q where
  reachable := by
    rw [← List.append_assoc, List.filterMap_append]
    exact ProducerConsumer.reachable_append h.reachable _
  next_eq := h.next_eq

theorem Carried.take (h : Carried cap f called pending q)
    (hst : ProducerConsumer.TakeStep q q') : Carried cap f called pending q' where
  reachable := h.reachable.step (hst.step _)
  next_eq := hst.next_eq.1.trans h.next_eq

theorem Carried.getElem?_next {c : EngineCall} {rest : List EngineCall} {v : T}
    (h : Carried cap f called (c :: rest) q) (hc : f c = some v) :
    ((called ++ c :: rest).filterMap f)[q.next]? = some v := by
  rw [h.next_eq, List.filterMap_append, List.filterMap_cons_some hc]
  simp

theorem Carried.send {c : EngineCall} {rest : List EngineCall} {v : T}
    (h : Carried cap f called (c :: rest) q) (hc : f c = some v)
    (hst : ProducerConsumer.SendStep v q q')
    (hroom : q.producer = .idle → q.q.size < q.q.capacity) :
    Carried cap f called (c :: rest) q' where
  reachable := h.reachable.step (hst.step (h.getElem?_next hc) hroom)
  next_eq := hst.next_eq.1.trans h.next_eq

theorem Carried.returned {c : EngineCall} {rest : List EngineCall} {v : T}
    (h : Carried cap f called (c :: rest) q) (hc : f c = some v) (hp : q.producer = .stored) :
    Carried cap f (called ++ [c]) rest q.sent where
  reachable := by
    rw [List.append_assoc]
    exact h.reachable.step (.incSize hp)
  next_eq := by
    show q.next + 1 = _
    rw [h.next_eq, List.filterMap_append, List.filterMap_cons_some hc]
    simp

/-- A call with no message for the queue returns. -/
theorem Carried.skip {c : EngineCall} {rest : List EngineCall}
    (h : Carried cap f called (c :: rest) q) (hc : f c = none) :
    Carried cap f (called ++ [c]) rest q where
  reachable := by
    rw [List.append_assoc]
    exact h.reachable
  next_eq := by
    rw [h.next_eq, List.filterMap_append, List.filterMap_cons_none hc]
    simp

/-- The reader has taken a prefix of the messages of the calls that have
returned. -/
theorem Carried.isPrefix (h : Carried cap f called pending q) :
    q.used <+: (called.filterMap f).map some := by
  have hused := ProducerConsumer.used_isPrefix h.reachable
  rwa [h.next_eq, List.filterMap_append, List.take_left] at hused

end Carried

def responseOf : EngineCall → Option MEClientResponse
  | .sendClientResponse r => some r
  | .sendMarketUpdate _ => none

def updateOf : EngineCall → Option MEMarketUpdate
  | .sendClientResponse _ => none
  | .sendMarketUpdate u => some u

theorem responses_eq (calls : List EngineCall) : responses calls = calls.filterMap responseOf := by
  refine List.filterMap_congr fun c _ => ?_
  cases c <;> rfl

theorem updates_eq (calls : List EngineCall) : updates calls = calls.filterMap updateOf := by
  refine List.filterMap_congr fun c _ => ?_
  cases c <;> rfl

structure Sends (n : Lengths) (s : State) : Prop where
  responses : Carried n.responses responseOf s.called s.pending s.out.responses
  updates : Carried n.updates updateOf s.called s.pending s.out.updates

theorem Sends.step {a : Action} (h : Sends n s) (ha : Calm a s)
    (hst : Step m requests a s t) : Sends n t := by
  cases hst with
  | front => exact ⟨h.responses, h.updates⟩
  | processClientRequest => exact ⟨h.responses.append _, h.updates.append _⟩
  | call hpending hcall =>
      obtain ⟨hr, hu⟩ := h
      rw [hpending] at hr hu
      have hroom := ha _ _ hpending
      cases hcall with
      | sendClientResponse hsend =>
          refine ⟨?_, ?_⟩ <;> simp only [hpending]
          · exact hr.send rfl hsend hroom
          · exact hu
      | sendMarketUpdate hsend =>
          refine ⟨?_, ?_⟩ <;> simp only [hpending]
          · exact hr
          · exact hu.send rfl hsend hroom
  | @returned _ c rest hpending hstored =>
      obtain ⟨hr, hu⟩ := h
      rw [hpending] at hr hu
      cases c with
      | sendClientResponse r => exact ⟨hr.returned rfl hstored, hu.skip rfl⟩
      | sendMarketUpdate u => exact ⟨hr.skip rfl, hu.returned rfl hstored⟩
  | readResponse htake => exact ⟨h.responses.take htake, h.updates⟩
  | readUpdate htake => exact ⟨h.responses, h.updates.take htake⟩

theorem sends_of_reachable (h : (system m n books requests).Reachable s) : Sends n s := by
  refine h.invariant (Sends n) ?_ ?_
  · rintro s rfl
    exact ⟨carried_start _ _, carried_start _ _⟩
  · rintro s t hs ⟨a, ha, hst⟩
    exact hs.step ha hst

theorem run_served (h : (system m n books requests).Reachable s) :
    processClientRequests m books s.served = .ok (s.books, s.called ++ s.pending) :=
  Server.runLog_eq ((refines_server m n books requests).reachable h)

theorem responses_used_isPrefix (h : (system m n books requests).Reachable s) :
    s.out.responses.used <+: (responses s.called).map some := by
  rw [responses_eq]
  exact (sends_of_reachable h).responses.isPrefix

theorem updates_used_isPrefix (h : (system m n books requests).Reachable s) :
    s.out.updates.used <+: (updates s.called).map some := by
  rw [updates_eq]
  exact (sends_of_reachable h).updates.isPrefix

/-- **The readers see what the requests lead to one after the other.** In every
state of every interleaving the requests served are the first of those
enqueued, the books are where serving just these ends, and its calls are those
that have returned and those still to be made. What the two readers have taken
are the first responses and the first updates among the calls that have
returned. -/
theorem reads_sequential (h : (system m n books requests).Reachable s) :
    ∃ reqs, s.front.processed = reqs.map some ∧ reqs <+: requests.take s.front.next ∧
      processClientRequests m books reqs = .ok (s.books, s.called ++ s.pending) ∧
      s.out.responses.used <+: (responses s.called).map some ∧
      s.out.updates.used <+: (updates s.called).map some := by
  obtain ⟨hprocessed, hprefix⟩ := served_isPrefix h
  exact ⟨s.served, hprocessed, hprefix, run_served h, responses_used_isPrefix h,
    updates_used_isPrefix h⟩

/-- One request and its two messages, all of them read. -/
theorem reads_sequential_one :
    ∃ (s : State) (reqs : List MEClientRequest), s.front.processed = reqs.map some ∧
      processClientRequests restingBooks (constructBooks fun _ => .zero) reqs =
        .ok (s.books, s.called ++ s.pending) ∧
      [some (StartStop.request.acceptance 1)] <+: (responses s.called).map some ∧
      [some ⟨.add, 1, 0, .buy, 100, 10, 1⟩] <+: (updates s.called).map some := by
  obtain ⟨s, h, -, hresponses, hupdates, -⟩ := exists_served
  obtain ⟨reqs, hprocessed, -, hrun, hr, hu⟩ := reads_sequential h
  exact ⟨s, reqs, hprocessed, hrun, hresponses ▸ hr, hupdates ▸ hu⟩

/-! ### Stopping -/

/-- Calls are pending only while a thread is in `processClientRequest`, and a queue
is being written to only for the first of them. -/
structure InHand (s : State) : Prop where
  thread : s.pending ≠ [] → ∃ k c : ℕ, s.front.threads[k]? = some (.processed c)
  responses : s.out.responses.producer ≠ .idle →
    ∃ r rest, s.pending = .sendClientResponse r :: rest
  updates : s.out.updates.producer ≠ .idle →
    ∃ u rest, s.pending = .sendMarketUpdate u :: rest

theorem InHand.outside (h : InHand s) {a : StartStop.Action} {t : StartStop.State}
    (hst : StartStop.Step requests a s.front t) (hout : Outside s a) (hne : s.pending ≠ []) :
    ∃ k c : ℕ, t.threads[k]? = some (.processed c) := by
  obtain ⟨k, c, hk⟩ := h.thread hne
  refine ⟨k, c, ?_⟩
  cases hst with
  | enqueue | start | stop => exact hk
  | launch =>
      have hlt := (List.getElem?_eq_some_iff.mp hk).1
      show (s.front.threads ++ [StartStop.Thread.testRun])[k]? = _
      rw [List.getElem?_append_left hlt, hk]
  | @run _ j p q p' l hp hrun =>
      have hjk : j ≠ k := by
        rintro rfl
        exact hne ((hout c).2 hk)
      show (s.front.threads.set j p')[k]? = _
      rw [List.getElem?_set_ne hjk, hk]

theorem InHand.step {a : Action} (h : InHand s) (hst : Step m requests a s t) : InHand t := by
  cases hst with
  | front hfront hout => exact ⟨h.outside hfront hout, h.responses, h.updates⟩
  | @processClientRequest _ k c r books sent t hk hcell hserve hfront =>
      refine ⟨fun _ => ⟨k, c, ?_⟩, fun hp => ?_, fun hp => ?_⟩
      · show t.threads[k]? = _
        rw [(processed_holding hk hfront).2.1]
        exact List.getElem?_set_self (List.getElem?_eq_some_iff.mp hk).1
      · obtain ⟨r, rest, hpending⟩ := h.responses hp
        exact ⟨r, rest ++ sent, by simp [hpending]⟩
      · obtain ⟨u, rest, hpending⟩ := h.updates hp
        exact ⟨u, rest ++ sent, by simp [hpending]⟩
  | call hpending hcall =>
      cases hcall with
      | sendClientResponse => exact ⟨h.thread, fun _ => ⟨_, _, hpending⟩, h.updates⟩
      | sendMarketUpdate => exact ⟨h.thread, h.responses, fun _ => ⟨_, _, hpending⟩⟩
  | @returned _ c rest hpending _ =>
      refine ⟨fun _ => h.thread (by simp [hpending]), fun hp => ?_, fun hp => ?_⟩
      · cases c with
        | sendClientResponse r => exact absurd rfl hp
        | sendMarketUpdate u =>
            obtain ⟨r, rest', hr⟩ := h.responses hp
            simp [hpending] at hr
      · cases c with
        | sendClientResponse r =>
            obtain ⟨u, rest', hu⟩ := h.updates hp
            simp [hpending] at hu
        | sendMarketUpdate u => exact absurd rfl hp
  | readResponse htake =>
      refine ⟨h.thread, fun hp => h.responses ?_, h.updates⟩
      rwa [← htake.next_eq.2]
  | readUpdate htake =>
      refine ⟨h.thread, h.responses, fun hp => h.updates ?_⟩
      rwa [← htake.next_eq.2]

theorem inHand_of_reachable (h : (system m n books requests).Reachable s) : InHand s := by
  refine h.invariant InHand ?_ ?_
  · rintro s rfl
    exact ⟨fun hne => absurd rfl hne, fun hp => absurd rfl hp, fun hp => absurd rfl hp⟩
  · rintro s t hs ⟨a, -, hst⟩
    exact hs.step hst

theorem InHand.idle (h : InHand s) (hpending : s.pending = []) :
    s.out.responses.producer = .idle ∧ s.out.updates.producer = .idle := by
  constructor
  · by_contra hp
    obtain ⟨r, rest, hr⟩ := h.responses hp
    rw [hpending] at hr
    contradiction
  · by_contra hp
    obtain ⟨u, rest, hu⟩ := h.updates hp
    rw [hpending] at hu
    contradiction

/-- **A stop never cuts a request short.** In every state of every run in which all
threads of the engine have left their loops, the requests served have been
served to the end: each call has put its message into its queue whole, and the
books and the calls are those of serving just these requests. -/
theorem served_whole_at_exit (h : (system m n books requests).Reachable s)
    (hexit : ∀ p ∈ s.front.threads, p = .exited) :
    ∃ reqs, s.front.processed = reqs.map some ∧ reqs <+: requests.take s.front.next ∧
      processClientRequests m books reqs = .ok (s.books, s.called) ∧
      s.out.responses.next = (responses s.called).length ∧
      s.out.updates.next = (updates s.called).length ∧
      s.out.responses.producer = .idle ∧ s.out.updates.producer = .idle := by
  obtain ⟨hprocessed, hprefix⟩ := served_isPrefix h
  have hin := inHand_of_reachable h
  have hsends := sends_of_reachable h
  have hpending : s.pending = [] := by
    by_contra hne
    obtain ⟨k, c, hk⟩ := hin.thread hne
    have hp := hexit _ (List.mem_of_getElem? hk)
    contradiction
  have hrun := run_served h
  rw [hpending, List.append_nil] at hrun
  exact ⟨s.served, hprocessed, hprefix, hrun,
    hsends.responses.next_eq.trans (by rw [responses_eq]),
    hsends.updates.next_eq.trans (by rw [updates_eq]), hin.idle hpending⟩

/-- A thread that serves a request and is then stopped. -/
theorem served_whole_at_exit_one :
    ∃ s : State, s.front.threads = [.exited] ∧
      processClientRequests restingBooks (constructBooks fun _ => .zero) [StartStop.request] =
        .ok (s.books, s.called) ∧
      s.called = [.sendClientResponse (StartStop.request.acceptance 1),
        .sendMarketUpdate ⟨.add, 1, 0, .buy, 100, 10, 1⟩] ∧
      s.out.responses.next = 1 ∧ s.out.updates.next = 1 ∧
      s.out.responses.producer = .idle ∧ s.out.updates.producer = .idle := by
  obtain ⟨s, h, hprocessed, -, -, hthreads, hsize, hpending, hcalled⟩ := exists_served
  obtain ⟨t, ht, hexited, hprocessed', hcalled'⟩ :=
    exists_exited h hthreads (by rw [hsize]; exact Nat.one_pos) hpending
  rw [hprocessed] at hprocessed'
  rw [hcalled] at hcalled'
  obtain ⟨reqs, hreqs, -, hrun, hresponses, hupdates, hidle⟩ := served_whole_at_exit ht
    (by simp [hexited])
  obtain ⟨r, rfl, hr⟩ := List.map_eq_singleton_iff.mp (hreqs.symm.trans hprocessed')
  obtain rfl := Option.some.inj hr
  rw [hcalled'] at hresponses hupdates
  exact ⟨t, hexited, hrun, hcalled', hresponses, hupdates, hidle⟩

end Pipeline

end LowLatency.Exchange
