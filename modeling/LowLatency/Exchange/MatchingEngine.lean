import LowLatency.Common.LFQueue
import LowLatency.Exchange.Messages

/-!
`matching_engine.cpp`: the two queues messages leave the engine through.

A run is a list of events: a call of one of the send methods, or a reader that
polls its queue and takes a message if there is one. Neither the queue nor the
engine looks whether there is room, so `deliver_lossless` asks for it: a queue
delivers what is sent to it as long as every send finds room.
-/

namespace LowLatency.Exchange

open LowLatency.Lib LowLatency.Common

/-- The part of the engine its send methods use. -/
structure MatchingEngine where
  outgoingOgwResponses : LFQueue MEClientResponse
  outgoingResponses : LFQueue MEMarketUpdate

namespace MatchingEngine

def ofSizes (n m : Capacity) : MatchingEngine := ⟨.ofSize n, .ofSize m⟩

def sendClientResponse (e : MatchingEngine) (clientResponse : MEClientResponse) :
    MatchingEngine :=
  { e with outgoingOgwResponses := e.outgoingOgwResponses.put clientResponse }

def sendMarketUpdate (e : MatchingEngine) (marketUpdate : MEMarketUpdate) : MatchingEngine :=
  { e with outgoingResponses := e.outgoingResponses.put marketUpdate }

def call (e : MatchingEngine) : EngineCall → MatchingEngine
  | .sendClientResponse r => e.sendClientResponse r
  | .sendMarketUpdate u => e.sendMarketUpdate u

end MatchingEngine

/-- What can happen to the queues; a reader is known by its thread. -/
inductive QueueEvent
  | call (c : EngineCall)
  | readResponse (self : ℕ)
  | readUpdate (self : ℕ)

/-- An engine together with the messages its readers have taken. -/
structure Delivery where
  engine : MatchingEngine
  responses : List MEClientResponse
  updates : List MEMarketUpdate

namespace Delivery

def start (n m : Capacity) : Delivery := ⟨.ofSizes n m, [], []⟩

def step (d : Delivery) : QueueEvent → Exec Delivery
  | .call c => .ok { d with engine := d.engine.call c }
  | .readResponse self => do
      let (q, r) ← d.engine.outgoingOgwResponses.take self
      .ok { d with
        engine := { d.engine with outgoingOgwResponses := q }
        responses := d.responses ++ r.toList }
  | .readUpdate self => do
      let (q, u) ← d.engine.outgoingResponses.take self
      .ok { d with
        engine := { d.engine with outgoingResponses := q }
        updates := d.updates ++ u.toList }

def run (d : Delivery) (evs : List QueueEvent) : Exec Delivery := evs.foldlM step d

def sentResponses (evs : List QueueEvent) : List MEClientResponse :=
  evs.filterMap fun
    | .call (.sendClientResponse r) => some r
    | _ => none

def sentUpdates (evs : List QueueEvent) : List MEMarketUpdate :=
  evs.filterMap fun
    | .call (.sendMarketUpdate u) => some u
    | _ => none

/-- Every send to the first queue finds fewer than `n` unread messages. -/
def ResponsesHaveRoom (n m : Capacity) (evs : List QueueEvent) : Prop :=
  ∀ pre r, pre ++ [.call (.sendClientResponse r)] <+: evs → ∀ d, (start n m).run pre = .ok d →
    d.engine.outgoingOgwResponses.size < n

/-- Every send to the second queue finds fewer than `m` unread messages. -/
def UpdatesHaveRoom (n m : Capacity) (evs : List QueueEvent) : Prop :=
  ∀ pre u, pre ++ [.call (.sendMarketUpdate u)] <+: evs → ∀ d, (start n m).run pre = .ok d →
    d.engine.outgoingResponses.size < m

/-! ### One queue -/

/-- Of the messages `sent` to a queue of length `n`, `taken` have been read and
the rest are in it. -/
def Carries {T : Type} (n : Capacity) (q : LFQueue T) (taken sent : List T) : Prop :=
  q.capacity = n ∧ ∃ r content, q.Holds r content ∧ taken ++ content = sent

section Queue

variable {T : Type} {n : Capacity} {q : LFQueue T} {taken sent : List T}

theorem carries_ofSize [Inhabited T] (n : Capacity) :
    Carries n (.ofSize n : LFQueue T) [] [] := ⟨rfl, 0, [], LFQueue.holds_ofSize n, rfl⟩

theorem Carries.put (h : Carries n q taken sent) (hroom : q.size < n) (v : T) :
    Carries n (q.put v) taken (sent ++ [v]) := by
  obtain ⟨rfl, r, content, hq, rfl⟩ := h
  exact ⟨rfl, r, content ++ [v], hq.put hroom v, by simp⟩

theorem Carries.take (h : Carries n q taken sent) {self : ℕ} {q' : LFQueue T} {v : Option T}
    (hok : q.take self = .ok (q', v)) : Carries n q' (taken ++ v.toList) sent := by
  obtain ⟨rfl, r, content, hq, rfl⟩ := h
  obtain ⟨q'', hrun, hcap, r', hq'⟩ := hq.take self
  rw [hrun, Except.ok.injEq, Prod.mk.injEq] at hok
  obtain ⟨rfl, rfl⟩ := hok
  refine ⟨hcap, r', _, hq', ?_⟩
  cases content <;> simp

/-- What an event does to a queue and its reader: the messages `out` go in, or
the reader takes what it finds, or nothing happens. -/
inductive Change (q : LFQueue T) (taken : List T) : LFQueue T → List T → List T → Prop
  | put (v : T) : Change q taken (q.put v) taken [v]
  | take {self : ℕ} {q' : LFQueue T} {v : Option T} : q.take self = .ok (q', v) →
      Change q taken q' (taken ++ v.toList) []
  | quiet : Change q taken q taken []

theorem Carries.change (h : Carries n q taken sent) {q' : LFQueue T} {taken' out : List T}
    (hchange : Change q taken q' taken' out) (hroom : ∀ v, out = [v] → q.size < n) :
    Carries n q' taken' (sent ++ out) := by
  cases hchange with
  | put v => exact h.put (hroom v rfl) v
  | take htake =>
      rw [List.append_nil]
      exact h.take htake
  | quiet =>
      rw [List.append_nil]
      exact h

theorem Carries.prefix_of (h : Carries n q taken sent) : taken <+: sent := by
  obtain ⟨-, r, content, -, hsent⟩ := h
  exact ⟨content, hsent⟩

end Queue

/-! ### A run -/

/-- No event stops the engine or a reader. -/
theorem exists_step (d : Delivery) (ev : QueueEvent) : ∃ d', d.step ev = .ok d' := by
  cases ev with
  | call c => exact ⟨_, rfl⟩
  | readResponse self =>
      obtain ⟨⟨q, v⟩, hrun⟩ := d.engine.outgoingOgwResponses.exists_take self
      exact ⟨_, by rw [step, hrun, ok_bind]⟩
  | readUpdate self =>
      obtain ⟨⟨q, v⟩, hrun⟩ := d.engine.outgoingResponses.exists_take self
      exact ⟨_, by rw [step, hrun, ok_bind]⟩

theorem exists_run (d : Delivery) (evs : List QueueEvent) : ∃ d', d.run evs = .ok d' := by
  obtain ⟨d', hrun, -⟩ := run_ok step d evs (fun _ _ => True) trivial
    fun _ ev t _ _ => (exists_step t ev).imp fun _ h => ⟨h, trivial⟩
  exact ⟨d', hrun⟩

theorem responses_change {d d' : Delivery} {ev : QueueEvent} (hok : d.step ev = .ok d') :
    Change d.engine.outgoingOgwResponses d.responses d'.engine.outgoingOgwResponses
      d'.responses (sentResponses [ev]) := by
  cases ev with
  | call c =>
      rw [step, Except.ok.injEq] at hok
      subst hok
      cases c with
      | sendClientResponse r => exact .put r
      | sendMarketUpdate u => exact .quiet
  | readResponse self =>
      obtain ⟨⟨q, v⟩, htake, hok⟩ := bind_eq_ok.mp hok
      rw [Except.ok.injEq] at hok
      subst hok
      exact .take htake
  | readUpdate self =>
      obtain ⟨⟨q, v⟩, -, hok⟩ := bind_eq_ok.mp hok
      rw [Except.ok.injEq] at hok
      subst hok
      exact .quiet

theorem updates_change {d d' : Delivery} {ev : QueueEvent} (hok : d.step ev = .ok d') :
    Change d.engine.outgoingResponses d.updates d'.engine.outgoingResponses d'.updates
      (sentUpdates [ev]) := by
  cases ev with
  | call c =>
      rw [step, Except.ok.injEq] at hok
      subst hok
      cases c with
      | sendClientResponse r => exact .quiet
      | sendMarketUpdate u => exact .put u
  | readResponse self =>
      obtain ⟨⟨q, v⟩, -, hok⟩ := bind_eq_ok.mp hok
      rw [Except.ok.injEq] at hok
      subst hok
      exact .quiet
  | readUpdate self =>
      obtain ⟨⟨q, v⟩, htake, hok⟩ := bind_eq_ok.mp hok
      rw [Except.ok.injEq] at hok
      subst hok
      exact .take htake

theorem eq_call_of_sentResponses {ev : QueueEvent} {r : MEClientResponse}
    (h : sentResponses [ev] = [r]) : ev = .call (.sendClientResponse r) := by
  rcases ev with (_ | _) | _ | _ <;> simp_all [sentResponses]

theorem eq_call_of_sentUpdates {ev : QueueEvent} {u : MEMarketUpdate}
    (h : sentUpdates [ev] = [u]) : ev = .call (.sendMarketUpdate u) := by
  rcases ev with (_ | _) | _ | _ <;> simp_all [sentUpdates]

theorem carries_responses {n m : Capacity} {evs : List QueueEvent} {d : Delivery}
    (hroom : ResponsesHaveRoom n m evs) (hrun : (start n m).run evs = .ok d) :
    Carries n d.engine.outgoingOgwResponses d.responses (sentResponses evs) := by
  refine (run_invariant (fun pre d => (start n m).run pre = .ok d ∧
    Carries n d.engine.outgoingOgwResponses d.responses (sentResponses pre))
    ⟨rfl, carries_ofSize n⟩ ?_ hrun).2
  rintro pre ev t t' hpre ⟨ht, h⟩ hok
  refine ⟨run_snoc_eq_ok.mpr ⟨t, ht, hok⟩, ?_⟩
  rw [sentResponses, List.filterMap_append]
  refine h.change (responses_change hok) fun r hr => ?_
  rw [eq_call_of_sentResponses hr] at hpre
  exact hroom pre r hpre t ht

theorem carries_updates {n m : Capacity} {evs : List QueueEvent} {d : Delivery}
    (hroom : UpdatesHaveRoom n m evs) (hrun : (start n m).run evs = .ok d) :
    Carries m d.engine.outgoingResponses d.updates (sentUpdates evs) := by
  refine (run_invariant (fun pre d => (start n m).run pre = .ok d ∧
    Carries m d.engine.outgoingResponses d.updates (sentUpdates pre))
    ⟨rfl, carries_ofSize m⟩ ?_ hrun).2
  rintro pre ev t t' hpre ⟨ht, h⟩ hok
  refine ⟨run_snoc_eq_ok.mpr ⟨t, ht, hok⟩, ?_⟩
  rw [sentUpdates, List.filterMap_append]
  refine h.change (updates_change hok) fun u hu => ?_
  rw [eq_call_of_sentUpdates hu] at hpre
  exact hroom pre u hpre t ht

/-- **No message is lost, overwritten or repeated** by a queue whose sends all
find room, whatever goes on at the other queue: the run completes, and the
reader has taken a prefix of what was sent. -/
theorem deliver_lossless (n m : Capacity) (evs : List QueueEvent) :
    ∃ d, (start n m).run evs = .ok d ∧
      (ResponsesHaveRoom n m evs → d.responses <+: sentResponses evs) ∧
      (UpdatesHaveRoom n m evs → d.updates <+: sentUpdates evs) := by
  obtain ⟨d, hrun⟩ := exists_run (start n m) evs
  exact ⟨d, hrun, fun hroom => (carries_responses hroom hrun).prefix_of,
    fun hroom => (carries_updates hroom hrun).prefix_of⟩

/-- Two responses through a queue with one cell, each read before the next. -/
theorem deliver_lossless_two :
    ∃ d, (start ⟨1, by decide⟩ ⟨1, by decide⟩).run
        [.call (.sendClientResponse { clientOrderId := 1 }), .readResponse 0,
          .call (.sendClientResponse { clientOrderId := 2 }), .readResponse 0] = .ok d ∧
      d.responses <+: sentResponses
        [.call (.sendClientResponse { clientOrderId := 1 }), .readResponse 0,
          .call (.sendClientResponse { clientOrderId := 2 }), .readResponse 0] := by
  obtain ⟨d, hrun, hresponses, -⟩ := deliver_lossless ⟨1, by decide⟩ ⟨1, by decide⟩
    [.call (.sendClientResponse { clientOrderId := 1 }), .readResponse 0,
      .call (.sendClientResponse { clientOrderId := 2 }), .readResponse 0]
  refine ⟨d, hrun, hresponses ?_⟩
  have hroom : ∀ {pre t}, (start ⟨1, by decide⟩ ⟨1, by decide⟩).run pre = .ok t →
      succeedsWith ((start ⟨1, by decide⟩ ⟨1, by decide⟩).run pre)
        (fun t => decide (t.engine.outgoingOgwResponses.size < 1)) = true →
      t.engine.outgoingOgwResponses.size < 1 := by
    intro pre t ht hsize
    rw [ht] at hsize
    exact of_decide_eq_true hsize
  rintro pre r hpre t ht
  rcases pre with _ | ⟨_, _ | ⟨_, _ | ⟨_, _ | ⟨_, pre⟩⟩⟩⟩
  all_goals
    simp only [List.nil_append, List.cons_append, List.cons_prefix_cons, List.prefix_nil,
      List.append_eq_nil_iff, List.cons_ne_nil, and_false, List.nil_prefix, and_true,
      reduceCtorEq] at hpre
  · exact hroom ht (by decide +kernel)
  · obtain ⟨rfl, rfl, -⟩ := hpre
    exact hroom ht (by decide +kernel)

/-- Two responses sent through a queue with one cell before the first is read:
the reader gets the second. -/
theorem second_response_overwrites :
    ∃ d, (start ⟨1, by decide⟩ ⟨1, by decide⟩).run
        [.call (.sendClientResponse { clientOrderId := 1 }),
          .call (.sendClientResponse { clientOrderId := 2 }), .readResponse 0] = .ok d ∧
      ¬ d.responses <+: sentResponses [.call (.sendClientResponse { clientOrderId := 1 }),
        .call (.sendClientResponse { clientOrderId := 2 }), .readResponse 0] := by
  obtain ⟨d, hrun, htaken⟩ := exists_of_succeedsWith
    (p := fun d => decide (d.responses = [{ clientOrderId := 2 }]))
    (x := (start ⟨1, by decide⟩ ⟨1, by decide⟩).run
      [.call (.sendClientResponse { clientOrderId := 1 }),
        .call (.sendClientResponse { clientOrderId := 2 }), .readResponse 0])
    (by decide +kernel)
  refine ⟨d, hrun, ?_⟩
  rw [of_decide_eq_true htaken]
  decide

end Delivery

end LowLatency.Exchange
