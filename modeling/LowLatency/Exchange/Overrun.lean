import LowLatency.Common.Overrun
import LowLatency.Exchange.MatchingEngine

/-!
The engine with readers that do not keep up.

Neither send method looks for room, so a slow reader is lapped. What it gets is
nevertheless determined: each time the newest message in the cell its index
stands at. So it reads what was sent, in order, exactly when it never finds more
messages than the queue has cells, and being lapped has no effect that lasts
beyond the next moment in which the queue is empty.
-/

namespace LowLatency.Exchange

open LowLatency.Lib LowLatency.Common

namespace Delivery

/-! ### One of the queues -/

section Queue

variable {T : Type}

/-- What an event does to a queue and its reader, as an operation if it is one. -/
inductive Applies (q : LFQueue T) (taken : List T) :
    LFQueue T → List T → Option (RingOp T) → Prop
  | put (v : T) : Applies q taken (q.put v) taken (some (.put v))
  | take {self : ℕ} {q' : LFQueue T} {v : Option T} : q.take self = .ok (q', v) →
      Applies q taken q' (taken ++ v.toList) (some .take)
  | quiet : Applies q taken q taken none

/-- A queue of length `n` has been used as `ops` say. -/
structure Used (n : Capacity) (ops : List (RingOp T)) (q : LFQueue T) (taken : List T) :
    Prop where
  capacity : q.capacity = n
  laps : q.Laps (Blind.run n ops)
  taken_eq : taken = (Blind.run n ops).read

variable {n : Capacity} {ops : List (RingOp T)} {q q' : LFQueue T} {taken taken' : List T}

theorem Used.applies (h : Used n ops q taken) {op : Option (RingOp T)}
    (hcount : (Blind.run n (ops ++ op.toList)).sent.length < 2 ^ 64)
    (happ : Applies q taken q' taken' op) : Used n (ops ++ op.toList) q' taken' := by
  obtain ⟨rfl, hlaps, rfl⟩ := h
  cases happ with
  | put v =>
      have hlen : (Blind.run q.capacity (ops ++ [.put v])).sent.length =
          (Blind.run q.capacity ops).sent.length + 1 := by
        rw [Blind.run_snoc]
        exact List.length_append
      rw [Option.toList_some] at hcount ⊢
      rw [hlen] at hcount
      refine ⟨rfl, ?_, ?_⟩
      · rw [Blind.run_snoc]
        exact hlaps.put hcount v
      · rw [Blind.run_snoc]
        rfl
  | @take self _ v htake =>
      obtain ⟨q'', hrun, hcap, hlaps'⟩ := hlaps.take self
      rw [hrun, Except.ok.injEq, Prod.mk.injEq] at htake
      obtain ⟨rfl, rfl⟩ := htake
      refine ⟨hcap, ?_, ?_⟩
      · rw [Option.toList_some, Blind.run_snoc]
        exact hlaps'
      · rw [Option.toList_some, Blind.run_snoc]
        rfl
  | quiet =>
      rw [Option.toList_none, List.append_nil]
      exact ⟨rfl, hlaps, rfl⟩

end Queue

/-- One of the two queues with its reader; `length` is the one it is made with. -/
structure View (T : Type) [Inhabited T] where
  queue : Delivery → LFQueue T
  taken : Delivery → List T
  op : QueueEvent → Option (RingOp T)
  poll : ℕ → QueueEvent
  length : Capacity → Capacity → Capacity
  start_eq : ∀ n m, queue (start n m) = .ofSize (length n m) ∧ taken (start n m) = []
  op_poll : ∀ ev, op ev = some .take ↔ ∃ self, ev = poll self
  applies : ∀ {d d' : Delivery} {ev : QueueEvent}, d.step ev = .ok d' →
    Applies (queue d) (taken d) (queue d') (taken d') (op ev)

def responseOp : QueueEvent → Option (RingOp MEClientResponse)
  | .call (.sendClientResponse r) => some (.put r)
  | .readResponse _ => some .take
  | _ => none

def updateOp : QueueEvent → Option (RingOp MEMarketUpdate)
  | .call (.sendMarketUpdate u) => some (.put u)
  | .readUpdate _ => some .take
  | _ => none

def responsesView : View MEClientResponse where
  queue d := d.engine.outgoingOgwResponses
  taken d := d.responses
  op := responseOp
  poll := .readResponse
  length n m := n
  start_eq n m := ⟨rfl, rfl⟩
  op_poll ev := by rcases ev with (_ | _) | _ | _ <;> simp [responseOp]
  applies {d d' ev} hok := by
    cases ev with
    | call c =>
        rw [step, Except.ok.injEq] at hok
        subst hok
        cases c with
        | sendClientResponse r => exact .put r
        | sendMarketUpdate u => exact .quiet
    | readResponse self =>
        obtain ⟨⟨q, v⟩, htake, hok⟩ := bind_eq_ok.mp hok
        rw [Except.ok.injEq] at hok
        subst hok
        exact .take htake
    | readUpdate self =>
        obtain ⟨⟨q, v⟩, -, hok⟩ := bind_eq_ok.mp hok
        rw [Except.ok.injEq] at hok
        subst hok
        exact .quiet

def updatesView : View MEMarketUpdate where
  queue d := d.engine.outgoingResponses
  taken d := d.updates
  op := updateOp
  poll := .readUpdate
  length n m := m
  start_eq n m := ⟨rfl, rfl⟩
  op_poll ev := by rcases ev with (_ | _) | _ | _ <;> simp [updateOp]
  applies {d d' ev} hok := by
    cases ev with
    | call c =>
        rw [step, Except.ok.injEq] at hok
        subst hok
        cases c with
        | sendClientResponse r => exact .quiet
        | sendMarketUpdate u => exact .put u
    | readResponse self =>
        obtain ⟨⟨q, v⟩, -, hok⟩ := bind_eq_ok.mp hok
        rw [Except.ok.injEq] at hok
        subst hok
        exact .quiet
    | readUpdate self =>
        obtain ⟨⟨q, v⟩, htake, hok⟩ := bind_eq_ok.mp hok
        rw [Except.ok.injEq] at hok
        subst hok
        exact .take htake

/-! ### A run -/

namespace View

variable {T : Type} [Inhabited T] {n m : Capacity}

def ops (v : View T) (evs : List QueueEvent) : List (RingOp T) := evs.filterMap v.op

def sent (v : View T) (evs : List QueueEvent) : List T := (v.ops evs).filterMap RingOp.value

/-- A poll never finds more messages than the queue has cells. -/
def InTime (v : View T) (n m : Capacity) (evs : List QueueEvent) : Prop :=
  ∀ pre self, pre ++ [v.poll self] <+: evs → ∀ d, (start n m).run pre = .ok d →
    (v.queue d).size ≤ v.length n m

variable {v : View T} {evs : List QueueEvent}

theorem sent_isPrefix {pre : List QueueEvent} (h : pre <+: evs) : v.sent pre <+: v.sent evs :=
  (h.filterMap _).filterMap _

theorem used_of_run (hcount : (v.sent evs).length < 2 ^ 64) {d : Delivery}
    (hrun : (start n m).run evs = .ok d) :
    Used (v.length n m) (v.ops evs) (v.queue d) (v.taken d) := by
  obtain ⟨hqueue, htaken⟩ := v.start_eq n m
  refine run_invariant (fun pre d => Used (v.length n m) (v.ops pre) (v.queue d) (v.taken d))
    ?_ ?_ hrun
  · rw [hqueue, htaken]
    exact ⟨rfl, LFQueue.laps_ofSize _, rfl⟩
  · intro pre ev d d' hpre h hok
    have hops : v.ops (pre ++ [ev]) = v.ops pre ++ (v.op ev).toList := by
      rw [ops, List.filterMap_append, ← ops]
      cases hop : v.op ev <;> simp [hop]
    have hlen := (sent_isPrefix (v := v) hpre).length_le.trans_lt hcount
    rw [sent, hops, ← Blind.sent_eq (n := v.length n m)] at hlen
    rw [hops]
    exact h.applies hlen (v.applies hok)

theorem size_of_run (hcount : (v.sent evs).length < 2 ^ 64) {d : Delivery}
    (hrun : (start n m).run evs = .ok d) :
    (v.queue d).size = (Blind.run (v.length n m) (v.ops evs)).sent.length -
      (Blind.run (v.length n m) (v.ops evs)).read.length :=
  (used_of_run hcount hrun).laps.qSize

theorem ops_poll (pre : List QueueEvent) (self : ℕ) :
    v.ops (pre ++ [v.poll self]) = v.ops pre ++ [.take] := by
  have hop := (v.op_poll (v.poll self)).mpr ⟨self, rfl⟩
  simp [ops, hop]

theorem inTime_iff (hcount : (v.sent evs).length < 2 ^ 64) :
    v.InTime n m evs ↔ Blind.InTime (v.length n m) (v.ops evs) := by
  have hsize : ∀ {pre d}, pre <+: evs → (start n m).run pre = .ok d → _ := fun hpre hrun =>
    size_of_run ((sent_isPrefix hpre).length_le.trans_lt hcount) hrun
  constructor
  · intro h pre' hpre' hlt
    obtain ⟨mid, hmid, heq⟩ := List.prefix_filterMap_iff.mp hpre'
    obtain ⟨pre, rest, rfl, rfl, hrest⟩ := List.filterMap_eq_append_iff.mp heq.symm
    obtain ⟨quiet, ev, rest', rfl, hquiet, hev, -⟩ := List.filterMap_eq_cons_iff.mp hrest
    obtain ⟨self, rfl⟩ := (v.op_poll ev).mp hev
    have hpoll : pre ++ quiet ++ [v.poll self] <+: evs :=
      List.IsPrefix.trans ⟨rest', by simp⟩ hmid
    have hops : v.ops (pre ++ quiet) = pre.filterMap v.op := by
      rw [ops, List.filterMap_append, List.filterMap_eq_nil_iff.mpr hquiet, List.append_nil]
    obtain ⟨d, hrun⟩ := exists_run (start n m) (pre ++ quiet)
    have hle := h _ self hpoll d hrun
    rw [hsize ((List.prefix_append _ _).trans hpoll) hrun, hops] at hle
    omega
  · intro h pre self hpre d hrun
    have hops : v.ops pre ++ [.take] <+: v.ops evs := by
      rw [← ops_poll pre self]
      exact hpre.filterMap _
    have hle := h (v.ops pre) hops
    rw [hsize ((List.prefix_append _ _).trans hpre) hrun]
    omega

theorem taken_isPrefix_iff (hcount : (v.sent evs).length < 2 ^ 64) (hnodup : (v.sent evs).Nodup)
    {d : Delivery} (hrun : (start n m).run evs = .ok d) :
    v.taken d <+: v.sent evs ↔ v.InTime n m evs := by
  have hused := used_of_run hcount hrun
  rw [sent, ← Blind.sent_eq (n := v.length n m)] at hnodup ⊢
  rw [hused.taken_eq, inTime_iff hcount]
  exact Blind.read_isPrefix_iff (v.length n m).2.1 hnodup

theorem taken_append {evs' : List QueueEvent} (hcount : (v.sent (evs ++ evs')).length < 2 ^ 64)
    {d₁ d₂ d : Delivery} (h₁ : (start n m).run evs = .ok d₁)
    (h₂ : (start n m).run evs' = .ok d₂) (h : (start n m).run (evs ++ evs') = .ok d)
    (hempty : (v.queue d₁).size = 0) : v.taken d = v.taken d₁ ++ v.taken d₂ := by
  have hops : v.ops (evs ++ evs') = v.ops evs ++ v.ops evs' := List.filterMap_append
  have hcounts : (v.sent evs).length < 2 ^ 64 ∧ (v.sent evs').length < 2 ^ 64 := by
    rw [sent, hops, List.filterMap_append, List.length_append] at hcount
    exact ⟨(Nat.le_add_right _ _).trans_lt hcount, (Nat.le_add_left _ _).trans_lt hcount⟩
  have hcaught : (Blind.run (v.length n m) (v.ops evs)).read.length =
      (Blind.run (v.length n m) (v.ops evs)).sent.length := by
    have hsize := size_of_run hcounts.1 h₁
    have hle := Blind.read_length_le (n := v.length n m) (v.ops evs)
    omega
  rw [(used_of_run hcount h).taken_eq, (used_of_run hcounts.1 h₁).taken_eq,
    (used_of_run hcounts.2 h₂).taken_eq, hops, Blind.run_append_of_length_eq hcaught]

end View

theorem sent_responsesView (evs : List QueueEvent) :
    responsesView.sent evs = sentResponses evs := by
  rw [View.sent, View.ops, List.filterMap_filterMap, sentResponses]
  refine List.filterMap_congr fun ev _ => ?_
  rcases ev with (_ | _) | _ | _ <;> rfl

theorem sent_updatesView (evs : List QueueEvent) : updatesView.sent evs = sentUpdates evs := by
  rw [View.sent, View.ops, List.filterMap_filterMap, sentUpdates]
  refine List.filterMap_congr fun ev _ => ?_
  rcases ev with (_ | _) | _ | _ <;> rfl

/-- Fewer messages than a `size_t` counts are sent to either queue. -/
def Countable (evs : List QueueEvent) : Prop :=
  (sentResponses evs).length < 2 ^ 64 ∧ (sentUpdates evs).length < 2 ^ 64

/-- **What the readers get, lapped or not.** Every run comes to its end, and each
reader has taken, poll by poll, the newest message in the cell of its turn. -/
theorem deliver_newest (n m : Capacity) {evs : List QueueEvent} (hcount : Countable evs) :
    ∃ d, (start n m).run evs = .ok d ∧
      d.responses = (Blind.run n (evs.filterMap responseOp)).read ∧
      d.updates = (Blind.run m (evs.filterMap updateOp)).read := by
  obtain ⟨d, hrun⟩ := exists_run (start n m) evs
  refine ⟨d, hrun, (View.used_of_run (v := responsesView) ?_ hrun).taken_eq,
    (View.used_of_run (v := updatesView) ?_ hrun).taken_eq⟩
  · rw [sent_responsesView]
    exact hcount.1
  · rw [sent_updatesView]
    exact hcount.2

/-- Two responses through a queue with one cell, and then a poll. -/
def lapped : List QueueEvent :=
  [.call (.sendClientResponse { clientOrderId := 1 }),
    .call (.sendClientResponse { clientOrderId := 2 }), .readResponse 0]

/-- The second response is read twice. -/
theorem deliver_newest_two :
    ∃ d, (start ⟨1, by decide⟩ ⟨1, by decide⟩).run (lapped ++ [.readResponse 0]) = .ok d ∧
      d.responses = [{ clientOrderId := 2 }, { clientOrderId := 2 }] ∧ d.updates = [] := by
  have hcount : Countable (lapped ++ [.readResponse 0]) := ⟨by decide, by decide⟩
  obtain ⟨d, hrun, hresponses, hupdates⟩ := deliver_newest ⟨1, by decide⟩ ⟨1, by decide⟩ hcount
  exact ⟨d, hrun, hresponses.trans (by decide +kernel), hupdates.trans (by decide +kernel)⟩

/-- **Exactly the readers that keep up get the messages in order.** When all messages
to a queue are different, what has been taken from it is a prefix of what was
sent if and only if no poll of it found more messages than it has cells. -/
theorem deliver_inOrder_iff {n m : Capacity} {evs : List QueueEvent} (hcount : Countable evs)
    {d : Delivery} (hrun : (start n m).run evs = .ok d) :
    ((sentResponses evs).Nodup →
        (d.responses <+: sentResponses evs ↔ responsesView.InTime n m evs)) ∧
      ((sentUpdates evs).Nodup →
        (d.updates <+: sentUpdates evs ↔ updatesView.InTime n m evs)) := by
  rw [Countable, ← sent_responsesView, ← sent_updatesView] at hcount
  rw [← sent_responsesView, ← sent_updatesView]
  exact ⟨fun hnodup => View.taken_isPrefix_iff (v := responsesView) hcount.1 hnodup hrun,
    fun hnodup => View.taken_isPrefix_iff (v := updatesView) hcount.2 hnodup hrun⟩

/-- The poll finds two responses in one cell. -/
theorem deliver_inOrder_iff_lapped :
    ∃ d, (start ⟨1, by decide⟩ ⟨1, by decide⟩).run lapped = .ok d ∧
      ¬ d.responses <+: sentResponses lapped := by
  obtain ⟨d, hrun⟩ := exists_run (start ⟨1, by decide⟩ ⟨1, by decide⟩) lapped
  obtain ⟨d', hpre, hsize⟩ := exists_of_succeedsWith
    (p := fun d => decide (d.engine.outgoingOgwResponses.size = 2))
    (x := (start ⟨1, by decide⟩ ⟨1, by decide⟩).run (lapped.take 2)) (by decide +kernel)
  refine ⟨d, hrun, fun hprefix => ?_⟩
  have hle := ((deliver_inOrder_iff ⟨by decide, by decide⟩ hrun).1 (by decide)).mp hprefix
    (lapped.take 2) 0 (List.prefix_refl _) d' hpre
  have htwo : d'.engine.outgoingOgwResponses.size ≤ 1 := hle
  have hsize := of_decide_eq_true hsize
  omega

/-- **Being lapped does not last.** When a reader finds its queue empty, whatever it
has missed before, it gets from there on what it would get from a new queue. -/
theorem deliver_after_empty {n m : Capacity} {evs evs' : List QueueEvent}
    (hcount : Countable (evs ++ evs')) {d₁ d₂ d : Delivery}
    (h₁ : (start n m).run evs = .ok d₁) (h₂ : (start n m).run evs' = .ok d₂)
    (h : (start n m).run (evs ++ evs') = .ok d) :
    (d₁.engine.outgoingOgwResponses.size = 0 → d.responses = d₁.responses ++ d₂.responses) ∧
      (d₁.engine.outgoingResponses.size = 0 → d.updates = d₁.updates ++ d₂.updates) := by
  refine ⟨View.taken_append (v := responsesView) ?_ h₁ h₂ h,
    View.taken_append (v := updatesView) ?_ h₁ h₂ h⟩
  · rw [sent_responsesView]
    exact hcount.1
  · rw [sent_updatesView]
    exact hcount.2

theorem deliver_after_empty_lapped :
    ∃ d, (start ⟨1, by decide⟩ ⟨1, by decide⟩).run ((lapped ++ [.readResponse 0]) ++
        [.call (.sendClientResponse { clientOrderId := 3 }), .readResponse 0]) = .ok d ∧
      d.responses = [{ clientOrderId := 2 }, { clientOrderId := 2 }] ++
        [{ clientOrderId := 3 }] := by
  obtain ⟨d, hrun⟩ := exists_run (start ⟨1, by decide⟩ ⟨1, by decide⟩)
    ((lapped ++ [.readResponse 0]) ++
      [.call (.sendClientResponse { clientOrderId := 3 }), .readResponse 0])
  obtain ⟨d₁, hrun₁, h₁⟩ := exists_of_succeedsWith
    (p := fun d => decide (d.engine.outgoingOgwResponses.size = 0 ∧
      d.responses = [{ clientOrderId := 2 }, { clientOrderId := 2 }]))
    (x := (start ⟨1, by decide⟩ ⟨1, by decide⟩).run (lapped ++ [.readResponse 0]))
    (by decide +kernel)
  obtain ⟨d₂, hrun₂, h₂⟩ := exists_of_succeedsWith
    (p := fun d => decide (d.responses = [{ clientOrderId := 3 }]))
    (x := (start ⟨1, by decide⟩ ⟨1, by decide⟩).run
      [.call (.sendClientResponse { clientOrderId := 3 }), .readResponse 0])
    (by decide +kernel)
  obtain ⟨hempty, hresponses⟩ := of_decide_eq_true h₁
  refine ⟨d, hrun, ?_⟩
  rw [(deliver_after_empty ⟨by decide, by decide⟩ hrun₁ hrun₂ hrun).1 hempty, hresponses,
    of_decide_eq_true h₂]

end Delivery

end LowLatency.Exchange
