import LowLatency.Exchange.Construction
import LowLatency.Exchange.MarketData
import LowLatency.Exchange.Pipeline

/-!
What the readers of the two outgoing queues can rely on.

Neither reader sees the books. What they have read is nevertheless a history
of the books, cut off somewhere: the gateway's acceptances are those of the
requests, ticker by ticker and in order, and a subscriber's additions for a
price are the orders that rest at it, from the oldest on.
-/

namespace LowLatency.Exchange

open LowLatency.Lib LowLatency.Common MEOrderBook

/-! ### Acceptances -/

/-- The acceptances that answer requests for one ticker, numbered from 1. -/
def acceptancesFor (reqs : List MEClientRequest) (t : TickerId) : List MEClientResponse :=
  (reqs.filter fun r => r.tickerId = t).mapIdx fun j r => r.acceptance (UInt64.ofNat (j + 1))

theorem acceptancesFor_concat (reqs : List MEClientRequest) (r : MEClientRequest)
    (t : TickerId) : acceptancesFor (reqs ++ [r]) t =
      acceptancesFor reqs t ++
        if r.tickerId = t then [r.acceptance (UInt64.ofNat (countTicker reqs t + 1))]
        else [] := by
  rw [acceptancesFor, List.filter_append, acceptancesFor]
  by_cases ht : r.tickerId = t
  · simp [ht, countTicker, List.countP_eq_length_filter]
  · simp [ht]

theorem acceptancesFor_isPrefix {reqs reqs' : List MEClientRequest} (h : reqs <+: reqs')
    (t : TickerId) : acceptancesFor reqs t <+: acceptancesFor reqs' t := by
  obtain ⟨rest, rfl⟩ := h
  rw [acceptancesFor, acceptancesFor, List.filter_append, List.mapIdx_append]
  exact List.prefix_append _ _

theorem acceptances_of_run {m : BookMethods} (hcm : AnswerContract m.checkMatch)
    {mem : ℕ → Storage} {reqs : List MEClientRequest}
    (hnew : ∀ r ∈ reqs, r.clientRequestType = .new) {books : OrderBookHashMap}
    {log : List EngineCall}
    (hrun : processClientRequests m (constructBooks mem) reqs = .ok (books, log))
    (t : TickerId) :
    ((acceptances log).filter fun r => r.tickerId = t) = acceptancesFor reqs t := by
  refine (runLog_invariant (fun pre books log => Counted pre books ∧
    ∀ t, ((acceptances log).filter fun r => r.tickerId = t) = acceptancesFor pre t)
    ⟨counted_constructBooks mem, fun _ => rfl⟩ ?_ hrun).2 t
  rintro pre r books log books' sent hpre ⟨h, heq⟩ hok
  obtain ⟨h', hanswered⟩ := h.step hcm (hnew r (hpre.subset (by simp))) hok
  refine ⟨h', fun t => ?_⟩
  rw [acceptances_append, hanswered.accepted, List.filter_append, heq, acceptancesFor_concat]
  by_cases ht : r.tickerId = t
  · subst ht
    simp [MEClientRequest.acceptance]
  · simp [MEClientRequest.acceptance, ht]

namespace Pipeline

variable {m : BookMethods} {n : Lengths} {books : OrderBookHashMap}
  {requests : List MEClientRequest} {s : State}

/-- **The gateway reads the acceptances in order.** In every state of every
interleaving the acceptances read for a ticker are the first of those that
answer the requests enqueued for it, the k-th one under the number k. -/
theorem accepted_in_order (hcm : AnswerContract m.checkMatch) {mem : ℕ → Storage}
    (hnew : ∀ r ∈ requests, r.clientRequestType = .new)
    (h : (system m n (constructBooks mem) requests).Reachable s) :
    ∃ rs : List MEClientResponse, s.out.responses.used = rs.map some ∧ ∀ t,
      ((rs.filter fun r => r.clientResponseType = .accepted).filter fun r => r.tickerId = t) <+:
        acceptancesFor (requests.take s.front.next) t := by
  obtain ⟨rs, hrs, hmap⟩ := List.prefix_map_iff.mp (responses_used_isPrefix h)
  have hrun := run_served h
  have henqueued := (served_isPrefix h).2
  have hsub := henqueued.trans (List.take_prefix _ _)
  refine ⟨rs, hmap, fun t => ?_⟩
  have hall : rs <+: responses (s.called ++ s.pending) := by
    refine hrs.trans ?_
    rw [responses_eq, responses_eq, List.filterMap_append]
    exact List.prefix_append _ _
  have hfilter := (hall.filter fun r => r.clientResponseType = .accepted).filter
    fun r => r.tickerId = t
  rw [← acceptances, acceptances_of_run hcm (fun r hr => hnew r (hsub.subset hr)) hrun t]
    at hfilter
  exact hfilter.trans (acceptancesFor_isPrefix henqueued t)

theorem answerContract_noMatch : AnswerContract noMatch where
  tickerId _ _ _ _ _ _ _ _ := rfl
  nextOrderId _ _ _ _ _ _ _ _ := rfl
  noAcceptance _ _ _ _ _ _ _ _ := rfl
  noAdd _ _ _ _ _ _ _ _ := rfl

theorem accepted_in_order_one :
    ∃ (s : State) (rs : List MEClientResponse),
      [some (StartStop.request.acceptance 1)] = rs.map some ∧
      ((rs.filter fun r => r.clientResponseType = .accepted).filter fun r => r.tickerId = 0) <+:
        acceptancesFor ([StartStop.request].take s.front.next) 0 := by
  obtain ⟨s, h, -, hresponses, -⟩ := exists_served
  obtain ⟨rs, hmap, hprefix⟩ := accepted_in_order answerContract_noMatch (by decide) h
  exact ⟨s, rs, hresponses ▸ hmap, hprefix 0⟩

end Pipeline

/-! ### The stream of one book among those of the others -/

theorem MEOrderBook.StreamRep.add {checkMatch : CheckMatch} (hcm : Passive checkMatch)
    {reading : PriorityReading} {b b' : MEOrderBook} {fifo : ℕ → List Addr}
    {sent out : List EngineCall} (h : StreamRep b fifo sent) {x : AddArgs}
    (hprice : x.price.toNat < meMaxPriceLevels)
    (hok : b.add checkMatch reading x = .ok (b', out)) :
    ∃ fifo', StreamRep b' fifo' (sent ++ out) := by
  have haccept := h.accept hcm x
  rcases add_eq_ok hok with ⟨-, rfl, rfl⟩ | ⟨-, out, hrest, rfl⟩
  · exact ⟨fifo, haccept⟩
  · obtain ⟨b₁, o, hplace, u, hu, rfl, rfl⟩ := haccept.toOrdersRep.restOrder_eq_ok hrest
    have hplaced := haccept.place hprice hplace
      ((b.acceptAndMatch checkMatch x).2.book.nextPriority (fifo (priceToIndex x.price)))
    rw [← hu, List.append_assoc] at hplaced
    exact ⟨_, hplaced.congr ⟨rfl, rfl, rfl, rfl⟩ rfl⟩

def callsFor (log : List EngineCall) (i : ℕ) : List EngineCall :=
  log.filter fun c => c.tickerId.toNat = i

/-- Every book knows its ticker, and its queues and the calls about it read the
same. -/
structure Streamed (books : OrderBookHashMap) (log : List EngineCall) : Prop where
  numbered : Numbered books
  stream : ∀ i < meMaxTickers, ∃ fifo, StreamRep (books i) fifo (callsFor log i)

theorem streamed_constructBooks {mem : ℕ → Storage} (hmem : ∀ i < meMaxTickers, (mem i).Null) :
    Streamed (constructBooks mem) [] where
  numbered := numbered_constructBooks mem
  stream i hi := ⟨_, .start ⟨rfl, rfl, (hmem i hi).priceOrdersAtPrice⟩⟩

theorem Streamed.step {m : BookMethods} (hcm : Passive m.checkMatch)
    (hlocal : LocalMatch m.checkMatch) {books books' : OrderBookHashMap}
    {log sent : List EngineCall} (h : Streamed books log) {r : MEClientRequest}
    (hnew : r.clientRequestType = .new) (hprice : r.price.toNat < meMaxPriceLevels)
    (hok : processClientRequest m books r = .ok (books', sent)) :
    Streamed books' (log ++ sent) := by
  obtain ⟨hlt, hroute⟩ := processClientRequest_eq_ok.mp hok
  obtain ⟨b', hserve, rfl⟩ := route_eq_ok.mp hroute
  rw [serve, hnew] at hserve
  obtain ⟨hticker, hsent⟩ := hlocal.add hserve
  have hown : ∀ call ∈ sent, call.tickerId.toNat = r.index := fun call hcall => by
    rw [hsent call hcall, h.numbered r.index hlt]
  refine ⟨fun i hi => ?_, fun i hi => ?_⟩
  · by_cases hir : i = r.index
    · subst hir
      rw [Function.update_self, hticker]
      exact h.numbered _ hlt
    · rw [Function.update_of_ne hir]
      exact h.numbered i hi
  · obtain ⟨fifo, hrep⟩ := h.stream i hi
    rw [callsFor, List.filter_append]
    by_cases hir : i = r.index
    · subst hir
      have hall : (sent.filter fun c => c.tickerId.toNat = r.index) = sent :=
        List.filter_eq_self.mpr fun c hc => decide_eq_true (hown c hc)
      rw [Function.update_self, hall]
      exact hrep.add hcm hprice hserve
    · have hnone : (sent.filter fun c => c.tickerId.toNat = i) = [] :=
        List.filter_eq_nil_iff.mpr fun c hc hci =>
          hir ((of_decide_eq_true hci).symm.trans (hown c hc))
      rw [Function.update_of_ne hir, hnone, List.append_nil]
      exact ⟨fifo, hrep⟩

theorem streamed_of_run {m : BookMethods} (hcm : Passive m.checkMatch)
    (hlocal : LocalMatch m.checkMatch) {mem : ℕ → Storage}
    (hmem : ∀ i < meMaxTickers, (mem i).Null) {reqs : List MEClientRequest}
    (hreqs : ∀ r ∈ reqs, r.clientRequestType = .new ∧ r.price.toNat < meMaxPriceLevels)
    {books : OrderBookHashMap} {log : List EngineCall}
    (hrun : processClientRequests m (constructBooks mem) reqs = .ok (books, log)) :
    Streamed books log := by
  refine runLog_invariant (fun _ books log => Streamed books log)
    (streamed_constructBooks hmem) ?_ hrun
  intro pre r books log books' sent hpre h hok
  obtain ⟨hnew, hprice⟩ := hreqs r (hpre.subset (by simp))
  exact h.step hcm hlocal hnew hprice hok

def additionsAt (us : List MEMarketUpdate) (t : TickerId) (price : Price) :
    List MEMarketUpdate :=
  ((us.filter fun u => u.tickerId = t).filter fun u => u.type = .add).filter
    fun u => u.price = price

theorem additionsAt_isPrefix {us us' : List MEMarketUpdate} (h : us <+: us') (t : TickerId)
    (price : Price) : additionsAt us t price <+: additionsAt us' t price :=
  ((h.filter _).filter _).filter _

theorem addUpdates_eq_filter (calls : List EngineCall) :
    addUpdates calls = (updates calls).filter fun u => u.type = .add := by
  induction calls with
  | nil => rfl
  | cons c calls ih =>
      cases c with
      | sendClientResponse r => exact ih
      | sendMarketUpdate u =>
          by_cases hu : u.type = .add
          · rw [addUpdates_update hu, ih]
            simp [updates, hu]
          · simpa [addUpdates, updates, hu] using ih

theorem additionsAt_updates (log : List EngineCall) (t : TickerId) (price : Price) :
    additionsAt (updates log) t price = updatesAt (callsFor log t.toNat) price := by
  have hcalls : callsFor log t.toNat = log.filter fun c => c.tickerId = t := by
    refine List.filter_congr fun c _ => ?_
    simp only [UInt32.toNat_inj]
  rw [additionsAt, filter_updates, ← addUpdates_eq_filter, updatesAt, hcalls]

namespace Pipeline

variable {m : BookMethods} {n : Lengths} {requests : List MEClientRequest} {s : State}

/-- **A subscriber's picture of a price is never wrong, only late.** As long as
nothing matches, in every state of every interleaving the additions read for a
ticker and a price are those of the oldest orders that rest there, in the order
in which the book has them. -/
theorem additions_prefix_of_book (hcm : Passive m.checkMatch)
    (hlocal : LocalMatch m.checkMatch) {mem : ℕ → Storage}
    (hmem : ∀ i < meMaxTickers, (mem i).Null)
    (hrequests : ∀ r ∈ requests,
      r.clientRequestType = .new ∧ r.price.toNat < meMaxPriceLevels)
    (h : (system m n (constructBooks mem) requests).Reachable s) :
    ∃ us : List MEMarketUpdate, s.out.updates.used = us.map some ∧
      ∀ t : TickerId, t.toNat < meMaxTickers → ∀ price : Price,
        price.toNat < meMaxPriceLevels → ∃ l, (s.books t.toNat).ordersAt price = some l ∧
          (additionsAt us t price).map updateView <+:
            l.map fun a => orderView ((s.books t.toNat).order a) := by
  obtain ⟨us, hus, hmap⟩ := List.prefix_map_iff.mp (updates_used_isPrefix h)
  have hrun := run_served h
  have hsub := (served_isPrefix h).2.trans (List.take_prefix _ _)
  have hstreamed := streamed_of_run hcm hlocal hmem
    (fun r hr => hrequests r (hsub.subset hr)) hrun
  have hall : us <+: updates (s.called ++ s.pending) := by
    refine hus.trans ?_
    rw [updates_eq, updates_eq, List.filterMap_append]
    exact List.prefix_append _ _
  refine ⟨us, hmap, fun t ht price hprice => ?_⟩
  obtain ⟨fifo, hrep⟩ := hstreamed.stream t.toNat ht
  refine ⟨_, hrep.toOrdersRep.ordersAt_eq hprice, ?_⟩
  rw [hrep.view price hprice, ← additionsAt_updates]
  exact (additionsAt_isPrefix hall t price).map updateView

theorem localMatch_noMatch : LocalMatch noMatch where
  tickerId _ _ _ _ _ _ _ _ := rfl
  sent _ _ _ _ _ _ _ _ _ hcall := by simp [noMatch] at hcall

theorem additions_prefix_of_book_one :
    ∃ (s : State) (us : List MEMarketUpdate),
      [some ⟨.add, 1, 0, .buy, 100, 10, 1⟩] = us.map some ∧
      ∃ l, (s.books 0).ordersAt 100 = some l ∧
        (additionsAt us 0 100).map updateView <+:
          l.map fun a => orderView ((s.books 0).order a) := by
  obtain ⟨s, h, -, -, hupdates, -⟩ := exists_served
  obtain ⟨us, hmap, hbook⟩ := additions_prefix_of_book passive_noMatch localMatch_noMatch
    (fun _ _ => Storage.null_zero) (by decide) h
  exact ⟨s, us, hupdates ▸ hmap, hbook 0 (by decide) 100 (by decide)⟩

end Pipeline

end LowLatency.Exchange
