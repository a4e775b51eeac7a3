import LowLatency.Lib.Routing
import LowLatency.Exchange.Add

/-!
`matching_engine.cpp`: client requests on their way to the books.

The engine has one book for each ticker and hands every request to the book of
its ticker. A book numbers the orders it accepts by itself, and the numbers and
ticker ids in all its messages are its own. `accepted_of_run` follows them
through a run: whatever the other tickers do in between, the k-th request for a
ticker is answered with the number k.
-/

namespace LowLatency.Exchange

open LowLatency.Lib LowLatency.Common MEOrderBook

/-- What the repository leaves open about the methods of a book: two bodies, and
the reading of one call. -/
structure BookMethods where
  checkMatch : CheckMatch
  cancel : MEOrderBook → ClientId → OrderId → TickerId → Exec (MEOrderBook × List EngineCall)
  reading : PriorityReading

/-- The books the pointers of the array lead to. -/
abbrev OrderBookHashMap := ℕ → MEOrderBook

/-- The loop in the constructor of the engine; `mem i` is what the memory of the
book of ticker `i` holds before. -/
def constructBooks (mem : ℕ → Storage) : OrderBookHashMap := fun i =>
  construct (mem i) (UInt32.ofNat i)

def MEClientRequest.args (clientRequest : MEClientRequest) : AddArgs :=
  ⟨clientRequest.clientId, clientRequest.orderId, clientRequest.tickerId, clientRequest.side,
    clientRequest.price, clientRequest.qty⟩

/-- The `switch` of `processClientRequest`. -/
def serve (m : BookMethods) (orderbook : MEOrderBook) (clientRequest : MEClientRequest) :
    Exec (MEOrderBook × List EngineCall) :=
  match clientRequest.clientRequestType with
  | .new => orderbook.add m.checkMatch m.reading clientRequest.args
  | .cancel =>
      m.cancel orderbook clientRequest.clientId clientRequest.orderId clientRequest.tickerId
  | clientRequestType =>
      fatal ("Received invalid client-request-type: " ++
        clientRequestTypeToString clientRequestType)

/-- `processClientRequest`, together with the calls it leads to. -/
def processClientRequest (m : BookMethods) (books : OrderBookHashMap)
    (clientRequest : MEClientRequest) : Exec (OrderBookHashMap × List EngineCall) := do
  let orderbook ← arrayGet meMaxTickers books clientRequest.tickerId.toNat
  let (orderbook, sent) ← serve m orderbook clientRequest
  .ok (Function.update books clientRequest.tickerId.toNat orderbook, sent)

/-- A run over some requests, with all the calls in order. -/
def processClientRequests (m : BookMethods) (books : OrderBookHashMap)
    (requests : List MEClientRequest) : Exec (OrderBookHashMap × List EngineCall) :=
  runLog (processClientRequest m) books requests

/-! ### Routing -/

def MEClientRequest.index (clientRequest : MEClientRequest) : ℕ := clientRequest.tickerId.toNat

theorem processClientRequest_eq_ok {m : BookMethods} {books books' : OrderBookHashMap}
    {r : MEClientRequest} {sent : List EngineCall} :
    processClientRequest m books r = .ok (books', sent) ↔
      r.index < meMaxTickers ∧
        route MEClientRequest.index (serve m) books r = .ok (books', sent) := by
  rw [processClientRequest, bind_eq_ok]
  simp only [arrayGet_eq_ok]
  constructor
  · rintro ⟨b, ⟨hlt, rfl⟩, hrun⟩
    exact ⟨hlt, hrun⟩
  · rintro ⟨hlt, hrun⟩
    exact ⟨_, ⟨hlt, rfl⟩, hrun⟩

theorem index_lt_of_run {m : BookMethods} {books books' : OrderBookHashMap}
    {reqs : List MEClientRequest} {log : List EngineCall}
    (hrun : processClientRequests m books reqs = .ok (books', log)) :
    ∀ r ∈ reqs, r.index < meMaxTickers := by
  refine runLog_invariant (fun pre _ _ => ∀ r ∈ pre, r.index < meMaxTickers) (by simp) ?_ hrun
  intro pre r books log books' sent hpre hlt hok x hx
  rcases List.mem_append.mp hx with hx | hx
  · exact hlt x hx
  · rw [List.mem_singleton.mp hx]
    exact (processClientRequest_eq_ok.mp hok).1

/-! ### Numbers and ticker ids -/

/-- Every book knows its ticker. -/
def Numbered (books : OrderBookHashMap) : Prop :=
  ∀ i < meMaxTickers, (books i).tickerId.toNat = i

theorem toNat_ofNat_ticker {i : ℕ} (hi : i < meMaxTickers) : (UInt32.ofNat i).toNat = i :=
  UInt32.toNat_ofNat_of_lt' (hi.trans (by decide))

theorem numbered_constructBooks (mem : ℕ → Storage) : Numbered (constructBooks mem) :=
  fun _ hi => toNat_ofNat_ticker hi

/-- What a `checkMatch` must respect for the answers to be right: it keeps the
numbers of the book, and acceptances and ADD updates are left to `add`. -/
structure AnswerContract (checkMatch : CheckMatch) : Prop where
  tickerId : ∀ b c o t s p q m, (checkMatch b c o t s p q m).book.tickerId = b.tickerId
  nextOrderId : ∀ b c o t s p q m, (checkMatch b c o t s p q m).book.nextOrderId = b.nextOrderId
  noAcceptance : ∀ b c o t s p q m, acceptances (checkMatch b c o t s p q m).sent = []
  noAdd : ∀ b c o t s p q m, addUpdates (checkMatch b c o t s p q m).sent = []

def MEClientRequest.acceptance (r : MEClientRequest) (marketOrderId : OrderId) :
    MEClientResponse where
  clientResponseType := .accepted
  clientId := r.clientId
  tickerId := r.tickerId
  clientOrderId := r.orderId
  marketOrderId := marketOrderId
  side := r.side
  price := r.price
  executedQty := 0
  leftOverQty := r.qty

/-- The messages that answer a request, when `checkMatch` leaves `leavesQty` of
it. -/
structure Answered (r : MEClientRequest) (marketOrderId : OrderId) (leavesQty : Qty)
    (sent : List EngineCall) : Prop where
  first : sent.head? = some (.sendClientResponse (r.acceptance marketOrderId))
  accepted : acceptances sent = [r.acceptance marketOrderId]
  published : leavesQty > 0 →
    ∃ u, addUpdates sent = [u] ∧ u.tickerId = r.tickerId ∧ u.orderId = marketOrderId
  unpublished : leavesQty = 0 → addUpdates sent = []

def MEClientRequest.leavesQty (r : MEClientRequest) (m : BookMethods) (b : MEOrderBook) : Qty :=
  (b.acceptAndMatch m.checkMatch r.args).2.leavesQty

theorem AnswerContract.accept {checkMatch : CheckMatch} (hcm : AnswerContract checkMatch)
    (b : MEOrderBook) (x : AddArgs) :
    (b.acceptAndMatch checkMatch x).2.book.tickerId = b.tickerId ∧
    (b.acceptAndMatch checkMatch x).2.book.nextOrderId = b.nextOrderId + 1 ∧
    ∃ rest, (b.acceptAndMatch checkMatch x).2.sent =
        .sendClientResponse ⟨.accepted, x.clientId, b.tickerId, x.orderId, b.nextOrderId,
          x.side, x.price, 0, x.qty⟩ :: rest ∧
      acceptances rest = [] ∧ addUpdates rest = [] := by
  simp only [acceptAndMatch, generateNewMarketOrderId, hcm.tickerId, hcm.nextOrderId]
  exact ⟨trivial, trivial, _, rfl, hcm.noAcceptance .., hcm.noAdd ..⟩

/-- **One accepted request.** -/
theorem answered_of_add {m : BookMethods} (hcm : AnswerContract m.checkMatch)
    {b b' : MEOrderBook} {r : MEClientRequest} {sent : List EngineCall}
    (hticker : b.tickerId = r.tickerId)
    (hok : b.add m.checkMatch m.reading r.args = .ok (b', sent)) :
    Answered r b.nextOrderId (r.leavesQty m b) sent ∧ b'.tickerId = b.tickerId ∧
      b'.nextOrderId = b.nextOrderId + 1 := by
  obtain ⟨htid, hnext, rest, hsent, hacc, hadd⟩ := hcm.accept b r.args
  have hfirst : (b.acceptAndMatch m.checkMatch r.args).2.sent =
      .sendClientResponse (r.acceptance b.nextOrderId) :: rest := by
    rw [hsent, hticker]
    rfl
  rcases add_eq_ok hok with ⟨hzero, rfl, rfl⟩ | ⟨hpos, out, hrest, rfl⟩
  · refine ⟨⟨?_, ?_, fun hpos => ?_, fun _ => ?_⟩, htid, hnext⟩
    · rw [hfirst, List.head?_cons]
    · rw [hfirst, acceptances_response rfl, hacc]
    · rw [MEClientRequest.leavesQty, hzero] at hpos
      contradiction
    · rw [hfirst, addUpdates_response, hadd]
  · obtain ⟨priority, b₁, o, -, hplace, u, hu, rfl, rfl⟩ := restOrder_frame hrest
    have hp := placeOrder_frame hplace
    have hutype : u.type = .add := by rw [hu, AddArgs.update]
    have huid : u.orderId = b.nextOrderId := by rw [hu, AddArgs.update]
    have huticker : u.tickerId = r.tickerId := by rw [hu, AddArgs.update, htid, hticker]
    refine ⟨⟨?_, ?_, fun _ => ⟨u, ?_, huticker, huid⟩, fun hzero => ?_⟩,
      hp.tickerId.trans htid, hp.nextOrderId.trans hnext⟩
    · rw [hfirst, List.cons_append, List.head?_cons]
    · rw [hfirst, List.cons_append, acceptances_response rfl, acceptances_append, hacc,
        acceptances_update, acceptances_nil, List.append_nil]
    · rw [hfirst, List.cons_append, addUpdates_response, addUpdates_append, hadd,
        addUpdates_update hutype, addUpdates_nil, List.nil_append]
    · rw [MEClientRequest.leavesQty] at hzero
      rw [hzero] at hpos
      contradiction

/-! ### A run of new requests -/

def countTicker (reqs : List MEClientRequest) (t : TickerId) : ℕ :=
  reqs.countP fun r => r.tickerId = t

/-- The books after a run: each has given out as many numbers as there were
requests for its ticker. -/
structure Counted (reqs : List MEClientRequest) (books : OrderBookHashMap) : Prop where
  numbered : Numbered books
  nextOrderId : ∀ i < meMaxTickers,
    (books i).nextOrderId = UInt64.ofNat (countTicker reqs (UInt32.ofNat i) + 1)

theorem counted_constructBooks (mem : ℕ → Storage) : Counted [] (constructBooks mem) :=
  ⟨numbered_constructBooks mem, fun _ _ => rfl⟩

theorem Counted.step {m : BookMethods} (hcm : AnswerContract m.checkMatch)
    {pre : List MEClientRequest} {books books' : OrderBookHashMap} (h : Counted pre books)
    {r : MEClientRequest} (hnew : r.clientRequestType = .new) {sent : List EngineCall}
    (hok : processClientRequest m books r = .ok (books', sent)) :
    Counted (pre ++ [r]) books' ∧
      Answered r (UInt64.ofNat (countTicker pre r.tickerId + 1)) (r.leavesQty m (books r.index))
        sent := by
  obtain ⟨hlt, hroute⟩ := processClientRequest_eq_ok.mp hok
  obtain ⟨b', hserve, rfl⟩ := route_eq_ok.mp hroute
  rw [serve, hnew] at hserve
  have hticker : (books r.index).tickerId = r.tickerId :=
    UInt32.toNat_inj.mp (h.numbered r.index hlt)
  have hindex : UInt32.ofNat r.index = r.tickerId := by simp [MEClientRequest.index]
  obtain ⟨hanswered, htid, hnext⟩ := answered_of_add hcm hticker hserve
  have hid := h.nextOrderId r.index hlt
  rw [hindex] at hid
  rw [hid] at hanswered hnext
  refine ⟨⟨fun i hi => ?_, fun i hi => ?_⟩, hanswered⟩
  · by_cases hir : i = r.index
    · subst hir
      rw [Function.update_self, htid]
      exact h.numbered r.index hlt
    · rw [Function.update_of_ne hir]
      exact h.numbered i hi
  · by_cases hir : i = r.index
    · subst hir
      rw [Function.update_self, hnext, hindex]
      simp [countTicker]
    · have hne : r.tickerId ≠ UInt32.ofNat i := by
        intro e
        rw [MEClientRequest.index, e, toNat_ofNat_ticker hi] at hir
        exact hir rfl
      rw [Function.update_of_ne hir, h.nextOrderId i hi]
      simp [countTicker, hne]

def numbersOf (t : TickerId) (sent : List EngineCall) : List ℕ :=
  ((acceptances sent).filter fun r => r.tickerId = t).map (·.marketOrderId.toNat)

theorem Answered.numbersOf_eq {r : MEClientRequest} {id : OrderId} {leavesQty : Qty}
    {sent : List EngineCall} (h : Answered r id leavesQty sent) (t : TickerId) :
    numbersOf t sent = if r.tickerId = t then [id.toNat] else [] := by
  rw [numbersOf, h.accepted]
  by_cases ht : r.tickerId = t <;> simp [MEClientRequest.acceptance, ht]

theorem countTicker_le (reqs : List MEClientRequest) (t : TickerId) :
    countTicker reqs t ≤ reqs.length := List.countP_le_length

theorem counted_of_run {m : BookMethods} (hcm : AnswerContract m.checkMatch)
    {mem : ℕ → Storage} {reqs : List MEClientRequest} (hlen : reqs.length < 2 ^ 64)
    (hnew : ∀ r ∈ reqs, r.clientRequestType = .new) {books : OrderBookHashMap}
    {log : List EngineCall}
    (hrun : processClientRequests m (constructBooks mem) reqs = .ok (books, log)) :
    Counted reqs books ∧ ∀ t, numbersOf t log = List.range' 1 (countTicker reqs t) := by
  refine runLog_invariant (fun pre books log => Counted pre books ∧
    ∀ t, numbersOf t log = List.range' 1 (countTicker pre t))
    ⟨counted_constructBooks mem, fun _ => rfl⟩ ?_ hrun
  rintro pre r books log books' sent hpre ⟨h, hnumbers⟩ hok
  obtain ⟨h', hanswered⟩ := h.step hcm (hnew r (hpre.subset (by simp))) hok
  refine ⟨h', fun t => ?_⟩
  have hcount : countTicker pre r.tickerId + 1 < 2 ^ 64 := by
    have hle := countTicker_le pre r.tickerId
    have hpl := hpre.length_le
    rw [List.length_append, List.length_singleton] at hpl
    omega
  have hsplit : numbersOf t (log ++ sent) = numbersOf t log ++ numbersOf t sent := by
    simp [numbersOf]
  rw [hsplit, hnumbers, hanswered.numbersOf_eq, UInt64.toNat_ofNat_of_lt' hcount]
  by_cases ht : r.tickerId = t
  · subst ht
    have hsucc : countTicker (pre ++ [r]) r.tickerId = countTicker pre r.tickerId + 1 := by
      simp [countTicker]
    rw [hsucc, List.range'_1_concat, if_pos rfl, Nat.add_comm 1]
  · simp [countTicker, ht]

/-- **Every request is accepted once.** The messages of a completed run are those
of its requests, one after the other. The ones a request leads to start with
its acceptance, under the number of the request among those for its ticker. -/
theorem accepted_of_run {m : BookMethods} (hcm : AnswerContract m.checkMatch)
    {mem : ℕ → Storage} {reqs : List MEClientRequest} (hlen : reqs.length < 2 ^ 64)
    (hnew : ∀ r ∈ reqs, r.clientRequestType = .new) {books : OrderBookHashMap}
    {log : List EngineCall}
    (hrun : processClientRequests m (constructBooks mem) reqs = .ok (books, log)) :
    (∀ pre r post, reqs = pre ++ r :: post →
      ∃ books₁ before books₂ sent after,
        processClientRequests m (constructBooks mem) pre = .ok (books₁, before) ∧
        processClientRequest m books₁ r = .ok (books₂, sent) ∧
        processClientRequests m books₂ post = .ok (books, after) ∧
        log = before ++ sent ++ after ∧
        ∃ id : OrderId, id.toNat = countTicker pre r.tickerId + 1 ∧
          Answered r id (r.leavesQty m (books₁ r.index)) sent) ∧
    ∀ t, (numbersOf t log).Nodup := by
  refine ⟨?_, fun t => ?_⟩
  · rintro pre r post rfl
    rw [List.length_append, List.length_cons] at hlen
    have hsnoc : pre ++ r :: post = (pre ++ [r]) ++ post := by simp
    rw [hsnoc] at hrun
    obtain ⟨books₂, log₁, after, hpre, hpost, rfl⟩ := runLog_append hrun
    obtain ⟨books₁, before, sent, hbefore, hr, rfl⟩ := runLog_snoc_eq_ok.mp hpre
    obtain ⟨hcounted, -⟩ := counted_of_run hcm (by omega) (fun x hx => hnew x (by simp [hx]))
      hbefore
    obtain ⟨-, hanswered⟩ := hcounted.step hcm (hnew r (by simp)) hr
    refine ⟨books₁, before, books₂, sent, after, hbefore, hr, hpost, rfl, _, ?_, hanswered⟩
    have hle := countTicker_le pre r.tickerId
    have hlt : countTicker pre r.tickerId + 1 < 2 ^ 64 := by omega
    exact UInt64.toNat_ofNat_of_lt' hlt
  · rw [(counted_of_run hcm hlen hnew hrun).2 t]
    exact List.nodup_range' _ Nat.one_pos

/-- Buy orders meet the first order of the best ask. -/
def fillingBooks : BookMethods := ⟨fillFirstAsk, fun b _ _ _ => .ok (b, []), .nullPointer⟩

theorem fillFirstAsk_frame (b : MEOrderBook) (c : ClientId) (o : OrderId) (t : TickerId)
    (s : Side) (p : Price) (q : Qty) (m : OrderId) :
    (fillFirstAsk b c o t s p q m).book.tickerId = b.tickerId ∧
    (fillFirstAsk b c o t s p q m).book.nextOrderId = b.nextOrderId ∧
    (fillFirstAsk b c o t s p q m).sent = [] := by
  unfold fillFirstAsk
  split
  · exact ⟨rfl, rfl, rfl⟩
  · split <;> exact ⟨rfl, rfl, rfl⟩

theorem answerContract_fillFirstAsk : AnswerContract fillFirstAsk where
  tickerId b c o t s p q m := (fillFirstAsk_frame b c o t s p q m).1
  nextOrderId b c o t s p q m := (fillFirstAsk_frame b c o t s p q m).2.1
  noAcceptance b c o t s p q m := by rw [(fillFirstAsk_frame b c o t s p q m).2.2]; rfl
  noAdd b c o t s p q m := by rw [(fillFirstAsk_frame b c o t s p q m).2.2]; rfl

/-- Two tickers in turn: a sell order, another ticker's, and a buy order that is
filled in part. -/
theorem accepted_of_run_three :
    ∃ books log, processClientRequests fillingBooks (constructBooks fun _ => .zero)
        [⟨.new, 1, 1, 0, .sell, 5, 60⟩, ⟨.new, 2, 1, 3, .sell, 5, 10⟩,
          ⟨.new, 2, 2, 0, .buy, 7, 100⟩] = .ok (books, log) ∧
      ∀ t, (numbersOf t log).Nodup := by
  obtain ⟨⟨books, log⟩, hrun, -⟩ := exists_of_succeedsWith (p := fun _ => true)
    (x := processClientRequests fillingBooks (constructBooks fun _ => .zero)
      [⟨.new, 1, 1, 0, .sell, 5, 60⟩, ⟨.new, 2, 1, 3, .sell, 5, 10⟩,
        ⟨.new, 2, 2, 0, .buy, 7, 100⟩]) (by decide +kernel)
  exact ⟨books, log, hrun,
    (accepted_of_run answerContract_fillFirstAsk (by decide) (by decide) hrun).2⟩

/-! ### Tickers do not interfere -/

/-- What a `checkMatch` must respect to stay with its own book: it keeps the
ticker id, and sends nothing under another one. -/
structure LocalMatch (checkMatch : CheckMatch) : Prop where
  tickerId : ∀ b c o t s p q m, (checkMatch b c o t s p q m).book.tickerId = b.tickerId
  sent : ∀ b c o t s p q m, ∀ call ∈ (checkMatch b c o t s p q m).sent,
    call.tickerId = b.tickerId

theorem LocalMatch.add {checkMatch : CheckMatch} (hcm : LocalMatch checkMatch)
    {reading : PriorityReading} {b b' : MEOrderBook} {x : AddArgs} {sent : List EngineCall}
    (hok : b.add checkMatch reading x = .ok (b', sent)) :
    b'.tickerId = b.tickerId ∧ ∀ call ∈ sent, call.tickerId = b.tickerId := by
  have htid : (b.acceptAndMatch checkMatch x).2.book.tickerId = b.tickerId := hcm.tickerId ..
  have hsent : ∀ call ∈ (b.acceptAndMatch checkMatch x).2.sent, call.tickerId = b.tickerId := by
    intro call hcall
    rcases List.mem_cons.mp hcall with rfl | hcall
    · rfl
    · have hticker := hcm.sent _ _ _ _ _ _ _ _ call hcall
      exact hticker
  rcases add_eq_ok hok with ⟨-, rfl, rfl⟩ | ⟨-, out, hrest, rfl⟩
  · exact ⟨htid, hsent⟩
  · obtain ⟨priority, b₁, o, -, hplace, u, hu, rfl, rfl⟩ := restOrder_frame hrest
    refine ⟨(placeOrder_frame hplace).tickerId.trans htid, fun call hcall => ?_⟩
    rcases List.mem_append.mp hcall with hcall | hcall
    · exact hsent call hcall
    · rw [List.mem_singleton.mp hcall, hu, ← htid]
      rfl

theorem LocalMatch.tagged {m : BookMethods} (hcm : LocalMatch m.checkMatch) :
    Tagged MEClientRequest.index (serve m) (fun call => call.tickerId.toNat)
      (fun r => r.clientRequestType = .new ∧ r.index < meMaxTickers)
      (fun i b => i < meMaxTickers → b.tickerId.toNat = i) where
  keep := by
    rintro b b' r sent ⟨hnew, -⟩ hb hok hlt
    rw [serve, hnew] at hok
    rw [(hcm.add hok).1, hb hlt]
  out := by
    rintro b b' r sent ⟨hnew, hlt⟩ hb hok call hcall
    rw [serve, hnew] at hok
    rw [(hcm.add hok).2 call hcall, hb hlt]

theorem route_of_run {m : BookMethods} {books books' : OrderBookHashMap}
    {reqs : List MEClientRequest} {log : List EngineCall}
    (hrun : processClientRequests m books reqs = .ok (books', log)) :
    runLog (route MEClientRequest.index (serve m)) books reqs = .ok (books', log) := by
  refine runLog_invariant (fun pre t log =>
    runLog (route MEClientRequest.index (serve m)) books pre = .ok (t, log)) rfl ?_ hrun
  intro pre r t log t' sent hpre hroute hok
  exact runLog_snoc_eq_ok.mpr
    ⟨t, log, sent, hroute, (processClientRequest_eq_ok.mp hok).2, rfl⟩

theorem LocalMatch.numbered_of_run {m : BookMethods} (hcm : LocalMatch m.checkMatch)
    {books books' : OrderBookHashMap} (h : Numbered books) {reqs : List MEClientRequest}
    (hnew : ∀ r ∈ reqs, r.clientRequestType = .new) {log : List EngineCall}
    (hrun : processClientRequests m books reqs = .ok (books', log)) : Numbered books' := by
  have hlt := index_lt_of_run hrun
  have hall := hcm.tagged.invariant (fun i hi => h i hi) (fun r hr => ⟨hnew r hr, hlt r hr⟩)
    (route_of_run hrun)
  exact fun i hi => hall i hi

theorem filter_index {reqs reqs' : List MEClientRequest}
    (hsame : ∀ t, (reqs.filter fun r => r.tickerId = t) = reqs'.filter fun r => r.tickerId = t)
    (i : ℕ) : (reqs.filter fun r => r.index = i) = reqs'.filter fun r => r.index = i := by
  by_cases hi : i < UInt32.size
  · have hiff : ∀ r : MEClientRequest, r.index = i ↔ r.tickerId = UInt32.ofNat i := by
      intro r
      rw [MEClientRequest.index, ← UInt32.toNat_inj, UInt32.toNat_ofNat_of_lt' hi]
    simpa only [hiff] using hsame (UInt32.ofNat i)
  · have hnone : ∀ r : MEClientRequest, ¬ r.index = i := fun r e => hi (e ▸ r.tickerId.toNat_lt)
    simp [hnone]

/-- **Tickers do not interfere.** Two completed runs that agree on the requests
of every ticker leave the same books, and send the same for every ticker. -/
theorem tickers_independent {m : BookMethods} (hcm : LocalMatch m.checkMatch)
    {books : OrderBookHashMap} (hbooks : Numbered books) {reqs reqs' : List MEClientRequest}
    (hnew : ∀ r ∈ reqs, r.clientRequestType = .new)
    (hnew' : ∀ r ∈ reqs', r.clientRequestType = .new)
    (hsame : ∀ t, (reqs.filter fun r => r.tickerId = t) = reqs'.filter fun r => r.tickerId = t)
    {books₁ books₂ : OrderBookHashMap} {log log' : List EngineCall}
    (hrun : processClientRequests m books reqs = .ok (books₁, log))
    (hrun' : processClientRequests m books reqs' = .ok (books₂, log')) :
    books₁ = books₂ ∧ ∀ t,
      ((responses log).filter fun r => r.tickerId = t) =
        ((responses log').filter fun r => r.tickerId = t) ∧
      ((updates log).filter fun u => u.tickerId = t) =
        (updates log').filter fun u => u.tickerId = t := by
  have hlt := index_lt_of_run hrun
  have hlt' := index_lt_of_run hrun'
  obtain ⟨heq, hsent⟩ := hcm.tagged.eq_of_filter_eq (fun i hi => hbooks i hi)
    (fun r hr => ⟨hnew r hr, hlt r hr⟩) (fun r hr => ⟨hnew' r hr, hlt' r hr⟩)
    (filter_index hsame) (route_of_run hrun) (route_of_run hrun')
  refine ⟨heq, fun t => ?_⟩
  have ht := hsent t.toNat
  simp only [UInt32.toNat_inj] at ht
  exact ⟨by rw [filter_responses, ht, filter_responses],
    by rw [filter_updates, ht, filter_updates]⟩

theorem localMatch_fillFirstAsk : LocalMatch fillFirstAsk where
  tickerId b c o t s p q m := (fillFirstAsk_frame b c o t s p q m).1
  sent b c o t s p q m := by simp [(fillFirstAsk_frame b c o t s p q m).2.2]

/-- Requests of two tickers in two orders. -/
theorem tickers_independent_swap :
    ∃ books₁ log books₂ log',
      processClientRequests fillingBooks (constructBooks fun _ => .zero)
        [⟨.new, 1, 1, 0, .sell, 5, 60⟩, ⟨.new, 2, 1, 3, .sell, 5, 10⟩,
          ⟨.new, 2, 2, 0, .buy, 7, 100⟩] = .ok (books₁, log) ∧
      processClientRequests fillingBooks (constructBooks fun _ => .zero)
        [⟨.new, 2, 1, 3, .sell, 5, 10⟩, ⟨.new, 1, 1, 0, .sell, 5, 60⟩,
          ⟨.new, 2, 2, 0, .buy, 7, 100⟩] = .ok (books₂, log') ∧
      books₁ = books₂ := by
  obtain ⟨⟨books₁, log⟩, hrun, -⟩ := exists_of_succeedsWith (p := fun _ => true)
    (x := processClientRequests fillingBooks (constructBooks fun _ => .zero)
      [⟨.new, 1, 1, 0, .sell, 5, 60⟩, ⟨.new, 2, 1, 3, .sell, 5, 10⟩,
        ⟨.new, 2, 2, 0, .buy, 7, 100⟩]) (by decide +kernel)
  obtain ⟨⟨books₂, log'⟩, hrun', -⟩ := exists_of_succeedsWith (p := fun _ => true)
    (x := processClientRequests fillingBooks (constructBooks fun _ => .zero)
      [⟨.new, 2, 1, 3, .sell, 5, 10⟩, ⟨.new, 1, 1, 0, .sell, 5, 60⟩,
        ⟨.new, 2, 2, 0, .buy, 7, 100⟩]) (by decide +kernel)
  refine ⟨books₁, log, books₂, log', hrun, hrun', ?_⟩
  refine (tickers_independent localMatch_fillFirstAsk (numbered_constructBooks _) (by decide)
    (by decide) (fun t => ?_) hrun hrun').1
  by_cases h0 : 0 = t
  · subst h0
    decide
  · by_cases h3 : 3 = t <;> simp [h0, h3]

end LowLatency.Exchange
