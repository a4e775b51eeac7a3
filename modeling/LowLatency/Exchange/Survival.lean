import LowLatency.Exchange.ClientRequests
import LowLatency.Exchange.Construction
import LowLatency.Exchange.MarketData

/-!
Which client requests the engine survives.

Nothing checks a request before it is handed to its book, so its fields run
into whatever limits they meet: the type into the `default` of the `switch`,
the client and the order id into the bounds of the client index. On books that
are well formed and have room these are the only limits, as long as the ticker
and the price are in range.
-/

namespace LowLatency.Exchange

open LowLatency.Lib LowLatency.Common MEOrderBook

/-! ### Books in order -/

/-- The book holds queues and can take further orders. -/
structure Sound (b : MEOrderBook) : Prop extends Servable b where
  queues : ∃ fifo, OrdersRep b fifo

theorem Storage.Null.empty {mem : Storage} (h : mem.Null) (tickerId : TickerId) :
    (construct mem tickerId).Empty := ⟨rfl, rfl, h.priceOrdersAtPrice⟩

theorem sound_construct {mem : Storage} (h : mem.Null) (tickerId : TickerId) :
    Sound (construct mem tickerId) where
  asks := ⟨[], (h.empty tickerId).levelsRep⟩
  levels := MemPool.ready_ofSize (by decide)
  orders := MemPool.ready_ofSize (by decide)
  queues := ⟨_, (h.empty tickerId).ordersRep⟩

theorem Sound.congr {b b' : MEOrderBook} (h : Sound b) (hlevels : SameLevels b b')
    (horders : b'.orderPool = b.orderPool) : Sound b' where
  toServable := h.toServable.congr hlevels horders
  queues := h.queues.imp fun _ hrep => hrep.congr hlevels horders

theorem Sound.place {b b' : MEOrderBook} (h : Sound b) {x : MEOrder} {o : Addr}
    (hok : b.placeOrder x = .ok (b', o)) : Sound b' where
  toServable := h.toServable.place hok
  queues := by
    obtain ⟨fifo, hrep⟩ := h.queues
    exact ⟨_, hrep.place hok⟩

theorem Sound.accept {checkMatch : CheckMatch} (hcm : Idle checkMatch) {b : MEOrderBook}
    (h : Sound b) (x : AddArgs) : Sound (b.acceptAndMatch checkMatch x).2.book := by
  obtain ⟨hlevels, horders⟩ := hcm.accept b x
  exact h.congr hlevels horders

theorem Sound.add_of_accept {checkMatch : CheckMatch} {b b' : MEOrderBook} {x : AddArgs}
    (haccept : Sound (b.acceptAndMatch checkMatch x).2.book) {reading : PriorityReading}
    {sent : List EngineCall} (hok : b.add checkMatch reading x = .ok (b', sent)) : Sound b' := by
  rcases add_eq_ok hok with ⟨-, rfl, -⟩ | ⟨-, out, hrest, -⟩
  · exact haccept
  · obtain ⟨priority, b₁, o, -, hplace, u, -, rfl, -⟩ := restOrder_frame hrest
    exact (haccept.place hplace).congr ⟨rfl, rfl, rfl, rfl⟩ rfl

theorem Sound.add {checkMatch : CheckMatch} (hcm : Idle checkMatch) {b b' : MEOrderBook}
    (h : Sound b) {reading : PriorityReading} {x : AddArgs} {sent : List EngineCall}
    (hok : b.add checkMatch reading x = .ok (b', sent)) : Sound b' :=
  .add_of_accept (h.accept hcm x) hok

theorem Sound.placeOrder {b : MEOrderBook} (h : Sound b) (hspare : b.orderPool.Spare)
    (hspare' : b.ordersAtPricePool.Spare) {x : MEOrder} (hprice : x.price.toNat < meMaxPriceLevels)
    (hcid : x.clientId.toNat < meMaxNumClients) (hoid : x.clientOrderId.toNat < meMaxOrderIds) :
    ∃ b' o, b.placeOrder x = .ok (b', o) := by
  obtain ⟨asks, hasks⟩ := h.asks
  obtain ⟨fifo, hrep⟩ := h.queues
  rcases placeOrder_total hasks hrep h.levels h.orders hprice hcid hoid with
    hplace | ⟨hfull | hfull, -⟩
  · exact hplace
  · exact absurd hspare hfull
  · exact absurd hspare' hfull

theorem Sound.restOrder {b : MEOrderBook} (h : Sound b) (hspare : b.orderPool.Spare)
    (hspare' : b.ordersAtPricePool.Spare) (reading : PriorityReading) {x : AddArgs}
    (hx : x.InRange) (newMarketId : OrderId) :
    ∃ r, b.restOrder reading x newMarketId = .ok r := by
  obtain ⟨fifo, hrep⟩ := h.queues
  obtain ⟨b₁, o, hplace⟩ := h.placeOrder hspare hspare'
    (x := x.order reading b.tickerId newMarketId) hx.price hx.clientId hx.orderId
  exact ⟨_, by rw [hrep.restOrder_eq, hplace, ok_bind]⟩

/-- A call of `add` with a price of the table returns exactly when the ids are
in range, should they be needed. -/
theorem Sound.add_returns_iff {checkMatch : CheckMatch} (hcm : Idle checkMatch)
    {b : MEOrderBook} (h : Sound b) (hspare : b.orderPool.Spare)
    (hspare' : b.ordersAtPricePool.Spare) (reading : PriorityReading) {x : AddArgs}
    (hprice : x.price.toNat < meMaxPriceLevels) :
    (∃ r, b.add checkMatch reading x = .ok r) ↔
      ((b.acceptAndMatch checkMatch x).2.leavesQty > 0 →
        x.clientId.toNat < meMaxNumClients ∧ x.orderId.toNat < meMaxOrderIds) := by
  constructor
  · rintro ⟨⟨b', sent⟩, hok⟩ hpos
    rcases add_eq_ok hok with ⟨hzero, -⟩ | ⟨-, out, hrest, -⟩
    · rw [hzero] at hpos
      contradiction
    · obtain ⟨priority, b₁, o, -, hplace, -⟩ := restOrder_frame hrest
      have hp := placeOrder_frame hplace
      exact ⟨hp.clientId_lt, hp.clientOrderId_lt⟩
  · intro hids
    obtain ⟨hlevels, horders⟩ := hcm.accept b x
    rw [MEOrderBook.add]
    simp only
    split
    · rename_i hpos
      obtain ⟨hcid, hoid⟩ := hids hpos
      obtain ⟨r, hrest⟩ := (h.accept hcm x).restOrder (horders ▸ hspare)
        (hlevels.ordersAtPricePool ▸ hspare') reading ⟨hprice, hcid, hoid⟩
        (b.acceptAndMatch checkMatch x).1
      exact ⟨_, by rw [hrest, ok_bind]⟩
    · exact ⟨_, rfl⟩

/-! ### Reachable engines -/

/-- A `cancel` that returns hands back a book in order. -/
def KeepsSound (m : BookMethods) : Prop :=
  ∀ b c o t b' sent, Sound b → m.cancel b c o t = .ok (b', sent) → Sound b'

/-- The states of an engine built in memory without stale pointers, after any
requests that did not end it. -/
inductive Reached (m : BookMethods) : OrderBookHashMap → Prop
  | start {mem} : (∀ i < meMaxTickers, (mem i).Null) → Reached m (constructBooks mem)
  | request {books r books' sent} : Reached m books →
      processClientRequest m books r = .ok (books', sent) → Reached m books'

theorem sound_of_serve {m : BookMethods} (hcm : Idle m.checkMatch) (hcancel : KeepsSound m)
    {b b' : MEOrderBook} (h : Sound b) {r : MEClientRequest} {sent : List EngineCall}
    (hok : serve m b r = .ok (b', sent)) : Sound b' := by
  unfold serve at hok
  split at hok
  · exact h.add hcm hok
  · exact hcancel _ _ _ _ _ _ h hok
  · contradiction

theorem Reached.sound {m : BookMethods} (hcm : Idle m.checkMatch) (hcancel : KeepsSound m)
    {books : OrderBookHashMap} (h : Reached m books) : ∀ i < meMaxTickers, Sound (books i) := by
  induction h with
  | start hmem => exact fun i hi => sound_construct (hmem i hi) _
  | @request books r books' sent _ hok ih =>
      intro i hi
      obtain ⟨-, hroute⟩ := processClientRequest_eq_ok.mp hok
      obtain ⟨b', hserve, rfl⟩ := route_eq_ok.mp hroute
      by_cases hir : i = r.index
      · subst hir
        rw [Function.update_self]
        exact sound_of_serve hcm hcancel (ih _ hi) hserve
      · rw [Function.update_of_ne hir]
        exact ih i hi

theorem processClientRequest_returns_iff {m : BookMethods} {books : OrderBookHashMap}
    {r : MEClientRequest} (hticker : r.tickerId.toNat < meMaxTickers) :
    (∃ result, processClientRequest m books r = .ok result) ↔
      ∃ result, serve m (books r.index) r = .ok result := by
  constructor
  · rintro ⟨⟨books', sent⟩, hok⟩
    obtain ⟨b', hserve, -⟩ := route_eq_ok.mp (processClientRequest_eq_ok.mp hok).2
    exact ⟨_, hserve⟩
  · rintro ⟨⟨b', sent⟩, hserve⟩
    exact ⟨(_, sent), processClientRequest_eq_ok.mpr ⟨hticker, route_eq_ok.mpr ⟨b', hserve, rfl⟩⟩⟩

/-- The `default` of the `switch`. -/
theorem serve_invalid {m : BookMethods} {b : MEOrderBook} {r : MEClientRequest}
    (hnew : r.clientRequestType ≠ .new) (hcancel : r.clientRequestType ≠ .cancel) :
    serve m b r = .error (.exit ("Received invalid client-request-type: " ++
      clientRequestTypeToString r.clientRequestType)) := by
  unfold serve
  split
  · contradiction
  · contradiction
  · rfl

/-- **Which requests the engine survives.** With room in the pools of its book, a
request for one of the tickers and prices that is no cancellation returns
exactly when it is a new order whose ids are in range, should a part of it be
left to rest. Any other type ends the process with its message. -/
theorem request_returns_iff {m : BookMethods} (hcm : Idle m.checkMatch) (hcancel : KeepsSound m)
    {books : OrderBookHashMap} (hbooks : Reached m books) {r : MEClientRequest}
    (hticker : r.tickerId.toNat < meMaxTickers) (hprice : r.price.toNat < meMaxPriceLevels)
    (htype : r.clientRequestType ≠ .cancel)
    (hspare : (books r.tickerId.toNat).orderPool.Spare)
    (hspare' : (books r.tickerId.toNat).ordersAtPricePool.Spare) :
    ((∃ result, processClientRequest m books r = .ok result) ↔
      r.clientRequestType = .new ∧
        (r.leavesQty m (books r.tickerId.toNat) > 0 →
          r.clientId.toNat < meMaxNumClients ∧ r.orderId.toNat < meMaxOrderIds)) ∧
    (r.clientRequestType ≠ .new → processClientRequest m books r =
      .error (.exit ("Received invalid client-request-type: " ++
        clientRequestTypeToString r.clientRequestType))) := by
  have hsound := hbooks.sound hcm hcancel r.index hticker
  have hadd := hsound.add_returns_iff hcm hspare hspare' m.reading (x := r.args) hprice
  refine ⟨?_, fun hnew => ?_⟩
  · rw [processClientRequest_returns_iff hticker]
    by_cases hnew : r.clientRequestType = .new
    · rw [and_iff_right hnew, serve, hnew]
      exact hadd
    · rw [serve_invalid hnew htype]
      simp [hnew]
  · rw [processClientRequest, arrayGet, if_pos hticker, ok_bind, serve_invalid hnew htype,
      error_bind]

def restingBooks : BookMethods := ⟨noMatch, fun b _ _ _ => .ok (b, []), .nullPointer⟩

theorem reached_restingBooks : Reached restingBooks (constructBooks fun _ => .zero) :=
  .start fun _ _ => Storage.null_zero

theorem keepsSound_restingBooks : KeepsSound restingBooks := by
  intro b c o t b' sent hb hok
  rw [restingBooks, Except.ok.injEq, Prod.mk.injEq] at hok
  exact hok.1 ▸ hb

theorem request_returns_iff_first :
    ∃ result, processClientRequest restingBooks (constructBooks fun _ => .zero)
      ⟨.new, 1, 1, 0, .sell, 5, 10⟩ = .ok result :=
  (request_returns_iff (r := ⟨.new, 1, 1, 0, .sell, 5, 10⟩) (fun _ _ _ _ _ _ _ _ => rfl)
    keepsSound_restingBooks reached_restingBooks (by decide) (by decide) (by decide)
    (MemPool.spare_ofSize (by decide)) (MemPool.spare_ofSize (by decide))).1.mpr
    ⟨rfl, fun _ => by decide⟩

/-- A new engine does not survive a request without a type, one of a client past
the end of the index, or one for a ninth ticker. -/
theorem requests_not_survived :
    Idle restingBooks.checkMatch ∧
    Reached restingBooks (constructBooks fun _ => .zero) ∧
    (∀ i, (constructBooks (fun _ => .zero) i).orderPool.Spare ∧
      (constructBooks (fun _ => .zero) i).ordersAtPricePool.Spare) ∧
    processClientRequest restingBooks (constructBooks fun _ => .zero)
      ⟨.invalid, 1, 1, 0, .sell, 5, 10⟩ =
        .error (.exit "Received invalid client-request-type: INVALID") ∧
    (∀ result, processClientRequest restingBooks (constructBooks fun _ => .zero)
      ⟨.new, 256, 1, 0, .sell, 5, 10⟩ ≠ .ok result) ∧
    processClientRequest restingBooks (constructBooks fun _ => .zero)
      ⟨.new, 1, 1, 8, .sell, 5, 10⟩ = .error .undefined := by
  refine ⟨fun _ _ _ _ _ _ _ _ => rfl, reached_restingBooks, fun i => ⟨?_, ?_⟩, rfl,
    fun result hrun => ?_, rfl⟩
  · exact MemPool.spare_ofSize (by decide)
  · exact MemPool.spare_ofSize (by decide)
  · have hfails : succeedsWith (processClientRequest restingBooks (constructBooks fun _ => .zero)
        ⟨.new, 256, 1, 0, .sell, 5, 10⟩) (fun _ => true) = false := by decide +kernel
    rw [hrun] at hfails
    contradiction

end LowLatency.Exchange
