import LowLatency.Exchange.OrderRuns

/-!
`add`: one new order, from its acceptance to the market update.

What `checkMatch` does is left open. `MatchContract` asks that it return no
more than it was given and hand back a book that still holds queues;
`quantityConserved_iff` then says for which of its results a call of `add`
accounts for the whole quantity.
-/

namespace LowLatency.Exchange

open LowLatency.Lib LowLatency.Common

namespace MEOrderBook

/-- The order a call of `add` takes from the pool. -/
def AddArgs.order (x : AddArgs) (reading : PriorityReading) (tickerId : TickerId)
    (newMarketId : OrderId) : MEOrder :=
  ⟨tickerId, x.clientId, x.orderId, newMarketId, x.side, x.price, x.qty, reading.priority,
    none, none⟩

def AddArgs.update (x : AddArgs) (tickerId : TickerId) (newMarketId : OrderId)
    (priority : Priority) : MEMarketUpdate :=
  ⟨.add, newMarketId, tickerId, x.side, x.price, x.qty, priority⟩

/-- One more than the priority of the last order, or 1. -/
def nextPriority (b : MEOrderBook) (queue : List Addr) : Priority :=
  match queue.getLast? with
  | none => 1
  | some z => (b.order z).priority + 1

theorem OrdersRep.getNextPriority_eq {b : MEOrderBook} {fifo : ℕ → List Addr}
    (h : OrdersRep b fifo) (price : Price) :
    b.getNextPriority price = .ok (b.nextPriority (fifo (priceToIndex price))) := by
  have hslot := priceToIndex_lt price
  have hget : b.getOrdersAtPrice price = .ok (b.priceOrdersAtPrice (priceToIndex price)) :=
    arrayAt_eq_ok.mpr ⟨hslot, rfl⟩
  rw [getNextPriority, hget, ok_bind]
  cases hl : b.priceOrdersAtPrice (priceToIndex price) with
  | none => simp [nextPriority, h.null _ hslot hl]
  | some l =>
      obtain ⟨f, t, hfifo, hfirst⟩ := h.first _ hslot l hl
      have hring := h.ring _ hslot
      rw [hfifo] at hring ⊢
      have hlast : (b.order f).prevOrder = (f :: t).getLast? := hring.prev_head
      obtain ⟨z, hz⟩ : ∃ z, (f :: t).getLast? = some z :=
        ⟨_, List.getLast?_eq_some_getLast (List.cons_ne_nil f t)⟩
      simp [hfirst, hlast, hz, nextPriority]

/-- On a book that holds queues, `restOrder` fails only where `placeOrder` does. -/
theorem OrdersRep.restOrder_eq {b : MEOrderBook} {fifo : ℕ → List Addr} (h : OrdersRep b fifo)
    (reading : PriorityReading) (x : AddArgs) (newMarketId : OrderId) :
    b.restOrder reading x newMarketId =
      b.placeOrder (x.order reading b.tickerId newMarketId) >>= fun r =>
        .ok ({ r.1 with
            marketUpdate := x.update r.1.tickerId newMarketId
              (b.nextPriority (fifo (priceToIndex x.price))) },
          [.sendMarketUpdate (x.update r.1.tickerId newMarketId
            (b.nextPriority (fifo (priceToIndex x.price))))]) := by
  rw [restOrder, h.getNextPriority_eq, ok_bind]
  rfl

theorem restOrder_frame {b b' : MEOrderBook} {reading : PriorityReading} {x : AddArgs}
    {newMarketId : OrderId} {sent : List EngineCall}
    (hok : b.restOrder reading x newMarketId = .ok (b', sent)) :
    ∃ priority b₁ o, b.getNextPriority x.price = .ok priority ∧
      b.placeOrder (x.order reading b.tickerId newMarketId) = .ok (b₁, o) ∧
      ∃ u, u = x.update b.tickerId newMarketId priority ∧
        b' = { b₁ with marketUpdate := u } ∧ sent = [.sendMarketUpdate u] := by
  obtain ⟨priority, hpriority, hok⟩ := bind_eq_ok.mp hok
  obtain ⟨⟨b₁, o⟩, hplace, hok⟩ := bind_eq_ok.mp hok
  rw [Except.ok.injEq, Prod.mk.injEq] at hok
  obtain ⟨rfl, rfl⟩ := hok
  have hticker : b₁.tickerId = b.tickerId := (placeOrder_frame hplace).tickerId
  refine ⟨priority, b₁, o, hpriority, hplace, _, rfl, ?_⟩
  simp only [AddArgs.update, hticker, and_self]

theorem OrdersRep.restOrder_eq_ok {b b' : MEOrderBook} {fifo : ℕ → List Addr}
    (h : OrdersRep b fifo) {reading : PriorityReading} {x : AddArgs} {newMarketId : OrderId}
    {sent : List EngineCall} (hok : b.restOrder reading x newMarketId = .ok (b', sent)) :
    ∃ b₁ o, b.placeOrder (x.order reading b.tickerId newMarketId) = .ok (b₁, o) ∧
      ∃ u, u = x.update b.tickerId newMarketId
          (b.nextPriority (fifo (priceToIndex x.price))) ∧
        b' = { b₁ with marketUpdate := u } ∧ sent = [.sendMarketUpdate u] := by
  obtain ⟨priority, b₁, o, hpriority, hplace, u, hu, hb', hsent⟩ := restOrder_frame hok
  rw [h.getNextPriority_eq, Except.ok.injEq] at hpriority
  exact ⟨b₁, o, hplace, u, hpriority ▸ hu, hb', hsent⟩

theorem add_eq_ok {checkMatch : CheckMatch} {reading : PriorityReading} {b b' : MEOrderBook}
    {x : AddArgs} {sent : List EngineCall}
    (hok : b.add checkMatch reading x = .ok (b', sent)) :
    ((b.acceptAndMatch checkMatch x).2.leavesQty = 0 ∧
      b' = (b.acceptAndMatch checkMatch x).2.book ∧
      sent = (b.acceptAndMatch checkMatch x).2.sent) ∨
    ((b.acceptAndMatch checkMatch x).2.leavesQty > 0 ∧
      ∃ out, (b.acceptAndMatch checkMatch x).2.book.restOrder reading x b.nextOrderId =
          .ok (b', out) ∧
        sent = (b.acceptAndMatch checkMatch x).2.sent ++ out) := by
  rw [add] at hok
  simp only at hok
  split at hok
  · rename_i hpos
    obtain ⟨⟨b₁, out⟩, hrest, hok⟩ := bind_eq_ok.mp hok
    rw [Except.ok.injEq, Prod.mk.injEq] at hok
    obtain ⟨rfl, rfl⟩ := hok
    exact .inr ⟨hpos, out, hrest, rfl⟩
  · rename_i hpos
    rw [Except.ok.injEq, Prod.mk.injEq] at hok
    refine .inl ⟨?_, hok.1.symm, hok.2.symm⟩
    have hle := UInt32.not_lt.mp hpos
    exact UInt32.toNat_inj.mp (Nat.le_zero.mp (UInt32.le_iff_toNat_le.mp hle))

/-! ### Books that hold queues -/

theorem OrdersRep.congr {b b' : MEOrderBook} {fifo : ℕ → List Addr} (h : OrdersRep b fifo)
    (hlevels : SameLevels b b') (horders : b'.orderPool = b.orderPool) :
    OrdersRep b' fifo := by
  have horder : ∀ a, b'.order a = b.order a := fun a => congrArg (MemPool.object · a) horders
  refine ⟨hlevels.slotsRep h.toSlotsRep, ?_, ?_, ?_, ?_, ?_, ?_⟩
  · rw [hlevels.priceOrdersAtPrice]
    exact h.null
  · intro i hi l hl
    rw [hlevels.priceOrdersAtPrice] at hl
    rw [hlevels.level]
    exact h.first i hi l hl
  · intro i hi
    exact orderRing_congr (h.ring i hi) fun a _ => horder a
  · intro i hi a ha
    rw [horder]
    exact h.order_index i hi a ha
  · rw [horders]
    exact h.order_live
  · rw [horders]
    exact h.order_lt

theorem OrdersRep.setOrder {b : MEOrderBook} {fifo : ℕ → List Addr} (h : OrdersRep b fifo)
    {a : Addr} {o : MEOrder} (hprice : o.price = (b.order a).price)
    (hnext : o.nextOrder = (b.order a).nextOrder)
    (hprev : o.prevOrder = (b.order a).prevOrder) : OrdersRep (b.setOrder a o) fifo where
  price := h.price
  live := h.live
  lt := h.lt
  null := h.null
  first := h.first
  ring i hi := by
    refine (h.ring i hi).congr (fun c _ => ?_) (fun c _ => ?_)
    · by_cases hc : c = a <;> simp [nextOrder, hc, hnext]
    · by_cases hc : c = a <;> simp [prevOrder, hc, hprev]
  order_index i hi c hc := by
    have hci := h.order_index i hi c hc
    by_cases hca : c = a
    · subst hca
      simpa [hprice] using hci
    · simpa [hca] using hci
  order_live i hi c hc := by
    have hlive := h.order_live i hi c hc
    rwa [← MemPool.isFree_write b.orderPool a c o] at hlive
  order_lt := h.order_lt

/-- What a `checkMatch` must respect: it leaves no more than it was given, and
a book that holds queues still does. -/
structure MatchContract (checkMatch : CheckMatch) : Prop where
  leavesQty_le : ∀ b c o t s p q m, (checkMatch b c o t s p q m).leavesQty ≤ q
  ordersRep : ∀ b c o t s p q m fifo, OrdersRep b fifo →
    ∃ fifo', OrdersRep (checkMatch b c o t s p q m).book fifo'

/-- The books that calls of `add` lead to, each with some `checkMatch`. -/
inductive Reachable (reading : PriorityReading) : MEOrderBook → Prop
  | start {b} : b.Empty → Reachable reading b
  | add {b b' checkMatch x sent} : MatchContract checkMatch → Reachable reading b →
      b.add checkMatch reading x = .ok (b', sent) → Reachable reading b'

theorem OrdersRep.accept {b : MEOrderBook} {fifo : ℕ → List Addr} (h : OrdersRep b fifo)
    {checkMatch : CheckMatch} (hcm : MatchContract checkMatch) (x : AddArgs) :
    ∃ fifo', OrdersRep (b.acceptAndMatch checkMatch x).2.book fifo' :=
  hcm.ordersRep _ _ _ _ _ _ _ _ fifo (h.congr ⟨rfl, rfl, rfl, rfl⟩ rfl)

theorem OrdersRep.add {b b' : MEOrderBook} {fifo : ℕ → List Addr} (h : OrdersRep b fifo)
    {checkMatch : CheckMatch} (hcm : MatchContract checkMatch) {reading : PriorityReading}
    {x : AddArgs} {sent : List EngineCall}
    (hok : b.add checkMatch reading x = .ok (b', sent)) : ∃ fifo', OrdersRep b' fifo' := by
  obtain ⟨fifo₁, h₁⟩ := h.accept hcm x
  rcases add_eq_ok hok with ⟨-, rfl, -⟩ | ⟨-, out, hrest, -⟩
  · exact ⟨fifo₁, h₁⟩
  · obtain ⟨b₁, o, hplace, u, -, rfl, -⟩ := h₁.restOrder_eq_ok hrest
    exact ⟨_, (h₁.place hplace).congr ⟨rfl, rfl, rfl, rfl⟩ rfl⟩

theorem Reachable.ordersRep {reading : PriorityReading} {b : MEOrderBook}
    (h : Reachable reading b) : ∃ fifo, OrdersRep b fifo := by
  induction h with
  | start h0 => exact ⟨_, h0.ordersRep⟩
  | add hcm _ hok ih =>
      obtain ⟨fifo, h⟩ := ih
      exact h.add hcm hok

/-! ### The quantity of an order -/

/-- A call of `add` for the quantity `requested` accounts for all of it: what
`checkMatch` left over rests in exactly one new order and is published in one
market update, and nothing rests or is published when nothing was left over.
`m` is what `checkMatch` did, `b'` and `sent` are the outcome of the call. -/
structure QuantityConserved (requested : Qty) (m : MatchResult) (b' : MEOrderBook)
    (sent : List EngineCall) : Prop where
  rest : m.leavesQty > 0 →
    ∃ o, ¬ m.book.Resting o ∧ (∀ a, b'.Resting a ↔ a = o ∨ m.book.Resting a) ∧
      (b'.order o).qty = m.leavesQty ∧
      (requested.toNat - m.leavesQty.toNat) + (b'.order o).qty.toNat = requested.toNat ∧
      ∃ u, addUpdates sent = addUpdates m.sent ++ [u] ∧ u.qty = m.leavesQty
  filled : m.leavesQty = 0 →
    (∀ a, b'.Resting a ↔ m.book.Resting a) ∧ addUpdates sent = addUpdates m.sent

theorem OrdersRep.restOrder_resting {b b' : MEOrderBook} {fifo : ℕ → List Addr}
    (h : OrdersRep b fifo) {reading : PriorityReading} {x : AddArgs} {newMarketId : OrderId}
    {sent : List EngineCall} (hok : b.restOrder reading x newMarketId = .ok (b', sent)) :
    ∃ o, ¬ b.Resting o ∧ (∀ a, b'.Resting a ↔ a = o ∨ b.Resting a) ∧
      (b'.order o).qty = x.qty ∧ ∃ u, addUpdates sent = [u] ∧ u.qty = x.qty := by
  obtain ⟨b₁, o, hplace, u, hu, rfl, rfl⟩ := h.restOrder_eq_ok hok
  have hp := placeOrder_frame hplace
  have h' : OrdersRep { b₁ with marketUpdate := u } (pushOrder fifo (x.order reading b.tickerId
      newMarketId) o) := (h.place hplace).congr ⟨rfl, rfl, rfl, rfl⟩ rfl
  refine ⟨o, ?_, fun a => ?_, ?_, u, ?_, by rw [hu, AddArgs.update]⟩
  · rw [h.resting_iff]
    rintro ⟨i, hi, ho⟩
    exact h.not_mem hp.was_free hi ho
  · rw [h'.resting_iff, h.resting_iff]
    simp only [mem_pushOrder]
    constructor
    · rintro ⟨i, hi, ⟨-, rfl⟩ | ha⟩
      · exact .inl rfl
      · exact .inr ⟨i, hi, ha⟩
    · rintro (rfl | ⟨i, hi, ha⟩)
      · exact ⟨_, priceToIndex_lt _, .inl ⟨rfl, rfl⟩⟩
      · exact ⟨i, hi, .inr ha⟩
  · have hun := hp.unlinked o
    rw [if_pos rfl] at hun
    exact (congrArg MEOrder.qty hun :)
  · have hadd : u.type = .add := by rw [hu, AddArgs.update]
    rw [addUpdates_update hadd, addUpdates_nil]

/-- **Quantity is conserved** by a completed call on a reachable book exactly
when `checkMatch` filled the order wholly or not at all. -/
theorem quantityConserved_iff {reading : PriorityReading} {checkMatch : CheckMatch}
    {b b' : MEOrderBook} {x : AddArgs} {sent : List EngineCall}
    (hcm : MatchContract checkMatch) (hb : Reachable reading b)
    (hok : b.add checkMatch reading x = .ok (b', sent)) :
    QuantityConserved x.qty (b.acceptAndMatch checkMatch x).2 b' sent ↔
      (b.acceptAndMatch checkMatch x).2.leavesQty = 0 ∨
        (b.acceptAndMatch checkMatch x).2.leavesQty = x.qty := by
  obtain ⟨fifo, h⟩ := hb.ordersRep
  obtain ⟨fifo₁, h₁⟩ := h.accept hcm x
  have hle : (b.acceptAndMatch checkMatch x).2.leavesQty ≤ x.qty := hcm.leavesQty_le ..
  generalize hm : (b.acceptAndMatch checkMatch x).2 = m at *
  rcases add_eq_ok hok with ⟨hzero, rfl, rfl⟩ | ⟨hpos, out, hrest, rfl⟩
  · rw [hm] at hzero
    refine iff_of_true ⟨fun hpos => ?_, fun _ => ?_⟩ (.inl hzero)
    · rw [hzero] at hpos
      contradiction
    · simp [hm]
  · rw [hm] at hpos hrest
    obtain ⟨o, hnew, hresting, hqty, u, hu, huqty⟩ := h₁.restOrder_resting hrest
    have hne : m.leavesQty ≠ 0 := by
      rintro hzero
      rw [hzero] at hpos
      contradiction
    rw [hm, or_iff_right hne]
    constructor
    · intro hcons
      -- the one new order is the one for the whole quantity
      obtain ⟨o', hnew', hresting', hqty', -⟩ := hcons.rest hpos
      have ho : b'.Resting o := (hresting o).mpr (.inl rfl)
      have hoo : o = o' := ((hresting' o).mp ho).resolve_right hnew
      rw [← hqty', ← hoo, hqty]
    · intro hfull
      refine ⟨fun _ => ⟨o, hnew, hresting, hqty.trans hfull.symm, ?_, u, ?_,
        huqty.trans hfull.symm⟩, fun hzero => absurd hzero hne⟩
      · rw [hqty, hfull]
        omega
      · rw [addUpdates_append, hu]

/-- A buy order meets the first order of the best ask, whose quantity it
reduces. -/
def fillFirstAsk : CheckMatch := fun b _ _ _ side _ qty _ =>
  match b.asksByPrice.bind fun l => (b.level l).firstOrder with
  | none => ⟨b, [], qty⟩
  | some f =>
      if side = .buy then
        ⟨b.setOrder f { b.order f with qty := (b.order f).qty - min (b.order f).qty qty }, [],
          qty - min (b.order f).qty qty⟩
      else
        ⟨b, [], qty⟩

theorem matchContract_fillFirstAsk : MatchContract fillFirstAsk where
  leavesQty_le b c o t s p q m := by
    unfold fillFirstAsk
    split
    · exact UInt32.le_refl q
    · split
      · exact UInt32.sub_le (UInt32.le_iff_toNat_le.mpr (by simp [UInt32.toNat_min]))
      · exact UInt32.le_refl q
  ordersRep b c o t s p q m fifo h := by
    unfold fillFirstAsk
    split
    · exact ⟨fifo, h⟩
    · split
      · exact ⟨fifo, h.setOrder rfl rfl rfl⟩
      · exact ⟨fifo, h⟩

/-- A buy order on an empty book, which leaves its whole quantity. -/
theorem quantityConserved_iff_unfilled :
    ∃ b' sent, (construct .zero 0).add fillFirstAsk .nullPointer ⟨1, 1, 0, .buy, 7, 100⟩ =
        .ok (b', sent) ∧
      QuantityConserved 100
        ((construct .zero 0).acceptAndMatch fillFirstAsk ⟨1, 1, 0, .buy, 7, 100⟩).2 b' sent := by
  obtain ⟨⟨b', sent⟩, hrun, -⟩ := exists_of_succeedsWith (p := fun _ => true)
    (x := (construct .zero 0).add fillFirstAsk .nullPointer ⟨1, 1, 0, .buy, 7, 100⟩)
    (by decide +kernel)
  exact ⟨b', sent, hrun, (quantityConserved_iff matchContract_fillFirstAsk
    (.start (empty_construct 0)) hrun).mpr (.inr rfl)⟩

/-- A sell order for 60 rests and a buy order for 100 comes in: 40 are left
over, and the new order rests and is published with 100. -/
theorem partial_fill_rests_whole :
    MatchContract fillFirstAsk ∧
    ∃ b b' sent, Reachable .nullPointer b ∧
      b.add fillFirstAsk .nullPointer ⟨2, 1, 0, .buy, 7, 100⟩ = .ok (b', sent) ∧
      ¬ QuantityConserved 100 (b.acceptAndMatch fillFirstAsk ⟨2, 1, 0, .buy, 7, 100⟩).2
        b' sent := by
  refine ⟨matchContract_fillFirstAsk, ?_⟩
  obtain ⟨⟨b, b', sent⟩, hrun, hqty⟩ := exists_of_succeedsWith
    (p := fun r : MEOrderBook × MEOrderBook × List EngineCall =>
      decide ((r.1.acceptAndMatch fillFirstAsk ⟨2, 1, 0, .buy, 7, 100⟩).2.leavesQty = 40 ∧
        (addUpdates r.2.2).map (·.qty) = [100]))
    (x := do
      let r ← (construct .zero 0).add fillFirstAsk .nullPointer ⟨1, 1, 0, .sell, 5, 60⟩
      let r' ← r.1.add fillFirstAsk .nullPointer ⟨2, 1, 0, .buy, 7, 100⟩
      .ok (r.1, r')) (by decide +kernel)
  obtain ⟨⟨b₁, sent₁⟩, hsell, hrun⟩ := bind_eq_ok.mp hrun
  obtain ⟨⟨b₂, sent₂⟩, hbuy, hrun⟩ := bind_eq_ok.mp hrun
  simp only [Except.ok.injEq, Prod.mk.injEq] at hrun
  obtain ⟨rfl, rfl, rfl⟩ := hrun
  obtain ⟨hleaves, hadds⟩ := of_decide_eq_true hqty
  refine ⟨b₁, b₂, sent₂, .add matchContract_fillFirstAsk (.start (empty_construct 0)) hsell,
    hbuy, fun hcons => ?_⟩
  obtain ⟨o, -, -, -, -, u, hu, huqty⟩ := hcons.rest (by rw [hleaves]; decide)
  have hlast := congrArg (fun us : List MEMarketUpdate => (us.map (·.qty)).getLast?) hu
  simp [hadds, huqty, hleaves] at hlast

end MEOrderBook

end LowLatency.Exchange
