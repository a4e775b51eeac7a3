import LowLatency.Exchange.Add

/-!
The market data stream over runs of `add`.

Both artefacts of a call come from its arguments by separate code: the order
linked into the book and the ADD update. `StreamRep` says that after any run
the queue of every price and the updates for that price read the same, as long
as `checkMatch` is `Passive`. The priorities do not take part in this: the one
that is published is computed from the one that is stored with the last order,
and `add` stores a constant.
-/

namespace LowLatency.Exchange

open LowLatency.Lib LowLatency.Common

namespace MEOrderBook

def adds (checkMatch : CheckMatch) (reading : PriorityReading) (b : MEOrderBook)
    (xs : List AddArgs) : Exec (MEOrderBook × List EngineCall) :=
  runLog (fun b x => b.add checkMatch reading x) b xs

/-- Once round along `next_order_` from the first order of the level in the
slot of a price. -/
def ordersAt (b : MEOrderBook) (price : Price) : Option (List Addr) :=
  match b.priceOrdersAtPrice price.toNat with
  | none => some []
  | some l =>
      match (b.level l).firstOrder with
      | none => none
      | some f => walk b.nextOrder f b.orderPool.size f

def updatesAt (sent : List EngineCall) (price : Price) : List MEMarketUpdate :=
  (addUpdates sent).filter (·.price = price)

/-- An order as the market sees it. -/
def orderView (o : MEOrder) : OrderId × Side × Price × Qty :=
  (o.marketOrderId, o.side, o.price, o.qty)

def updateView (u : MEMarketUpdate) : OrderId × Side × Price × Qty :=
  (u.orderId, u.side, u.price, u.qty)

theorem OrdersRep.ordersAt_eq {b : MEOrderBook} {fifo : ℕ → List Addr} (h : OrdersRep b fifo)
    {price : Price} (hprice : price.toNat < meMaxPriceLevels) :
    b.ordersAt price = some (fifo price.toNat) := by
  unfold ordersAt
  cases hl : b.priceOrdersAtPrice price.toNat with
  | none => rw [h.null _ hprice hl]
  | some l =>
      obtain ⟨f, t, hfifo, hfirst⟩ := h.first _ hprice l hl
      have hring := h.ring _ hprice
      have hlen := length_le_of_nodup hring.nodup (h.order_lt _ hprice)
      rw [hfifo] at hring hlen
      simp only [hfirst, hfifo]
      exact hring.nextRing.walk_eq hlen

theorem OrdersRep.slot_eq_none_iff {b : MEOrderBook} {fifo : ℕ → List Addr}
    (h : OrdersRep b fifo) {i : ℕ} (hi : i < meMaxPriceLevels) :
    b.priceOrdersAtPrice i = none ↔ fifo i = [] := by
  refine ⟨h.null i hi, fun hnil => ?_⟩
  cases hl : b.priceOrdersAtPrice i with
  | none => rfl
  | some l =>
      obtain ⟨f, t, hfifo, -⟩ := h.first i hi l hl
      rw [hnil] at hfifo
      contradiction

/-- `checkMatch` leaves the book alone and sends no ADD of its own. -/
structure Passive (checkMatch : CheckMatch) : Prop where
  book : ∀ b c o t s p q m, (checkMatch b c o t s p q m).book = b
  sent : ∀ b c o t s p q m, addUpdates (checkMatch b c o t s p q m).sent = []

structure AddArgs.InRange (x : AddArgs) : Prop where
  price : x.price.toNat < meMaxPriceLevels
  clientId : x.clientId.toNat < meMaxNumClients
  orderId : x.orderId.toNat < meMaxOrderIds

instance (x : AddArgs) : Decidable x.InRange :=
  decidable_of_iff (x.price.toNat < meMaxPriceLevels ∧ x.clientId.toNat < meMaxNumClients ∧
    x.orderId.toNat < meMaxOrderIds)
    ⟨fun h => ⟨h.1, h.2.1, h.2.2⟩, fun h => ⟨h.price, h.clientId, h.orderId⟩⟩

/-! ### The invariant of a run -/

/-- The queues of the book and the stream read the same. -/
structure StreamRep (b : MEOrderBook) (fifo : ℕ → List Addr) (sent : List EngineCall) :
    Prop extends OrdersRep b fifo where
  view : ∀ price : Price, price.toNat < meMaxPriceLevels →
    (fifo price.toNat).map (fun a => orderView (b.order a)) =
      (updatesAt sent price).map updateView

theorem StreamRep.start {b : MEOrderBook} (h : b.Empty) : StreamRep b (fun _ => []) [] where
  toOrdersRep := h.ordersRep
  view _ _ := rfl

theorem StreamRep.congr {b b' : MEOrderBook} {fifo : ℕ → List Addr} {sent : List EngineCall}
    (h : StreamRep b fifo sent) (hlevels : SameLevels b b')
    (horders : b'.orderPool = b.orderPool) : StreamRep b' fifo sent where
  toOrdersRep := h.toOrdersRep.congr hlevels horders
  view price hprice := by
    rw [← h.view price hprice]
    exact List.map_congr_left fun a _ =>
      congrArg (fun pool => orderView (pool.object a)) horders

theorem updatesAt_quiet {sent out : List EngineCall} (hout : addUpdates out = [])
    (price : Price) : updatesAt (sent ++ out) price = updatesAt sent price := by
  rw [updatesAt, addUpdates_append, hout, List.append_nil, updatesAt]

theorem updatesAt_update (sent : List EngineCall) {u : MEMarketUpdate} (hu : u.type = .add)
    (price : Price) : updatesAt (sent ++ [.sendMarketUpdate u]) price =
      updatesAt sent price ++ if u.price = price then [u] else [] := by
  rw [updatesAt, addUpdates_append, addUpdates_update hu, addUpdates_nil, List.filter_append,
    updatesAt]
  by_cases hprice : u.price = price <;> simp [hprice]

theorem StreamRep.place {b b' : MEOrderBook} {fifo : ℕ → List Addr} {sent : List EngineCall}
    (h : StreamRep b fifo sent) {reading : PriorityReading} {x : AddArgs}
    {newMarketId : OrderId} {o : Addr} (hprice : x.price.toNat < meMaxPriceLevels)
    (hplace : b.placeOrder (x.order reading b.tickerId newMarketId) = .ok (b', o))
    (priority : Priority) :
    StreamRep b' (pushOrder fifo (x.order reading b.tickerId newMarketId) o)
      (sent ++ [.sendMarketUpdate (x.update b.tickerId newMarketId priority)]) := by
  have hp := placeOrder_frame hplace
  refine ⟨h.toOrdersRep.place hplace, fun price hplt => ?_⟩
  have hview := hp.field_eq orderView fun _ => rfl
  have hold : (fifo price.toNat).map (fun a => orderView (b'.order a)) =
      (updatesAt sent price).map updateView := by
    rw [← h.view price hplt]
    refine List.map_congr_left fun a ha => ?_
    have hao : a ≠ o := fun e => h.not_mem hp.was_free hplt (e ▸ ha)
    rw [hview, if_neg hao]
  have hxi : priceToIndex (x.order reading b.tickerId newMarketId).price = x.price.toNat :=
    priceToIndex_of_lt hprice
  have hup : (x.update b.tickerId newMarketId priority).price = x.price := rfl
  rw [updatesAt_update _ rfl, hup, pushOrder, hxi]
  by_cases hxp : x.price = price
  · subst hxp
    rw [Function.update_self, if_pos rfl, List.map_append, List.map_append, hold]
    simp only [List.map_cons, List.map_nil, hview, if_true]
    rfl
  · have hne : price.toNat ≠ x.price.toNat := fun e => hxp (UInt64.toNat_inj.mp e.symm)
    rw [Function.update_of_ne hne, if_neg hxp, List.append_nil, hold]

/-- `checkMatch` leaves the book alone. -/
def Idle (checkMatch : CheckMatch) : Prop :=
  ∀ b c o t s p q m, (checkMatch b c o t s p q m).book = b

theorem Idle.accept {checkMatch : CheckMatch} (hcm : Idle checkMatch) (b : MEOrderBook)
    (x : AddArgs) :
    SameLevels b (b.acceptAndMatch checkMatch x).2.book ∧
      (b.acceptAndMatch checkMatch x).2.book.orderPool = b.orderPool := by
  simp only [acceptAndMatch, hcm _ _ _ _ _ _ _ _]
  exact ⟨⟨rfl, rfl, rfl, rfl⟩, rfl⟩

theorem Passive.accept {checkMatch : CheckMatch} (hcm : Passive checkMatch) (b : MEOrderBook)
    (x : AddArgs) :
    SameLevels b (b.acceptAndMatch checkMatch x).2.book ∧
      (b.acceptAndMatch checkMatch x).2.book.orderPool = b.orderPool ∧
      addUpdates (b.acceptAndMatch checkMatch x).2.sent = [] := by
  obtain ⟨hlevels, horders⟩ := Idle.accept hcm.book b x
  exact ⟨hlevels, horders, hcm.sent ..⟩

theorem StreamRep.accept {b : MEOrderBook} {fifo : ℕ → List Addr} {sent : List EngineCall}
    (h : StreamRep b fifo sent) {checkMatch : CheckMatch} (hcm : Passive checkMatch)
    (x : AddArgs) : StreamRep (b.acceptAndMatch checkMatch x).2.book fifo
      (sent ++ (b.acceptAndMatch checkMatch x).2.sent) := by
  obtain ⟨hlevels, horders, hquiet⟩ := hcm.accept b x
  refine ⟨h.toOrdersRep.congr hlevels horders, fun price hprice => ?_⟩
  rw [updatesAt_quiet hquiet]
  exact (h.congr hlevels horders).view price hprice

/-- The book can take further orders: its levels are in order and neither pool
stands at a taken block. -/
structure Servable (b : MEOrderBook) : Prop where
  asks : ∃ asks, LevelsRep b asks
  levels : b.ordersAtPricePool.Ready
  orders : b.orderPool.Ready

theorem Servable.congr {b b' : MEOrderBook} (h : Servable b) (hlevels : SameLevels b b')
    (horders : b'.orderPool = b.orderPool) : Servable b' where
  asks := h.asks.imp fun _ hasks => hlevels.levelsRep hasks
  levels := hlevels.ordersAtPricePool ▸ h.levels
  orders := horders ▸ h.orders

theorem Servable.place {b b' : MEOrderBook} (h : Servable b) {x : MEOrder} {o : Addr}
    (hok : b.placeOrder x = .ok (b', o)) : Servable b' := by
  obtain ⟨asks, hasks⟩ := h.asks
  have hp := placeOrder_frame hok
  exact ⟨hasks.placeOrder hok, hp.levels_ready h.levels, hp.ready⟩

theorem restOrder_total {b : MEOrderBook} {fifo : ℕ → List Addr} {sent : List EngineCall}
    (h : StreamRep b fifo sent) (hs : Servable b) (reading : PriorityReading) {x : AddArgs}
    (hx : x.InRange) (newMarketId : OrderId) :
    (∃ b' out, b.restOrder reading x newMarketId = .ok (b', out) ∧ Servable b' ∧
      ∃ fifo', StreamRep b' fifo' (sent ++ out)) ∨
    b.restOrder reading x newMarketId = .error MemPool.outOfSpace := by
  obtain ⟨asks, hasks⟩ := hs.asks
  have htotal := placeOrder_total (x := x.order reading b.tickerId newMarketId) hasks
    h.toOrdersRep hs.levels hs.orders hx.price hx.clientId hx.orderId
  rw [h.restOrder_eq]
  rcases htotal with ⟨b₁, o, hplace⟩ | ⟨-, hplace⟩
  · left
    have hticker : b₁.tickerId = b.tickerId := (placeOrder_frame hplace).tickerId
    have hrep := h.place hx.price hplace (b.nextPriority (fifo (priceToIndex x.price)))
    rw [hplace, ok_bind]
    refine ⟨_, _, rfl, (hs.place hplace).congr ⟨rfl, rfl, rfl, rfl⟩ rfl,
      pushOrder fifo (x.order reading b.tickerId newMarketId) o, ?_⟩
    rw [hticker]
    exact hrep.congr ⟨rfl, rfl, rfl, rfl⟩ rfl
  · exact .inr (by rw [hplace, error_bind])

theorem add_total {checkMatch : CheckMatch} (hcm : Passive checkMatch) {b : MEOrderBook}
    {fifo : ℕ → List Addr} {sent : List EngineCall} (h : StreamRep b fifo sent)
    (hs : Servable b) (reading : PriorityReading) {x : AddArgs} (hx : x.InRange) :
    (∃ b' out, b.add checkMatch reading x = .ok (b', out) ∧ Servable b' ∧
      ∃ fifo', StreamRep b' fifo' (sent ++ out)) ∨
    b.add checkMatch reading x = .error MemPool.outOfSpace := by
  obtain ⟨hlevels, horders, -⟩ := hcm.accept b x
  have h' := h.accept hcm x
  have hs' := hs.congr hlevels horders
  rw [add]
  simp only
  split
  · rcases restOrder_total h' hs' reading hx (b.acceptAndMatch checkMatch x).1 with
      ⟨b', out, hrest, hserv, fifo', hrep⟩ | hrest
    · rw [hrest, ok_bind]
      exact .inl ⟨_, _, rfl, hserv, fifo', by rwa [← List.append_assoc]⟩
    · rw [hrest, error_bind]
      exact .inr rfl
  · exact .inl ⟨_, _, rfl, hs', fifo, h'⟩

/-- **The stream mirrors the book.** A run of `add` on an empty book that does
not run out of space completes, and then for every price the orders met on one
turn from the first order of its level are the ADD updates for this price, in
the order sent; the slot is null when there are none. -/
theorem adds_mirror {checkMatch : CheckMatch} {reading : PriorityReading} {b₀ : MEOrderBook}
    {xs : List AddArgs} (hcm : Passive checkMatch) (h0 : b₀.Empty)
    (hlevels : b₀.ordersAtPricePool.Ready) (horders : b₀.orderPool.Ready)
    (hx : ∀ x ∈ xs, x.InRange)
    (hspace : b₀.adds checkMatch reading xs ≠ .error MemPool.outOfSpace) :
    ∃ b sent, b₀.adds checkMatch reading xs = .ok (b, sent) ∧
      ∀ price : Price, price.toNat < meMaxPriceLevels →
        (∃ l, b.ordersAt price = some l ∧
          l.map (fun a => orderView (b.order a)) = (updatesAt sent price).map updateView) ∧
        (b.priceOrdersAtPrice price.toNat = none ↔ updatesAt sent price = []) := by
  have htotal := runLog_total (fun b x => add checkMatch reading b x) b₀ xs
    (· = MemPool.outOfSpace)
    (fun _ b sent => Servable b ∧ ∃ fifo, StreamRep b fifo sent)
    ⟨⟨⟨[], h0.levelsRep⟩, hlevels, horders⟩, _, .start h0⟩ ?_
  · obtain ⟨b, sent, hrun, -, fifo, hrep⟩ := htotal.resolve_right fun ⟨_, he, hrun⟩ =>
      hspace (he ▸ hrun)
    refine ⟨b, sent, hrun, fun price hprice => ⟨⟨_, hrep.ordersAt_eq hprice,
      hrep.view price hprice⟩, ?_⟩⟩
    rw [hrep.slot_eq_none_iff hprice, ← List.map_eq_nil_iff (f := fun a => orderView (b.order a)),
      hrep.view price hprice, List.map_eq_nil_iff]
  · rintro pre x b sent hpre ⟨hs, fifo, hrep⟩
    rcases add_total hcm hrep hs reading (hx x (hpre.subset (by simp))) with
      ⟨b', out, hok, hs', hrep'⟩ | herror
    · exact .inl ⟨b', out, hok, hs', hrep'⟩
    · exact .inr ⟨_, rfl, herror⟩

/-- A book in which nothing crosses: the whole quantity is left. -/
def noMatch : CheckMatch := fun b _ _ _ _ _ qty _ => ⟨b, [], qty⟩

theorem passive_noMatch : Passive noMatch := ⟨fun _ _ _ _ _ _ _ _ => rfl,
  fun _ _ _ _ _ _ _ _ => rfl⟩

/-- Three orders on both sides, two of them at one price. -/
theorem adds_mirror_three :
    ∃ b sent, (construct .zero 0).adds noMatch .nullPointer
        [⟨1, 1, 0, .buy, 7, 10⟩, ⟨2, 1, 0, .sell, 9, 20⟩, ⟨1, 2, 0, .buy, 7, 30⟩] =
        .ok (b, sent) ∧
      ∀ price : Price, price.toNat < meMaxPriceLevels →
        (∃ l, b.ordersAt price = some l ∧
          l.map (fun a => orderView (b.order a)) = (updatesAt sent price).map updateView) ∧
        (b.priceOrdersAtPrice price.toNat = none ↔ updatesAt sent price = []) := by
  obtain ⟨r, hrun, -⟩ := exists_of_succeedsWith (p := fun _ => true)
    (x := (construct .zero 0).adds noMatch .nullPointer
      [⟨1, 1, 0, .buy, 7, 10⟩, ⟨2, 1, 0, .sell, 9, 20⟩, ⟨1, 2, 0, .buy, 7, 30⟩])
    (by decide +kernel)
  exact adds_mirror passive_noMatch (empty_construct 0) (MemPool.ready_ofSize (by decide))
    (MemPool.ready_ofSize (by decide)) (by decide) (by simp [hrun])

/-! ### Priorities -/

/-- The priorities published for one price: 1 for the first order, and one more
than the stored constant for all the others. -/
def priorities (reading : PriorityReading) : ℕ → List Priority
  | 0 => []
  | n + 1 => 1 :: List.replicate n (reading.priority + 1)

theorem priorities_succ (reading : PriorityReading) (n : ℕ) :
    priorities reading (n + 1) =
      priorities reading n ++ [if n = 0 then 1 else reading.priority + 1] := by
  cases n with
  | zero => rfl
  | succ n => simp [priorities, List.replicate_succ']

@[simp] theorem length_priorities (reading : PriorityReading) (n : ℕ) :
    (priorities reading n).length = n := by
  cases n <;> simp [priorities]

/-- The stored and the published priorities after the calls `xs`. -/
structure PriorityRep (reading : PriorityReading) (b : MEOrderBook) (fifo : ℕ → List Addr)
    (xs : List AddArgs) (sent : List EngineCall) : Prop extends StreamRep b fifo sent where
  stored : ∀ i < meMaxPriceLevels, ∀ a ∈ fifo i, (b.order a).priority = reading.priority
  published : ∀ price : Price, price.toNat < meMaxPriceLevels →
    (updatesAt sent price).map (·.priority) =
      priorities reading (xs.countP (·.price = price))

theorem PriorityRep.length_eq {reading : PriorityReading} {b : MEOrderBook}
    {fifo : ℕ → List Addr} {xs : List AddArgs} {sent : List EngineCall}
    (h : PriorityRep reading b fifo xs sent) {price : Price}
    (hprice : price.toNat < meMaxPriceLevels) :
    (fifo price.toNat).length = xs.countP (·.price = price) := by
  have hview := congrArg List.length (h.view price hprice)
  have hpub := congrArg List.length (h.published price hprice)
  simp only [List.length_map, length_priorities] at hview hpub
  exact hview.trans hpub

/-- The next priority only depends on whether the queue is empty. -/
theorem PriorityRep.nextPriority_eq {reading : PriorityReading} {b : MEOrderBook}
    {fifo : ℕ → List Addr} {xs : List AddArgs} {sent : List EngineCall}
    (h : PriorityRep reading b fifo xs sent) {price : Price}
    (hprice : price.toNat < meMaxPriceLevels) :
    b.nextPriority (fifo price.toNat) =
      if xs.countP (·.price = price) = 0 then 1 else reading.priority + 1 := by
  rw [← h.length_eq hprice, nextPriority]
  cases hlast : (fifo price.toNat).getLast? with
  | none => simp [List.getLast?_eq_none_iff.mp hlast]
  | some z =>
      have hz := List.mem_of_getLast? hlast
      have hne : (fifo price.toNat).length ≠ 0 := by
        simpa using List.ne_nil_of_mem hz
      simp only [if_neg hne, h.stored _ hprice z hz]

theorem PriorityRep.step {reading : PriorityReading} {b b' : MEOrderBook}
    {fifo : ℕ → List Addr} {xs : List AddArgs} {sent out : List EngineCall}
    (h : PriorityRep reading b fifo xs sent) {x : AddArgs}
    (hprice : x.price.toNat < meMaxPriceLevels) (hqty : 0 < x.qty)
    (hok : b.add noMatch reading x = .ok (b', out)) :
    ∃ fifo', PriorityRep reading b' fifo' (xs ++ [x]) (sent ++ out) := by
  obtain ⟨-, horders, hquiet⟩ := passive_noMatch.accept b x
  have h' := h.toStreamRep.accept passive_noMatch x
  rcases add_eq_ok hok with ⟨hzero, -, -⟩ | ⟨-, out, hrest, rfl⟩
  · have hzero' : x.qty = 0 := hzero
    rw [hzero'] at hqty
    contradiction
  have horder : ∀ a, (b.acceptAndMatch noMatch x).2.book.order a = b.order a := fun a =>
    congrArg (MemPool.object · a) horders
  generalize (b.acceptAndMatch noMatch x).2.book = c at h' hrest horder
  obtain ⟨b₁, o, hplace, u, hu, rfl, rfl⟩ := h'.toOrdersRep.restOrder_eq_ok hrest
  have hp := placeOrder_frame hplace
  have hrep := h'.place hprice hplace (c.nextPriority (fifo (priceToIndex x.price)))
  rw [← hu, List.append_assoc] at hrep
  have hnext : u.priority =
      if xs.countP (·.price = x.price) = 0 then 1 else reading.priority + 1 := by
    rw [hu, AddArgs.update, priceToIndex_of_lt hprice, ← h.nextPriority_eq hprice]
    simp only [nextPriority, horder]
  refine ⟨_, hrep.congr ⟨rfl, rfl, rfl, rfl⟩ rfl, ?_, ?_⟩
  · intro i hi a ha
    show (b₁.order a).priority = _
    rw [hp.field_eq MEOrder.priority fun _ => rfl]
    rcases mem_pushOrder.mp ha with ⟨-, rfl⟩ | ha
    · rw [if_pos rfl, AddArgs.order]
    · rw [if_neg fun e : a = o => h'.not_mem hp.was_free hi (e ▸ ha), horder]
      exact h.stored i hi a ha
  · intro price hlt
    have hadd : u.type = .add := by rw [hu, AddArgs.update]
    have huprice : u.price = x.price := by rw [hu, AddArgs.update]
    rw [← List.append_assoc, updatesAt_update _ hadd, updatesAt_quiet hquiet, huprice,
      List.map_append, h.published price hlt, List.countP_append]
    by_cases hxp : x.price = price
    · subst hxp
      simp [priorities_succ, hnext]
    · simp [hxp]

theorem priorityRep_of_run {reading : PriorityReading} {b₀ b : MEOrderBook}
    {xs : List AddArgs} {sent : List EngineCall} (h0 : b₀.Empty)
    (hx : ∀ x ∈ xs, x.price.toNat < meMaxPriceLevels ∧ 0 < x.qty)
    (hrun : b₀.adds noMatch reading xs = .ok (b, sent)) :
    ∃ fifo, PriorityRep reading b fifo xs sent := by
  refine runLog_invariant (fun pre b sent => ∃ fifo, PriorityRep reading b fifo pre sent)
    ⟨_, .start h0, ?_, fun _ _ => rfl⟩ ?_ hrun
  · intro i hi a ha
    simp at ha
  · rintro pre x b₁ sent₁ b₂ out hpre ⟨fifo, hrep⟩ hok
    obtain ⟨hprice, hqty⟩ := hx x (hpre.subset (by simp))
    exact hrep.step hprice hqty hok

/-- The priorities published for a price rise from 1 and are the ones stored
with the orders. -/
structure TimePriority (b : MEOrderBook) (sent : List EngineCall) (price : Price) : Prop where
  rising : ((updatesAt sent price).map (·.priority)).Pairwise (· < ·)
  from_one : ∀ u ∈ (updatesAt sent price).head?, u.priority = 1
  stored : ∃ l, b.ordersAt price = some l ∧
    l.map (fun a => ((b.order a).marketOrderId, (b.order a).priority)) =
      (updatesAt sent price).map fun u => (u.orderId, u.priority)

/-- **Time priority** holds at a price exactly when no order came in at it: the
first one is published with 1, which is not what is stored. -/
theorem timePriority_iff {reading : PriorityReading} {b₀ b : MEOrderBook} {xs : List AddArgs}
    {sent : List EngineCall} (h0 : b₀.Empty)
    (hx : ∀ x ∈ xs, x.price.toNat < meMaxPriceLevels ∧ 0 < x.qty)
    (hrun : b₀.adds noMatch reading xs = .ok (b, sent)) {price : Price}
    (hprice : price.toNat < meMaxPriceLevels) :
    TimePriority b sent price ↔ ∀ x ∈ xs, x.price ≠ price := by
  obtain ⟨fifo, h⟩ := priorityRep_of_run h0 hx hrun
  have hcount : (∀ x ∈ xs, x.price ≠ price) ↔ updatesAt sent price = [] := by
    rw [← List.map_eq_nil_iff (f := MEMarketUpdate.priority), h.published price hprice,
      ← List.length_eq_zero_iff, length_priorities, List.countP_eq_zero]
    simp
  rw [hcount]
  constructor
  · intro htime
    cases hupdates : updatesAt sent price with
    | nil => rfl
    | cons u us =>
        exfalso
        have hone : u.priority = 1 := htime.from_one u (by simp [hupdates])
        obtain ⟨l, hl, hlu⟩ := htime.stored
        rw [h.ordersAt_eq hprice, Option.some.injEq] at hl
        rw [hupdates, ← hl] at hlu
        obtain ⟨a, t, hfifo, hau, -⟩ := List.map_eq_cons_iff.mp hlu
        have hstored := h.stored _ hprice a (by simp [hfifo])
        rw [Prod.mk.injEq, hone, hstored] at hau
        cases reading with
        | nullPointer => exact absurd hau.2 (by decide)
        | defaulted => exact absurd hau.2 (by decide)
  · intro hnil
    have hfifo : fifo price.toNat = [] := by
      have hview := h.view price hprice
      rw [hnil] at hview
      simpa using hview
    refine ⟨by simp [hnil], by simp [hnil], [], ?_, by simp [hnil]⟩
    rw [h.ordersAt_eq hprice, hfifo]

theorem timePriority_iff_two :
    ∃ b sent, (construct .zero 0).adds noMatch .nullPointer
        [⟨1, 1, 0, .sell, 5, 10⟩, ⟨2, 1, 0, .sell, 5, 20⟩] = .ok (b, sent) ∧
      TimePriority b sent 7 := by
  obtain ⟨⟨b, sent⟩, hrun, -⟩ := exists_of_succeedsWith (p := fun _ => true)
    (x := (construct .zero 0).adds noMatch .nullPointer
      [⟨1, 1, 0, .sell, 5, 10⟩, ⟨2, 1, 0, .sell, 5, 20⟩]) (by decide +kernel)
  exact ⟨b, sent, hrun, (timePriority_iff (empty_construct 0) (by decide) hrun
    (by decide)).mpr (by decide)⟩

/-- Three orders at 5 are published with 1, 1, 1 or with 1, 0, 0. -/
theorem priorities_not_rising :
    (∃ b sent, (construct .zero 0).adds noMatch .nullPointer
        [⟨1, 1, 0, .sell, 5, 10⟩, ⟨2, 1, 0, .sell, 5, 20⟩, ⟨3, 1, 0, .sell, 5, 30⟩] =
        .ok (b, sent) ∧ ¬ TimePriority b sent 5) ∧
    ∃ b sent, (construct .zero 0).adds noMatch .defaulted
        [⟨1, 1, 0, .sell, 5, 10⟩, ⟨2, 1, 0, .sell, 5, 20⟩, ⟨3, 1, 0, .sell, 5, 30⟩] =
        .ok (b, sent) ∧ ¬ TimePriority b sent 5 := by
  constructor
  · obtain ⟨⟨b, sent⟩, hrun, hpub⟩ := exists_of_succeedsWith
      (p := fun r => decide ((updatesAt r.2 5).map (·.priority) = [1, 1, 1]))
      (x := (construct .zero 0).adds noMatch .nullPointer
        [⟨1, 1, 0, .sell, 5, 10⟩, ⟨2, 1, 0, .sell, 5, 20⟩, ⟨3, 1, 0, .sell, 5, 30⟩])
      (by decide +kernel)
    refine ⟨b, sent, hrun, fun htime => ?_⟩
    have hrising := htime.rising
    rw [of_decide_eq_true hpub] at hrising
    exact absurd hrising (by decide)
  · obtain ⟨⟨b, sent⟩, hrun, hpub⟩ := exists_of_succeedsWith
      (p := fun r => decide ((updatesAt r.2 5).map (·.priority) = [1, 0, 0]))
      (x := (construct .zero 0).adds noMatch .defaulted
        [⟨1, 1, 0, .sell, 5, 10⟩, ⟨2, 1, 0, .sell, 5, 20⟩, ⟨3, 1, 0, .sell, 5, 30⟩])
      (by decide +kernel)
    refine ⟨b, sent, hrun, fun htime => ?_⟩
    have hrising := htime.rising
    rw [of_decide_eq_true hpub] at hrising
    exact absurd hrising (by decide)

end MEOrderBook

end LowLatency.Exchange
