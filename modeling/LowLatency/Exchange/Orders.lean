import LowLatency.Exchange.OrderRing

/-!
The orders of a book over a run.

Seen from outside, the resting orders are queues, one for each slot of the
price table, and a new order is pushed onto the queue of its price's slot.
`OrdersRep b fifo` says that the book's linked structure is these queues;
`OrdersRep.place` is the simulation: a completed `placeOrder` is a push.

`OrderPlaced` collects what a completed `placeOrder` changes, whatever the
state of the rings.
-/

namespace LowLatency.Exchange

open LowLatency.Lib LowLatency.Common

namespace MEOrderBook

/-! ### Placing an order -/

/-- The book after the allocation in `placeOrder`, before `addOrder`. -/
def withOrders (b : MEOrderBook) (pool : MemPool MEOrder) : MEOrderBook :=
  { b with orderPool := pool }

theorem placeOrder_eq_ok {b b' : MEOrderBook} {x : MEOrder} {o : Addr}
    (h : b.placeOrder x = .ok (b', o)) :
    ∃ pool, MemPool.Allocated b.orderPool pool x o ∧
      (b.withOrders pool).addOrder o = .ok b' := by
  obtain ⟨⟨pool, a⟩, halloc, h⟩ := bind_eq_ok.mp h
  obtain ⟨b₁, hadd, h⟩ := bind_eq_ok.mp h
  rw [Except.ok.injEq, Prod.mk.injEq] at h
  obtain ⟨rfl, rfl⟩ := h
  exact ⟨pool, MemPool.allocate_ok halloc, hadd⟩

theorem placeOrder_of_allocate {b : MEOrderBook} {x : MEOrder} {pool : MemPool MEOrder}
    {o : Addr} (h : b.orderPool.allocate x = .ok (pool, o)) :
    b.placeOrder x = (b.withOrders pool).addOrder o >>= fun b' => .ok (b', o) := by
  rw [placeOrder, h, ok_bind]
  rfl

theorem order_withOrders {b : MEOrderBook} {pool : MemPool MEOrder} {x : MEOrder} {o : Addr}
    (h : MemPool.Allocated b.orderPool pool x o) (a : Addr) :
    (b.withOrders pool).order a = if a = o then x else b.order a :=
  h.object a

theorem order_withOrders_new {b : MEOrderBook} {pool : MemPool MEOrder} {x : MEOrder}
    {o : Addr} (h : MemPool.Allocated b.orderPool pool x o) :
    (b.withOrders pool).order o = x := by
  rw [order_withOrders h, if_pos rfl]

/-- What adding the order `x` at `o` does to the levels: its slot has one
already, or gets one. -/
def LevelsChange (b b' : MEOrderBook) (x : MEOrder) (o : Addr) : Prop :=
  (∃ l, b.priceOrdersAtPrice (priceToIndex x.price) = some l ∧ SameLevels b b') ∨
    (b.priceOrdersAtPrice (priceToIndex x.price) = none ∧
      ∃ p, LevelFrame b b' (levelFor x o) p)

theorem LevelsChange.congr {b₀ b₁ b₂ b₃ : MEOrderBook} {x : MEOrder} {o : Addr}
    (h : LevelsChange b₁ b₂ x o) (h₀ : SameLevels b₀ b₁) (h₃ : SameLevels b₂ b₃) :
    LevelsChange b₀ b₃ x o := by
  rcases h with ⟨l, hslot, hsame⟩ | ⟨hslot, p, hp⟩
  · rw [h₀.priceOrdersAtPrice] at hslot
    exact .inl ⟨l, hslot, (h₀.trans hsame).trans h₃⟩
  · rw [h₀.priceOrdersAtPrice] at hslot
    exact .inr ⟨hslot, p, hp.congr h₀ h₃⟩

theorem addOrder_frame {b b' : MEOrderBook} {o : Addr} (h : b.addOrder o = .ok b') :
    ∃ b₁, SameOrderData b b₁ ∧ LevelsChange b b₁ (b.order o) o ∧ b₁.indexOrder o = .ok b' := by
  obtain ⟨b₁, ⟨l, hslot, h₁⟩ | ⟨hslot, h₁⟩, hindex⟩ := addOrder_eq_ok h
  · have hf := joinLevel_frame h₁
    exact ⟨b₁, hf.toSameOrderData, .inl ⟨l, hslot, hf.toSameLevels⟩, hindex⟩
  · rw [openLevel_eq] at h₁
    have hself := selfLinked_frame b o
    obtain ⟨p, hp⟩ := placeLevel_frame h₁
    refine ⟨b₁, hself.toSameOrderData.trans (placeLevel_sameOrders h₁).data,
      .inr ⟨hslot, p, hp.congr hself.toSameLevels ⟨rfl, rfl, rfl, rfl⟩⟩, hindex⟩

/-- Everything a completed `placeOrder` changes, but for the links. -/
structure OrderPlaced (b b' : MEOrderBook) (x : MEOrder) (o : Addr) : Prop where
  tickerId : b'.tickerId = b.tickerId
  nextOrderId : b'.nextOrderId = b.nextOrderId
  lt : o < b.orderPool.size
  was_free : b.orderPool.isFree o = true
  size : b'.orderPool.size = b.orderPool.size
  isFree : ∀ a, b'.orderPool.isFree a = if a = o then false else b.orderPool.isFree a
  unlinked : ∀ a, (b'.order a).unlinked = if a = o then x.unlinked else (b.order a).unlinked
  ready : b'.orderPool.Ready
  clientId_lt : x.clientId.toNat < meMaxNumClients
  clientOrderId_lt : x.clientOrderId.toNat < meMaxOrderIds
  index : b'.cidOidToOrder = Function.update b.cidOidToOrder x.clientId.toNat
    (Function.update (b.cidOidToOrder x.clientId.toNat) x.clientOrderId.toNat (some o))
  levels : LevelsChange b b' x o

theorem placeOrder_frame {b b' : MEOrderBook} {x : MEOrder} {o : Addr}
    (h : b.placeOrder x = .ok (b', o)) : OrderPlaced b b' x o := by
  obtain ⟨pool, halloc, hadd⟩ := placeOrder_eq_ok h
  obtain ⟨b₁, hdata, hlevels, hindex⟩ := addOrder_frame hadd
  have hnew := order_withOrders_new halloc
  have hcid : (b₁.order o).clientId = x.clientId := by
    rw [hdata.field_eq MEOrder.clientId fun _ => rfl, hnew]
  have hoid : (b₁.order o).clientOrderId = x.clientOrderId := by
    rw [hdata.field_eq MEOrder.clientOrderId fun _ => rfl, hnew]
  obtain ⟨hc, ho, rfl⟩ := indexOrder_eq_ok.mp hindex
  rw [hnew] at hlevels
  rw [hcid] at hc
  rw [hoid] at ho
  refine ⟨hdata.tickerId, hdata.nextOrderId, halloc.lt, halloc.was_free,
    hdata.size.trans halloc.size, fun a => (hdata.isFree a).trans (halloc.isFree a), ?_,
    ⟨?_, ?_⟩, hc, ho, ?_,
    hlevels.congr ⟨rfl, rfl, rfl, rfl⟩ ⟨rfl, rfl, rfl, rfl⟩⟩
  · intro a
    show (b₁.order a).unlinked = _
    rw [hdata.unlinked, order_withOrders halloc]
    split <;> rfl
  · show b₁.orderPool.nextFreeIdx < b₁.orderPool.size
    rw [hdata.nextFreeIdx, hdata.size]
    exact halloc.ready.lt
  · show b₁.orderPool.isFree b₁.orderPool.nextFreeIdx = true
    rw [hdata.nextFreeIdx, hdata.isFree]
    exact halloc.ready.free
  · rw [indexed, hcid, hoid, hdata.cidOidToOrder]
    rfl

theorem OrderPlaced.field_eq {b b' : MEOrderBook} {x : MEOrder} {o : Addr} {β : Type}
    (h : OrderPlaced b b' x o) (f : MEOrder → β) (hf : ∀ y, f y.unlinked = f y) (a : Addr) :
    f (b'.order a) = if a = o then f x else f (b.order a) := by
  rw [← hf, h.unlinked]
  split <;> rw [hf]

/-! ### The queues -/

/-- `b` holds the queues `fifo`, one for each slot of the price table. -/
structure OrdersRep (b : MEOrderBook) (fifo : ℕ → List Addr) : Prop extends SlotsRep b where
  null : ∀ i < meMaxPriceLevels, b.priceOrdersAtPrice i = none → fifo i = []
  first : ∀ i < meMaxPriceLevels, ∀ l, b.priceOrdersAtPrice i = some l →
    ∃ h t, fifo i = h :: t ∧ (b.level l).firstOrder = some h
  ring : ∀ i < meMaxPriceLevels, LinkedRing b.nextOrder b.prevOrder (fifo i)
  order_index : ∀ i < meMaxPriceLevels, ∀ a ∈ fifo i, priceToIndex (b.order a).price = i
  order_live : ∀ i < meMaxPriceLevels, ∀ a ∈ fifo i, b.orderPool.isFree a = false
  order_lt : ∀ i < meMaxPriceLevels, ∀ a ∈ fifo i, a < b.orderPool.size

theorem Empty.ordersRep {b : MEOrderBook} (h : b.Empty) : OrdersRep b fun _ => [] where
  toSlotsRep := h.slotsRep
  null _ _ _ := rfl
  first i hi l hl := by
    rw [h.priceOrdersAtPrice i hi] at hl
    contradiction
  ring _ _ := .nil
  order_index _ _ a ha := by simp at ha
  order_live _ _ a ha := by simp at ha
  order_lt _ _ a ha := by simp at ha

/-- The queues after the order `x` at `o` has been pushed. -/
def pushOrder (fifo : ℕ → List Addr) (x : MEOrder) (o : Addr) : ℕ → List Addr :=
  Function.update fifo (priceToIndex x.price) (fifo (priceToIndex x.price) ++ [o])

theorem mem_pushOrder {fifo : ℕ → List Addr} {x : MEOrder} {o a : Addr} {i : ℕ} :
    a ∈ pushOrder fifo x o i ↔ (i = priceToIndex x.price ∧ a = o) ∨ a ∈ fifo i := by
  by_cases h : i = priceToIndex x.price
  · subst h
    simp [pushOrder, or_comm]
  · simp [pushOrder, h]

theorem priceToIndex_lt (price : Price) : priceToIndex price < meMaxPriceLevels :=
  Nat.mod_lt _ (by decide)

theorem priceToIndex_of_lt {price : Price} (h : price.toNat < meMaxPriceLevels) :
    priceToIndex price = price.toNat := Nat.mod_eq_of_lt h

theorem OrdersRep.not_mem {b : MEOrderBook} {fifo : ℕ → List Addr} (h : OrdersRep b fifo)
    {o : Addr} (hfree : b.orderPool.isFree o = true) {i : ℕ} (hi : i < meMaxPriceLevels) :
    o ∉ fifo i := by
  intro ho
  have hlive := h.order_live i hi o ho
  rw [hfree] at hlive
  contradiction

theorem orderRing_congr {b b' : MEOrderBook} {l : List Addr}
    (h : LinkedRing b.nextOrder b.prevOrder l) (hsame : ∀ a ∈ l, b'.order a = b.order a) :
    LinkedRing b'.nextOrder b'.prevOrder l :=
  h.congr (fun a ha => congrArg MEOrder.nextOrder (hsame a ha))
    (fun a ha => congrArg MEOrder.prevOrder (hsame a ha))

theorem OrdersRep.withOrders {b : MEOrderBook} {fifo : ℕ → List Addr} (h : OrdersRep b fifo)
    {pool : MemPool MEOrder} {x : MEOrder} {o : Addr}
    (halloc : MemPool.Allocated b.orderPool pool x o) : OrdersRep (b.withOrders pool) fifo := by
  have hne : ∀ i < meMaxPriceLevels, ∀ a ∈ fifo i, a ≠ o := fun i hi a ha e =>
    h.not_mem halloc.was_free hi (e ▸ ha)
  have hold : ∀ i < meMaxPriceLevels, ∀ a ∈ fifo i,
      (b.withOrders pool).order a = b.order a := fun i hi a ha => by
    rw [order_withOrders halloc, if_neg (hne i hi a ha)]
  have hsame : SameLevels b (b.withOrders pool) := ⟨rfl, rfl, rfl, rfl⟩
  refine ⟨hsame.slotsRep h.toSlotsRep, h.null, h.first, ?_, ?_, ?_, ?_⟩
  · exact fun i hi => orderRing_congr (h.ring i hi) (hold i hi)
  · intro i hi a ha
    rw [hold i hi a ha]
    exact h.order_index i hi a ha
  · intro i hi a ha
    show pool.isFree a = false
    rw [halloc.isFree, if_neg (hne i hi a ha)]
    exact h.order_live i hi a ha
  · intro i hi a ha
    show a < pool.size
    rw [halloc.size]
    exact h.order_lt i hi a ha

theorem OrdersRep.join {b : MEOrderBook} {fifo : ℕ → List Addr} (h : OrdersRep b fifo)
    {o l : Addr} {k : ℕ} (hk : k < meMaxPriceLevels)
    (hl : b.priceOrdersAtPrice k = some l) (hnew : ∀ i < meMaxPriceLevels, o ∉ fifo i) :
    ∃ b', b.joinLevel o l = .ok b' ∧ ∀ i < meMaxPriceLevels,
      LinkedRing b'.nextOrder b'.prevOrder (Function.update fifo k (fifo k ++ [o]) i) := by
  obtain ⟨f, t, hfifo, hfirst⟩ := h.first k hk l hl
  have hne : fifo k ≠ [] := by simp [hfifo]
  have hhead : (b.level l).firstOrder = (fifo k).head? := by rw [hfirst, hfifo, List.head?_cons]
  obtain ⟨b', hrun, hjoined⟩ := joinLevel_appends hne hhead (h.ring k hk) (hnew k hk)
  refine ⟨b', hrun, fun i hi => ?_⟩
  by_cases hik : i = k
  · subst hik
    rw [Function.update_self]
    exact hjoined.ring
  · rw [Function.update_of_ne hik]
    refine hjoined.other _ (h.ring i hi) (hnew i hi) fun c hc hci => ?_
    exact hik ((h.order_index i hi c hci).symm.trans (h.order_index k hk c hc))

theorem OrdersRep.selfLinked_ring {b : MEOrderBook} {fifo : ℕ → List Addr}
    (h : OrdersRep b fifo) {o : Addr} {k : ℕ} (hnil : fifo k = [])
    (hnew : ∀ i < meMaxPriceLevels, o ∉ fifo i) :
    ∀ i < meMaxPriceLevels, LinkedRing (b.selfLinked o).nextOrder (b.selfLinked o).prevOrder
      (Function.update fifo k (fifo k ++ [o]) i) := by
  intro i hi
  by_cases hik : i = k
  · subst hik
    rw [Function.update_self, hnil]
    refine Cyclic.single ⟨?_, ?_⟩
    · simp [nextOrder, selfLinked]
    · simp [prevOrder, selfLinked]
  · rw [Function.update_of_ne hik]
    refine orderRing_congr (h.ring i hi) fun a ha => ?_
    have hao : a ≠ o := fun e => hnew i hi (e ▸ ha)
    simp [selfLinked, hao]

theorem OrdersRep.place_ring {b b' : MEOrderBook} {fifo : ℕ → List Addr} (h : OrdersRep b fifo)
    {x : MEOrder} {o : Addr} (hok : b.placeOrder x = .ok (b', o)) :
    ∀ i < meMaxPriceLevels, LinkedRing b'.nextOrder b'.prevOrder (pushOrder fifo x o i) := by
  obtain ⟨pool, halloc, hadd⟩ := placeOrder_eq_ok hok
  obtain ⟨b₁, hcase, hindex⟩ := addOrder_eq_ok hadd
  obtain ⟨-, -, rfl⟩ := indexOrder_eq_ok.mp hindex
  have hx := order_withOrders_new halloc
  rw [hx] at hcase
  have h' := h.withOrders halloc
  have hnew : ∀ i < meMaxPriceLevels, o ∉ fifo i := fun i hi => h.not_mem halloc.was_free hi
  have hslot := priceToIndex_lt x.price
  intro i hi
  show LinkedRing b₁.nextOrder b₁.prevOrder _
  rcases hcase with ⟨l, hl, hjoin⟩ | ⟨hnull, hopen⟩
  · obtain ⟨b₂, hrun, hring⟩ := h'.join hslot hl hnew
    rw [hrun, Except.ok.injEq] at hjoin
    exact hjoin ▸ hring i hi
  · rw [openLevel_eq] at hopen
    have hpool := (placeLevel_sameOrders hopen).orderPool
    exact orderRing_congr (h'.selfLinked_ring (h'.null _ hslot hnull) hnew i hi) fun a _ =>
      congrArg (MemPool.object · a) hpool

/-- The price table leads to the queues: a null slot to an empty one, a level to
the first order of one. -/
structure QueueHeads (b : MEOrderBook) (fifo : ℕ → List Addr) : Prop where
  null : ∀ i < meMaxPriceLevels, b.priceOrdersAtPrice i = none → fifo i = []
  first : ∀ i < meMaxPriceLevels, ∀ l, b.priceOrdersAtPrice i = some l →
    ∃ h t, fifo i = h :: t ∧ (b.level l).firstOrder = some h

theorem pushOrder_of_ne (fifo : ℕ → List Addr) (x : MEOrder) (o : Addr) {i : ℕ}
    (hi : i ≠ priceToIndex x.price) : pushOrder fifo x o i = fifo i :=
  Function.update_of_ne hi _ _

theorem LevelFrame.slots_eq {b b' : MEOrderBook} {x : MEOrder} {o p : Addr}
    (hf : LevelFrame b b' (levelFor x o) p) : b'.priceOrdersAtPrice =
      Function.update b.priceOrdersAtPrice (priceToIndex x.price) (some p) := by
  have hprice : priceToIndex x.price = x.price.toNat := priceToIndex_of_lt hf.price_lt
  rw [hf.slots, hprice, levelFor]

theorem OrdersRep.heads_join {b b' : MEOrderBook} {fifo : ℕ → List Addr} (h : OrdersRep b fifo)
    {x : MEOrder} {o l : Addr} (hl : b.priceOrdersAtPrice (priceToIndex x.price) = some l)
    (hsame : SameLevels b b') : QueueHeads b' (pushOrder fifo x o) where
  null i hi hnone := by
    rw [hsame.priceOrdersAtPrice] at hnone
    have hip : i ≠ priceToIndex x.price := by
      rintro rfl
      rw [hl] at hnone
      contradiction
    rw [pushOrder_of_ne fifo x o hip, h.null i hi hnone]
  first i hi k hk := by
    rw [hsame.priceOrdersAtPrice] at hk
    rw [hsame.level]
    obtain ⟨f, t, hfifo, hfirst⟩ := h.first i hi k hk
    by_cases hip : i = priceToIndex x.price
    · subst hip
      exact ⟨f, t ++ [o], by simp [pushOrder, hfifo], hfirst⟩
    · exact ⟨f, t, by rw [pushOrder_of_ne fifo x o hip, hfifo], hfirst⟩

theorem OrdersRep.heads_open {b b' : MEOrderBook} {fifo : ℕ → List Addr} (h : OrdersRep b fifo)
    {x : MEOrder} {o p : Addr} (hnull : b.priceOrdersAtPrice (priceToIndex x.price) = none)
    (hf : LevelFrame b b' (levelFor x o) p) : QueueHeads b' (pushOrder fifo x o) := by
  have hslots := hf.slots_eq
  refine ⟨fun i hi hnone => ?_, fun i hi k hk => ?_⟩
  · rw [hslots] at hnone
    have hip : i ≠ priceToIndex x.price := by
      rintro rfl
      rw [Function.update_self] at hnone
      contradiction
    rw [Function.update_of_ne hip] at hnone
    rw [pushOrder_of_ne fifo x o hip, h.null i hi hnone]
  · rw [hslots] at hk
    rw [hf.firstOrder]
    by_cases hip : i = priceToIndex x.price
    · subst hip
      rw [Function.update_self, Option.some.injEq] at hk
      refine ⟨o, [], ?_, by rw [if_pos hk.symm, levelFor]⟩
      rw [pushOrder, Function.update_self, h.null _ (priceToIndex_lt _) hnull, List.nil_append]
    · rw [Function.update_of_ne hip] at hk
      obtain ⟨f, t, hfifo, hfirst⟩ := h.first i hi k hk
      refine ⟨f, t, by rw [pushOrder_of_ne fifo x o hip, hfifo], ?_⟩
      rw [if_neg (h.fresh hf ⟨i, hi, hk⟩), hfirst]

theorem OrdersRep.place_first {b b' : MEOrderBook} {fifo : ℕ → List Addr}
    (h : OrdersRep b fifo) {x : MEOrder} {o : Addr} (hlevels : LevelsChange b b' x o) :
    SlotsRep b' ∧ QueueHeads b' (pushOrder fifo x o) := by
  rcases hlevels with ⟨l, hl, hsame⟩ | ⟨hnull, p, hf⟩
  · exact ⟨hsame.slotsRep h.toSlotsRep, h.heads_join hl hsame⟩
  · exact ⟨h.toSlotsRep.place hf, h.heads_open hnull hf⟩

/-- **A completed `placeOrder` is a push.** -/
theorem OrdersRep.place {b b' : MEOrderBook} {fifo : ℕ → List Addr} (h : OrdersRep b fifo)
    {x : MEOrder} {o : Addr} (hok : b.placeOrder x = .ok (b', o)) :
    OrdersRep b' (pushOrder fifo x o) := by
  have hp := placeOrder_frame hok
  have hfresh : ∀ i < meMaxPriceLevels, ∀ a ∈ fifo i, a ≠ o := fun i hi a ha e =>
    h.not_mem hp.was_free hi (e ▸ ha)
  have hprice := hp.field_eq MEOrder.price fun _ => rfl
  obtain ⟨hslots, hheads⟩ := h.place_first hp.levels
  refine ⟨hslots, hheads.null, hheads.first, h.place_ring hok, ?_, ?_, ?_⟩
  all_goals
    intro i hi a ha
    rcases mem_pushOrder.mp ha with ⟨rfl, rfl⟩ | ha
  · rw [hprice, if_pos rfl]
  · rw [hprice, if_neg (hfresh i hi a ha)]
    exact h.order_index i hi a ha
  · rw [hp.isFree, if_pos rfl]
  · rw [hp.isFree, if_neg (hfresh i hi a ha)]
    exact h.order_live i hi a ha
  · rw [hp.size]
    exact hp.lt
  · rw [hp.size]
    exact h.order_lt i hi a ha

/-- A completed `placeOrder` keeps the levels' invariant, whatever the rings
of orders look like. -/
theorem LevelsRep.placeOrder {b b' : MEOrderBook} {asks : List Addr} (h : LevelsRep b asks)
    {x : MEOrder} {o : Addr} (hok : b.placeOrder x = .ok (b', o)) :
    ∃ asks', LevelsRep b' asks' := by
  obtain ⟨pool, halloc, hadd⟩ := placeOrder_eq_ok hok
  obtain ⟨b₁, hcase, hindex⟩ := addOrder_eq_ok hadd
  obtain ⟨-, -, rfl⟩ := indexOrder_eq_ok.mp hindex
  have hsame : SameLevels b (b.withOrders pool) := ⟨rfl, rfl, rfl, rfl⟩
  have hsame' : SameLevels b₁ (b₁.indexed o) := ⟨rfl, rfl, rfl, rfl⟩
  rcases hcase with ⟨l, -, hjoin⟩ | ⟨hnull, hopen⟩
  · have hf := joinLevel_frame hjoin
    exact ⟨asks, hsame'.levelsRep (hf.levelsRep (hsame.levelsRep h))⟩
  · rw [openLevel_eq] at hopen
    have hself := ((selfLinked_frame (b.withOrders pool) o).levelsRep (hsame.levelsRep h))
    obtain ⟨p, hf⟩ := placeLevel_frame hopen
    have hprice := priceToIndex_of_lt hf.price_lt
    rw [levelFor] at hprice
    obtain ⟨p, -, hrep⟩ := hself.place (hprice ▸ hnull) hopen
    exact ⟨_, hsame'.levelsRep hrep⟩

/-- The pool of levels can still serve a request after a completed
`placeOrder`. -/
theorem OrderPlaced.levels_ready {b b' : MEOrderBook} {x : MEOrder} {o : Addr}
    (h : OrderPlaced b b' x o) (hready : b.ordersAtPricePool.Ready) :
    b'.ordersAtPricePool.Ready := by
  rcases h.levels with ⟨l, -, hsame⟩ | ⟨-, p, hf⟩
  · rw [hsame.ordersAtPricePool]
    exact hready
  · exact hf.ready

/-- **`placeOrder` completes** on a well-formed book, for an order within the
bounds of the tables, unless one of the pools has no block to spare. -/
theorem placeOrder_total {b : MEOrderBook} {asks : List Addr} {fifo : ℕ → List Addr}
    (hlevels : LevelsRep b asks) (horders : OrdersRep b fifo)
    (hlready : b.ordersAtPricePool.Ready) (horready : b.orderPool.Ready) {x : MEOrder}
    (hprice : x.price.toNat < meMaxPriceLevels) (hcid : x.clientId.toNat < meMaxNumClients)
    (hoid : x.clientOrderId.toNat < meMaxOrderIds) :
    (∃ b' o, b.placeOrder x = .ok (b', o)) ∨
    ((¬ b.orderPool.Spare ∨ ¬ b.ordersAtPricePool.Spare) ∧
      b.placeOrder x = .error MemPool.outOfSpace) := by
  rcases MemPool.allocate_cases horready x with ⟨pool, o, hrun, halloc⟩ | ⟨hspare, hrun⟩
  swap
  · exact .inr ⟨.inl hspare, by rw [placeOrder, hrun, error_bind]⟩
  have hx := order_withOrders_new halloc
  have hindex : ∀ {b₁}, SameOrderData (b.withOrders pool) b₁ →
      ∃ b₂, b₁.indexOrder o = .ok b₂ := by
    intro b₁ hdata
    have hc : (b₁.order o).clientId = x.clientId := by
      rw [hdata.field_eq MEOrder.clientId fun _ => rfl, hx]
    have ho : (b₁.order o).clientOrderId = x.clientOrderId := by
      rw [hdata.field_eq MEOrder.clientOrderId fun _ => rfl, hx]
    exact ⟨_, indexOrder_eq_ok.mpr ⟨hc ▸ hcid, ho ▸ hoid, rfl⟩⟩
  have hslot := priceToIndex_lt x.price
  have hget : (b.withOrders pool).getOrdersAtPrice x.price =
      .ok (b.priceOrdersAtPrice (priceToIndex x.price)) := arrayAt_eq_ok.mpr ⟨hslot, rfl⟩
  rw [placeOrder_of_allocate hrun, addOrder, hx, hget, ok_bind]
  cases hl : b.priceOrdersAtPrice (priceToIndex x.price) with
  | some l =>
      obtain ⟨b₁, hjoin, -⟩ := (horders.withOrders halloc).join hslot hl fun i hi =>
        horders.not_mem halloc.was_free hi
      obtain ⟨b₂, hb₂⟩ := hindex (joinLevel_frame hjoin).toSameOrderData
      exact .inl ⟨b₂, o, by simp [hjoin, hb₂]⟩
  | none =>
      have hself := selfLinked_frame (b.withOrders pool) o
      have hsame : SameLevels b (b.withOrders pool) := ⟨rfl, rfl, rfl, rfl⟩
      have hrep := hself.levelsRep (hsame.levelsRep hlevels)
      rw [priceToIndex_of_lt hprice] at hl
      have htotal := hrep.place_total (l := levelFor x o) hlready hprice hl
      simp only [openLevel_eq, hx]
      rcases htotal with ⟨b₁, hplace⟩ | ⟨hspare, hplace⟩
      · obtain ⟨b₂, hb₂⟩ := hindex
          (hself.toSameOrderData.trans (placeLevel_sameOrders hplace).data)
        exact .inl ⟨b₂, o, by simp [hplace, hb₂]⟩
      · exact .inr ⟨.inr hspare, by simp [hplace]⟩

end MEOrderBook

end LowLatency.Exchange
