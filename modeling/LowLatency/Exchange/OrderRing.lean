import LowLatency.Exchange.Levels

/-!
What `addOrder` does to the ring of orders of one price.

The orders of a level are a ring with the level's `first_order_` as its head,
and a new order goes behind the last one: it is spliced in front of the head.
A price without a level gets one, with the order as a ring of its own.

`OrderFrame` is the frame of `joinLevel` in any book: it changes links between
orders and nothing else.
-/

namespace LowLatency.Exchange

open LowLatency.Lib LowLatency.Common

/-- An order without its links. -/
def MEOrder.unlinked (o : MEOrder) : MEOrder := { o with prevOrder := none, nextOrder := none }

theorem MEOrder.eq_of_unlinked {x y : MEOrder} (h : x.unlinked = y.unlinked)
    (hprev : x.prevOrder = y.prevOrder) (hnext : x.nextOrder = y.nextOrder) : x = y := by
  have hx : x = { x.unlinked with prevOrder := x.prevOrder, nextOrder := x.nextOrder } := rfl
  rw [hx, h, hprev, hnext]
  rfl

namespace MEOrderBook

/-! ### Updates of an order -/

def setOrder (b : MEOrderBook) (a : Addr) (o : MEOrder) : MEOrderBook :=
  { b with orderPool := b.orderPool.write a o }

def nextOrder (b : MEOrderBook) (a : Addr) : Ptr := (b.order a).nextOrder

def prevOrder (b : MEOrderBook) (a : Addr) : Ptr := (b.order a).prevOrder

@[simp] theorem modifyOrder_some (b : MEOrderBook) (a : Addr) (f : MEOrder → MEOrder) :
    b.modifyOrder (some a) f = .ok (b.setOrder a (f (b.order a))) := rfl

@[simp] theorem modifyOrder_none (b : MEOrderBook) (f : MEOrder → MEOrder) :
    b.modifyOrder none f = .error .undefined := rfl

@[simp] theorem object_orderPool (b : MEOrderBook) (a : Addr) :
    b.orderPool.object a = b.order a := rfl

@[simp] theorem order_setOrder (b : MEOrderBook) (a c : Addr) (o : MEOrder) :
    (b.setOrder a o).order c = if c = a then o else b.order c :=
  MemPool.object_write b.orderPool a c o

@[simp] theorem setOrder_setOrder (b : MEOrderBook) (a : Addr) (x y : MEOrder) :
    (b.setOrder a x).setOrder a y = b.setOrder a y := by
  simp [setOrder]

/-- Outside of its levels, `b'` differs from `b` at most in the links between
orders. -/
structure SameOrderData (b b' : MEOrderBook) : Prop where
  tickerId : b'.tickerId = b.tickerId
  cidOidToOrder : b'.cidOidToOrder = b.cidOidToOrder
  nextOrderId : b'.nextOrderId = b.nextOrderId
  size : b'.orderPool.size = b.orderPool.size
  nextFreeIdx : b'.orderPool.nextFreeIdx = b.orderPool.nextFreeIdx
  isFree : ∀ a, b'.orderPool.isFree a = b.orderPool.isFree a
  unlinked : ∀ a, (b'.order a).unlinked = (b.order a).unlinked

theorem SameOrderData.field_eq {b b' : MEOrderBook} {β : Type} (h : SameOrderData b b')
    (f : MEOrder → β) (hf : ∀ y, f y.unlinked = f y) (a : Addr) :
    f (b'.order a) = f (b.order a) := by
  rw [← hf, h.unlinked, hf]

theorem SameOrderData.trans {b₁ b₂ b₃ : MEOrderBook} (h : SameOrderData b₁ b₂)
    (h' : SameOrderData b₂ b₃) : SameOrderData b₁ b₃ where
  tickerId := h'.tickerId.trans h.tickerId
  cidOidToOrder := h'.cidOidToOrder.trans h.cidOidToOrder
  nextOrderId := h'.nextOrderId.trans h.nextOrderId
  size := h'.size.trans h.size
  nextFreeIdx := h'.nextFreeIdx.trans h.nextFreeIdx
  isFree a := (h'.isFree a).trans (h.isFree a)
  unlinked a := (h'.unlinked a).trans (h.unlinked a)

theorem SameOrders.data {b b' : MEOrderBook} (h : SameOrders b b') : SameOrderData b b' where
  tickerId := h.tickerId
  cidOidToOrder := h.cidOidToOrder
  nextOrderId := h.nextOrderId
  size := congrArg MemPool.size h.orderPool
  nextFreeIdx := congrArg MemPool.nextFreeIdx h.orderPool
  isFree a := congrArg (MemPool.isFree · a) h.orderPool
  unlinked a := congrArg (fun pool => (pool.object a).unlinked) h.orderPool

/-- `b'` differs from `b` at most in the links between orders. -/
structure OrderFrame (b b' : MEOrderBook) : Prop extends SameLevels b b', SameOrderData b b'

theorem OrderFrame.trans {b₁ b₂ b₃ : MEOrderBook} (h : OrderFrame b₁ b₂)
    (h' : OrderFrame b₂ b₃) : OrderFrame b₁ b₃ where
  toSameLevels := h.toSameLevels.trans h'.toSameLevels
  toSameOrderData := h.toSameOrderData.trans h'.toSameOrderData

theorem OrderFrame.setOrder (b : MEOrderBook) (a : Addr) {o : MEOrder}
    (ho : o.unlinked = (b.order a).unlinked) : OrderFrame b (b.setOrder a o) where
  toSameLevels := ⟨rfl, rfl, rfl, rfl⟩
  tickerId := rfl
  cidOidToOrder := rfl
  nextOrderId := rfl
  size := rfl
  nextFreeIdx := rfl
  isFree c := MemPool.isFree_write b.orderPool a c o
  unlinked c := by by_cases h : c = a <;> simp [h, ho]

theorem modifyOrder_frame {b b' : MEOrderBook} {ptr : Ptr} {f : MEOrder → MEOrder}
    (h : b.modifyOrder ptr f = .ok b') (hf : ∀ o, (f o).unlinked = o.unlinked) :
    OrderFrame b b' := by
  cases ptr with
  | none => simp at h
  | some a =>
      rw [modifyOrder_some, Except.ok.injEq] at h
      exact h ▸ OrderFrame.setOrder b a (hf _)

theorem joinLevel_frame {b b' : MEOrderBook} {o l : Addr} (h : b.joinLevel o l = .ok b') :
    OrderFrame b b' := by
  simp only [joinLevel, bind_eq_ok] at h
  obtain ⟨first, -, b₁, h₁, first', -, b₂, h₂, b₃, h₃, h₄⟩ := h
  have f₁ := modifyOrder_frame h₁ fun _ => rfl
  have f₂ := modifyOrder_frame h₂ fun _ => rfl
  have f₃ := modifyOrder_frame h₃ fun _ => rfl
  have f₄ := modifyOrder_frame h₄ fun _ => rfl
  exact ((f₁.trans f₂).trans f₃).trans f₄

/-! ### The two branches -/

theorem joinLevel_ring {b : MEOrderBook} {o l f a : Addr}
    (hfirst : (b.level l).firstOrder = some f) (hprev : b.prevOrder f = some a)
    (hof : o ≠ f) (hoa : o ≠ a) :
    ∃ b', b.joinLevel o l = .ok b' ∧
      Spliced b.nextOrder b.prevOrder b'.nextOrder b'.prevOrder a o f := by
  have hprev' : (b.order f).prevOrder = some a := hprev
  -- the first write only touches `next_order_`
  have hstill : ∀ x : MEOrder, x.prevOrder = (b.order a).prevOrder →
      (if f = a then x else b.order f).prevOrder = some a := by
    intro x hx
    by_cases hfa : f = a
    · subst hfa
      rw [if_pos rfl, hx, hprev']
    · rw [if_neg hfa, hprev']
  have hrun : ∃ b', b.joinLevel o l = .ok b' := by
    simp [joinLevel, hfirst, hprev']
  obtain ⟨b', hb'⟩ := hrun
  refine ⟨b', hb', ?_⟩
  simp only [joinLevel, hfirst, MemPool.read_some, object_orderPool, ok_bind, hprev',
    modifyOrder_some, order_setOrder, hof.symm, if_false, if_true, Except.ok.injEq] at hb'
  subst hb'
  refine ⟨?_, ?_, ?_, ?_, ?_, ?_⟩
  · simp [nextOrder, hof]
  · simp [prevOrder, hof, hstill]
  · by_cases hfa : a = f <;> simp [nextOrder, hfa, hoa.symm]
  · simp [prevOrder]
  · intro y hyo hya
    by_cases hyf : y = f
    · subst hyf
      simp [nextOrder, hya]
    · simp [nextOrder, hyo, hya, hyf]
  · intro y hyo hyf
    by_cases hya : y = a
    · subst hya
      simp [prevOrder, hyo, hyf]
    · simp [prevOrder, hyo, hyf, hya]

/-- What joining a level with the orders `q` does to the orders. -/
structure LevelJoined (b b' : MEOrderBook) (o : Addr) (q : List Addr) : Prop where
  ring : LinkedRing b'.nextOrder b'.prevOrder (q ++ [o])
  /-- A ring without these orders has none of the nodes whose links are written. -/
  other : ∀ q', LinkedRing b.nextOrder b.prevOrder q' → o ∉ q' → (∀ c ∈ q, c ∉ q') →
    LinkedRing b'.nextOrder b'.prevOrder q'
  order : ∀ c, c ≠ o → c ∉ q → b'.order c = b.order c

theorem joinLevel_appends {b : MEOrderBook} {o l : Addr} {q : List Addr} (hne : q ≠ [])
    (hfirst : (b.level l).firstOrder = q.head?)
    (hring : LinkedRing b.nextOrder b.prevOrder q) (ho : o ∉ q) :
    ∃ b', b.joinLevel o l = .ok b' ∧ LevelJoined b b' o q := by
  obtain ⟨f, t, rfl⟩ := List.exists_cons_of_ne_nil hne
  have hf : f ∈ f :: t := List.mem_cons_self
  obtain ⟨a, ha, hprev⟩ := hring.prev_mem hf
  have hof : o ≠ f := fun e => ho (e ▸ hf)
  have hoa : o ≠ a := fun e => ho (e ▸ ha)
  obtain ⟨b', hrun, hs⟩ := joinLevel_ring hfirst hprev hof hoa
  refine ⟨b', hrun, LinkedRing.splice_head hs hring ho hprev, ?_, ?_⟩
  · intro q' hq' ho' hother
    exact hq'.disjoint hs ho' (hother a ha) (hother f hf)
  · intro c hco hc
    have hcf : c ≠ f := fun e => hc (e ▸ hf)
    have hca : c ≠ a := fun e => hc (e ▸ ha)
    exact MEOrder.eq_of_unlinked ((joinLevel_frame hrun).unlinked c) (hs.prev_frame c hco hcf)
      (hs.next_frame c hco hca)

/-- The order at `o` linked to itself. -/
def selfLinked (b : MEOrderBook) (o : Addr) : MEOrderBook :=
  b.setOrder o { b.order o with prevOrder := some o, nextOrder := some o }

/-- The level a first order gets. -/
def levelFor (x : MEOrder) (o : Addr) : MEOrdersAtPrice := ⟨x.price, x.side, some o, none, none⟩

theorem openLevel_eq (b : MEOrderBook) (o : Addr) :
    b.openLevel o = (b.selfLinked o).placeLevel (levelFor (b.order o) o) := by
  simp [openLevel, selfLinked, levelFor]

theorem selfLinked_frame (b : MEOrderBook) (o : Addr) : OrderFrame b (b.selfLinked o) :=
  .setOrder b o rfl

theorem addOrder_eq_ok {b b' : MEOrderBook} {o : Addr} (h : b.addOrder o = .ok b') :
    ∃ b₁, ((∃ l, b.priceOrdersAtPrice (priceToIndex (b.order o).price) = some l ∧
        b.joinLevel o l = .ok b₁) ∨
      (b.priceOrdersAtPrice (priceToIndex (b.order o).price) = none ∧
        b.openLevel o = .ok b₁)) ∧
      b₁.indexOrder o = .ok b' := by
  obtain ⟨slot, hslot, h⟩ := bind_eq_ok.mp h
  obtain ⟨b₁, h₁, hindex⟩ := bind_eq_ok.mp h
  have hslot' := (arrayAt_eq_ok.mp hslot).2
  refine ⟨b₁, ?_, hindex⟩
  cases slot with
  | none => exact .inr ⟨hslot', h₁⟩
  | some l => exact .inl ⟨l, hslot', h₁⟩

/-- The book with the order at `o` entered under its client's key. -/
def indexed (b : MEOrderBook) (o : Addr) : MEOrderBook :=
  { b with
    cidOidToOrder := Function.update b.cidOidToOrder (b.order o).clientId.toNat
      (Function.update (b.cidOidToOrder (b.order o).clientId.toNat)
        (b.order o).clientOrderId.toNat (some o)) }

theorem indexOrder_eq_ok {b b' : MEOrderBook} {o : Addr} :
    b.indexOrder o = .ok b' ↔ (b.order o).clientId.toNat < meMaxNumClients ∧
      (b.order o).clientOrderId.toNat < meMaxOrderIds ∧ b' = b.indexed o := by
  simp only [indexOrder, bind_eq_ok, arrayAt_eq_ok, arraySet_eq_ok, Except.ok.injEq]
  constructor
  · rintro ⟨-, ⟨hc, rfl⟩, -, ⟨ho, rfl⟩, rfl⟩
    exact ⟨hc, ho, rfl⟩
  · rintro ⟨hc, ho, rfl⟩
    exact ⟨_, ⟨hc, rfl⟩, _, ⟨ho, rfl⟩, rfl⟩

end MEOrderBook

end LowLatency.Exchange
