import LowLatency.Exchange.LevelRing
import Mathlib.Data.List.Perm.Subperm
import Mathlib.Data.List.Range

/-!
The levels of a book over a run.

`LevelFrame` says what placing a level changes in any book; it is read off the
code with no assumption. `LevelsRep b asks` is the invariant of the levels:
every slot of the price table leads to a live level of its own price,
`bids_by_price_` is null, and `asks_by_price_` is the head of a well-formed
ring of exactly the levels in the table that are not on the buy side.

That `bids_by_price_` is null in every reachable book is no assumption about
the orders: the code has no assignment that could change it.
-/

namespace LowLatency.Exchange

open LowLatency.Lib LowLatency.Common

namespace MEOrderBook

/-! ### Placing a level -/

/-- What placing a level leaves alone. -/
structure SameOrders (b b' : MEOrderBook) : Prop where
  tickerId : b'.tickerId = b.tickerId
  cidOidToOrder : b'.cidOidToOrder = b.cidOidToOrder
  orderPool : b'.orderPool = b.orderPool
  nextOrderId : b'.nextOrderId = b.nextOrderId

/-- What changes when the level `l` is placed at the address `p`. Links and
heads are left open. -/
structure LevelFrame (b b' : MEOrderBook) (l : MEOrdersAtPrice) (p : Addr) : Prop where
  price_lt : l.price.toNat < meMaxPriceLevels
  slots : b'.priceOrdersAtPrice =
    Function.update b.priceOrdersAtPrice l.price.toNat (some p)
  lt : p < b.ordersAtPricePool.size
  was_free : b.ordersAtPricePool.isFree p = true
  size : b'.ordersAtPricePool.size = b.ordersAtPricePool.size
  isFree : ∀ a, b'.ordersAtPricePool.isFree a =
    if a = p then false else b.ordersAtPricePool.isFree a
  price : ∀ a, (b'.level a).price = if a = p then l.price else (b.level a).price
  side : ∀ a, (b'.level a).side = if a = p then l.side else (b.level a).side
  firstOrder : ∀ a, (b'.level a).firstOrder =
    if a = p then l.firstOrder else (b.level a).firstOrder
  ready : b'.ordersAtPricePool.Ready

/-- The book after the allocation in `placeLevel`, before `addOrderAtPrice`. -/
def withLevels (b : MEOrderBook) (pool : MemPool MEOrdersAtPrice) : MEOrderBook :=
  { b with ordersAtPricePool := pool }

theorem placeLevel_eq_ok {b b' : MEOrderBook} {l : MEOrdersAtPrice}
    (h : b.placeLevel l = .ok b') :
    ∃ pool p, MemPool.Allocated b.ordersAtPricePool pool l p ∧
      (b.withLevels pool).addOrderAtPrice p = .ok b' := by
  obtain ⟨⟨pool, p⟩, halloc, h⟩ := bind_eq_ok.mp h
  exact ⟨pool, p, MemPool.allocate_ok halloc, h⟩

theorem level_withLevels {b : MEOrderBook} {pool : MemPool MEOrdersAtPrice}
    {l : MEOrdersAtPrice} {p : Addr} (h : MemPool.Allocated b.ordersAtPricePool pool l p)
    (a : Addr) : (b.withLevels pool).level a = if a = p then l else b.level a :=
  h.object a

theorem level_withLevels_new {b : MEOrderBook} {pool : MemPool MEOrdersAtPrice}
    {l : MEOrdersAtPrice} {p : Addr} (h : MemPool.Allocated b.ordersAtPricePool pool l p) :
    (b.withLevels pool).level p = l := by
  rw [level_withLevels h, if_pos rfl]

theorem levelFrame_of_alloc {b b' : MEOrderBook} {pool : MemPool MEOrdersAtPrice}
    {l : MEOrdersAtPrice} {p : Addr} (halloc : MemPool.Allocated b.ordersAtPricePool pool l p)
    (hf : LinkFrame ((b.withLevels pool).setSlot p) b')
    (hlt : l.price.toNat < meMaxPriceLevels) : LevelFrame b b' l p where
  price_lt := hlt
  slots := by
    rw [hf.priceOrdersAtPrice]
    simp only [setSlot, level_withLevels halloc, if_true]
    rfl
  lt := halloc.lt
  was_free := halloc.was_free
  size := hf.size.trans halloc.size
  isFree a := (hf.isFree a).trans (halloc.isFree a)
  price a := by
    rw [hf.price]
    show ((b.withLevels pool).level a).price = _
    rw [level_withLevels halloc]
    split <;> rfl
  side a := by
    rw [hf.side]
    show ((b.withLevels pool).level a).side = _
    rw [level_withLevels halloc]
    split <;> rfl
  firstOrder a := by
    rw [hf.firstOrder]
    show ((b.withLevels pool).level a).firstOrder = _
    rw [level_withLevels halloc]
    split <;> rfl
  ready := by
    refine ⟨?_, ?_⟩
    · rw [hf.nextFreeIdx, hf.size]
      exact halloc.ready.lt
    · rw [hf.nextFreeIdx, hf.isFree]
      exact halloc.ready.free

theorem placeLevel_frame {b b' : MEOrderBook} {l : MEOrdersAtPrice}
    (h : b.placeLevel l = .ok b') : ∃ p, LevelFrame b b' l p := by
  obtain ⟨pool, p, halloc, h⟩ := placeLevel_eq_ok h
  obtain ⟨hlt, hf⟩ := addOrderAtPrice_frame h
  rw [level_withLevels_new halloc] at hlt
  exact ⟨p, levelFrame_of_alloc halloc hf hlt⟩

theorem placeLevel_sameOrders {b b' : MEOrderBook} {l : MEOrdersAtPrice}
    (h : b.placeLevel l = .ok b') : SameOrders b b' := by
  obtain ⟨pool, p, -, h⟩ := placeLevel_eq_ok h
  have hf := (addOrderAtPrice_frame h).2
  exact ⟨hf.tickerId, hf.cidOidToOrder, hf.orderPool, hf.nextOrderId⟩

/-- `b'` has the levels, the heads and the price table of `b`. -/
structure SameLevels (b b' : MEOrderBook) : Prop where
  ordersAtPricePool : b'.ordersAtPricePool = b.ordersAtPricePool
  bidsByPrice : b'.bidsByPrice = b.bidsByPrice
  asksByPrice : b'.asksByPrice = b.asksByPrice
  priceOrdersAtPrice : b'.priceOrdersAtPrice = b.priceOrdersAtPrice

theorem SameLevels.level {b b' : MEOrderBook} (h : SameLevels b b') (a : Addr) :
    b'.level a = b.level a := by
  rw [MEOrderBook.level, h.ordersAtPricePool, MEOrderBook.level]

theorem SameLevels.trans {b₁ b₂ b₃ : MEOrderBook} (h : SameLevels b₁ b₂)
    (h' : SameLevels b₂ b₃) : SameLevels b₁ b₃ where
  ordersAtPricePool := h'.ordersAtPricePool.trans h.ordersAtPricePool
  bidsByPrice := h'.bidsByPrice.trans h.bidsByPrice
  asksByPrice := h'.asksByPrice.trans h.asksByPrice
  priceOrdersAtPrice := h'.priceOrdersAtPrice.trans h.priceOrdersAtPrice

/-- What placing a level changes can be said of any two books with the same
levels. -/
theorem LevelFrame.congr {b₀ b₁ b₂ b₃ : MEOrderBook} {l : MEOrdersAtPrice} {p : Addr}
    (h : LevelFrame b₁ b₂ l p) (h₀ : SameLevels b₀ b₁) (h₃ : SameLevels b₂ b₃) :
    LevelFrame b₀ b₃ l p where
  price_lt := h.price_lt
  slots := by rw [h₃.priceOrdersAtPrice, h.slots, h₀.priceOrdersAtPrice]
  lt := h₀.ordersAtPricePool ▸ h.lt
  was_free := h₀.ordersAtPricePool ▸ h.was_free
  size := by rw [h₃.ordersAtPricePool, h.size, h₀.ordersAtPricePool]
  isFree a := by rw [h₃.ordersAtPricePool, h.isFree, h₀.ordersAtPricePool]
  price a := by rw [h₃.level, h.price, h₀.level]
  side a := by rw [h₃.level, h.side, h₀.level]
  firstOrder a := by rw [h₃.level, h.firstOrder, h₀.level]
  ready := h₃.ordersAtPricePool ▸ h.ready

/-! ### The invariant -/

/-- The price table leads to live levels of the right price. -/
structure SlotsRep (b : MEOrderBook) : Prop where
  price : ∀ i < meMaxPriceLevels, ∀ a, b.priceOrdersAtPrice i = some a →
    (b.level a).price.toNat = i
  live : ∀ i < meMaxPriceLevels, ∀ a, b.priceOrdersAtPrice i = some a →
    b.ordersAtPricePool.isFree a = false
  lt : ∀ i < meMaxPriceLevels, ∀ a, b.priceOrdersAtPrice i = some a →
    a < b.ordersAtPricePool.size

/-- The level `a` is in the price table. -/
def InTable (b : MEOrderBook) (a : Addr) : Prop :=
  ∃ i < meMaxPriceLevels, b.priceOrdersAtPrice i = some a

theorem levelRing_congr {b b' : MEOrderBook} {l : List Addr}
    (h : LinkedRing b.nextEntry b.prevEntry l) (hsame : ∀ a ∈ l, b'.level a = b.level a) :
    LinkedRing b'.nextEntry b'.prevEntry l :=
  h.congr (fun a ha => congrArg MEOrdersAtPrice.nextEntry (hsame a ha))
    (fun a ha => congrArg MEOrdersAtPrice.prevEntry (hsame a ha))

structure LevelsRep (b : MEOrderBook) (asks : List Addr) : Prop extends SlotsRep b where
  bids : b.bidsByPrice = none
  asksHead : b.asksByPrice = asks.head?
  ring : LinkedRing b.nextEntry b.prevEntry asks
  mem_asks : ∀ a, a ∈ asks ↔ b.InTable a ∧ (b.level a).side ≠ .buy

theorem SameLevels.slotsRep {b b' : MEOrderBook} (h : SameLevels b b') (hrep : SlotsRep b) :
    SlotsRep b' := by
  refine ⟨?_, ?_, ?_⟩
  all_goals
    intro i hi a ha
    rw [h.priceOrdersAtPrice] at ha
  · rw [h.level]
    exact hrep.price i hi a ha
  · rw [h.ordersAtPricePool]
    exact hrep.live i hi a ha
  · rw [h.ordersAtPricePool]
    exact hrep.lt i hi a ha

theorem SameLevels.inTable_iff {b b' : MEOrderBook} (h : SameLevels b b') (a : Addr) :
    b'.InTable a ↔ b.InTable a := by
  rw [InTable, InTable, h.priceOrdersAtPrice]

theorem SameLevels.levelsRep {b b' : MEOrderBook} {asks : List Addr} (h : SameLevels b b')
    (hrep : LevelsRep b asks) : LevelsRep b' asks where
  toSlotsRep := h.slotsRep hrep.toSlotsRep
  bids := h.bidsByPrice.trans hrep.bids
  asksHead := h.asksByPrice.trans hrep.asksHead
  ring := levelRing_congr hrep.ring fun a _ => h.level a
  mem_asks a := by rw [hrep.mem_asks, h.inTable_iff, h.level]

theorem Empty.slotsRep {b : MEOrderBook} (h : b.Empty) : SlotsRep b := by
  refine ⟨?_, ?_, ?_⟩ <;>
    · intro i hi a ha
      rw [h.priceOrdersAtPrice i hi] at ha
      contradiction

theorem Empty.levelsRep {b : MEOrderBook} (h : b.Empty) : LevelsRep b [] where
  toSlotsRep := h.slotsRep
  bids := h.bidsByPrice
  asksHead := h.asksByPrice
  ring := .nil
  mem_asks a := by
    refine ⟨fun ha => by simp at ha, ?_⟩
    rintro ⟨⟨i, hi, ha⟩, -⟩
    rw [h.priceOrdersAtPrice i hi] at ha
    contradiction

theorem SlotsRep.ne_of_free {b : MEOrderBook} (h : SlotsRep b) {p : Addr}
    (hfree : b.ordersAtPricePool.isFree p = true) {a : Addr} (ha : b.InTable a) : a ≠ p := by
  obtain ⟨i, hi, ha⟩ := ha
  rintro rfl
  have hlive := h.live i hi a ha
  rw [hfree] at hlive
  contradiction

theorem SlotsRep.fresh {b b' : MEOrderBook} {l : MEOrdersAtPrice} {p : Addr}
    (h : SlotsRep b) (hf : LevelFrame b b' l p) {a : Addr} (ha : b.InTable a) : a ≠ p :=
  h.ne_of_free hf.was_free ha

theorem SlotsRep.place {b b' : MEOrderBook} {l : MEOrdersAtPrice} {p : Addr}
    (h : SlotsRep b) (hf : LevelFrame b b' l p) : SlotsRep b' := by
  have key : ∀ i < meMaxPriceLevels, ∀ a, b'.priceOrdersAtPrice i = some a →
      (i = l.price.toNat ∧ a = p) ∨ (b.priceOrdersAtPrice i = some a ∧ a ≠ p) := by
    intro i hi a ha
    rw [hf.slots] at ha
    by_cases hil : i = l.price.toNat
    · subst hil
      rw [Function.update_self, Option.some.injEq] at ha
      exact .inl ⟨rfl, ha.symm⟩
    · rw [Function.update_of_ne hil] at ha
      exact .inr ⟨ha, h.fresh hf ⟨i, hi, ha⟩⟩
  refine ⟨?_, ?_, ?_⟩
  all_goals
    intro i hi a ha
    rcases key i hi a ha with ⟨rfl, rfl⟩ | ⟨ha, hne⟩
  · rw [hf.price, if_pos rfl]
  · rw [hf.price, if_neg hne]
    exact h.price i hi a ha
  · rw [hf.isFree, if_pos rfl]
  · rw [hf.isFree, if_neg hne]
    exact h.live i hi a ha
  · rw [hf.size]
    exact hf.lt
  · rw [hf.size]
    exact h.lt i hi a ha

theorem LevelFrame.inTable_iff {b b' : MEOrderBook} {l : MEOrdersAtPrice} {p : Addr}
    (hf : LevelFrame b b' l p) (hslot : b.priceOrdersAtPrice l.price.toNat = none)
    (a : Addr) : b'.InTable a ↔ a = p ∨ b.InTable a := by
  constructor
  · rintro ⟨i, hi, ha⟩
    rw [hf.slots] at ha
    by_cases hil : i = l.price.toNat
    · subst hil
      rw [Function.update_self, Option.some.injEq] at ha
      exact .inl ha.symm
    · rw [Function.update_of_ne hil] at ha
      exact .inr ⟨i, hi, ha⟩
  · rintro (rfl | ⟨i, hi, ha⟩)
    · exact ⟨_, hf.price_lt, by rw [hf.slots, Function.update_self]⟩
    · refine ⟨i, hi, ?_⟩
      have hil : i ≠ l.price.toNat := by
        rintro rfl
        rw [hslot] at ha
        contradiction
      rw [hf.slots, Function.update_of_ne hil, ha]

theorem length_le_of_nodup {l : List ℕ} {n : ℕ} (hnd : l.Nodup) (hlt : ∀ a ∈ l, a < n) :
    l.length ≤ n := by
  have hsub : l ⊆ List.range n := fun a ha => List.mem_range.mpr (hlt a ha)
  simpa using (hnd.subperm hsub).length_le

theorem LevelsRep.length_le {b : MEOrderBook} {asks : List Addr} (h : LevelsRep b asks) :
    asks.length ≤ b.ordersAtPricePool.size := by
  refine length_le_of_nodup h.ring.nodup fun a ha => ?_
  obtain ⟨⟨i, hi, hslot⟩, -⟩ := (h.mem_asks a).mp ha
  exact h.lt i hi a hslot

/-- The ring headed by `asks_by_price_` once the level at `p` is in the book. -/
def asksWith (b : MEOrderBook) (p : Addr) (asks : List Addr) : List Addr :=
  if (b.level p).side = .buy then asks else placeAmong (b.after p) p asks

theorem mem_asksWith {b : MEOrderBook} {p a : Addr} {asks : List Addr} :
    a ∈ b.asksWith p asks ↔ (a = p ∧ (b.level p).side ≠ .buy) ∨ a ∈ asks := by
  unfold asksWith
  split
  · simp_all
  · rw [mem_placeAmong]
    simp_all

theorem LevelsRep.mem_asksWith {b b' : MEOrderBook} {asks : List Addr}
    (h : LevelsRep b asks) {l : MEOrdersAtPrice} {p : Addr} (hf : LevelFrame b b' l p)
    (hslot : b.priceOrdersAtPrice l.price.toNat = none) (a : Addr) :
    a ∈ b'.asksWith p asks ↔ b'.InTable a ∧ (b'.level a).side ≠ .buy := by
  rw [MEOrderBook.mem_asksWith, hf.inTable_iff hslot, h.mem_asks, hf.side, hf.side,
    if_pos rfl]
  by_cases hap : a = p
  · subst hap
    have hnot : ¬ b.InTable a := fun ha => h.fresh hf ha rfl
    simp [hnot]
  · simp [hap]

theorem LevelsRep.withLevels {b : MEOrderBook} {asks : List Addr} (h : LevelsRep b asks)
    {l : MEOrdersAtPrice} {pool : MemPool MEOrdersAtPrice} {p : Addr}
    (halloc : MemPool.Allocated b.ordersAtPricePool pool l p) :
    LevelsRep (b.withLevels pool) asks := by
  have hne : ∀ a, b.InTable a → a ≠ p := fun a => h.ne_of_free halloc.was_free
  have hold : ∀ a, b.InTable a → (b.withLevels pool).level a = b.level a := fun a ha => by
    rw [level_withLevels halloc, if_neg (hne a ha)]
  refine ⟨⟨?_, ?_, ?_⟩, h.bids, h.asksHead, ?_, ?_⟩
  · intro i hi a ha
    rw [hold a ⟨i, hi, ha⟩]
    exact h.price i hi a ha
  · intro i hi a ha
    show pool.isFree a = false
    rw [halloc.isFree, if_neg (hne a ⟨i, hi, ha⟩)]
    exact h.live i hi a ha
  · intro i hi a ha
    show a < pool.size
    rw [halloc.size]
    exact h.lt i hi a ha
  · exact levelRing_congr h.ring fun a ha => hold a ((h.mem_asks a).mp ha).1
  · intro a
    rw [h.mem_asks]
    exact and_congr_right fun ha => by rw [hold a ha]

/-- A new level of the buy side. No level of this side is reachable, so the side is
opened once more, and the other ring stays. -/
theorem LevelsRep.add_bid {b : MEOrderBook} {asks : List Addr} (h : LevelsRep b asks)
    {l : MEOrdersAtPrice} {pool : MemPool MEOrdersAtPrice} {p : Addr}
    (halloc : MemPool.Allocated b.ordersAtPricePool pool l p)
    (hprice : l.price.toNat < meMaxPriceLevels)
    (hslot : b.priceOrdersAtPrice l.price.toNat = none) (hbuy : l.side = .buy) :
    ∃ b', (b.withLevels pool).addOrderAtPrice p = .ok b' ∧ LevelFrame b b' l p ∧
      LevelsRep b' (b'.asksWith p asks) := by
  have hnew := level_withLevels_new halloc
  have hhead : (b.withLevels pool).sideHead ((b.withLevels pool).level p).side =
      ([] : List Addr).head? := by
    rw [hnew, sideHead, if_pos hbuy]
    exact h.bids
  obtain ⟨b', hrun, hadd⟩ :=
    addOrderAtPrice_ring (hnew.symm ▸ hprice) .nil hhead (by simp) (by simp)
  have hf := levelFrame_of_alloc halloc hadd.frame hprice
  have hbuy' : (b'.level p).side = .buy := by rw [hf.side, if_pos rfl, hbuy]
  have hsame : ∀ a ∈ asks, b'.level a = (b.withLevels pool).level a := fun a ha =>
    hadd.level a (h.ne_of_free halloc.was_free ((h.mem_asks a).mp ha).1) (by simp)
  refine ⟨b', hrun, hf, h.toSlotsRep.place hf, hadd.bids.trans h.bids, ?_, ?_,
    h.mem_asksWith hf hslot⟩
  · rw [hadd.asks, hnew, if_pos hbuy, asksWith, if_pos hbuy']
    exact h.asksHead
  · rw [asksWith, if_pos hbuy']
    exact levelRing_congr (h.withLevels halloc).ring hsame

theorem LevelsRep.add_ask {b : MEOrderBook} {asks : List Addr} (h : LevelsRep b asks)
    {l : MEOrdersAtPrice} {pool : MemPool MEOrdersAtPrice} {p : Addr}
    (halloc : MemPool.Allocated b.ordersAtPricePool pool l p)
    (hprice : l.price.toNat < meMaxPriceLevels)
    (hslot : b.priceOrdersAtPrice l.price.toNat = none) (hsell : l.side ≠ .buy) :
    ∃ b', (b.withLevels pool).addOrderAtPrice p = .ok b' ∧ LevelFrame b b' l p ∧
      LevelsRep b' (b'.asksWith p asks) := by
  have hnew := level_withLevels_new halloc
  have hp : p ∉ asks := fun hp =>
    h.ne_of_free halloc.was_free ((h.mem_asks p).mp hp).1 rfl
  have h' := h.withLevels halloc
  have hhead : (b.withLevels pool).sideHead ((b.withLevels pool).level p).side =
      asks.head? := by
    rw [hnew, sideHead, if_neg hsell]
    exact h.asksHead
  obtain ⟨b', hrun, hadd⟩ :=
    addOrderAtPrice_ring (hnew.symm ▸ hprice) h'.ring hhead hp h'.length_le
  have hf := levelFrame_of_alloc halloc hadd.frame hprice
  have hsell' : (b'.level p).side ≠ .buy := by
    rw [hf.side, if_pos rfl]
    exact hsell
  have hafter : b'.after p = (b.withLevels pool).after p := by
    ext a
    exact hadd.frame.addAfter_eq p a
  refine ⟨b', hrun, hf, h.toSlotsRep.place hf, hadd.bids.trans h.bids, ?_, ?_,
    h.mem_asksWith hf hslot⟩
  · rw [hadd.asks, hnew, if_neg hsell, asksWith, if_neg hsell', head?_placeAmong]
    show some (b.asksByPrice.getD p) = _
    rw [h.asksHead]
  · rw [asksWith, if_neg hsell', hafter]
    exact hadd.ring

/-- The step lemma: with a null slot, `addOrderAtPrice` on a level just taken
from the pool returns, and the invariant holds of the longer ring. -/
theorem LevelsRep.add {b : MEOrderBook} {asks : List Addr} (h : LevelsRep b asks)
    {l : MEOrdersAtPrice} {pool : MemPool MEOrdersAtPrice} {p : Addr}
    (halloc : MemPool.Allocated b.ordersAtPricePool pool l p)
    (hprice : l.price.toNat < meMaxPriceLevels)
    (hslot : b.priceOrdersAtPrice l.price.toNat = none) :
    ∃ b', (b.withLevels pool).addOrderAtPrice p = .ok b' ∧ LevelFrame b b' l p ∧
      LevelsRep b' (b'.asksWith p asks) := by
  by_cases hbuy : l.side = .buy
  · exact h.add_bid halloc hprice hslot hbuy
  · exact h.add_ask halloc hprice hslot hbuy

theorem LevelsRep.place {b b' : MEOrderBook} {asks : List Addr} (h : LevelsRep b asks)
    {l : MEOrdersAtPrice} (hslot : b.priceOrdersAtPrice l.price.toNat = none)
    (hok : b.placeLevel l = .ok b') :
    ∃ p, LevelFrame b b' l p ∧ LevelsRep b' (b'.asksWith p asks) := by
  obtain ⟨pool, p, halloc, hadd⟩ := placeLevel_eq_ok hok
  have hlt := (addOrderAtPrice_frame hadd).1
  rw [level_withLevels_new halloc] at hlt
  obtain ⟨b'', hrun, hf, hrep⟩ := h.add halloc hlt hslot
  rw [hrun, Except.ok.injEq] at hadd
  subst hadd
  exact ⟨p, hf, hrep⟩

/-- A placement at a price of the table completes unless the pool has no block to
spare. -/
theorem LevelsRep.place_total {b : MEOrderBook} {asks : List Addr} (h : LevelsRep b asks)
    (hready : b.ordersAtPricePool.Ready) {l : MEOrdersAtPrice}
    (hprice : l.price.toNat < meMaxPriceLevels)
    (hslot : b.priceOrdersAtPrice l.price.toNat = none) :
    (∃ b', b.placeLevel l = .ok b') ∨
    (¬ b.ordersAtPricePool.Spare ∧ b.placeLevel l = .error MemPool.outOfSpace) := by
  rcases MemPool.allocate_cases hready l with ⟨pool, p, hrun, halloc⟩ | ⟨hspare, hrun⟩
  · obtain ⟨b', hadd, -, -⟩ := h.add halloc hprice hslot
    refine .inl ⟨b', ?_⟩
    rw [placeLevel, hrun, ok_bind]
    exact hadd
  · exact .inr ⟨hspare, by rw [placeLevel, hrun, error_bind]⟩

end MEOrderBook

end LowLatency.Exchange
