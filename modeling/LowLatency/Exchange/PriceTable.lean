import LowLatency.Common.PoolCapacity
import LowLatency.Exchange.Survival

/-!
Where a level is stored and where it is looked up.

`getOrdersAtPrice` looks a price up at `priceToIndex(price)`, its remainder by
the number of slots; `addOrderAtPrice` stores the level at the price itself,
with a bounds check. The two agree on the prices below the number of slots, and
past them the check throws in a function that is `noexcept`.
-/

namespace LowLatency.Exchange

open LowLatency.Lib LowLatency.Common

namespace MEOrderBook

/-! ### Books in service -/

/-- The two methods without a body hand back books in order. -/
structure KeepsOrder (m : BookMethods) : Prop where
  cancel : KeepsSound m
  checkMatch : ∀ b c k t side price qty id, Sound b →
    Sound (m.checkMatch b c k t side price qty id).book

/-- The states of a book built in memory without stale pointers, after any calls
of its methods that returned. -/
inductive InService (m : BookMethods) : MEOrderBook → Prop
  | start {mem tickerId} : mem.Null → InService m (construct mem tickerId)
  | add {b x b' sent} : InService m b → b.add m.checkMatch m.reading x = .ok (b', sent) →
      InService m b'
  | place {b x b' o} : InService m b → b.placeOrder x = .ok (b', o) → InService m b'
  | cancel {b c k t b' sent} : InService m b → m.cancel b c k t = .ok (b', sent) →
      InService m b'

theorem KeepsOrder.accept {m : BookMethods} (hm : KeepsOrder m) {b : MEOrderBook}
    (h : Sound b) (x : AddArgs) : Sound (b.acceptAndMatch m.checkMatch x).2.book :=
  hm.checkMatch _ _ _ _ _ _ _ _ (h.congr ⟨rfl, rfl, rfl, rfl⟩ rfl)

theorem InService.sound {m : BookMethods} (hm : KeepsOrder m) {b : MEOrderBook}
    (h : InService m b) : Sound b := by
  induction h with
  | start hmem => exact sound_construct hmem _
  | add _ hok ih => exact .add_of_accept (hm.accept ih _) hok
  | place _ hok ih => exact ih.place hok
  | cancel _ hok ih => exact hm.cancel _ _ _ _ _ _ ih hok

/-! ### A level for a new price -/

/-- The order `o` has brought its level, and `getOrdersAtPrice` finds it. -/
structure StoredWhereRead (b b' : MEOrderBook) (price : Price) (o : Addr) : Prop where
  found : ∃ l, b'.getOrdersAtPrice price = .ok (some l) ∧
    b.ordersAtPricePool.isFree l = true ∧ b'.ordersAtPricePool.isFree l = false ∧
    (b'.level l).price = price ∧ (b'.level l).firstOrder = some o
  ring : LinkedRing b'.nextOrder b'.prevOrder [o]
  slots : ∀ i, i ≠ priceToIndex price → b'.priceOrdersAtPrice i = b.priceOrdersAtPrice i

theorem LevelFrame.storedWhereRead {b b' : MEOrderBook} {x : MEOrder} {o p : Addr}
    (hf : LevelFrame b b' (levelFor x o) p) (hring : LinkedRing b'.nextOrder b'.prevOrder [o]) :
    StoredWhereRead b b' x.price o := by
  have hslots := hf.slots_eq
  refine ⟨⟨p, ?_, hf.was_free, ?_, ?_, ?_⟩, hring, ?_⟩
  · refine arrayAt_eq_ok.mpr ⟨priceToIndex_lt x.price, ?_⟩
    rw [hslots, Function.update_self]
  · rw [hf.isFree, if_pos rfl]
  · rw [hf.price, if_pos rfl, levelFor]
  · rw [hf.firstOrder, if_pos rfl, levelFor]
  · intro i hi
    rw [hslots, Function.update_of_ne hi]

theorem placeOrder_new {b b' : MEOrderBook} (h : Sound b) {x : MEOrder} {o : Addr}
    (hnull : b.priceOrdersAtPrice (priceToIndex x.price) = none)
    (hok : b.placeOrder x = .ok (b', o)) : StoredWhereRead b b' x.price o := by
  obtain ⟨fifo, hrep⟩ := h.queues
  have hring := (hrep.place hok).ring _ (priceToIndex_lt x.price)
  rw [pushOrder, Function.update_self, hrep.null _ (priceToIndex_lt x.price) hnull] at hring
  rcases (placeOrder_frame hok).levels with ⟨l, hl, -⟩ | ⟨-, p, hf⟩
  · rw [hnull] at hl
    contradiction
  · exact hf.storedWhereRead hring

theorem price_lt_of_addOrder {b b' : MEOrderBook} {o : Addr} (h : b.addOrder o = .ok b')
    (hnull : b.getOrdersAtPrice (b.order o).price = .ok none) :
    (b.order o).price.toNat < meMaxPriceLevels := by
  obtain ⟨b₁, -, hlevels, -⟩ := addOrder_frame h
  rcases hlevels with ⟨l, hl, -⟩ | ⟨-, p, hf⟩
  · rw [(arrayAt_eq_ok.mp hnull).2] at hl
    contradiction
  · exact hf.price_lt

/-- At least two blocks of the pool are free. -/
def TwoFree {T : Type} (pool : MemPool T) : Prop :=
  ∃ a c, a ≠ c ∧ (a < pool.size ∧ pool.isFree a = true) ∧ c < pool.size ∧ pool.isFree c = true

theorem TwoFree.spare {T : Type} {pool : MemPool T} (h : TwoFree pool) : pool.Spare := by
  obtain ⟨a, c, hne, ⟨ha, hafree⟩, hc, hcfree⟩ := h
  by_cases hnext : a = pool.nextFreeIdx
  · exact ⟨c, hc, fun e => hne (hnext.trans e.symm), hcfree⟩
  · exact ⟨a, ha, hnext, hafree⟩

/-- **A level is stored where it is looked up exactly for the prices below the
number of slots.** For any other one `addOrder` does not complete. -/
theorem storesWhereItReads_iff {m : BookMethods} (hm : KeepsOrder m) {b : MEOrderBook}
    (hb : InService m b) {x : MEOrder} {pool : MemPool MEOrder} {o : Addr}
    (halloc : b.orderPool.allocate x = .ok (pool, o))
    (hcid : x.clientId.toNat < meMaxNumClients) (hoid : x.clientOrderId.toNat < meMaxOrderIds)
    (hnull : b.getOrdersAtPrice x.price = .ok none) (hfree : TwoFree b.ordersAtPricePool) :
    (∃ b', (b.withOrders pool).addOrder o = .ok b' ∧ StoredWhereRead b b' x.price o) ↔
      x.price.toNat < meMaxPriceLevels := by
  have hsound := hb.sound hm
  have hx := order_withOrders_new (MemPool.allocate_ok halloc)
  constructor
  · rintro ⟨b', hadd, -⟩
    exact hx ▸ price_lt_of_addOrder hadd (hx.symm ▸ hnull)
  · intro hprice
    have hspare := (MemPool.allocate_returns_iff hsound.orders x).mp ⟨_, halloc⟩
    obtain ⟨b', o', hplace⟩ := hsound.placeOrder hspare hfree.spare hprice hcid hoid
    have hnew := placeOrder_new hsound (arrayAt_eq_ok.mp hnull).2 hplace
    rw [placeOrder_of_allocate halloc] at hplace
    obtain ⟨b₁, hadd, hret⟩ := bind_eq_ok.mp hplace
    rw [Except.ok.injEq, Prod.mk.injEq] at hret
    obtain ⟨rfl, rfl⟩ := hret
    exact ⟨b₁, hadd, hnew⟩

theorem keepsOrder_restingBooks : KeepsOrder restingBooks :=
  ⟨keepsSound_restingBooks, fun _ _ _ _ _ _ _ _ hb => hb⟩

theorem twoFree_construct (mem : Storage) (tickerId : TickerId) :
    TwoFree (construct mem tickerId).ordersAtPricePool :=
  ⟨0, 1, by decide, ⟨Nat.zero_lt_succ _, rfl⟩, Nat.succ_lt_succ (Nat.zero_lt_succ _), rfl⟩

theorem storesWhereItReads_iff_last :
    ∃ pool o, (construct .zero 0).orderPool.allocate ⟨0, 1, 1, 1, .buy, 255, 10, 1, none, none⟩ =
        .ok (pool, o) ∧
      ∃ b', ((construct .zero 0).withOrders pool).addOrder o = .ok b' ∧
        StoredWhereRead (construct .zero 0) b' 255 o := by
  obtain ⟨⟨pool, o⟩, halloc, -⟩ := exists_of_succeedsWith
    (x := (construct .zero 0).orderPool.allocate ⟨0, 1, 1, 1, .buy, 255, 10, 1, none, none⟩)
    (p := fun _ => true) (by decide +kernel)
  exact ⟨pool, o, halloc, (storesWhereItReads_iff keepsOrder_restingBooks
    (.start Storage.null_zero) halloc (by decide) (by decide)
    (arrayAt_eq_ok.mpr ⟨by decide, rfl⟩) (twoFree_construct _ _)).mpr (by decide)⟩

/-- The first price past the table has slot 0 to look at and no slot to be stored in. -/
theorem level_past_table :
    ∃ pool o, (construct .zero 0).orderPool.allocate ⟨0, 1, 1, 1, .buy, 256, 10, 1, none, none⟩ =
        .ok (pool, o) ∧
      KeepsOrder restingBooks ∧ InService restingBooks (construct .zero 0) ∧
      (construct .zero 0).getOrdersAtPrice 256 = .ok none ∧
      TwoFree (construct .zero 0).ordersAtPricePool ∧
      ∀ b', ((construct .zero 0).withOrders pool).addOrder o ≠ .ok b' := by
  obtain ⟨⟨pool, o⟩, halloc, -⟩ := exists_of_succeedsWith
    (x := (construct .zero 0).orderPool.allocate ⟨0, 1, 1, 1, .buy, 256, 10, 1, none, none⟩)
    (p := fun _ => true) (by decide +kernel)
  have hx := order_withOrders_new (MemPool.allocate_ok halloc)
  have hnull : (construct .zero 0).getOrdersAtPrice 256 = .ok none :=
    arrayAt_eq_ok.mpr ⟨by decide, rfl⟩
  refine ⟨pool, o, halloc, keepsOrder_restingBooks, .start Storage.null_zero, hnull,
    twoFree_construct _ _, fun b' hadd => ?_⟩
  have hlt := price_lt_of_addOrder hadd (hx.symm ▸ hnull)
  rw [hx] at hlt
  exact absurd hlt (by decide)

end MEOrderBook

end LowLatency.Exchange
