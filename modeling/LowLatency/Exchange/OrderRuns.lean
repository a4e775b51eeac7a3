import LowLatency.Exchange.Orders

/-!
Runs of `addOrder` on fresh orders.

The log of a run pairs each order with the address it got. `RunRep` reads the
whole book off this log: the queues are the logged orders of each slot, every
level has the price and the side of some logged order, and the client index
holds the last order logged under each key.
-/

namespace LowLatency.Exchange

open LowLatency.Lib LowLatency.Common

/-- The key under which a client knows its order. -/
def MEOrder.key (x : MEOrder) : ClientId × OrderId := (x.clientId, x.clientOrderId)

namespace MEOrderBook

/-- A run of orders taken from the pool and added, with the address of each. -/
def placeOrders (b : MEOrderBook) (os : List MEOrder) :
    Exec (MEOrderBook × List (MEOrder × Addr)) :=
  runLog (fun b x => do
    let (b, o) ← b.placeOrder x
    .ok (b, [(x, o)])) b os

/-- The invariant rule for these runs: what each placed order keeps holds at the
end. -/
theorem placeOrders_invariant {b₀ b : MEOrderBook} {os : List MEOrder}
    {log : List (MEOrder × Addr)}
    (I : List MEOrder → MEOrderBook → List (MEOrder × Addr) → Prop) (h0 : I [] b₀ [])
    (hstep : ∀ pre x b₁ log b₂ o, I pre b₁ log → b₁.placeOrder x = .ok (b₂, o) →
      I (pre ++ [x]) b₂ (log ++ [(x, o)]))
    (hrun : b₀.placeOrders os = .ok (b, log)) : I os b log := by
  refine runLog_invariant I h0 ?_ hrun
  intro pre x b₁ log b₂ out _ hI hok
  obtain ⟨⟨b₂', o⟩, hplace, hout⟩ := bind_eq_ok.mp hok
  rw [Except.ok.injEq, Prod.mk.injEq] at hout
  obtain ⟨rfl, rfl⟩ := hout
  exact hstep pre x b₁ log b₂' o hI hplace

/-- `a` is met on the way along `next_order_` from the first order of `l`. -/
def InRing (b : MEOrderBook) (l a : Addr) : Prop :=
  ∃ f, (b.level l).firstOrder = some f ∧
    Relation.ReflTransGen (fun c d => b.nextOrder c = some d) f a

def Resting (b : MEOrderBook) (a : Addr) : Prop := ∃ l, b.InTable l ∧ b.InRing l a

theorem OrdersRep.inRing_iff {b : MEOrderBook} {fifo : ℕ → List Addr} (h : OrdersRep b fifo)
    {i : ℕ} (hi : i < meMaxPriceLevels) {l : Addr} (hl : b.priceOrdersAtPrice i = some l)
    (a : Addr) : b.InRing l a ↔ a ∈ fifo i := by
  obtain ⟨f, t, hfifo, hfirst⟩ := h.first i hi l hl
  have hring := (h.ring i hi).nextRing
  rw [hfifo] at hring ⊢
  rw [← hring.reach_iff a, InRing]
  constructor
  · rintro ⟨f', hf', hreach⟩
    rw [hfirst, Option.some.injEq] at hf'
    exact hf' ▸ hreach
  · exact fun hreach => ⟨f, hfirst, hreach⟩

theorem OrdersRep.resting_iff {b : MEOrderBook} {fifo : ℕ → List Addr} (h : OrdersRep b fifo)
    (a : Addr) : b.Resting a ↔ ∃ i < meMaxPriceLevels, a ∈ fifo i := by
  constructor
  · rintro ⟨l, ⟨i, hi, hl⟩, hring⟩
    exact ⟨i, hi, (h.inRing_iff hi hl a).mp hring⟩
  · rintro ⟨i, hi, ha⟩
    cases hl : b.priceOrdersAtPrice i with
    | none =>
        rw [h.null i hi hl] at ha
        simp at ha
    | some l => exact ⟨l, ⟨i, hi, hl⟩, (h.inRing_iff hi hl a).mpr ha⟩

/-! ### The log of a run -/

def logged (log : List (MEOrder × Addr)) (i : ℕ) : List Addr :=
  (log.filter fun x => priceToIndex x.1.price = i).map (·.2)

theorem logged_snoc (log : List (MEOrder × Addr)) (x : MEOrder) (o : Addr) :
    logged (log ++ [(x, o)]) = pushOrder (logged log) x o := by
  ext i
  by_cases hi : i = priceToIndex x.price
  · subst hi
    simp [logged, pushOrder]
  · have hi' : ¬ priceToIndex x.price = i := fun e => hi e.symm
    simp [logged, pushOrder, hi, hi']

theorem mem_logged {log : List (MEOrder × Addr)} {i : ℕ} {a : Addr} :
    a ∈ logged log i ↔ ∃ x, (x, a) ∈ log ∧ priceToIndex x.price = i := by
  simp [logged]

def lastLogged (log : List (MEOrder × Addr)) (key : ClientId × OrderId) : Ptr :=
  (log.filter fun x => x.1.key = key).getLast?.map (·.2)

/-- `cid_oid_to_order_[clientId][clientOrderId]`. -/
def find (b : MEOrderBook) (key : ClientId × OrderId) : Ptr :=
  b.cidOidToOrder key.1.toNat key.2.toNat

/-- What the log of a run says about the book. -/
structure RunRep (b : MEOrderBook) (os : List MEOrder) (log : List (MEOrder × Addr)) :
    Prop extends OrdersRep b (logged log) where
  orders : log.map (·.1) = os
  nodup : (log.map (·.2)).Nodup
  taken : ∀ x ∈ log, b.orderPool.isFree x.2 = false
  unlinked : ∀ x ∈ log, (b.order x.2).unlinked = x.1.unlinked
  opened : ∀ l, b.InTable l →
    ∃ x ∈ os, x.price = (b.level l).price ∧ x.side = (b.level l).side
  asks : ∃ asks, LevelsRep b asks

theorem RunRep.start {b : MEOrderBook} (h : b.Empty) : RunRep b [] [] where
  toOrdersRep := h.ordersRep
  orders := rfl
  nodup := List.nodup_nil
  taken _ hx := by simp at hx
  unlinked _ hx := by simp at hx
  opened l hl := by
    obtain ⟨i, hi, hl⟩ := hl
    rw [h.priceOrdersAtPrice i hi] at hl
    contradiction
  asks := ⟨[], h.levelsRep⟩

/-- A level of the table was there before with the same price and side, or it has
those of the new order. -/
theorem LevelsChange.level_cases {b b' : MEOrderBook} {x : MEOrder} {o l : Addr}
    (h : LevelsChange b b' x o) (hslots : SlotsRep b) (hl : b'.InTable l) :
    (b.InTable l ∧ (b'.level l).price = (b.level l).price ∧
      (b'.level l).side = (b.level l).side) ∨
    ((b'.level l).price = x.price ∧ (b'.level l).side = x.side) := by
  rcases h with ⟨-, -, hsame⟩ | ⟨hnull, p, hf⟩
  · rw [hsame.level]
    exact .inl ⟨(hsame.inTable_iff l).mp hl, rfl, rfl⟩
  · have hslot : b.priceOrdersAtPrice (levelFor x o).price.toNat = none := by
      rw [← priceToIndex_of_lt hf.price_lt]
      exact hnull
    rw [hf.price, hf.side]
    rcases (hf.inTable_iff hslot l).mp hl with rfl | hold
    · exact .inr ⟨by rw [if_pos rfl, levelFor], by rw [if_pos rfl, levelFor]⟩
    · have hlp := hslots.fresh hf hold
      exact .inl ⟨hold, if_neg hlp, if_neg hlp⟩

theorem RunRep.step {b b' : MEOrderBook} {os : List MEOrder} {log : List (MEOrder × Addr)}
    (h : RunRep b os log) {x : MEOrder} {o : Addr} (hok : b.placeOrder x = .ok (b', o)) :
    RunRep b' (os ++ [x]) (log ++ [(x, o)]) := by
  have hp := placeOrder_frame hok
  have hfresh : ∀ y ∈ log, y.2 ≠ o := by
    intro y hy e
    have htaken := h.taken y hy
    rw [e, hp.was_free] at htaken
    contradiction
  refine ⟨?_, by simp [h.orders], ?_, ?_, ?_, ?_, ?_⟩
  · rw [logged_snoc]
    exact h.toOrdersRep.place hok
  · rw [List.map_append, List.nodup_append]
    refine ⟨h.nodup, List.nodup_singleton _, ?_⟩
    intro a ha c hc
    obtain ⟨y, hy, rfl⟩ := List.mem_map.mp ha
    rw [List.mem_singleton.mp hc]
    exact hfresh y hy
  · intro y hy
    rw [hp.isFree]
    rcases List.mem_append.mp hy with hy | hy
    · rw [if_neg (hfresh y hy), h.taken y hy]
    · rw [List.mem_singleton.mp hy, if_pos rfl]
  · intro y hy
    rw [hp.unlinked]
    rcases List.mem_append.mp hy with hy | hy
    · rw [if_neg (hfresh y hy), h.unlinked y hy]
    · rw [List.mem_singleton.mp hy, if_pos rfl]
  · intro l hl
    rcases hp.levels.level_cases h.toSlotsRep hl with ⟨hold, hprice, hside⟩ | ⟨hprice, hside⟩
    · obtain ⟨y, hy, hyprice, hyside⟩ := h.opened l hold
      exact ⟨y, by simp [hy], hyprice.trans hprice.symm, hyside.trans hside.symm⟩
    · exact ⟨x, by simp, hprice.symm, hside.symm⟩
  · obtain ⟨asks, hasks⟩ := h.asks
    exact hasks.placeOrder hok

theorem runRep_of_run {b₀ b : MEOrderBook} {os : List MEOrder} {log : List (MEOrder × Addr)}
    (h0 : b₀.Empty) (hrun : b₀.placeOrders os = .ok (b, log)) : RunRep b os log := by
  refine placeOrders_invariant (fun pre b log => RunRep b pre log) (.start h0) ?_ hrun
  intro pre x b₁ log b₂ o hrep hplace
  exact hrep.step hplace

theorem RunRep.resting_iff {b : MEOrderBook} {os : List MEOrder} {log : List (MEOrder × Addr)}
    (h : RunRep b os log) (a : Addr) : b.Resting a ↔ ∃ x, (x, a) ∈ log := by
  rw [h.toOrdersRep.resting_iff]
  constructor
  · rintro ⟨i, -, ha⟩
    obtain ⟨x, hx, -⟩ := mem_logged.mp ha
    exact ⟨x, hx⟩
  · rintro ⟨x, hx⟩
    exact ⟨_, priceToIndex_lt x.price, mem_logged.mpr ⟨x, hx, rfl⟩⟩

theorem RunRep.field_eq {b : MEOrderBook} {os : List MEOrder} {log : List (MEOrder × Addr)}
    (h : RunRep b os log) {x : MEOrder} {a : Addr} (hx : (x, a) ∈ log) :
    (b.order a).price = x.price ∧ (b.order a).side = x.side ∧ (b.order a).key = x.key := by
  have hun := h.unlinked (x, a) hx
  exact ⟨(congrArg MEOrder.price hun :), (congrArg MEOrder.side hun :),
    (congrArg MEOrder.key hun :)⟩

theorem RunRep.mem_orders {b : MEOrderBook} {os : List MEOrder} {log : List (MEOrder × Addr)}
    (h : RunRep b os log) {x : MEOrder} : x ∈ os ↔ ∃ a, (x, a) ∈ log := by
  rw [← h.orders]
  simp

/-! ### Orders and their levels -/

/-- Every order rests at a level of its own price and side. -/
def AtOwnPrice (b : MEOrderBook) : Prop :=
  ∀ l, b.InTable l → ∀ a, b.InRing l a →
    (b.order a).price = (b.level l).price ∧ (b.order a).side = (b.level l).side

/-- No price is used by both sides. -/
def PricesOneSided (os : List MEOrder) : Prop :=
  ∀ x ∈ os, ∀ y ∈ os, x.price = y.price → x.side = y.side

instance (os : List MEOrder) : Decidable (PricesOneSided os) :=
  inferInstanceAs (Decidable (∀ x ∈ os, ∀ y ∈ os, x.price = y.price → x.side = y.side))

theorem atOwnPrice_of_lt {b : MEOrderBook} {os : List MEOrder} {log : List (MEOrder × Addr)}
    (h : RunRep b os log) (hsided : PricesOneSided os)
    (hlt : ∀ x ∈ os, x.price.toNat < meMaxPriceLevels) : AtOwnPrice b := by
  rintro l ⟨i, hi, hl⟩ a hring
  obtain ⟨x, hx, hxi⟩ := mem_logged.mp ((h.inRing_iff hi hl a).mp hring)
  have hxos : x ∈ os := h.mem_orders.mpr ⟨a, hx⟩
  have hprice : x.price = (b.level l).price := by
    rw [priceToIndex_of_lt (hlt x hxos)] at hxi
    exact UInt64.toNat_inj.mp (hxi.trans (h.price i hi l hl).symm)
  obtain ⟨y, hy, hyprice, hyside⟩ := h.opened l ⟨i, hi, hl⟩
  obtain ⟨haprice, haside, -⟩ := h.field_eq hx
  refine ⟨haprice.trans hprice, ?_⟩
  rw [haside, ← hyside]
  exact hsided x hxos y hy (hprice.trans hyprice.symm)

/-- **Every order rests at its own price and side** exactly when all the prices
of the run are below the size of the price table. -/
theorem atOwnPrice_iff {b₀ b : MEOrderBook} {os : List MEOrder} {log : List (MEOrder × Addr)}
    (h0 : b₀.Empty) (hsided : PricesOneSided os) (hrun : b₀.placeOrders os = .ok (b, log)) :
    AtOwnPrice b ↔ ∀ x ∈ os, x.price.toNat < meMaxPriceLevels := by
  have h := runRep_of_run h0 hrun
  refine ⟨fun hown x hx => ?_, atOwnPrice_of_lt h hsided⟩
  obtain ⟨a, ha⟩ := h.mem_orders.mp hx
  obtain ⟨l, ⟨i, hi, hl⟩, hring⟩ := (h.resting_iff a).mpr ⟨x, ha⟩
  have hprice := (hown l ⟨i, hi, hl⟩ a hring).1
  rw [(h.field_eq ha).1] at hprice
  rw [hprice, h.price i hi l hl]
  exact hi

theorem atOwnPrice_iff_three :
    ∃ b log, (construct .zero 0).placeOrders
        [{ clientId := 1, clientOrderId := 1, side := .sell, price := 5, qty := 10 },
          { clientId := 2, clientOrderId := 1, side := .sell, price := 5, qty := 20 },
          { clientId := 1, clientOrderId := 2, side := .buy, price := 3, qty := 10 }] =
        .ok (b, log) ∧ AtOwnPrice b := by
  obtain ⟨⟨b, log⟩, hrun, -⟩ := exists_of_succeedsWith (p := fun _ => true)
    (x := (construct .zero 0).placeOrders
      [{ clientId := 1, clientOrderId := 1, side := .sell, price := 5, qty := 10 },
        { clientId := 2, clientOrderId := 1, side := .sell, price := 5, qty := 20 },
        { clientId := 1, clientOrderId := 2, side := .buy, price := 3, qty := 10 }])
    (by decide +kernel)
  exact ⟨b, log, hrun, (atOwnPrice_iff (empty_construct 0) (by decide) hrun).mpr (by decide)⟩

/-- An order at 261 joins the level of price 5. -/
theorem order_not_at_own_price :
    ∃ b log, (construct .zero 0).placeOrders
        [{ clientId := 1, clientOrderId := 1, side := .sell, price := 5, qty := 10 },
          { clientId := 2, clientOrderId := 1, side := .sell, price := 261, qty := 20 }] =
        .ok (b, log) ∧ ¬ AtOwnPrice b := by
  obtain ⟨⟨b, log⟩, hrun, hring⟩ := exists_of_succeedsWith
    (p := fun r => decide (∃ l ∈ r.1.priceOrdersAtPrice 5, ∃ f ∈ (r.1.level l).firstOrder,
      ∃ a ∈ r.1.nextOrder f, (r.1.order a).price ≠ (r.1.level l).price))
    (x := (construct .zero 0).placeOrders
      [{ clientId := 1, clientOrderId := 1, side := .sell, price := 5, qty := 10 },
        { clientId := 2, clientOrderId := 1, side := .sell, price := 261, qty := 20 }])
    (by decide +kernel)
  obtain ⟨l, hl, f, hf, a, ha, hne⟩ := of_decide_eq_true hring
  refine ⟨b, log, hrun, fun hown => hne (hown l ⟨5, by decide, hl⟩ a ⟨f, hf, ?_⟩).1⟩
  exact Relation.ReflTransGen.single ha

/-! ### The price table and the rings of the sides -/

/-- `a` is met on the way along `next_entry_` from a head. -/
def MetFrom (b : MEOrderBook) (head : Ptr) (a : Addr) : Prop :=
  ∃ h, head = some h ∧ Relation.ReflTransGen (fun c d => b.nextEntry c = some d) h a

theorem LevelsRep.metFrom_asks {b : MEOrderBook} {asks : List Addr} (h : LevelsRep b asks)
    (a : Addr) : b.MetFrom b.asksByPrice a ↔ a ∈ asks := by
  rw [MetFrom, h.asksHead]
  cases asks with
  | nil => simp
  | cons f t =>
      rw [← h.ring.nextRing.reach_iff a]
      simp

/-- The levels met on the way along `next_entry_` from the head of a side are
the levels of this side in the price table. -/
def TableMatchesRing (b : MEOrderBook) (side : Side) : Prop :=
  ∀ a, (∃ h, b.sideHead side = some h ∧
      Relation.ReflTransGen (fun c d => b.nextEntry c = some d) h a) ↔
    b.InTable a ∧ (b.level a).side = side

/-- No buy level can be reached, so a book with one fails on the buy side. -/
theorem LevelsRep.tableMatchesRing_buy {b : MEOrderBook} {asks : List Addr}
    (h : LevelsRep b asks) :
    TableMatchesRing b .buy ↔ ∀ a, b.InTable a → (b.level a).side ≠ .buy := by
  have hhead : b.sideHead .buy = none := by
    rw [sideHead, if_pos rfl]
    exact h.bids
  simp [TableMatchesRing, hhead]

/-- The sell side is in order as long as there are only two kinds of levels. -/
theorem LevelsRep.tableMatchesRing_sell {b : MEOrderBook} {asks : List Addr}
    (h : LevelsRep b asks)
    (hside : ∀ a, b.InTable a → (b.level a).side = .buy ∨ (b.level a).side = .sell) :
    TableMatchesRing b .sell := by
  have hsell : ∀ a, b.InTable a ∧ (b.level a).side = .sell ↔ a ∈ asks := by
    intro a
    rw [h.mem_asks]
    refine and_congr_right fun ha => ⟨fun hs => by simp [hs], fun hs => ?_⟩
    exact (hside a ha).resolve_left hs
  intro a
  rw [hsell]
  exact h.metFrom_asks a

/-- **The price table and the rings agree**, on both sides, exactly when no
order of the run is a buy order. -/
theorem tableMatchesRing_iff {b₀ b : MEOrderBook} {os : List MEOrder}
    {log : List (MEOrder × Addr)} (h0 : b₀.Empty)
    (hside : ∀ x ∈ os, x.side = .buy ∨ x.side = .sell)
    (hprice : ∀ x ∈ os, x.price.toNat < meMaxPriceLevels) (hsided : PricesOneSided os)
    (hrun : b₀.placeOrders os = .ok (b, log)) :
    TableMatchesRing b .buy ∧ TableMatchesRing b .sell ↔ ∀ x ∈ os, x.side ≠ .buy := by
  have h := runRep_of_run h0 hrun
  obtain ⟨asks, hasks⟩ := h.asks
  have hsides : ∀ a, b.InTable a → (b.level a).side = .buy ∨ (b.level a).side = .sell := by
    intro a ha
    obtain ⟨x, hx, -, hxside⟩ := h.opened a ha
    exact hxside ▸ hside x hx
  rw [and_iff_left (hasks.tableMatchesRing_sell hsides), hasks.tableMatchesRing_buy]
  constructor
  · intro hnone x hx hbuy
    obtain ⟨a, ha⟩ := h.mem_orders.mp hx
    obtain ⟨l, htable, hring⟩ := (h.resting_iff a).mpr ⟨x, ha⟩
    obtain ⟨-, hlside⟩ := (atOwnPrice_of_lt h hsided hprice) l htable a hring
    rw [(h.field_eq ha).2.1] at hlside
    exact hnone l htable (hlside ▸ hbuy)
  · intro hnone l hl hbuy
    obtain ⟨x, hx, -, hxside⟩ := h.opened l hl
    exact hnone x hx (hxside.trans hbuy)

theorem tableMatchesRing_iff_two :
    ∃ b log, (construct .zero 0).placeOrders
        [{ clientId := 1, clientOrderId := 1, side := .sell, price := 5, qty := 10 },
          { clientId := 1, clientOrderId := 2, side := .sell, price := 3, qty := 10 }] =
        .ok (b, log) ∧ TableMatchesRing b .buy ∧ TableMatchesRing b .sell := by
  obtain ⟨⟨b, log⟩, hrun, -⟩ := exists_of_succeedsWith (p := fun _ => true)
    (x := (construct .zero 0).placeOrders
      [{ clientId := 1, clientOrderId := 1, side := .sell, price := 5, qty := 10 },
        { clientId := 1, clientOrderId := 2, side := .sell, price := 3, qty := 10 }])
    (by decide +kernel)
  refine ⟨b, log, hrun, ?_⟩
  exact (tableMatchesRing_iff (empty_construct 0) (by decide) (by decide) (by decide) hrun).mpr
    (by decide)

/-- A single buy order is in the table and cannot be reached. -/
theorem buy_level_unreachable :
    ∃ b log, (construct .zero 0).placeOrders
        [{ clientId := 1, clientOrderId := 1, side := .buy, price := 5, qty := 10 }] =
        .ok (b, log) ∧ ¬ TableMatchesRing b .buy := by
  obtain ⟨⟨b, log⟩, hrun, hlevel⟩ := exists_of_succeedsWith
    (p := fun r => decide (r.1.bidsByPrice = none ∧
      ∃ l ∈ r.1.priceOrdersAtPrice 5, (r.1.level l).side = .buy))
    (x := (construct .zero 0).placeOrders
      [{ clientId := 1, clientOrderId := 1, side := .buy, price := 5, qty := 10 }])
    (by decide +kernel)
  obtain ⟨hbids, l, hl, hbuy⟩ := of_decide_eq_true hlevel
  refine ⟨b, log, hrun, fun hmatch => ?_⟩
  obtain ⟨h, hhead, -⟩ := (hmatch l).mpr ⟨⟨5, by decide, hl⟩, hbuy⟩
  rw [sideHead, if_pos rfl, hbids] at hhead
  contradiction

/-! ### Bids and asks -/

/-- Every level met from the head of a side is a level of this side. -/
structure SidesApart (b : MEOrderBook) : Prop where
  asks : ∀ a, b.MetFrom b.asksByPrice a → (b.level a).side = .sell
  bids : ∀ a, b.MetFrom b.bidsByPrice a → (b.level a).side = .buy

/-- The ask ring holds whatever is not a buy level. -/
theorem LevelsRep.sidesApart_table {b : MEOrderBook} {asks : List Addr} (h : LevelsRep b asks) :
    SidesApart b ↔ ∀ a, b.InTable a → (b.level a).side = .buy ∨ (b.level a).side = .sell := by
  constructor
  · intro hapart a ha
    refine or_iff_not_imp_left.mpr fun hbuy => ?_
    exact hapart.asks a ((h.metFrom_asks a).mpr ((h.mem_asks a).mpr ⟨ha, hbuy⟩))
  · refine fun hside => ⟨fun a ha => ?_, fun a ha => ?_⟩
    · obtain ⟨htable, hbuy⟩ := (h.mem_asks a).mp ((h.metFrom_asks a).mp ha)
      exact (hside a htable).resolve_left hbuy
    · obtain ⟨f, hf, -⟩ := ha
      rw [h.bids] at hf
      contradiction

/-- **Bids and asks are kept apart** exactly when every order of the run is a
buy or a sell order. -/
theorem sidesApart_iff {b₀ b : MEOrderBook} {os : List MEOrder} {log : List (MEOrder × Addr)}
    (h0 : b₀.Empty) (hprice : ∀ x ∈ os, x.price.toNat < meMaxPriceLevels)
    (hsided : PricesOneSided os) (hrun : b₀.placeOrders os = .ok (b, log)) :
    SidesApart b ↔ ∀ x ∈ os, x.side = .buy ∨ x.side = .sell := by
  have h := runRep_of_run h0 hrun
  obtain ⟨asks, hasks⟩ := h.asks
  rw [hasks.sidesApart_table]
  constructor
  · intro hside x hx
    obtain ⟨a, ha⟩ := h.mem_orders.mp hx
    obtain ⟨l, htable, hring⟩ := (h.resting_iff a).mpr ⟨x, ha⟩
    obtain ⟨-, hlside⟩ := (atOwnPrice_of_lt h hsided hprice) l htable a hring
    rw [(h.field_eq ha).2.1] at hlside
    rw [hlside]
    exact hside l htable
  · intro hside l hl
    obtain ⟨x, hx, -, hxside⟩ := h.opened l hl
    exact hxside ▸ hside x hx

theorem sidesApart_iff_three :
    ∃ b log, (construct .zero 0).placeOrders
        [{ clientId := 1, clientOrderId := 1, side := .sell, price := 5, qty := 10 },
          { clientId := 1, clientOrderId := 2, side := .buy, price := 3, qty := 10 },
          { clientId := 1, clientOrderId := 3, side := .sell, price := 7, qty := 10 }] =
        .ok (b, log) ∧ SidesApart b := by
  obtain ⟨⟨b, log⟩, hrun, -⟩ := exists_of_succeedsWith (p := fun _ => true)
    (x := (construct .zero 0).placeOrders
      [{ clientId := 1, clientOrderId := 1, side := .sell, price := 5, qty := 10 },
        { clientId := 1, clientOrderId := 2, side := .buy, price := 3, qty := 10 },
        { clientId := 1, clientOrderId := 3, side := .sell, price := 7, qty := 10 }])
    (by decide +kernel)
  exact ⟨b, log, hrun,
    (sidesApart_iff (empty_construct 0) (by decide) (by decide) hrun).mpr (by decide)⟩

/-- An order without a side opens the ask ring. -/
theorem order_without_side_among_asks :
    ∃ b log, (construct .zero 0).placeOrders
        [{ clientId := 1, clientOrderId := 1, side := .invalid, price := 5, qty := 10 }] =
        .ok (b, log) ∧ ¬ SidesApart b := by
  obtain ⟨⟨b, log⟩, hrun, hside⟩ := exists_of_succeedsWith
    (p := fun r => decide (∃ l ∈ r.1.asksByPrice, (r.1.level l).side ≠ .sell))
    (x := (construct .zero 0).placeOrders
      [{ clientId := 1, clientOrderId := 1, side := .invalid, price := 5, qty := 10 }])
    (by decide +kernel)
  obtain ⟨l, hl, hne⟩ := of_decide_eq_true hside
  exact ⟨b, log, hrun, fun hapart => hne (hapart.asks l ⟨l, hl, .refl⟩)⟩

/-! ### The client index -/

/-- The index has an entry for the key. -/
def KeyInRange (key : ClientId × OrderId) : Prop :=
  key.1.toNat < meMaxNumClients ∧ key.2.toNat < meMaxOrderIds

theorem OrderPlaced.find_eq {b b' : MEOrderBook} {x : MEOrder} {o : Addr}
    (h : OrderPlaced b b' x o) (key : ClientId × OrderId) :
    b'.find key = if x.key = key then some o else b.find key := by
  obtain ⟨c, k⟩ := key
  rw [find, h.index]
  by_cases hc : c = x.clientId
  · subst hc
    by_cases hk : k = x.clientOrderId
    · subst hk
      simp [MEOrder.key]
    · have hk' : k.toNat ≠ x.clientOrderId.toNat := fun e => hk (UInt64.toNat_inj.mp e)
      have hkey : x.key ≠ (x.clientId, k) := fun e => hk (congrArg Prod.snd e).symm
      simp [hk', hkey, find]
  · have hc' : c.toNat ≠ x.clientId.toNat := fun e => hc (UInt32.toNat_inj.mp e)
    have hkey : x.key ≠ (c, k) := fun e => hc (congrArg Prod.fst e).symm
    simp [hc', hkey, find]

theorem lastLogged_snoc (log : List (MEOrder × Addr)) (x : MEOrder) (o : Addr)
    (key : ClientId × OrderId) :
    lastLogged (log ++ [(x, o)]) key = if x.key = key then some o else lastLogged log key := by
  by_cases h : x.key = key <;> simp [lastLogged, h]

theorem lastLogged_split {pre post : List (MEOrder × Addr)} {x : MEOrder} {o : Addr}
    (hnd : ((pre ++ (x, o) :: post).map (·.2)).Nodup) :
    lastLogged (pre ++ (x, o) :: post) x.key = some o ↔ ∀ y ∈ post, y.1.key ≠ x.key := by
  have hfilter : (pre ++ (x, o) :: post).filter (fun y => y.1.key = x.key) =
      pre.filter (fun y => y.1.key = x.key) ++
        (x, o) :: post.filter fun y => y.1.key = x.key := by
    simp
  rw [lastLogged, hfilter, List.getLast?_append_cons]
  cases hpost : post.filter (fun y => y.1.key = x.key) with
  | nil =>
      have hnone : ∀ y ∈ post, y.1.key ≠ x.key := by
        simpa using List.filter_eq_nil_iff.mp hpost
      exact iff_of_true rfl hnone
  | cons y rest =>
      obtain ⟨hy, hkey⟩ := List.mem_filter.mp (hpost ▸ List.mem_cons_self : y ∈ _)
      have hsome : ¬ ∀ y ∈ post, y.1.key ≠ x.key := fun hall =>
        hall y hy (of_decide_eq_true hkey)
      refine iff_of_false ?_ hsome
      -- the last of the later ones is at another address
      intro hlast
      rw [List.getLast?_cons_cons, Option.map_eq_some_iff] at hlast
      obtain ⟨z, hz, hzo⟩ := hlast
      have hzpost : z ∈ post := by
        have hmem := List.mem_of_getLast? hz
        rw [← hpost] at hmem
        exact (List.mem_filter.mp hmem).1
      simp only [List.map_append, List.map_cons] at hnd
      have hnot := (List.nodup_cons.mp (List.nodup_append.mp hnd).2.1).1
      exact hnot (hzo ▸ List.mem_map_of_mem hzpost)

theorem find_of_run {b₀ b : MEOrderBook} {os : List MEOrder} {log : List (MEOrder × Addr)}
    (hnull : ∀ key, KeyInRange key → b₀.find key = none)
    (hrun : b₀.placeOrders os = .ok (b, log)) :
    (∀ key, KeyInRange key → b.find key = lastLogged log key) ∧
      ∀ x ∈ log, KeyInRange x.1.key := by
  refine placeOrders_invariant (fun _ b log =>
    (∀ key, KeyInRange key → b.find key = lastLogged log key) ∧
      ∀ x ∈ log, KeyInRange x.1.key) ⟨hnull, by simp⟩ ?_ hrun
  rintro pre x b₁ log b₂ o ⟨hfind, hrange⟩ hplace
  have hp := placeOrder_frame hplace
  refine ⟨fun key hkey => ?_, fun y hy => ?_⟩
  · rw [hp.find_eq, lastLogged_snoc, hfind key hkey]
  · rcases List.mem_append.mp hy with hy | hy
    · exact hrange y hy
    · rw [List.mem_singleton.mp hy]
      exact ⟨hp.clientId_lt, hp.clientOrderId_lt⟩

/-- **A resting order is found by its client's key** exactly when no order
added after it has the same key: the index leads to the last order under each
key. With distinct keys it is a bijection with the resting orders. -/
theorem find_resting_iff {b₀ b : MEOrderBook} {os : List MEOrder}
    {log : List (MEOrder × Addr)} (h0 : b₀.Empty)
    (hnull : ∀ key, KeyInRange key → b₀.find key = none)
    (hrun : b₀.placeOrders os = .ok (b, log)) :
    (∀ key, KeyInRange key → b.find key = lastLogged log key) ∧
    (∀ a, b.Resting a → ∃ pre x post, log = pre ++ (x, a) :: post ∧
      (b.find (b.order a).key = some a ↔ ∀ y ∈ post, y.1.key ≠ (b.order a).key)) ∧
    ((os.map MEOrder.key).Nodup → ∀ key, KeyInRange key → ∀ a,
      (b.find key = some a ↔ b.Resting a ∧ (b.order a).key = key)) := by
  have h := runRep_of_run h0 hrun
  obtain ⟨hfind, hrange⟩ := find_of_run hnull hrun
  have hlast : ∀ a, b.Resting a → ∃ pre x post, log = pre ++ (x, a) :: post ∧
      (b.find (b.order a).key = some a ↔ ∀ y ∈ post, y.1.key ≠ (b.order a).key) := by
    intro a ha
    obtain ⟨x, hx⟩ := (h.resting_iff a).mp ha
    obtain ⟨pre, post, hlog⟩ := List.append_of_mem hx
    have hnd := h.nodup
    rw [hlog] at hnd
    refine ⟨pre, x, post, hlog, ?_⟩
    rw [(h.field_eq hx).2.2, hfind _ (hrange _ hx), hlog]
    exact lastLogged_split hnd
  refine ⟨hfind, hlast, fun hdistinct key hkey a => ⟨fun hfound => ?_, ?_⟩⟩
  · rw [hfind key hkey, lastLogged, Option.map_eq_some_iff] at hfound
    obtain ⟨⟨x, a'⟩, hx, rfl⟩ := hfound
    obtain ⟨hlog, hxkey⟩ := List.mem_filter.mp (List.mem_of_getLast? hx)
    refine ⟨(h.resting_iff a').mpr ⟨x, hlog⟩, ?_⟩
    rw [(h.field_eq hlog).2.2]
    exact of_decide_eq_true hxkey
  · rintro ⟨ha, rfl⟩
    obtain ⟨pre, x, post, hlog, hiff⟩ := hlast a ha
    refine hiff.mpr fun y hy => ?_
    have hx : (x, a) ∈ log := by simp [hlog]
    rw [(h.field_eq hx).2.2]
    rw [← h.orders, hlog] at hdistinct
    simp only [List.map_append, List.map_cons] at hdistinct
    have hnot := (List.nodup_cons.mp (List.nodup_append.mp hdistinct).2.1).1
    intro e
    exact hnot (e ▸ List.mem_map_of_mem (List.mem_map_of_mem hy))

/-- Two orders of one client under different numbers. -/
theorem find_resting_iff_two :
    ∃ b log, (construct .zero 0).placeOrders
        [{ clientId := 1, clientOrderId := 1, side := .sell, price := 5, qty := 10 },
          { clientId := 1, clientOrderId := 2, side := .sell, price := 5, qty := 20 }] =
        .ok (b, log) ∧
      ∀ key, KeyInRange key → ∀ a,
        (b.find key = some a ↔ b.Resting a ∧ (b.order a).key = key) := by
  obtain ⟨⟨b, log⟩, hrun, -⟩ := exists_of_succeedsWith (p := fun _ => true)
    (x := (construct .zero 0).placeOrders
      [{ clientId := 1, clientOrderId := 1, side := .sell, price := 5, qty := 10 },
        { clientId := 1, clientOrderId := 2, side := .sell, price := 5, qty := 20 }])
    (by decide +kernel)
  exact ⟨b, log, hrun,
    (find_resting_iff (empty_construct 0) (fun _ _ => rfl) hrun).2.2 (by decide)⟩

/-- A number used twice: the older order rests at 5 and the index leads to the
newer one. -/
theorem reused_key_hides_order :
    ∃ b log, (construct .zero 0).placeOrders
        [{ clientId := 1, clientOrderId := 1, side := .sell, price := 5, qty := 10 },
          { clientId := 1, clientOrderId := 1, side := .sell, price := 7, qty := 20 }] =
        .ok (b, log) ∧ ∃ a, b.Resting a ∧ b.find (b.order a).key ≠ some a := by
  obtain ⟨⟨b, log⟩, hrun, hfirst⟩ := exists_of_succeedsWith
    (p := fun r => decide (∃ l ∈ r.1.priceOrdersAtPrice 5, ∃ a ∈ (r.1.level l).firstOrder,
      r.1.find (r.1.order a).key ≠ some a))
    (x := (construct .zero 0).placeOrders
      [{ clientId := 1, clientOrderId := 1, side := .sell, price := 5, qty := 10 },
        { clientId := 1, clientOrderId := 1, side := .sell, price := 7, qty := 20 }])
    (by decide +kernel)
  obtain ⟨l, hl, a, ha, hne⟩ := of_decide_eq_true hfirst
  exact ⟨b, log, hrun, a, ⟨l, ⟨5, by decide, hl⟩, ⟨a, ha, .refl⟩⟩, hne⟩

end MEOrderBook

end LowLatency.Exchange
