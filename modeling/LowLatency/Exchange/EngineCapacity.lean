import Mathlib.Data.Finset.Card
import Mathlib.Data.Finset.Range
import LowLatency.Common.PoolCapacity
import LowLatency.Exchange.Survival

/-!
How many requests an engine takes before it is full.

A book never gives a block back, and an allocation needs a second free block
to return. So what a run of new orders leaves in the two pools of a book is a
matter of counting: one block for each order that rests, one for each price
among them. `run_fits_iff` reads off the requests whether a run comes to its
end.
-/

namespace LowLatency.Exchange

open LowLatency.Lib LowLatency.Common MEOrderBook

/-! ### Free blocks -/

def freeCount {T : Type} (p : MemPool T) : ℕ :=
  ((Finset.range p.size).filter fun a => p.isFree a).card

section Pool

variable {T : Type} {p p' : MemPool T}

theorem freeCount_ofSize [Inhabited T] (n : ℕ) : freeCount (.ofSize n : MemPool T) = n := by
  have hall : (Finset.range n).filter (fun a => (MemPool.ofSize n : MemPool T).isFree a) =
      Finset.range n := Finset.filter_true_of_mem fun _ _ => rfl
  exact (congrArg Finset.card hall).trans (Finset.card_range n)

theorem mem_free {a : Addr} :
    a ∈ (Finset.range p.size).filter (fun a => p.isFree a) ↔ a < p.size ∧ p.isFree a = true := by
  rw [Finset.mem_filter, Finset.mem_range]

theorem spare_iff (h : p.Ready) : p.Spare ↔ 1 < freeCount p := by
  constructor
  · rintro ⟨a, hlt, hne, hfree⟩
    exact Finset.one_lt_card.mpr ⟨a, mem_free.mpr ⟨hlt, hfree⟩, _,
      mem_free.mpr ⟨h.lt, h.free⟩, hne⟩
  · intro hcard
    obtain ⟨a, ha, hne⟩ := Finset.exists_mem_ne hcard p.nextFreeIdx
    obtain ⟨hlt, hfree⟩ := mem_free.mp ha
    exact ⟨a, hlt, hne, hfree⟩

theorem freeCount_pos (h : p.Ready) : 0 < freeCount p :=
  Finset.card_pos.mpr ⟨_, mem_free.mpr ⟨h.lt, h.free⟩⟩

theorem freeCount_taken {a : Addr} (hlt : a < p.size) (hfree : p.isFree a = true)
    (hsize : p'.size = p.size)
    (hrest : ∀ b, p'.isFree b = if b = a then false else p.isFree b) :
    freeCount p' + 1 = freeCount p := by
  have herase : (Finset.range p'.size).filter (fun b => p'.isFree b) =
      ((Finset.range p.size).filter fun b => p.isFree b).erase a := by
    ext b
    rw [Finset.mem_erase, mem_free, mem_free, hsize, hrest]
    by_cases hb : b = a <;> simp [hb]
  rw [freeCount, herase, freeCount]
  exact Finset.card_erase_add_one (mem_free.mpr ⟨hlt, hfree⟩)

end Pool

/-! ### One book -/

/-- The book has taken orders at the prices `ps`, in this order, and none else:
each has a block, and so has each price. -/
structure Filled (b : MEOrderBook) (ps : List ℕ) : Prop extends Sound b where
  slots : ∀ i < meMaxPriceLevels, b.priceOrdersAtPrice i = none ↔ i ∉ ps
  orderCount : freeCount b.orderPool + ps.length = meMaxOrderIds
  levelCount : freeCount b.ordersAtPricePool + ps.toFinset.card = meMaxPriceLevels

/-- The prices leave a block free in each pool. -/
def FitsBook (ps : List ℕ) : Prop :=
  ps.length < meMaxOrderIds ∧ ps.toFinset.card < meMaxPriceLevels

instance (ps : List ℕ) : Decidable (FitsBook ps) :=
  inferInstanceAs (Decidable (_ ∧ _))

theorem filled_construct {mem : Storage} (h : mem.Null) (tickerId : TickerId) :
    Filled (construct mem tickerId) [] where
  toSound := sound_construct h tickerId
  slots i hi := by
    have hnull : (construct mem tickerId).priceOrdersAtPrice i = none :=
      h.priceOrdersAtPrice i hi
    simp [hnull]
  orderCount := by
    rw [List.length_nil, Nat.add_zero, construct]
    exact freeCount_ofSize _
  levelCount := by
    rw [List.toFinset_nil, Finset.card_empty, Nat.add_zero, construct]
    exact freeCount_ofSize _

section Book

variable {b b' : MEOrderBook} {ps : List ℕ} {x : MEOrder} {o : Addr}

theorem Filled.congr (h : Filled b ps) (hlevels : SameLevels b b')
    (horders : b'.orderPool = b.orderPool) : Filled b' ps where
  toSound := h.toSound.congr hlevels horders
  slots := hlevels.priceOrdersAtPrice ▸ h.slots
  orderCount := horders ▸ h.orderCount
  levelCount := hlevels.ordersAtPricePool ▸ h.levelCount

theorem Filled.fitsBook (h : Filled b ps) : FitsBook ps := by
  have ho := freeCount_pos h.orders
  have hl := freeCount_pos h.levels
  have := h.orderCount
  have := h.levelCount
  exact ⟨by omega, by omega⟩

theorem Filled.place (h : Filled b ps) (hprice : x.price.toNat < meMaxPriceLevels)
    (hok : b.placeOrder x = .ok (b', o)) : Filled b' (ps ++ [x.price.toNat]) := by
  have hp := placeOrder_frame hok
  have horders := freeCount_taken hp.lt hp.was_free hp.size hp.isFree
  have hcount := h.orderCount
  refine ⟨h.toSound.place hok, ?_, ?_, ?_⟩
  · intro i hi
    have hiff := h.slots i hi
    rcases hp.levels with ⟨l, hslot, hsame⟩ | ⟨-, p, hf⟩
    · rw [hsame.priceOrdersAtPrice]
      rw [priceToIndex_of_lt hprice] at hslot
      by_cases hix : i = x.price.toNat
      · subst hix
        simp [hslot]
      · simp [hiff, hix]
    · have hlevel : (levelFor x o).price = x.price := by rw [levelFor]
      rw [hf.slots, hlevel]
      by_cases hix : i = x.price.toNat
      · subst hix
        simp
      · rw [Function.update_of_ne hix]
        simp [hiff, hix]
  · rw [List.length_append, List.length_singleton]
    omega
  · have hslots := h.slots _ hprice
    have hlevels := h.levelCount
    rw [List.toFinset_append, List.toFinset_cons, List.toFinset_nil, Finset.union_comm,
      Finset.insert_union, Finset.empty_union]
    rcases hp.levels with ⟨l, hslot, hsame⟩ | ⟨hslot, p, hf⟩
    · rw [priceToIndex_of_lt hprice] at hslot
      have hmem : x.price.toNat ∈ ps := by
        by_contra hnot
        rw [hslots.mpr hnot] at hslot
        contradiction
      rw [hsame.ordersAtPricePool, Finset.insert_eq_of_mem (List.mem_toFinset.mpr hmem)]
      exact hlevels
    · rw [priceToIndex_of_lt hprice] at hslot
      have hnot : x.price.toNat ∉ ps.toFinset := by
        rw [List.mem_toFinset]
        exact hslots.mp hslot
      have htaken := freeCount_taken hf.lt hf.was_free hf.size hf.isFree
      rw [Finset.card_insert_of_notMem hnot]
      omega

/-- An order for a price that has a level needs a block of its own only. -/
theorem Sound.placeOrder_join (h : Sound b) (hspare : b.orderPool.Spare) {l : Addr}
    (hl : b.priceOrdersAtPrice (priceToIndex x.price) = some l)
    (hcid : x.clientId.toNat < meMaxNumClients) (hoid : x.clientOrderId.toNat < meMaxOrderIds) :
    ∃ b' o, b.placeOrder x = .ok (b', o) := by
  obtain ⟨fifo, hrep⟩ := h.queues
  rcases MemPool.allocate_cases h.orders x with ⟨pool, o, hrun, halloc⟩ | ⟨hnot, -⟩
  swap
  · exact absurd hspare hnot
  have hx := order_withOrders_new halloc
  have hslot := priceToIndex_lt x.price
  have hget : (b.withOrders pool).getOrdersAtPrice x.price = .ok (some l) :=
    arrayAt_eq_ok.mpr ⟨hslot, hl⟩
  obtain ⟨b₁, hjoin, -⟩ := (hrep.withOrders halloc).join hslot hl fun i hi =>
    hrep.not_mem halloc.was_free hi
  have hdata := (joinLevel_frame hjoin).toSameOrderData
  have hc : (b₁.order o).clientId = x.clientId := by
    rw [hdata.field_eq MEOrder.clientId fun _ => rfl, hx]
  have ho : (b₁.order o).clientOrderId = x.clientOrderId := by
    rw [hdata.field_eq MEOrder.clientOrderId fun _ => rfl, hx]
  have hindex : b₁.indexOrder o = .ok (b₁.indexed o) :=
    indexOrder_eq_ok.mpr ⟨hc ▸ hcid, ho ▸ hoid, rfl⟩
  refine ⟨b₁.indexed o, o, ?_⟩
  rw [placeOrder_of_allocate hrun, addOrder, hx, hget, ok_bind]
  simp [hjoin, hindex]

/-- An order within the bounds of the tables is placed as long as a block stays
free in each pool. -/
theorem Filled.place_iff (h : Filled b ps) (hprice : x.price.toNat < meMaxPriceLevels)
    (hcid : x.clientId.toNat < meMaxNumClients) (hoid : x.clientOrderId.toNat < meMaxOrderIds) :
    (FitsBook (ps ++ [x.price.toNat]) → ∃ b' o, b.placeOrder x = .ok (b', o)) ∧
      (¬ FitsBook (ps ++ [x.price.toNat]) →
        b.placeOrder x = .error MemPool.outOfSpace) := by
  constructor
  · rintro ⟨horders, hlevels⟩
    have hcount := h.orderCount
    rw [List.length_append, List.length_singleton] at horders
    have hspare : b.orderPool.Spare := (spare_iff h.orders).mpr (by omega)
    cases hl : b.priceOrdersAtPrice x.price.toNat with
    | some l =>
        rw [← priceToIndex_of_lt hprice] at hl
        exact h.toSound.placeOrder_join hspare hl hcid hoid
    | none =>
        have hnot : x.price.toNat ∉ ps.toFinset := by
          rw [List.mem_toFinset]
          exact (h.slots _ hprice).mp hl
        have hcount' := h.levelCount
        rw [List.toFinset_append, List.toFinset_cons, List.toFinset_nil, Finset.union_comm,
          Finset.insert_union, Finset.empty_union, Finset.card_insert_of_notMem hnot] at hlevels
        have hspare' : b.ordersAtPricePool.Spare := (spare_iff h.levels).mpr (by omega)
        exact h.toSound.placeOrder hspare hspare' hprice hcid hoid
  · intro hnot
    obtain ⟨asks, hasks⟩ := h.asks
    obtain ⟨fifo, hrep⟩ := h.queues
    rcases placeOrder_total hasks hrep h.levels h.orders hprice hcid hoid with
      ⟨b', o, hok⟩ | ⟨-, herror⟩
    · exact absurd (h.place hprice hok).fitsBook hnot
    · exact herror

end Book

/-! ### One request -/

/-- Nothing crosses: `checkMatch` leaves the book as it is and the whole quantity
to rest. -/
structure NoCross (checkMatch : CheckMatch) : Prop where
  book : ∀ b c o t s p q m, (checkMatch b c o t s p q m).book = b
  leavesQty : ∀ b c o t s p q m, (checkMatch b c o t s p q m).leavesQty = q

/-- The prices of an order that comes to rest, or none. -/
def MEOrderBook.AddArgs.rests (x : AddArgs) : List ℕ := if x.qty > 0 then [x.price.toNat] else []

theorem Filled.add {checkMatch : CheckMatch} (hcm : NoCross checkMatch) {b : MEOrderBook}
    {ps : List ℕ} (h : Filled b ps) (reading : PriorityReading) {x : AddArgs} (hx : x.InRange) :
    (FitsBook (ps ++ x.rests) → ∃ b' sent, b.add checkMatch reading x = .ok (b', sent) ∧
        Filled b' (ps ++ x.rests)) ∧
      (¬ FitsBook (ps ++ x.rests) →
        b.add checkMatch reading x = .error MemPool.outOfSpace) := by
  obtain ⟨hlevels, horders⟩ := Idle.accept hcm.book b x
  have haccept := h.congr hlevels horders
  have hleaves : (b.acceptAndMatch checkMatch x).2.leavesQty = x.qty := hcm.leavesQty ..
  rw [MEOrderBook.add]
  simp only [hleaves]
  by_cases hqty : x.qty > 0
  · obtain ⟨fifo, hrep⟩ := haccept.queues
    have hplace := haccept.place_iff (x := x.order reading
      (b.acceptAndMatch checkMatch x).2.book.tickerId (b.acceptAndMatch checkMatch x).1)
      hx.price hx.clientId hx.orderId
    have hprice : (x.order reading (b.acceptAndMatch checkMatch x).2.book.tickerId
      (b.acceptAndMatch checkMatch x).1).price = x.price := by rw [AddArgs.order]
    rw [hprice] at hplace
    rw [AddArgs.rests, if_pos hqty, if_pos hqty, hrep.restOrder_eq]
    refine ⟨fun hfits => ?_, fun hnot => ?_⟩
    · obtain ⟨b', o, hok⟩ := hplace.1 hfits
      have hfilled := haccept.place (hprice ▸ hx.price) hok
      rw [hprice] at hfilled
      rw [hok, ok_bind, ok_bind]
      exact ⟨_, _, rfl, hfilled.congr ⟨rfl, rfl, rfl, rfl⟩ rfl⟩
    · rw [hplace.2 hnot, error_bind, error_bind]
  · rw [AddArgs.rests, if_neg hqty, if_neg hqty, List.append_nil]
    exact ⟨fun _ => ⟨_, _, rfl, haccept⟩, fun hnot => absurd h.fitsBook hnot⟩

/-! ### A run -/

def restingPrices (reqs : List MEClientRequest) (i : ℕ) : List ℕ :=
  (reqs.filter fun r => r.index = i).flatMap fun r => r.args.rests

/-- For every ticker fewer orders than the order pool has blocks, and fewer
different prices than the level pool. -/
def Fits (reqs : List MEClientRequest) : Prop :=
  ∀ i < meMaxTickers, FitsBook (restingPrices reqs i)

instance (reqs : List MEClientRequest) : Decidable (Fits reqs) :=
  inferInstanceAs (Decidable (∀ i < meMaxTickers, _))

theorem restingPrices_concat (reqs : List MEClientRequest) (r : MEClientRequest) (i : ℕ) :
    restingPrices (reqs ++ [r]) i =
      restingPrices reqs i ++ if r.index = i then r.args.rests else [] := by
  by_cases hi : r.index = i <;> simp [restingPrices, hi]

theorem FitsBook.of_append {ps qs : List ℕ} (h : FitsBook (ps ++ qs)) : FitsBook ps := by
  obtain ⟨horders, hlevels⟩ := h
  rw [List.length_append] at horders
  refine ⟨by omega, (Finset.card_le_card ?_).trans_lt hlevels⟩
  rw [List.toFinset_append]
  exact Finset.subset_union_left

/-- A new order for one of the tickers, within the bounds of the tables. -/
structure Acceptable (r : MEClientRequest) : Prop where
  new : r.clientRequestType = .new
  ticker : r.index < meMaxTickers
  inRange : r.args.InRange

/-- One request more is served when it fits, and ends the process otherwise. -/
theorem request_cases {m : BookMethods} (hcm : NoCross m.checkMatch) {books : OrderBookHashMap}
    {reqs : List MEClientRequest}
    (hfilled : ∀ i < meMaxTickers, Filled (books i) (restingPrices reqs i))
    {r : MEClientRequest} (hr : Acceptable r) :
    (Fits (reqs ++ [r]) ∧ ∃ books' sent, processClientRequest m books r = .ok (books', sent) ∧
        ∀ i < meMaxTickers, Filled (books' i) (restingPrices (reqs ++ [r]) i)) ∨
      (¬ Fits (reqs ++ [r]) ∧ processClientRequest m books r = .error MemPool.outOfSpace) := by
  have hadd := (hfilled r.index hr.ticker).add hcm m.reading hr.inRange
  have hserve : serve m (books r.index) r =
      (books r.index).add m.checkMatch m.reading r.args := by rw [serve, hr.new]
  have hself : restingPrices (reqs ++ [r]) r.index =
      restingPrices reqs r.index ++ r.args.rests := by
    rw [restingPrices_concat, if_pos rfl]
  have hother : ∀ i ≠ r.index, restingPrices (reqs ++ [r]) i = restingPrices reqs i := by
    intro i hi
    rw [restingPrices_concat, if_neg (Ne.symm hi), List.append_nil]
  by_cases hlast : FitsBook (restingPrices reqs r.index ++ r.args.rests)
  · obtain ⟨b', sent, hok, hb'⟩ := hadd.1 hlast
    have hrequest : processClientRequest m books r =
        .ok (Function.update books r.index b', sent) :=
      processClientRequest_eq_ok.mpr ⟨hr.ticker, route_eq_ok.mpr ⟨b', hserve ▸ hok, rfl⟩⟩
    have hall : ∀ i < meMaxTickers, Filled (Function.update books r.index b' i)
        (restingPrices (reqs ++ [r]) i) := by
      intro i hi
      by_cases hir : i = r.index
      · subst hir
        rw [Function.update_self, hself]
        exact hb'
      · rw [Function.update_of_ne hir, hother i hir]
        exact hfilled i hi
    exact .inl ⟨fun i hi => (hall i hi).fitsBook, _, _, hrequest, hall⟩
  · have hget : arrayGet meMaxTickers books r.tickerId.toNat = .ok (books r.index) :=
      arrayGet_eq_ok.mpr ⟨hr.ticker, rfl⟩
    refine .inr ⟨fun h => hlast (hself ▸ h r.index hr.ticker), ?_⟩
    rw [processClientRequest, hget, ok_bind, hserve, hadd.2 hlast, error_bind]

/-- A run comes to its end with as many orders in the books as fit, or ends the
process when they no longer do. -/
theorem run_cases {m : BookMethods} (hcm : NoCross m.checkMatch) {mem : ℕ → Storage}
    (hmem : ∀ i < meMaxTickers, (mem i).Null) {reqs : List MEClientRequest}
    (hreqs : ∀ r ∈ reqs, Acceptable r) :
    (Fits reqs ∧ ∃ books log, processClientRequests m (constructBooks mem) reqs =
        .ok (books, log) ∧ ∀ i < meMaxTickers, Filled (books i) (restingPrices reqs i)) ∨
      (¬ Fits reqs ∧ processClientRequests m (constructBooks mem) reqs =
        .error MemPool.outOfSpace) := by
  induction reqs using List.reverseRecOn with
  | nil =>
      have hfilled : ∀ i < meMaxTickers, Filled (constructBooks mem i) (restingPrices [] i) :=
        fun i hi => filled_construct (hmem i hi) _
      exact .inl ⟨fun i hi => (hfilled i hi).fitsBook, _, _, rfl, hfilled⟩
  | append_singleton reqs r ih =>
      have hr := hreqs r (by simp)
      have hmono : Fits (reqs ++ [r]) → Fits reqs := fun hfits i hi =>
        .of_append (restingPrices_concat reqs r i ▸ hfits i hi)
      rcases ih fun x hx => hreqs x (by simp [hx]) with
        ⟨-, books, log, hrun, hfilled⟩ | ⟨hnot, hrun⟩
      · rcases request_cases hcm hfilled hr with
          ⟨hfits, books', sent, hok, hfilled'⟩ | ⟨hnot, herror⟩
        · exact .inl ⟨hfits, books', log ++ sent,
            runLog_snoc_eq_ok.mpr ⟨_, _, _, hrun, hok, rfl⟩, hfilled'⟩
        · exact .inr ⟨hnot, runLog_snoc_error hrun herror⟩
      · exact .inr ⟨fun h => hnot (hmono h), runLog_snoc_of_error hrun r⟩

/-- **How much an engine takes.** As long as nothing crosses, a run of new orders
within the bounds of the tables comes to its end exactly when, for every
ticker, fewer orders come to rest than the order pool has blocks, at fewer
prices than the level pool has. Otherwise it ends the process for lack of
space. -/
theorem run_fits_iff {m : BookMethods} (hcm : NoCross m.checkMatch) {mem : ℕ → Storage}
    (hmem : ∀ i < meMaxTickers, (mem i).Null) {reqs : List MEClientRequest}
    (hreqs : ∀ r ∈ reqs, Acceptable r) :
    ((∃ result, processClientRequests m (constructBooks mem) reqs = .ok result) ↔ Fits reqs) ∧
      (¬ Fits reqs → processClientRequests m (constructBooks mem) reqs =
        .error MemPool.outOfSpace) := by
  rcases run_cases hcm hmem hreqs with ⟨hfits, books, log, hrun, -⟩ | ⟨hnot, hrun⟩
  · exact ⟨iff_of_true ⟨_, hrun⟩ hfits, fun hnot => absurd hfits hnot⟩
  · refine ⟨iff_of_false ?_ hnot, fun _ => hrun⟩
    rintro ⟨result, hok⟩
    rw [hrun] at hok
    contradiction

instance (r : MEClientRequest) : Decidable (Acceptable r) :=
  decidable_of_iff (r.clientRequestType = .new ∧ r.index < meMaxTickers ∧ r.args.InRange)
    ⟨fun h => ⟨h.1, h.2.1, h.2.2⟩, fun h => ⟨h.new, h.ticker, h.inRange⟩⟩

theorem noCross_noMatch : NoCross noMatch :=
  ⟨fun _ _ _ _ _ _ _ _ => rfl, fun _ _ _ _ _ _ _ _ => rfl⟩

/-- Two orders of one ticker and one of another. -/
theorem run_fits_iff_three : ∃ result, processClientRequests restingBooks
    (constructBooks fun _ => .zero) [⟨.new, 1, 1, 0, .sell, 5, 60⟩, ⟨.new, 2, 1, 3, .sell, 5, 10⟩,
      ⟨.new, 2, 2, 0, .buy, 7, 100⟩] = .ok result :=
  (run_fits_iff (m := restingBooks) noCross_noMatch (fun _ _ => Storage.null_zero)
    (by decide)).1.mpr (by decide)

end LowLatency.Exchange
