import LowLatency.Lib.Lockstep
import LowLatency.Exchange.OrderRuns

/-!
The constructor on memory with any content.

Two arrays have no initialiser, so what the memory held before decides what a
new book finds in them. `SameBook` relates books that differ at most past the
ends of these arrays; every function of a new order respects it, so memory
that is null in all the slots always leads to the same book.
-/

namespace LowLatency.Exchange

open LowLatency.Lib LowLatency.Common

/-- All the slots of the two arrays are null. -/
structure Storage.Null (mem : Storage) : Prop where
  priceOrdersAtPrice : ∀ i < meMaxPriceLevels, mem.priceOrdersAtPrice i = none
  cidOidToOrder : ∀ c < meMaxNumClients, ∀ k < meMaxOrderIds, mem.cidOidToOrder c k = none

theorem Storage.null_zero : Storage.zero.Null := ⟨fun _ _ => rfl, fun _ _ _ _ => rfl⟩

structure Storage.Agree (mem mem' : Storage) : Prop where
  priceOrdersAtPrice : ∀ i < meMaxPriceLevels,
    mem.priceOrdersAtPrice i = mem'.priceOrdersAtPrice i
  cidOidToOrder : ∀ c < meMaxNumClients, ∀ k < meMaxOrderIds,
    mem.cidOidToOrder c k = mem'.cidOidToOrder c k

theorem Storage.Null.agree {mem mem' : Storage} (h : mem.Null) (h' : mem'.Null) :
    mem.Agree mem' where
  priceOrdersAtPrice i hi := by rw [h.priceOrdersAtPrice i hi, h'.priceOrdersAtPrice i hi]
  cidOidToOrder c hc k hk := by rw [h.cidOidToOrder c hc k hk, h'.cidOidToOrder c hc k hk]

/-- Memory in which slot 5 of the price table points to the first level. -/
def Storage.stale : Storage where
  cidOidToOrder _ _ := none
  priceOrdersAtPrice i := if i = 5 then some 0 else none

/-! ### Arrays with related elements -/

theorem lockstep_arrayAt {α : Type} {R : α → α → Prop} {n : ℕ} {a a' : ℕ → α}
    (h : ∀ i < n, R (a i) (a' i)) (i : ℕ) : Lockstep R (arrayAt n a i) (arrayAt n a' i) := by
  rw [arrayAt, arrayAt]
  split
  · exact .ok (h i ‹_›)
  · exact .error _

theorem lockstep_arraySet {α : Type} {R : α → α → Prop} {n : ℕ} {a a' : ℕ → α}
    (h : ∀ i < n, R (a i) (a' i)) (i : ℕ) {v v' : α} (hv : R v v') :
    Lockstep (fun s s' => ∀ i < n, R (s i) (s' i)) (arraySet n a i v) (arraySet n a' i v') := by
  rw [arraySet, arraySet]
  split
  · refine .ok fun j hj => ?_
    by_cases hji : j = i
    · subst hji
      rwa [Function.update_self, Function.update_self]
    · rw [Function.update_of_ne hji, Function.update_of_ne hji]
      exact h j hj
  · exact .error _

namespace MEOrderBook

def storage (b : MEOrderBook) : Storage := ⟨b.cidOidToOrder, b.priceOrdersAtPrice⟩

def withStorage (b : MEOrderBook) (mem : Storage) : MEOrderBook :=
  { b with
    cidOidToOrder := mem.cidOidToOrder
    priceOrdersAtPrice := mem.priceOrdersAtPrice }

/-- Every slot of the price table and of the client index is null. -/
def Cleared (b : MEOrderBook) : Prop := b.storage.Null

/-- The same pools, heads, numbers and messages, and the same arrays as far as
they reach: all levels, rings and queues are the same. -/
def SameBook (b b' : MEOrderBook) : Prop := ∃ mem, b.storage.Agree mem ∧ b' = b.withStorage mem

namespace SameBook

variable {b b' : MEOrderBook}

theorem level (h : SameBook b b') (a : Addr) : b'.level a = b.level a := by
  obtain ⟨mem, -, rfl⟩ := h
  rfl

theorem order (h : SameBook b b') (a : Addr) : b'.order a = b.order a := by
  obtain ⟨mem, -, rfl⟩ := h
  rfl

theorem levelPool (h : SameBook b b') : b'.ordersAtPricePool = b.ordersAtPricePool := by
  obtain ⟨mem, -, rfl⟩ := h
  rfl

theorem orderPool (h : SameBook b b') : b'.orderPool = b.orderPool := by
  obtain ⟨mem, -, rfl⟩ := h
  rfl

theorem heads (h : SameBook b b') :
    b'.bidsByPrice = b.bidsByPrice ∧ b'.asksByPrice = b.asksByPrice := by
  obtain ⟨mem, -, rfl⟩ := h
  exact ⟨rfl, rfl⟩

/-! ### Assignments -/

theorem withLevelPool (h : SameBook b b') (pool : MemPool MEOrdersAtPrice) :
    SameBook { b with ordersAtPricePool := pool } { b' with ordersAtPricePool := pool } := by
  obtain ⟨mem, hmem, rfl⟩ := h
  exact ⟨mem, hmem, rfl⟩

theorem withOrderPool (h : SameBook b b') (pool : MemPool MEOrder) :
    SameBook { b with orderPool := pool } { b' with orderPool := pool } := by
  obtain ⟨mem, hmem, rfl⟩ := h
  exact ⟨mem, hmem, rfl⟩

theorem withBids (h : SameBook b b') (head : Ptr) :
    SameBook { b with bidsByPrice := head } { b' with bidsByPrice := head } := by
  obtain ⟨mem, hmem, rfl⟩ := h
  exact ⟨mem, hmem, rfl⟩

theorem withAsks (h : SameBook b b') (head : Ptr) :
    SameBook { b with asksByPrice := head } { b' with asksByPrice := head } := by
  obtain ⟨mem, hmem, rfl⟩ := h
  exact ⟨mem, hmem, rfl⟩

theorem modifyLevel (h : SameBook b b') (ptr : Ptr) (f : MEOrdersAtPrice → MEOrdersAtPrice) :
    Lockstep SameBook (b.modifyLevel ptr f) (b'.modifyLevel ptr f) := by
  rw [MEOrderBook.modifyLevel, MEOrderBook.modifyLevel, h.levelPool]
  exact .bind_same fun pool => .ok (h.withLevelPool pool)

theorem modifyOrder (h : SameBook b b') (ptr : Ptr) (f : MEOrder → MEOrder) :
    Lockstep SameBook (b.modifyOrder ptr f) (b'.modifyOrder ptr f) := by
  rw [MEOrderBook.modifyOrder, MEOrderBook.modifyOrder, h.orderPool]
  exact .bind_same fun pool => .ok (h.withOrderPool pool)

/-! ### A new level -/

theorem searchTarget (h : SameBook b b') (new : MEOrdersAtPrice) (best : Ptr) (fuel : ℕ)
    (target : Ptr) (after : Bool) :
    b'.searchTarget new best fuel target after = b.searchTarget new best fuel target after := by
  induction fuel generalizing target after with
  | zero => rfl
  | succ fuel ih => simp only [MEOrderBook.searchTarget, h.levelPool, ih]

theorem findTarget (h : SameBook b b') (new : MEOrdersAtPrice) (best : Ptr) :
    b'.findTarget new best = b.findTarget new best := by
  simp only [MEOrderBook.findTarget, h.levelPool, h.searchTarget]

theorem linkEntry (h : SameBook b b') (p : Addr) (target : Ptr) :
    Lockstep SameBook (b.linkEntry p target) (b'.linkEntry p target) := by
  rw [MEOrderBook.linkEntry, MEOrderBook.linkEntry, h.levelPool]
  refine .bind_same fun t => ?_
  refine (h.modifyLevel _ _).bind fun b₁ b₁' h₁ => ?_
  refine (h₁.modifyLevel _ _).bind fun b₂ b₂' h₂ => ?_
  rw [h₂.levelPool]
  refine .bind_same fun t => ?_
  refine (h₂.modifyLevel _ _).bind fun b₃ b₃' h₃ => ?_
  exact h₃.modifyLevel _ _

theorem openSide (h : SameBook b b') (p : Addr) :
    Lockstep SameBook (b.openSide p) (b'.openSide p) := by
  have hhead : SameBook (if (b.level p).side = .buy then b else { b with asksByPrice := some p })
      (if (b'.level p).side = .buy then b' else { b' with asksByPrice := some p }) := by
    rw [h.level]
    split
    · exact h
    · exact h.withAsks (some p)
  refine (hhead.modifyLevel _ _).bind fun b₁ b₁' h₁ => ?_
  exact h₁.modifyLevel _ _

theorem joinSide (h : SameBook b b') (p : Addr) (best : Ptr) :
    Lockstep SameBook (b.joinSide p best) (b'.joinSide p best) := by
  rw [MEOrderBook.joinSide, MEOrderBook.joinSide, h.level, h.findTarget, h.levelPool]
  refine .bind_same ?_
  rintro ⟨target, after⟩
  cases after with
  | true =>
      by_cases hbest : target = best
      · simp only [hbest, if_true]
        exact .bind_same fun head => h.linkEntry p _
      · simp only [hbest, if_true, if_false]
        exact h.linkEntry p target
  | false =>
      refine (h.linkEntry p target).bind fun b₁ b₁' h₁ => ?_
      rw [h₁.levelPool]
      refine .bind_same fun t => ?_
      split
      · refine (h₁.modifyLevel _ _).bind fun b₂ b₂' h₂ => ?_
        split
        · exact .ok (h₂.withBids (some p))
        · exact .ok (h₂.withAsks (some p))
      · exact .ok h₁

theorem sideHead (h : SameBook b b') (side : Side) : b'.sideHead side = b.sideHead side := by
  obtain ⟨mem, -, rfl⟩ := h
  rfl

theorem setSlot (h : SameBook b b') (p : Addr) : SameBook (b.setSlot p) (b'.setSlot p) := by
  obtain ⟨mem, hmem, rfl⟩ := h
  refine ⟨⟨mem.cidOidToOrder, Function.update mem.priceOrdersAtPrice (b.level p).price.toNat
    (some p)⟩, ⟨fun i hi => ?_, hmem.cidOidToOrder⟩, rfl⟩
  by_cases hip : i = (b.level p).price.toNat
  · subst hip
    simp [storage, MEOrderBook.setSlot]
  · simpa [storage, MEOrderBook.setSlot, hip] using hmem.priceOrdersAtPrice i hi

theorem addOrderAtPrice (h : SameBook b b') (p : Addr) :
    Lockstep SameBook (b.addOrderAtPrice p) (b'.addOrderAtPrice p) := by
  by_cases hprice : (b.level p).price.toNat < meMaxPriceLevels
  · have hprice' : (b'.level p).price.toNat < meMaxPriceLevels := by rwa [h.level]
    have hhead' : b'.sideHead (b'.level p).side = b.sideHead (b.level p).side := by
      rw [h.level, h.sideHead]
    cases hhead : b.sideHead (b.level p).side with
    | none =>
        rw [addOrderAtPrice_open hprice hhead, addOrderAtPrice_open hprice' (hhead'.trans hhead)]
        exact (h.setSlot p).openSide p
    | some l =>
        rw [addOrderAtPrice_join hprice hhead, addOrderAtPrice_join hprice' (hhead'.trans hhead)]
        exact (h.setSlot p).joinSide p (some l)
  · have hprice' : ¬ (b'.level p).price.toNat < meMaxPriceLevels := by rwa [h.level]
    simp only [MEOrderBook.addOrderAtPrice, arraySet, hprice, hprice', if_false, error_bind]
    exact .error _

theorem placeLevel (h : SameBook b b') (l : MEOrdersAtPrice) :
    Lockstep SameBook (b.placeLevel l) (b'.placeLevel l) := by
  rw [MEOrderBook.placeLevel, MEOrderBook.placeLevel, h.levelPool]
  refine .bind_same ?_
  rintro ⟨pool, p⟩
  exact (h.withLevelPool pool).addOrderAtPrice p

/-! ### A new order -/

theorem openLevel (h : SameBook b b') (o : Addr) :
    Lockstep SameBook (b.openLevel o) (b'.openLevel o) := by
  refine (h.modifyOrder _ _).bind fun b₁ b₁' h₁ => ?_
  refine (h₁.modifyOrder _ _).bind fun b₂ b₂' h₂ => ?_
  rw [h₂.order]
  exact h₂.placeLevel _

theorem joinLevel (h : SameBook b b') (o l : Addr) :
    Lockstep SameBook (b.joinLevel o l) (b'.joinLevel o l) := by
  rw [MEOrderBook.joinLevel, MEOrderBook.joinLevel, h.level, h.orderPool]
  refine .bind_same fun first => ?_
  refine (h.modifyOrder _ _).bind fun b₁ b₁' h₁ => ?_
  rw [h₁.orderPool]
  refine .bind_same fun first => ?_
  refine (h₁.modifyOrder _ _).bind fun b₂ b₂' h₂ => ?_
  refine (h₂.modifyOrder _ _).bind fun b₃ b₃' h₃ => ?_
  exact h₃.modifyOrder _ _

theorem indexOrder (h : SameBook b b') (o : Addr) :
    Lockstep SameBook (b.indexOrder o) (b'.indexOrder o) := by
  obtain ⟨mem, hmem, rfl⟩ := h
  refine (lockstep_arrayAt (R := fun r r' => ∀ k < meMaxOrderIds, r k = r' k)
    hmem.cidOidToOrder _).bind fun row row' hrow => ?_
  refine (lockstep_arraySet hrow _ rfl).bind fun row row' hrow => ?_
  refine .ok ⟨⟨Function.update mem.cidOidToOrder (b.order o).clientId.toNat row',
    mem.priceOrdersAtPrice⟩, ⟨hmem.priceOrdersAtPrice, fun c hc k hk => ?_⟩, rfl⟩
  by_cases hco : c = (b.order o).clientId.toNat
  · subst hco
    simpa [storage] using hrow k hk
  · simpa [storage, hco] using hmem.cidOidToOrder c hc k hk

theorem addOrder (h : SameBook b b') (o : Addr) :
    Lockstep SameBook (b.addOrder o) (b'.addOrder o) := by
  rw [MEOrderBook.addOrder, MEOrderBook.addOrder, h.order]
  obtain ⟨mem, hmem, rfl⟩ := h
  have h : SameBook b (b.withStorage mem) := ⟨mem, hmem, rfl⟩
  refine (lockstep_arrayAt hmem.priceOrdersAtPrice _).bind ?_
  rintro orderAtPrice _ rfl
  cases orderAtPrice with
  | none => exact (h.openLevel o).bind fun b₁ b₁' h₁ => h₁.indexOrder o
  | some l => exact (h.joinLevel o l).bind fun b₁ b₁' h₁ => h₁.indexOrder o

theorem placeOrder (h : SameBook b b') (x : MEOrder) :
    Lockstep (fun r r' => SameBook r.1 r'.1 ∧ r.2 = r'.2) (b.placeOrder x) (b'.placeOrder x) := by
  rw [MEOrderBook.placeOrder, MEOrderBook.placeOrder, h.orderPool]
  refine .bind_same ?_
  rintro ⟨pool, o⟩
  exact ((h.withOrderPool pool).addOrder o).bind fun b₁ b₁' h₁ => .ok ⟨h₁, rfl⟩

theorem placeOrders (h : SameBook b b') (os : List MEOrder) :
    Lockstep (fun r r' => SameBook r.1 r'.1 ∧ r.2 = r'.2) (b.placeOrders os)
      (b'.placeOrders os) := by
  refine Lockstep.runLog (fun b b' x h => ?_) h os
  refine (h.placeOrder x).bind ?_
  rintro ⟨b₁, o⟩ ⟨b₁', o'⟩ ⟨h₁, rfl⟩
  exact .ok ⟨h₁, rfl⟩

end SameBook

/-! ### The memory of a new book -/

theorem sameBook_construct {mem mem' : Storage} (h : mem.Agree mem') (tickerId : TickerId) :
    SameBook (construct mem tickerId) (construct mem' tickerId) := ⟨mem', h, rfl⟩

/-- What can be asked of two books built in different memory: both are empty,
and the same orders lead to the same book, at the same addresses, or to the
same failure. -/
structure BuiltAlike (mem mem' : Storage) (tickerId : TickerId) : Prop where
  left : Cleared (construct mem tickerId)
  right : Cleared (construct mem' tickerId)
  runs : ∀ os, Lockstep (fun r r' => SameBook r.1 r'.1 ∧ r.2 = r'.2)
    ((construct mem tickerId).placeOrders os) ((construct mem' tickerId).placeOrders os)

/-- **A new book is empty, and behaves the same, whatever memory it is built
in**, exactly when all the slots were null before. -/
theorem builtAlike_iff (mem mem' : Storage) (tickerId : TickerId) :
    BuiltAlike mem mem' tickerId ↔ mem.Null ∧ mem'.Null := by
  constructor
  · exact fun h => ⟨h.left, h.right⟩
  · rintro ⟨h, h'⟩
    exact ⟨h, h', (sameBook_construct (h.agree h') tickerId).placeOrders⟩

/-- A pointer left in the memory is taken for a level, and the first order at
its price follows the null pointer in it. -/
theorem stale_slot_kept :
    ¬ Cleared (construct .stale 0) ∧
    (∃ r, (construct .zero 0).placeOrders
      [{ clientId := 1, clientOrderId := 1, side := .sell, price := 5, qty := 10 }] = .ok r) ∧
    ∀ r, (construct .stale 0).placeOrders
      [{ clientId := 1, clientOrderId := 1, side := .sell, price := 5, qty := 10 }] ≠ .ok r := by
  refine ⟨fun hcleared => ?_, ?_, fun r hrun => ?_⟩
  · exact absurd (hcleared.priceOrdersAtPrice 5 (by decide)) (by decide)
  · obtain ⟨r, hrun, -⟩ := exists_of_succeedsWith (p := fun _ => true)
      (x := (construct .zero 0).placeOrders
        [{ clientId := 1, clientOrderId := 1, side := .sell, price := 5, qty := 10 }])
      (by decide +kernel)
    exact ⟨r, hrun⟩
  · have hfails : succeedsWith ((construct .stale 0).placeOrders
        [{ clientId := 1, clientOrderId := 1, side := .sell, price := 5, qty := 10 }])
        (fun _ => true) = false := by decide +kernel
    rw [hrun] at hfails
    contradiction

end MEOrderBook

end LowLatency.Exchange
