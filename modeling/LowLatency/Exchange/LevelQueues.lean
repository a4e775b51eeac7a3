import LowLatency.Exchange.Orders

/-!
A new order and the queues of the levels, in any book.

`OrderRings` is all that is asked of the book: the orders of each level of the
price table are a ring that starts at `first_order_`, and no order is in the
rings of two levels.
-/

namespace LowLatency.Exchange

open LowLatency.Lib LowLatency.Common

namespace MEOrderBook

/-- The orders of the level `l`, read from its first order, are `queue l`. -/
structure OrderRings (b : MEOrderBook) (queue : Addr → List Addr) : Prop where
  nonempty : ∀ l, b.InTable l → queue l ≠ []
  first : ∀ l, b.InTable l → (b.level l).firstOrder = (queue l).head?
  ring : ∀ l, b.InTable l → LinkedRing b.nextOrder b.prevOrder (queue l)
  disjoint : ∀ l l', b.InTable l → b.InTable l' → l ≠ l' → ∀ a ∈ queue l, a ∉ queue l'

/-- An order that is in the ring of no level, with ids within the index. -/
structure Fresh (b : MEOrderBook) (queue : Addr → List Addr) (o : Addr) : Prop where
  clientId : (b.order o).clientId.toNat < meMaxNumClients
  clientOrderId : (b.order o).clientOrderId.toNat < meMaxOrderIds
  not_mem : ∀ l, b.InTable l → o ∉ queue l

/-- The queues after the order `o` has joined the level `l`. -/
def joined (queue : Addr → List Addr) (o l : Addr) : Addr → List Addr :=
  Function.update queue l (queue l ++ [o])

theorem mem_joined {queue : Addr → List Addr} {o l l' a : Addr} :
    a ∈ joined queue o l l' ↔ a ∈ queue l' ∨ (l' = l ∧ a = o) := by
  by_cases h : l' = l
  · subst h
    simp [joined]
  · simp [joined, h]

/-- What adding the order `o` to the level `l` does to a book. -/
structure Appended (b b' : MEOrderBook) (queue : Addr → List Addr) (o l : Addr) : Prop where
  rings : OrderRings b' (joined queue o l)
  levels : SameLevels b b'
  order : ∀ a, a ≠ o → a ∉ queue l → b'.order a = b.order a
  unlinked : ∀ a, (b'.order a).unlinked = (b.order a).unlinked
  entered : b'.cidOidToOrder (b.order o).clientId.toNat (b.order o).clientOrderId.toNat = some o
  index : ∀ c k, (c ≠ (b.order o).clientId.toNat ∨ k ≠ (b.order o).clientOrderId.toNat) →
    b'.cidOidToOrder c k = b.cidOidToOrder c k

theorem OrderRings.disjoint_joined {b : MEOrderBook} {queue : Addr → List Addr}
    (h : OrderRings b queue) {o : Addr} (ho : ∀ l', b.InTable l' → o ∉ queue l') (l : Addr)
    {k k' : Addr} (hk : b.InTable k) (hk' : b.InTable k') (hne : k ≠ k') :
    ∀ c ∈ joined queue o l k, c ∉ joined queue o l k' := by
  intro c hc hc'
  rcases mem_joined.mp hc with hc | ⟨hkl, hco⟩ <;>
    rcases mem_joined.mp hc' with hc' | ⟨hkl', hco'⟩
  · exact h.disjoint k k' hk hk' hne c hc hc'
  · exact ho k hk (hco' ▸ hc)
  · exact ho k' hk' (hco ▸ hc')
  · exact hne (hkl.trans hkl'.symm)

theorem OrderRings.joinLevel {b : MEOrderBook} {queue : Addr → List Addr}
    (h : OrderRings b queue) {o l : Addr} (hl : b.InTable l)
    (ho : ∀ l', b.InTable l' → o ∉ queue l') :
    ∃ b', b.joinLevel o l = .ok b' ∧ OrderRings b' (joined queue o l) ∧
      ∀ a, a ≠ o → a ∉ queue l → b'.order a = b.order a := by
  obtain ⟨b', hrun, hjoined⟩ := joinLevel_appends (h.nonempty l hl) (h.first l hl) (h.ring l hl)
    (ho l hl)
  have hframe := joinLevel_frame hrun
  have htable := hframe.toSameLevels.inTable_iff
  refine ⟨b', hrun, ⟨?_, ?_, ?_, ?_⟩, hjoined.order⟩
  · intro k hk hnil
    have hk' := h.nonempty k ((htable k).mp hk)
    obtain ⟨c, hc⟩ := List.exists_mem_of_ne_nil _ hk'
    have hmem : c ∈ joined queue o l k := mem_joined.mpr (.inl hc)
    rw [hnil] at hmem
    contradiction
  · intro k hk
    rw [hframe.level, h.first k ((htable k).mp hk)]
    by_cases hkl : k = l
    · subst hkl
      rw [joined, Function.update_self, List.head?_append_of_ne_nil _ (h.nonempty k hl)]
    · rw [joined, Function.update_of_ne hkl]
  · intro k hk
    have hk' := (htable k).mp hk
    by_cases hkl : k = l
    · subst hkl
      rw [joined, Function.update_self]
      exact hjoined.ring
    · rw [joined, Function.update_of_ne hkl]
      exact hjoined.other _ (h.ring k hk') (ho k hk') (h.disjoint l k hl hk' (Ne.symm hkl))
  · intro k k' hk hk' hne
    exact h.disjoint_joined ho l ((htable k).mp hk) ((htable k').mp hk') hne

/-- **A new order is appended to the queue of its level**, and nothing else is
disturbed. -/
theorem addOrder_appended {b : MEOrderBook} {queue : Addr → List Addr} (h : OrderRings b queue)
    {o l : Addr} (hfresh : Fresh b queue o)
    (hget : b.getOrdersAtPrice (b.order o).price = .ok (some l)) :
    ∃ b', b.addOrder o = .ok b' ∧ Appended b b' queue o l := by
  obtain ⟨hslot, htable⟩ := arrayAt_eq_ok.mp hget
  obtain ⟨b₁, hjoin, hrings, horder⟩ := h.joinLevel ⟨_, hslot, htable⟩ hfresh.not_mem
  have hframe := joinLevel_frame hjoin
  have hcid := hframe.field_eq MEOrder.clientId (fun _ => rfl) o
  have hoid := hframe.field_eq MEOrder.clientOrderId (fun _ => rfl) o
  have hindex : b₁.indexOrder o = .ok (b₁.indexed o) :=
    indexOrder_eq_ok.mpr ⟨hcid ▸ hfresh.clientId, hoid ▸ hfresh.clientOrderId, rfl⟩
  have hentries : (b₁.indexed o).cidOidToOrder =
      Function.update b.cidOidToOrder (b.order o).clientId.toNat
        (Function.update (b.cidOidToOrder (b.order o).clientId.toNat)
          (b.order o).clientOrderId.toNat (some o)) := by
    rw [indexed, hcid, hoid, hframe.cidOidToOrder]
  refine ⟨b₁.indexed o, ?_, ⟨hrings.1, hrings.2, hrings.3, hrings.4⟩, ?_, horder,
    hframe.unlinked, ?_, ?_⟩
  · rw [addOrder, hget, ok_bind]
    simp only [hjoin, ok_bind, hindex]
  · exact hframe.toSameLevels.trans ⟨rfl, rfl, rfl, rfl⟩
  · rw [hentries, Function.update_self, Function.update_self]
  · rintro c k hkey
    rw [hentries]
    by_cases hc : c = (b.order o).clientId.toNat
    · subst hc
      rw [Function.update_self, Function.update_of_ne (hkey.resolve_left fun hne => hne rfl)]
    · rw [Function.update_of_ne hc]

/-- A book with a bid at 7, the order 0, and an order 1 of the same price to be added. -/
def oneOrder : MEOrderBook :=
  { construct .zero 0 with
    ordersAtPricePool :=
      { pool := fun _ => ⟨⟨7, .buy, some 0, some 0, some 0⟩, false⟩
        size := meMaxPriceLevels
        nextFreeIdx := 1 }
    bidsByPrice := some 0
    priceOrdersAtPrice := fun i => if i = 7 then some 0 else none
    orderPool :=
      { pool := fun a => ⟨⟨0, 1, .ofNat a, 1, .buy, 7, 10, 1, some 0, some 0⟩, false⟩
        size := meMaxOrderIds
        nextFreeIdx := 2 } }

theorem addOrder_appended_bid :
    ∃ b', oneOrder.addOrder 1 = .ok b' ∧ Appended oneOrder b' (fun _ => [0]) 1 0 := by
  have honly : ∀ l, oneOrder.InTable l → l = 0 := by
    rintro l ⟨i, -, hl⟩
    change (if i = 7 then some 0 else none) = some l at hl
    split at hl
    · exact (Option.some.inj hl).symm
    · contradiction
  have hrings : OrderRings oneOrder fun _ => [0] := by
    refine ⟨fun _ _ => List.cons_ne_nil 0 [], fun l _ => rfl, ?_, ?_⟩
    · exact fun _ _ => Cyclic.single ⟨rfl, rfl⟩
    · intro l l' hl hl' hne
      exact absurd ((honly l hl).trans (honly l' hl').symm) hne
  exact addOrder_appended hrings ⟨by decide, by decide, fun _ _ => by decide⟩
    (arrayAt_eq_ok.mpr ⟨by decide, rfl⟩)

end MEOrderBook

end LowLatency.Exchange
