import LowLatency.Exchange.Levels

/-!
A new level and the rings of the two sides, in any book.

Nothing is asked of the order of the prices, of the price table or of the rest
of the book: the ring of the side is all that `addOrderAtPrice` follows.
-/

namespace LowLatency.Exchange

open LowLatency.Lib LowLatency.Common

namespace MEOrderBook

/-- The levels of a side are the ring `l`, read from the head of the side. -/
structure SideRing (b : MEOrderBook) (side : Side) (l : List Addr) : Prop where
  head : b.sideHead side = l.head?
  ring : LinkedRing b.nextEntry b.prevEntry l
  lt : ∀ a ∈ l, a < b.ordersAtPricePool.size

theorem SideRing.length_le {b : MEOrderBook} {side : Side} {l : List Addr}
    (h : SideRing b side l) : l.length ≤ b.ordersAtPricePool.size :=
  length_le_of_nodup h.ring.nodup h.lt

structure SplicedIn (b b' : MEOrderBook) (p : Addr) (l : List Addr) : Prop where
  /-- The new level stands between two parts of the old ring. -/
  ring : ∃ A B, A ++ B = l ∧ A ≠ [] ∧ SideRing b' (b.level p).side (A ++ p :: B)
  bids : b'.bidsByPrice = b.bidsByPrice
  asks : b'.asksByPrice = b.asksByPrice
  level : ∀ a, a ≠ p → a ∉ l → b'.level a = b.level a
  /-- The levels of another side are a ring of their own. -/
  other : ∀ side l', SideRing b side l' → (∀ h ∈ l'.head?, h ∉ l) → p ∉ l' → SideRing b' side l'
  firstOrder : ∀ a, (b'.level a).firstOrder = (b.level a).firstOrder
  orderPool : b'.orderPool = b.orderPool

theorem LevelAdded.sideHead_eq {b b' : MEOrderBook} {p h : Addr} {l : List Addr}
    (hadd : LevelAdded b b' p l) (hhead : b.sideHead (b.level p).side = some h) :
    b'.bidsByPrice = b.bidsByPrice ∧ b'.asksByPrice = b.asksByPrice := by
  refine ⟨hadd.bids, ?_⟩
  rw [hadd.asks]
  split
  · rfl
  · rename_i hbuy
    rw [sideHead, if_neg hbuy] at hhead
    rw [hhead, Option.getD_some]

/-- **A new level is spliced into the ring of its side.** -/
theorem addOrderAtPrice_spliced {b : MEOrderBook} {p : Addr} {l : List Addr}
    (hside : SideRing b (b.level p).side l) (hne : l ≠ [])
    (hprice : (b.level p).price.toNat < meMaxPriceLevels) (hp : p ∉ l)
    (hlt : p < b.ordersAtPricePool.size) :
    ∃ b', b.addOrderAtPrice p = .ok b' ∧ SplicedIn b b' p l := by
  obtain ⟨b', hrun, hadd⟩ := addOrderAtPrice_ring hprice hside.ring hside.head hp hside.length_le
  obtain ⟨h, t, rfl⟩ := List.exists_cons_of_ne_nil hne
  obtain ⟨hbids, hasks⟩ := hadd.sideHead_eq hside.head
  have hheads : ∀ side, b'.sideHead side = b.sideHead side := by
    intro side
    rw [sideHead, hbids, hasks, sideHead]
  have hsize : b'.ordersAtPricePool.size = b.ordersAtPricePool.size := hadd.frame.size
  refine ⟨b', hrun, ?_, hbids, hasks, hadd.level, ?_, hadd.frame.firstOrder,
    hadd.frame.orderPool⟩
  · obtain ⟨A, B, rfl, hplace⟩ := placeAmong_split (b.after p) p h t
    have hring := hadd.ring
    rw [hplace] at hring
    refine ⟨h :: A, B, rfl, List.cons_ne_nil h A, (hheads _).trans hside.head, hring, ?_⟩
    intro a ha
    rw [hsize]
    by_cases hap : a = p
    · exact hap ▸ hlt
    · exact hside.lt a (by simpa [hap] using ha)
  · intro side l' hother hhead hp'
    have hapart : ∀ a ∈ l', a ∉ h :: t := by
      intro a ha ha'
      obtain ⟨h', t', rfl⟩ := List.exists_cons_of_ne_nil (List.ne_nil_of_mem ha)
      exact hhead h' rfl (NextRing.mem_of_shared hside.ring.nextRing hother.ring.nextRing ha' ha
        List.mem_cons_self)
    refine ⟨(hheads side).trans hother.head, levelRing_congr hother.ring fun a ha => ?_, ?_⟩
    · exact hadd.level a (fun hap => hp' (hap ▸ ha)) (hapart a ha)
    · exact fun a ha => hsize ▸ hother.lt a ha

/-- Bids at 9, 7 and 3, the first of them the head, and a level at 5 to be added. -/
def threeBids : MEOrderBook :=
  { construct .zero 0 with
    ordersAtPricePool :=
      { pool := fun a => match a with
          | 0 => ⟨⟨9, .buy, none, some 2, some 1⟩, false⟩
          | 1 => ⟨⟨7, .buy, none, some 0, some 2⟩, false⟩
          | 2 => ⟨⟨3, .buy, none, some 1, some 0⟩, false⟩
          | _ => ⟨⟨5, .buy, none, none, none⟩, false⟩
        size := meMaxPriceLevels
        nextFreeIdx := 4 }
    bidsByPrice := some 0 }

theorem sideRing_threeBids : SideRing threeBids .buy [0, 1, 2] where
  head := rfl
  ring :=
    { nodup := by decide
      chain := .cons_cons ⟨rfl, rfl⟩ <| .cons_cons ⟨rfl, rfl⟩ <|
        .cons_cons ⟨rfl, rfl⟩ (.singleton 0) }
  lt := by decide

/-- The search goes past the second bid and stops at the third. -/
theorem addOrderAtPrice_spliced_third :
    ∃ b', threeBids.addOrderAtPrice 3 = .ok b' ∧ SplicedIn threeBids b' 3 [0, 1, 2] ∧
      b'.nextEntry 1 = some 3 ∧ b'.nextEntry 3 = some 2 := by
  obtain ⟨b', hrun, hspliced⟩ := addOrderAtPrice_spliced (p := 3) sideRing_threeBids
    (by decide) (by decide) (by decide) (by decide)
  obtain ⟨b'', hrun', hnext⟩ := exists_of_succeedsWith
    (p := fun b => decide (b.nextEntry 1 = some 3 ∧ b.nextEntry 3 = some 2))
    (x := threeBids.addOrderAtPrice 3) (by decide +kernel)
  obtain rfl : b' = b'' := Except.ok.inj (hrun.symm.trans hrun')
  exact ⟨b', hrun, hspliced, of_decide_eq_true hnext⟩

end MEOrderBook

end LowLatency.Exchange
