import LowLatency.Lib.Rings
import LowLatency.Exchange.MEOrderBook

/-!
What `addOrderAtPrice` does to the ring of levels of one side.

Read from its head, the ring is a list of addresses, and the new level goes
where `placeAmong` says: at the end when it does not belong after the head,
otherwise in front of the first level it does not belong after, and in front
of the last level when there is none. The head is never moved, and
`bids_by_price_` is never assigned at all.

`LinkFrame` is the frame of everything that happens here: only the links
between levels and the heads of the two sides change. It holds of any book;
the results about rings ask for the ring of the new level's side to be well
formed.
-/

namespace LowLatency.Exchange

open LowLatency.Lib LowLatency.Common

namespace MEOrderBook

/-! ### Updates of a level -/

def setLevel (b : MEOrderBook) (a : Addr) (l : MEOrdersAtPrice) : MEOrderBook :=
  { b with ordersAtPricePool := b.ordersAtPricePool.write a l }

def nextEntry (b : MEOrderBook) (a : Addr) : Ptr := (b.level a).nextEntry

def prevEntry (b : MEOrderBook) (a : Addr) : Ptr := (b.level a).prevEntry

@[simp] theorem modifyLevel_some (b : MEOrderBook) (a : Addr)
    (f : MEOrdersAtPrice → MEOrdersAtPrice) :
    b.modifyLevel (some a) f = .ok (b.setLevel a (f (b.level a))) := rfl

@[simp] theorem modifyLevel_none (b : MEOrderBook)
    (f : MEOrdersAtPrice → MEOrdersAtPrice) :
    b.modifyLevel none f = .error .undefined := rfl

@[simp] theorem object_ordersAtPricePool (b : MEOrderBook) (a : Addr) :
    b.ordersAtPricePool.object a = b.level a := rfl

@[simp] theorem level_setLevel (b : MEOrderBook) (a c : Addr) (l : MEOrdersAtPrice) :
    (b.setLevel a l).level c = if c = a then l else b.level c :=
  MemPool.object_write b.ordersAtPricePool a c l

@[simp] theorem bidsByPrice_setLevel (b : MEOrderBook) (a : Addr) (l : MEOrdersAtPrice) :
    (b.setLevel a l).bidsByPrice = b.bidsByPrice := rfl

@[simp] theorem asksByPrice_setLevel (b : MEOrderBook) (a : Addr) (l : MEOrdersAtPrice) :
    (b.setLevel a l).asksByPrice = b.asksByPrice := rfl

/-- `b'` differs from `b` at most in the links between levels and in the heads
of the two sides. -/
structure LinkFrame (b b' : MEOrderBook) : Prop where
  tickerId : b'.tickerId = b.tickerId
  cidOidToOrder : b'.cidOidToOrder = b.cidOidToOrder
  priceOrdersAtPrice : b'.priceOrdersAtPrice = b.priceOrdersAtPrice
  orderPool : b'.orderPool = b.orderPool
  nextOrderId : b'.nextOrderId = b.nextOrderId
  size : b'.ordersAtPricePool.size = b.ordersAtPricePool.size
  nextFreeIdx : b'.ordersAtPricePool.nextFreeIdx = b.ordersAtPricePool.nextFreeIdx
  isFree : ∀ a, b'.ordersAtPricePool.isFree a = b.ordersAtPricePool.isFree a
  price : ∀ a, (b'.level a).price = (b.level a).price
  side : ∀ a, (b'.level a).side = (b.level a).side
  firstOrder : ∀ a, (b'.level a).firstOrder = (b.level a).firstOrder

theorem LinkFrame.refl (b : MEOrderBook) : LinkFrame b b :=
  ⟨rfl, rfl, rfl, rfl, rfl, rfl, rfl, fun _ => rfl, fun _ => rfl, fun _ => rfl, fun _ => rfl⟩

theorem LinkFrame.trans {b₁ b₂ b₃ : MEOrderBook} (h : LinkFrame b₁ b₂)
    (h' : LinkFrame b₂ b₃) : LinkFrame b₁ b₃ where
  tickerId := h'.tickerId.trans h.tickerId
  cidOidToOrder := h'.cidOidToOrder.trans h.cidOidToOrder
  priceOrdersAtPrice := h'.priceOrdersAtPrice.trans h.priceOrdersAtPrice
  orderPool := h'.orderPool.trans h.orderPool
  nextOrderId := h'.nextOrderId.trans h.nextOrderId
  size := h'.size.trans h.size
  nextFreeIdx := h'.nextFreeIdx.trans h.nextFreeIdx
  isFree a := (h'.isFree a).trans (h.isFree a)
  price a := (h'.price a).trans (h.price a)
  side a := (h'.side a).trans (h.side a)
  firstOrder a := (h'.firstOrder a).trans (h.firstOrder a)

theorem LinkFrame.heads {b b' : MEOrderBook} (h : LinkFrame b b') (bids asks : Ptr) :
    LinkFrame b { b' with bidsByPrice := bids, asksByPrice := asks } :=
  ⟨h.tickerId, h.cidOidToOrder, h.priceOrdersAtPrice, h.orderPool, h.nextOrderId, h.size,
    h.nextFreeIdx, h.isFree, h.price, h.side, h.firstOrder⟩

theorem LinkFrame.setLevel (b : MEOrderBook) (a : Addr) {l : MEOrdersAtPrice}
    (hp : l.price = (b.level a).price) (hs : l.side = (b.level a).side)
    (hf : l.firstOrder = (b.level a).firstOrder) : LinkFrame b (b.setLevel a l) where
  tickerId := rfl
  cidOidToOrder := rfl
  priceOrdersAtPrice := rfl
  orderPool := rfl
  nextOrderId := rfl
  size := rfl
  nextFreeIdx := rfl
  isFree c := MemPool.isFree_write b.ordersAtPricePool a c l
  price c := by by_cases h : c = a <;> simp [h, hp]
  side c := by by_cases h : c = a <;> simp [h, hs]
  firstOrder c := by by_cases h : c = a <;> simp [h, hf]

theorem LinkFrame.addAfter_eq {b b' : MEOrderBook} (h : LinkFrame b b') (a c : Addr) :
    addAfter (b'.level a) (b'.level c) = addAfter (b.level a) (b.level c) := by
  simp [addAfter, h.price, h.side]

theorem modifyLevel_frame {b b' : MEOrderBook} {ptr : Ptr}
    {f : MEOrdersAtPrice → MEOrdersAtPrice} (h : b.modifyLevel ptr f = .ok b')
    (hp : ∀ l, (f l).price = l.price) (hs : ∀ l, (f l).side = l.side)
    (hf : ∀ l, (f l).firstOrder = l.firstOrder) : LinkFrame b b' := by
  cases ptr with
  | none => simp at h
  | some a =>
      rw [modifyLevel_some, Except.ok.injEq] at h
      exact h ▸ LinkFrame.setLevel b a (hp _) (hs _) (hf _)

/-! ### Frames of the branches -/

theorem linkEntry_frame {b b' : MEOrderBook} {p : Addr} {target : Ptr}
    (h : b.linkEntry p target = .ok b') : LinkFrame b b' := by
  simp only [linkEntry, bind_eq_ok] at h
  obtain ⟨t, -, b₁, h₁, b₂, h₂, t', -, b₃, h₃, h₄⟩ := h
  have f₁ := modifyLevel_frame h₁ (fun _ => rfl) (fun _ => rfl) (fun _ => rfl)
  have f₂ := modifyLevel_frame h₂ (fun _ => rfl) (fun _ => rfl) (fun _ => rfl)
  have f₃ := modifyLevel_frame h₃ (fun _ => rfl) (fun _ => rfl) (fun _ => rfl)
  have f₄ := modifyLevel_frame h₄ (fun _ => rfl) (fun _ => rfl) (fun _ => rfl)
  exact ((f₁.trans f₂).trans f₃).trans f₄

theorem openSide_frame {b b' : MEOrderBook} {p : Addr} (h : b.openSide p = .ok b') :
    LinkFrame b b' := by
  simp only [openSide, bind_eq_ok] at h
  obtain ⟨b₂, h₂, h₃⟩ := h
  have f₁ : LinkFrame b
      (if (b.level p).side = .buy then b else { b with asksByPrice := some p }) := by
    split
    · exact .refl b
    · exact (LinkFrame.refl b).heads b.bidsByPrice (some p)
  have f₂ := modifyLevel_frame h₂ (fun _ => rfl) (fun _ => rfl) (fun _ => rfl)
  have f₃ := modifyLevel_frame h₃ (fun _ => rfl) (fun _ => rfl) (fun _ => rfl)
  exact (f₁.trans f₂).trans f₃

theorem joinSide_frame {b b' : MEOrderBook} {p : Addr} {best : Ptr}
    (h : b.joinSide p best = .ok b') : LinkFrame b b' := by
  simp only [joinSide, bind_eq_ok] at h
  obtain ⟨⟨target, after⟩, -, h⟩ := h
  cases after with
  | true =>
      by_cases ht : target = best
      · simp only [ht, if_true, bind_eq_ok] at h
        obtain ⟨head, -, h⟩ := h
        exact linkEntry_frame h
      · simp only [ht, if_true, if_false] at h
        exact linkEntry_frame h
  | false =>
      simp only [Bool.false_eq_true, if_false, bind_eq_ok] at h
      obtain ⟨b₁, h₁, t, -, h⟩ := h
      have f₁ := linkEntry_frame h₁
      by_cases ha : addAfter (b.level p) t = true
      · simp only [ha, if_true, bind_eq_ok, Except.ok.injEq] at h
        obtain ⟨b₂, h₂, rfl⟩ := h
        have f₂ := modifyLevel_frame h₂ (fun _ => rfl) (fun _ => rfl) (fun _ => rfl)
        have f₁₂ := f₁.trans f₂
        split
        · exact f₁₂.heads (some p) b₂.asksByPrice
        · exact f₁₂.heads b₂.bidsByPrice (some p)
      · simp only [ha, Bool.false_eq_true, if_false, Except.ok.injEq] at h
        exact h ▸ f₁

def setSlot (b : MEOrderBook) (p : Addr) : MEOrderBook :=
  { b with priceOrdersAtPrice :=
      Function.update b.priceOrdersAtPrice (b.level p).price.toNat (some p) }

theorem addOrderAtPrice_frame {b b' : MEOrderBook} {p : Addr}
    (h : b.addOrderAtPrice p = .ok b') :
    (b.level p).price.toNat < meMaxPriceLevels ∧ LinkFrame (b.setSlot p) b' := by
  simp only [addOrderAtPrice, bind_eq_ok] at h
  obtain ⟨slots, hslots, h⟩ := h
  obtain ⟨hlt, rfl⟩ := arraySet_eq_ok.mp hslots
  refine ⟨hlt, ?_⟩
  split at h
  · exact openSide_frame h
  · exact joinSide_frame h

/-! ### The place of the new level -/

/-- Where `x` goes among the members of a ring read from its head, `after`
telling behind which of them it belongs. -/
def placeAmong {α : Type} (after : α → Bool) (x : α) : List α → List α
  | [] => [x]
  | h :: t =>
      if after h then
        match t.dropWhile after with
        | [] => h :: (t.dropLast ++ x :: t.getLast?.toList)
        | y :: s => h :: (t.takeWhile after ++ x :: y :: s)
      else
        h :: (t ++ [x])

section PlaceAmong

variable {α : Type} {after : α → Bool} {x h : α} {t : List α}

theorem placeAmong_behind (hh : after h = false) :
    placeAmong after x (h :: t) = h :: (t ++ [x]) := by
  simp [placeAmong, hh]

theorem placeAmong_stop {y : α} {s : List α} (hh : after h = true)
    (ht : t.dropWhile after = y :: s) :
    placeAmong after x (h :: t) = h :: (t.takeWhile after ++ x :: y :: s) := by
  simp [placeAmong, hh, ht]

theorem placeAmong_round (hh : after h = true) (ht : t.dropWhile after = []) :
    placeAmong after x (h :: t) = h :: (t.dropLast ++ x :: t.getLast?.toList) := by
  simp [placeAmong, hh, ht]

/-- The new member never comes before the head. -/
theorem placeAmong_split (after : α → Bool) (x h : α) (t : List α) :
    ∃ A B, A ++ B = t ∧ placeAmong after x (h :: t) = h :: (A ++ x :: B) := by
  cases hh : after h with
  | false => exact ⟨t, [], List.append_nil t, placeAmong_behind hh⟩
  | true =>
      cases ht : t.dropWhile after with
      | cons y s =>
          refine ⟨t.takeWhile after, y :: s, ?_, placeAmong_stop hh ht⟩
          rw [← ht, List.takeWhile_append_dropWhile]
      | nil =>
          refine ⟨t.dropLast, t.getLast?.toList, ?_, placeAmong_round hh ht⟩
          rcases List.eq_nil_or_concat t with rfl | ⟨t, z, rfl⟩ <;> simp

theorem placeAmong_perm (after : α → Bool) (x : α) (l : List α) :
    (placeAmong after x l).Perm (x :: l) := by
  cases l with
  | nil => exact .refl _
  | cons h t =>
      obtain ⟨A, B, rfl, hplace⟩ := placeAmong_split after x h t
      rw [hplace]
      exact (List.perm_middle.cons h).trans (.swap x h _)

theorem mem_placeAmong {l : List α} {a : α} :
    a ∈ placeAmong after x l ↔ a = x ∨ a ∈ l := by
  rw [(placeAmong_perm after x l).mem_iff, List.mem_cons]

theorem head?_placeAmong (l : List α) :
    (placeAmong after x l).head? = some (l.head?.getD x) := by
  cases l with
  | nil => rfl
  | cons h t =>
      obtain ⟨A, B, -, hplace⟩ := placeAmong_split after x h t
      rw [hplace]
      rfl

theorem map_placeAmong {β : Type} (f : α → β) (after : β → Bool) (x : α) (l : List α) :
    (placeAmong (after ∘ f) x l).map f = placeAmong after (f x) (l.map f) := by
  cases l with
  | nil => rfl
  | cons h t =>
      cases hh : (after ∘ f) h with
      | false =>
          rw [placeAmong_behind hh, List.map_cons (l := t), placeAmong_behind (h := f h) hh]
          simp
      | true =>
          cases ht : t.dropWhile (after ∘ f) with
          | cons y s =>
              have ht' : (t.map f).dropWhile after = f y :: s.map f := by
                rw [List.dropWhile_map, ht, List.map_cons]
              rw [placeAmong_stop hh ht, List.map_cons (l := t),
                placeAmong_stop (h := f h) hh ht', List.takeWhile_map]
              simp
          | nil =>
              have ht' : (t.map f).dropWhile after = [] := by
                rw [List.dropWhile_map, ht, List.map_nil]
              rw [placeAmong_round hh ht, List.map_cons (l := t),
                placeAmong_round (h := f h) hh ht']
              rcases List.eq_nil_or_concat t with rfl | ⟨t, z, rfl⟩ <;> simp

end PlaceAmong

/-! ### The search along the ring -/

section Search

variable {b : MEOrderBook} {new : MEOrdersAtPrice} {h : Addr} {t : List Addr}

/-- The loop walks over the levels the new one belongs after. The induction is
on the part of the ring still ahead, `s`. -/
theorem searchTarget_ring {A s : List Addr} {fuel : ℕ}
    (hr : LinkedRing b.nextEntry b.prevEntry (h :: (A ++ s))) (hfuel : s.length < fuel) :
    b.searchTarget new (some h) fuel (s ++ [h]).head? true =
      .ok (match s.dropWhile (fun a => addAfter new (b.level a)) with
        | [] => (some h, true)
        | y :: _ => (some y, false)) := by
  induction s generalizing A fuel with
  | nil =>
      obtain ⟨fuel, rfl⟩ : ∃ n, fuel = n + 1 := ⟨fuel - 1, by omega⟩
      simp [searchTarget]
  | cons y s ih =>
      obtain ⟨fuel, rfl⟩ : ∃ n, fuel = n + 1 := ⟨fuel - 1, by omega⟩
      rw [List.length_cons] at hfuel
      have hne : y ≠ h := by
        have hnd := hr.nodup
        rintro rfl
        simp at hnd
      have hne' : (some y : Ptr) ≠ some h := by simpa using hne
      cases hy : addAfter new (b.level y) with
      | false =>
          obtain ⟨fuel, rfl⟩ : ∃ n, fuel = n + 1 := ⟨fuel - 1, by omega⟩
          simp [searchTarget, hne, hy]
      | true =>
          have hnext : (b.level y).nextEntry = (s ++ [h]).head? := by
            cases s with
            | nil => exact (Cyclic.rel_closing (A := A) hr).next_eq
            | cons z s => exact (Cyclic.rel (A := h :: A) hr).next_eq
          have hr' : LinkedRing b.nextEntry b.prevEntry (h :: ((A ++ [y]) ++ s)) := by
            simpa using hr
          have hfuel' : s.length < fuel := by omega
          simpa [searchTarget, hne, hy, hnext] using ih hr' hfuel'

theorem findTarget_ring (hr : LinkedRing b.nextEntry b.prevEntry (h :: t))
    (hsize : t.length < b.ordersAtPricePool.size) (new : MEOrdersAtPrice) :
    b.findTarget new (some h) =
      .ok (if addAfter new (b.level h) then
        match t.dropWhile (fun a => addAfter new (b.level a)) with
        | [] => (some h, true)
        | y :: _ => (some y, false)
      else (some h, false)) := by
  obtain ⟨size, hs⟩ : ∃ n, b.ordersAtPricePool.size = n + 1 :=
    ⟨b.ordersAtPricePool.size - 1, by omega⟩
  cases hh : addAfter new (b.level h) with
  | false => simp [findTarget, hh, hs, searchTarget]
  | true =>
      have hnext : (b.level h).nextEntry = (t ++ [h]).head? := by
        cases t with
        | nil => exact hr.rel_single.next_eq
        | cons y t => exact (Cyclic.rel (A := []) hr).next_eq
      have hsearch : b.searchTarget new (some h) b.ordersAtPricePool.size
          (t ++ [h]).head? true = _ := searchTarget_ring (A := []) hr hsize
      cases t with
      | nil =>
          rw [List.nil_append, List.head?_cons] at hnext hsearch
          simp [findTarget, hh, hnext, hsearch]
      | cons y t =>
          rw [List.cons_append, List.head?_cons] at hnext hsearch
          cases hy : addAfter new (b.level y) with
          | true => simp [findTarget, hh, hnext, hsearch, hy]
          | false => simp [findTarget, hh, hnext, hy, hs, searchTarget]

end Search

/-! ### Joining the ring -/

theorem linkEntry_ring {b : MEOrderBook} {a p t : Addr} (ha : b.prevEntry t = some a)
    (hpt : p ≠ t) (hpa : p ≠ a) :
    ∃ b', b.linkEntry p (some t) = .ok b' ∧
      Spliced b.nextEntry b.prevEntry b'.nextEntry b'.prevEntry a p t ∧
      (∀ c, c ≠ p → c ≠ a → c ≠ t → b'.level c = b.level c) ∧
      b'.bidsByPrice = b.bidsByPrice ∧ b'.asksByPrice = b.asksByPrice := by
  have hprev : (b.level t).prevEntry = some a := ha
  have hrun : ∃ b', b.linkEntry p (some t) = .ok b' := by
    simp [linkEntry, hprev, hpt.symm]
  obtain ⟨b', hb'⟩ := hrun
  refine ⟨b', hb', ?_⟩
  simp only [linkEntry, MemPool.read_some, object_ordersAtPricePool, ok_bind,
    modifyLevel_some, level_setLevel, hprev, hpt.symm, if_false, Except.ok.injEq] at hb'
  subst hb'
  refine ⟨⟨?_, ?_, ?_, ?_, ?_, ?_⟩, ?_, rfl, rfl⟩
  · simp [nextEntry, hpt, hpa]
  · simp [prevEntry, hpt, hpa]
  · by_cases hat : a = t <;> simp [nextEntry, hat]
  · simp [prevEntry]
  · intro y hyp hya
    by_cases hyt : y = t
    · subst hyt
      simp [nextEntry, hya]
    · simp [nextEntry, hyp, hya, hyt]
  · intro y hyp hyt
    by_cases hya : y = a
    · subst hya
      simp [prevEntry, hyp, hyt]
    · simp [prevEntry, hyp, hya, hyt]
  · intro c hcp hca hct
    simp [hcp, hca, hct]

/-- The test that sends the new level behind a member of the ring. -/
def after (b : MEOrderBook) (p a : Addr) : Bool := addAfter (b.level p) (b.level a)

/-- What joining the level `p` to a side with the ring `l` does. -/
structure Joined (b b' : MEOrderBook) (p : Addr) (l : List Addr) : Prop where
  frame : LinkFrame b b'
  bids : b'.bidsByPrice = b.bidsByPrice
  asks : b'.asksByPrice = b.asksByPrice
  ring : LinkedRing b'.nextEntry b'.prevEntry (placeAmong (b.after p) p l)
  level : ∀ a, a ≠ p → a ∉ l → b'.level a = b.level a

/-- Linking in front of the member `t` of the ring of a side. In front of the
head is the same place as behind the last member. -/
theorem linkEntry_joined {b : MEOrderBook} {p t : Addr} {A B : List Addr}
    (hr : LinkedRing b.nextEntry b.prevEntry (A ++ t :: B)) (hp : p ∉ A ++ t :: B)
    (hplace : placeAmong (b.after p) p (A ++ t :: B) = A ++ p :: t :: B ∨
      A = [] ∧ placeAmong (b.after p) p (A ++ t :: B) = t :: B ++ [p]) :
    ∃ b', b.linkEntry p (some t) = .ok b' ∧ Joined b b' p (A ++ t :: B) := by
  have ht : t ∈ A ++ t :: B := by simp
  obtain ⟨a, ha, hprev⟩ := hr.prev_mem ht
  have hpt : p ≠ t := fun h => hp (h ▸ ht)
  have hpa : p ≠ a := fun h => hp (h ▸ ha)
  obtain ⟨b', hrun, hs, hlevel, hbids, hasks⟩ := linkEntry_ring hprev hpt hpa
  refine ⟨b', hrun, linkEntry_frame hrun, hbids, hasks, ?_, ?_⟩
  · have hring := hr.splice hs hp hprev
    rcases hplace with hplace | ⟨rfl, hplace⟩
    · rwa [hplace]
    · rw [hplace]
      exact Cyclic.rotate (A := [p]) hring
  · intro c hcp hc
    exact hlevel c hcp (fun h => hc (h ▸ ha)) (fun h => hc (h ▸ ht))

/-- A level that goes in front of a member it does not belong behind: the
second half of `joinSide` finds the head as it should be. -/
theorem joinSide_front {b : MEOrderBook} {p t h : Addr} {A B : List Addr}
    (hr : LinkedRing b.nextEntry b.prevEntry (A ++ t :: B)) (hp : p ∉ A ++ t :: B)
    (hplace : placeAmong (b.after p) p (A ++ t :: B) = A ++ p :: t :: B ∨
      A = [] ∧ placeAmong (b.after p) p (A ++ t :: B) = t :: B ++ [p])
    (hfind : b.findTarget (b.level p) (some h) = .ok (some t, false))
    (ht : b.after p t = false) :
    ∃ b', b.joinSide p (some h) = .ok b' ∧ Joined b b' p (A ++ t :: B) := by
  obtain ⟨b', hrun, hjoin⟩ := linkEntry_joined hr hp hplace
  have ht' : addAfter (b.level p) (b'.level t) = false := by
    rw [← ht, after]
    simp [addAfter, hjoin.frame.price]
  refine ⟨b', ?_, hjoin⟩
  simp [joinSide, hfind, hrun, ht']

/-- **Joining a side.** On a well-formed ring the search ends, and the new
level is spliced in at its place. -/
theorem joinSide_ring {b : MEOrderBook} {p h : Addr} {t : List Addr}
    (hr : LinkedRing b.nextEntry b.prevEntry (h :: t)) (hp : p ∉ h :: t)
    (hsize : t.length < b.ordersAtPricePool.size) :
    ∃ b', b.joinSide p (some h) = .ok b' ∧ Joined b b' p (h :: t) := by
  have hfind := findTarget_ring (b := b) hr hsize (b.level p)
  cases hh : b.after p h with
  | false =>
      have hh' : addAfter (b.level p) (b.level h) = false := hh
      rw [hh'] at hfind
      exact joinSide_front (A := []) hr hp (.inr ⟨rfl, placeAmong_behind hh⟩) hfind hh
  | true =>
      have hh' : addAfter (b.level p) (b.level h) = true := hh
      rw [hh', if_pos rfl] at hfind
      cases ht : t.dropWhile (b.after p) with
      | cons y s =>
          have hsplit : h :: t = (h :: t.takeWhile (b.after p)) ++ y :: s := by
            rw [List.cons_append, ← ht, List.takeWhile_append_dropWhile]
          have hy : b.after p y = false := by
            have := List.head?_dropWhile_not (b.after p) t
            simpa [ht] using this
          have hplace := placeAmong_stop (x := p) hh ht
          change t.dropWhile (fun a => addAfter (b.level p) (b.level a)) = y :: s at ht
          rw [ht] at hfind
          rw [hsplit] at hr hp hplace ⊢
          exact joinSide_front hr hp (.inl hplace) hfind hy
      | nil =>
          have hplace := placeAmong_round (x := p) hh ht
          change t.dropWhile (fun a => addAfter (b.level p) (b.level a)) = [] at ht
          rw [ht] at hfind
          -- the ring is left in front of its last level
          rcases List.eq_nil_or_concat' t with rfl | ⟨m, z, rfl⟩
          · have hprev : (b.level h).prevEntry = some h := hr.rel_single.prev_eq
            obtain ⟨b', hrun, hjoin⟩ := linkEntry_joined (A := []) hr hp (.inr ⟨rfl, hplace⟩)
            exact ⟨b', by simp [joinSide, hfind, hprev, hrun], hjoin⟩
          · have hclose : Link b.nextEntry b.prevEntry z h := Cyclic.rel_closing (A := m) hr
            have hprev : (b.level h).prevEntry = some z := hclose.prev_eq
            obtain ⟨b', hrun, hjoin⟩ := linkEntry_joined (A := h :: m) hr hp
              (.inl (by simpa using hplace))
            exact ⟨b', by simp [joinSide, hfind, hprev, hrun], hjoin⟩

/-! ### `addOrderAtPrice` -/

/-- The head the code uses for the side of a level. -/
def sideHead (b : MEOrderBook) (side : Side) : Ptr :=
  if side = .buy then b.bidsByPrice else b.asksByPrice

/-- What `addOrderAtPrice` does with the level `p` when the levels of its side
are the ring `l`. -/
structure LevelAdded (b b' : MEOrderBook) (p : Addr) (l : List Addr) : Prop where
  frame : LinkFrame (b.setSlot p) b'
  bids : b'.bidsByPrice = b.bidsByPrice
  asks : b'.asksByPrice =
    if (b.level p).side = .buy then b.asksByPrice else some (b.asksByPrice.getD p)
  ring : LinkedRing b'.nextEntry b'.prevEntry (placeAmong (b.after p) p l)
  level : ∀ a, a ≠ p → a ∉ l → b'.level a = b.level a

theorem openSide_ring (b : MEOrderBook) (p : Addr) :
    ∃ b', b.openSide p = .ok b' ∧ b'.bidsByPrice = b.bidsByPrice ∧
      b'.asksByPrice = (if (b.level p).side = .buy then b.asksByPrice else some p) ∧
      LinkedRing b'.nextEntry b'.prevEntry [p] ∧ ∀ a, a ≠ p → b'.level a = b.level a := by
  have hrun : ∃ b', b.openSide p = .ok b' := by simp [openSide]
  obtain ⟨b', hb'⟩ := hrun
  refine ⟨b', hb', ?_⟩
  have hb := hb'
  simp only [openSide, modifyLevel_some, ok_bind, Except.ok.injEq] at hb
  subst hb
  refine ⟨?_, ?_, Cyclic.single ⟨?_, ?_⟩, ?_⟩
  · by_cases hs : (b.level p).side = .buy <;> simp [hs]
  · by_cases hs : (b.level p).side = .buy <;> simp [hs]
  · simp [nextEntry]
  · simp [prevEntry]
  · intro a ha
    by_cases hs : (b.level p).side = .buy
    · simp [hs, ha]
    · simp only [hs, if_false, level_setLevel, ha]
      rfl

theorem addOrderAtPrice_open {b : MEOrderBook} {p : Addr}
    (hprice : (b.level p).price.toNat < meMaxPriceLevels)
    (hhead : b.sideHead (b.level p).side = none) :
    b.addOrderAtPrice p = (b.setSlot p).openSide p := by
  simp only [addOrderAtPrice, arraySet, hprice, if_true, ok_bind]
  split
  · rfl
  · rename_i h hsome
    exact absurd (hhead.symm.trans hsome) (Option.some_ne_none h).symm

theorem addOrderAtPrice_join {b : MEOrderBook} {p h : Addr}
    (hprice : (b.level p).price.toNat < meMaxPriceLevels)
    (hhead : b.sideHead (b.level p).side = some h) :
    b.addOrderAtPrice p = (b.setSlot p).joinSide p (some h) := by
  simp only [addOrderAtPrice, arraySet, hprice, if_true, ok_bind]
  split
  · rename_i hnone
    exact absurd (hhead.symm.trans hnone) (Option.some_ne_none h)
  · exact congrArg ((b.setSlot p).joinSide p) hhead

/-- **A new level.** On a well-formed side `addOrderAtPrice` returns. -/
theorem addOrderAtPrice_ring {b : MEOrderBook} {p : Addr} {l : List Addr}
    (hprice : (b.level p).price.toNat < meMaxPriceLevels)
    (hr : LinkedRing b.nextEntry b.prevEntry l) (hhead : b.sideHead (b.level p).side = l.head?)
    (hp : p ∉ l) (hsize : l.length ≤ b.ordersAtPricePool.size) :
    ∃ b', b.addOrderAtPrice p = .ok b' ∧ LevelAdded b b' p l := by
  cases l with
  | nil =>
      rw [List.head?_nil] at hhead
      have hstart := addOrderAtPrice_open hprice hhead
      obtain ⟨b', hrun, hbids, hasks, hring, hlevel⟩ := openSide_ring (b.setSlot p) p
      refine ⟨b', hstart.trans hrun, openSide_frame hrun, hbids, ?_, hring,
        fun a ha _ => hlevel a ha⟩
      rw [hasks]
      show (if (b.level p).side = .buy then b.asksByPrice else some p) = _
      by_cases hs : (b.level p).side = .buy
      · rw [if_pos hs, if_pos hs]
      · simp only [sideHead, hs, if_false] at hhead
        rw [if_neg hs, if_neg hs, hhead]
        rfl
  | cons h t =>
      rw [List.head?_cons] at hhead
      have hstart := addOrderAtPrice_join hprice hhead
      have hsize' : t.length < (b.setSlot p).ordersAtPricePool.size := hsize
      obtain ⟨b', hrun, hjoin⟩ := joinSide_ring (b := b.setSlot p) hr hp hsize'
      refine ⟨b', hstart.trans hrun, hjoin.frame, hjoin.bids, ?_, hjoin.ring, hjoin.level⟩
      rw [hjoin.asks]
      show b.asksByPrice = _
      by_cases hs : (b.level p).side = .buy
      · rw [if_pos hs]
      · simp only [sideHead, hs, if_false] at hhead
        rw [if_neg hs, hhead]
        rfl

end MEOrderBook

end LowLatency.Exchange
