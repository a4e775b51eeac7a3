import LowLatency.Exchange.Levels

/-!
The best price over runs of new levels.

The prices along the ring of `asks_by_price_`, read from its head, are a
function of the sell prices in the order they arrived: `askLadder`. It starts
with the first arrival and never moves it, so the head is the best price only
if the first price was.
-/

namespace LowLatency.Exchange

open LowLatency.Lib LowLatency.Common

namespace MEOrderBook

def placeLevels (b : MEOrderBook) (ls : List MEOrdersAtPrice) : Exec MEOrderBook :=
  ls.foldlM placeLevel b

/-! ### The ladder of sell prices -/

/-- The sell prices among some levels, in their order. -/
def sellPrices (ls : List MEOrdersAtPrice) : List ℕ :=
  (ls.filter (·.side = .sell)).map (·.price.toNat)

/-- A sell level of price `x` joins a ring with the prices `r`. -/
def joinPrice (r : List ℕ) (x : ℕ) : List ℕ := placeAmong (fun q => decide (q < x)) x r

/-- The prices along the ring of asks after the sell levels with the prices
`xs` have arrived. -/
def askLadder (xs : List ℕ) : List ℕ := xs.foldl joinPrice []

theorem askLadder_snoc (xs : List ℕ) (x : ℕ) :
    askLadder (xs ++ [x]) = joinPrice (askLadder xs) x := by
  simp [askLadder]

theorem askLadder_perm (xs : List ℕ) : (askLadder xs).Perm xs := by
  induction xs using List.reverseRecOn with
  | nil => exact .refl _
  | append_singleton xs x ih =>
      rw [askLadder_snoc]
      exact ((placeAmong_perm _ _ _).trans (ih.cons x)).trans
        (List.perm_append_singleton x xs).symm

/-- The ladder starts with the first arrival, whatever came after. -/
theorem head?_askLadder (xs : List ℕ) : (askLadder xs).head? = xs.head? := by
  induction xs using List.reverseRecOn with
  | nil => rfl
  | append_singleton xs x ih =>
      rw [askLadder_snoc, joinPrice, head?_placeAmong, ih]
      cases xs <;> rfl

/-! ### The invariant of a run -/

/-- The book after a run of levels with the history `added`. -/
structure LadderRep (b : MEOrderBook) (added : List MEOrdersAtPrice) (asks : List Addr) :
    Prop where
  levels : LevelsRep b asks
  slots : ∀ i < meMaxPriceLevels, b.priceOrdersAtPrice i ≠ none →
    ∃ l ∈ added, l.price.toNat = i
  sides : ∀ a, b.InTable a → ∃ l ∈ added, l.side = (b.level a).side ∧
    l.price = (b.level a).price
  prices : asks.map (fun a => (b.level a).price.toNat) = askLadder (sellPrices added)

theorem LadderRep.start {b : MEOrderBook} (h : b.Empty) : LadderRep b [] [] where
  levels := h.levelsRep
  slots i hi hne := absurd (h.priceOrdersAtPrice i hi) hne
  sides a ha := by
    obtain ⟨i, hi, ha⟩ := ha
    rw [h.priceOrdersAtPrice i hi] at ha
    contradiction
  prices := rfl

theorem LadderRep.slot_eq_none {b : MEOrderBook} {added : List MEOrdersAtPrice}
    {asks : List Addr} (h : LadderRep b added asks) {l : MEOrdersAtPrice}
    (hprice : l.price.toNat < meMaxPriceLevels) (hnew : ∀ k ∈ added, k.price ≠ l.price) :
    b.priceOrdersAtPrice l.price.toNat = none := by
  by_contra hne
  obtain ⟨k, hk, hkl⟩ := h.slots _ hprice hne
  exact hnew k hk (UInt64.toNat_inj.mp hkl)

theorem LadderRep.prices_asksWith {b b' : MEOrderBook} {added : List MEOrdersAtPrice}
    {asks : List Addr} (h : LadderRep b added asks) {l : MEOrdersAtPrice} {p : Addr}
    (hf : LevelFrame b b' l p) (hside : l.side = .buy ∨ l.side = .sell) :
    (b'.asksWith p asks).map (fun a => (b'.level a).price.toNat) =
      askLadder (sellPrices (added ++ [l])) := by
  have hsame : asks.map (fun a => (b'.level a).price.toNat) =
      asks.map (fun a => (b.level a).price.toNat) := by
    refine List.map_congr_left fun a ha => ?_
    have hap := h.levels.fresh hf ((h.levels.mem_asks a).mp ha).1
    rw [hf.price, if_neg hap]
  have hls : (b'.level p).side = l.side := by rw [hf.side, if_pos rfl]
  have hlp : (b'.level p).price = l.price := by rw [hf.price, if_pos rfl]
  rcases hside with hbuy | hsell
  · rw [asksWith, hls, if_pos hbuy, hsame, h.prices]
    simp [sellPrices, hbuy]
  · have hafter : b'.after p =
        (fun q => decide (q < l.price.toNat)) ∘ fun a => (b'.level a).price.toNat := by
      ext a
      simp [after, addAfter, hls, hlp, hsell, UInt64.lt_iff_toNat_lt]
    have hne : l.side ≠ .buy := by simp [hsell]
    rw [asksWith, hls, if_neg hne, hafter, map_placeAmong, hlp, hsame, h.prices]
    have hprices : sellPrices (added ++ [l]) = sellPrices added ++ [l.price.toNat] := by
      simp [sellPrices, hsell]
    rw [hprices, askLadder_snoc, joinPrice]

theorem LadderRep.step {b b' : MEOrderBook} {added : List MEOrdersAtPrice}
    {asks : List Addr} (h : LadderRep b added asks) {l : MEOrdersAtPrice}
    (hside : l.side = .buy ∨ l.side = .sell)
    (hnew : ∀ k ∈ added, k.price ≠ l.price) (hok : b.placeLevel l = .ok b') :
    ∃ asks', LadderRep b' (added ++ [l]) asks' := by
  have hslot : b.priceOrdersAtPrice l.price.toNat = none := by
    obtain ⟨p, hf⟩ := placeLevel_frame hok
    exact h.slot_eq_none hf.price_lt hnew
  obtain ⟨p, hf, hrep⟩ := h.levels.place hslot hok
  refine ⟨_, hrep, ?_, ?_, h.prices_asksWith hf hside⟩
  · intro i hi hne
    rw [hf.slots] at hne
    by_cases hil : i = l.price.toNat
    · exact ⟨l, by simp, hil.symm⟩
    · rw [Function.update_of_ne hil] at hne
      obtain ⟨k, hk, hki⟩ := h.slots i hi hne
      exact ⟨k, by simp [hk], hki⟩
  · intro a ha
    rw [hf.side, hf.price]
    rcases (hf.inTable_iff hslot a).mp ha with rfl | ha
    · exact ⟨l, by simp, by simp, by simp⟩
    · have hap := h.levels.fresh hf ha
      obtain ⟨k, hk, hks, hkp⟩ := h.sides a ha
      exact ⟨k, by simp [hk], by simp [hap, hks], by simp [hap, hkp]⟩

theorem price_ne_of_snoc {ls pre : List MEOrdersAtPrice} {l : MEOrdersAtPrice}
    (hdistinct : (ls.map (·.price)).Nodup) (hpre : pre ++ [l] <+: ls) :
    ∀ k ∈ pre, k.price ≠ l.price := by
  intro k hk heq
  have hnd : ((pre ++ [l]).map (·.price)).Nodup := hdistinct.sublist (hpre.sublist.map _)
  rw [List.map_append, List.nodup_append] at hnd
  exact hnd.2.2 k.price (List.mem_map_of_mem hk) l.price (by simp) heq

theorem ladderRep_of_run {b₀ b : MEOrderBook} {ls : List MEOrdersAtPrice} (h0 : b₀.Empty)
    (hside : ∀ l ∈ ls, l.side = .buy ∨ l.side = .sell)
    (hdistinct : (ls.map (·.price)).Nodup) (hrun : b₀.placeLevels ls = .ok b) :
    ∃ asks, LadderRep b ls asks := by
  refine run_invariant (fun added b => ∃ asks, LadderRep b added asks) ⟨[], .start h0⟩ ?_ hrun
  rintro pre l t t' hpre ⟨asks, hrep⟩ hok
  have hl : l ∈ ls := hpre.subset (by simp)
  exact hrep.step (hside l hl) (price_ne_of_snoc hdistinct hpre) hok

/-- The search along the ring always ends: a run of levels at distinct prices of
the table completes, or the pool of levels is out of space. -/
theorem placeLevels_total {b₀ : MEOrderBook} {ls : List MEOrdersAtPrice} (h0 : b₀.Empty)
    (hready : b₀.ordersAtPricePool.Ready) (hside : ∀ l ∈ ls, l.side = .buy ∨ l.side = .sell)
    (hprice : ∀ l ∈ ls, l.price.toNat < meMaxPriceLevels)
    (hdistinct : (ls.map (·.price)).Nodup) :
    (∃ b, b₀.placeLevels ls = .ok b) ∨ b₀.placeLevels ls = .error MemPool.outOfSpace := by
  have htotal := run_total placeLevel b₀ ls (· = MemPool.outOfSpace)
    (fun added b => (∃ asks, LadderRep b added asks) ∧ b.ordersAtPricePool.Ready)
    ⟨⟨[], .start h0⟩, hready⟩ ?_
  · exact htotal.imp (fun ⟨b, hrun, _⟩ => ⟨b, hrun⟩) fun ⟨_, he, hrun⟩ => he ▸ hrun
  · rintro pre l t hpre ⟨⟨asks, hrep⟩, hrdy⟩
    have hl : l ∈ ls := hpre.subset (by simp)
    have hnew := price_ne_of_snoc hdistinct hpre
    have hslot := hrep.slot_eq_none (hprice l hl) hnew
    rcases hrep.levels.place_total hrdy (hprice l hl) hslot with ⟨t', hok⟩ | ⟨-, herror⟩
    · obtain ⟨p, hf⟩ := placeLevel_frame hok
      exact .inl ⟨t', hok, hrep.step (hside l hl) hnew hok, hf.ready⟩
    · exact .inr ⟨_, rfl, herror⟩

/-! ### The head -/

/-- When levels of the side `side` have been added, `head` leads to the one
whose price is no worse than any of theirs. -/
def BestOf (b : MEOrderBook) (head : Ptr) (side : Side) (noWorse : Price → Price → Prop)
    (added : List MEOrdersAtPrice) : Prop :=
  (∃ l ∈ added, l.side = side) →
    ∃ a, head = some a ∧ b.InTable a ∧ (b.level a).side = side ∧
      (∃ l ∈ added, l.side = side ∧ l.price = (b.level a).price) ∧
      ∀ l ∈ added, l.side = side → noWorse (b.level a).price l.price

def BestAtHead (b : MEOrderBook) (added : List MEOrdersAtPrice) : Prop :=
  BestOf b b.asksByPrice .sell (· ≤ ·) added ∧ BestOf b b.bidsByPrice .buy (· ≥ ·) added

theorem LadderRep.head {b : MEOrderBook} {added : List MEOrdersAtPrice} {asks : List Addr}
    (h : LadderRep b added asks) :
    b.asksByPrice.map (fun a => (b.level a).price.toNat) = (sellPrices added).head? := by
  rw [h.levels.asksHead, ← List.head?_map, h.prices, head?_askLadder]

theorem LadderRep.bestOf_bids {b : MEOrderBook} {added : List MEOrdersAtPrice}
    {asks : List Addr} (h : LadderRep b added asks) (noWorse : Price → Price → Prop) :
    BestOf b b.bidsByPrice .buy noWorse added ↔ ∀ l ∈ added, l.side ≠ .buy := by
  constructor
  · intro hbest l hl hbuy
    obtain ⟨a, ha, -⟩ := hbest ⟨l, hl, hbuy⟩
    rw [h.levels.bids] at ha
    contradiction
  · rintro hnone ⟨l, hl, hbuy⟩
    exact absurd hbuy (hnone l hl)

theorem mem_sellPrices {ls : List MEOrdersAtPrice} {x : ℕ} :
    x ∈ sellPrices ls ↔ ∃ l ∈ ls, l.side = .sell ∧ l.price.toNat = x := by
  simp [sellPrices, and_assoc]

theorem LadderRep.bestOf_asks {b : MEOrderBook} {added : List MEOrdersAtPrice}
    {asks : List Addr} (h : LadderRep b added asks)
    (hside : ∀ l ∈ added, l.side = .buy ∨ l.side = .sell) :
    BestOf b b.asksByPrice .sell (· ≤ ·) added ↔
      ∀ first ∈ (sellPrices added).head?, ∀ x ∈ sellPrices added, first ≤ x := by
  constructor
  · intro hbest first hfirst x hx
    obtain ⟨l, hl, hsell, rfl⟩ := mem_sellPrices.mp hx
    obtain ⟨a, ha, -, -, -, hle⟩ := hbest ⟨l, hl, hsell⟩
    have hhead := h.head
    rw [ha, Option.map_some, hfirst, Option.some.injEq] at hhead
    rw [← hhead]
    exact UInt64.le_iff_toNat_le.mp (hle l hl hsell)
  · rintro hmin ⟨l, hl, hsell⟩
    have hx : l.price.toNat ∈ sellPrices added := mem_sellPrices.mpr ⟨l, hl, hsell, rfl⟩
    obtain ⟨first, rest, hprices⟩ := List.exists_cons_of_ne_nil (List.ne_nil_of_mem hx)
    have hhead := h.head
    rw [hprices, List.head?_cons, Option.map_eq_some_iff] at hhead
    obtain ⟨a, ha, hprice⟩ := hhead
    have hmem : a ∈ asks := List.mem_of_mem_head? (h.levels.asksHead ▸ ha)
    obtain ⟨htable, hbuy⟩ := (h.levels.mem_asks a).mp hmem
    obtain ⟨k, hk, hkside, hkprice⟩ := h.sides a htable
    have hksell : k.side = .sell := by
      rcases hside k hk with hk' | hk'
      · exact absurd (hkside ▸ hk') hbuy
      · exact hk'
    refine ⟨a, ha, htable, hkside ▸ hksell, ⟨k, hk, hksell, hkprice⟩, ?_⟩
    intro m hm hmsell
    have hle := hmin first (by simp [hprices]) _ (mem_sellPrices.mpr ⟨m, hm, hmsell, rfl⟩)
    exact UInt64.le_iff_toNat_le.mpr (hprice ▸ hle)

theorem sellPrices_of_all_sell {ls : List MEOrdersAtPrice} (h : ∀ l ∈ ls, l.side = .sell) :
    sellPrices ls = ls.map (·.price.toNat) := by
  rw [sellPrices, List.filter_eq_self.mpr]
  simpa using h

/-- **The best price is at the head** after every step of a run exactly when
the run has sell levels only and the first of them is the cheapest. -/
theorem bestAtHead_iff {b₀ b : MEOrderBook} {ls : List MEOrdersAtPrice} (h0 : b₀.Empty)
    (hside : ∀ l ∈ ls, l.side = .buy ∨ l.side = .sell)
    (hdistinct : (ls.map (·.price)).Nodup) (hrun : b₀.placeLevels ls = .ok b) :
    (∀ pre, pre <+: ls → ∀ bp, b₀.placeLevels pre = .ok bp → BestAtHead bp pre) ↔
      (∀ l ∈ ls, l.side = .sell) ∧ ∀ first ∈ ls.head?, ∀ l ∈ ls, first.price ≤ l.price := by
  have hrep : ∀ pre, pre <+: ls → ∀ bp, b₀.placeLevels pre = .ok bp →
      ∃ asks, LadderRep bp pre asks := fun pre hpre bp hbp =>
    ladderRep_of_run h0 (fun l hl => hside l (hpre.subset hl))
      (hdistinct.sublist (hpre.sublist.map _)) hbp
  constructor
  · intro hbest
    obtain ⟨asks, h⟩ := hrep ls (List.prefix_refl ls) b hrun
    obtain ⟨hasks, hbids⟩ := hbest ls (List.prefix_refl ls) b hrun
    have hall : ∀ l ∈ ls, l.side = .sell := fun l hl =>
      (hside l hl).resolve_left ((h.bestOf_bids _).mp hbids l hl)
    refine ⟨hall, fun first hfirst l hl => ?_⟩
    have hmin := (h.bestOf_asks hside).mp hasks
    rw [sellPrices_of_all_sell hall] at hmin
    have hle := hmin first.price.toNat (by simp [List.head?_map, Option.mem_def.mp hfirst])
      l.price.toNat (List.mem_map_of_mem hl)
    exact UInt64.le_iff_toNat_le.mpr hle
  · rintro ⟨hall, hmin⟩ pre hpre bp hbp
    obtain ⟨asks, h⟩ := hrep pre hpre bp hbp
    have hpall : ∀ l ∈ pre, l.side = .sell := fun l hl => hall l (hpre.subset hl)
    refine ⟨(h.bestOf_asks fun l hl => .inr (hpall l hl)).mpr ?_,
      (h.bestOf_bids _).mpr fun l hl => by simp [hpall l hl]⟩
    rw [sellPrices_of_all_sell hpall]
    intro first hfirst x hx
    obtain ⟨l, hl, rfl⟩ := List.mem_map.mp hx
    rw [List.head?_map, Option.mem_def, Option.map_eq_some_iff] at hfirst
    obtain ⟨k, hk, rfl⟩ := hfirst
    have hkls : k ∈ ls.head? := by
      obtain ⟨rest, rfl⟩ := hpre
      simp [List.head?_append, hk]
    exact UInt64.le_iff_toNat_le.mp (hmin k hkls l (hpre.subset hl))

theorem bestAtHead_iff_three :
    ∃ b, (construct .zero 0).placeLevels
        [⟨5, .sell, none, none, none⟩, ⟨9, .sell, none, none, none⟩,
          ⟨7, .sell, none, none, none⟩] = .ok b ∧
      BestAtHead b [⟨5, .sell, none, none, none⟩, ⟨9, .sell, none, none, none⟩,
        ⟨7, .sell, none, none, none⟩] := by
  obtain ⟨b, hrun, -⟩ := exists_of_succeedsWith (p := fun _ => true)
    (x := (construct .zero 0).placeLevels
      [⟨5, .sell, none, none, none⟩, ⟨9, .sell, none, none, none⟩,
        ⟨7, .sell, none, none, none⟩]) (by decide +kernel)
  refine ⟨b, hrun, ?_⟩
  exact (bestAtHead_iff (empty_construct 0) (by decide) (by decide) hrun).mpr
    (by decide) _ (List.prefix_refl _) b hrun

/-- A sell level at 5 after one at 10 leaves 10 at the head, and a buy level
leaves the head of its side null. -/
theorem best_not_at_head :
    (∃ b, (construct .zero 0).placeLevels
        [⟨10, .sell, none, none, none⟩, ⟨5, .sell, none, none, none⟩] = .ok b ∧
      ¬ BestAtHead b [⟨10, .sell, none, none, none⟩, ⟨5, .sell, none, none, none⟩]) ∧
    ∃ b, (construct .zero 0).placeLevels [⟨10, .buy, none, none, none⟩] = .ok b ∧
      ¬ BestAtHead b [⟨10, .buy, none, none, none⟩] := by
  constructor
  · obtain ⟨b, hrun, hhead⟩ := exists_of_succeedsWith
      (p := fun b => b.asksByPrice.map (fun a => (b.level a).price) = some 10)
      (x := (construct .zero 0).placeLevels
        [⟨10, .sell, none, none, none⟩, ⟨5, .sell, none, none, none⟩]) (by decide +kernel)
    refine ⟨b, hrun, fun h => ?_⟩
    obtain ⟨a, ha, -, -, -, hle⟩ := h.1 ⟨_, List.mem_cons_self, rfl⟩
    have hprice : (b.level a).price = 10 := by simpa [ha] using hhead
    have h10 := hle ⟨5, .sell, none, none, none⟩ (by simp) rfl
    rw [hprice] at h10
    contradiction
  · obtain ⟨b, hrun, hhead⟩ := exists_of_succeedsWith
      (p := fun b => b.bidsByPrice = none)
      (x := (construct .zero 0).placeLevels [⟨10, .buy, none, none, none⟩])
      (by decide +kernel)
    refine ⟨b, hrun, fun h => ?_⟩
    obtain ⟨a, ha, -⟩ := h.2 ⟨_, List.mem_cons_self, rfl⟩
    have hnone : b.bidsByPrice = none := by simpa using hhead
    rw [hnone] at ha
    contradiction

end MEOrderBook

end LowLatency.Exchange
