import LowLatency.Lib.CyclicOrder
import LowLatency.Exchange.BestPrice
import Mathlib.Data.List.TakeWhile

/-!
Price order around the ring of one side.

The ring of asks stays in cyclic price order as long as every arrival is
`InPlace`. The search stops at the right level for a price with a dearer one
ahead. Without one it goes all the way round and steps one level too far back,
and the levels cheaper than the head come out in the order they arrived.
-/

namespace LowLatency.Exchange

open LowLatency.Lib LowLatency.Common

namespace MEOrderBook

/-- The price `x` arrives at a place where the ring of the earlier prices is
not disturbed: below the first price and above all others below it; or above
the first and below some other; or as the second price of all; or above all
of them when exactly one is below the first. -/
def InPlace : List ℕ → ℕ → Prop
  | [], _ => True
  | first :: rest, x =>
      if x < first then ∀ q ∈ rest, q < first → q < x
      else (∃ q ∈ rest, x < q) ∨ (rest.filter (· < first)).length = 1 ∨ rest = []

instance : ∀ xs x, Decidable (InPlace xs x)
  | [], _ => inferInstanceAs (Decidable True)
  | first :: _, x => inferInstanceAs (Decidable (if x < first then _ else _))

theorem InPlace.congr {first x : ℕ} {rest rest' : List ℕ} (h : rest.Perm rest') :
    InPlace (first :: rest) x ↔ InPlace (first :: rest') x := by
  have hlen := (h.filter (· < first)).length_eq
  have hnil : rest = [] ↔ rest' = [] := ⟨fun e => by simpa [e] using h,
    fun e => by simpa [e] using h⟩
  simp only [InPlace, h.mem_iff, hlen, hnil]

section Join

variable {p x : ℕ} {l : List ℕ}

theorem rotSorted_join_below (hs : RotSorted (p :: l)) (hxp : x < p) :
    RotSorted (p :: (l ++ [x])) ↔ ∀ q ∈ l, q < p → q < x := by
  obtain ⟨U, L, rfl, hUL⟩ := rotSorted_cons_iff.mp hs
  obtain ⟨hpU, hLp, hU, hL⟩ := lt_of_mem_rot hUL
  rw [rotSorted_cons_iff]
  constructor
  · rintro ⟨U', L', hsplit, hUL'⟩ q hq hqp
    obtain ⟨hpU', hLp', -, hL'⟩ := lt_of_mem_rot hUL'
    have hx : x ∈ U' ++ L' := hsplit ▸ (by simp)
    have hxL' : x ∈ L' := (List.mem_append.mp hx).resolve_left fun h => by
      have := hpU' x h
      omega
    -- `x` is the last element of the turn
    obtain ⟨m, z, rfl⟩ : ∃ m z, L' = m ++ [z] :=
      ⟨_, _, (List.dropLast_append_getLast (List.ne_nil_of_mem hxL')).symm⟩
    rw [← List.append_assoc] at hsplit
    obtain ⟨hsame, hlast⟩ := List.append_inj' hsplit rfl
    obtain rfl : x = z := List.singleton_inj.mp hlast
    have hqm : q ∈ m := (List.mem_append.mp (hsame ▸ hq)).resolve_left fun h => by
      have := hpU' q h
      omega
    exact (List.pairwise_append.mp hL').2.2 q hqm x (by simp)
  · intro hlast
    have hbelow : ∀ q ∈ L, q < x := fun q hq => hlast q (by simp [hq]) (hLp q hq)
    refine ⟨U, L ++ [x], by simp, pairwise_rot hpU ?_ hU (pairwise_concat hL hbelow)⟩
    intro q hq
    rcases List.mem_append.mp hq with hq | hq
    · exact hLp q hq
    · exact List.mem_singleton.mp hq ▸ hxp

/-- A price above the head with a dearer one in the ring stops in front of the
first such. -/
theorem rotSorted_join_stop (hs : RotSorted (p :: l)) (hpx : p < x) (hx : x ∉ l)
    {y : ℕ} {s : List ℕ} (hdrop : l.dropWhile (fun q => decide (q < x)) = y :: s) :
    RotSorted (p :: (l.takeWhile (fun q => decide (q < x)) ++ x :: y :: s)) := by
  have hl : l.takeWhile (fun q => decide (q < x)) ++ y :: s = l := by
    rw [← hdrop, List.takeWhile_append_dropWhile]
  have hxy : x < y := by
    have hstop := List.head?_dropWhile_not (fun q => decide (q < x)) l
    simp only [hdrop, List.head?_cons, decide_eq_false_iff_not] at hstop
    have hne : x ≠ y := fun h => hx (hl ▸ by simp [h])
    omega
  have htake : ∀ q ∈ l.takeWhile (fun q => decide (q < x)), q < x := fun q hq => by
    simpa using List.mem_takeWhile_imp hq
  obtain ⟨U, L, hUL, hsorted⟩ := rotSorted_cons_iff.mp hs
  obtain ⟨hpU, hLp, hU, hL⟩ := lt_of_mem_rot hsorted
  rw [← hl] at hUL
  generalize l.takeWhile (fun q => decide (q < x)) = U₁ at hUL htake ⊢
  -- the stop is within the rising part
  obtain ⟨U₂, rfl, rfl⟩ := exists_of_append_eq hUL fun hy => by
    have := hLp y hy
    omega
  refine rotSorted_cons_iff.mpr ⟨U₁ ++ x :: y :: U₂, L, by simp,
    pairwise_rot ?_ hLp (pairwise_insert hU htake hxy) hL⟩
  intro u hu
  simp only [List.mem_append, List.mem_cons] at hu
  rcases hu with hu | rfl | hu
  · exact hpU u (by simp [hu])
  · exact hpx
  · exact hpU u (by simp [hu])

theorem rotSorted_join_round (hs : RotSorted (p :: l)) (hpx : p < x)
    (hall : ∀ q ∈ l, q < x) :
    RotSorted (p :: (l.dropLast ++ x :: l.getLast?.toList)) ↔
      (l.filter (· < p)).length = 1 ∨ l = [] := by
  rcases List.eq_nil_or_concat' l with rfl | ⟨m, z, rfl⟩
  · have hpair : RotSorted [p, x] :=
      rotSorted_cons_iff.mpr ⟨[x], [], rfl, by simpa using hpx⟩
    simpa using hpair
  have hz : z < x := hall z (by simp)
  have hring : (m ++ [z]).dropLast ++ x :: (m ++ [z]).getLast?.toList = m ++ [x, z] := by
    simp
  have hne : m ++ [z] ≠ [] := by simp
  rw [hring, or_iff_left hne]
  constructor
  · intro hnew
    obtain ⟨-, hxz, hcross⟩ := List.pairwise_append.mp hnew.pairwise
    have hzp : z < p := by
      have := ((List.pairwise_cons.mp hxz).1 z (by simp)).2
      omega
    have hm : m.filter (· < p) = [] := by
      refine List.filter_eq_nil_iff.mpr fun q hq => ?_
      have hpq := (hcross q hq x (by simp)).1 hpx
      simpa using hpq.le
    rw [List.filter_append, hm]
    simp [hzp]
  · intro hone
    obtain ⟨U, L, hsplit, hUL⟩ := rotSorted_cons_iff.mp hs
    obtain ⟨hpU, hLp, hU, -⟩ := lt_of_mem_rot hUL
    have hfilter : (m ++ [z]).filter (· < p) = L := by
      rw [hsplit, List.filter_append, List.filter_eq_nil_iff.mpr, List.filter_eq_self.mpr]
      · rfl
      · simpa using hLp
      · intro u hu
        simpa using (hpU u hu).le
    -- exactly the last price is below the head
    obtain ⟨w, rfl⟩ := List.length_eq_one_iff.mp (hfilter ▸ hone)
    obtain ⟨rfl, hzw⟩ := List.append_inj' hsplit rfl
    obtain rfl : z = w := List.singleton_inj.mp hzw
    have hbelow : ∀ u ∈ m, u < x := fun u hu => hall u (by simp [hu])
    refine rotSorted_cons_iff.mpr ⟨m ++ [x], [z], by simp,
      pairwise_rot ?_ hLp (pairwise_concat hU hbelow) (by simp)⟩
    intro u hu
    rcases List.mem_append.mp hu with hu | hu
    · exact hpU u hu
    · exact List.mem_singleton.mp hu ▸ hpx

/-- **One arrival.** The ring stays in cyclic order exactly when the new price
is in place. -/
theorem rotSorted_joinPrice_iff (hs : RotSorted (p :: l)) (hx : x ∉ p :: l) :
    RotSorted (joinPrice (p :: l) x) ↔ InPlace (p :: l) x := by
  have hxp : x ≠ p := fun h => hx (by simp [h])
  have hxl : x ∉ l := fun h => hx (by simp [h])
  by_cases hlt : x < p
  · have hplace : joinPrice (p :: l) x = p :: (l ++ [x]) :=
      placeAmong_behind (by simpa using hlt.le)
    rw [hplace, rotSorted_join_below hs hlt, InPlace,
      if_pos hlt]
  · have hpx : p < x := by omega
    rw [InPlace, if_neg hlt, joinPrice]
    cases hdrop : l.dropWhile (fun q => decide (q < x)) with
    | nil =>
        have hall : ∀ q ∈ l, q < x := by simpa using List.dropWhile_eq_nil_iff.mp hdrop
        have hnone : ¬ ∃ q ∈ l, x < q := by
          rintro ⟨q, hq, hxq⟩
          have := hall q hq
          omega
        rw [placeAmong_round (by simpa using hpx) hdrop, rotSorted_join_round hs hpx hall]
        simp only [hnone, false_or]
    | cons y s =>
        have hy : y ∈ l := by
          have hsplit := List.takeWhile_append_dropWhile (p := fun q => decide (q < x)) (l := l)
          rw [hdrop] at hsplit
          exact hsplit ▸ by simp
        have hstop := List.head?_dropWhile_not (fun q => decide (q < x)) l
        simp only [hdrop, List.head?_cons, decide_eq_false_iff_not] at hstop
        have hxy : x < y := by
          have hne : x ≠ y := fun h => hxl (h ▸ hy)
          omega
        rw [placeAmong_stop (by simpa using hpx) hdrop]
        exact ⟨fun _ => .inl ⟨y, hy, hxy⟩, fun _ => rotSorted_join_stop hs hpx hxl hdrop⟩

end Join

/-- The condition only depends on the first of the earlier prices and on which
others there are, so it can be read off the arrivals. -/
theorem inPlace_askLadder (xs : List ℕ) (x : ℕ) : InPlace (askLadder xs) x ↔ InPlace xs x := by
  cases xs with
  | nil => rfl
  | cons first rest =>
      obtain ⟨rest', hladder⟩ : ∃ r, askLadder (first :: rest) = first :: r :=
        List.head?_eq_some_iff.mp (head?_askLadder _)
      have hperm : (first :: rest').Perm (first :: rest) := hladder ▸ askLadder_perm _
      rw [hladder]
      exact InPlace.congr hperm.cons_inv

theorem rotSorted_askLadder_snoc {xs : List ℕ} {x : ℕ} (hs : RotSorted (askLadder xs))
    (hx : x ∉ xs) : RotSorted (askLadder (xs ++ [x])) ↔ InPlace xs x := by
  rw [askLadder_snoc, ← inPlace_askLadder]
  have hx' : x ∉ askLadder xs := fun h => hx ((askLadder_perm xs).mem_iff.mp h)
  cases hladder : askLadder xs with
  | nil => exact iff_of_true ⟨[x], .refl _, List.pairwise_singleton _ _⟩ trivial
  | cons p l =>
      rw [hladder] at hs hx'
      exact rotSorted_joinPrice_iff hs hx'

/-- The ladder is in cyclic order at every point of a run exactly when every
arrival was in place. -/
theorem rotSorted_askLadder_iff {xs : List ℕ} (hnd : xs.Nodup) :
    (∀ pre, pre <+: xs → RotSorted (askLadder pre)) ↔
      ∀ pre x, pre ++ [x] <+: xs → InPlace pre x := by
  have hnew : ∀ pre x, pre ++ [x] <+: xs → x ∉ pre := by
    intro pre x hpre hx
    have hnd' := hnd.sublist hpre.sublist
    exact (List.nodup_append.mp hnd').2.2 x hx x (by simp) rfl
  constructor
  · intro h pre x hpre
    have hs := h pre ((List.prefix_append pre [x]).trans hpre)
    exact (rotSorted_askLadder_snoc hs (hnew pre x hpre)).mp (h _ hpre)
  · intro h pre
    induction pre using List.reverseRecOn with
    | nil => exact fun _ => rotSorted_nil
    | append_singleton pre x ih =>
        intro hpre
        have hs := ih ((List.prefix_append pre [x]).trans hpre)
        exact (rotSorted_askLadder_snoc hs (hnew pre x hpre)).mpr (h pre x hpre)

/-- From the best level of the side, the ring reached from the head goes
strictly from better to worse prices. -/
def RingSorted (b : MEOrderBook) (side : Side) : Prop :=
  ∀ h, b.sideHead side = some h →
    ∃ l, h ∈ l ∧ NextRing b.nextEntry l ∧
      (l.map fun a => (b.level a).price).Pairwise
        (if side = .buy then (· > ·) else (· < ·))

theorem LevelsRep.ringSorted_buy {b : MEOrderBook} {asks : List Addr}
    (h : LevelsRep b asks) : RingSorted b .buy := by
  intro a ha
  rw [sideHead, if_pos rfl, h.bids] at ha
  contradiction

theorem pairwise_toNat {f : Addr → Price} {l : List Addr} :
    (l.map f).Pairwise (· < ·) ↔ (l.map fun a => (f a).toNat).Pairwise (· < ·) := by
  simp only [List.pairwise_map, UInt64.lt_iff_toNat_lt]

theorem LevelsRep.ringSorted_sell {b : MEOrderBook} {asks : List Addr}
    (h : LevelsRep b asks) :
    RingSorted b .sell ↔ RotSorted (asks.map fun a => (b.level a).price.toNat) := by
  have hhead : b.sideHead .sell = asks.head? := h.asksHead
  have hnext : NextRing b.nextEntry asks := h.ring.nextRing
  cases asks with
  | nil =>
      refine iff_of_true ?_ rotSorted_nil
      intro a ha
      rw [hhead, List.head?_nil] at ha
      contradiction
  | cons a t =>
      constructor
      · intro hring
        obtain ⟨l, ha, hl, hsorted⟩ := hring a hhead
        have hrot : l.IsRotated (a :: t) := hnext.isRotated_of_mem hl ha
        exact ⟨_, hrot.symm.map _, pairwise_toNat.mp hsorted⟩
      · rintro ⟨s, hrot, hsorted⟩ c hc
        rw [hhead, List.head?_cons, Option.some.injEq] at hc
        subst hc
        obtain ⟨l, hl, rfl⟩ := exists_isRotated_map hrot
        exact ⟨l, hl.mem_iff.mp (by simp), hnext.isRotated hl, pairwise_toNat.mpr hsorted⟩

/-- **The levels of one side stay in price order** around the ring, at every
point of a run on this side alone, exactly when every arrival was in place.
On the buy side there is no ring to look at: the head stays null. -/
theorem ringSorted_iff {b₀ b : MEOrderBook} {ls : List MEOrdersAtPrice} {side : Side}
    (h0 : b₀.Empty) (hside : side = .buy ∨ side = .sell) (hall : ∀ l ∈ ls, l.side = side)
    (hdistinct : (ls.map (·.price)).Nodup) (hrun : b₀.placeLevels ls = .ok b) :
    (∀ pre, pre <+: ls → ∀ bp, b₀.placeLevels pre = .ok bp → RingSorted bp side) ↔
      side = .buy ∨
        ∀ pre l, pre ++ [l] <+: ls → InPlace (pre.map (·.price.toNat)) l.price.toNat := by
  have hrep : ∀ pre, pre <+: ls → ∀ bp, b₀.placeLevels pre = .ok bp →
      ∃ asks, LadderRep bp pre asks := fun pre hpre bp hbp =>
    ladderRep_of_run h0 (fun l hl => hall l (hpre.subset hl) ▸ hside)
      (hdistinct.sublist (hpre.sublist.map _)) hbp
  rcases hside with rfl | rfl
  · refine iff_of_true (fun pre hpre bp hbp => ?_) (.inl rfl)
    obtain ⟨asks, h⟩ := hrep pre hpre bp hbp
    exact h.levels.ringSorted_buy
  have hprices : ∀ pre, pre <+: ls → sellPrices pre = pre.map (·.price.toNat) :=
    fun pre hpre => sellPrices_of_all_sell fun l hl => hall l (hpre.subset hl)
  have hnd : (ls.map (·.price.toNat)).Nodup := by
    have hmap : ls.map (·.price.toNat) = (ls.map (·.price)).map UInt64.toNat := by simp
    rw [hmap]
    exact hdistinct.map fun _ _ h => UInt64.toNat_inj.mp h
  have hsorted : ∀ pre, pre <+: ls → ∀ bp, b₀.placeLevels pre = .ok bp →
      (RingSorted bp .sell ↔ RotSorted (askLadder (pre.map (·.price.toNat)))) := by
    intro pre hpre bp hbp
    obtain ⟨asks, h⟩ := hrep pre hpre bp hbp
    rw [h.levels.ringSorted_sell, h.prices, hprices pre hpre]
  -- the condition on levels is the condition on their prices
  have hplace : (∀ pre l, pre ++ [l] <+: ls →
      InPlace (pre.map (·.price.toNat)) l.price.toNat) ↔
      ∀ pre x, pre ++ [x] <+: ls.map (·.price.toNat) → InPlace pre x := by
    constructor
    · intro h pre x hpre
      obtain ⟨pre', hpre', hmap⟩ := List.prefix_map_iff.mp hpre
      obtain ⟨q, l, rfl, rfl, hl⟩ := List.append_eq_map_iff.mp hmap
      obtain ⟨l, rfl, rfl⟩ := List.map_eq_singleton_iff.mp hl
      exact h q l hpre'
    · intro h pre l hpre
      exact h _ _ (by simpa using hpre.map (·.price.toNat))
  rw [hplace, ← rotSorted_askLadder_iff hnd, or_iff_right (by simp)]
  constructor
  · intro h pre hpre
    obtain ⟨pre', hpre', rfl⟩ := List.prefix_map_iff.mp hpre
    obtain ⟨bp, hbp⟩ := run_prefix hpre' hrun
    exact (hsorted pre' hpre' bp hbp).mp (h pre' hpre' bp hbp)
  · intro h pre hpre bp hbp
    exact (hsorted pre hpre bp hbp).mpr (h _ (hpre.map _))

/-- Four sell levels in place: two below the head, one between, one above. -/
theorem ringSorted_iff_four :
    ∃ b, (construct .zero 0).placeLevels
        [⟨20, .sell, none, none, none⟩, ⟨10, .sell, none, none, none⟩,
          ⟨30, .sell, none, none, none⟩, ⟨25, .sell, none, none, none⟩] = .ok b ∧
      RingSorted b .sell := by
  obtain ⟨b, hrun, -⟩ := exists_of_succeedsWith (p := fun _ => true)
    (x := (construct .zero 0).placeLevels
      [⟨20, .sell, none, none, none⟩, ⟨10, .sell, none, none, none⟩,
        ⟨30, .sell, none, none, none⟩, ⟨25, .sell, none, none, none⟩]) (by decide +kernel)
  refine ⟨b, hrun, ?_⟩
  refine (ringSorted_iff (empty_construct 0) (.inr rfl) (by decide) (by decide) hrun).mpr
    (.inr ?_) _ (List.prefix_refl _) b hrun
  intro pre l hpre
  rcases pre with _ | ⟨_, _ | ⟨_, _ | ⟨_, _ | ⟨_, pre⟩⟩⟩⟩
  all_goals
    simp only [List.nil_append, List.cons_append, List.cons_prefix_cons, List.prefix_nil,
      List.append_eq_nil_iff, List.cons_ne_nil, and_false, List.nil_prefix, and_true] at hpre
  · obtain rfl := hpre
    decide
  · obtain ⟨rfl, rfl⟩ := hpre
    decide
  · obtain ⟨rfl, rfl, rfl⟩ := hpre
    decide
  · obtain ⟨rfl, rfl, rfl, rfl⟩ := hpre
    decide

/-- After sell levels at 10, 20 and 30 the ring from the head reads 10, 30, 20. -/
theorem ring_not_sorted :
    ∃ b, (construct .zero 0).placeLevels
        [⟨10, .sell, none, none, none⟩, ⟨20, .sell, none, none, none⟩,
          ⟨30, .sell, none, none, none⟩] = .ok b ∧ ¬ RingSorted b .sell := by
  obtain ⟨b, hrun, -⟩ := exists_of_succeedsWith (p := fun _ => true)
    (x := (construct .zero 0).placeLevels
      [⟨10, .sell, none, none, none⟩, ⟨20, .sell, none, none, none⟩,
        ⟨30, .sell, none, none, none⟩]) (by decide +kernel)
  refine ⟨b, hrun, ?_⟩
  obtain ⟨asks, h⟩ := ladderRep_of_run (empty_construct 0) (by decide) (by decide) hrun
  have hladder : asks.map (fun a => (b.level a).price.toNat) = [10, 30, 20] := h.prices
  rw [h.levels.ringSorted_sell, hladder, rotSorted_cons_iff]
  rintro ⟨U, L, hsplit, hUL⟩
  obtain ⟨-, hL, hU, -⟩ := lt_of_mem_rot hUL
  -- both prices lie above 10, so they would have to come in their order
  cases L with
  | nil =>
      rw [List.append_nil] at hsplit
      rw [← hsplit] at hU
      simp at hU
  | cons q L =>
      have hq : q ∈ [30, 20] := hsplit ▸ by simp
      have hlt := hL q (by simp)
      simp only [List.mem_cons, List.not_mem_nil, or_false] at hq
      omega

end MEOrderBook

end LowLatency.Exchange
