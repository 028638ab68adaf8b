import Leka.MarketReadings
import Leka.Snapshots

/-!
What a snapshot shows of a market: for the best prices of a side, as many as are asked for, the
quantity that is shown there and the number of orders, and of the whole side the number of its
prices. The best price is that of the first listed level, and none when nothing is listed.
-/

namespace Leka.DisplayedLevels

open Procedures Orders PriceLevels PriceLadders PriceLadder WordBits OrderBooks MatchingEngines
  SyncedBooks RestingOrders ReferenceMatchers MatcherRefinement BookRuns LadderAsSet Snapshots
  MarketReadings
open Markets hiding Market
open Markets (Market)

section Prefixes

variable {α : Type*} {R : α → α → Prop}

/-- A sorted part of a sorted list, with all the rest behind it, is the front of the list. -/
theorem prefix_of_first (hasymm : ∀ a b, R a b → ¬ R b a) {whole part : List α}
    (hwhole : whole.Pairwise R) (hpart : part.Pairwise R) (hsub : part ⊆ whole)
    (hfirst : ∀ q ∈ whole, q ∉ part → ∀ p ∈ part, R p q) : part <+: whole := by
  have hirrefl : ∀ a, ¬ R a a := fun a h => hasymm a a h h
  induction part generalizing whole with
  | nil => exact List.nil_prefix
  | cons p part ih =>
    cases whole with
    | nil => exact absurd (hsub List.mem_cons_self) List.not_mem_nil
    | cons first whole =>
      obtain ⟨hahead, hlater⟩ := List.pairwise_cons.mp hwhole
      obtain ⟨hbest, hpart⟩ := List.pairwise_cons.mp hpart
      obtain rfl : p = first := by
        by_contra hne
        have hp : R first p :=
          hahead p ((List.mem_cons.mp (hsub List.mem_cons_self)).resolve_left hne)
        by_cases hmem : first ∈ part
        · exact hasymm _ _ hp (hbest first hmem)
        · refine hasymm _ _ hp (hfirst first List.mem_cons_self ?_ p List.mem_cons_self)
          simp [hmem, Ne.symm hne]
      refine List.cons_prefix_cons.mpr ⟨rfl, ih hlater hpart ?_ ?_⟩
      · intro q hq
        refine (List.mem_cons.mp (hsub (List.mem_cons_of_mem _ hq))).resolve_left ?_
        rintro rfl
        exact hirrefl _ (hbest _ hq)
      · intro q hq hnot r hr
        refine hfirst q (List.mem_cons_of_mem _ hq) ?_ r (List.mem_cons_of_mem _ hr)
        rw [List.mem_cons, not_or]
        refine ⟨?_, hnot⟩
        rintro rfl
        exact hirrefl _ (hahead _ hq)

end Prefixes

/-- One side of a display: the best of the listed prices, 0 when none is listed, the number of
prices of the side, and the listed levels, each with its price, its quantity and its orders. -/
structure SideView where
  best : ℕ
  levelCount : ℕ
  levels : List (ℕ × ℕ × ℕ)
  deriving DecidableEq

/-- The prices of a side, in its order. -/
def levelPrices (orders : List Resting) : List ℕ := (orders.map Resting.price).dedup

/-- A level of a market. -/
def levelAt (market : Market) (isBid : Bool) (price : ℕ) : ℕ × ℕ × ℕ :=
  (price, market.shown isBid price,
    ((market.book.side isBid).filter fun r => r.price = price).length)

/-- The display of a side with at most `depth` levels. -/
def sideView (market : Market) (isBid : Bool) (depth : ℕ) : SideView :=
  let prices := levelPrices (market.book.side isBid)
  ⟨((prices.take depth).head?).getD 0, prices.length,
    (prices.take depth).map (levelAt market isBid)⟩

def levelOf (level : BookSnapshotLevel) : ℕ × ℕ × ℕ :=
  (level.priceRaw.toNat, level.quantity.toNat, level.orderCount.toNat)

/-- What a side of a snapshot shows. -/
def viewOf (side : SnapshotSide) : SideView where
  best := side.bestRaw.toNat
  levelCount := side.levelCount.toNat
  levels := side.levels.map levelOf

section Views

variable {hash : OrderId → UInt64} {s : EngineState} {d : Bool}

/-- The first price is strictly better than the second. -/
def Ahead (isBid : Bool) (p q : ℕ) : Prop := noWorse isBid p q = true ∧ p ≠ q

theorem ahead_asymm (isBid : Bool) (p q : ℕ) (h : Ahead isBid p q) : ¬ Ahead isBid q p := by
  obtain ⟨hle, hne⟩ := h
  rintro ⟨hle', -⟩
  cases isBid <;> simp [noWorse] at hle hle' <;> omega

theorem pairwise_levelPrices (hs : Sound hash s.orderBook) (d : Bool) :
    (levelPrices ((marketOf s).book.side d)).Pairwise (Ahead d) := by
  have hsorted : (((marketOf s).book.side d).map Resting.price).Pairwise
      fun p q => noWorse d p q = true :=
    List.pairwise_map.mpr (sorted_bookOf hs d)
  exact (hsorted.sublist (List.dedup_sublist _)).and (List.nodup_dedup _)

/-- The prices of the levels that the walk of a ladder visits are the first ones of the side. -/
theorem visited_prices (hs : Sound hash s.orderBook) (d : Bool) (depth : UInt64) :
    ∃ ps : List Price,
      List.Forall₂ (LevelOf (s.orderBook.ladder d))
        ((s.orderBook.ladder d).forEachOccupied depth) ps ∧
      ps.map UInt64.toNat = (levelPrices ((marketOf s).book.side d)).take depth.toNat := by
  have hlevels := hs.synced.toLevelsOk
  have hside : (marketOf s).book.side d = resting s.orderBook d := side_bookOf s d
  have hdirection : (s.orderBook.ladder d).descending = d := hlevels.descending d
  have hholds := holds_prices hlevels d
  obtain ⟨ps, hvisited, hlength, hsorted, hmem, hrest⟩ := hholds.forEachOccupied depth
  have hbetter : ∀ p q : Price, Better (s.orderBook.ladder d).descending p q →
      Ahead d p.toNat q.toNat := by
    intro p q hpq
    rw [hdirection] at hpq
    cases d
    · have hlt : p.toNat < q.toNat := hpq
      simp [Ahead, noWorse]
      omega
    · have hlt : q.toNat < p.toNat := hpq
      simp [Ahead, noWorse]
      omega
  have hprices : ∀ n, n ∈ levelPrices ((marketOf s).book.side d) ↔
      ∃ p ∈ ((sideOrders s.orderBook (fifo s.orderBook) d).map
        fun p => (s.orderBook.memory p).price).toFinset, p.toNat = n := by
    intro n
    rw [levelPrices, List.mem_dedup, hside, resting, List.map_map]
    simp [restingOf]
  have hprefix : ps.map UInt64.toNat <+: levelPrices ((marketOf s).book.side d) := by
    refine prefix_of_first (ahead_asymm d) (pairwise_levelPrices hs d)
      (List.pairwise_map.mpr (hsorted.imp fun h => hbetter _ _ h)) ?_ ?_
    · intro n hn
      obtain ⟨p, hp, rfl⟩ := List.mem_map.mp hn
      exact (hprices _).mpr ⟨p, hmem p hp, rfl⟩
    · intro n hn hnot m hm
      obtain ⟨q, hq, rfl⟩ := (hprices n).mp hn
      obtain ⟨p, hp, rfl⟩ := List.mem_map.mp hm
      exact hbetter _ _ (hrest q hq (fun hmem' => hnot (List.mem_map_of_mem hmem')) p hp)
  have hcard : (levelPrices ((marketOf s).book.side d)).length =
      (restingPrices s.orderBook d).card := by
    rw [levelPrices, hside, restingPrices, List.card_toFinset]
  refine ⟨ps, hvisited, ?_⟩
  rw [List.prefix_iff_eq_take.mp hprefix, List.take_eq_take_iff, List.length_map, hlength,
    card_prices, hcard]
  omega

/-- A listed level is that of the market at its price. -/
theorem levelOf_listed (hs : Sound hash s.orderBook) {depth : UInt64} {l : LevelPtr} {p : Price}
    (hl : l ∈ (s.orderBook.ladder d).forEachOccupied depth)
    (hlevel : LevelOf (s.orderBook.ladder d) l p) :
    levelOf (snapshotLevel s.orderBook l) = levelAt (marketOf s) d p.toNat := by
  have hlevels := hs.synced.toLevelsOk
  have hcount := orderCount_listed hlevels hl
  obtain ⟨index, hindex, rfl, hprice⟩ := levelOf_cases hlevel
  obtain ⟨hlt, hslot⟩ := (hlevels.configured d).indexOf_ok hindex
  have hptr : (s.orderBook.ladder d).levelPtr index = ⟨d, index.toNat⟩ := by
    rw [PriceLadder.levelPtr, hlevels.descending d]
  rw [hptr] at hcount hprice ⊢
  have hbook : (s.orderBook.level ⟨d, index.toNat⟩).price = p := hprice
  have hshown := shown_level hs hlt
  rw [← hslot] at hshown
  have hside : (marketOf s).book.side d = resting s.orderBook d := side_bookOf s d
  rw [hbook] at hcount
  simp only [levelOf, snapshotLevel, levelAt, hbook, hshown, hcount, hside]

/-- What a snapshot shows of a side is the display of the market. -/
theorem viewOf_capture (hs : Sound hash s.orderBook) (out : BookSnapshot) (depth : UInt64)
    (d : Bool) :
    viewOf (sideOf (captureSnapshot s.orderBook out depth) d) =
      sideView (marketOf s) d depth.toNat := by
  obtain ⟨ps, hvisited, hprices⟩ := visited_prices hs d depth
  have hlevels : (((s.orderBook.ladder d).forEachOccupied depth).map
      (snapshotLevel s.orderBook)).map levelOf =
        ((levelPrices ((marketOf s).book.side d)).take depth.toNat).map
          (levelAt (marketOf s) d) := by
    rw [← hprices, List.map_map, List.map_map, ← List.forall₂_eq_eq_eq,
      List.forall₂_map_left_iff, List.forall₂_map_right_iff]
    refine ((List.forall₂_and_left _ _).mpr ⟨fun l hl => hl, hvisited⟩).imp fun l p h => ?_
    exact levelOf_listed hs h.1 h.2
  have hbest : (((((s.orderBook.ladder d).forEachOccupied depth).map
      (snapshotLevel s.orderBook)).head?.map BookSnapshotLevel.priceRaw).getD 0).toNat =
        (((levelPrices ((marketOf s).book.side d)).take depth.toNat).head?).getD 0 := by
    have hfirst : ∀ levels : List BookSnapshotLevel,
        ((levels.head?.map BookSnapshotLevel.priceRaw).getD 0).toNat =
          (((levels.map levelOf).head?).map Prod.fst).getD 0 := fun levels => by
      cases levels <;> rfl
    rw [hfirst, hlevels, List.head?_map, Option.map_map]
    exact congrArg (fun price : Option ℕ => price.getD 0) Option.map_id'
  have hcount : (s.orderBook.ladder d).occupied.toNat =
      (levelPrices ((marketOf s).book.side d)).length := by
    have hside : (marketOf s).book.side d = resting s.orderBook d := side_bookOf s d
    rw [(holds_prices hs.synced.toLevelsOk d).card, card_prices, levelPrices, hside,
      restingPrices, List.card_toFinset]
  rw [sideOf_capture, viewOf, sideView]
  simp only [hlevels, hbest, hcount]

end Views

end Leka.DisplayedLevels
