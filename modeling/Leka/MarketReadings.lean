import Leka.Markets

/-!
The market in a state of the engine. The prices of the ladders are those of the market, an
aggregate is what is shown at the price of its level, and what trades leave in the aggregates
is what they leave in the surplus.
-/

namespace Leka.MarketReadings

open Procedures Orders OrderPools PriceLevels PriceLadders OrderBooks MatchingEngines SyncedBooks
  RestingOrders ReferenceMatchers MatcherRefinement MatchingRounds EventOutcomes ReplayedEvents
  Observations Markets

def gridOf (ladder : PriceLadder) : Grid where
  minPrice := ladder.minPrice.toNat
  maxPrice := ladder.maxPrice.toNat
  tickSize := ladder.tickSize.toNat

/-- What the aggregate at a price counts beyond what rests there. -/
def surplusOf (book : OrderBook) (isBid : Bool) (price : ℕ) : ℕ :=
  if price < 2 ^ 64 then
    match (book.ladder isBid).indexOf (UInt64.ofNat price) with
    | .ok index => excess book ⟨isBid, index.toNat⟩
    | .error _ => 0
  else 0

def marketOf (s : EngineState) : Market where
  book := bookOf s
  grid d := gridOf (s.orderBook.ladder d)
  surplus := surplusOf s.orderBook

section Prices

variable {ladder : PriceLadder} {book book' : OrderBook} {d : Bool} {price : ℕ}

/-- The offset from the other end is as far from a tick. -/
theorem mirrored_mod {span offset tick : ℕ} (hle : offset ≤ span) (hspan : tick ∣ span) :
    (span - offset) % tick = 0 ↔ offset % tick = 0 := by
  rw [← Nat.dvd_iff_mod_eq_zero, ← Nat.dvd_iff_mod_eq_zero, Nat.dvd_sub_iff_right hle hspan]

/-- The ladder accepts the prices of the market, and has the same objection to every other. -/
theorem check_gridOf (h : ladder.Configured) (price : Price) :
    (gridOf ladder).check price.toNat = (ladder.indexOf price).map fun _ => () := by
  have hmax := h.maxPrice_eq
  unfold Grid.check PriceLadder.indexOf gridOf
  dsimp only
  by_cases hrange : price > ladder.maxPrice ∨ price < ladder.minPrice
  · rw [if_pos hrange, if_pos (hrange.imp UInt64.lt_iff_toNat_lt.mp UInt64.lt_iff_toNat_lt.mp)]
    rfl
  · have hrange' := hrange
    rw [not_or, gt_iff_lt, UInt64.not_lt, UInt64.not_lt] at hrange'
    obtain ⟨hhigh, hlow⟩ := hrange'
    have hle := UInt64.le_iff_toNat_le.mp hhigh
    have hge := UInt64.le_iff_toNat_le.mp hlow
    rw [if_neg hrange, if_neg (by omega)]
    have hoffset : ((if ladder.descending then ladder.maxPrice - price
        else price - ladder.minPrice) % ladder.tickSize ≠ 0) ↔
        (price.toNat - ladder.minPrice.toNat) % ladder.tickSize.toNat ≠ 0 := by
      rw [ne_eq, ne_eq, ← UInt64.toNat_inj, UInt64.toNat_mod]
      split
      · rw [UInt64.toNat_sub_of_le _ _ hhigh]
        have hspan : ladder.maxPrice.toNat - price.toNat =
            (ladder.levelCount.toNat - 1) * ladder.tickSize.toNat -
              (price.toNat - ladder.minPrice.toNat) := by omega
        rw [hspan]
        exact not_congr (mirrored_mod (by omega) (Nat.dvd_mul_left _ _))
      · rw [UInt64.toNat_sub_of_le _ _ hlow]
        rfl
    by_cases htick : (price.toNat - ladder.minPrice.toNat) % ladder.tickSize.toNat ≠ 0
    · rw [if_pos htick, if_pos (hoffset.mpr htick)]
      rfl
    · rw [if_neg htick, if_neg (mt hoffset.mp htick)]
      rfl

theorem slotPrice_lt (h : ladder.Configured) {i : ℕ} (hi : i < ladder.levelCount.toNat) :
    ladder.slotPrice i < 2 ^ 64 := by
  rw [← h.level_price i hi]
  exact UInt64.toNat_lt _

/-- The surplus at the price of a level. -/
theorem surplusOf_level (h : (book.ladder d).Configured) {i : ℕ}
    (hi : i < (book.ladder d).levelCount.toNat) :
    surplusOf book d ((book.ladder d).slotPrice i) = excess book ⟨d, i⟩ := by
  have hlt := slotPrice_lt h hi
  have hindex : (book.ladder d).indexOf (UInt64.ofNat ((book.ladder d).slotPrice i)) =
      .ok (UInt64.ofNat i) :=
    h.indexOf_slotPrice hi (UInt64.toNat_ofNat_of_lt' hlt)
  have hsmall : i < 2 ^ 64 := hi.trans (UInt64.toNat_lt _)
  rw [surplusOf, if_pos hlt, hindex]
  dsimp only
  rw [UInt64.toNat_ofNat_of_lt' hsmall]

/-- Nothing is shown between the levels. -/
theorem surplusOf_between (h : (book.ladder d).Configured)
    (hnone : ∀ i < (book.ladder d).levelCount.toNat, (book.ladder d).slotPrice i ≠ price) :
    surplusOf book d price = 0 := by
  unfold surplusOf
  split
  · rename_i hlt
    cases hindex : (book.ladder d).indexOf (UInt64.ofNat price) with
    | error => rfl
    | ok index =>
      obtain ⟨hi, hprice⟩ := h.indexOf_ok hindex
      rw [UInt64.toNat_ofNat_of_lt' hlt] at hprice
      exact absurd hprice.symm (hnone _ hi)
  · rfl

/-- The surplus grows as the aggregates do. -/
theorem surplusOf_grows (h : (book.ladder d).Configured) (h' : (book'.ladder d).Configured)
    (hgrid : PriceLadder.SameGrid (book.ladder d) (book'.ladder d)) {growth : ℕ → ℕ}
    (hlevels : ∀ i < (book.ladder d).levelCount.toNat,
      excess book' ⟨d, i⟩ = excess book ⟨d, i⟩ + growth ((book.ladder d).slotPrice i))
    (hbetween : (∀ i < (book.ladder d).levelCount.toNat, (book.ladder d).slotPrice i ≠ price) →
      growth price = 0) :
    surplusOf book' d price = surplusOf book d price + growth price := by
  by_cases hon : ∃ i < (book.ladder d).levelCount.toNat, (book.ladder d).slotPrice i = price
  · obtain ⟨i, hi, rfl⟩ := hon
    have hi' : i < (book'.ladder d).levelCount.toNat := by rw [hgrid.levelCount]; exact hi
    rw [surplusOf_level h hi, ← hlevels i hi, ← hgrid.slotPrice_eq, surplusOf_level h' hi']
  · have hnone : ∀ i < (book.ladder d).levelCount.toNat, (book.ladder d).slotPrice i ≠ price :=
      fun i hi heq => hon ⟨i, hi, heq⟩
    have hnone' : ∀ i < (book'.ladder d).levelCount.toNat,
        (book'.ladder d).slotPrice i ≠ price := by
      intro i hi
      rw [hgrid.slotPrice_eq]
      exact hnone i (by rw [← hgrid.levelCount]; exact hi)
    rw [surplusOf_between h hnone, surplusOf_between h' hnone', hbetween hnone]

end Prices

section Shown

variable {hash : OrderId → UInt64} {s : EngineState} {d : Bool} {i : ℕ}

/-- An aggregate is the quantity that is shown at its price. -/
theorem shown_level (hs : Sound hash s.orderBook)
    (hi : i < (s.orderBook.ladder d).levelCount.toNat) :
    (marketOf s).shown d ((s.orderBook.ladder d).slotPrice i) =
      (s.orderBook.level ⟨d, i⟩).totalQuantity.toNat := by
  have hlevels := hs.synced.toLevelsOk
  have hreading := congrArg (fun rs => (rs.map Resting.remainingQuantity).sum)
    (queue_reading (l := ⟨d, i⟩) hlevels hi)
  rw [List.map_map] at hreading
  have hquantity : quantityAt ((s.orderBook.ladder d).slotPrice i) ((bookOf s).side d) =
      remainingSum s.orderBook.memory (fifo s.orderBook ⟨d, i⟩) := by
    rw [side_bookOf]
    exact hreading.symm
  have hsurplus : (marketOf s).surplus d ((s.orderBook.ladder d).slotPrice i) =
      excess s.orderBook ⟨d, i⟩ := surplusOf_level (hs.synced.configured d) hi
  have hbook : (marketOf s).book = bookOf s := rfl
  rw [Market.shown, hsurplus, hbook, hquantity, RestingOrders.total_eq hlevels, Nat.add_comm]

end Shown

end Leka.MarketReadings
