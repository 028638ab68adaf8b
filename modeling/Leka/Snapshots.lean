import Leka.BookViews
import Leka.LadderAsSet

/-!
Snapshots of two depths. The listed levels of the smaller depth are the first ones of the
larger, each with the number of orders that rest at its price. The best prices are read from
the listed levels, so a snapshot of depth zero reports none, whatever rests; from depth one
on the summary does not depend on the depth.
-/

namespace Leka.Snapshots

open Procedures Orders PriceLevels PriceLadders PriceLadder WordBits OrderBooks MatchingEngines
  Buckets SyncedBooks RestingOrders ReferenceMatchers BookRuns BookViews LadderAsSet

/-- One side of a snapshot. -/
structure SnapshotSide where
  levels : List BookSnapshotLevel
  bestRaw : UInt64
  levelCount : UInt64

def sideOf (snapshot : BookSnapshot) (isBid : Bool) : SnapshotSide :=
  if isBid then ⟨snapshot.bids, snapshot.bestBidRaw, snapshot.bidLevelCount⟩
  else ⟨snapshot.asks, snapshot.bestAskRaw, snapshot.askLevelCount⟩

/-- The prices at which orders rest on a side. -/
def restingPrices (book : OrderBook) (isBid : Bool) : Finset ℕ :=
  ((resting book isBid).map Resting.price).toFinset

/-- The raw price is the best one of a side, and zero exactly when nothing rests there. -/
structure BestRaw (isBid : Bool) (orders : List Resting) (raw : UInt64) : Prop where
  zero : raw = 0 ↔ orders = []
  mem : orders ≠ [] → ∃ r ∈ orders, r.price = raw.toNat
  best : ∀ r ∈ orders, noWorse isBid raw.toNat r.price = true

/-- What is expected of one side of two snapshots, the first of depth `depth` and the second
of at least that depth. -/
structure SideSummary (book : OrderBook) (isBid : Bool) (depth : UInt64)
    (first second : SnapshotSide) : Prop where
  truncated : first.levels <+: second.levels
  length : first.levels.length = min depth.toNat (restingPrices book isBid).card
  orderCount : ∀ entry ∈ second.levels, entry.orderCount.toNat =
    ((resting book isBid).filter fun r => r.price = entry.priceRaw.toNat).length
  bestRaw : second.bestRaw = first.bestRaw
  best : BestRaw isBid (resting book isBid) first.bestRaw
  levelCount : second.levelCount = first.levelCount

/-- The summaries of two captures, into any two buffers, do not depend on the depths. -/
def DepthFree (book : OrderBook) (out out' : BookSnapshot) (depth depth' : UInt64) : Prop :=
  ∀ isBid, SideSummary book isBid depth (sideOf (captureSnapshot book out depth) isBid)
    (sideOf (captureSnapshot book out' depth') isBid)

section Captures

variable {book : OrderBook} {isBid : Bool}

theorem sideOf_capture (book : OrderBook) (out : BookSnapshot) (depth : UInt64) (isBid : Bool) :
    sideOf (captureSnapshot book out depth) isBid =
      ⟨((book.ladder isBid).forEachOccupied depth).map (snapshotLevel book),
        ((((book.ladder isBid).forEachOccupied depth).map (snapshotLevel book)).head?.map
          BookSnapshotLevel.priceRaw).getD 0,
        (book.ladder isBid).occupied⟩ := by
  cases isBid <;> rfl

/-- The walk with a larger bound goes on where the smaller one stops. -/
theorem visit_isPrefix {ladder : PriceLadder} {m n : ℕ} (hle : m ≤ n) (index : UInt64) :
    ladder.visit m index <+: ladder.visit n index := by
  induction m generalizing n index with
  | zero => exact List.nil_prefix
  | succ m ih =>
    obtain ⟨n, rfl⟩ : ∃ k, n = k + 1 := ⟨n - 1, by omega⟩
    rw [PriceLadder.visit, PriceLadder.visit]
    by_cases hindex : index = npos
    · rw [if_pos hindex, if_pos hindex]
    · rw [if_neg hindex, if_neg hindex, List.cons_prefix_cons]
      exact ⟨rfl, ih (by omega) _⟩

/-- With a positive bound the walk starts at the best level. -/
theorem head_forEachOccupied (ladder : PriceLadder) {depth : UInt64} (hdepth : depth ≠ 0) :
    (ladder.forEachOccupied depth).head? = ladder.best := by
  have hpositive : depth.toNat ≠ 0 := fun hzero => hdepth (UInt64.toNat_inj.mp hzero)
  obtain ⟨n, hn⟩ := Nat.exists_eq_succ_of_ne_zero hpositive
  rw [PriceLadder.forEachOccupied, hn, PriceLadder.visit, PriceLadder.best]
  split <;> rfl

theorem forEachOccupied_zero (ladder : PriceLadder) : ladder.forEachOccupied 0 = [] := rfl

theorem forEachOccupied_none {ladder : PriceLadder} (hnone : ladder.best = none) (depth : UInt64) :
    ladder.forEachOccupied depth = [] := by
  by_cases hdepth : depth = 0
  · rw [hdepth]
    exact forEachOccupied_zero ladder
  · exact List.head?_eq_none_iff.mp ((head_forEachOccupied ladder hdepth).trans hnone)

end Captures

section Sides

variable {hash : OrderId → UInt64} {book : OrderBook} {queues : Queues} {isBid : Bool}

/-- The bits of a side are the prices of what rests there. -/
theorem holds_prices (h : LevelsOk book queues) (isBid : Bool) : Holds (book.ladder isBid)
    ((sideOrders book queues isBid).map fun p => (book.memory p).price).toFinset where
  configured := h.configured isBid
  marked := h.marked isBid
  mem := by
    intro price
    rw [List.mem_toFinset, List.mem_map]
    constructor
    · rintro ⟨p, hp, rfl⟩
      obtain ⟨i, hp⟩ := (h.mem_sideOrders isBid).mp hp
      refine ⟨_, h.indexOf_price hp, ?_⟩
      rw [h.ofNat_index hp, h.bits ⟨isBid, i⟩]
      exact decide_eq_true (List.ne_nil_of_mem hp)
    · rintro ⟨index, hindex, hset⟩
      rw [h.bits ⟨isBid, index.toNat⟩, decide_eq_true_eq] at hset
      obtain ⟨p, hp⟩ := List.exists_mem_of_ne_nil _ hset
      refine ⟨p, (h.mem_sideOrders isBid).mpr ⟨_, hp⟩, ?_⟩
      apply UInt64.toNat_inj.mp
      rw [price_toNat h hp, ((h.configured isBid).indexOf_ok hindex).2]

theorem card_prices (book : OrderBook) (isBid : Bool) :
    ((sideOrders book (fifo book) isBid).map fun p => (book.memory p).price).toFinset.card =
      (restingPrices book isBid).card := by
  have himage : restingPrices book isBid =
      ((sideOrders book (fifo book) isBid).map fun p => (book.memory p).price).toFinset.image
        UInt64.toNat := by
    rw [restingPrices, resting, List.map_map]
    ext price
    simp [restingOf]
  rw [himage, Finset.card_image_of_injective _ fun a b hab => UInt64.toNat_inj.mp hab]

theorem length_listed (h : LevelsOk book (fifo book)) (isBid : Bool) (depth : UInt64) :
    ((book.ladder isBid).forEachOccupied depth).length =
      min depth.toNat (restingPrices book isBid).card := by
  obtain ⟨ps, hlevels, hlength, _⟩ := (holds_prices h isBid).forEachOccupied depth
  rw [hlevels.length_eq, hlength, card_prices]

theorem levelOf_cases {ladder : PriceLadder} {l : LevelPtr} {price : Price}
    (h : LevelOf ladder l price) : ∃ index, ladder.indexOf price = .ok index ∧
      l = ladder.levelPtr index ∧ (ladder.level l.index).price = price := by
  obtain ⟨hlevel, hprice⟩ := h
  rw [PriceLadder.levelAt] at hlevel
  cases hindex : ladder.indexOf price with
  | error e =>
    rw [hindex] at hlevel
    cases hlevel
  | ok index =>
    rw [hindex] at hlevel
    exact ⟨index, rfl, (Except.ok.inj hlevel).symm, hprice⟩

/-- A listed level counts what rests at its price. -/
theorem orderCount_listed (h : LevelsOk book (fifo book)) {depth : UInt64} {l : LevelPtr}
    (hl : l ∈ (book.ladder isBid).forEachOccupied depth) :
    (book.level l).count.toNat = ((resting book isBid).filter fun r =>
      r.price = (book.level l).price.toNat).length := by
  obtain ⟨ps, hlevels, _⟩ := (holds_prices h isBid).forEachOccupied depth
  obtain ⟨price, hprice⟩ : ∃ price, LevelOf (book.ladder isBid) l price := by
    obtain ⟨i, hi, rfl⟩ := List.getElem_of_mem hl
    exact ⟨_, (List.forall₂_iff_get.mp hlevels).2 i hi (hlevels.length_eq ▸ hi)⟩
  obtain ⟨index, hindex, rfl, hlevel⟩ := levelOf_cases hprice
  obtain ⟨hlt, hslot⟩ := (h.configured isBid).indexOf_ok hindex
  have hl : (book.ladder isBid).levelPtr index = ⟨isBid, index.toNat⟩ := by
    rw [PriceLadder.levelPtr, h.descending isBid]
  have hpriceEq : (book.level ⟨isBid, index.toNat⟩).price.toNat =
      (book.ladder isBid).slotPrice index.toNat := by
    rw [← hslot, ← hlevel]
    rfl
  rw [hl, hpriceEq, (h.represents ⟨isBid, index.toNat⟩).count,
    ← queue_of_price (l := ⟨isBid, index.toNat⟩) h hlt, resting, List.filter_map, List.length_map]
  rfl

theorem price_ne_zero {order : Order} {l : LevelPtr} (h : RestsIn order l) : order.price ≠ 0 := by
  have hvalid := h.valid
  intro hzero
  simp [Order.isValid, Order.isMarket, Price.isValid, h.limit, hzero] at hvalid

/-- The best level of a side has the best price. -/
theorem bestRaw_best (h : LevelsOk book (fifo book)) (isBid : Bool) :
    BestRaw isBid (resting book isBid)
      (((book.ladder isBid).best.map fun l => (book.level l).price).getD 0) := by
  rcases best_cases h isBid with ⟨hnone, hnil⟩ | ⟨l, p, xs, hl, hbest, hqueue, hside⟩
  · have hempty : resting book isBid = [] := by
      rw [resting, hnil]
      rfl
    rw [hnone, hempty]
    refine ⟨⟨fun _ => rfl, fun _ => rfl⟩, fun hne => absurd rfl hne, ?_⟩
    intro r hr
    cases hr
  · have hp : p ∈ fifo book l := by
      rw [hqueue]
      exact List.mem_cons_self
    have hprice : (book.level l).price = (book.memory p).price := ((h.represents l).price p hp).symm
    have hfirst : resting book isBid = restingOf (book.memory p) :: (xs ++ gatherAfter
        (book.ladder isBid).levelCount.toNat l.index fun i => fifo book ⟨isBid, i⟩).map
          fun q => restingOf (book.memory q) := by
      rw [resting, hside]
      rfl
    have hraw : ((book.ladder isBid).best.map fun l => (book.level l).price).getD 0 =
        (book.memory p).price := by
      rw [hbest, Option.map_some, Option.getD_some, hprice]
    rw [hraw]
    refine ⟨?_, fun _ => ⟨restingOf (book.memory p), ?_, rfl⟩, ?_⟩
    · constructor
      · intro hzero
        exact absurd hzero (price_ne_zero (h.rests l p hp))
      · intro hnil
        rw [hfirst] at hnil
        cases hnil
    · rw [hfirst]
      exact List.mem_cons_self
    · have hsorted := sorted_sideOrders h isBid
      rw [hside, List.pairwise_cons] at hsorted
      intro r hr
      rw [hfirst] at hr
      rcases List.mem_cons.mp hr with rfl | hr
      · exact noWorse_refl isBid _
      · obtain ⟨q, hq, rfl⟩ := List.mem_map.mp hr
        exact hsorted.1 q hq

/-- One side of two captures, unless the first has depth zero and something rests there. -/
theorem sideSummary (h : LevelsOk book (fifo book)) {out out' : BookSnapshot}
    {depth depth' : UInt64} (hle : depth ≤ depth')
    (hdepth : depth ≠ 0 ∨ resting book isBid = []) :
    SideSummary book isBid depth (sideOf (captureSnapshot book out depth) isBid)
      (sideOf (captureSnapshot book out' depth') isBid) := by
  have hbest : ∀ {k : UInt64}, k ≠ 0 ∨ resting book isBid = [] →
      ((((book.ladder isBid).forEachOccupied k).map (snapshotLevel book)).head?.map
        BookSnapshotLevel.priceRaw).getD 0 =
      ((book.ladder isBid).best.map fun l => (book.level l).price).getD 0 := by
    intro k hk
    have hhead : ((book.ladder isBid).forEachOccupied k).head? = (book.ladder isBid).best := by
      rcases hk with hpositive | hempty
      · exact head_forEachOccupied _ hpositive
      · rcases best_cases h isBid with ⟨hnone, _⟩ | ⟨l, p, xs, _, _, _, hside⟩
        · rw [forEachOccupied_none hnone, hnone]
          rfl
        · rw [resting, hside] at hempty
          cases hempty
    rw [List.head?_map, hhead, Option.map_map]
    rfl
  have hdepth' : depth' ≠ 0 ∨ resting book isBid = [] := by
    refine hdepth.imp_left fun hpositive hzero => hpositive ?_
    rw [hzero] at hle
    exact UInt64.le_zero_iff.mp hle
  rw [sideOf_capture, sideOf_capture]
  refine ⟨?_, ?_, ?_, (hbest hdepth').trans (hbest hdepth).symm, ?_, rfl⟩
  · exact (visit_isPrefix (UInt64.le_iff_toNat_le.mp hle) _).map _
  · rw [List.length_map, length_listed h]
  · intro entry hentry
    obtain ⟨l, hl, rfl⟩ := List.mem_map.mp hentry
    exact orderCount_listed h hl
  · rw [hbest hdepth]
    exact bestRaw_best h isBid

/-- A capture of depth zero hides the best price of a side that is not empty. -/
theorem not_best_of_zero (out : BookSnapshot) (hrests : resting book isBid ≠ []) :
    ¬ BestRaw isBid (resting book isBid) (sideOf (captureSnapshot book out 0) isBid).bestRaw := by
  rw [sideOf_capture, forEachOccupied_zero]
  intro hbest
  exact hrests (hbest.zero.mp rfl)

end Sides

section Reachable

variable {hash : OrderId → UInt64} {s : EngineState}

/-- In every reachable state, two captures have the same summary, and the first lists the
front of the second, exactly when the first has depth at least one or nothing rests. -/
theorem captures_depthFree_iff (h : Reachable hash AnyCall s) (out out' : BookSnapshot)
    {depth depth' : UInt64} (hle : depth ≤ depth') :
    DepthFree s.orderBook out out' depth depth' ↔
      depth ≠ 0 ∨ ∀ isBid, resting s.orderBook isBid = [] := by
  have hlevels := (reachable_sound h).synced.toLevelsOk
  constructor
  · intro hfree
    by_cases hdepth : depth = 0
    · subst depth
      right
      intro isBid
      by_contra hrests
      exact not_best_of_zero out hrests (hfree isBid).best
    · exact Or.inl hdepth
  · intro hdepth isBid
    exact sideSummary hlevels hle (hdepth.imp_right fun hempty => hempty isBid)

/-- Captures of depth one and two of a book with two bids. -/
theorem two_bids_depthFree : ∃ s : EngineState, (resting s.orderBook true).length = 2 ∧
    DepthFree s.orderBook {} {} 1 2 := by
  obtain ⟨s, hs, hp⟩ := @exists_reachable id _ _ anyCall_of_removesNone 100 1 2
    [.addOrder grantingHost 1 100 10 5 .buy .limit 1,
      .addOrder grantingHost 2 101 5 6 .buy .limit 2]
    (fun s => (resting s.orderBook true).length == 2) (by decide +kernel)
  exact ⟨s, by simpa using hp,
    (captures_depthFree_iff hs {} {} (by decide)).mpr (Or.inl (by decide))⟩

/-- A capture of depth zero of a book with one bid reports no bid. -/
theorem depth_zero_hides_bid : ¬ ∀ s, Reachable id AnyCall s → ∀ out out' depth depth',
    depth ≤ depth' → DepthFree s.orderBook out out' depth depth' := by
  intro hall
  obtain ⟨s, hs, hp⟩ := @exists_reachable id _ _ anyCall_of_removesNone 100 1 2
    [.addOrder grantingHost 1 100 10 5 .buy .limit 1]
    (fun s => (resting s.orderBook true).length == 1) (by decide +kernel)
  have hrests : resting s.orderBook true ≠ [] := by
    intro hnil
    rw [hnil] at hp
    cases hp
  exact not_best_of_zero {} hrests (hall s hs {} {} 0 0 (by decide) true).best

end Reachable

end Leka.Snapshots
