import Leka.MarketReadings
import Leka.RemainderPlacements

/-!
The engine gives the answers of its market, the objections included, or a host refuses it memory.
The checks of an order stand in one order, so there is one error that it can meet; an order that
has traded and cannot rest keeps its trades. What the engine answers therefore depends on the
market alone: not on the hash function, the pages, the table or the history of the book.
-/

namespace Leka.MarketRefinement

open Procedures Orders OrderPools PriceLevels PriceLadders OrderBooks MatchingEngines SyncedBooks
  BookInsertions RestingOrders ReferenceMatchers Sweeps MatchingRounds EventOutcomes
  MatcherRefinement InternalErrors ReplayedEvents Observations Markets MarketReadings

section Rests

variable {hash : OrderId → UInt64} {host : Host} {book book' : OrderBook} {order : Order}
  {e : StdException}

/-- What the block around a pending order throws at an order that is valid: what the storage
raises, the objection to the price, or the overflow of the level. -/
theorem attempt_objects (hs : Sound hash book) {p : OrderPtr}
    (hallocated : Allocated hash book book' (fifo book) p order)
    (hlimit : order.orderType = .limit) (hremaining : order.remainingQuantity ≠ 0)
    (hvalid : order.isValid = true) {t : Insertion}
    (hattempt : attempt hash host p { book := book' } = (.throws e, t)) :
    Storage e ∨ (book.ladder order.isBuy).indexOf order.price = .error e ∨
      ∃ index, (book.ladder order.isBuy).indexOf order.price = .ok index ∧
        ¬ order.remainingQuantity ≤
          uint64Max - (book.level ⟨order.isBuy, index.toNat⟩).totalQuantity ∧
        e = .overflowError "Price level quantity overflow" := by
  cases hprice : (book.ladder order.isBuy).indexOf order.price with
  | error e' =>
    rw [attempt_offGrid_run hallocated hvalid hprice] at hattempt
    exact .inr (.inl (congrArg _ (Proc.throws_inj hattempt)))
  | ok index =>
    by_cases hfits : order.remainingQuantity ≤
        uint64Max - (book.level ⟨order.isBuy, index.toNat⟩).totalQuantity
    swap
    · rw [attempt_overflow_run hs.synced hallocated hvalid hprice hremaining hfits] at hattempt
      exact .inr (.inr ⟨index, rfl, hfits, (Proc.throws_inj hattempt).symm⟩)
    obtain ⟨linked, hlinked, _⟩ := @attempt_linked hash book book' (fifo book) p order
      hs.synced hallocated hvalid index hprice hremaining hlimit hfits
    rw [hlinked] at hattempt
    -- What is left is the insertion into the index.
    have hindex : (OrderBooks.onBook (onIndex (OrderIndexing.addOrder hash host.slots p
        order.orderId)) : InsertionProc Unit).Raises Storage :=
      .zoom (.zoom (raises_addToIndex _ _ _))
    exact .inl (hindex _ _ _ hattempt)

theorem insertOrder_objects (hs : Sound hash book) (hlimit : order.orderType = .limit)
    (horiginal : order.originalQuantity ≠ 0) (hremaining : order.remainingQuantity ≠ 0)
    (hle : order.remainingQuantity ≤ order.originalQuantity) (hvalid : order.isValid = true)
    (hthrows : insertOrder hash host order book = (.throws e, book')) :
    Storage e ∨ (book.ladder order.isBuy).indexOf order.price = .error e ∨
      ∃ index, (book.ladder order.isBuy).indexOf order.price = .ok index ∧
        ¬ order.remainingQuantity ≤
          uint64Max - (book.level ⟨order.isBuy, index.toNat⟩).totalQuantity ∧
        e = .overflowError "Price level quantity overflow" := by
  rcases insertOrder_cases hash book host order with ⟨_, hnot⟩ | ⟨_, hbounds⟩ | ⟨hrun, _⟩
  · exact absurd hlimit hnot
  · exact absurd ⟨horiginal, hremaining, hle⟩ hbounds
  rw [hrun] at hthrows
  rcases allocate_order hs.synced host order with
    ⟨_, e', hallocate⟩ | ⟨hgranted, p, book₁, hallocate, hallocated⟩
  · rw [Proc.bind_throws _ hallocate] at hthrows
    rw [← Proc.throws_inj hthrows]
    exact .inl ((raises_allocate _ _ _ _ _ _ _ _).zoom _ _ _ hallocate)
  rw [Proc.bind_returns _ hallocate] at hthrows
  rcases transaction_run hs.synced host hallocated hlimit horiginal hremaining hle hgranted with
    ⟨_, t, l, hattempt, _⟩ | ⟨_, e', t, t', hattempt, hroll, _⟩
  · rw [Proc.bind_returns _ (withLocals_run (Proc.handle_returns _ hattempt))] at hthrows
    simp at hthrows
  · rw [Proc.bind_throws _ (withLocals_run ((Proc.handle_throws _ hattempt).trans hroll))]
      at hthrows
    rw [← Proc.throws_inj hthrows]
    exact attempt_objects hs hallocated hlimit hremaining hvalid hattempt

end Rests

section Markets

variable {hash : OrderId → UInt64} {host : Host} {order : NewOrder} {s s' t : EngineState}
  {market : Market}

theorem marketOf_eq (hbook : bookOf s = market.book)
    (hgrid : ∀ d, gridOf (s.orderBook.ladder d) = market.grid d)
    (hsurplus : ∀ d price, surplusOf s.orderBook d price = market.surplus d price) :
    marketOf s = market := by
  obtain ⟨book, grid, surplus⟩ := market
  rw [marketOf, Market.mk.injEq]
  exact ⟨hbook, funext hgrid, funext fun d => funext (hsurplus d)⟩

theorem gridOf_same {ladder ladder' : PriceLadder} (h : PriceLadder.SameGrid ladder ladder') :
    gridOf ladder' = gridOf ladder := by
  rw [gridOf, gridOf, h.minPrice, h.maxPrice, h.tickSize]

/-- Books with the same levels and the same excess have the same surplus. -/
theorem surplusOf_same {book book' : OrderBook} (hs : Sound hash book) (hs' : Sound hash book')
    (hgrid : ∀ d, PriceLadder.SameGrid (book.ladder d) (book'.ladder d))
    (hexcess : ∀ l, l.index < (book.ladder l.descending).levelCount.toNat →
      excess book' l = excess book l) (d : Bool) (price : ℕ) :
    surplusOf book' d price = surplusOf book d price := by
  have hgrows := @surplusOf_grows book book' d price (hs.synced.configured d)
    (hs'.synced.configured d) (hgrid d) (fun _ => 0)
    (fun i hi => hexcess ⟨d, i⟩ hi) (fun _ => rfl)
  rwa [Nat.add_zero] at hgrows

/-- A resting order has the price of a level. -/
theorem price_of_resting (hs : Sound hash s.orderBook) {d : Bool} {r : Resting}
    (hr : r ∈ resting s.orderBook d) :
    ∃ i < (s.orderBook.ladder d).levelCount.toNat,
      (s.orderBook.ladder d).slotPrice i = r.price := by
  have hlevels := hs.synced.toLevelsOk
  obtain ⟨p, hp, rfl⟩ := List.mem_map.mp hr
  obtain ⟨i, hp⟩ := (hlevels.mem_sideOrders d).mp hp
  exact ⟨i, hlevels.queue_lt hp, (price_toNat hlevels hp).symm⟩

/-- Nothing is used up between the levels. -/
theorem usedUp_between (hs : Sound hash s.orderBook) {price : ℕ}
    (hnone : ∀ i < (s.orderBook.ladder (!isBid order)).levelCount.toNat,
      (s.orderBook.ladder (!isBid order)).slotPrice i ≠ price) :
    usedUp price (filledBy order s).fills = 0 := by
  have hnot : (filledBy order s).fills.filter (fun fill =>
      fill.1.price = price ∧ fill.2 = fill.1.remainingQuantity) = [] := by
    refine List.filter_eq_nil_iff.mpr fun taken htaken hused => ?_
    have hmem : taken.1 ∈ (filledBy order s).fills.map Prod.fst := List.mem_map_of_mem htaken
    rw [filledBy, fill, fills_isPrefix] at hmem
    obtain ⟨i, hi, hprice⟩ := price_of_resting hs (List.mem_of_mem_take hmem)
    exact hnone i hi (hprice.trans (of_decide_eq_true hused).1)
  rw [usedUp, hnot]
  rfl

/-- The matching loop makes the trades of the market. -/
theorem marketOf_traded (hs : Sound hash s.orderBook) (haccepted : Accepted order s)
    {left : UInt64} (hloop : matchLoop hash host order
      (s.orderBook.orderPool.liveOrderCount.toNat + 1) order.quantity (numbered s) =
        (.returns left, t)) :
    marketOf t = (marketOf s).traded order := by
  obtain ⟨_, hmatched⟩ := matchLoop_returns hs haccepted.valid hloop
  have hfilled : fill order order.quantity.toNat ((marketOf s).book.side !isBid order) =
      filledBy order s := by
    change fill _ _ ((bookOf s).side _) = _
    rw [side_bookOf]
    rfl
  simp only [Market.traded, hfilled]
  refine marketOf_eq (bookOf_eq (fun d => ?_) ?_) (fun d => gridOf_same (hmatched.grid d)) ?_
  · exact (bookOf_matched haccepted.counter hmatched d).1
  · exact (bookOf_matched haccepted.counter hmatched true).2
  · intro d price
    refine @surplusOf_grows s.orderBook t.orderBook d price (hs.synced.configured d)
      (hmatched.sound.synced.configured d) (hmatched.grid d)
      (fun price => if d = !isBid order then usedUp price (filledBy order s).fills else 0) ?_ ?_
    · intro i hi
      split_ifs with hside
      · exact matchLoop_excess (s := numbered s) (l := ⟨d, i⟩) hs (testsLimit haccepted.valid)
          (length_resting_le hs _) order.quantity hside hi left t hloop
      · have hown : d = isBid order := by
          rwa [Bool.eq_not, ne_eq, not_not] at hside
        have hlevel : t.orderBook.level ⟨d, i⟩ = s.orderBook.level ⟨d, i⟩ :=
          hmatched.level _ hown
        have hqueue : fifo t.orderBook ⟨d, i⟩ = fifo s.orderBook ⟨d, i⟩ := hmatched.queue _ hown
        have hsum : remainingSum t.orderBook.memory (fifo s.orderBook ⟨d, i⟩) =
            remainingSum s.orderBook.memory (fifo s.orderBook ⟨d, i⟩) :=
          remainingSum_congr fun p hp => congrArg _ (hmatched.orders _ hown p hp)
        rw [excess, hlevel, hqueue, hsum, Nat.add_zero, excess]
    · intro hnone
      split_ifs with hside
      · subst hside
        exact usedUp_between hs hnone
      · rfl

theorem absent_resting {id : OrderId} :
    (∃ other ∈ (marketOf s).resting, other.orderId = id) ↔
      ¬ ∀ d, ∀ r ∈ resting s.orderBook d, r.orderId ≠ id := by
  have hresting : (marketOf s).resting = resting s.orderBook true ++ resting s.orderBook false :=
    rfl
  rw [hresting]
  constructor
  · rintro ⟨r, hr, hid⟩ hnone
    rcases List.mem_append.mp hr with hr | hr
    · exact hnone true r hr hid
    · exact hnone false r hr hid
  · intro hsome
    by_contra hnone
    refine hsome fun d r hr hid => hnone ⟨r, ?_, hid⟩
    cases d
    · exact List.mem_append_right _ hr
    · exact List.mem_append_left _ hr

/-- The checks of the engine are those of the market, in one order. -/
theorem matchOrder_checks (hs : Sound hash s.orderBook) (host : Host) (order : NewOrder) :
    (∃ e, (marketOf s).checkOrder order = .error e ∧
      matchOrder hash host order s = (.throws e, s)) ∨
      ((marketOf s).checkOrder order = .ok () ∧ Accepted order s) := by
  have hcounter : (marketOf s).book.lastSequence = 2 ^ 64 - 1 ↔ s.currentSequence = uint64Max := by
    rw [← UInt64.toNat_inj]
    rfl
  unfold Market.checkOrder
  by_cases haccepted : Accepted order s
  · right
    rw [haccepted.valid]
    dsimp only
    rw [if_neg fun hrests => absent_resting.mp hrests haccepted.absent,
      if_neg (mt hcounter.mp haccepted.counter)]
    exact ⟨rfl, haccepted⟩
  left
  unfold matchOrder
  cases hvalid : validate order with
  | error e => exact ⟨e, rfl, rfl⟩
  | ok _ =>
    dsimp only
    rw [Proc.check_ok, Proc.pure_bind_apply]
    obtain ⟨found, hfind, hcase⟩ := hs.synced.findOrder_run order.orderId
    rw [Proc.bind_returns _ (MatchingRounds.onBook_run hfind)]
    rcases hcase with ⟨hnull, habsent⟩ | ⟨l, hp, hid⟩
    · have habsent' := (absent_iff hs _).mpr habsent
      by_cases hmax : s.currentSequence = uint64Max
      · refine ⟨_, by rw [if_neg fun hrests => absent_resting.mp hrests habsent',
          if_pos (hcounter.mpr hmax)], ?_⟩
        rw [hnull]
        simp only [ne_eq, not_true, if_false]
        exact Proc.bind_throws _ ((generate_run s).trans (if_pos hmax))
      · exact absurd ⟨hvalid, habsent', hmax⟩ haccepted
    · have hrests : ¬ ∀ d, ∀ r ∈ resting s.orderBook d, r.orderId ≠ order.orderId :=
        fun habsent => (absent_iff hs _).mp habsent l found hp hid
      refine ⟨_, by rw [if_pos (absent_resting.mpr hrests)], ?_⟩
      rw [if_pos (hs.synced.ne_null hp), Proc.throw_bind_apply]

/-- A remainder that the market places is inserted, or memory is refused; another is refused with
the objection of the market, and nothing of it is left. -/
theorem rests_or_not (hs : Sound hash t.orderBook) (order : NewOrder) {remainder : Order} {left : ℕ}
    (hprice : remainder.price = order.price) (hbuy : remainder.isBuy = isBid order)
    (hleft : remainder.remainingQuantity.toNat = left) (hlimit : remainder.orderType = .limit)
    (horiginal : remainder.originalQuantity ≠ 0) (hremaining : remainder.remainingQuantity ≠ 0)
    (hle : remainder.remainingQuantity ≤ remainder.originalQuantity)
    (hvalid : remainder.isValid = true) (host : Host) :
    (∃ e book', insertOrder hash host remainder t.orderBook = (.throws e, book') ∧ Storage e) ∨
    (∃ e book', insertOrder hash host remainder t.orderBook = (.throws e, book') ∧
      (marketOf t).placeable order left = .error e ∧
      Rejected hash t.orderBook book' (fifo t.orderBook)) ∨
    ∃ book' l p, insertOrder hash host remainder t.orderBook = (.returns p, book') ∧
      (marketOf t).placeable order left = .ok () ∧
      Insertable host t.orderBook (fifo t.orderBook) remainder ∧
      Inserted hash t.orderBook book' (fifo t.orderBook) l p remainder := by
  have hconfigured := hs.synced.configured (isBid order)
  have hcheck := check_gridOf hconfigured order.price
  have hgrid : (marketOf t).grid (isBid order) = gridOf (t.orderBook.ladder (isBid order)) := rfl
  have hfits : ∀ index, (t.orderBook.ladder (isBid order)).indexOf order.price = .ok index →
      (2 ^ 64 - 1 < (marketOf t).shown (isBid order) order.price.toNat + left ↔
        ¬ remainder.remainingQuantity ≤
          uint64Max - (t.orderBook.level ⟨isBid order, index.toNat⟩).totalQuantity) := by
    intro index hok
    obtain ⟨hi, hslot⟩ := hconfigured.indexOf_ok hok
    rw [hslot, shown_level hs hi, UInt64.le_iff_toNat_le, UInt64.toNat_sub_of_le, hleft]
    · have hlt := (t.orderBook.level ⟨isBid order, index.toNat⟩).totalQuantity.toNat_lt
      have hmax : uint64Max.toNat = 2 ^ 64 - 1 := rfl
      rw [hmax]
      omega
    · exact UInt64.le_iff_toNat_le.mpr
        (Nat.le_of_lt_succ (UInt64.toNat_lt _))
  rcases insertOrder_run hs.synced host remainder with
    ⟨hinsertable, book', l, p, hrun, hinserted⟩ | ⟨_, e, book', hrun, hrejected⟩
  · right; right
    refine ⟨book', l, p, hrun, ?_, hinsertable, hinserted⟩
    obtain ⟨index, hok⟩ := hinsertable.price
    have hfit := hinsertable.fits index hok
    rw [hbuy] at hok hfit
    rw [hprice] at hok
    rw [Market.placeable, hgrid, hcheck, hok]
    exact if_neg fun hover => ((hfits index hok).mp hover) hfit
  · rcases insertOrder_objects hs hlimit horiginal hremaining hle hvalid hrun with
      hstorage | hoff | ⟨index, hok, hover, rfl⟩
    · exact .inl ⟨e, book', hrun, hstorage⟩
    · right; left
      rw [hbuy, hprice] at hoff
      refine ⟨e, book', hrun, ?_, hrejected⟩
      rw [Market.placeable, hgrid, hcheck, hoff]
      rfl
    · right; left
      rw [hbuy] at hok hover
      rw [hprice] at hok
      refine ⟨_, book', hrun, ?_, hrejected⟩
      rw [Market.placeable, hgrid, hcheck, hok]
      exact if_pos ((hfits index hok).mpr hover)

/-- A refused insertion leaves the market as it is. -/
theorem marketOf_rejected (hs : Sound hash t.orderBook) {book' : OrderBook}
    (h : Rejected hash t.orderBook book' (fifo t.orderBook)) :
    marketOf { t with orderBook := book' } = marketOf t := by
  have hs' : Sound hash book' := sound_of_synced h.synced (positive_rejected hs.positive h)
  refine marketOf_eq (bookOf_eq (fun d => ?_) rfl) (fun d => gridOf_same (h.grid d)) ?_
  · change resting book' d = (bookOf t).side d
    rw [side_bookOf, resting_rejected hs.synced.toLevelsOk h]
  · exact surplusOf_same hs hs' h.grid fun l _ => excess_rejected h l

/-- An inserted remainder is placed in the market. -/
theorem marketOf_inserted (hs : Sound hash t.orderBook) {remainder : Order} {left : ℕ}
    {book' : OrderBook} {l : LevelPtr} {p : OrderPtr} (hbuy : remainder.isBuy = isBid order)
    (hrecord : restingOf remainder =
      ReferenceMatchers.remainder order t.currentSequence.toNat left)
    (hremaining : remainder.remainingQuantity ≠ 0)
    (hinsertable : Insertable host t.orderBook (fifo t.orderBook) remainder)
    (h : Inserted hash t.orderBook book' (fifo t.orderBook) l p remainder) :
    marketOf { t with orderBook := book' } = (marketOf t).placed order left := by
  have hlevels := hs.synced.toLevelsOk
  have hs' : Sound hash book' :=
    sound_of_synced h.synced (positive_inserted hs.positive hremaining h)
  refine marketOf_eq (bookOf_eq (fun d => ?_) ?_) (fun d => gridOf_same (h.grid d)) ?_
  · by_cases hd : d = isBid order
    · rw [hd]
      have hown := resting_inserted hlevels h
      rw [hbuy, hrecord] at hown
      change resting book' (isBid order) = _
      rw [hown, Market.placed, side_setSide_self]
      change _ = enqueue _ _ ((bookOf t).side _)
      rw [side_bookOf]
      rfl
    · have hother := resting_inserted_ne hlevels h (by rw [hbuy]; exact hd)
      change resting book' d = _
      have hd' : d = !isBid order := by
        cases d <;> cases hb : isBid order <;> simp_all
      rw [hother, Market.placed, ← side_bookOf, hd']
      cases isBid order <;> rfl
  · change _ = ((marketOf t).book.setSide _ _).lastSequence
    rw [lastSequence_setSide]
    rfl
  · exact surplusOf_same hs hs' h.grid fun m _ =>
      excess_inserted h (hinsertable.fits_level hlevels h) m

/-- How a call ends that is answered so. -/
def outcomeOf {α : Type} (a : α) : Option StdException → Outcome StdException α
  | none => .returns a
  | some e => .throws e

/-- A call of the engine gives an answer of the market: its outcome, its executions and what it
leaves behind. -/
structure Gives {α : Type} (before : List Trade) (a : α) (answer : Answer)
    (result : Outcome StdException α × EngineState) : Prop where
  outcome : result.1 = outcomeOf a answer.error
  trades : result.2.out.map tradeOf = before ++ answer.trades
  market : marketOf result.2 = answer.market

/-- The outcome is that memory has been refused. -/
def RefusesMemory {α : Type} (o : Outcome StdException α) : Prop := ∃ e, o = .throws e ∧ Storage e

theorem matchOrder_gives (hs : Sound hash s.orderBook) (host : Host) (order : NewOrder) :
    RefusesMemory (matchOrder hash host order s).1 ∨
      Gives (s.out.map tradeOf) () ((marketOf s).submit order)
        (matchOrder hash host order s) := by
  rcases matchOrder_checks hs host order with ⟨e, hchecks, hrun⟩ | ⟨hchecks, haccepted⟩
  · right
    rw [hrun, Market.submit, hchecks]
    exact ⟨rfl, (List.append_nil _).symm, rfl⟩
  have hfilled : fill order order.quantity.toNat ((marketOf s).book.side !isBid order) =
      filledBy order s := by
    change fill _ _ ((bookOf s).side _) = _
    rw [side_bookOf]
    rfl
  rw [matchOrder_accepted hs host haccepted, Market.submit, hchecks]
  simp only [hfilled]
  rcases matchLoop_run (s := numbered s) hs (testsLimit haccepted.valid)
      (length_resting_le hs _) host order.quantity rfl with
    ⟨left, t, hloop, hleft, -, hmatched⟩ | ⟨_, t, hthrows, -⟩
  swap
  · left
    rw [Proc.bind_throws _ hthrows]
    exact ⟨_, rfl, by decide⟩
  rw [Proc.bind_returns _ hloop, ← marketOf_traded hs haccepted hloop]
  have hleft : left.toNat = (filledBy order s).left := hleft
  have htrades : t.out.map tradeOf = s.out.map tradeOf ++
      (filledBy order s).fills.map (tradeWith order) := hmatched.trades
  have hrests : (left > 0 ∧ order.orderType = .limit) ↔
      (order.orderType = .limit ∧ (filledBy order s).left ≠ 0) := by
    rw [← hleft, gt_iff_lt, UInt64.lt_iff_toNat_lt, and_comm]
    exact and_congr_right fun _ => Nat.pos_iff_ne_zero
  by_cases hlimit : left > 0 ∧ order.orderType = .limit
  swap
  · right
    rw [if_neg hlimit, if_neg (mt hrests.mpr hlimit)]
    exact ⟨rfl, htrades, rfl⟩
  rw [if_pos hlimit, if_pos (hrests.mp hlimit)]
  have hpositive : left ≠ 0 := by
    intro hzero
    rw [hzero] at hlimit
    exact absurd hlimit.1 (by decide)
  have hle : left ≤ order.quantity := by
    have hswept : (filledBy order s).left ≤ order.quantity.toNat := by
      rw [filledBy, fill]
      have hsum := @sum_fills _ Resting.remainingQuantity Resting.withRemaining (allows order)
        order.quantity.toNat (resting s.orderBook (!isBid order))
      omega
    exact UInt64.le_iff_toNat_le.mpr (hleft ▸ hswept)
  obtain ⟨_, hquantity, _⟩ := valid_fields haccepted.valid
  have hvalid := RemainderPlacements.remainder_valid haccepted hlimit.2 hle
  have hbuy : (remainderOrder order (s.currentSequence + 1) left).isBuy = isBid order := rfl
  rcases rests_or_not hmatched.sound order rfl hbuy hleft rfl hquantity hpositive hle
      hvalid host with
    ⟨e, book', hinsert, hstorage⟩ | ⟨e, book', hinsert, hobjects, hrejected⟩ |
      ⟨book', l, p, hinsert, hplaces, hinsertable, hinserted⟩
  · left
    rw [Proc.bind_throws _ (MatchingRounds.onBook_run hinsert)]
    exact ⟨e, rfl, hstorage⟩
  · right
    rw [Proc.bind_throws _ (MatchingRounds.onBook_run hinsert), hobjects]
    exact ⟨rfl, htrades, marketOf_rejected hmatched.sound hrejected⟩
  · right
    rw [Proc.bind_returns _ (MatchingRounds.onBook_run hinsert), hplaces]
    have hcounter : t.currentSequence = s.currentSequence + 1 := hmatched.counter
    refine ⟨rfl, htrades, marketOf_inserted hmatched.sound hbuy ?_ hpositive hinsertable
      hinserted⟩
    rw [hcounter, ← hleft]
    rfl

/-- A cancellation or a reduction that returns changes the book of the market only. -/
theorem marketOf_event (hs : Sound hash s.orderBook) {event : OrderEvent} {n : ℕ}
    (hnew : ∀ order, event ≠ .new order)
    (hrun : processEvent hash host event s = (.returns n, s')) :
    marketOf s' = { marketOf s with book := (respond event (bookOf s)).2 } := by
  have hends := processEvent_ends hs host event
  rw [hrun] at hends
  obtain ⟨-, -, hbook⟩ := event_refines hs hends
  have hgrid : BookGrids.SameGrids s.orderBook s'.orderBook := by
    have hevent := BookGrids.grids_event hs host event
    rwa [hrun] at hevent
  refine marketOf_eq hbook (fun d => gridOf_same (hgrid d)) ?_
  refine surplusOf_same hs (hends.sound hs) hgrid fun l hl => ?_
  have hdrift : drift event s l = 0 := by
    cases event with
    | new order => exact absurd rfl (hnew order)
    | cancel | reduce => rfl
  rw [event_excess hs hrun hl, hdrift, Nat.add_zero]

theorem cancel_gives (hs : Sound hash s.orderBook) (host : Host) (order : CancelOrder) :
    Gives [] 0 ((marketOf s).cancel order) (processEvent hash host (.cancel order) s) := by
  have hends := processEvent_ends hs host (.cancel order)
  generalize hrun : processEvent hash host (.cancel order) s = result at hends
  have hreturns : order.orderId ≠ 0 → ∀ s', processEvent hash host (.cancel order) s =
      (.returns 0, s') → s'.out = [] →
      Gives [] 0 ((marketOf s).cancel order) (.returns 0, s') := by
    intro hid s' hrun hout
    rw [Market.cancel, if_neg hid]
    exact ⟨rfl, congrArg _ hout, marketOf_event hs (fun _ h => by cases h) hrun⟩
  cases hends with
  | cancelInvalid hid =>
    rw [Market.cancel, if_pos hid]
    exact ⟨rfl, rfl, rfl⟩
  | cancelAbsent hid => exact hreturns hid _ hrun rfl
  | cancelled hid => exact hreturns hid _ hrun rfl

theorem reduce_gives (hs : Sound hash s.orderBook) (host : Host) (reduction : ReduceOrder) :
    Gives [] 0 ((marketOf s).reduce reduction)
      (processEvent hash host (.reduce reduction) s) := by
  have hends := processEvent_ends hs host (.reduce reduction)
  generalize hrun : processEvent hash host (.reduce reduction) s = result at hends
  have hself : SameState s s := ⟨⟨.refl s.orderBook, fun _ => rfl, fun _ => rfl⟩, rfl⟩
  have hreturns : ∀ s', processEvent hash host (.reduce reduction) s = (.returns 0, s') →
      s'.out = [] → Gives [] 0 ((marketOf s).reduce reduction) (.returns 0, s') := by
    intro s' hrun hout
    obtain ⟨hid, hfits⟩ := hself.reduce_fits hs hs hrun
    have hnone : ¬ ∃ order ∈ (marketOf s).resting, order.orderId = reduction.orderId ∧
        (reduction.newQuantity = 0 ∨ order.remainingQuantity < reduction.newQuantity.toNat) := by
      rintro ⟨r, hr, horder, hquantity⟩
      have hr : ∃ d, r ∈ resting s.orderBook d := by
        rcases List.mem_append.mp hr with hr | hr
        · exact ⟨true, hr⟩
        · exact ⟨false, hr⟩
      obtain ⟨d, hr⟩ := hr
      obtain ⟨p, hp, rfl⟩ := List.mem_map.mp hr
      obtain ⟨i, hp⟩ := (hs.synced.toLevelsOk.mem_sideOrders d).mp hp
      obtain ⟨hpositive, hle⟩ := hfits _ p hp horder
      rcases hquantity with hzero | hlt
      · exact hpositive hzero
      · exact absurd (UInt64.le_iff_toNat_le.mp hle) (not_le.mpr hlt)
    rw [Market.reduce, if_neg hid, if_neg hnone]
    exact ⟨rfl, congrArg _ hout, marketOf_event hs (fun _ h => by cases h) hrun⟩
  cases hends with
  | reduceInvalid hid =>
    rw [Market.reduce, if_pos hid]
    exact ⟨rfl, rfl, rfl⟩
  | @reduceRefused _ l p hid hp horder hquantity =>
    have hmem : restingOf (s.orderBook.memory p) ∈ resting s.orderBook l.descending :=
      List.mem_map.mpr ⟨p, (hs.synced.toLevelsOk.mem_sideOrders _).mpr ⟨l.index, hp⟩, rfl⟩
    have hrests : restingOf (s.orderBook.memory p) ∈ (marketOf s).resting := by
      change _ ∈ resting s.orderBook true ++ resting s.orderBook false
      cases hd : l.descending <;> rw [hd] at hmem
      · exact List.mem_append_right _ hmem
      · exact List.mem_append_left _ hmem
    rw [Market.reduce, if_neg hid, if_pos ⟨_, hrests, horder,
      hquantity.imp_right UInt64.lt_iff_toNat_lt.mp⟩]
    exact ⟨rfl, rfl, rfl⟩
  | reduceAbsent => exact hreturns _ hrun rfl
  | reduceSame => exact hreturns _ hrun rfl
  | reduced => exact hreturns _ hrun rfl

/-- Every call on a book whose parts agree is refused memory, or gives the answer of the market. -/
theorem processEvent_gives (hs : Sound hash s.orderBook) (host : Host) (event : OrderEvent) :
    RefusesMemory (processEvent hash host event s).1 ∨
      Gives [] ((marketOf s).answer event).trades.length ((marketOf s).answer event)
        (processEvent hash host event s) := by
  cases event with
  | cancel order =>
    right
    have hgives := cancel_gives hs host order
    have hnone : ((marketOf s).cancel order).trades.length = 0 := by
      rw [Market.cancel]
      split_ifs <;> rfl
    rw [Market.answer, hnone]
    exact hgives
  | reduce reduction =>
    right
    have hgives := reduce_gives hs host reduction
    have hnone : ((marketOf s).reduce reduction).trades.length = 0 := by
      rw [Market.reduce]
      split_ifs <;> rfl
    rw [Market.answer, hnone]
    exact hgives
  | new order =>
    have hgives := matchOrder_gives (s := emptied s) hs host order
    generalize hrun : matchOrder hash host order (emptied s) = result at hgives
    obtain ⟨o, s'⟩ := result
    rw [processEvent_new hrun]
    rcases hgives with ⟨e, ho, hstorage⟩ | ⟨houtcome, htrades, hmarket⟩
    · left
      have ho : o = .throws e := ho
      subst ho
      exact ⟨e, rfl, hstorage⟩
    · right
      have houtcome : o = outcomeOf () ((marketOf s).submit order).error := houtcome
      have htrades : s'.out.map tradeOf = ((marketOf s).submit order).trades := htrades
      have hlength := congrArg List.length htrades
      rw [List.length_map] at hlength
      refine ⟨?_, htrades, hmarket⟩
      rw [Market.answer, houtcome, ← hlength]
      cases ((marketOf s).submit order).error <;> rfl

end Markets

end Leka.MarketRefinement
