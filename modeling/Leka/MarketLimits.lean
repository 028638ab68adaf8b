import Leka.RestThenCancel

/-!
A market order is a limit order without a bound. The loop tests the type of an order only
against the best opposing price, so two orders that agree there go through the same rounds,
each round reading the same book. What a limit order has left is then one order more at the
tail of its level.
-/

namespace Leka.MarketLimits

open Procedures Orders OrderPools PriceLevels PriceLadders OrderBooks MatchingEngines SyncedBooks
  BookInsertions RestingOrders ReferenceMatchers Sweeps MatchingRounds EventOutcomes MatchingLoops
  BookRuns FailedInsertions RestThenCancel

section LockStep

variable {hash : OrderId → UInt64} {host host' : Host} {order order' : NewOrder}
  {remaining : UInt64} {s : EngineState}

/-- The orders name the same executions on the same side, and every resting order there is
tested alike. -/
structure Alike (order order' : NewOrder) (book : OrderBook) : Prop where
  orderId : order'.orderId = order.orderId
  orderSide : order'.orderSide = order.orderSide
  limits : ∀ p ∈ sideOrders book (fifo book) (!isBid order),
    limitForbids order' (book.memory p).price = limitForbids order (book.memory p).price

/-- One of the procedures throws, or they end alike. -/
def AgreeUnlessThrown {α : Type} (x y : Outcome StdException α × EngineState) : Prop :=
  (∃ e t, x = (.throws e, t)) ∨ (∃ e t, y = (.throws e, t)) ∨ y = x

theorem Alike.best (h : Alike order order' s.orderBook) (hs : Sound hash s.orderBook)
    {l : LevelPtr} (hbest : (s.orderBook.ladder !isBid order).best = some l) :
    limitForbids order' (s.orderBook.level l).price =
      limitForbids order (s.orderBook.level l).price := by
  rcases best_cases hs.synced.toLevelsOk (!isBid order) with
    ⟨hnone, _⟩ | ⟨l', p, ps, hside, hbest', hqueue, hfirst⟩
  · rw [hbest] at hnone
    exact absurd hnone (by simp)
  · obtain rfl : l = l' := Option.some.inj (hbest.symm.trans hbest')
    have hp : p ∈ fifo s.orderBook l := by
      rw [hqueue]
      exact List.mem_cons_self
    have hprice : (s.orderBook.memory p).price = (s.orderBook.level l).price :=
      (hs.synced.represents l).price p hp
    rw [← hprice]
    exact h.limits p (by rw [hfirst]; exact List.mem_cons_self)

theorem emplaceBack_agrees {α : Type} (execution : Execution) (k : Unit → EngineProc α) :
    AgreeUnlessThrown ((emplaceBack host execution >>= k) s)
      ((emplaceBack host' execution >>= k) s) := by
  have hrun := emplaceBack_run host execution s
  have hrun' := emplaceBack_run host' execution s
  cases hroom : host.buffer s.out.length
  · rw [hroom] at hrun
    exact .inl ⟨_, _, Proc.bind_throws _ hrun⟩
  · cases hroom' : host'.buffer s.out.length
    · rw [hroom'] at hrun'
      exact .inr (.inl ⟨_, _, Proc.bind_throws _ hrun'⟩)
    · rw [hroom] at hrun
      rw [hroom'] at hrun'
      rw [Proc.bind_returns _ hrun, Proc.bind_returns _ hrun']
      exact .inr (.inr rfl)

/-- One round: the host decides whether the buffer has room, and nothing else tells the two
orders apart. -/
theorem matchRound_agrees (hs : Sound hash s.orderBook) (h : Alike order order' s.orderBook) :
    AgreeUnlessThrown (matchRound hash host order remaining s)
      (matchRound hash host' order' remaining s) := by
  have hbid : isBid order' = isBid order := by rw [isBid, isBid, h.orderSide]
  by_cases hzero : remaining = 0
  · rw [hzero, matchRound_zero, matchRound_zero]
    exact .inr (.inr rfl)
  simp only [matchRound, if_neg hzero, Proc.get_bind_apply, best_eq, hbid]
  cases hbest : (s.orderBook.ladder !isBid order).best with
  | none => exact .inr (.inr rfl)
  | some l =>
    simp only [h.best hs hbest, h.orderId]
    by_cases hforbids : limitForbids order (s.orderBook.level l).price = true
    · simp only [hforbids, if_true]
      exact .inr (.inr rfl)
    by_cases hnull : (s.orderBook.level l).headOrder = nullptr
    · simp only [hforbids, hnull, if_true]
      exact .inr (.inr rfl)
    simp only [hforbids, hnull, Bool.false_eq_true, if_false]
    exact emplaceBack_agrees _ _

/-- A round leaves no price on the opposite side that was not there. -/
theorem Alike.kept {s' : EngineState} {fills : List (Resting × ℕ)} {rest : List Resting}
    (h : Alike order order' s.orderBook) (hmatched : Matched hash order s s' fills rest)
    (hrest : ∀ r ∈ rest, ∃ q ∈ sideOrders s.orderBook (fifo s.orderBook) (!isBid order),
      r.price = (s.orderBook.memory q).price.toNat) : Alike order order' s'.orderBook where
  orderId := h.orderId
  orderSide := h.orderSide
  limits p hp := by
    have hmem : restingOf (s'.orderBook.memory p) ∈ rest := by
      rw [← hmatched.opposite]
      exact List.mem_map_of_mem hp
    obtain ⟨q, hq, hprice⟩ := hrest _ hmem
    have heq : (s'.orderBook.memory p).price = (s.orderBook.memory q).price :=
      UInt64.toNat_inj.mp hprice
    rw [heq]
    exact h.limits q hq

/-- The loops go through the same states, round by round. -/
theorem matchLoop_agrees (hs : Sound hash s.orderBook) (h : Alike order order' s.orderBook)
    (fuel : ℕ) : AgreeUnlessThrown (matchLoop hash host order fuel remaining s)
      (matchLoop hash host' order' fuel remaining s) := by
  induction fuel generalizing remaining s with
  | zero => exact .inr (.inr rfl)
  | succ fuel ih =>
    have hends := matchRound_ends hs.synced host order remaining
    rcases @matchRound_agrees hash host host' order order' remaining s hs h with
      ⟨e, t, hround⟩ | ⟨e, t, hround⟩ | hround
    · exact .inl ⟨e, t, matchLoop_throws hround⟩
    · exact .inr (.inl ⟨e, t, matchLoop_throws hround⟩)
    generalize hrun : matchRound hash host order remaining s = result at hends hround
    cases hends with
    | stops hstops =>
      rw [matchLoop_stops hrun, matchLoop_stops hround]
      exact .inr (.inr rfl)
    | refused hmeets hbuffer => exact .inl ⟨_, _, matchLoop_throws hrun⟩
    | filled hmeets hbuffer hle hremoved =>
      have hmatched := matched_filled hs hmeets hremoved
      rw [matchLoop_continues hrun, matchLoop_continues hround]
      refine ih hmatched.sound (h.kept hmatched ?_)
      intro r hr
      obtain ⟨q, hq, rfl⟩ := List.mem_map.mp hr
      exact ⟨q, by rw [hmeets.first]; exact List.mem_cons_of_mem _ hq, rfl⟩
    | partly hmeets hbuffer hlt =>
      have hmatched := matched_partly hs hmeets hlt
      rw [matchLoop_continues hrun, matchLoop_continues hround]
      refine ih hmatched.sound (h.kept hmatched ?_)
      intro r hr
      rcases List.mem_cons.mp hr with rfl | hr
      · exact ⟨_, by rw [hmeets.first]; exact List.mem_cons_self, rfl⟩
      · obtain ⟨q, hq, rfl⟩ := List.mem_map.mp hr
        exact ⟨q, by rw [hmeets.first]; exact List.mem_cons_of_mem _ hq, rfl⟩

end LockStep

section Remainders

variable {hash : OrderId → UInt64} {book book' : OrderBook} {l : LevelPtr} {p : OrderPtr}
  {order : Order}

/-- The second book has one order more, at the tail of the queue at `l`. -/
structure OneMore (hash : OrderId → UInt64) (book book' : OrderBook) (l : LevelPtr) (p : OrderPtr)
    (order : Order) : Prop where
  side : l.descending = order.isBuy
  price : order.price.toNat = (book.ladder l.descending).slotPrice l.index
  queues : fifo book' = Function.update (fifo book) l (fifo book l ++ [p])
  placed : (book'.memory p).detached = order.detached
  orders : ∀ m, ∀ q ∈ fifo book m, (book'.memory q).detached = (book.memory q).detached
  level_ne : ∀ m, m ≠ l → book'.level m = book.level m
  untouched : ∀ m, m ≠ l → ∀ q ∈ fifo book m, book'.memory q = book.memory q
  total : (book'.level l).totalQuantity = (book.level l).totalQuantity + order.remainingQuantity
  opposite : book'.ladder (!l.descending) = book.ladder (!l.descending)
  found : ∀ id, (OrderIndexing.findOrder hash id book'.orderIndex).1 =
    if id = order.orderId then .returns p
    else (OrderIndexing.findOrder hash id book.orderIndex).1

theorem oneMore_of_inserted (hs : Sound hash book)
    (hi : Inserted hash book book' (fifo book) l p order) : OneMore hash book book' l p order := by
  have hqueues := fifo_eq hi.synced.toLevelsOk
  have hlevels := hi.synced.toLevelsOk
  have hid : (book'.memory p).orderId = order.orderId := (detached_fields hi.placed).1
  have hother : ∀ m, m ≠ l → Function.update (fifo book) l (fifo book l ++ [p]) m = fifo book m :=
    fun m hm => Function.update_of_ne hm _ _
  have hrepresents : ∀ m, m ≠ l → PriceLevels.Represents m ⟨book'.level m, book'.memory⟩
      (fifo book m) := fun m hm => hother m hm ▸ hlevels.represents m
  refine ⟨hi.side, hi.price, hqueues, hi.placed, hi.orders, ?_, ?_, hi.total, ?_, ?_⟩
  · intro m hm
    exact level_unique (hs.synced.represents m) (hrepresents m hm)
      (level_price_eq hs.synced.toLevelsOk hlevels hi.grid m) (hi.total_ne m hm)
  · intro m hm q hq
    exact order_unique (hs.synced.represents m) (hrepresents m hm) hq (hi.orders m q hq)
  · have hne : ∀ i, (⟨!l.descending, i⟩ : LevelPtr) ≠ l := by
      intro i heq
      have hside := congrArg LevelPtr.descending heq
      cases hd : l.descending <;> simp [hd] at hside
    exact ladder_of_queues hs.synced.toLevelsOk hlevels hi.grid (fun i => hother _ (hne i))
      fun i => hi.total_ne _ (hne i)
  · intro id
    split
    · rename_i heq
      -- the entry of the new order
      have hmaps : IndexAsMap.Maps book'.orderIndex id p := by
        rw [hi.synced.indexed]
        refine ⟨⟨l, ?_⟩, hid.trans heq.symm⟩
        rw [Function.update_self]
        exact List.mem_append_right _ (List.mem_singleton_self p)
      obtain ⟨found, hrun, ⟨_, habsent⟩ | hfound⟩ :=
        IndexAsMap.findOrder_spec hi.synced.index id
      · exact absurd hmaps (habsent p)
      · rw [hrun, hi.synced.index.functional hfound hmaps]
    · rename_i hne
      apply found_of_maps hs.synced.index hi.synced.index
      intro q
      rw [hi.synced.indexed, hs.synced.indexed]
      constructor
      · rintro ⟨⟨m, hq⟩, hqid⟩
        have hmem : q = p ∨ ∃ m, q ∈ fifo book m := by
          by_cases hm : m = l
          · subst hm
            rw [Function.update_self] at hq
            rcases List.mem_append.mp hq with hq | hq
            · exact .inr ⟨m, hq⟩
            · exact .inl (List.mem_singleton.mp hq)
          · rw [hother m hm] at hq
            exact .inr ⟨m, hq⟩
        rcases hmem with rfl | ⟨m, hq⟩
        · exact absurd (hqid.symm.trans hid) hne
        · exact ⟨⟨m, hq⟩, (detached_fields (hi.orders m q hq)).1 ▸ hqid⟩
      · rintro ⟨⟨m, hq⟩, hqid⟩
        refine ⟨⟨m, ?_⟩, (detached_fields (hi.orders m q hq)).1.trans hqid⟩
        by_cases hm : m = l
        · subst hm
          rw [Function.update_self]
          exact List.mem_append_left _ hq
        · rw [hother m hm]
          exact hq

end Remainders

section Comparison

variable {hash : OrderId → UInt64} {host host' : Host} {market limit : NewOrder}
  {s sm sl : EngineState}

/-- A limit that no opposing price is beyond is tested like no limit. -/
theorem alike_of_unbounded (hmarket : validate market = .ok ()) (hlimit : validate limit = .ok ())
    (htype : market.orderType = .market) (hid : limit.orderId = market.orderId)
    (hside : limit.orderSide = market.orderSide)
    (hbeyond : ∀ r ∈ resting s.orderBook (!isBid market),
      noWorse (isBid market) limit.price.toNat r.price = true) :
    Alike market limit s.orderBook where
  orderId := hid
  orderSide := hside
  limits p hp := by
    have hallows : allows limit (restingOf (s.orderBook.memory p)) = true := by
      have hbid : isBid limit = isBid market := by rw [isBid, isBid, hside]
      rw [allows, hbid, hbeyond _ (List.mem_map_of_mem hp), Bool.or_true]
    have hallows' : allows market (restingOf (s.orderBook.memory p)) = true := by
      rw [allows, htype]
      rfl
    rw [testsLimit hlimit, testsLimit hmarket, hallows, hallows']

/-- A market order and a limit order whose limit no opposing price is beyond, processed in the
same state. They have the same executions and leave the same opposite side; the market order
leaves its own side alone, and the limit order adds there what it has left. -/
theorem market_as_limit (h : Reachable hash AnyCall s) (htype : market.orderType = .market)
    (htype' : limit.orderType = .limit) (hid : limit.orderId = market.orderId)
    (hside : limit.orderSide = market.orderSide) (hquantity : limit.quantity = market.quantity)
    (hbeyond : ∀ r ∈ resting s.orderBook (!isBid market),
      noWorse (isBid market) limit.price.toNat r.price = true) {n n' : ℕ}
    (hmarket : processEvent hash host (.new market) s = (.returns n, sm))
    (hlimit : processEvent hash host' (.new limit) s = (.returns n', sl)) :
    n' = n ∧ sl.out = sm.out ∧ sl.currentSequence = sm.currentSequence ∧
    sl.orderBook.ladder (!isBid market) = sm.orderBook.ladder (!isBid market) ∧
    (∀ l : LevelPtr, l.descending = isBid market →
      sm.orderBook.level l = s.orderBook.level l ∧ fifo sm.orderBook l = fifo s.orderBook l) ∧
    ∃ left : Quantity, left.toNat = (filledBy market s).left ∧
      (left = 0 ∧ sl = sm ∨ left ≠ 0 ∧ ∃ l p, OneMore hash sm.orderBook sl.orderBook l p
        (remainderOrder limit (s.currentSequence + 1) left)) := by
  have hs := reachable_sound h
  have hm := matchOrder_of_event hmarket
  have hl := matchOrder_of_event hlimit
  obtain ⟨haccepted, left, t, hloop, hends⟩ := matchOrder_returns (s := emptied s) hs hm
  obtain ⟨haccepted', left', t', hloop', hends'⟩ := matchOrder_returns (s := emptied s) hs hl
  have hcount : n = sm.out.length := by
    rw [processEvent_new hm] at hmarket
    exact (Outcome.returns.inj (congrArg Prod.fst hmarket)).symm
  have hcount' : n' = sl.out.length := by
    rw [processEvent_new hl] at hlimit
    exact (Outcome.returns.inj (congrArg Prod.fst hlimit)).symm
  -- The loops agree, as neither throws.
  have halike := alike_of_unbounded haccepted.valid haccepted'.valid htype hid hside hbeyond
  have heq : (.returns left', t') = ((.returns left, t) : Outcome StdException UInt64 × EngineState)
      := by
    rw [hquantity] at hloop'
    rcases @matchLoop_agrees hash host host' market limit market.quantity
      (numbered (emptied s)) hs halike (s.orderBook.orderPool.liveOrderCount.toNat + 1) with
      ⟨_, _, hthrows⟩ | ⟨_, _, hthrows⟩ | hequal
    · exact absurd (hloop.symm.trans hthrows) (by simp)
    · exact absurd (hloop'.symm.trans hthrows) (by simp)
    · exact hloop'.symm.trans (hequal.trans hloop)
  obtain ⟨rfl, rfl⟩ : left' = left ∧ t' = t := by simpa using heq
  have hsm : sm = t' := by
    rcases hends with ⟨_, hsm⟩ | ⟨⟨_, hrests⟩, _⟩
    · exact hsm
    · rw [htype] at hrests
      exact absurd hrests (by decide)
  subst hsm
  obtain ⟨hleft, hmatched⟩ : left'.toNat = (filledBy market s).left ∧
      Matched hash market (numbered (emptied s)) sm (filledBy market s).fills
        (filledBy market s).rest :=
    matchLoop_returns (s := emptied s) hs haccepted.valid hloop
  have hbuy : ∀ number, (remainderOrder limit number left').isBuy = isBid market := by
    intro number
    simp [Order.isBuy, isBid, remainderOrder, hside]
  have hown : ∀ l : LevelPtr, l.descending = isBid market →
      sm.orderBook.level l = s.orderBook.level l ∧ fifo sm.orderBook l = fifo s.orderBook l :=
    fun l hl => ⟨hmatched.level l hl, hmatched.queue l hl⟩
  rw [hcount, hcount']
  rcases hends' with ⟨hdone, hsl⟩ | ⟨⟨hpositive, _⟩, p, book', hsl, hinsert⟩
  · subst hsl
    refine ⟨rfl, rfl, rfl, rfl, hown, left', hleft, .inl ⟨?_, rfl⟩⟩
    by_contra hne
    exact hdone ⟨UInt64.pos_iff_ne_zero.mpr hne, htype'⟩
  · subst hsl
    obtain ⟨_, l, q, hinserted⟩ := insertOrder_returns hmatched.sound.synced hinsert
    have hmore := oneMore_of_inserted hmatched.sound hinserted
    have hopposite := hmore.opposite
    rw [hmore.side, hbuy] at hopposite
    exact ⟨rfl, rfl, rfl, hopposite, hown, left', hleft,
      .inr ⟨(UInt64.pos_iff_ne_zero.mp hpositive), l, q, hmore⟩⟩

/-- Both take the one order for 4; of the limit order for 6 the other 2 rest. -/
theorem market_as_limit_rests : ∃ s sm sl : EngineState, sm.out ≠ [] ∧ sl.out = sm.out ∧
    ∃ l p, OneMore id sm.orderBook sl.orderBook l p
      (remainderOrder ⟨2, 100, 6, 5, .buy, .limit⟩ (s.currentSequence + 1) 2) := by
  obtain ⟨s, hs, hp⟩ := @exists_reachable id _ _ anyCall_of_removesNone 100 1 2
    [.addOrder grantingHost 1 100 4 5 .sell .limit 1]
    (fun s => (processEvent id grantingHost (.new ⟨2, 0, 6, 5, .buy, .market⟩) s).1 =
        .returns 1 ∧
      (processEvent id grantingHost (.new ⟨2, 100, 6, 5, .buy, .limit⟩) s).1 = .returns 1 ∧
      (∀ r ∈ resting s.orderBook false, noWorse true 100 r.price = true) ∧
      (filledBy ⟨2, 0, 6, 5, .buy, .market⟩ s).left = 2 ∧
      (processEvent id grantingHost (.new ⟨2, 0, 6, 5, .buy, .market⟩) s).2.out ≠ [])
    (by decide +kernel)
  obtain ⟨hmarket, hlimit, hbeyond, hfilled, hout⟩ := of_decide_eq_true hp
  obtain ⟨_, hsame, _, _, _, left, hleft, hends⟩ := @market_as_limit id grantingHost grantingHost
    ⟨2, 0, 6, 5, .buy, .market⟩ ⟨2, 100, 6, 5, .buy, .limit⟩ s _ _ hs rfl rfl rfl rfl rfl hbeyond
    1 1 (Prod.ext hmarket rfl) (Prod.ext hlimit rfl)
  obtain rfl : left = 2 := UInt64.toNat_inj.mp (hleft.trans hfilled)
  rcases hends with ⟨hzero, _⟩ | ⟨_, l, p, hmore⟩
  · exact absurd hzero (by decide)
  · exact ⟨s, _, _, hout, hsame, l, p, hmore⟩

end Comparison

end Leka.MarketLimits
