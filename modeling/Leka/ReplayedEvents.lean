import Leka.InternalErrors
import Leka.MatchingLoops
import Leka.Observations
import Leka.QuantityLedgers

/-!
Events on books that look alike. The resting orders and the executions after an event are
those of the reference matcher, and the excess of a level grows by what is used up there, so
an event that returns takes books that look alike to books that look alike. What one book
accepts the other can refuse for want of memory only.
-/

namespace Leka.ReplayedEvents

open Procedures Orders OrderPools PriceLevels PriceLadders OrderBooks MatchingEngines SyncedBooks
  BookRemovals BookInsertions RestingOrders ReferenceMatchers Sweeps MatchingRounds EventOutcomes
  MatchingLoops MatcherRefinement BookRuns BookGrids InternalErrors Observations QuantityLedgers

/-- What fills that use up their order take at a price. -/
def usedUp (price : ℕ) (fills : List (Resting × ℕ)) : ℕ :=
  ((fills.filter fun fill => fill.1.price = price ∧ fill.2 = fill.1.remainingQuantity).map
    Prod.snd).sum

theorem usedUp_cons (price : ℕ) (fill : Resting × ℕ) (fills : List (Resting × ℕ)) :
    usedUp price (fill :: fills) =
      (if fill.1.price = price ∧ fill.2 = fill.1.remainingQuantity then fill.2 else 0) +
        usedUp price fills := by
  unfold usedUp
  by_cases h : fill.1.price = price ∧ fill.2 = fill.1.remainingQuantity
  · rw [List.filter_cons_of_pos (by simpa using h), if_pos h, List.map_cons, List.sum_cons]
  · rw [List.filter_cons_of_neg (by simpa using h), if_neg h, Nat.zero_add]

section Excess

variable {hash : OrderId → UInt64} {host : Host} {book book' : OrderBook} {l m : LevelPtr}
  {p : OrderPtr} {order : NewOrder} {s s' : EngineState}

/-- An order that is used up stays in the aggregate of its level. -/
theorem excess_emptied (hs : Sound hash book) (hp : p ∈ fifo book l) (m : LevelPtr) :
    excess (withRemaining book p 0) m =
      excess book m + if m = l then remainingOf book.memory p else 0 := by
  have hlevels := hs.synced.toLevelsOk
  have hqueues : fifo (withRemaining book p 0) = fifo book :=
    fifo_eq (synced_shrink hs.synced (UInt64.le_iff_toNat_le.mpr (Nat.zero_le _))).toLevelsOk
  have hothers : ∀ orders : List OrderPtr, p ∉ orders →
      remainingSum (withRemaining book p 0).memory orders = remainingSum book.memory orders := by
    intro orders hnot
    refine remainingSum_congr fun q hq => ?_
    have hne : q ≠ p := fun heq => hnot (heq ▸ hq)
    rw [withRemaining_ne hne]
  have hlevel : (withRemaining book p 0).level m = book.level m := rfl
  rw [excess, excess, hqueues, hlevel]
  by_cases hm : m = l
  · subst m
    have hnot : p ∉ (fifo book l).erase p := (hlevels.represents l).nodup.not_mem_erase
    have hzero : remainingOf (withRemaining book p 0).memory p = 0 := by
      rw [remainingOf, withRemaining_self]
      rfl
    have hcovered := hlevels.covered l
    rw [if_pos rfl, remainingSum_erase hp, hzero, hothers _ hnot]
    rw [remainingSum_erase hp] at hcovered ⊢
    omega
  · have hnot : p ∉ fifo book m := fun hmem => hm (hlevels.level_unique hmem hp)
    rw [if_neg hm, hothers _ hnot, Nat.add_zero]

theorem excess_filled (hs : Sound hash book) (hp : p ∈ fifo book l)
    (hr : Removed hash (withRemaining book p 0) book' (fifo book) l p) (m : LevelPtr) :
    excess book' m = excess book m + if m = l then remainingOf book.memory p else 0 := by
  have hshrunk := (synced_shrink hs.synced
    (UInt64.le_iff_toNat_le.mpr (Nat.zero_le _) : 0 ≤ (book.memory p).remainingQuantity)).toLevelsOk
  have hqueues := fifo_eq hshrunk
  rw [← excess_emptied hs hp]
  rw [← hqueues] at hp hr hshrunk
  exact excess_removed hshrunk hp hr m

/-- When it returns, the loop has left in the aggregate at `l` what it used up there. -/
def Grows (order : NewOrder) (l : LevelPtr) (remaining : UInt64) (s : EngineState)
    (result : Outcome StdException UInt64 × EngineState) : Prop :=
  ∀ left s', result = (.returns left, s') →
    excess s'.orderBook l = excess s.orderBook l +
      usedUp ((s.orderBook.ladder l.descending).slotPrice l.index)
        (fill order remaining.toNat (resting s.orderBook (!isBid order))).fills

/-- The level of the first order is the one level of its side with its price. -/
theorem level_iff_price (hs : Sound hash s.orderBook) {remaining : UInt64} {ps : List OrderPtr}
    (hmeets : Meets order s.orderBook (fifo s.orderBook) remaining m p ps)
    (hside : l.descending = !isBid order)
    (hl : l.index < (s.orderBook.ladder l.descending).levelCount.toNat) :
    l = m ↔ (s.orderBook.memory p).price.toNat =
      (s.orderBook.ladder l.descending).slotPrice l.index := by
  have hlevels := hs.synced.toLevelsOk
  have hprice := price_toNat hlevels hmeets.mem
  have hm := hlevels.queue_lt hmeets.mem
  rw [hprice]
  rw [hmeets.side] at hm ⊢
  rw [hside] at hl ⊢
  constructor
  · intro heq
    rw [heq]
  · intro heq
    have hindex := (hlevels.configured _).slotPrice_inj hm hl heq
    obtain ⟨d, i⟩ := l
    obtain ⟨e, j⟩ := m
    have hd : d = e := hside.trans hmeets.side.symm
    subst hd
    exact congrArg _ hindex.symm

/-- A round that uses up the first order, and the rest of the loop behind it. -/
theorem grows_filled (hs : Sound hash s.orderBook) (htests : TestsLimit order)
    {remaining : UInt64} {ps : List OrderPtr}
    (hmeets : Meets order s.orderBook (fifo s.orderBook) remaining m p ps)
    (hle : (s.orderBook.memory p).remainingQuantity ≤ remaining)
    (hr : Removed hash (withRemaining s.orderBook p 0) book' (fifo s.orderBook) m p)
    (hside : l.descending = !isBid order)
    (hl : l.index < (s.orderBook.ladder l.descending).levelCount.toNat)
    {result : Outcome StdException UInt64 × EngineState}
    (hrest : Grows order l (remaining - (s.orderBook.memory p).remainingQuantity)
      (afterFill order s p book') result) : Grows order l remaining s result := by
  intro left s' hresult
  have hmatched := matched_filled hs hmeets hr
  have hslot := (hmatched.grid l.descending).slotPrice_eq l.index
  rw [fill_filled htests hmeets hle, ← hmatched.opposite, usedUp_cons, hrest left s' hresult, hslot,
    excess_filled hs hmeets.mem hr, Nat.add_assoc]
  congr 2
  refine if_congr ?_ rfl rfl
  rw [level_iff_price hs hmeets hside hl]
  exact (and_iff_left rfl).symm

/-- A round that ends inside the first order uses nothing up. -/
theorem grows_partly (hs : Sound hash s.orderBook) (htests : TestsLimit order)
    {remaining : UInt64} {ps : List OrderPtr}
    (hmeets : Meets order s.orderBook (fifo s.orderBook) remaining m p ps)
    (hlt : remaining < (s.orderBook.memory p).remainingQuantity) :
    Grows order l remaining s (.returns 0, afterPart order s remaining m p) := by
  intro left s' hresult
  obtain ⟨_, rfl⟩ := Prod.mk.inj hresult
  have hpart : remaining.toNat < (restingOf (s.orderBook.memory p)).remainingQuantity :=
    UInt64.lt_iff_toNat_lt.mp hlt
  rw [fill_partly htests hmeets hlt, usedUp_cons, if_neg fun hused => hpart.ne hused.2]
  have hle : (s.orderBook.memory p).remainingQuantity - remaining ≤
      (s.orderBook.memory p).remainingQuantity := by
    rw [UInt64.le_iff_toNat_le, UInt64.toNat_sub_of_le _ _ (UInt64.le_of_lt hlt)]
    omega
  have hexcess := excess_resized hs.synced hmeets.mem hle l
  have htaken : (s.orderBook.memory p).remainingQuantity -
      ((s.orderBook.memory p).remainingQuantity - remaining) = remaining := by
    grind
  rw [htaken] at hexcess
  exact hexcess

/-- The loop leaves in the aggregates of the opposite side what it has used up. -/
theorem matchLoop_excess (hs : Sound hash s.orderBook) (htests : TestsLimit order) {fuel : ℕ}
    (hfuel : (resting s.orderBook (!isBid order)).length < fuel) (remaining : UInt64)
    (hside : l.descending = !isBid order)
    (hl : l.index < (s.orderBook.ladder l.descending).levelCount.toNat) :
    Grows order l remaining s (matchLoop hash host order fuel remaining s) := by
  have hrule : l.index < (s.orderBook.ladder l.descending).levelCount.toNat →
      Grows order l remaining s (matchLoop hash host order fuel remaining s) := by
    refine matchLoop_rule (motive := fun remaining s result =>
      l.index < (s.orderBook.ladder l.descending).levelCount.toNat →
        Grows order l remaining s result) ?_ ?_ ?_ ?_ hs hfuel remaining
    · rintro remaining s _ hleaves _ _ left s' heq
      obtain ⟨_, rfl⟩ := Prod.mk.inj heq
      rw [fill_stops htests hleaves]
      rfl
    · rintro remaining s _ _ _ _ _ _ _ _ left s' heq
      simp at heq
    · rintro remaining s m p ps book' result hs hmeets _ hle hr _ hrest hl
      refine grows_filled hs htests hmeets hle hr hside hl (hrest ?_)
      rw [((matched_filled hs hmeets hr).grid l.descending).levelCount]
      exact hl
    · rintro remaining s m p ps hs hmeets _ hlt _ _
      exact grows_partly hs htests hmeets hlt
  exact hrule hl

/-- What an event leaves in an aggregate beyond what rests there. -/
def drift (event : OrderEvent) (s : EngineState) (l : LevelPtr) : ℕ :=
  match event with
  | .new order =>
    if l.descending = !isBid order then
      usedUp ((s.orderBook.ladder l.descending).slotPrice l.index) (filledBy order s).fills
    else 0
  | _ => 0

/-- Nothing is aggregated outside the grid. -/
theorem excess_outside (h : LevelsOk book (fifo book))
    (hl : ¬ l.index < (book.ladder l.descending).levelCount.toNat) : excess book l = 0 := by
  have htotal : (book.level l).totalQuantity = 0 := by
    rw [OrderBook.level, PriceLadder.level, Array.getD_eq_getD_getElem?,
      Array.getElem?_eq_none (by rw [(h.configured l.descending).levels_size]; omega)]
    rfl
  rw [excess, htotal, UInt64.toNat_zero, Nat.zero_sub]

/-- The matching of an order that returns. -/
theorem matchOrder_excess (hs : Sound hash s.orderBook)
    (hrun : matchOrder hash host order s = (.returns (), s'))
    (hl : l.index < (s.orderBook.ladder l.descending).levelCount.toNat) :
    excess s'.orderBook l = excess s.orderBook l + drift (.new order) s l := by
  obtain ⟨haccepted, left, t, hloop, hends⟩ := matchOrder_returns hs hrun
  have htests := testsLimit haccepted.valid
  have hfuel := length_resting_le hs (!isBid order)
  obtain ⟨_, hmatched⟩ := matchLoop_returns hs haccepted.valid hloop
  have hlooped : excess t.orderBook l = excess s.orderBook l + drift (.new order) s l := by
    rw [drift]
    split_ifs with hside
    · exact matchLoop_excess (s := numbered s) hs htests hfuel order.quantity hside hl left t hloop
    · have hown : l.descending = isBid order := by
        rwa [Bool.eq_not, ne_eq, not_not] at hside
      have hlevel : t.orderBook.level l = s.orderBook.level l := hmatched.level l hown
      have hqueue : fifo t.orderBook l = fifo s.orderBook l := hmatched.queue l hown
      have hsum : remainingSum t.orderBook.memory (fifo s.orderBook l) =
          remainingSum s.orderBook.memory (fifo s.orderBook l) :=
        remainingSum_congr fun p hp => congrArg _ (hmatched.orders l hown p hp)
      rw [excess, hlevel, hqueue, hsum, Nat.add_zero, excess]
  rcases hends with ⟨_, rfl⟩ | ⟨_, p, book, rfl, hinsert⟩
  · exact hlooped
  · obtain ⟨hinsertable, m, q, hinserted⟩ := insertOrder_returns hmatched.sound.synced hinsert
    rw [← hlooped]
    exact excess_inserted hinserted
      (hinsertable.fits_level hmatched.sound.synced.toLevelsOk hinserted) l

theorem event_excess (hs : Sound hash s.orderBook) {event : OrderEvent} {n : ℕ}
    (hrun : processEvent hash host event s = (.returns n, s'))
    (hl : l.index < (s.orderBook.ladder l.descending).levelCount.toNat) :
    excess s'.orderBook l = excess s.orderBook l + drift event s l := by
  cases event with
  | new order => exact matchOrder_excess (s := emptied s) hs (matchOrder_of_event hrun) hl
  | cancel order =>
    have hends := processEvent_ends hs host (.cancel order)
    rw [hrun] at hends
    cases hends with
    | cancelAbsent => rfl
    | cancelled _ hp _ hremoved => exact excess_removed hs.synced.toLevelsOk hp hremoved l
  | reduce reduction =>
    have hends := processEvent_ends hs host (.reduce reduction)
    rw [hrun] at hends
    cases hends with
    | reduceAbsent => rfl
    | reduceSame => rfl
    | reduced _ hp _ _ hquantity =>
      exact excess_resized hs.synced hp (UInt64.le_of_lt hquantity) l

end Excess

theorem tradeOf_injective : Function.Injective tradeOf := by
  intro x y h
  cases x
  cases y
  simpa [tradeOf, UInt64.toNat_inj] using h

/-- The states show the same, and the engine goes on with the same number. -/
structure SameState (s t : EngineState) : Prop where
  view : SameView s.orderBook t.orderBook
  counter : t.currentSequence = s.currentSequence

section Mirrors

variable {hash : OrderId → UInt64} {host host' : Host} {order : NewOrder} {s s' t t' : EngineState}
  {event : OrderEvent} {n n' : ℕ} {e : StdException}

theorem SameState.bookOf_eq (h : SameState s t) : bookOf t = bookOf s := by
  rw [bookOf, bookOf, h.view.side, h.view.side, h.counter]

theorem SameState.drift_eq (h : SameState s t) (event : OrderEvent) (l : LevelPtr) :
    drift event t l = drift event s l := by
  cases event with
  | new order =>
    simp only [drift, filledBy, h.view.side, (h.view.grid l.descending).slotPrice_eq]
  | cancel | reduce => rfl

/-- An event that returns on both sides does the same on both. -/
theorem SameState.returns (h : SameState s t) (hs : Sound hash s.orderBook)
    (ht : Sound hash t.orderBook) (hrun : processEvent hash host event s = (.returns n, s'))
    (hrun' : processEvent hash host' event t = (.returns n', t')) :
    n' = n ∧ t'.out = s'.out ∧ SameState s' t' := by
  have hends := processEvent_ends hs host event
  have hends' := processEvent_ends ht host' event
  rw [hrun] at hends
  rw [hrun'] at hends'
  obtain ⟨htrades, hn, hbook⟩ := event_refines hs hends
  obtain ⟨htrades', hn', hbook'⟩ := event_refines ht hends'
  rw [h.bookOf_eq] at htrades' hbook'
  have hout : t'.out = s'.out := by
    apply List.map_injective_iff.mpr tradeOf_injective
    rw [htrades', htrades]
  have hsame : bookOf t' = bookOf s' := hbook'.trans hbook.symm
  have hgrid : SameGrids s.orderBook s'.orderBook := by
    have hevent := grids_event hs host event
    rwa [hrun] at hevent
  have hgrid' : SameGrids t.orderBook t'.orderBook := by
    have hevent := grids_event ht host' event
    rwa [hrun'] at hevent
  have hgrids : SameGrids s'.orderBook t'.orderBook :=
    fun d => ((BookViews.sameGrid_symm (hgrid d)).trans (h.view.grid d)).trans (hgrid' d)
  refine ⟨by rw [hn', hn, hout], hout, ⟨hgrids, ?_, ?_⟩, ?_⟩
  · intro d
    rw [← side_bookOf, ← side_bookOf, hsame]
  · intro l
    have hcount : (t.orderBook.ladder l.descending).levelCount =
        (s.orderBook.ladder l.descending).levelCount := (h.view.grid l.descending).levelCount
    by_cases hl : l.index < (s.orderBook.ladder l.descending).levelCount.toNat
    · rw [event_excess hs hrun hl, event_excess ht hrun' (hcount ▸ hl), h.view.excess_eq,
        h.drift_eq]
    · have houtside := excess_outside (hends.sound hs).synced.toLevelsOk (l := l)
        (by rw [(hgrid l.descending).levelCount]; exact hl)
      have houtside' := excess_outside (hends'.sound ht).synced.toLevelsOk (l := l)
        (by rw [(hgrid' l.descending).levelCount, hcount]; exact hl)
      rw [houtside, houtside']
  · exact UInt64.toNat_inj.mp (congrArg Book.lastSequence hsame)

/-- What is left of an order that is accepted can rest on the one side when it rests on the
other. -/
theorem SameState.placeable (h : SameState s t) (hs : Sound hash s.orderBook)
    (ht : Sound hash t.orderBook) {fills fills' : List (Resting × ℕ)} {rest rest' : List Resting}
    (hmatched : Matched hash order (numbered s) s' fills rest)
    (hmatched' : Matched hash order (numbered t) t' fills' rest') {remainder : Order}
    (hside : remainder.isBuy = isBid order) (hp : Placeable s'.orderBook remainder) :
    Placeable t'.orderBook remainder := by
  have hgrid : SameGrids s'.orderBook t'.orderBook := fun d =>
    ((BookViews.sameGrid_symm (hmatched.grid d)).trans (h.view.grid d)).trans (hmatched'.grid d)
  have hindex := (hgrid remainder.isBuy).indexOf_eq remainder.price
  have htotal : ∀ i, (t'.orderBook.level ⟨remainder.isBuy, i⟩).totalQuantity =
      (s'.orderBook.level ⟨remainder.isBuy, i⟩).totalQuantity := by
    intro i
    rw [hmatched.level _ hside, hmatched'.level _ hside]
    exact h.view.total_eq hs ht _
  refine ⟨hp.limit, hp.original, hp.remaining, hp.le, hp.valid, ?_, ?_⟩
  · rw [hindex]
    exact hp.price
  · intro index hok
    rw [hindex] at hok
    rw [htotal]
    exact hp.fits index hok

/-- An order that the one side accepts is accepted on the other, or the other is refused
memory. -/
theorem SameState.matchOrder_ends (h : SameState s t) (hs : Sound hash s.orderBook)
    (ht : Sound hash t.orderBook) (hrun : matchOrder hash host order s = (.returns (), s'))
    (host' : Host) :
    (∃ t', matchOrder hash host' order t = (.returns (), t')) ∨
      ∃ e t', matchOrder hash host' order t = (.throws e, t') ∧ Storage e := by
  obtain ⟨haccepted, left, s₁, hloop, hends⟩ := matchOrder_returns hs hrun
  have haccepted' : Accepted order t :=
    ⟨haccepted.valid, fun d => by rw [h.view.side]; exact haccepted.absent d,
      by rw [h.counter]; exact haccepted.counter⟩
  have htests := testsLimit haccepted.valid
  rw [matchOrder_accepted ht host' haccepted']
  rcases matchLoop_run (s := numbered t) ht htests (length_resting_le ht (!isBid order)) host'
      order.quantity rfl with
    ⟨left', t₁, hloop', hleft', _, hmatched'⟩ | ⟨_, t₁, hthrows, _⟩
  swap
  · exact .inr ⟨_, t₁, Proc.bind_throws _ hthrows, by decide⟩
  obtain ⟨hleft, hmatched⟩ := matchLoop_returns hs haccepted.valid hloop
  have hside : resting (numbered t).orderBook (!isBid order) =
      resting s.orderBook (!isBid order) := h.view.side _
  rw [hside] at hleft'
  obtain rfl : left' = left := UInt64.toNat_inj.mp (hleft'.trans hleft.symm)
  rw [Proc.bind_returns _ hloop']
  rcases hends with ⟨hdone, _⟩ | ⟨hrests, p, book, _, hinsert⟩
  · rw [if_neg hdone]
    exact .inl ⟨t₁, rfl⟩
  · rw [if_pos hrests]
    have hplaceable := (insertOrder_returns hmatched.sound.synced hinsert).1.placeable
    have hplaceable' := h.placeable hs ht hmatched hmatched' rfl hplaceable
    rw [h.counter]
    rcases insertOrder_run hmatched'.sound.synced host'
        (remainderOrder order (s.currentSequence + 1) left') with
      ⟨_, book', _, q, hinsert', _⟩ | ⟨_, e, book', hthrows, _⟩
    · refine .inl ⟨{ t₁ with orderBook := book' }, ?_⟩
      rw [Proc.bind_returns _ (MatchingRounds.onBook_run hinsert')]
      rfl
    · refine .inr ⟨e, { t₁ with orderBook := book' }, ?_, ?_⟩
      · rw [Proc.bind_throws _ (MatchingRounds.onBook_run hthrows)]
      · rcases insertOrder_throws hmatched'.sound hthrows with hstorage | ⟨hnot, _⟩
        · exact hstorage
        · exact absurd hplaceable' hnot

/-- A reduction that returns on the one side is not refused on the other. -/
theorem SameState.reduce_fits (h : SameState s t) (hs : Sound hash s.orderBook)
    (ht : Sound hash t.orderBook) {reduction : ReduceOrder}
    (hrun : processEvent hash host (.reduce reduction) s = (.returns n, s')) :
    reduction.orderId ≠ 0 ∧ ∀ l, ∀ p ∈ fifo t.orderBook l,
      (t.orderBook.memory p).orderId = reduction.orderId →
      reduction.newQuantity ≠ 0 ∧
        reduction.newQuantity ≤ (t.orderBook.memory p).remainingQuantity := by
  have hends := processEvent_ends hs host (.reduce reduction)
  rw [hrun] at hends
  have hremaining : ∀ {l m p q}, q ∈ fifo s.orderBook m →
      (s.orderBook.memory q).orderId = reduction.orderId → p ∈ fifo t.orderBook l →
      (t.orderBook.memory p).orderId = reduction.orderId →
      (t.orderBook.memory p).remainingQuantity = (s.orderBook.memory q).remainingQuantity := by
    intro l m p q hq hid hp hid'
    exact (SyncedBooks.detached_fields
      (h.view.order_eq hs ht hq hp (hid.trans hid'.symm))).2.2.2.1
  cases hends with
  | reduceAbsent hid habsent =>
    rw [← absent_iff hs] at habsent
    have habsent' : ∀ d, ∀ r ∈ resting t.orderBook d, r.orderId ≠ reduction.orderId := by
      simpa only [h.view.side] using habsent
    rw [absent_iff ht] at habsent'
    exact ⟨hid, fun l p hp hid' => absurd hid' (habsent' l p hp)⟩
  | reduceSame hid hq horder hquantity =>
    refine ⟨hid, fun l p hp hid' => ?_⟩
    rw [hremaining hq horder hp hid', hquantity]
    exact ⟨hs.positive _ _ hq, UInt64.le_refl _⟩
  | reduced hid hq horder hpositive hquantity =>
    refine ⟨hid, fun l p hp hid' => ?_⟩
    rw [hremaining hq horder hp hid']
    exact ⟨hpositive, UInt64.le_of_lt hquantity⟩

/-- An event that returns on the one side returns on the other, or is refused memory. -/
theorem SameState.ends (h : SameState s t) (hs : Sound hash s.orderBook)
    (ht : Sound hash t.orderBook) (hrun : processEvent hash host event s = (.returns n, s'))
    (host' : Host) :
    (∃ n' t', processEvent hash host' event t = (.returns n', t')) ∨
      ∃ e t', processEvent hash host' event t = (.throws e, t') ∧ Storage e := by
  cases event with
  | new order =>
    have hempty : SameState (emptied s) (emptied t) := ⟨h.view, h.counter⟩
    rcases hempty.matchOrder_ends hs ht (matchOrder_of_event hrun) host' with
      ⟨t', hreturns⟩ | ⟨e, t', hthrows, hstorage⟩
    · exact .inl ⟨_, t', processEvent_new hreturns⟩
    · exact .inr ⟨e, t', processEvent_new hthrows, hstorage⟩
  | cancel order =>
    have hends := processEvent_ends hs host (.cancel order)
    rw [hrun] at hends
    have hid : order.orderId ≠ 0 := by
      cases hends with
      | cancelAbsent hid => exact hid
      | cancelled hid => exact hid
    have hends' := processEvent_ends ht host' (.cancel order)
    generalize hresult : processEvent hash host' (.cancel order) t = result at hends'
    cases hends' with
    | cancelInvalid hzero => exact absurd hzero hid
    | cancelAbsent => exact .inl ⟨_, _, rfl⟩
    | cancelled => exact .inl ⟨_, _, rfl⟩
  | reduce reduction =>
    obtain ⟨hid, hfits⟩ := h.reduce_fits hs ht hrun
    have hends' := processEvent_ends ht host' (.reduce reduction)
    generalize hresult : processEvent hash host' (.reduce reduction) t = result at hends'
    cases hends' with
    | reduceInvalid hzero => exact absurd hzero hid
    | reduceAbsent => exact .inl ⟨_, _, rfl⟩
    | reduceRefused _ hp horder hquantity =>
      obtain ⟨hpositive, hle⟩ := hfits _ _ hp horder
      rcases hquantity with hzero | hlt
      · exact absurd hzero hpositive
      · exact absurd hle (UInt64.not_le.mpr hlt)
    | reduceSame => exact .inl ⟨_, _, rfl⟩
    | reduced => exact .inl ⟨_, _, rfl⟩

end Mirrors

/-- The events of a run are processed from `t` on, each on a host of its own and with the number
that the engine had in the run. Each has the executions of the run, and leaves a book that
shows what the book of the run shows, unless a host refuses memory. -/
def Replays {hash : OrderId → UInt64} : List (Returned hash) → EngineState → Prop
  | [], _ => True
  | step :: steps, t => ∀ host,
    (∃ t', processEvent hash host step.event
          { t with currentSequence := step.before.currentSequence } = (.returns step.count, t') ∧
        t'.out = step.after.out ∧ t'.currentSequence = step.after.currentSequence ∧
        observe hash t'.orderBook = observe hash step.after.orderBook ∧ Replays steps t') ∨
      ∃ e t', processEvent hash host step.event
          { t with currentSequence := step.before.currentSequence } = (.throws e, t') ∧ Storage e

/-- The events of a run can be replayed from every state with a book that looks alike. -/
theorem replays_of_view {hash : OrderId → UInt64} {steps : List (Returned hash)}
    {s s' t : EngineState} (hrun : Run hash s steps s') (hs : Sound hash s.orderBook)
    (ht : Sound hash t.orderBook) (h : SameView s.orderBook t.orderBook) : Replays steps t := by
  induction steps generalizing s t with
  | nil => trivial
  | cons step steps ih =>
    intro host
    obtain ⟨hbefore, hrest⟩ := run_cons hrun
    have hstate : SameState step.before
        { t with currentSequence := step.before.currentSequence } := ⟨hbefore ▸ h, rfl⟩
    have hs' : Sound hash step.before.orderBook := hbefore ▸ hs
    have hafter : Sound hash step.after.orderBook := (step.ends hs').sound hs'
    rcases hstate.ends hs' ht step.run host with ⟨n', t', hreturns⟩ | hrefused
    · obtain ⟨rfl, hout, hsame⟩ := hstate.returns hs' ht step.run hreturns
      have ht' : Sound hash t'.orderBook := by
        have hsound := @sound_processEvent hash
          { t with currentSequence := step.before.currentSequence } ht host step.event
        rwa [hreturns] at hsound
      exact .inl ⟨t', hreturns, hout, hsame.counter, hsame.view.observe_eq hafter ht',
        ih hrest hafter ht' hsame.view⟩
    · exact .inr hrefused

end Leka.ReplayedEvents
