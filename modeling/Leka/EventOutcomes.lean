import Leka.MatchingRounds

/-!
What an event can do. A NEW event that fails the first checks changes nothing; one that
passes them takes a sequence number, sweeps the opposite side and rests what a limit order
has left, and can still be stopped by the output buffer or by the insertion. CANCEL and
REDUCE act on the one order with the id.
-/

namespace Leka.EventOutcomes

open Procedures Orders IndexAsMap OrderPools PoolAsSet PriceLevels PriceLadders OrderBooks
  MatchingEngines Buckets SyncedBooks BookRemovals BookInsertions RestingOrders ReferenceMatchers
  Sweeps MatchingRounds

/-- The checks made before a sequence number is taken all pass. -/
structure Accepted (order : NewOrder) (s : EngineState) : Prop where
  valid : validate order = .ok ()
  absent : ∀ d, ∀ r ∈ resting s.orderBook d, r.orderId ≠ order.orderId
  counter : s.currentSequence ≠ uint64Max

/-- What the order takes from the opposite side of the book. -/
def filledBy (order : NewOrder) (s : EngineState) : Swept Resting :=
  fill order order.quantity.toNat (resting s.orderBook (!isBid order))

/-- The order that is inserted when `left` of the quantity is left over. -/
def remainderOrder (order : NewOrder) (sequenceNumber : SequenceNumber) (left : Quantity) :
    Order where
  orderId := order.orderId
  price := order.price
  originalQuantity := order.quantity
  remainingQuantity := left
  timestamp := order.timestamp
  orderSide := order.orderSide
  orderType := .limit
  sequenceNumber := sequenceNumber

/-- The state in which matching starts. -/
def numbered (s : EngineState) : EngineState :=
  { s with currentSequence := s.currentSequence + 1 }

section Checks

variable {order : NewOrder} {s : EngineState} {hash : OrderId → UInt64}

theorem valid_fields (h : validate order = .ok ()) :
    order.orderId ≠ 0 ∧ order.quantity ≠ 0 ∧ order.timestamp ≠ 0 ∧
      (order.orderSide = .buy ∨ order.orderSide = .sell) ∧
      (order.orderType = .limit ∧ order.price ≠ 0 ∨
        order.orderType = .market ∧ order.price = 0) := by
  unfold validate at h
  split_ifs at h with hvalues hside htype hlimit hmarket
  simp only [OrderId.isValid, Quantity.isValid, Timestamp.isValid, Price.isValid, Bool.or_eq_true,
    Bool.not_eq_true', bne_eq_false_iff_eq, not_or, not_and, not_not, ne_eq, bne_iff_ne] at *
  refine ⟨hvalues.1.1, hvalues.1.2, hvalues.2, ?_, ?_⟩
  · by_cases hbuy : order.orderSide = .buy
    · exact Or.inl hbuy
    · exact Or.inr (hside hbuy)
  · by_cases htyp : order.orderType = .limit
    · exact Or.inl ⟨htyp, hlimit htyp⟩
    · exact Or.inr ⟨htype htyp, hmarket (htype htyp)⟩

theorem testsLimit (h : validate order = .ok ()) : TestsLimit order := by
  obtain ⟨_, _, _, hside, htype⟩ := valid_fields h
  intro resting
  rw [Bool.eq_iff_iff, Bool.not_eq_true', ← Bool.not_eq_true]
  rcases hside with hside | hside <;> rcases htype with ⟨htype, _⟩ | ⟨htype, _⟩ <;>
    simp [limitForbids, allows, isBid, hside, htype, restingOf, UInt64.lt_iff_toNat_lt]

/-- No resting order has the id. -/
theorem absent_iff {book : OrderBook} (hs : Sound hash book) (id : OrderId) :
    (∀ d, ∀ r ∈ resting book d, r.orderId ≠ id) ↔
      ∀ l, ∀ p ∈ fifo book l, (book.memory p).orderId ≠ id := by
  have hlevels := hs.synced.toLevelsOk
  constructor
  · intro h l p hp
    exact h l.descending (restingOf (book.memory p))
      (List.mem_map.mpr ⟨p, (hlevels.mem_sideOrders _).mpr ⟨l.index, hp⟩, rfl⟩)
  · intro h d r hr
    obtain ⟨p, hp, rfl⟩ := List.mem_map.mp hr
    obtain ⟨i, hp⟩ := (hlevels.mem_sideOrders d).mp hp
    exact h ⟨d, i⟩ p hp

theorem generate_run (s : EngineState) :
    generate s = if s.currentSequence = uint64Max then
        (.throws (.overflowError "Sequence number space exhausted"), s)
      else (.returns (s.currentSequence + 1), numbered s) := by
  by_cases h : s.currentSequence = uint64Max
  · simp only [generate, Proc.get_bind_apply, h, if_true, Proc.throw_bind_apply]
  · simp only [generate, Proc.get_bind_apply, h, if_false, Proc.modify_bind_apply]
    rfl

/-- The fuel of the loop covers the opposite side. -/
theorem length_resting_le {book : OrderBook} (hs : Sound hash book) (d : Bool) :
    (resting book d).length < book.orderPool.liveOrderCount.toNat + 1 := by
  rw [hs.synced.pool.count, restingOrders, List.length_append, resting, List.length_map]
  cases d <;> omega

end Checks

/-- The ways in which the matching of an incoming order can end. -/
inductive NewEnds (hash : OrderId → UInt64) (host : Host) (order : NewOrder) (s : EngineState) :
    Outcome StdException Unit × EngineState → Prop
  | rejected (e : StdException) (hnot : ¬ Accepted order s) :
      NewEnds hash host order s (.throws e, s)
  | full {j : ℕ} {s' : EngineState} (haccepted : Accepted order s)
      (hj : j < (filledBy order s).fills.length)
      (hroom : ∀ i < j, host.buffer (s.out.length + i) = true)
      (hfull : host.buffer (s.out.length + j) = false)
      (hmatched : Matched hash order (numbered s) s' ((filledBy order s).fills.take j)
        ((resting s.orderBook (!isBid order)).drop j)) :
      NewEnds hash host order s (.throws .badAlloc, s')
  | done {s' : EngineState} (haccepted : Accepted order s)
      (hroom : ∀ i < (filledBy order s).fills.length, host.buffer (s.out.length + i) = true)
      (hmatched : Matched hash order (numbered s) s' (filledBy order s).fills
        (filledBy order s).rest)
      (hdone : ¬ (order.orderType = .limit ∧ (filledBy order s).left ≠ 0)) :
      NewEnds hash host order s (.returns (), s')
  | rested {s' : EngineState} {left : UInt64} {book' : OrderBook} {l : LevelPtr} {p : OrderPtr}
      (haccepted : Accepted order s)
      (hroom : ∀ i < (filledBy order s).fills.length, host.buffer (s.out.length + i) = true)
      (hmatched : Matched hash order (numbered s) s' (filledBy order s).fills
        (filledBy order s).rest)
      (hlimit : order.orderType = .limit) (hleft : left.toNat = (filledBy order s).left)
      (hpositive : left ≠ 0)
      (hinsertable : Insertable host s'.orderBook (fifo s'.orderBook)
        (remainderOrder order (s.currentSequence + 1) left))
      (hinserted : Inserted hash s'.orderBook book' (fifo s'.orderBook) l p
        (remainderOrder order (s.currentSequence + 1) left)) :
      NewEnds hash host order s (.returns (), { s' with orderBook := book' })
  | refused {s' : EngineState} {left : UInt64} {book' : OrderBook} {e : StdException}
      (haccepted : Accepted order s)
      (hroom : ∀ i < (filledBy order s).fills.length, host.buffer (s.out.length + i) = true)
      (hmatched : Matched hash order (numbered s) s' (filledBy order s).fills
        (filledBy order s).rest)
      (hlimit : order.orderType = .limit) (hleft : left.toNat = (filledBy order s).left)
      (hpositive : left ≠ 0)
      (hnot : ¬ Insertable host s'.orderBook (fifo s'.orderBook)
        (remainderOrder order (s.currentSequence + 1) left))
      (hrejected : Rejected hash s'.orderBook book' (fifo s'.orderBook)) :
      NewEnds hash host order s (.throws e, { s' with orderBook := book' })

section NewOrders

variable {hash : OrderId → UInt64} {order : NewOrder} {s s' : EngineState}

/-- An order that fails a check is rejected in the state it came in, with the error of that
check. -/
theorem matchOrder_rejected_with (hs : Sound hash s.orderBook) (host : Host)
    (hnot : ¬ Accepted order s) : ∃ e, matchOrder hash host order s = (.throws e, s) ∧
      (validate order = .error e ∨ e = .overflowError "Sequence number space exhausted" ∨
        e = .logicError "Order with the same OrderId already exists") := by
  unfold matchOrder
  cases hvalid : validate order with
  | error e => exact ⟨e, rfl, Or.inl rfl⟩
  | ok _ =>
    rw [Proc.check_ok, Proc.pure_bind_apply]
    obtain ⟨found, hfind, hcase⟩ := hs.synced.findOrder_run order.orderId
    rw [Proc.bind_returns _ (MatchingRounds.onBook_run hfind)]
    rcases hcase with ⟨hnull, habsent⟩ | ⟨l, hp, _⟩
    · rw [hnull]
      by_cases hmax : s.currentSequence = uint64Max
      · refine ⟨_, ?_, Or.inr (Or.inl rfl)⟩
        simp only [ne_eq, not_true, if_false]
        exact Proc.bind_throws _ ((generate_run s).trans (if_pos hmax))
      · exact absurd ⟨hvalid, (absent_iff hs _).mpr habsent, hmax⟩ hnot
    · refine ⟨_, ?_, Or.inr (Or.inr rfl)⟩
      rw [if_pos (hs.synced.ne_null hp), Proc.throw_bind_apply]

theorem matchOrder_rejected (hs : Sound hash s.orderBook) (host : Host)
    (hnot : ¬ Accepted order s) : ∃ e, matchOrder hash host order s = (.throws e, s) := by
  obtain ⟨e, hrun, _⟩ := matchOrder_rejected_with hs host hnot
  exact ⟨e, hrun⟩

/-- An accepted order goes through the matching loop with a number of its own. -/
theorem matchOrder_accepted (hs : Sound hash s.orderBook) (host : Host)
    (h : Accepted order s) : matchOrder hash host order s = (do
      let remaining ← matchLoop hash host order
        (s.orderBook.orderPool.liveOrderCount.toNat + 1) order.quantity
      if remaining > 0 ∧ order.orderType = .limit then
        let _ ← MatchingEngines.onBook
          (insertOrder hash host (remainderOrder order (s.currentSequence + 1) remaining))
        return ()
      return () : EngineProc Unit) (numbered s) := by
  unfold matchOrder
  obtain ⟨found, hfind, ⟨hnull, _⟩ | ⟨l, hp, hid⟩⟩ := hs.synced.findOrder_run order.orderId
  · rw [h.valid, Proc.check_ok, Proc.pure_bind_apply,
      Proc.bind_returns _ (MatchingRounds.onBook_run hfind), hnull]
    simp only [ne_eq, not_true, if_false]
    rw [Proc.bind_returns _ ((generate_run s).trans (if_neg h.counter)), Proc.get_bind_apply]
    rfl
  · exact absurd hid ((absent_iff hs _).mp h.absent l found hp)

/-- A loop that returns has filled what the reference matcher fills. -/
theorem matchLoop_returns (hs : Sound hash s.orderBook) (hvalid : validate order = .ok ())
    {host : Host} {left : UInt64}
    (hloop : matchLoop hash host order (s.orderBook.orderPool.liveOrderCount.toNat + 1)
      order.quantity (numbered s) = (.returns left, s')) :
    left.toNat = (filledBy order s).left ∧
      Matched hash order (numbered s) s' (filledBy order s).fills (filledBy order s).rest := by
  rcases matchLoop_run (s := numbered s) hs (testsLimit hvalid) (length_resting_le hs _) host
      order.quantity rfl with
    ⟨left', t, hreturns, hleft, _, hmatched⟩ | ⟨_, t, hthrows, _⟩
  · rw [hloop] at hreturns
    obtain ⟨hsame, rfl⟩ := Prod.mk.inj hreturns
    rw [Outcome.returns.inj hsame]
    exact ⟨hleft, hmatched⟩
  · rw [hloop] at hthrows
    simp at hthrows

theorem matchOrder_ends (hs : Sound hash s.orderBook) (host : Host) (order : NewOrder) :
    NewEnds hash host order s (matchOrder hash host order s) := by
  by_cases haccepted : Accepted order s
  swap
  · obtain ⟨e, hrun⟩ := matchOrder_rejected hs host haccepted
    rw [hrun]
    exact NewEnds.rejected e haccepted
  rw [matchOrder_accepted hs host haccepted]
  have hfilled : fill order order.quantity.toNat
      (resting (numbered s).orderBook (!isBid order)) = filledBy order s := rfl
  rcases matchLoop_run (s := numbered s) hs (testsLimit haccepted.valid)
      (length_resting_le hs _) host order.quantity hfilled with
    ⟨left, s', hrun, hleft, hroom, hmatched⟩ | ⟨j, s', hrun, hj, hroom, hfull, hmatched⟩
  swap
  · rw [Proc.bind_throws _ hrun]
    exact NewEnds.full haccepted hj hroom hfull hmatched
  rw [Proc.bind_returns _ hrun]
  have hpositive : left > 0 ↔ left ≠ 0 := by
    rw [gt_iff_lt, UInt64.lt_iff_toNat_lt, ne_eq, ← UInt64.toNat_inj]
    change 0 < _ ↔ ¬ _ = 0
    omega
  by_cases hrests : left > 0 ∧ order.orderType = .limit
  swap
  · rw [if_neg hrests]
    refine NewEnds.done haccepted hroom hmatched ?_
    intro h
    refine hrests ⟨hpositive.mpr ?_, h.1⟩
    intro hzero
    rw [hzero] at hleft
    exact h.2 hleft.symm
  · rw [if_pos hrests]
    rcases insertOrder_run hmatched.sound.synced host
        (remainderOrder order (s.currentSequence + 1) left) with
      ⟨hinsertable, book', l, p, hinsert, hinserted⟩ | ⟨hnot, e, book', hinsert, hrejected⟩
    · rw [Proc.bind_returns _ (MatchingRounds.onBook_run hinsert)]
      exact NewEnds.rested haccepted hroom hmatched hrests.2 hleft (hpositive.mp hrests.1)
        hinsertable hinserted
    · rw [Proc.bind_throws _ (MatchingRounds.onBook_run hinsert)]
      exact NewEnds.refused haccepted hroom hmatched hrests.2 hleft (hpositive.mp hrests.1) hnot
        hrejected

/-- However matching ends, the parts of the book agree. -/
theorem NewEnds.sound {host : Host} (hs : Sound hash s.orderBook) {o : Outcome StdException Unit}
    (h : NewEnds hash host order s (o, s')) : Sound hash s'.orderBook := by
  cases h with
  | rejected => exact hs
  | full _ _ _ _ hmatched => exact hmatched.sound
  | done _ _ hmatched _ => exact hmatched.sound
  | rested _ _ hmatched _ _ hpositive _ hinserted =>
    exact sound_of_synced hinserted.synced
      (positive_inserted hmatched.sound.positive hpositive hinserted)
  | refused _ _ hmatched _ _ _ _ hrejected =>
    exact sound_of_synced hrejected.synced (positive_rejected hmatched.sound.positive hrejected)

end NewOrders

/-- The output buffer is emptied before anything else. -/
def emptied (s : EngineState) : EngineState := { s with out := [] }

/-- The ways in which an event can end. -/
inductive EventEnds (hash : OrderId → UInt64) (host : Host) (s : EngineState) :
    OrderEvent → Outcome StdException ℕ × EngineState → Prop
  | new {order : NewOrder} {o : Outcome StdException Unit} {s' : EngineState}
      (hends : NewEnds hash host order (emptied s) (o, s')) :
      EventEnds hash host s (.new order) (o.map fun _ => s'.out.length, s')
  | cancelInvalid {order : CancelOrder} (hid : order.orderId = 0) :
      EventEnds hash host s (.cancel order)
        (.throws (.invalidArgument "Invalid cancel order ID"), emptied s)
  | cancelAbsent {order : CancelOrder} (hid : order.orderId ≠ 0)
      (habsent : ∀ l, ∀ p ∈ fifo s.orderBook l, (s.orderBook.memory p).orderId ≠ order.orderId) :
      EventEnds hash host s (.cancel order) (.returns 0, emptied s)
  | cancelled {order : CancelOrder} {l : LevelPtr} {p : OrderPtr} {book' : OrderBook}
      (hid : order.orderId ≠ 0) (hp : p ∈ fifo s.orderBook l)
      (horder : (s.orderBook.memory p).orderId = order.orderId)
      (hremoved : Removed hash s.orderBook book' (fifo s.orderBook) l p) :
      EventEnds hash host s (.cancel order) (.returns 0, { emptied s with orderBook := book' })
  | reduceInvalid {reduction : ReduceOrder} (hid : reduction.orderId = 0) :
      EventEnds hash host s (.reduce reduction)
        (.throws (.invalidArgument "Invalid reduce order ID"), emptied s)
  | reduceAbsent {reduction : ReduceOrder} (hid : reduction.orderId ≠ 0)
      (habsent : ∀ l, ∀ p ∈ fifo s.orderBook l,
        (s.orderBook.memory p).orderId ≠ reduction.orderId) :
      EventEnds hash host s (.reduce reduction) (.returns 0, emptied s)
  | reduceRefused {reduction : ReduceOrder} {l : LevelPtr} {p : OrderPtr}
      (hid : reduction.orderId ≠ 0) (hp : p ∈ fifo s.orderBook l)
      (horder : (s.orderBook.memory p).orderId = reduction.orderId)
      (hquantity : reduction.newQuantity = 0 ∨
        reduction.newQuantity > (s.orderBook.memory p).remainingQuantity) :
      EventEnds hash host s (.reduce reduction) (.throws (.invalidArgument
        "Reduction requires a nonzero quantity no greater than the remaining quantity"), emptied s)
  | reduceSame {reduction : ReduceOrder} {l : LevelPtr} {p : OrderPtr}
      (hid : reduction.orderId ≠ 0) (hp : p ∈ fifo s.orderBook l)
      (horder : (s.orderBook.memory p).orderId = reduction.orderId)
      (hquantity : reduction.newQuantity = (s.orderBook.memory p).remainingQuantity) :
      EventEnds hash host s (.reduce reduction) (.returns 0, emptied s)
  | reduced {reduction : ReduceOrder} {l : LevelPtr} {p : OrderPtr}
      (hid : reduction.orderId ≠ 0) (hp : p ∈ fifo s.orderBook l)
      (horder : (s.orderBook.memory p).orderId = reduction.orderId)
      (hpositive : reduction.newQuantity ≠ 0)
      (hquantity : reduction.newQuantity < (s.orderBook.memory p).remainingQuantity) :
      EventEnds hash host s (.reduce reduction) (.returns 0, { emptied s with
        orderBook := withTotal (withRemaining s.orderBook p reduction.newQuantity) l
          ((s.orderBook.level l).totalQuantity -
            ((s.orderBook.memory p).remainingQuantity - reduction.newQuantity)) })

section Events

variable {hash : OrderId → UInt64} {s s' : EngineState}

theorem processEvent_new {host : Host} {order : NewOrder} {o : Outcome StdException Unit}
    (hrun : matchOrder hash host order (emptied s) = (o, s')) :
    processEvent hash host (.new order) s = (o.map fun _ => s'.out.length, s') := by
  simp only [processEvent, Proc.modify_bind_apply]
  cases o with
  | returns _ => exact Proc.bind_returns _ hrun
  | throws e => exact Proc.bind_throws _ hrun
  | diverges => exact Proc.bind_diverges _ hrun

/-- An event that returns went through the matching of its order. -/
theorem matchOrder_of_event {host : Host} {order : NewOrder} {n : ℕ}
    (hnew : processEvent hash host (.new order) s = (.returns n, s')) :
    matchOrder hash host order (emptied s) = (.returns (), s') := by
  generalize hrun : matchOrder hash host order (emptied s) = result
  obtain ⟨o, s''⟩ := result
  rw [processEvent_new hrun] at hnew
  obtain rfl : s'' = s' := congrArg Prod.snd hnew
  cases o with
  | returns _ => rfl
  | throws e => cases congrArg Prod.fst hnew
  | diverges => cases congrArg Prod.fst hnew

/-- The overload for the fields of an order does what a NEW event does. -/
theorem processOrder_eq (host : Host) (order : NewOrder) (s : EngineState) :
    processOrder hash host order s = processEvent hash host (.new order) s := rfl

theorem processEvent_cancel {host : Host} {order : CancelOrder} {book' : OrderBook} {found : Bool}
    (hid : order.orderId ≠ 0)
    (hrun : cancelOrder hash order.orderId s.orderBook = (.returns found, book')) :
    processEvent hash host (.cancel order) s =
      (.returns 0, { emptied s with orderBook := book' }) := by
  simp only [processEvent, Proc.modify_bind_apply]
  have hvalid : (!OrderId.isValid order.orderId) = false := by simp [OrderId.isValid, hid]
  rw [hvalid, if_neg Bool.false_ne_true]
  exact Proc.bind_returns _ (MatchingRounds.onBook_run hrun)

theorem processEvent_reduce {host : Host} {reduction : ReduceOrder}
    {o : Outcome StdException Bool} {book' : OrderBook} (hid : reduction.orderId ≠ 0)
    (hrun : reduceOrder hash reduction.orderId reduction.newQuantity s.orderBook = (o, book')) :
    processEvent hash host (.reduce reduction) s =
      (o.map fun _ => 0, { emptied s with orderBook := book' }) := by
  simp only [processEvent, Proc.modify_bind_apply]
  have hvalid : (!OrderId.isValid reduction.orderId) = false := by simp [OrderId.isValid, hid]
  rw [hvalid, if_neg Bool.false_ne_true]
  cases o with
  | returns _ => exact Proc.bind_returns _ (MatchingRounds.onBook_run hrun)
  | throws e => exact Proc.bind_throws _ (MatchingRounds.onBook_run hrun)
  | diverges => exact Proc.bind_diverges _ (MatchingRounds.onBook_run hrun)

theorem processEvent_ends (hs : Sound hash s.orderBook) (host : Host) (event : OrderEvent) :
    EventEnds hash host s event (processEvent hash host event s) := by
  cases event with
  | new order =>
    have hends := matchOrder_ends (s := emptied s) hs host order
    generalize hrun : matchOrder hash host order (emptied s) = result at hends
    obtain ⟨o, s'⟩ := result
    rw [processEvent_new hrun]
    exact EventEnds.new hends
  | cancel order =>
    by_cases hid : order.orderId = 0
    · have hrun : processEvent hash host (.cancel order) s =
          (.throws (.invalidArgument "Invalid cancel order ID"), emptied s) := by
        simp [processEvent, OrderId.isValid, hid, emptied]
      rw [hrun]
      exact EventEnds.cancelInvalid hid
    rcases cancelOrder_run hs.synced order.orderId with
      ⟨habsent, hrun⟩ | ⟨l, p, book', hp, horder, hrun, hremoved⟩
    · rw [processEvent_cancel hid hrun]
      exact EventEnds.cancelAbsent hid habsent
    · rw [processEvent_cancel hid hrun]
      exact EventEnds.cancelled hid hp horder hremoved
  | reduce reduction =>
    by_cases hid : reduction.orderId = 0
    · have hrun : processEvent hash host (.reduce reduction) s =
          (.throws (.invalidArgument "Invalid reduce order ID"), emptied s) := by
        simp [processEvent, OrderId.isValid, hid, emptied]
      rw [hrun]
      exact EventEnds.reduceInvalid hid
    rcases reduceOrder_run hs.synced reduction.orderId reduction.newQuantity with
      ⟨habsent, hrun⟩ | ⟨l, p, hp, horder, ⟨hquantity, hrun⟩ | ⟨_, hquantity, hrun⟩ |
        ⟨hpositive, hquantity, hrun⟩⟩
    · rw [processEvent_reduce hid hrun]
      exact EventEnds.reduceAbsent hid habsent
    · rw [processEvent_reduce hid hrun]
      exact EventEnds.reduceRefused hid hp horder hquantity
    · rw [processEvent_reduce hid hrun]
      exact EventEnds.reduceSame hid hp horder hquantity
    · rw [processEvent_reduce hid hrun]
      exact EventEnds.reduced hid hp horder hpositive hquantity

/-- A reduced order leaves the book in order. -/
theorem sound_resized {book : OrderBook} (hs : Sound hash book) {l : LevelPtr} {p : OrderPtr}
    (hp : p ∈ fifo book l) {quantity : Quantity} (hpositive : quantity ≠ 0)
    (hle : quantity ≤ (book.memory p).remainingQuantity) :
    Sound hash (withTotal (withRemaining book p quantity) l
      ((book.level l).totalQuantity - ((book.memory p).remainingQuantity - quantity))) :=
  sound_of_synced (synced_resize hs.synced hp hle) (positive_resized hs.positive hpositive)

theorem sound_removed {book book' : OrderBook} (hs : Sound hash book) {l : LevelPtr} {p : OrderPtr}
    (hp : p ∈ fifo book l) (hremoved : Removed hash book book' (fifo book) l p) :
    Sound hash book' :=
  sound_of_synced hremoved.synced (positive_removed hs.synced.toLevelsOk hp
    (fun m q hq _ => hs.positive m q hq) hremoved)

/-- However an event ends, the parts of the book agree. -/
theorem EventEnds.sound {host : Host} {event : OrderEvent} {o : Outcome StdException ℕ}
    (hs : Sound hash s.orderBook) (h : EventEnds hash host s event (o, s')) :
    Sound hash s'.orderBook := by
  cases h with
  | new hends => exact NewEnds.sound (s := emptied s) hs hends
  | cancelled _ hp _ hremoved => exact sound_removed hs hp hremoved
  | reduced _ hp _ hpositive hquantity =>
    exact sound_resized hs hp hpositive (UInt64.le_of_lt hquantity)
  | cancelInvalid | cancelAbsent | reduceInvalid | reduceAbsent | reduceRefused | reduceSame =>
    exact hs

end Events

end Leka.EventOutcomes
