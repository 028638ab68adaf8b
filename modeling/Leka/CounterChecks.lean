import Leka.InternalErrors

/-!
The unsigned subtractions from the counters of a book. Six procedures of the source make
them, and none but one tests its operands. The calls are stated here over those six, so that
the same text runs once as the source has it and once with a check in front of each
subtraction. In a reachable book the two runs are the same run.
-/

namespace Leka.CounterChecks

open Procedures Orders OrderPools PoolAsSet PriceLevels PriceLadders WordBits OrderBooks
  MatchingEngines SyncedBooks BookRemovals BookInsertions RestingOrders MatchingRounds
  EventOutcomes BookRuns ReferenceMatchers InternalErrors

/-- The procedures that subtract from a counter: `freeCount`, `liveOrderCount`, the count and
`totalQuantity` of a level, `totalQuantity` again, `occupied` and the count of the index. -/
structure Subtracting where
  allocateIn : OrderId → Price → Quantity → Quantity → Timestamp → OrderSide →
    Orders.OrderType → SequenceNumber → ℕ → PoolProc OrderPtr
  release : OrderPtr → PoolProc Unit
  removeFromLevel : LevelPtr → OrderPtr → LevelProc Unit
  reduceTotalQuantity : Quantity → LevelProc Unit
  markEmpty : Price → LadderProc Unit
  removeFromIndex : OrderPtr → OrderId → Proc StdException OrderIndexing.OrderIndex Unit

/-- The procedures of the source. -/
def asWritten (hash : OrderId → UInt64) : Subtracting where
  allocateIn := OrderPools.allocateIn
  release := OrderPools.release
  removeFromLevel := PriceLevels.removeOrder
  reduceTotalQuantity := PriceLevels.reduceTotalQuantity
  markEmpty := PriceLadders.markEmpty
  removeFromIndex := OrderIndexing.removeOrder hash

/-- Runs `x`, and throws if it got past a subtraction whose operands did not fit. -/
def guarded {σ α : Type} (fits : σ → Prop) [DecidablePred fits] (x : Proc StdException σ α) :
    Proc StdException σ α := fun s =>
  match x s with
  | (.returns a, s') => if fits s then (.returns a, s') else (.throws wrapped, s')
  | r => r

/-- The same with every subtraction checked. Each procedure subtracts from the counters it
was called with, and returns once it has subtracted. -/
def checked (hash : OrderId → UInt64) : Subtracting where
  allocateIn orderId price originalQuantity remainingQuantity timestamp orderSide orderType
      sequenceNumber page :=
    guarded (fun s => (s.pool.page page).freeCount ≠ 0)
      (OrderPools.allocateIn orderId price originalQuantity remainingQuantity timestamp orderSide
        orderType sequenceNumber page)
  release order := guarded (fun s => s.pool.liveOrderCount ≠ 0) (OrderPools.release order)
  removeFromLevel level order :=
    guarded (fun s => (s.memory order).remainingQuantity ≤ s.level.totalQuantity ∧
      s.level.count ≠ 0) (PriceLevels.removeOrder level order)
  reduceTotalQuantity quantity :=
    guarded (fun s => quantity ≤ s.level.totalQuantity) (PriceLevels.reduceTotalQuantity quantity)
  markEmpty price := guarded (fun s => s.occupied ≠ 0) (PriceLadders.markEmpty price)
  removeFromIndex order key :=
    guarded (fun s => s.count ≠ 0) (OrderIndexing.removeOrder hash order key)

namespace Subtracting

variable (ops : Subtracting) (hash : OrderId → UInt64) (host : Host)

section Insertions

variable (orderId : OrderId) (price : Price) (originalQuantity remainingQuantity : Quantity)
  (timestamp : Timestamp) (orderSide : OrderSide) (orderType : Orders.OrderType)
  (sequenceNumber : SequenceNumber)

def allocate : PoolProc OrderPtr := do
  let s ← Proc.get
  match s.pool.firstPageWithFreeSlot with
  | some page =>
    ops.allocateIn orderId price originalQuantity remainingQuantity timestamp orderSide orderType
      sequenceNumber page
  | none =>
    let page ← createPage host
    ops.allocateIn orderId price originalQuantity remainingQuantity timestamp orderSide orderType
      sequenceNumber page

def rollback (order : OrderPtr) (e : StdException) : InsertionProc Unit := do
  let s ← Proc.get
  if s.addedToLevel then
    let level ← deref s.level
    OrderBooks.onBook (onLevel level (ops.removeFromLevel level order))
    let s ← Proc.get
    if (s.book.level level).isEmpty then
      OrderBooks.onBook (onLadder s.ladder (ops.markEmpty (s.book.memory order).price))
  OrderBooks.onBook (onPool (ops.release order))
  throw e

def addOrderWithQuantities : BookProc OrderPtr := do
  if orderType ≠ .limit then
    throw (.invalidArgument "OrderBook accepts resting limit orders only")
  if !Quantity.isValid originalQuantity || !Quantity.isValid remainingQuantity ||
      remainingQuantity > originalQuantity then
    throw (.invalidArgument "Invalid original or remaining quantity")
  let order ← onPool (ops.allocate host orderId price originalQuantity remainingQuantity timestamp
    orderSide orderType sequenceNumber)
  withLocals (tryCatch (attempt hash host order) (ops.rollback order))
  return order

end Insertions

def removeOrder (order : OrderPtr) : BookProc Unit := do
  if order = nullptr then
    throw (.invalidArgument "Cannot remove a null order")
  let book ← Proc.get
  let found ← onIndex (OrderIndexing.findOrder hash (book.memory order).orderId)
  if found ≠ order then
    throw (.logicError "Order is not indexed in this book")
  let level ← Proc.check (match (book.memory order).priceLevel with
    | none => .error (.logicError "Order is not linked to a price level")
    | some level => .ok level)
  let ladder := (book.memory order).isBuy
  let price := (book.memory order).price
  onLevel level (ops.removeFromLevel level order)
  let book ← Proc.get
  if (book.level level).isEmpty then
    onLadder ladder (ops.markEmpty price)
  onIndex (ops.removeFromIndex order (book.memory order).orderId)
  onPool (ops.release order)

def cancelOrder (orderId : OrderId) : BookProc Bool := do
  let order ← onIndex (OrderIndexing.findOrder hash orderId)
  if order = nullptr then
    return false
  ops.removeOrder hash order
  return true

def reduceOrder (orderId : OrderId) (newQuantity : Quantity) : BookProc Bool := do
  let order ← onIndex (OrderIndexing.findOrder hash orderId)
  if order = nullptr then
    return false
  let book ← Proc.get
  let remaining := (book.memory order).remainingQuantity
  if newQuantity = 0 ∨ newQuantity > remaining then
    throw (.invalidArgument
      "Reduction requires a nonzero quantity no greater than the remaining quantity")
  if newQuantity = remaining then
    return true
  onOrder order (Order.setRemainingQuantity newQuantity)
  let level ← deref (book.memory order).priceLevel
  onLevel level (ops.reduceTotalQuantity (remaining - newQuantity))
  return true

def matchRound (order : NewOrder) (remaining : UInt64) : EngineProc (Option UInt64) := do
  if remaining = 0 then
    return none
  let s ← Proc.get
  match if order.orderSide = .buy then s.orderBook.getBestAsk else s.orderBook.getBestBid with
  | none => return none
  | some level =>
    if limitForbids order (s.orderBook.level level).price then
      return none
    let restingOrder := (s.orderBook.level level).headOrder
    if restingOrder = nullptr then
      throw (.logicError "Non-empty price level has no head order")
    let restingRemaining := (s.orderBook.memory restingOrder).remainingQuantity
    let executionValue := min remaining restingRemaining
    emplaceBack host {
      incomingOrderId := order.orderId
      restingOrderId := (s.orderBook.memory restingOrder).orderId
      executionPrice := (s.orderBook.memory restingOrder).price
      executionQuantity := executionValue }
    onBook (onOrder restingOrder (Order.reduceRemainingQuantity executionValue))
    let s ← Proc.get
    if (s.orderBook.memory restingOrder).isFullyFilled then
      onBook (ops.removeOrder hash restingOrder)
    else
      onBook (onLevel level (ops.reduceTotalQuantity executionValue))
    return some (remaining - executionValue)

def matchLoop (order : NewOrder) : ℕ → UInt64 → EngineProc UInt64
  | 0, _ => Proc.diverge
  | fuel + 1, remaining => do
    match ← ops.matchRound hash host order remaining with
    | none => return remaining
    | some left => matchLoop order fuel left

def matchOrder (order : NewOrder) : EngineProc Unit := do
  Proc.check (validate order)
  let found ← onBook (findOrder hash order.orderId)
  if found ≠ nullptr then
    throw (.logicError "Order with the same OrderId already exists")
  let sequenceNumber ← generate
  let s ← Proc.get
  let remaining ← ops.matchLoop hash host order (s.orderBook.orderPool.liveOrderCount.toNat + 1)
    order.quantity
  if remaining > 0 ∧ order.orderType = .limit then
    let _ ← onBook (ops.addOrderWithQuantities hash host order.orderId order.price order.quantity
      remaining order.timestamp order.orderSide .limit sequenceNumber)
    return ()
  return ()

def processEvent (event : OrderEvent) : EngineProc ℕ := do
  Proc.modify fun s => { s with out := [] }
  match event with
  | .new order =>
    ops.matchOrder hash host order
    let s ← Proc.get
    return s.out.length
  | .cancel order =>
    if !OrderId.isValid order.orderId then
      throw (.invalidArgument "Invalid cancel order ID")
    let _ ← onBook (ops.cancelOrder hash order.orderId)
    return 0
  | .reduce reduction =>
    if !OrderId.isValid reduction.orderId then
      throw (.invalidArgument "Invalid reduce order ID")
    let _ ← onBook (ops.reduceOrder hash reduction.orderId reduction.newQuantity)
    return 0

/-- Runs a call for its effect. -/
def run : Call → EngineProc Unit
  | .addOrder host orderId price quantity timestamp orderSide orderType sequenceNumber => do
    let _ ← onBook (ops.addOrderWithQuantities hash host orderId price quantity quantity timestamp
      orderSide orderType sequenceNumber)
  | .addRestingRemainder host orderId price originalQuantity remainingQuantity timestamp orderSide
      orderType sequenceNumber => do
    let _ ← onBook (ops.addOrderWithQuantities hash host orderId price originalQuantity
      remainingQuantity timestamp orderSide orderType sequenceNumber)
  | .cancelOrder orderId => do
    let _ ← onBook (ops.cancelOrder hash orderId)
  | .reduceOrder orderId newQuantity => do
    let _ ← onBook (ops.reduceOrder hash orderId newQuantity)
  | .removeOrder order => onBook (ops.removeOrder hash order)
  | .reserveOrderCapacity host orderCount =>
    onBook (OrderBooks.reserveOrderCapacity hash host orderCount)
  | .processEvent host event => do
    let _ ← ops.processEvent hash host event
  | .processOrder host order => do
    let _ ← ops.processEvent hash host (.new order)

end Subtracting

section AsWritten

variable (hash : OrderId → UInt64) (host : Host)

theorem allocate_asWritten : (asWritten hash).allocate host = OrderPools.allocate host := rfl

theorem rollback_asWritten : (asWritten hash).rollback = OrderBooks.rollback := rfl

theorem addOrderWithQuantities_asWritten :
    (asWritten hash).addOrderWithQuantities hash host =
      OrderBooks.addOrderWithQuantities hash host := by
  funext orderId price originalQuantity remainingQuantity timestamp orderSide orderType
    sequenceNumber
  simp only [Subtracting.addOrderWithQuantities, OrderBooks.addOrderWithQuantities,
    allocate_asWritten, rollback_asWritten]

theorem removeOrder_asWritten :
    (asWritten hash).removeOrder hash = OrderBooks.removeOrder hash := rfl

theorem cancelOrder_asWritten :
    (asWritten hash).cancelOrder hash = OrderBooks.cancelOrder hash := by
  funext id
  simp only [Subtracting.cancelOrder, OrderBooks.cancelOrder, removeOrder_asWritten]

theorem reduceOrder_asWritten :
    (asWritten hash).reduceOrder hash = OrderBooks.reduceOrder hash := rfl

theorem matchRound_asWritten :
    (asWritten hash).matchRound hash host = MatchingEngines.matchRound hash host := by
  funext order remaining
  simp only [Subtracting.matchRound, MatchingEngines.matchRound, removeOrder_asWritten]
  rfl

theorem matchLoop_asWritten (order : NewOrder) (fuel : ℕ) (remaining : UInt64) :
    (asWritten hash).matchLoop hash host order fuel remaining =
      MatchingEngines.matchLoop hash host order fuel remaining := by
  induction fuel generalizing remaining with
  | zero => rfl
  | succ fuel ih =>
    rw [Subtracting.matchLoop, MatchingEngines.matchLoop, matchRound_asWritten]
    refine congrArg (Bind.bind (MatchingEngines.matchRound hash host order remaining)) ?_
    funext left
    cases left with
    | none => rfl
    | some left => exact ih left

theorem matchOrder_asWritten (order : NewOrder) :
    (asWritten hash).matchOrder hash host order = MatchingEngines.matchOrder hash host order := by
  simp only [Subtracting.matchOrder, MatchingEngines.matchOrder, matchLoop_asWritten,
    addOrderWithQuantities_asWritten, addRestingRemainder]

/-- Over the procedures of the source the calls are those of the source. -/
theorem run_asWritten (c : Call) : (asWritten hash).run hash c = c.run hash := by
  cases c with
  | addOrder | addRestingRemainder =>
    simp only [Subtracting.run, Call.run, addOrderWithQuantities_asWritten, OrderBooks.addOrder,
      addRestingRemainder]
  | cancelOrder => simp only [Subtracting.run, Call.run, cancelOrder_asWritten]
  | reduceOrder => simp only [Subtracting.run, Call.run, reduceOrder_asWritten]
  | removeOrder => simp only [Subtracting.run, Call.run, removeOrder_asWritten]
  | reserveOrderCapacity => rfl
  | processEvent host event =>
    cases event with
    | new | cancel | reduce =>
      simp only [Subtracting.run, Subtracting.processEvent, Call.run, MatchingEngines.processEvent,
        matchOrder_asWritten, cancelOrder_asWritten, reduceOrder_asWritten]
  | processOrder =>
    simp only [Subtracting.run, Subtracting.processEvent, Call.run, MatchingEngines.processOrder,
      matchOrder_asWritten]

end AsWritten

section Leaves

variable {σ α : Type} {fits : σ → Prop} [DecidablePred fits] {x : Proc StdException σ α} {s : σ}

theorem guarded_run (h : fits s) : guarded fits x s = x s := by
  rw [guarded]
  split
  · rename_i hrun
    rw [if_pos h, hrun]
  · rfl

end Leaves

section Leaves

variable {hash : OrderId → UInt64}

theorem allocateIn_checked {page : ℕ} {s : PoolState} (h : (s.pool.page page).freeCount ≠ 0)
    (orderId : OrderId) (price : Price) (originalQuantity remainingQuantity : Quantity)
    (timestamp : Timestamp) (orderSide : OrderSide) (orderType : Orders.OrderType)
    (sequenceNumber : SequenceNumber) :
    (checked hash).allocateIn orderId price originalQuantity remainingQuantity timestamp orderSide
        orderType sequenceNumber page s =
      OrderPools.allocateIn orderId price originalQuantity remainingQuantity timestamp orderSide
        orderType sequenceNumber page s := by
  simp only [checked]
  exact guarded_run h

theorem release_checked {s : PoolState} (h : s.pool.liveOrderCount ≠ 0) (p : OrderPtr) :
    (checked hash).release p s = OrderPools.release p s := by
  simp only [checked]
  exact guarded_run h

theorem removeFromLevel_checked {l : LevelPtr} {p : OrderPtr} {s : LevelState}
    (hremaining : (s.memory p).remainingQuantity ≤ s.level.totalQuantity)
    (hcount : s.level.count ≠ 0) :
    (checked hash).removeFromLevel l p s = PriceLevels.removeOrder l p s := by
  simp only [checked]
  exact guarded_run ⟨hremaining, hcount⟩

theorem markEmpty_checked {ladder : PriceLadder} (h : ladder.occupied ≠ 0) (price : Price) :
    (checked hash).markEmpty price ladder = PriceLadders.markEmpty price ladder := by
  simp only [checked]
  exact guarded_run h

theorem removeFromIndex_checked {index : OrderIndexing.OrderIndex} (h : index.count ≠ 0)
    (p : OrderPtr) (id : OrderId) :
    (checked hash).removeFromIndex p id index = OrderIndexing.removeOrder hash p id index := by
  simp only [checked]
  exact guarded_run h

/-- The one procedure that tests its operands itself. -/
theorem reduceTotalQuantity_checked (quantity : Quantity) :
    (checked hash).reduceTotalQuantity quantity = PriceLevels.reduceTotalQuantity quantity := by
  funext s
  simp only [checked]
  by_cases hle : quantity ≤ s.level.totalQuantity
  · exact guarded_run hle
  · have hgt : quantity > s.level.totalQuantity := UInt64.not_le.mp hle
    have hrun : PriceLevels.reduceTotalQuantity quantity s =
        (.throws (.invalidArgument "Cannot reduce price level quantity below zero"), s) := by
      simp only [PriceLevels.reduceTotalQuantity, Proc.get_bind_apply, hgt, if_true,
        Proc.throw_bind_apply]
    rw [guarded, hrun]

end Leaves

section Frames

variable {α : Type} {book book' : OrderBook} {o : Outcome StdException α}

/-- Work on a level leaves the pool, the index and the number of occupied levels alone. -/
theorem onLevel_frame {l : LevelPtr} {x : LevelProc α} (h : onLevel l x book = (o, book')) :
    book'.orderPool = book.orderPool ∧ book'.orderIndex = book.orderIndex ∧
      ∀ d, (book'.ladder d).occupied = (book.ladder d).occupied := by
  simp only [onLevel, Proc.zoom, Prod.mk.injEq] at h
  obtain ⟨_, rfl⟩ := h
  generalize (x ⟨book.level l, book.memory⟩).2 = t
  obtain ⟨_, hpool, hindex⟩ := setLadder_frame book
    ((book.ladder l.descending).setLevel l.index t.level) l.descending
  refine ⟨hpool, hindex, ?_⟩
  intro d
  change ((book.setLevel l t.level).ladder d).occupied = _
  by_cases hd : d = l.descending
  · subst d
    rw [OrderBook.setLevel, ladder_setLadder_self]
    rfl
  · rw [OrderBook.setLevel, ladder_setLadder_ne _ _ hd]

theorem onLadder_frame {d : Bool} {x : LadderProc α} (h : onLadder d x book = (o, book')) :
    book'.orderPool = book.orderPool ∧ book'.orderIndex = book.orderIndex := by
  simp only [onLadder, Proc.zoom, Prod.mk.injEq] at h
  obtain ⟨_, rfl⟩ := h
  exact (setLadder_frame _ _ _).2

end Frames

section Removals

variable {hash : OrderId → UInt64} {book : OrderBook} {queues : Queues} {l : LevelPtr}
  {p : OrderPtr}

/-- The counters that unlinking `p` from the level at `l` subtracts from are large enough. -/
structure Deductible (book : OrderBook) (l : LevelPtr) (p : OrderPtr) : Prop where
  remaining : (book.memory p).remainingQuantity ≤ (book.level l).totalQuantity
  count : (book.level l).count ≠ 0
  occupied : (book.ladder l.descending).occupied ≠ 0

theorem ne_zero_of_pos {n : UInt64} (h : 0 < n.toNat) : n ≠ 0 := by
  intro hzero
  rw [hzero] at h
  exact Nat.lt_irrefl 0 h

theorem deductible (h : LevelsOk book queues) (hp : p ∈ queues l) : Deductible book l p where
  remaining := UInt64.le_iff_toNat_le.mpr (remainingOf_le_total h hp)
  count := by
    apply ne_zero_of_pos
    rw [(h.represents l).count]
    exact List.length_pos_of_mem hp
  occupied := by
    apply ne_zero_of_pos
    have hset : bitAt (book.ladder l.descending).words l.index = true := by
      rw [h.bits l]
      exact decide_eq_true (List.ne_nil_of_mem hp)
    rw [(h.marked l.descending).occupied]
    apply Finset.card_pos.mpr
    exact ⟨l.index, Finset.mem_filter.mpr ⟨Finset.mem_range.mpr (h.queue_lt hp), hset⟩⟩

theorem indexCount_ne_zero (h : Synced hash book queues) (hp : p ∈ queues l) :
    book.orderIndex.count ≠ 0 := by
  obtain ⟨i, hi, hslot⟩ := (h.indexed _ p).mpr ⟨⟨l, hp⟩, rfl⟩
  apply ne_zero_of_pos
  rw [h.index.count]
  apply Finset.card_pos.mpr
  exact ⟨i, Finset.mem_filter.mpr ⟨Finset.mem_range.mpr hi, by rw [hslot]; rfl⟩⟩

theorem liveOrderCount_ne_zero {pool : OrderPool} {live : List OrderPtr} (h : PoolOk pool live)
    (hp : p ∈ live) : pool.liveOrderCount ≠ 0 := by
  apply ne_zero_of_pos
  rw [h.count]
  exact List.length_pos_of_mem hp

theorem removeOrder_checked (h : Synced hash book queues) (hp : p ∈ queues l) :
    (checked hash).removeOrder hash p book = OrderBooks.removeOrder hash p book := by
  have hfind : onIndex (OrderIndexing.findOrder hash (book.memory p).orderId) book =
      (.returns p, book) := h.findOrder_self hp
  have howner : (book.memory p).priceLevel = some l := (h.represents l).owner p hp
  have hdeduct := deductible h.toLevelsOk hp
  simp only [Subtracting.removeOrder, OrderBooks.removeOrder, h.ne_null hp, if_false,
    Proc.get_bind_apply]
  rw [Proc.bind_returns _ hfind, Proc.bind_returns _ hfind]
  simp only [ne_eq, not_true, if_false, howner, Proc.check_ok, Proc.pure_bind_apply]
  rw [(h.rests l p hp).isBuy]
  have hlast : ∀ book₂ : OrderBook, book₂.orderPool = book.orderPool →
      book₂.orderIndex = book.orderIndex → ∀ id,
      (do
        onIndex ((checked hash).removeFromIndex p id)
        onPool ((checked hash).release p) : BookProc Unit) book₂ =
      (do
        onIndex (OrderIndexing.removeOrder hash p id)
        onPool (OrderPools.release p) : BookProc Unit) book₂ := by
    intro book₂ hpool hindex id
    refine Proc.bind_congr_run (Proc.zoom_congr_run (removeFromIndex_checked ?_ p id))
      fun _ book₃ hrun => ?_
    · rw [hindex]
      exact indexCount_ne_zero h hp
    · refine Proc.zoom_congr_run (release_checked ?_ p)
      have hpool₃ : book₃.orderPool = book₂.orderPool := by
        simp only [onIndex, Proc.zoom, Prod.mk.injEq] at hrun
        rw [← hrun.2]
      change book₃.orderPool.liveOrderCount ≠ 0
      rw [hpool₃, hpool]
      exact liveOrderCount_ne_zero h.pool (h.mem_restingOrders.mpr ⟨l, hp⟩)
  refine Proc.bind_congr_run (Proc.zoom_congr_run
    (removeFromLevel_checked hdeduct.remaining hdeduct.count)) fun _ book₁ hlevel => ?_
  obtain ⟨hpool, hindex, hoccupied⟩ := onLevel_frame hlevel
  rw [Proc.get_bind_apply, Proc.get_bind_apply]
  by_cases hempty : (book₁.level l).isEmpty = true
  · rw [if_pos hempty, if_pos hempty]
    refine Proc.bind_congr_run (Proc.zoom_congr_run (markEmpty_checked ?_ _))
      fun _ book₂ hladder => ?_
    · rw [hoccupied]
      exact hdeduct.occupied
    · obtain ⟨hpool₂, hindex₂⟩ := onLadder_frame hladder
      exact hlast book₂ (hpool₂.trans hpool) (hindex₂.trans hindex) _
  · rw [if_neg hempty, if_neg hempty]
    exact hlast book₁ hpool hindex _

end Removals

section Rollbacks

variable {hash : OrderId → UInt64} {host : Host} {book book' : OrderBook} {queues : Queues}
  {p : OrderPtr} {order : Order}

/-- What the handler of an insertion relies on when it takes the order `p` back out. -/
structure Undoable (s : Insertion) (p : OrderPtr) : Prop where
  live : s.book.orderPool.liveOrderCount ≠ 0
  linked : s.addedToLevel = true →
    ∃ l, s.level = some l ∧ s.ladder = l.descending ∧ Deductible s.book l p

theorem rollback_checked {s : Insertion} (h : Undoable s p) (e : StdException) :
    (checked hash).rollback p e s = OrderBooks.rollback p e s := by
  have hlast : ∀ t : Insertion, t.book.orderPool = s.book.orderPool →
      (do
        OrderBooks.onBook (onPool ((checked hash).release p))
        throw e : InsertionProc Unit) t =
      (do
        OrderBooks.onBook (onPool (OrderPools.release p))
        throw e : InsertionProc Unit) t := by
    intro t hpool
    refine Proc.bind_congr_run (Proc.zoom_congr_run (Proc.zoom_congr_run (release_checked ?_ p)))
      fun _ _ _ => rfl
    change t.book.orderPool.liveOrderCount ≠ 0
    rw [hpool]
    exact h.live
  simp only [Subtracting.rollback, OrderBooks.rollback, Proc.get_bind_apply]
  by_cases hadded : s.addedToLevel = true
  swap
  · rw [if_neg hadded, if_neg hadded]
    exact hlast s rfl
  obtain ⟨l, hlevel, hladder, hdeduct⟩ := h.linked hadded
  rw [if_pos hadded, if_pos hadded, hlevel, deref_some, Proc.pure_bind_apply, Proc.pure_bind_apply]
  refine Proc.bind_congr_run (Proc.zoom_congr_run (Proc.zoom_congr_run
    (removeFromLevel_checked hdeduct.remaining hdeduct.count))) fun _ t hrun => ?_
  generalize hunlink : onLevel l (PriceLevels.removeOrder l p) s.book = result at hrun
  obtain ⟨o, book₁⟩ := result
  rw [OrderBooks.onBook_run hunlink, Prod.mk.injEq] at hrun
  obtain ⟨_, rfl⟩ := hrun
  obtain ⟨hpool, _, hoccupied⟩ := onLevel_frame hunlink
  rw [Proc.get_bind_apply, Proc.get_bind_apply]
  by_cases hempty : (book₁.level l).isEmpty = true
  · rw [if_pos hempty, if_pos hempty]
    refine Proc.bind_congr_run (Proc.zoom_congr_run (Proc.zoom_congr_run
      (markEmpty_checked ?_ _))) fun _ t hrun => ?_
    · change (book₁.ladder s.ladder).occupied ≠ 0
      rw [hoccupied, hladder]
      exact hdeduct.occupied
    · generalize hmark : onLadder s.ladder (markEmpty (book₁.memory p).price) book₁ = result at hrun
      obtain ⟨o, book₂⟩ := result
      rw [OrderBooks.onBook_run hmark, Prod.mk.injEq] at hrun
      obtain ⟨_, rfl⟩ := hrun
      exact hlast _ ((onLadder_frame hmark).1.trans hpool)
  · rw [if_neg hempty, if_neg hempty]
    exact hlast _ hpool

/-- An attempt that throws leaves an order that can be taken back out. -/
theorem undoable_of_attempt (h : Synced hash book queues)
    (hallocated : Allocated hash book book' queues p order) (hlimit : order.orderType = .limit)
    (hremaining : order.remainingQuantity ≠ 0) {e : StdException} {s : Insertion}
    (hthrows : attempt hash host p { book := book' } = (.throws e, s)) : Undoable s p := by
  have hlive : book'.orderPool.liveOrderCount ≠ 0 :=
    liveOrderCount_ne_zero hallocated.pool (List.mem_cons_self ..)
  have hpending : ∀ (d : Bool) (level : Option LevelPtr), Undoable ⟨book', false, d, level⟩ p :=
    fun d level => ⟨hlive, fun hadded => by simp at hadded⟩
  by_cases hvalid : order.isValid = true
  swap
  · rw [attempt_invalid_run hallocated (Bool.eq_false_iff.mpr hvalid)] at hthrows
    obtain ⟨_, rfl⟩ := Prod.mk.inj hthrows
    exact hpending _ _
  cases hprice : (book.ladder order.isBuy).indexOf order.price with
  | error e' =>
    rw [attempt_offGrid_run hallocated hvalid hprice] at hthrows
    obtain ⟨_, rfl⟩ := Prod.mk.inj hthrows
    exact hpending _ _
  | ok index =>
    by_cases hfits : order.remainingQuantity ≤
        uint64Max - (book.level ⟨order.isBuy, index.toNat⟩).totalQuantity
    swap
    · rw [attempt_overflow_run h hallocated hvalid hprice hremaining hfits] at hthrows
      obtain ⟨_, rfl⟩ := Prod.mk.inj hthrows
      exact hpending _ _
    obtain ⟨linked, hrun, hlink⟩ := @attempt_linked hash book book' queues p order
      h hallocated hvalid index hprice hremaining hlimit hfits
    rw [hrun] at hthrows
    generalize hadd : OrderIndexing.addOrder hash host.slots p order.orderId linked.orderIndex =
      result
    obtain ⟨o, index'⟩ := result
    rw [OrderBooks.onBook_run (onIndex_run hadd)] at hthrows
    obtain ⟨_, rfl⟩ := Prod.mk.inj hthrows
    refine ⟨?_, fun _ => ⟨⟨order.isBuy, index.toNat⟩, rfl, rfl, ?_⟩⟩
    · change linked.orderPool.liveOrderCount ≠ 0
      rw [hlink.pool]
      exact hlive
    · have hdeduct := deductible hlink.levels (l := ⟨order.isBuy, index.toNat⟩) (p := p) (by simp)
      exact ⟨hdeduct.remaining, hdeduct.count, hdeduct.occupied⟩

end Rollbacks

section Insertions

variable {hash : OrderId → UInt64} {book : OrderBook} {queues : Queues}

theorem freeCount_ne_zero {pool : OrderPool} {live : List OrderPtr} (h : PoolOk pool live) {k : ℕ}
    (hfirst : pool.firstPageWithFreeSlot = some k) : (pool.page k).freeCount ≠ 0 := by
  obtain ⟨ks, hks, hcounts⟩ := h.freePages
  have hmem := hks.first_lt hfirst
  exact (hcounts k (hks.lt hmem)).mp hmem

theorem allocate_checked {s : PoolState} {live : List OrderPtr} (h : PoolOk s.pool live)
    (host : Host) (order : Order) :
    (checked hash).allocate host order.orderId order.price order.originalQuantity
        order.remainingQuantity order.timestamp order.orderSide order.orderType
        order.sequenceNumber s =
      OrderPools.allocate host order.orderId order.price order.originalQuantity
        order.remainingQuantity order.timestamp order.orderSide order.orderType
        order.sequenceNumber s := by
  simp only [Subtracting.allocate, OrderPools.allocate, Proc.get_bind_apply]
  cases hfirst : s.pool.firstPageWithFreeSlot with
  | some k => exact allocateIn_checked (freeCount_ne_zero h hfirst) ..
  | none =>
    refine Proc.bind_congr_run rfl fun k t hrun => ?_
    by_cases hrefused : PageRefused host s.pool
    · obtain ⟨e, hthrows⟩ := createPage_refused hrefused
      rw [hthrows] at hrun
      simp at hrun
    · obtain ⟨pool, hcreate, hok, hfirst', _⟩ := createPage_spec h hrefused
      rw [hcreate, Prod.mk.injEq, Outcome.returns.injEq] at hrun
      obtain ⟨rfl, rfl⟩ := hrun
      exact allocateIn_checked (freeCount_ne_zero hok hfirst') ..

/-- `insertOrder` over the given procedures. -/
theorem insertOrder_checked (h : Synced hash book queues) (host : Host) (order : Order) :
    (checked hash).addOrderWithQuantities hash host order.orderId order.price
        order.originalQuantity order.remainingQuantity order.timestamp order.orderSide
        order.orderType order.sequenceNumber book =
      insertOrder hash host order book := by
  simp only [Subtracting.addOrderWithQuantities, insertOrder, OrderBooks.addOrderWithQuantities]
  by_cases hlimit : order.orderType = .limit
  swap
  · rw [if_pos hlimit, if_pos hlimit, Proc.throw_bind_apply, Proc.throw_bind_apply]
  rw [if_neg (not_not.mpr hlimit), if_neg (not_not.mpr hlimit)]
  split
  · rw [Proc.throw_bind_apply, Proc.throw_bind_apply]
  rename_i hquantities
  have hremaining : order.remainingQuantity ≠ 0 := by
    intro hzero
    simp [Quantity.isValid, hzero] at hquantities
  refine Proc.bind_congr_run (Proc.zoom_congr_run (allocate_checked h.pool host order))
    fun p book' hallocate => ?_
  rcases allocate_order h host order with ⟨_, e, hthrows⟩ | ⟨_, q, book'', hrun, hallocated⟩
  · rw [hthrows] at hallocate
    simp at hallocate
  rw [hrun, Prod.mk.injEq, Outcome.returns.injEq] at hallocate
  obtain ⟨rfl, rfl⟩ := hallocate
  refine Proc.bind_congr_run (Proc.zoom_congr_run (Proc.handle_congr_run ?_)) fun _ _ _ => rfl
  intro e s hthrows
  exact rollback_checked (undoable_of_attempt h hallocated hlimit hremaining hthrows) e

end Insertions

section Requests

variable {hash : OrderId → UInt64} {book : OrderBook} {queues : Queues}

theorem cancelOrder_checked (h : Synced hash book queues) (id : OrderId) :
    (checked hash).cancelOrder hash id book = OrderBooks.cancelOrder hash id book := by
  obtain ⟨found, hfind, hcase⟩ := h.findOrder_run id
  have hfind' : onIndex (OrderIndexing.findOrder hash id) book = (.returns found, book) := hfind
  simp only [Subtracting.cancelOrder, OrderBooks.cancelOrder]
  rw [Proc.bind_returns _ hfind', Proc.bind_returns _ hfind']
  rcases hcase with ⟨hnull, _⟩ | ⟨l, hp, _⟩
  · rw [if_pos hnull, if_pos hnull]
  · rw [if_neg (h.ne_null hp), if_neg (h.ne_null hp)]
    exact Proc.bind_congr_run (removeOrder_checked h hp) fun _ _ _ => rfl

theorem reduceOrder_checked (id : OrderId) (quantity : Quantity) :
    (checked hash).reduceOrder hash id quantity = OrderBooks.reduceOrder hash id quantity := by
  simp only [Subtracting.reduceOrder, OrderBooks.reduceOrder, reduceTotalQuantity_checked]

end Requests

section Matching

variable {hash : OrderId → UInt64} {host : Host} {order : NewOrder} {remaining : UInt64}
  {s : EngineState} {queues : Queues}

theorem min_le_resting (remaining resting : UInt64) : min remaining resting ≤ resting := by
  change (if remaining ≤ resting then remaining else resting) ≤ resting
  split
  · assumption
  · exact UInt64.le_refl _

/-- In a round only the removal of an order that it uses up is to be compared. -/
theorem matchRound_checked (h : Synced hash s.orderBook queues) (host : Host) (order : NewOrder)
    (remaining : UInt64) :
    (checked hash).matchRound hash host order remaining s =
      MatchingEngines.matchRound hash host order remaining s := by
  simp only [Subtracting.matchRound, MatchingEngines.matchRound, reduceTotalQuantity_checked]
  split
  · rfl
  simp only [Proc.get_bind_apply, best_eq]
  rcases best_cases h.toLevelsOk (!isBid order) with
    ⟨hnone, _⟩ | ⟨l, p, xs, _, hbest, hq, _⟩
  · rw [hnone]
  rw [hbest]
  have hp : p ∈ queues l := by rw [hq]; simp
  have hhead : (s.orderBook.level l).headOrder = p := by
    rw [(h.represents l).head, hq]
    rfl
  simp only [hhead, h.ne_null hp, if_false]
  split
  · rfl
  refine Proc.bind_congr_run rfl fun _ t hroom => ?_
  have hbook : t.orderBook = s.orderBook := by
    rw [emplaceBack_run] at hroom
    split at hroom
    · rw [← (Prod.mk.inj hroom).2]
    · simp at hroom
  refine Proc.bind_congr_run rfl fun _ t' hreduce => ?_
  have hle := min_le_resting remaining (s.orderBook.memory p).remainingQuantity
  obtain ⟨counter, book, out⟩ := t
  obtain rfl : book = s.orderBook := hbook
  rw [MatchingRounds.onBook_run (reduceRemaining_run hle)] at hreduce
  obtain ⟨_, rfl⟩ := Prod.mk.inj hreduce
  rw [Proc.get_bind_apply, Proc.get_bind_apply]
  split
  · have hsub : (s.orderBook.memory p).remainingQuantity -
        min remaining (s.orderBook.memory p).remainingQuantity ≤
          (s.orderBook.memory p).remainingQuantity := by
      rw [UInt64.le_iff_toNat_le, UInt64.toNat_sub_of_le _ _ hle]
      exact Nat.sub_le _ _
    have hshrunk := synced_shrink h hsub
    exact Proc.bind_congr_run (Proc.zoom_congr_run (removeOrder_checked hshrunk hp))
      fun _ _ _ => rfl
  · rfl

theorem matchLoop_checked (hs : Sound hash s.orderBook) (fuel : ℕ) :
    (checked hash).matchLoop hash host order fuel remaining s =
      MatchingEngines.matchLoop hash host order fuel remaining s := by
  induction fuel generalizing remaining s with
  | zero => rfl
  | succ fuel ih =>
    rw [Subtracting.matchLoop, MatchingEngines.matchLoop]
    refine Proc.bind_congr_run (matchRound_checked hs.synced host order remaining)
      fun left t hround => ?_
    have hends := matchRound_ends hs.synced host order remaining
    rw [hround] at hends
    cases hends with
    | stops _ => rfl
    | filled hmeets _ _ hremoved => exact ih (matched_filled hs hmeets hremoved).sound
    | partly hmeets _ hlt => exact ih (matched_partly hs hmeets hlt).sound

theorem matchOrder_checked (hs : Sound hash s.orderBook) (host : Host) (order : NewOrder) :
    (checked hash).matchOrder hash host order s = MatchingEngines.matchOrder hash host order s := by
  simp only [Subtracting.matchOrder, MatchingEngines.matchOrder]
  cases hvalid : validate order with
  | error e =>
    rw [Proc.check_error, Proc.throw_bind_apply, Proc.throw_bind_apply]
  | ok _ =>
    obtain ⟨found, hfind, _⟩ := hs.synced.findOrder_run order.orderId
    rw [Proc.check_ok, Proc.pure_bind_apply, Proc.pure_bind_apply,
      Proc.bind_returns _ (MatchingRounds.onBook_run hfind),
      Proc.bind_returns _ (MatchingRounds.onBook_run hfind)]
    split
    · rw [Proc.throw_bind_apply, Proc.throw_bind_apply]
    refine Proc.bind_congr_run rfl fun number t hnumber => ?_
    rw [generate_run] at hnumber
    split at hnumber
    · simp at hnumber
    obtain ⟨_, rfl⟩ := Prod.mk.inj hnumber
    rw [Proc.get_bind_apply, Proc.get_bind_apply]
    refine Proc.bind_congr_run (matchLoop_checked (s := numbered s) hs _) fun left t' hloop => ?_
    have hsound : Sound hash t'.orderBook := (matchLoop_returns hs hvalid hloop).2.sound
    split
    · refine Proc.bind_congr_run (Proc.zoom_congr_run ?_) fun _ _ _ => rfl
      exact insertOrder_checked hsound.synced host (remainderOrder order number left)
    · rfl

theorem processEvent_checked (hs : Sound hash s.orderBook) (host : Host) (event : OrderEvent) :
    (checked hash).processEvent hash host event s =
      MatchingEngines.processEvent hash host event s := by
  simp only [Subtracting.processEvent, MatchingEngines.processEvent, Proc.modify_bind_apply]
  cases event with
  | new order =>
    exact Proc.bind_congr_run (matchOrder_checked (s := emptied s) hs host order) fun _ _ _ => rfl
  | cancel order =>
    dsimp only
    split
    · rw [Proc.throw_bind_apply, Proc.throw_bind_apply]
    · exact Proc.bind_congr_run (Proc.zoom_congr_run (cancelOrder_checked hs.synced order.orderId))
        fun _ _ _ => rfl
  | reduce reduction => simp only [reduceOrder_checked]

/-- No permitted call on a sound book wraps a counter. -/
theorem run_checked (hs : Sound hash s.orderBook) {c : Call} (hany : AnyCall s c) :
    (checked hash).run hash c s = c.run hash s := by
  cases c with
  | addOrder host orderId price quantity timestamp orderSide orderType sequenceNumber =>
    exact Proc.bind_congr_run (Proc.zoom_congr_run (insertOrder_checked hs.synced host {
      orderId, price, timestamp, orderSide, orderType, sequenceNumber
      originalQuantity := quantity
      remainingQuantity := quantity })) fun _ _ _ => rfl
  | addRestingRemainder host orderId price originalQuantity remainingQuantity timestamp orderSide
      orderType sequenceNumber =>
    exact Proc.bind_congr_run (Proc.zoom_congr_run (insertOrder_checked hs.synced host {
      orderId, price, originalQuantity, remainingQuantity, timestamp, orderSide, orderType
      sequenceNumber := sequenceNumber })) fun _ _ _ => rfl
  | cancelOrder orderId =>
    exact Proc.bind_congr_run (Proc.zoom_congr_run (cancelOrder_checked hs.synced orderId))
      fun _ _ _ => rfl
  | reduceOrder orderId newQuantity =>
    simp only [Subtracting.run, Call.run, reduceOrder_checked]
  | removeOrder order =>
    obtain ⟨l, hp⟩ :=
      hs.synced.toLevelsOk.mem_restingOrders.mp ((hs.synced.pool.stored order).mpr hany)
    simp only [Subtracting.run, Call.run]
    exact Proc.zoom_congr_run (removeOrder_checked hs.synced hp)
  | reserveOrderCapacity host orderCount => rfl
  | processEvent host event =>
    exact Proc.bind_congr_run (processEvent_checked hs host event) fun _ _ _ => rfl
  | processOrder host order =>
    exact Proc.bind_congr_run (processEvent_checked hs host (.new order)) fun _ _ _ => rfl

end Matching

section Reached

variable {hash : OrderId → UInt64}

/-- In a reachable book no call raises an internal error, and no call subtracts more from a
counter than it holds. -/
theorem internal_errors_unreachable {s : EngineState} (h : Reachable hash AnyCall s) {c : Call}
    (hany : AnyCall s c) :
    (∀ e s', c.run hash s = (.throws e, s') → e ∉ internalErrors) ∧
      (checked hash).run hash c s = c.run hash s ∧
      ∀ s', (checked hash).run hash c s ≠ (.throws wrapped, s') := by
  have hs := reachable_sound h
  have hrun := run_checked hs hany
  refine ⟨?_, hrun, ?_⟩
  · intro e s' hthrows
    exact fun hmem => call_external hs hany hthrows (List.mem_cons_of_mem _ hmem)
  · intro s' hthrows
    rw [hrun] at hthrows
    exact call_external hs hany hthrows (List.mem_cons_self ..)

/-- A second order with the same id is rolled back, and the first one is cancelled. -/
theorem cancellation_after_rollback : ∃ s : EngineState,
    (∀ e s', (Call.cancelOrder 1).run id s = (.throws e, s') → e ∉ internalErrors) ∧
      (checked id).run id (.cancelOrder 1) s = (Call.cancelOrder 1).run id s ∧
      (∀ s', (checked id).run id (.cancelOrder 1) s ≠ (.throws wrapped, s')) ∧
      s.orderBook.orderPool.liveOrderCount = 1 := by
  obtain ⟨s, hs, hp⟩ := @exists_reachable id _ _ anyCall_of_removesNone 100 1 2
    [.addOrder grantingHost 1 101 10 5 .sell .limit 1,
      .addOrder grantingHost 1 100 10 5 .sell .limit 2]
    (fun s => s.orderBook.orderPool.liveOrderCount == 1) (by decide +kernel)
  obtain ⟨hthrows, hrun, hwraps⟩ := internal_errors_unreachable hs (c := .cancelOrder 1) trivial
  exact ⟨s, hthrows, hrun, hwraps, beq_iff_eq.mp hp⟩

end Reached

end Leka.CounterChecks
