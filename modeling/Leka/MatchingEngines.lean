import Leka.OrderBooks

/-!
The matching engine: validation, the process-wide sequence counter, the matching loop and
the dispatch of events. The output buffer belongs to the caller and keeps the executions
written before an exception. An engine has no state of its own besides the reference to
its book, so engines on one book differ in nothing.
-/

namespace Leka.MatchingEngines

open Procedures Orders OrderPools PriceLevels OrderBooks

/-- The state an engine works on: the static counter of the sequence number generator, the
book and the caller's buffer. -/
structure EngineState where
  currentSequence : UInt64
  orderBook : OrderBook
  out : List Execution

abbrev EngineProc := Proc StdException EngineState

def onBook (x : BookProc α) : EngineProc α :=
  Proc.zoom EngineState.orderBook (fun book s => { s with orderBook := book }) x

def generate : EngineProc SequenceNumber := do
  let s ← Proc.get
  if s.currentSequence = uint64Max then
    throw (.overflowError "Sequence number space exhausted")
  Proc.modify fun s => { s with currentSequence := s.currentSequence + 1 }
  return s.currentSequence + 1

def emplaceBack (host : Host) (execution : Execution) : EngineProc Unit := do
  let s ← Proc.get
  if !host.buffer s.out.length then
    throw .badAlloc
  Proc.modify fun s => { s with out := s.out ++ [execution] }

/-- The limit of the incoming order rules out the best opposing price. -/
def limitForbids (order : NewOrder) (bestPrice : Price) : Bool :=
  order.orderType = .limit ∧
    (order.orderSide = .buy ∧ order.price < bestPrice ∨
      order.orderSide = .sell ∧ order.price > bestPrice)

section Matching

variable (hash : OrderId → UInt64) (host : Host)

/-- One round of the loop: the quantity left after an execution, `none` at a break. -/
def matchRound (order : NewOrder) (remaining : UInt64) : EngineProc (Option UInt64) := do
  if remaining = 0 then
    return none
  let s ← Proc.get
  match if order.orderSide = .buy then s.orderBook.getBestAsk else s.orderBook.getBestBid with
  | none => return none
  | some level =>
    if limitForbids order (s.orderBook.level level).price then
      return none
    let restingOrder := (s.orderBook.level level).headOrder
    if restingOrder = nullptr then
      throw (.logicError "Non-empty price level has no head order")
    let restingRemaining := (s.orderBook.memory restingOrder).remainingQuantity
    let executionValue := min remaining restingRemaining
    emplaceBack host {
      incomingOrderId := order.orderId
      restingOrderId := (s.orderBook.memory restingOrder).orderId
      executionPrice := (s.orderBook.memory restingOrder).price
      executionQuantity := executionValue }
    onBook (onOrder restingOrder (Order.reduceRemainingQuantity executionValue))
    let s ← Proc.get
    if (s.orderBook.memory restingOrder).isFullyFilled then
      onBook (removeOrder hash restingOrder)
    else
      onBook (onLevel level (reduceTotalQuantity executionValue))
    return some (remaining - executionValue)

/-- The loop, with the quantity left at its break. Each round but the last fills a resting
order, so the live orders bound the rounds. -/
def matchLoop (order : NewOrder) : ℕ → UInt64 → EngineProc UInt64
  | 0, _ => Proc.diverge
  | fuel + 1, remaining => do
    match ← matchRound hash host order remaining with
    | none => return remaining
    | some left => matchLoop order fuel left

/-- The checks made on the fields of an incoming order, in their order. -/
def validate (order : NewOrder) : Except StdException Unit :=
  if !OrderId.isValid order.orderId || !Quantity.isValid order.quantity ||
      !Timestamp.isValid order.timestamp then
    .error (.invalidArgument "Invalid incoming order value")
  else if order.orderSide ≠ .buy ∧ order.orderSide ≠ .sell then
    .error (.invalidArgument "Invalid incoming order side")
  else if order.orderType ≠ .limit ∧ order.orderType ≠ .market then
    .error (.invalidArgument "Invalid incoming order type")
  else if order.orderType = .limit ∧ !Price.isValid order.price then
    .error (.invalidArgument "Limit order requires a valid price")
  else if order.orderType = .market ∧ Price.isValid order.price then
    .error (.invalidArgument "Market order must not specify a price")
  else .ok ()

def matchOrder (order : NewOrder) : EngineProc Unit := do
  Proc.check (validate order)
  let found ← onBook (findOrder hash order.orderId)
  if found ≠ nullptr then
    throw (.logicError "Order with the same OrderId already exists")
  let sequenceNumber ← generate
  let s ← Proc.get
  let remaining ← matchLoop hash host order (s.orderBook.orderPool.liveOrderCount.toNat + 1)
    order.quantity
  if remaining > 0 ∧ order.orderType = .limit then
    let _ ← onBook (addRestingRemainder hash host order.orderId order.price order.quantity
      remaining order.timestamp order.orderSide .limit sequenceNumber)
    return ()
  return ()

/-- The number of executions written to the buffer. -/
def processEvent (event : OrderEvent) : EngineProc ℕ := do
  Proc.modify fun s => { s with out := [] }
  match event with
  | .new order =>
    matchOrder hash host order
    let s ← Proc.get
    return s.out.length
  | .cancel order =>
    if !OrderId.isValid order.orderId then
      throw (.invalidArgument "Invalid cancel order ID")
    let _ ← onBook (cancelOrder hash order.orderId)
    return 0
  | .reduce reduction =>
    if !OrderId.isValid reduction.orderId then
      throw (.invalidArgument "Invalid reduce order ID")
    let _ ← onBook (reduceOrder hash reduction.orderId reduction.newQuantity)
    return 0

/-- The overload that takes the fields of an order and a buffer. -/
def processOrder (order : NewOrder) : EngineProc ℕ := do
  Proc.modify fun s => { s with out := [] }
  matchOrder hash host order
  let s ← Proc.get
  return s.out.length

end Matching

end Leka.MatchingEngines
