import Leka.OrderIndexing
import Leka.OrderPools
import Leka.PriceLadders

/-!
The order book: the pool that owns the orders, the index and the two ladders that refer to
them, and the memory the orders live in. The procedures of the components run on their
part of the book. An insertion that fails half way is rolled back by its handler, which
reads the local variables of the attempt.
-/

namespace Leka.OrderBooks

open Procedures Orders OrderIndexing OrderPools PriceLevels PriceLadders

structure OrderBook where
  memory : Memory
  orderPool : OrderPool
  orderIndex : OrderIndex
  bids : PriceLadder
  asks : PriceLadder

namespace OrderBook

/-- The ladder of one side; bids descend. -/
def ladder (book : OrderBook) (descending : Bool) : PriceLadder :=
  if descending then book.bids else book.asks

def setLadder (book : OrderBook) (descending : Bool) (ladder : PriceLadder) : OrderBook :=
  if descending then { book with bids := ladder } else { book with asks := ladder }

/-- The level at an address. -/
def level (book : OrderBook) (level : LevelPtr) : PriceLevel :=
  (book.ladder level.descending).level level.index

def setLevel (book : OrderBook) (level : LevelPtr) (value : PriceLevel) : OrderBook :=
  book.setLadder level.descending ((book.ladder level.descending).setLevel level.index value)

/-- The constructor with an explicit range. What the memory holds before an order is
constructed in it is arbitrary. -/
def make (memory : Memory) (minPrice tickSize : Price) (levelCount : UInt64) :
    Except StdException OrderBook :=
  match PriceLadder.make minPrice tickSize levelCount true with
  | .error e => .error e
  | .ok bids =>
    match PriceLadder.make minPrice tickSize levelCount false with
    | .error e => .error e
    | .ok asks => .ok { memory, orderPool := {}, orderIndex := {}, bids, asks }

def DefaultLevelCount : UInt64 := 65536

/-- The default constructor. -/
def makeDefault (memory : Memory) : Except StdException OrderBook :=
  make memory 1 1 DefaultLevelCount

def getBestBid (book : OrderBook) : Option LevelPtr := book.bids.best

def getBestAsk (book : OrderBook) : Option LevelPtr := book.asks.best

def getBidLevelCount (book : OrderBook) : UInt64 := book.bids.occupied

def getAskLevelCount (book : OrderBook) : UInt64 := book.asks.occupied

end OrderBook

abbrev BookProc := Proc StdException OrderBook

def onPool (x : PoolProc α) : BookProc α :=
  Proc.zoom (fun book => ⟨book.orderPool, book.memory⟩)
    (fun s book => { book with orderPool := s.pool, memory := s.memory }) x

def onIndex (x : Proc StdException OrderIndex α) : BookProc α :=
  Proc.zoom OrderBook.orderIndex (fun index book => { book with orderIndex := index }) x

def onLadder (descending : Bool) (x : LadderProc α) : BookProc α :=
  Proc.zoom (fun book => book.ladder descending)
    (fun ladder book => book.setLadder descending ladder) x

def onLevel (level : LevelPtr) (x : LevelProc α) : BookProc α :=
  Proc.zoom (fun book => ⟨book.level level, book.memory⟩)
    (fun s book => { book.setLevel level s.level with memory := s.memory }) x

def onOrder (order : OrderPtr) (x : Proc StdException Order α) : BookProc α :=
  Proc.zoom (fun book => book.memory order)
    (fun value book => { book with memory := Function.update book.memory order value }) x

section Runs

variable {book : OrderBook} {o : Outcome StdException α}

theorem onPool_run {x : PoolProc α} {s : PoolState}
    (h : x ⟨book.orderPool, book.memory⟩ = (o, s)) :
    onPool x book = (o, { book with orderPool := s.pool, memory := s.memory }) := by
  simp only [onPool, Proc.zoom, h]

theorem onIndex_run {x : Proc StdException OrderIndex α} {index : OrderIndex}
    (h : x book.orderIndex = (o, index)) :
    onIndex x book = (o, { book with orderIndex := index }) := by
  simp only [onIndex, Proc.zoom, h]

theorem onLadder_run {d : Bool} {x : LadderProc α} {ladder : PriceLadder}
    (h : x (book.ladder d) = (o, ladder)) :
    onLadder d x book = (o, book.setLadder d ladder) := by
  simp only [onLadder, Proc.zoom, h]

theorem onLevel_run {l : LevelPtr} {x : LevelProc α} {s : LevelState}
    (h : x ⟨book.level l, book.memory⟩ = (o, s)) :
    onLevel l x book = (o, { book.setLevel l s.level with memory := s.memory }) := by
  simp only [onLevel, Proc.zoom, h]

theorem onOrder_run {p : OrderPtr} {x : Proc StdException Order α} {value : Order}
    (h : x (book.memory p) = (o, value)) :
    onOrder p x book = (o, { book with memory := Function.update book.memory p value }) := by
  simp only [onOrder, Proc.zoom, h]

end Runs

/-- A dereference. One of a null pointer has no defined outcome, and is kept apart from
returning and from throwing. -/
def deref (pointer : Option α) : Proc StdException σ α :=
  match pointer with
  | some target => pure target
  | none => Proc.diverge

@[simp] theorem deref_some (a : α) : (deref (some a) : Proc StdException σ α) = pure a := rfl

/-- An insertion under way: the book and the local variables that the handler reads. -/
structure Insertion where
  book : OrderBook
  addedToLevel : Bool := false
  ladder : Bool := false
  level : Option LevelPtr := none

abbrev InsertionProc := Proc StdException Insertion

def onBook (x : BookProc α) : InsertionProc α :=
  Proc.zoom Insertion.book (fun book s => { s with book := book }) x

/-- Runs a block with its own local variables. -/
def withLocals (x : InsertionProc α) : BookProc α :=
  Proc.zoom (fun book => { book := book }) (fun s _ => s.book) x

theorem onBook_run {x : BookProc α} {s : Insertion} {o : Outcome StdException α}
    {book : OrderBook} (h : x s.book = (o, book)) : onBook x s = (o, { s with book := book }) := by
  simp only [onBook, Proc.zoom, h]

theorem withLocals_run {x : InsertionProc α} {book : OrderBook} {o : Outcome StdException α}
    {s : Insertion} (h : x { book := book } = (o, s)) : withLocals x book = (o, s.book) := by
  simp only [withLocals, Proc.zoom, h]

section Insertions

variable (hash : OrderId → UInt64) (host : Host)

/-- The body of the `try` block. -/
def attempt (order : OrderPtr) : InsertionProc Unit := do
  let s ← Proc.get
  if !(s.book.memory order).isValid then
    throw (.invalidArgument "Cannot add an invalid order")
  let ladder := (s.book.memory order).isBuy
  Proc.modify fun s => { s with ladder := ladder }
  let level ← Proc.check ((s.book.ladder ladder).levelAt (s.book.memory order).price)
  Proc.modify fun s => { s with level := some level }
  let wasEmpty := (s.book.level level).isEmpty
  onBook (onLevel level (PriceLevels.addOrder level order))
  Proc.modify fun s => { s with addedToLevel := true }
  if wasEmpty then
    onBook (onLadder ladder (markOccupied (s.book.memory order).price))
  onBook (onIndex (OrderIndexing.addOrder hash host.slots order (s.book.memory order).orderId))

/-- The body of the `catch` block, which rethrows. -/
def rollback (order : OrderPtr) (e : StdException) : InsertionProc Unit := do
  let s ← Proc.get
  if s.addedToLevel then
    let level ← deref s.level
    onBook (onLevel level (PriceLevels.removeOrder level order))
    let s ← Proc.get
    if (s.book.level level).isEmpty then
      onBook (onLadder s.ladder (markEmpty (s.book.memory order).price))
  onBook (onPool (release order))
  throw e

def addOrderWithQuantities (orderId : OrderId) (price : Price)
    (originalQuantity remainingQuantity : Quantity) (timestamp : Timestamp)
    (orderSide : OrderSide) (orderType : Orders.OrderType) (sequenceNumber : SequenceNumber) :
    BookProc OrderPtr := do
  if orderType ≠ .limit then
    throw (.invalidArgument "OrderBook accepts resting limit orders only")
  if !Quantity.isValid originalQuantity || !Quantity.isValid remainingQuantity ||
      remainingQuantity > originalQuantity then
    throw (.invalidArgument "Invalid original or remaining quantity")
  let order ← onPool (allocate host orderId price originalQuantity remainingQuantity timestamp
    orderSide orderType sequenceNumber)
  withLocals (tryCatch (attempt hash host order) (rollback order))
  return order

def addOrder (orderId : OrderId) (price : Price) (quantity : Quantity) (timestamp : Timestamp)
    (orderSide : OrderSide) (orderType : Orders.OrderType) (sequenceNumber : SequenceNumber) :
    BookProc OrderPtr :=
  addOrderWithQuantities hash host orderId price quantity quantity timestamp orderSide orderType
    sequenceNumber

def addRestingRemainder (orderId : OrderId) (price : Price)
    (originalQuantity remainingQuantity : Quantity) (timestamp : Timestamp)
    (orderSide : OrderSide) (orderType : Orders.OrderType) (sequenceNumber : SequenceNumber) :
    BookProc OrderPtr :=
  addOrderWithQuantities hash host orderId price originalQuantity remainingQuantity timestamp
    orderSide orderType sequenceNumber

end Insertions

section Removals

variable (hash : OrderId → UInt64)

def findOrder (orderId : OrderId) : BookProc OrderPtr :=
  onIndex (OrderIndexing.findOrder hash orderId)

def removeOrder (order : OrderPtr) : BookProc Unit := do
  if order = nullptr then
    throw (.invalidArgument "Cannot remove a null order")
  let book ← Proc.get
  let found ← onIndex (OrderIndexing.findOrder hash (book.memory order).orderId)
  if found ≠ order then
    throw (.logicError "Order is not indexed in this book")
  let level ← Proc.check (match (book.memory order).priceLevel with
    | none => .error (.logicError "Order is not linked to a price level")
    | some level => .ok level)
  let ladder := (book.memory order).isBuy
  let price := (book.memory order).price
  onLevel level (PriceLevels.removeOrder level order)
  let book ← Proc.get
  if (book.level level).isEmpty then
    onLadder ladder (markEmpty price)
  onIndex (OrderIndexing.removeOrder hash order (book.memory order).orderId)
  onPool (release order)

def cancelOrder (orderId : OrderId) : BookProc Bool := do
  let order ← onIndex (OrderIndexing.findOrder hash orderId)
  if order = nullptr then
    return false
  removeOrder hash order
  return true

def reduceOrder (orderId : OrderId) (newQuantity : Quantity) : BookProc Bool := do
  let order ← onIndex (OrderIndexing.findOrder hash orderId)
  if order = nullptr then
    return false
  let book ← Proc.get
  let remaining := (book.memory order).remainingQuantity
  if newQuantity = 0 ∨ newQuantity > remaining then
    throw (.invalidArgument
      "Reduction requires a nonzero quantity no greater than the remaining quantity")
  if newQuantity = remaining then
    return true
  onOrder order (Order.setRemainingQuantity newQuantity)
  let level ← deref (book.memory order).priceLevel
  onLevel level (reduceTotalQuantity (remaining - newQuantity))
  return true

def reserveOrderCapacity (host : Host) (orderCount : UInt64) : BookProc Unit := do
  onPool (OrderPools.reserve host orderCount)
  onIndex (OrderIndexing.reserve hash host.slots orderCount)

end Removals

structure BookSnapshotLevel where
  priceRaw : UInt64
  quantity : UInt64
  orderCount : UInt64
deriving DecidableEq

/-- `sequence` and `tsNs` are the caller's and are not written by a capture. -/
structure BookSnapshot where
  sequence : UInt64 := 0
  tsNs : UInt64 := 0
  bestBidRaw : UInt64 := 0
  bestAskRaw : UInt64 := 0
  bids : List BookSnapshotLevel := []
  asks : List BookSnapshotLevel := []
  bidLevelCount : UInt64 := 0
  askLevelCount : UInt64 := 0
deriving DecidableEq

/-- What the capture records of one level. -/
def snapshotLevel (book : OrderBook) (level : LevelPtr) : BookSnapshotLevel where
  priceRaw := (book.level level).price
  quantity := (book.level level).totalQuantity
  orderCount := (book.level level).count

def captureSnapshot (book : OrderBook) (out : BookSnapshot) (depth : UInt64) : BookSnapshot :=
  let bids := (book.bids.forEachOccupied depth).map (snapshotLevel book)
  let asks := (book.asks.forEachOccupied depth).map (snapshotLevel book)
  { out with
    bids, asks
    bestBidRaw := (bids.head?.map BookSnapshotLevel.priceRaw).getD 0
    bestAskRaw := (asks.head?.map BookSnapshotLevel.priceRaw).getD 0
    bidLevelCount := book.bids.occupied
    askLevelCount := book.asks.occupied }

end Leka.OrderBooks
