import Leka.Procedures
import Mathlib.Algebra.Order.Ring.Nat
import Mathlib.Data.Fintype.Card
import Mathlib.Tactic.Common

/-!
Orders, events and executions as the source declares them. Every integer member is a
64-bit unsigned integer and wraps; a pointer is a 64-bit address with zero for null.
The two enumeration types of the source can hold values outside their enumerators, and
the model keeps those values because the validity checks look for them.
-/

namespace Leka.Orders

open Procedures

abbrev OrderId := UInt64
abbrev Price := UInt64
abbrev Quantity := UInt64
abbrev Timestamp := UInt64
abbrev SequenceNumber := UInt64

/-- The address of an `Order`. -/
abbrev OrderPtr := UInt64

def nullptr : OrderPtr := 0

/-- `std::numeric_limits<std::uint64_t>::max()`. -/
def uint64Max : UInt64 := 18446744073709551615

def OrderId.isValid (id : OrderId) : Bool := id != 0
def Price.isValid (price : Price) : Bool := price != 0
def Quantity.isValid (quantity : Quantity) : Bool := quantity != 0
def Timestamp.isValid (timestamp : Timestamp) : Bool := timestamp != 0
def SequenceNumber.isValid (sequenceNumber : SequenceNumber) : Bool := sequenceNumber != 0

/-- The exceptions of the standard library that the source throws or lets through. -/
inductive StdException where
  | invalidArgument (what : String)
  | logicError (what : String)
  | outOfRange (what : String)
  | overflowError (what : String)
  | lengthError (what : String)
  | runtimeError (what : String)
  | systemError (what : String)
  | badAlloc
deriving DecidableEq

inductive OrderSide where
  | buy
  | sell
  | other (raw : Int32)
deriving DecidableEq

inductive OrderType where
  | limit
  | market
  | other (raw : Int32)
deriving DecidableEq

/-- The address of a `PriceLevel`: a slot of the bid ladder or of the ask ladder. -/
structure LevelPtr where
  descending : Bool
  index : ℕ
deriving DecidableEq

structure Order where
  orderId : OrderId
  price : Price
  originalQuantity : Quantity
  remainingQuantity : Quantity
  timestamp : Timestamp
  orderSide : OrderSide
  orderType : OrderType
  sequenceNumber : SequenceNumber
  nextOrder : OrderPtr := nullptr
  previousOrder : OrderPtr := nullptr
  priceLevel : Option LevelPtr := none
deriving DecidableEq

/-- The contents of the addresses that can hold an `Order`. -/
abbrev Memory := OrderPtr → Order

namespace Order

def isBuy (order : Order) : Bool := order.orderSide = .buy
def isSell (order : Order) : Bool := order.orderSide = .sell
def isLimit (order : Order) : Bool := order.orderType = .limit
def isMarket (order : Order) : Bool := order.orderType = .market

def isFullyFilled (order : Order) : Bool := order.remainingQuantity == 0

def isValid (order : Order) : Bool :=
  let validSide := order.isBuy || order.isSell
  let validType := order.isLimit || order.isMarket
  let validPrice := order.isMarket || Price.isValid order.price
  OrderId.isValid order.orderId && Quantity.isValid order.originalQuantity &&
    order.remainingQuantity ≤ order.originalQuantity && Timestamp.isValid order.timestamp &&
    SequenceNumber.isValid order.sequenceNumber && validSide && validType && validPrice

def reduceRemainingQuantity (quantity : Quantity) : Proc StdException Order Unit := do
  let order ← Proc.get
  if quantity > order.remainingQuantity then
    throw (.invalidArgument "Cannot reduce order quantity below zero")
  Proc.modify fun order =>
    { order with remainingQuantity := order.remainingQuantity - quantity }

def setRemainingQuantity (quantity : Quantity) : Proc StdException Order Unit := do
  let order ← Proc.get
  if !Quantity.isValid quantity then
    throw (.invalidArgument "Modified quantity must be valid")
  if quantity > order.originalQuantity then
    throw (.invalidArgument "Modified quantity exceeds original quantity")
  Proc.modify fun order => { order with remainingQuantity := quantity }

end Order

/-- The order without its place in a level. -/
def Order.detached (order : Order) : Order :=
  { order with nextOrder := nullptr, previousOrder := nullptr, priceLevel := none }

/-- There are fewer nonnull addresses than 64-bit integers. -/
theorem length_lt_of_nodup {xs : List OrderPtr} (hnd : xs.Nodup) (hnull : nullptr ∉ xs) :
    xs.length < 2 ^ 64 := by
  have hmap : ((nullptr :: xs).map UInt64.toFin).Nodup := by
    apply List.Nodup.map
    · intro a b hab
      exact UInt64.toFin_inj.mp hab
    · exact List.nodup_cons.mpr ⟨hnull, hnd⟩
  have hle := hmap.length_le_card
  simp only [List.length_map, List.length_cons, Fintype.card_fin] at hle
  have hsize : UInt64.size = 2 ^ 64 := rfl
  omega

structure NewOrder where
  orderId : OrderId
  price : Price
  quantity : Quantity
  timestamp : Timestamp
  orderSide : OrderSide
  orderType : OrderType
deriving DecidableEq

structure CancelOrder where
  orderId : OrderId
deriving DecidableEq

structure ReduceOrder where
  orderId : OrderId
  newQuantity : Quantity
deriving DecidableEq

/-- The payload variant; its constructor is the event type. -/
inductive OrderEvent where
  | new (order : NewOrder)
  | cancel (order : CancelOrder)
  | reduce (order : ReduceOrder)
deriving DecidableEq

structure Execution where
  incomingOrderId : OrderId
  restingOrderId : OrderId
  executionPrice : Price
  executionQuantity : Quantity
deriving DecidableEq

end Leka.Orders
