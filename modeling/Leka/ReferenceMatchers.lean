import Leka.Buckets
import Leka.Orders
import Leka.Sweeps

/-!
The plain price-time matcher that the engine is for. A book is two lists of resting orders,
best price first and first in first at one price, and quantities are natural numbers. An
incoming order is filled from the front of the opposite list; what is left of a limit order
goes behind the orders at its price.
-/

namespace Leka.ReferenceMatchers

open Orders Buckets Sweeps

structure Resting where
  orderId : OrderId
  price : ℕ
  originalQuantity : ℕ
  remainingQuantity : ℕ
  timestamp : Timestamp
  sequenceNumber : ℕ
deriving DecidableEq

structure Trade where
  incomingOrderId : OrderId
  restingOrderId : OrderId
  price : ℕ
  quantity : ℕ
deriving DecidableEq

/-- `lastSequence` is the last sequence number given out. -/
structure Book where
  bids : List Resting
  asks : List Resting
  lastSequence : ℕ
deriving DecidableEq

def Resting.withRemaining (order : Resting) (quantity : ℕ) : Resting :=
  { order with remainingQuantity := quantity }

def Book.side (book : Book) (isBid : Bool) : List Resting :=
  if isBid then book.bids else book.asks

def Book.setSide (book : Book) (isBid : Bool) (orders : List Resting) : Book :=
  if isBid then { book with bids := orders } else { book with asks := orders }

/-- The price `a` is at least as good as `b` on the side: bids prefer high prices. -/
def noWorse (isBid : Bool) (a b : ℕ) : Bool := if isBid then decide (b ≤ a) else decide (a ≤ b)

def isBid (order : NewOrder) : Bool := order.orderSide = .buy

/-- The limit of the incoming order allows a trade against the resting order. -/
def allows (order : NewOrder) (resting : Resting) : Bool :=
  order.orderType = .market || noWorse (isBid order) order.price.toNat resting.price

/-- What `demand` of the incoming order takes from the opposite side. -/
def fill (order : NewOrder) (demand : ℕ) (opposite : List Resting) : Swept Resting :=
  sweep Resting.remainingQuantity Resting.withRemaining (allows order) demand opposite

def tradeWith (order : NewOrder) (taken : Resting × ℕ) : Trade where
  incomingOrderId := order.orderId
  restingOrderId := taken.1.orderId
  price := taken.1.price
  quantity := taken.2

/-- The order that rests when `left` of the submitted quantity is left over. -/
def remainder (order : NewOrder) (sequenceNumber left : ℕ) : Resting where
  orderId := order.orderId
  price := order.price.toNat
  originalQuantity := order.quantity.toNat
  remainingQuantity := left
  timestamp := order.timestamp
  sequenceNumber := sequenceNumber

/-- `resting` goes behind every order of the list that is at least as good. -/
def enqueue (isBid : Bool) (resting : Resting) (orders : List Resting) : List Resting :=
  insertBehind (fun other => noWorse isBid other.price resting.price) resting orders

def submit (order : NewOrder) (book : Book) : List Trade × Book :=
  let filled := fill order order.quantity.toNat (book.side !isBid order)
  let sequence := book.lastSequence + 1
  let matched := { book.setSide (!isBid order) filled.rest with lastSequence := sequence }
  let after :=
    if order.orderType = .limit ∧ filled.left ≠ 0 then
      matched.setSide (isBid order) (enqueue (isBid order)
        (remainder order sequence filled.left) (matched.side (isBid order)))
    else matched
  (filled.fills.map (tradeWith order), after)

def cancel (id : OrderId) (book : Book) : Book :=
  { book with
    bids := book.bids.filter fun order => order.orderId ≠ id
    asks := book.asks.filter fun order => order.orderId ≠ id }

/-- The order with the id keeps its place. -/
def resizeId (id : OrderId) (quantity : ℕ) (order : Resting) : Resting :=
  if order.orderId = id then order.withRemaining quantity else order

def reduce (id : OrderId) (quantity : ℕ) (book : Book) : Book :=
  { book with
    bids := book.bids.map (resizeId id quantity)
    asks := book.asks.map (resizeId id quantity) }

/-- The trades of an event and the book after it. -/
def respond (event : OrderEvent) (book : Book) : List Trade × Book :=
  match event with
  | .new order => submit order book
  | .cancel order => ([], cancel order.orderId book)
  | .reduce reduction => ([], reduce reduction.orderId reduction.newQuantity.toNat book)

section Sides

variable (book : Book) (orders : List Resting) (isBid : Bool)

@[simp] theorem side_setSide_self : (book.setSide isBid orders).side isBid = orders := by
  cases isBid <;> rfl

@[simp] theorem side_setSide_not :
    (book.setSide (!isBid) orders).side isBid = book.side isBid := by
  cases isBid <;> rfl

@[simp] theorem lastSequence_setSide :
    (book.setSide isBid orders).lastSequence = book.lastSequence := by
  cases isBid <;> rfl

/-- A book is its two sides and its counter. -/
theorem Book.ext_sides {book book' : Book} (hside : ∀ d, book.side d = book'.side d)
    (hlast : book.lastSequence = book'.lastSequence) : book = book' := by
  have hbids := hside true
  have hasks := hside false
  cases book
  cases book'
  simp_all [Book.side]

end Sides

theorem enqueue_perm (isBid : Bool) (resting : Resting) (orders : List Resting) :
    (enqueue isBid resting orders).Perm (resting :: orders) := by
  rw [enqueue, insertBehind]
  refine List.perm_middle.trans ?_
  rw [List.takeWhile_append_dropWhile]

section Prices

variable {d : Bool} {a b c : ℕ}

@[simp] theorem noWorse_bid : noWorse true a b = true ↔ b ≤ a := by
  rw [noWorse, if_pos rfl, decide_eq_true_eq]

@[simp] theorem noWorse_ask : noWorse false a b = true ↔ a ≤ b := by
  rw [noWorse, if_neg Bool.false_ne_true, decide_eq_true_eq]

theorem noWorse_refl (d : Bool) (a : ℕ) : noWorse d a a = true := by
  cases d <;> simp

theorem noWorse_trans (hab : noWorse d a b = true) (hbc : noWorse d b c = true) :
    noWorse d a c = true := by
  cases d <;> simp only [noWorse_ask, noWorse_bid] at hab hbc ⊢ <;> omega

theorem noWorse_total (d : Bool) (a b : ℕ) : noWorse d a b = true ∨ noWorse d b a = true := by
  cases d <;> simp only [noWorse_ask, noWorse_bid] <;> omega

end Prices

end Leka.ReferenceMatchers
