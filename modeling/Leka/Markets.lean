import Leka.ReplayedEvents

/-!
The market that the engine keeps, as its users know it: the price-time matcher with the prices
that may be quoted, the quantity that is shown at a price, and every objection to an event. An
order that cannot rest is refused behind its trades, and the market keeps these. What is shown
at a price can be more than what rests there, by the surplus that traded orders have left.
-/

namespace Leka.Markets

open Orders ReferenceMatchers ReplayedEvents

/-- The prices of a side. -/
structure Grid where
  minPrice : ℕ
  maxPrice : ℕ
  tickSize : ℕ
deriving DecidableEq

def Grid.check (grid : Grid) (price : ℕ) : Except StdException Unit :=
  if grid.maxPrice < price ∨ price < grid.minPrice then
    .error (.outOfRange "Price is outside the configured ladder range")
  else if (price - grid.minPrice) % grid.tickSize ≠ 0 then
    .error (.invalidArgument "Price does not fall on a configured tick boundary")
  else .ok ()

/-- A market. `surplus` is what is shown at a price of a side beyond what rests there. -/
structure Market where
  book : Book
  grid : Bool → Grid
  surplus : Bool → ℕ → ℕ

/-- What is said to an event, and what is left behind. -/
structure Answer where
  error : Option StdException := none
  trades : List Trade := []
  market : Market

def quantityAt (price : ℕ) (orders : List Resting) : ℕ :=
  ((orders.filter fun order => order.price = price).map Resting.remainingQuantity).sum

namespace Market

variable (market : Market)

/-- The quantity that is shown at a price. -/
def shown (isBid : Bool) (price : ℕ) : ℕ :=
  market.surplus isBid price + quantityAt price (market.book.side isBid)

def resting : List Resting := market.book.bids ++ market.book.asks

/-- The checks in front of a NEW event. -/
def checkOrder (order : NewOrder) : Except StdException Unit :=
  match MatchingEngines.validate order with
  | .error e => .error e
  | .ok () =>
    if ∃ other ∈ market.resting, other.orderId = order.orderId then
      .error (.logicError "Order with the same OrderId already exists")
    else if market.book.lastSequence = 2 ^ 64 - 1 then
      .error (.overflowError "Sequence number space exhausted")
    else .ok ()

/-- The market after the trades of an order. A used up order leaves its quantity in what is shown
at its price. -/
def traded (order : NewOrder) : Market :=
  let filled := fill order order.quantity.toNat (market.book.side !isBid order)
  { market with
    book := { market.book.setSide (!isBid order) filled.rest with
      lastSequence := market.book.lastSequence + 1 }
    surplus := fun d price => market.surplus d price +
      if d = !isBid order then usedUp price filled.fills else 0 }

/-- Whether `left` of the order can rest. -/
def placeable (order : NewOrder) (left : ℕ) : Except StdException Unit :=
  match (market.grid (isBid order)).check order.price.toNat with
  | .error e => .error e
  | .ok () =>
    if 2 ^ 64 - 1 < market.shown (isBid order) order.price.toNat + left then
      .error (.overflowError "Price level quantity overflow")
    else .ok ()

def placed (order : NewOrder) (left : ℕ) : Market :=
  { market with
    book := market.book.setSide (isBid order) (enqueue (isBid order)
      (remainder order market.book.lastSequence left) (market.book.side (isBid order))) }

def submit (order : NewOrder) : Answer :=
  match market.checkOrder order with
  | .error e => { error := some e, market }
  | .ok () =>
    let filled := fill order order.quantity.toNat (market.book.side !isBid order)
    let trades := filled.fills.map (tradeWith order)
    let traded := market.traded order
    if order.orderType = .limit ∧ filled.left ≠ 0 then
      match traded.placeable order filled.left with
      | .error e => { error := some e, trades, market := traded }
      | .ok () => { trades, market := traded.placed order filled.left }
    else { trades, market := traded }

def cancel (order : CancelOrder) : Answer :=
  if order.orderId = 0 then
    { error := some (.invalidArgument "Invalid cancel order ID"), market }
  else { market := { market with book := ReferenceMatchers.cancel order.orderId market.book } }

def reduce (reduction : ReduceOrder) : Answer :=
  if reduction.orderId = 0 then
    { error := some (.invalidArgument "Invalid reduce order ID"), market }
  else if ∃ order ∈ market.resting, order.orderId = reduction.orderId ∧
      (reduction.newQuantity = 0 ∨ order.remainingQuantity < reduction.newQuantity.toNat) then
    { error := some (.invalidArgument
        "Reduction requires a nonzero quantity no greater than the remaining quantity")
      market }
  else { market := { market with
    book := ReferenceMatchers.reduce reduction.orderId reduction.newQuantity.toNat market.book } }

def answer : OrderEvent → Answer
  | .new order => market.submit order
  | .cancel order => market.cancel order
  | .reduce reduction => market.reduce reduction

end Market

/-- The answers to events, one after the other. -/
def answers : List OrderEvent → Market → List Answer
  | [], _ => []
  | event :: events, market => market.answer event :: answers events (market.answer event).market

end Leka.Markets
