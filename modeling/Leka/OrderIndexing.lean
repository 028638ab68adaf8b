import Leka.Orders

/-!
The open-addressed index from order ids to orders. The hash function and the allocator
are parameters: `hash` is any function on ids, and `alloc` answers each request for a
vector of slots. A `while` loop that would go round the table for ever is a diverging
call, so that termination is a statement about the table and not about the encoding.
-/

namespace Leka.OrderIndexing

open Procedures Orders

/-- One slot; a null value means empty. -/
structure Slot where
  key : OrderId := 0
  value : OrderPtr := nullptr
deriving DecidableEq

abbrev Slots := Array Slot

structure OrderIndex where
  slots : Slots := #[]
  count : UInt64 := 0

/-- `static_cast<std::size_t>(-1)`. -/
def npos : UInt64 := 18446744073709551615

def InitialCapacity : UInt64 := 16

/-- `std::vector<Slot>::max_size()` for slots of 16 bytes. -/
def maxSlots : ℕ := 2 ^ 59 - 1

/-- `static_cast<double>`: the nearest double to an integer, ties to even. Doubles at or
above one are represented by their exact integer values. -/
def toDouble (n : UInt64) : ℕ :=
  if n.toNat < 2 ^ 53 then n.toNat
  else
    let e := n.toNat.log2 - 52
    let q := n.toNat / 2 ^ e
    let r := n.toNat % 2 ^ e
    (if 2 ^ (e - 1) < r ∨ (r = 2 ^ (e - 1) ∧ q % 2 = 1) then q + 1 else q) * 2 ^ e

/-- `entries > capacity * MaxLoadFactor` in double arithmetic; the load factor is one half,
so the product is exact and the comparison can be doubled. -/
def overLoaded (entries capacity : UInt64) : Bool := toDouble capacity < 2 * toDouble entries

def slotAt (slots : Slots) (index : UInt64) : Slot := slots.getD index.toNat {}

def size (slots : Slots) : UInt64 := UInt64.ofNat slots.size

def nextIndex (slots : Slots) (index : UInt64) : UInt64 := (index + 1) &&& (size slots - 1)

def inCyclicRange (k i j : UInt64) : Bool :=
  if i ≤ j then i < k && k ≤ j else k > i || k ≤ j

section Hash

variable (hash : OrderId → UInt64)

def indexFor (id : OrderId) (capacity : UInt64) : UInt64 := hash id &&& (capacity - 1)

/-- `while (slots[index].value != nullptr) { if (leave) break; index = next; }`, the probe
shared by lookup, insertion and rehashing. `none` when every slot has been visited. -/
def probe (slots : Slots) (leave : Slot → Bool) : ℕ → UInt64 → Option UInt64
  | 0, _ => none
  | fuel + 1, index =>
    if (slotAt slots index).value = nullptr then some index
    else if leave (slotAt slots index) then some index
    else probe slots leave fuel (nextIndex slots index)

def findSlot (id : OrderId) (index : OrderIndex) : Option UInt64 :=
  if index.slots.isEmpty then some npos
  else probe index.slots (fun slot => slot.key = id) index.slots.size
    (indexFor hash id (size index.slots))

/-- Performs a loop that may never end. -/
def whileLoop (result : Option α) : Proc StdException σ α :=
  match result with
  | some a => pure a
  | none => Proc.diverge

@[simp] theorem whileLoop_some (a : α) :
    (whileLoop (some a) : Proc StdException σ α) = pure a := rfl

@[simp] theorem whileLoop_none :
    (whileLoop none : Proc StdException σ α) = Proc.diverge := rfl

/-- A vector of `capacity` empty slots. -/
def newSlots (alloc : ℕ → Bool) (capacity : UInt64) : Proc StdException σ Slots :=
  if maxSlots < capacity.toNat then
    throw (.lengthError "cannot create std::vector larger than max_size()")
  else if !alloc capacity.toNat then throw .badAlloc
  else pure (Array.replicate capacity.toNat {})

/-- Copies the occupied slots into a larger table, in slot order. -/
def rehash (grown : Slots) : List Slot → Option Slots
  | [] => some grown
  | slot :: rest =>
    if slot.value = nullptr then rehash grown rest
    else
      match probe grown (fun _ => false) grown.size (indexFor hash slot.key (size grown)) with
      | none => none
      | some index => rehash (grown.setIfInBounds index.toNat slot) rest

/-- `while (orderCount > capacity * MaxLoadFactor) capacity *= 2`. The product wraps, and
a capacity of zero is never left, so 64 doublings decide whether the loop ends. -/
def doubleUntil (orderCount : UInt64) : ℕ → UInt64 → Option UInt64
  | 0, _ => none
  | fuel + 1, capacity =>
    if overLoaded orderCount capacity then doubleUntil orderCount fuel (capacity * 2)
    else some capacity

def reserve (alloc : ℕ → Bool) (orderCount : UInt64) : Proc StdException OrderIndex Unit := do
  let self ← Proc.get
  let capacity ← whileLoop (doubleUntil orderCount 65
    (if self.slots.isEmpty then InitialCapacity else size self.slots))
  if !self.slots.isEmpty && capacity ≤ size self.slots then
    return ()
  let grown ← newSlots alloc capacity
  let grown ← whileLoop (rehash hash grown self.slots.toList)
  Proc.modify fun self => { self with slots := grown }

def growIfNeeded (alloc : ℕ → Bool) : Proc StdException OrderIndex Unit := do
  let self ← Proc.get
  if self.slots.isEmpty then
    let slots ← newSlots alloc InitialCapacity
    Proc.modify fun self => { self with slots := slots }
  else if !overLoaded (self.count + 1) (size self.slots) then
    return ()
  else
    let grown ← newSlots alloc (size self.slots * 2)
    let grown ← whileLoop (rehash hash grown self.slots.toList)
    Proc.modify fun self => { self with slots := grown }

/-- `key` is `order->getOrderId()`, which is read only when `order` is not null. -/
def addOrder (alloc : ℕ → Bool) (order : OrderPtr) (key : OrderId) :
    Proc StdException OrderIndex Unit := do
  if order = nullptr then
    throw (.invalidArgument "Cannot add a null order")
  growIfNeeded hash alloc
  let self ← Proc.get
  let index ← whileLoop (probe self.slots (fun slot => slot.key = key) self.slots.size
    (indexFor hash key (size self.slots)))
  if (slotAt self.slots index).value ≠ nullptr then
    throw (.logicError "Order with the same OrderId already exists in the index")
  Proc.modify fun self =>
    { slots := self.slots.setIfInBounds index.toNat ⟨key, order⟩, count := self.count + 1 }

/-- The backward-shift loop of a removal. -/
def shiftBack : ℕ → UInt64 → UInt64 → Slots → Option Slots
  | 0, _, _, _ => none
  | fuel + 1, vacated, scan, slots =>
    if (slotAt slots scan).value = nullptr then some slots
    else
      let natural := indexFor hash (slotAt slots scan).key (size slots)
      if !inCyclicRange natural vacated scan then
        shiftBack fuel scan (nextIndex slots scan)
          ((slots.setIfInBounds vacated.toNat (slotAt slots scan)).setIfInBounds scan.toNat {})
      else shiftBack fuel vacated (nextIndex slots scan) slots

def removeOrder (order : OrderPtr) (key : OrderId) : Proc StdException OrderIndex Unit := do
  if order = nullptr then
    throw (.invalidArgument "Cannot remove a null order")
  let self ← Proc.get
  let hole ← whileLoop (findSlot hash key self)
  if hole = npos ∨ (slotAt self.slots hole).value = nullptr then
    throw (.logicError "Order not found in the index")
  if (slotAt self.slots hole).value ≠ order then
    throw (.logicError "Order pointer does not match indexed order")
  let cleared := self.slots.setIfInBounds hole.toNat {}
  let slots ← whileLoop (shiftBack hash cleared.size hole (nextIndex cleared hole) cleared)
  Proc.modify fun self => { slots := slots, count := self.count - 1 }

def findOrder (id : OrderId) : Proc StdException OrderIndex OrderPtr := do
  let self ← Proc.get
  let index ← whileLoop (findSlot hash id self)
  if index = npos then
    return nullptr
  return (slotAt self.slots index).value

end Hash

end Leka.OrderIndexing
