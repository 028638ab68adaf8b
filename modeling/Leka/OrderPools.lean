import Leka.LinkedChain
import Leka.Orders
import Mathlib.Data.List.Range

/-!
The paged pool that stores the orders. A page is identified with its position in the
vector of pages, and a slot with its address. The free slots of a page form a chain
through `nextFree`, the pages with a free slot form a doubly linked list, and the live
slots are exactly the occupied ones.
-/

namespace Leka.OrderPools

open Procedures Orders LinkedChain

def PageSize : UInt64 := 65536

/-- `sizeof(Order)`. -/
def orderSize : UInt64 := 80

def SlotsPerPage : ℕ := 819

/-- The start of a fresh anonymous mapping of two pages: nonnull, and inside the address
space. -/
structure Mapping where
  address : UInt64
  ne_zero : address ≠ 0
  fits : address.toNat + 2 * PageSize.toNat ≤ 2 ^ 64

/-- What the operating system and the allocator answer during one call. `mmap` and `heap`
are asked with the number of pages there are, `slots` with the length of a slot vector and
`buffer` with the number of executions in the output vector. -/
structure Host where
  systemPageSize : Int64
  mmap : ℕ → Option Mapping
  heap : ℕ → Bool
  slots : ℕ → Bool
  buffer : ℕ → Bool

/-- A `Page*` is a position in the vector of pages. -/
structure Page where
  storage : UInt64
  nextFree : ℕ → UInt16
  occupied : ℕ → Bool
  firstFree : UInt16
  freeCount : UInt64
  previousFreePage : Option ℕ
  nextFreePage : Option ℕ
  onFreePageList : Bool

namespace Page

/-- The constructor, once `mmap` has answered. -/
def make (mapping : Mapping) : Page where
  storage := (mapping.address + PageSize - 1) &&& ~~~(PageSize - 1)
  nextFree := fun index =>
    if index + 1 < SlotsPerPage then UInt16.ofNat (index + 1) else UInt16.ofNat SlotsPerPage
  occupied := fun _ => false
  firstFree := 0
  freeCount := UInt64.ofNat SlotsPerPage
  previousFreePage := none
  nextFreePage := none
  onFreePageList := false

def slot (page : Page) (index : ℕ) : OrderPtr := page.storage + UInt64.ofNat index * orderSize

/-- The page without its place in the list of pages with a free slot. -/
def detached (page : Page) : Page :=
  { page with previousFreePage := none, nextFreePage := none, onFreePageList := false }

/-- Slot `index` leaves the chain of free slots, of which it is the first. -/
def takeSlot (index : ℕ) (page : Page) : Page := { page with
  firstFree := page.nextFree index
  freeCount := page.freeCount - 1
  occupied := Function.update page.occupied index true }

/-- Slot `index` becomes the first of the chain; the counter is written later. -/
def giveSlot (index : ℕ) (page : Page) : Page := { page with
  occupied := Function.update page.occupied index false
  nextFree := Function.update page.nextFree index page.firstFree
  firstFree := UInt16.ofNat index }

end Page

structure OrderPool where
  pages : Array Page := #[]
  pageIndex : UInt64 → Option ℕ := fun _ => none
  firstPageWithFreeSlot : Option ℕ := none
  liveOrderCount : UInt64 := 0

namespace OrderPool

def page (pool : OrderPool) (k : ℕ) : Page :=
  pool.pages.getD k {
    storage := 0, nextFree := fun _ => 0, occupied := fun _ => false, firstFree := 0
    freeCount := 0, previousFreePage := none, nextFreePage := none, onFreePageList := false }

def updatePage (k : ℕ) (f : Page → Page) (pool : OrderPool) : OrderPool :=
  { pool with pages := pool.pages.modify k f }

end OrderPool

structure PoolState where
  pool : OrderPool
  memory : Memory

abbrev PoolProc := Proc StdException PoolState

def updatePool (f : OrderPool → OrderPool) : PoolProc Unit :=
  Proc.modify fun s => { s with pool := f s.pool }

def addToFreePageList (page : ℕ) : PoolProc Unit := do
  let s ← Proc.get
  if (s.pool.page page).onFreePageList then
    return ()
  updatePool (OrderPool.updatePage page fun p =>
    { p with previousFreePage := none, nextFreePage := s.pool.firstPageWithFreeSlot })
  if let some first := s.pool.firstPageWithFreeSlot then
    updatePool (OrderPool.updatePage first fun p => { p with previousFreePage := some page })
  updatePool fun pool => { pool with firstPageWithFreeSlot := some page }
  updatePool (OrderPool.updatePage page fun p => { p with onFreePageList := true })

def removeFromFreePageList (page : ℕ) : PoolProc Unit := do
  let s ← Proc.get
  if !(s.pool.page page).onFreePageList then
    return ()
  let previousFreePage := (s.pool.page page).previousFreePage
  let nextFreePage := (s.pool.page page).nextFreePage
  match previousFreePage with
  | some previous =>
    updatePool (OrderPool.updatePage previous fun p => { p with nextFreePage := nextFreePage })
  | none => updatePool fun pool => { pool with firstPageWithFreeSlot := nextFreePage }
  if let some next := nextFreePage then
    updatePool (OrderPool.updatePage next fun p => { p with previousFreePage := previousFreePage })
  updatePool (OrderPool.updatePage page Page.detached)

/-- `std::make_unique<Page>()`, with the heap answering for the page and for its entries in
the vector and the map at once: each of the three failures leaves the pool as it was. -/
def newPage (host : Host) (count : ℕ) : Except StdException Page :=
  if !host.heap count then .error .badAlloc
  else if host.systemPageSize ≤ 0 ∨ PageSize % host.systemPageSize.toUInt64 ≠ 0 then
    .error (.runtimeError "OrderPool page size is incompatible with the system page size")
  else
    match host.mmap count with
    | none => .error (.systemError "mmap failed")
    | some mapping => .ok (Page.make mapping)

/-- A page that cannot be registered is dropped from the vector again. -/
def createPage (host : Host) : PoolProc ℕ := do
  let s ← Proc.get
  let pagePointer := s.pool.pages.size
  let page ← Proc.check (newPage host pagePointer)
  updatePool fun pool => { pool with pages := pool.pages.push page }
  if (s.pool.pageIndex page.storage).isSome then
    updatePool fun pool => { pool with pages := pool.pages.pop }
    throw (.logicError "Duplicate OrderPool page address")
  updatePool fun pool =>
    { pool with pageIndex := Function.update pool.pageIndex page.storage (some pagePointer) }
  addToFreePageList pagePointer
  return pagePointer

section Allocation

variable (host : Host) (orderId : OrderId) (price : Price)
  (originalQuantity remainingQuantity : Quantity) (timestamp : Timestamp) (orderSide : OrderSide)
  (orderType : Orders.OrderType) (sequenceNumber : SequenceNumber)

/-- The part of `allocate` after the page is known. -/
def allocateIn (page : ℕ) : PoolProc OrderPtr := do
  let s ← Proc.get
  let index := (s.pool.page page).firstFree.toNat
  let order := (s.pool.page page).slot index
  Proc.modify fun s => { s with memory := Function.update s.memory order {
    orderId, price, originalQuantity, remainingQuantity, timestamp, orderSide, orderType,
    sequenceNumber } }
  updatePool (OrderPool.updatePage page (Page.takeSlot index))
  let s ← Proc.get
  if (s.pool.page page).freeCount = 0 then
    removeFromFreePageList page
  updatePool fun pool => { pool with liveOrderCount := pool.liveOrderCount + 1 }
  return order

def allocate : PoolProc OrderPtr := do
  let s ← Proc.get
  match s.pool.firstPageWithFreeSlot with
  | some page =>
    allocateIn orderId price originalQuantity remainingQuantity timestamp orderSide orderType
      sequenceNumber page
  | none =>
    let page ← createPage host
    allocateIn orderId price originalQuantity remainingQuantity timestamp orderSide orderType
      sequenceNumber page

end Allocation

def createPages (host : Host) : ℕ → PoolProc Unit
  | 0 => pure ()
  | n + 1 => do
    let _ ← createPage host
    createPages host n

/-- Every round of the loop adds a page, so the missing pages bound the rounds. The sum in
the source wraps for counts close to 2^64. -/
def reserve (host : Host) (orderCount : UInt64) : PoolProc Unit := do
  let neededPages := (orderCount + UInt64.ofNat SlotsPerPage - 1) / UInt64.ofNat SlotsPerPage
  let s ← Proc.get
  createPages host (neededPages.toNat - s.pool.pages.size)

def release (order : OrderPtr) : PoolProc Unit := do
  if order = nullptr then
    throw (.invalidArgument "Cannot release a null order")
  let pageBase := order &&& ~~~(PageSize - 1)
  let s ← Proc.get
  let page ← Proc.check (match s.pool.pageIndex pageBase with
    | none => .error (.invalidArgument "Order does not belong to this pool")
    | some page => .ok page)
  let offset := order - pageBase
  if offset % orderSize ≠ 0 then
    throw (.invalidArgument "Pointer is not an Order slot")
  let index := (offset / orderSize).toNat
  if index ≥ SlotsPerPage ∨ (s.pool.page page).occupied index = false then
    throw (.invalidArgument "Order slot is not allocated")
  updatePool (OrderPool.updatePage page (Page.giveSlot index))
  let s ← Proc.get
  if (s.pool.page page).freeCount = 0 then
    addToFreePageList page
  updatePool (OrderPool.updatePage page fun p => { p with freeCount := p.freeCount + 1 })
  updatePool fun pool => { pool with liveOrderCount := pool.liveOrderCount - 1 }

end Leka.OrderPools
