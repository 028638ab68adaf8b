import Leka.BookGrids
import Leka.BookViews

/-!
What callers see of a book, addresses apart: the orders of every level in their sequence,
the aggregates, the best levels, what a lookup finds and what a snapshot reports. Two books
with one grid, the same resting orders and the same excess in every level show the same.
-/

namespace Leka.Observations

open Procedures Orders PriceLevels PriceLadders WordBits OrderBooks Buckets SyncedBooks
  RestingOrders ReferenceMatchers EventOutcomes FailedInsertions BookViews BookGrids

structure LevelObservation where
  price : Price
  totalQuantity : Quantity
  count : UInt64
  orders : List Order

/-- The orders are without their links. -/
structure Observation where
  level : LevelPtr → LevelObservation
  best : Bool → Option LevelPtr
  found : OrderId → Option Order
  liveOrderCount : UInt64
  snapshot : BookSnapshot → UInt64 → BookSnapshot

def observeLevel (book : OrderBook) (l : LevelPtr) : LevelObservation where
  price := (book.level l).price
  totalQuantity := (book.level l).totalQuantity
  count := (book.level l).count
  orders := (fifo book l).map fun p => (book.memory p).detached

/-- The order that a lookup finds. -/
def observeFound (hash : OrderId → UInt64) (book : OrderBook) (id : OrderId) : Option Order :=
  match findOrder hash id book with
  | (.returns p, _) => if p = nullptr then none else some (book.memory p).detached
  | _ => none

def observe (hash : OrderId → UInt64) (book : OrderBook) : Observation where
  level := observeLevel book
  best d := (book.ladder d).best
  found := observeFound hash book
  liveOrderCount := book.orderPool.liveOrderCount
  snapshot := captureSnapshot book

/-- The books have one grid, and the same orders and excess in every level. -/
structure SameView (book book' : OrderBook) : Prop where
  grid : SameGrids book book'
  side : ∀ d, resting book' d = resting book d
  excess_eq : ∀ l, excess book' l = excess book l

section Lists

variable {α β γ δ : Type*}

/-- Lists with the same images under one reading have the same images under another that
depends on the first. -/
theorem map_eq_of_map_eq {f : α → γ} {g : β → γ} {f' : α → δ} {g' : β → δ} {xs : List α}
    {ys : List β} (h : xs.map f = ys.map g)
    (hdet : ∀ x ∈ xs, ∀ y ∈ ys, f x = g y → f' x = g' y) : xs.map f' = ys.map g' := by
  induction xs generalizing ys with
  | nil =>
    rw [List.map_nil, eq_comm, List.map_eq_nil_iff] at h
    rw [h, List.map_nil, List.map_nil]
  | cons x xs ih =>
    cases ys with
    | nil => simp at h
    | cons y ys =>
      obtain ⟨hhead, htail⟩ := List.cons.inj h
      rw [List.map_cons, List.map_cons, hdet x (List.mem_cons_self ..) y (List.mem_cons_self ..)
        hhead, ih htail fun a ha b hb => hdet a (List.mem_cons_of_mem _ ha) b
          (List.mem_cons_of_mem _ hb)]

end Lists

section Ladders

variable (ladder : PriceLadder) (levels : Array PriceLevel)

theorem scanWords_levels (n w : ℕ) :
    ({ ladder with levels := levels } : PriceLadder).scanWords n w = ladder.scanWords n w := by
  induction n generalizing w with
  | zero => rfl
  | succ n ih => simp only [PriceLadder.scanWords, ih]

theorem visit_levels (n : ℕ) (index : UInt64) :
    ({ ladder with levels := levels } : PriceLadder).visit n index = ladder.visit n index := by
  induction n generalizing index with
  | zero => rfl
  | succ n ih =>
    simp only [PriceLadder.visit, ih, PriceLadder.nextSetBit, scanWords_levels]
    rfl

/-- The walk over the occupied levels reads the bits only. -/
theorem forEachOccupied_levels (depth : UInt64) :
    ({ ladder with levels := levels } : PriceLadder).forEachOccupied depth =
      ladder.forEachOccupied depth :=
  visit_levels ladder levels _ _

end Ladders

section Views

variable {hash : OrderId → UInt64} {book book' book'' : OrderBook} {l : LevelPtr}

theorem SameView.trans (h : SameView book book') (h' : SameView book' book'') :
    SameView book book'' where
  grid := h.grid.trans h'.grid
  side d := (h'.side d).trans (h.side d)
  excess_eq l := (h'.excess_eq l).trans (h.excess_eq l)

/-- What is seen of an order, its side and its type are all of it but the links. -/
theorem detached_of_restingOf {order order' : Order} (h : RestsIn order l) (h' : RestsIn order' l)
    (heq : restingOf order = restingOf order') : order.detached = order'.detached := by
  have hside := h.side.trans h'.side.symm
  have htype := h.limit.trans h'.limit.symm
  simp only [restingOf, Resting.mk.injEq, UInt64.toNat_inj] at heq
  obtain ⟨hid, hprice, horiginal, hremaining, htimestamp, hsequence⟩ := heq
  simp only [Order.detached, hid, hprice, horiginal, hremaining, htimestamp, hsequence, hside,
    htype]

/-- A queue, as it is seen, is what is seen of its side at its price. -/
theorem queue_reading (h : LevelsOk book (fifo book))
    (hl : l.index < (book.ladder l.descending).levelCount.toNat) :
    ((fifo book l).map fun p => restingOf (book.memory p)) =
      (resting book l.descending).filter fun r =>
        r.price = (book.ladder l.descending).slotPrice l.index := by
  rw [← queue_of_price h hl, resting, List.filter_map]
  rfl

theorem fifo_outside (h : LevelsOk book (fifo book))
    (hl : ¬ l.index < (book.ladder l.descending).levelCount.toNat) : fifo book l = [] :=
  List.eq_nil_iff_forall_not_mem.mpr fun _ hp => hl (h.queue_lt hp)

section Same

variable (hs : Sound hash book) (hs' : Sound hash book') (h : SameView book book')
include hs hs' h

theorem SameView.queue_readings (l : LevelPtr) :
    ((fifo book' l).map fun p => restingOf (book'.memory p)) =
      (fifo book l).map fun p => restingOf (book.memory p) := by
  have hcount : (book'.ladder l.descending).levelCount = (book.ladder l.descending).levelCount :=
    (h.grid l.descending).levelCount
  by_cases hl : l.index < (book.ladder l.descending).levelCount.toNat
  · rw [queue_reading hs.synced.toLevelsOk hl, ← h.side, ← (h.grid l.descending).slotPrice_eq]
    exact queue_reading hs'.synced.toLevelsOk (hcount ▸ hl)
  · rw [fifo_outside hs.synced.toLevelsOk hl, fifo_outside hs'.synced.toLevelsOk (hcount ▸ hl),
      List.map_nil, List.map_nil]

theorem SameView.queue_orders (l : LevelPtr) :
    ((fifo book' l).map fun p => (book'.memory p).detached) =
      (fifo book l).map fun p => (book.memory p).detached :=
  map_eq_of_map_eq (h.queue_readings hs hs' l) fun p hp q hq heq =>
    detached_of_restingOf (hs'.synced.rests l p hp) (hs.synced.rests l q hq) heq

theorem SameView.total_eq (l : LevelPtr) :
    (book'.level l).totalQuantity = (book.level l).totalQuantity := by
  have hsum :
      remainingSum book'.memory (fifo book' l) = remainingSum book.memory (fifo book l) := by
    have hreadings := congrArg (List.map Resting.remainingQuantity) (h.queue_readings hs hs' l)
    rw [List.map_map, List.map_map] at hreadings
    exact congrArg List.sum hreadings
  apply UInt64.toNat_inj.mp
  rw [RestingOrders.total_eq hs'.synced.toLevelsOk, RestingOrders.total_eq hs.synced.toLevelsOk,
    hsum, h.excess_eq]

theorem SameView.count_eq (l : LevelPtr) : (book'.level l).count = (book.level l).count := by
  have hlength := congrArg List.length (h.queue_readings hs hs' l)
  rw [List.length_map, List.length_map] at hlength
  apply UInt64.toNat_inj.mp
  exact (hs'.synced.represents l).count.trans
    (hlength.trans (hs.synced.represents l).count.symm)

theorem SameView.level_eq (l : LevelPtr) : observeLevel book' l = observeLevel book l := by
  simp only [observeLevel, h.total_eq hs hs', h.count_eq hs hs', h.queue_orders hs hs',
    level_price_eq hs.synced.toLevelsOk hs'.synced.toLevelsOk h.grid]

/-- The ladders differ in their levels only. -/
theorem SameView.ladder_eq (d : Bool) :
    book'.ladder d = { book.ladder d with levels := (book'.ladder d).levels } := by
  apply ladder_of_bits (hs.synced.configured d) (hs'.synced.configured d) (hs.synced.marked d)
    (hs'.synced.marked d) (h.grid d)
  intro i
  have hbit := hs.synced.bits ⟨d, i⟩
  have hbit' := hs'.synced.bits ⟨d, i⟩
  have hlength := congrArg List.length (h.queue_readings hs hs' ⟨d, i⟩)
  rw [List.length_map, List.length_map] at hlength
  rw [hbit, hbit', decide_eq_decide, ← List.length_pos_iff, ← List.length_pos_iff, hlength]

/-- An order with a given id is found in one book when it is found in the other. -/
theorem SameView.found_some {id : OrderId} {l : LevelPtr} {p : OrderPtr} (hp : p ∈ fifo book l)
    (hid : (book.memory p).orderId = id) :
    observeFound hash book' id = some (book.memory p).detached := by
  have hmem : (book.memory p).detached ∈ (fifo book' l).map fun q => (book'.memory q).detached := by
    rw [h.queue_orders hs hs']
    exact List.mem_map_of_mem hp
  obtain ⟨q, hq, heq⟩ := List.mem_map.mp hmem
  have hid' : (book'.memory q).orderId = id := (detached_fields heq).1.trans hid
  have hfound := hs'.synced.findOrder_self hq
  rw [hid'] at hfound
  rw [observeFound, hfound]
  simp only
  rw [if_neg (hs'.synced.ne_null hq), heq]

end Same

theorem observeFound_none (hs : Sound hash book) {id : OrderId}
    (habsent : ∀ l, ∀ p ∈ fifo book l, (book.memory p).orderId ≠ id) :
    observeFound hash book id = none := by
  obtain ⟨found, hrun, ⟨hnull, _⟩ | ⟨l, hfound, hid⟩⟩ := hs.synced.findOrder_run id
  · rw [observeFound, hrun]
    exact if_pos hnull
  · exact absurd hid (habsent l found hfound)

section Same

variable (hs : Sound hash book) (hs' : Sound hash book') (h : SameView book book')
include hs hs' h

theorem SameView.found_eq (id : OrderId) :
    observeFound hash book' id = observeFound hash book id := by
  by_cases habsent : ∀ l, ∀ p ∈ fifo book l, (book.memory p).orderId ≠ id
  · rw [observeFound_none hs habsent]
    apply observeFound_none hs'
    rw [← absent_iff hs] at habsent
    rw [← absent_iff hs']
    simpa only [h.side] using habsent
  · simp only [not_forall, not_not] at habsent
    obtain ⟨l, p, hp, hid⟩ := habsent
    have hself : SameView book book := ⟨.refl book, fun _ => rfl, fun _ => rfl⟩
    rw [h.found_some hs hs' hp hid, hself.found_some hs hs hp hid]

/-- Orders with one id are one order, as far as callers see. -/
theorem SameView.order_eq {l m : LevelPtr} {p q : OrderPtr} (hp : p ∈ fifo book l)
    (hq : q ∈ fifo book' m) (hid : (book.memory p).orderId = (book'.memory q).orderId) :
    (book'.memory q).detached = (book.memory p).detached := by
  have hself : SameView book' book' := ⟨.refl book', fun _ => rfl, fun _ => rfl⟩
  have hfound := h.found_some hs hs' hp hid
  rw [hself.found_some hs' hs' hq rfl] at hfound
  exact Option.some.inj hfound

theorem SameView.live_eq :
    book'.orderPool.liveOrderCount = book.orderPool.liveOrderCount := by
  have hlength : ∀ (b : OrderBook), (restingOrders b (fifo b)).length =
      (resting b true).length + (resting b false).length := by
    intro b
    rw [restingOrders, List.length_append, resting, resting, List.length_map, List.length_map]
  apply UInt64.toNat_inj.mp
  rw [hs'.synced.pool.count, hs.synced.pool.count, hlength, hlength, h.side, h.side]

theorem SameView.snapshot_eq : captureSnapshot book' = captureSnapshot book := by
  funext out depth
  have hlevel : snapshotLevel book' = snapshotLevel book := by
    funext l
    rw [snapshotLevel, snapshotLevel, h.total_eq hs hs', h.count_eq hs hs',
      level_price_eq hs.synced.toLevelsOk hs'.synced.toLevelsOk h.grid]
  have hwalk : ∀ d, (book'.ladder d).forEachOccupied depth =
      (book.ladder d).forEachOccupied depth := by
    intro d
    rw [h.ladder_eq hs hs', forEachOccupied_levels]
  have hoccupied : ∀ d, (book'.ladder d).occupied = (book.ladder d).occupied := by
    intro d
    rw [h.ladder_eq hs hs']
  have hbids : book'.bids.forEachOccupied depth = book.bids.forEachOccupied depth := hwalk true
  have hasks : book'.asks.forEachOccupied depth = book.asks.forEachOccupied depth := hwalk false
  have hbidCount : book'.bids.occupied = book.bids.occupied := hoccupied true
  have haskCount : book'.asks.occupied = book.asks.occupied := hoccupied false
  simp only [captureSnapshot, hlevel, hbids, hasks, hbidCount, haskCount]

/-- Books with one view show the same. -/
theorem SameView.observe_eq : observe hash book' = observe hash book := by
  have hbest : ∀ d, (book'.ladder d).best = (book.ladder d).best := by
    intro d
    rw [h.ladder_eq hs hs']
    rfl
  rw [observe, observe, Observation.mk.injEq]
  exact ⟨funext (h.level_eq hs hs'), funext hbest, funext (h.found_eq hs hs'), h.live_eq hs hs',
    h.snapshot_eq hs hs'⟩

end Same

end Views

end Leka.Observations
