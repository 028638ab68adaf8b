import Leka.BookRuns

/-!
The grid of a book. Both ladders are built from one configuration, and no call changes it:
what a ladder answers for a price is settled by the construction of the book.
-/

namespace Leka.BookGrids

open Procedures Orders OrderPools PoolAsSet PriceLadders OrderBooks MatchingEngines SyncedBooks
  BookRemovals BookInsertions RestingOrders MatchingRounds EventOutcomes BookRuns

/-- The ladders of the two books have the same configurations. -/
def SameGrids (book book' : OrderBook) : Prop :=
  ∀ d, PriceLadder.SameGrid (book.ladder d) (book'.ladder d)

section Steps

variable {hash : OrderId → UInt64} {book book' book'' : OrderBook} {s s' : EngineState}

theorem SameGrids.refl (book : OrderBook) : SameGrids book book := fun _ => .refl _

theorem SameGrids.trans (h : SameGrids book book') (h' : SameGrids book' book'') :
    SameGrids book book'' := fun d => (h d).trans (h' d)

theorem grids_resized (hs : Sound hash book) {l : LevelPtr} {p : OrderPtr} (hp : p ∈ fifo book l)
    {quantity total : Quantity} (hle : quantity ≤ (book.memory p).remainingQuantity) :
    SameGrids book (withTotal (withRemaining book p quantity) l total) :=
  (relevelled_withTotal total (synced_shrink hs.synced hle).toLevelsOk hp).grid

theorem grids_reserved (hs : Sound hash book) (host : Host) (orderCount : UInt64) :
    SameGrids book (reserveOrderCapacity hash host orderCount book).2 := by
  obtain ⟨o, pool, index, hrun, _⟩ := reserveOrderCapacity_run hs host orderCount
  rw [hrun]
  exact SameGrids.refl book

theorem grids_inserted (hs : Sound hash book) (host : Host) (order : Order) :
    SameGrids book (insertOrder hash host order book).2 := by
  rcases insertOrder_run hs.synced host order with
    ⟨_, book', l, p, hrun, hinserted⟩ | ⟨_, e, book', hrun, hrejected⟩
  · rw [hrun]
    exact hinserted.grid
  · rw [hrun]
    exact hrejected.grid

theorem grids_cancelled (hs : Sound hash book) (id : OrderId) :
    SameGrids book (cancelOrder hash id book).2 := by
  rcases cancelOrder_run hs.synced id with ⟨_, hrun⟩ | ⟨l, p, book', _, _, hrun, hremoved⟩
  · rw [hrun]
    exact SameGrids.refl book
  · rw [hrun]
    exact hremoved.grid

theorem grids_reduced (hs : Sound hash book) (id : OrderId) (quantity : Quantity) :
    SameGrids book (reduceOrder hash id quantity book).2 := by
  rcases reduceOrder_run hs.synced id quantity with ⟨_, hrun⟩ |
    ⟨l, p, hp, _, ⟨_, hrun⟩ | ⟨_, _, hrun⟩ | ⟨_, hlt, hrun⟩⟩
  · rw [hrun]
    exact SameGrids.refl book
  · rw [hrun]
    exact SameGrids.refl book
  · rw [hrun]
    exact SameGrids.refl book
  · rw [hrun]
    exact grids_resized hs hp (UInt64.le_of_lt hlt)

theorem grids_removed (hs : Sound hash book) {p : OrderPtr} (hlive : Live book.orderPool p) :
    SameGrids book (removeOrder hash p book).2 := by
  obtain ⟨l, hp⟩ := hs.synced.toLevelsOk.mem_restingOrders.mp ((hs.synced.pool.stored p).mpr hlive)
  obtain ⟨book', hrun, hremoved⟩ := removeOrder_run hs.synced hp
  rw [hrun]
  exact hremoved.grid

theorem NewEnds.grids {host : Host} {order : NewOrder} {o : Outcome StdException Unit}
    (h : NewEnds hash host order s (o, s')) : SameGrids s.orderBook s'.orderBook := by
  cases h with
  | rejected => exact SameGrids.refl _
  | full _ _ _ _ hmatched => exact hmatched.grid
  | done _ _ hmatched _ => exact hmatched.grid
  | rested _ _ hmatched _ _ _ _ hinserted => exact SameGrids.trans hmatched.grid hinserted.grid
  | refused _ _ hmatched _ _ _ _ hrejected => exact SameGrids.trans hmatched.grid hrejected.grid

theorem grids_event (hs : Sound hash s.orderBook) (host : Host) (event : OrderEvent) :
    SameGrids s.orderBook (processEvent hash host event s).2.orderBook := by
  have hends := processEvent_ends hs host event
  generalize processEvent hash host event s = result at hends
  cases hends with
  | new hends => exact NewEnds.grids (s := emptied s) hends
  | cancelled _ _ _ hremoved => exact hremoved.grid
  | reduced _ hp _ _ hquantity => exact grids_resized hs hp (UInt64.le_of_lt hquantity)
  | cancelInvalid | cancelAbsent | reduceInvalid | reduceAbsent | reduceRefused | reduceSame =>
    exact SameGrids.refl _

/-- No permitted call changes a grid. -/
theorem grids_run (hs : Sound hash s.orderBook) {c : Call} (hany : AnyCall s c) :
    SameGrids s.orderBook (c.run hash s).2.orderBook := by
  cases c with
  | addOrder host orderId price quantity timestamp orderSide orderType sequenceNumber =>
    rw [Call.run, discard_state, onBook_state]
    exact grids_inserted hs host {
      orderId, price, timestamp, orderSide, orderType, sequenceNumber
      originalQuantity := quantity
      remainingQuantity := quantity }
  | addRestingRemainder host orderId price originalQuantity remainingQuantity timestamp orderSide
      orderType sequenceNumber =>
    rw [Call.run, discard_state, onBook_state]
    exact grids_inserted hs host {
      orderId, price, originalQuantity, remainingQuantity, timestamp, orderSide, orderType
      sequenceNumber := sequenceNumber }
  | cancelOrder orderId =>
    rw [Call.run, discard_state, onBook_state]
    exact grids_cancelled hs orderId
  | reduceOrder orderId newQuantity =>
    rw [Call.run, discard_state, onBook_state]
    exact grids_reduced hs orderId newQuantity
  | removeOrder order =>
    rw [Call.run, onBook_state]
    exact grids_removed hs hany
  | reserveOrderCapacity host orderCount =>
    rw [Call.run, onBook_state]
    exact grids_reserved hs host orderCount
  | processEvent host event =>
    rw [Call.run, discard_state]
    exact grids_event hs host event
  | processOrder host order =>
    rw [Call.run, discard_state]
    exact grids_event hs host (.new order)

/-- The grids of a reachable book are those of the book the run started with. -/
theorem reachable_grids (h : Reachable hash AnyCall s) :
    ∃ memory minPrice tickSize levelCount book,
      OrderBook.make memory minPrice tickSize levelCount = .ok book ∧
      SameGrids book s.orderBook := by
  induction h with
  | start hmake => exact ⟨_, _, _, _, _, hmake, SameGrids.refl _⟩
  | elsewhere _ _ ih => exact ih
  | call h hpermits hrun _ ih =>
    obtain ⟨memory, minPrice, tickSize, levelCount, book, hmake, hgrids⟩ := ih
    refine ⟨memory, minPrice, tickSize, levelCount, book, hmake, hgrids.trans ?_⟩
    have hrun' := grids_run (reachable_sound h) hpermits
    rw [hrun] at hrun'
    exact hrun'

end Steps

end Leka.BookGrids
