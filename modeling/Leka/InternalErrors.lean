import Leka.BookRuns

/-!
The errors that report a broken invariant. The parts of a book agree in every reachable
state, so the procedures that would raise them return instead. What an event does raise comes
from the checks on its arguments, from the storage, or from a limit price off the grid.
-/

namespace Leka.InternalErrors

open Procedures Orders OrderIndexing OrderPools PoolAsSet PriceLevels PriceLadders OrderBooks
  MatchingEngines SyncedBooks BookRemovals BookInsertions RestingOrders MatchingRounds
  EventOutcomes BookRuns ReferenceMatchers Sweeps

/-- The errors that only an inconsistent book can raise. -/
def internalErrors : List StdException := [
  .logicError "Non-empty price level has no head order",
  .logicError "Order is not indexed in this book",
  .logicError "Order is not linked to a price level",
  .invalidArgument "Order does not belong to this price level",
  .invalidArgument "Cannot reduce price level quantity below zero",
  .invalidArgument "Cannot reduce order quantity below zero",
  .logicError "Order not found in the index",
  .logicError "Order pointer does not match indexed order",
  .invalidArgument "Cannot release a null order",
  .invalidArgument "Order does not belong to this pool",
  .invalidArgument "Pointer is not an Order slot",
  .invalidArgument "Order slot is not allocated"]

/-- What a subtraction from a counter raises in the runs that check it for wrapping. -/
def wrapped : StdException := .runtimeError "Unsigned subtraction below zero"

/-- An error that a caller can provoke with its arguments, or that the host answers with. -/
def External (e : StdException) : Prop := e ∉ wrapped :: internalErrors

instance : DecidablePred External :=
  fun e => inferInstanceAs (Decidable (e ∉ wrapped :: internalErrors))

/-- What the pool and the index raise when they make room or take an order in. -/
def storageErrors : List StdException := [
  .badAlloc,
  .runtimeError "OrderPool page size is incompatible with the system page size",
  .systemError "mmap failed",
  .logicError "Duplicate OrderPool page address",
  .lengthError "cannot create std::vector larger than max_size()",
  .invalidArgument "Cannot add a null order",
  .logicError "Order with the same OrderId already exists in the index"]

def Storage (e : StdException) : Prop := e ∈ storageErrors

instance : DecidablePred Storage := fun e => inferInstanceAs (Decidable (e ∈ storageErrors))

/-- What the remaining checks on the arguments raise, all but those on a price. -/
def argumentErrors : List StdException := [
  .invalidArgument "Invalid incoming order value",
  .invalidArgument "Invalid incoming order side",
  .invalidArgument "Invalid incoming order type",
  .invalidArgument "Limit order requires a valid price",
  .invalidArgument "Market order must not specify a price",
  .logicError "Order with the same OrderId already exists",
  .overflowError "Sequence number space exhausted",
  .invalidArgument "Invalid cancel order ID",
  .invalidArgument "Invalid reduce order ID",
  .invalidArgument "Reduction requires a nonzero quantity no greater than the remaining quantity",
  .invalidArgument "OrderBook accepts resting limit orders only",
  .invalidArgument "Invalid original or remaining quantity",
  .invalidArgument "Cannot add an invalid order",
  .overflowError "Price level quantity overflow"]

/-- What `indexOf` answers to a price it has no slot for. -/
def ladderErrors : List StdException := [
  .outOfRange "Price is outside the configured ladder range",
  .invalidArgument "Price does not fall on a configured tick boundary"]

/-- An error that has nothing to do with the grid. -/
def Ordinary (e : StdException) : Prop := e ∈ argumentErrors ++ storageErrors

instance : DecidablePred Ordinary :=
  fun e => inferInstanceAs (Decidable (e ∈ argumentErrors ++ storageErrors))

theorem ordinary_of_storage {e : StdException} (h : Storage e) : Ordinary e :=
  List.mem_append_right _ h

theorem external_of_ordinary {e : StdException} (h : Ordinary e) : External e := by
  have hall : ∀ e ∈ argumentErrors ++ storageErrors, External e := by decide
  exact hall e h

theorem external_of_storage {e : StdException} (h : Storage e) : External e :=
  external_of_ordinary (ordinary_of_storage h)

theorem not_ladder_of_ordinary {e : StdException} (h : Ordinary e) : e ∉ ladderErrors := by
  have hall : ∀ e ∈ argumentErrors ++ storageErrors, e ∉ ladderErrors := by decide
  exact hall e h

section Parts

variable {host : Host} {hash : OrderId → UInt64}

theorem raises_updatePool (f : OrderPool → OrderPool) : (updatePool f).Raises Storage :=
  Proc.raises_modify _

theorem raises_addToFreePageList (page : ℕ) : (addToFreePageList page).Raises Storage := by
  unfold addToFreePageList
  refine .bind Proc.raises_get fun s => .ite (fun _ => Proc.raises_pure _) fun _ => ?_
  refine .bind (raises_updatePool _) fun _ => ?_
  split
  · exact .bind (raises_updatePool _) fun _ => .bind (raises_updatePool _) fun _ =>
      raises_updatePool _
  · exact .bind (raises_updatePool _) fun _ => raises_updatePool _

theorem raises_removeFromFreePageList (page : ℕ) :
    (removeFromFreePageList page).Raises Storage := by
  unfold removeFromFreePageList
  refine .bind Proc.raises_get fun s => .ite (fun _ => Proc.raises_pure _) fun _ => ?_
  dsimp only
  cases (s.pool.page page).previousFreePage <;> cases (s.pool.page page).nextFreePage
  · exact .bind (raises_updatePool _) fun _ => raises_updatePool _
  · exact .bind (raises_updatePool _) fun _ => .bind (raises_updatePool _) fun _ =>
      raises_updatePool _
  · exact .bind (raises_updatePool _) fun _ => raises_updatePool _
  · exact .bind (raises_updatePool _) fun _ => .bind (raises_updatePool _) fun _ =>
      raises_updatePool _

theorem raises_newPage {count : ℕ} : (Proc.check (newPage host count) : PoolProc Page).Raises
    Storage := by
  apply Proc.raises_check
  intro e h
  unfold newPage at h
  split_ifs at h with hheap hsize
  · rw [← Except.error.inj h]
    decide
  · rw [← Except.error.inj h]
    decide
  · split at h
    · rw [← Except.error.inj h]
      decide
    · simp at h

theorem raises_createPage : (createPage host).Raises Storage := by
  unfold createPage
  refine .bind Proc.raises_get fun s => .bind raises_newPage fun page => ?_
  refine .bind (raises_updatePool _) fun _ => .ite (fun _ => ?_) fun _ => ?_
  · exact .bind (raises_updatePool _) fun _ _ _ _ hrun => by
      rw [← Proc.throws_inj hrun]
      decide
  · exact .bind (raises_updatePool _) fun _ => .bind (raises_addToFreePageList _) fun _ =>
      Proc.raises_pure _

theorem raises_allocate (orderId : OrderId) (price : Price)
    (originalQuantity remainingQuantity : Quantity) (timestamp : Timestamp)
    (orderSide : OrderSide) (orderType : Orders.OrderType) (sequenceNumber : SequenceNumber) :
    (allocate host orderId price originalQuantity remainingQuantity timestamp orderSide orderType
      sequenceNumber).Raises Storage := by
  have hin : ∀ page, (allocateIn orderId price originalQuantity remainingQuantity timestamp
      orderSide orderType sequenceNumber page).Raises Storage := by
    intro page
    unfold allocateIn
    refine .bind Proc.raises_get fun s => .bind (Proc.raises_modify _) fun _ =>
      .bind (raises_updatePool _) fun _ => .bind Proc.raises_get fun s => ?_
    have hcount : ∀ order : OrderPtr, (do
        updatePool fun pool => { pool with liveOrderCount := pool.liveOrderCount + 1 }
        return order : PoolProc OrderPtr).Raises Storage :=
      fun _ => .bind (raises_updatePool _) fun _ => Proc.raises_pure _
    exact .ite (fun _ => .bind (raises_removeFromFreePageList _) fun _ => hcount _)
      fun _ => hcount _
  unfold allocate
  refine .bind Proc.raises_get fun s => ?_
  split
  · exact hin _
  · exact .bind raises_createPage hin

theorem raises_createPages (n : ℕ) : (createPages host n).Raises Storage := by
  induction n with
  | zero => exact Proc.raises_pure _
  | succ n ih => exact .bind raises_createPage fun _ => ih

theorem ladder_of_indexOf {price : Price} {ladder : PriceLadder} {e : StdException}
    (h : ladder.indexOf price = .error e) : e ∈ ladderErrors := by
  simp only [PriceLadder.indexOf] at h
  split_ifs at h <;>
  · rw [← Except.error.inj h]
    decide

theorem external_of_indexOf {price : Price} {ladder : PriceLadder} {e : StdException}
    (h : ladder.indexOf price = .error e) : External e := by
  have hall : ∀ e ∈ ladderErrors, External e := by decide
  exact hall e (ladder_of_indexOf h)

theorem raises_whileLoop {σ α : Type} (result : Option α) :
    (whileLoop result : Proc StdException σ α).Raises Storage := by
  cases result with
  | none => exact Proc.raises_diverge
  | some a => exact Proc.raises_pure a

theorem raises_newSlots {σ : Type} (alloc : ℕ → Bool) (capacity : UInt64) :
    (newSlots alloc capacity : Proc StdException σ Slots).Raises Storage := by
  unfold newSlots
  exact .ite (fun _ => Proc.raises_throw (by decide)) fun _ =>
    .ite (fun _ => Proc.raises_throw (by decide)) fun _ => Proc.raises_pure _

theorem raises_growIfNeeded (alloc : ℕ → Bool) : (growIfNeeded hash alloc).Raises Storage := by
  unfold growIfNeeded
  refine .bind Proc.raises_get fun self => .ite (fun _ => ?_) fun _ =>
    .ite (fun _ => Proc.raises_pure _) fun _ => ?_
  · exact .bind (raises_newSlots _ _) fun _ => Proc.raises_modify _
  · exact .bind (raises_newSlots _ _) fun _ => .bind (raises_whileLoop _) fun _ =>
      Proc.raises_modify _

theorem raises_addToIndex (alloc : ℕ → Bool) (p : OrderPtr) (id : OrderId) :
    (OrderIndexing.addOrder hash alloc p id).Raises Storage := by
  unfold OrderIndexing.addOrder
  exact .guard (by decide) <| .bind (raises_growIfNeeded _) fun _ => .bind Proc.raises_get
    fun self => .bind (raises_whileLoop _) fun index => .guard (by decide) <| Proc.raises_modify _

theorem raises_reserveIndex (alloc : ℕ → Bool) (orderCount : UInt64) :
    (OrderIndexing.reserve hash alloc orderCount).Raises Storage := by
  unfold OrderIndexing.reserve
  refine .bind Proc.raises_get fun self => .bind (raises_whileLoop _) fun capacity =>
    .ite (fun _ => Proc.raises_pure _) fun _ => ?_
  exact .bind (raises_newSlots _ _) fun _ => .bind (raises_whileLoop _) fun _ =>
    Proc.raises_modify _

theorem raises_reserveOrderCapacity (orderCount : UInt64) :
    (reserveOrderCapacity hash host orderCount).Raises Storage := by
  have hpool : (OrderPools.reserve host orderCount).Raises Storage :=
    .bind Proc.raises_get fun _ => raises_createPages _
  exact .bind (.zoom hpool) fun _ => .zoom (raises_reserveIndex _ _)

theorem ordinary_of_validate {order : NewOrder} {e : StdException}
    (h : validate order = .error e) : Ordinary e := by
  unfold validate at h
  split_ifs at h <;>
  · rw [← Except.error.inj h]
    decide

end Parts

section Calls

variable {hash : OrderId → UInt64} {host : Host} {book book' : OrderBook} {s s' : EngineState}
  {e : StdException}

/-- What the block around a pending order throws: what the storage raises, or the objection to an
order that cannot rest. -/
theorem attempt_raises (hs : Sound hash book) {p : OrderPtr} {order : Order}
    (hallocated : Allocated hash book book' (fifo book) p order)
    (hlimit : order.orderType = .limit) (hremaining : order.remainingQuantity ≠ 0)
    {t : Insertion} (hattempt : attempt hash host p { book := book' } = (.throws e, t)) :
    Storage e ∨ ¬ Placeable book order ∧
      (Ordinary e ∨ (book.ladder order.isBuy).indexOf order.price = .error e) := by
  by_cases hvalid : order.isValid = true
  swap
  · rw [attempt_invalid_run hallocated (Bool.eq_false_iff.mpr hvalid)] at hattempt
    rw [← Proc.throws_inj hattempt]
    exact .inr ⟨fun h => hvalid h.valid, .inl (by decide)⟩
  cases hprice : (book.ladder order.isBuy).indexOf order.price with
  | error e' =>
    rw [attempt_offGrid_run hallocated hvalid hprice] at hattempt
    rw [Proc.throws_inj hattempt]
    refine .inr ⟨fun h => ?_, .inr rfl⟩
    obtain ⟨index, hok⟩ := h.price
    rw [hprice] at hok
    simp at hok
  | ok index =>
    by_cases hfits : order.remainingQuantity ≤
        uint64Max - (book.level ⟨order.isBuy, index.toNat⟩).totalQuantity
    swap
    · rw [attempt_overflow_run hs.synced hallocated hvalid hprice hremaining hfits] at hattempt
      rw [← Proc.throws_inj hattempt]
      exact .inr ⟨fun h => hfits (h.fits index hprice), .inl (by decide)⟩
    obtain ⟨linked, hlinked, _⟩ := @attempt_linked hash book book' (fifo book) p order
      hs.synced hallocated hvalid index hprice hremaining hlimit hfits
    rw [hlinked] at hattempt
    -- What is left is the insertion into the index.
    have hindex : (OrderBooks.onBook (onIndex (OrderIndexing.addOrder hash host.slots p
        order.orderId)) : InsertionProc Unit).Raises Storage :=
      .zoom (.zoom (raises_addToIndex _ _ _))
    exact .inl (hindex _ _ _ hattempt)

/-- A failed insertion reports the error of its attempt: the handler meets none of its own. -/
theorem insertOrder_throws (hs : Sound hash book) {order : Order}
    (hthrows : insertOrder hash host order book = (.throws e, book')) :
    Storage e ∨ ¬ Placeable book order ∧
      (Ordinary e ∨ (book.ladder order.isBuy).indexOf order.price = .error e) := by
  rcases insertOrder_cases hash book host order with ⟨hrun, hnot⟩ | ⟨hrun, hbounds⟩ |
    ⟨hrun, hlimit, horiginal, hremaining, hle⟩
  · rw [hrun] at hthrows
    rw [← Proc.throws_inj hthrows]
    exact .inr ⟨fun h => hnot h.limit, .inl (by decide)⟩
  · rw [hrun] at hthrows
    rw [← Proc.throws_inj hthrows]
    exact .inr ⟨fun h => hbounds ⟨h.original, h.remaining, h.le⟩, .inl (by decide)⟩
  rw [hrun] at hthrows
  rcases allocate_order hs.synced host order with
    ⟨_, e', hallocate⟩ | ⟨hgranted, p, book₁, hallocate, hallocated⟩
  · rw [Proc.bind_throws _ hallocate] at hthrows
    rw [← Proc.throws_inj hthrows]
    exact .inl ((raises_allocate _ _ _ _ _ _ _ _).zoom _ _ _ hallocate)
  rw [Proc.bind_returns _ hallocate] at hthrows
  rcases transaction_run hs.synced host hallocated hlimit horiginal hremaining hle hgranted with
    ⟨_, t, l, hattempt, _⟩ | ⟨_, e', t, t', hattempt, hroll, _⟩
  · rw [Proc.bind_returns _ (withLocals_run (Proc.handle_returns _ hattempt))] at hthrows
    simp at hthrows
  · rw [Proc.bind_throws _ (withLocals_run ((Proc.handle_throws _ hattempt).trans hroll))]
      at hthrows
    rw [← Proc.throws_inj hthrows]
    exact attempt_raises hs hallocated hlimit hremaining hattempt

theorem insertOrder_raises (hs : Sound hash book) {order : Order}
    (hthrows : insertOrder hash host order book = (.throws e, book')) :
    Ordinary e ∨ (book.ladder order.isBuy).indexOf order.price = .error e := by
  rcases insertOrder_throws hs hthrows with hstorage | ⟨_, hobjection⟩
  · exact .inl (ordinary_of_storage hstorage)
  · exact hobjection

theorem insertOrder_external (hs : Sound hash book) {order : Order}
    (hthrows : insertOrder hash host order book = (.throws e, book')) : External e := by
  rcases insertOrder_raises hs hthrows with h | h
  · exact external_of_ordinary h
  · exact external_of_indexOf h

/-- The price of a valid limit order has no slot on its side. -/
def OffGrid (book : OrderBook) (order : NewOrder) (e : StdException) : Prop :=
  order.orderType = .limit ∧ order.price ≠ 0 ∧
    (book.ladder (isBid order)).indexOf order.price = .error e

theorem matchOrder_raises (hs : Sound hash s.orderBook) {order : NewOrder}
    (hthrows : matchOrder hash host order s = (.throws e, s')) :
    Ordinary e ∨ OffGrid s.orderBook order e := by
  by_cases haccepted : Accepted order s
  swap
  · obtain ⟨e', hrun, hcheck⟩ := matchOrder_rejected_with hs host haccepted
    rw [hrun] at hthrows
    rw [← Proc.throws_inj hthrows]
    rcases hcheck with hinvalid | rfl | rfl
    · exact .inl (ordinary_of_validate hinvalid)
    · exact .inl (by decide)
    · exact .inl (by decide)
  rw [matchOrder_accepted hs host haccepted] at hthrows
  have hfilled : fill order order.quantity.toNat
      (resting (numbered s).orderBook (!isBid order)) = filledBy order s := rfl
  rcases matchLoop_run (s := numbered s) hs (testsLimit haccepted.valid)
      (length_resting_le hs _) host order.quantity hfilled with
    ⟨left, t, hrun, _, _, hmatched⟩ | ⟨_, t, hrun, _⟩
  · rw [Proc.bind_returns _ hrun] at hthrows
    by_cases hrests : left > 0 ∧ order.orderType = .limit
    · rw [if_pos hrests] at hthrows
      generalize hinsert : insertOrder hash host
        (remainderOrder order (s.currentSequence + 1) left) t.orderBook = result at hthrows
      obtain ⟨o, book'⟩ := result
      cases o with
      | returns p =>
        rw [Proc.bind_returns _ (MatchingRounds.onBook_run hinsert)] at hthrows
        simp at hthrows
      | throws e' =>
        rw [Proc.bind_throws _ (MatchingRounds.onBook_run hinsert)] at hthrows
        rw [← Proc.throws_inj hthrows]
        refine (insertOrder_raises hmatched.sound hinsert).imp_right fun hprice => ?_
        obtain ⟨_, _, _, _, ⟨_, hnonzero⟩ | ⟨hmarket, _⟩⟩ := valid_fields haccepted.valid
        · exact ⟨hrests.2, hnonzero, ((hmatched.grid _).indexOf_eq _).symm.trans hprice⟩
        · rw [hrests.2] at hmarket
          exact absurd hmarket (by decide)
      | diverges =>
        rw [Proc.bind_diverges _ (MatchingRounds.onBook_run hinsert)] at hthrows
        simp at hthrows
    · rw [if_neg hrests] at hthrows
      simp at hthrows
  · rw [Proc.bind_throws _ hrun] at hthrows
    rw [← Proc.throws_inj hthrows]
    exact .inl (by decide)

/-- Apart from the ordinary errors an event can raise that of a limit price off the grid. -/
theorem processEvent_raises (hs : Sound hash s.orderBook) {event : OrderEvent}
    (hthrows : processEvent hash host event s = (.throws e, s')) :
    Ordinary e ∨ ∃ order, event = .new order ∧ OffGrid s.orderBook order e := by
  have hends := processEvent_ends hs host event
  rw [hthrows] at hends
  cases event with
  | new order =>
    generalize hrun : matchOrder hash host order (emptied s) = result
    obtain ⟨o, t⟩ := result
    rw [processEvent_new hrun] at hthrows
    cases o with
    | throws e' =>
      rw [← Proc.throws_inj hthrows]
      refine (matchOrder_raises (s := emptied s) hs hrun).imp_right fun hoff => ?_
      exact ⟨order, rfl, hoff⟩
    | returns _ => simp [Outcome.map] at hthrows
    | diverges => simp [Outcome.map] at hthrows
  | cancel order =>
    cases hends with
    | cancelInvalid => exact .inl (by decide)
  | reduce reduction =>
    cases hends with
    | reduceInvalid => exact .inl (by decide)
    | reduceRefused => exact .inl (by decide)

theorem processEvent_external (hs : Sound hash s.orderBook) {event : OrderEvent}
    (hthrows : processEvent hash host event s = (.throws e, s')) : External e := by
  rcases processEvent_raises hs hthrows with h | ⟨_, _, _, _, h⟩
  · exact external_of_ordinary h
  · exact external_of_indexOf h

/-- A call run for its effect throws what the procedure throws. -/
theorem discard_throws {α : Type} {x : EngineProc α}
    (h : (do let _ ← x : EngineProc Unit) s = (.throws e, s')) : x s = (.throws e, s') := by
  change (x >>= fun _ => pure ()) s = _ at h
  rw [Proc.bind_apply] at h
  split at h
  · simp at h
  · rename_i hrun
    rw [hrun]
    simpa using h
  · simp at h

theorem onBook_throws {α : Type} {x : BookProc α}
    (h : MatchingEngines.onBook x s = (.throws e, s')) :
    ∃ book', x s.orderBook = (.throws e, book') := by
  obtain ⟨counter, book, out⟩ := s
  generalize hrun : x book = result
  obtain ⟨o, book'⟩ := result
  rw [MatchingRounds.onBook_run hrun] at h
  have ho : o = .throws e := congrArg Prod.fst h
  exact ⟨book', by rw [ho]⟩

/-- No permitted call raises an internal error on a book whose parts agree. -/
theorem call_external (hs : Sound hash s.orderBook) {c : Call} (hany : AnyCall s c)
    (hthrows : c.run hash s = (.throws e, s')) : External e := by
  cases c with
  | addOrder host orderId price quantity timestamp orderSide orderType sequenceNumber =>
    obtain ⟨book', hrun⟩ := onBook_throws (discard_throws hthrows)
    have hinsert : insertOrder hash host {
        orderId, price, timestamp, orderSide, orderType, sequenceNumber
        originalQuantity := quantity
        remainingQuantity := quantity } s.orderBook = (.throws e, book') := hrun
    exact insertOrder_external hs hinsert
  | addRestingRemainder host orderId price originalQuantity remainingQuantity timestamp orderSide
      orderType sequenceNumber =>
    obtain ⟨book', hrun⟩ := onBook_throws (discard_throws hthrows)
    have hinsert : insertOrder hash host {
        orderId, price, originalQuantity, remainingQuantity, timestamp, orderSide, orderType
        sequenceNumber := sequenceNumber } s.orderBook = (.throws e, book') := hrun
    exact insertOrder_external hs hinsert
  | cancelOrder orderId =>
    obtain ⟨book', hthrows'⟩ := onBook_throws (discard_throws hthrows)
    rcases cancelOrder_run hs.synced orderId with ⟨_, hrun⟩ | ⟨l, p, book'', _, _, hrun, _⟩
    · rw [hrun] at hthrows'
      simp at hthrows'
    · rw [hrun] at hthrows'
      simp at hthrows'
  | reduceOrder orderId newQuantity =>
    obtain ⟨book', hthrows'⟩ := onBook_throws (discard_throws hthrows)
    rcases reduceOrder_run hs.synced orderId newQuantity with ⟨_, hrun⟩ |
      ⟨l, p, _, _, ⟨_, hrun⟩ | ⟨_, _, hrun⟩ | ⟨_, _, hrun⟩⟩
    · rw [hrun] at hthrows'
      simp at hthrows'
    · rw [hrun] at hthrows'
      rw [← Proc.throws_inj hthrows']
      decide
    · rw [hrun] at hthrows'
      simp at hthrows'
    · rw [hrun] at hthrows'
      simp at hthrows'
  | removeOrder order =>
    obtain ⟨book', hthrows'⟩ := onBook_throws hthrows
    obtain ⟨l, hp⟩ :=
      hs.synced.toLevelsOk.mem_restingOrders.mp ((hs.synced.pool.stored order).mpr hany)
    obtain ⟨book'', hrun, _⟩ := removeOrder_run hs.synced hp
    rw [hrun] at hthrows'
    simp at hthrows'
  | reserveOrderCapacity host orderCount =>
    obtain ⟨book', hthrows'⟩ := onBook_throws hthrows
    exact external_of_storage (raises_reserveOrderCapacity _ _ _ _ hthrows')
  | processEvent host event => exact processEvent_external hs (discard_throws hthrows)
  | processOrder host order =>
    have hrun : processEvent hash host (.new order) s = (.throws e, s') := discard_throws hthrows
    exact processEvent_external hs hrun

end Calls

end Leka.InternalErrors
