import Leka.PageMappings
import Leka.ReplayedEvents
import Leka.ReservationEnds

/-!
What a reservation is good for. With pages and slots for `n` orders, an insertion that
leaves no more than `n` orders live finds a free slot in some page and a table that is not
loaded too much, so it asks the host for nothing. The orders, the levels and the answers of
the index are as before the reservation, and every later event does what it would have done
without it.
-/

namespace Leka.ReservedCapacity

open Procedures Orders OrderIndexing IndexAsMap OrderPools PoolAsSet PageMoves PageMappings
  PriceLadders OrderBooks MatchingEngines SyncedBooks BookRemovals BookInsertions RestingOrders
  ReferenceMatchers MatchingRounds EventOutcomes MatchingLoops BookRuns FailedInsertions
  ReservationEnds Observations QuantityLedgers ReplayedEvents

section Storage

variable {hash : OrderId → UInt64} {index : OrderIndex} {s : PoolState} {live : List OrderPtr}

/-- Without a request for slots the table stays, whatever the allocator. -/
theorem growIfNeeded_settled (hnone : growthRequest index = none) (alloc : ℕ → Bool) :
    growIfNeeded hash alloc index = (.returns (), index) := by
  unfold growthRequest at hnone
  split_ifs at hnone with hempty hover
  rw [Bool.not_eq_true] at hover
  rw [growIfNeeded, Proc.get_bind_apply, if_neg hempty, hover]
  rfl

theorem addOrder_settled (hnone : growthRequest index = none) (alloc alloc' : ℕ → Bool)
    (order : OrderPtr) (key : OrderId) :
    OrderIndexing.addOrder hash alloc' order key index =
        OrderIndexing.addOrder hash alloc order key index ∧
      (OrderIndexing.addOrder hash alloc order key index).2.slots.size = index.slots.size := by
  by_cases hnull : order = nullptr
  · simp only [OrderIndexing.addOrder, hnull, if_true, Proc.throw_bind_apply, and_self]
  · simp only [OrderIndexing.addOrder, hnull, if_false]
    rw [Proc.bind_returns _ (growIfNeeded_settled hnone alloc),
      Proc.bind_returns _ (growIfNeeded_settled hnone alloc'), Proc.get_bind_apply]
    refine ⟨rfl, ?_⟩
    cases hprobe : probe index.slots (fun slot => slot.key = key) index.slots.size
        (indexFor hash key (size index.slots)) with
    | none => rw [whileLoop_none, Proc.bind_diverges _ (Proc.diverge_apply _)]
    | some position =>
      rw [whileLoop_some, Proc.pure_bind_apply]
      by_cases htaken : (slotAt index.slots position).value ≠ nullptr
      · rw [if_pos htaken, Proc.throw_bind_apply]
      · rw [if_neg htaken, Proc.modify_apply, Array.size_setIfInBounds]

/-- With a free slot in some page, an allocation asks for no page. -/
theorem allocate_settled (h : PoolOk s.pool live) (hfirst : s.pool.firstPageWithFreeSlot ≠ none)
    (host host' : Host) (orderId : OrderId) (price : Price)
    (originalQuantity remainingQuantity : Quantity) (timestamp : Timestamp)
    (orderSide : OrderSide) (orderType : Orders.OrderType) (sequenceNumber : SequenceNumber)
    {o : Outcome StdException OrderPtr} {t : PoolState}
    (hrun : allocate host orderId price originalQuantity remainingQuantity timestamp orderSide
      orderType sequenceNumber s = (o, t)) :
    allocate host' orderId price originalQuantity remainingQuantity timestamp orderSide orderType
        sequenceNumber s = (o, t) ∧
      t.pool.pages.size = s.pool.pages.size ∧ t.pool.pageIndex = s.pool.pageIndex := by
  obtain ⟨k, hk⟩ := Option.ne_none_iff_exists'.mp hfirst
  obtain ⟨hlt, hon, _⟩ := h.allocated hk
  have hall := allocateIn_run orderId price originalQuantity remainingQuantity timestamp orderSide
    orderType sequenceNumber hlt hon
  rw [allocate, Proc.get_bind_apply, hk] at hrun ⊢
  refine ⟨hrun, ?_⟩
  obtain ⟨_, rfl⟩ := Prod.mk.inj (hall.symm.trans hrun)
  refine ⟨(samePages_allocated k s.pool).1, ?_⟩
  simp only [PoolAsSet.allocated]
  split_ifs
  · exact (samePages_dropped k _).pageIndex
  · rfl

/-- A pool with fewer live orders than slots has a page with a free slot. -/
theorem first_of_room (h : PoolOk s.pool live)
    (hroom : live.length < SlotsPerPage * s.pool.pages.size) :
    s.pool.firstPageWithFreeSlot ≠ none := by
  intro hnone
  have hfull := full_of_no_first h hnone
  have hall : occupiedSlots s.pool =
      Finset.range s.pool.pages.size ×ˢ Finset.range SlotsPerPage := by
    rw [occupiedSlots, Finset.filter_eq_self]
    intro x hx
    rw [Finset.mem_product, Finset.mem_range, Finset.mem_range] at hx
    obtain ⟨free, hpage⟩ := h.page x.1 hx.1
    have hempty : free = [] := by
      rw [← List.length_eq_zero_iff, ← hpage.count, hfull x.1 hx.1]
      rfl
    by_contra hfree
    have hmem := (hpage.mem x.2).mpr ⟨hx.2, Bool.eq_false_iff.mpr hfree⟩
    rw [hempty] at hmem
    simp at hmem
  have hcard := card_occupiedSlots h.toSlotsOk
  rw [hall, Finset.card_product, Finset.card_range, Finset.card_range, Nat.mul_comm] at hcard
  omega

end Storage

section Room

variable {hash : OrderId → UInt64} {book book' : OrderBook} {queues : Queues} {n : ℕ}

/-- The pages and the slots of the book are enough for `n` orders. -/
structure HasRoom (n : ℕ) (book : OrderBook) : Prop where
  pages : n ≤ SlotsPerPage * book.orderPool.pages.size
  slots : 2 * n ≤ book.orderIndex.slots.size

/-- The index counts the live orders. -/
theorem count_eq_live (h : Synced hash book queues) :
    book.orderIndex.count.toNat = (restingOrders book queues).length := by
  have hids : {id | ∃ p, Maps book.orderIndex id p} =
      (fun p => (book.memory p).orderId) '' {p | p ∈ restingOrders book queues} := by
    ext id
    simp only [Set.mem_ofPred_eq, Set.mem_image, h.indexed, h.mem_restingOrders]
  have hinj : Set.InjOn (fun p => (book.memory p).orderId)
      {p | p ∈ restingOrders book queues} := by
    intro p hp q hq heq
    obtain ⟨l, hp⟩ := h.mem_restingOrders.mp hp
    obtain ⟨m, hq⟩ := h.mem_restingOrders.mp hq
    exact h.id_unique hp hq heq
  have hset : {p | p ∈ restingOrders book queues} = ↑(restingOrders book queues).toFinset := by
    ext p
    simp
  rw [← h.index.ncard_ids, hids, hinj.ncard_image, hset, Set.ncard_coe_finset,
    List.toFinset_card_of_nodup h.pool.nodup]

/-- With room for one order more the table does not grow. -/
theorem request_of_room (h : Synced hash book queues)
    (hlive : (restingOrders book queues).length < n) (hn : n ≤ 2 ^ 53)
    (hslots : 2 * n ≤ book.orderIndex.slots.size) : growthRequest book.orderIndex = none := by
  have hcount := count_eq_live h
  have hne : book.orderIndex.slots ≠ #[] := by
    intro hempty
    rw [hempty, Array.size_empty] at hslots
    omega
  obtain ⟨m, _, hm, hsize⟩ := h.index.pow hne
  have hnext : (book.orderIndex.count + 1).toNat = book.orderIndex.count.toNat + 1 := by
    rw [UInt64.toNat_add, UInt64.toNat_one]
    exact Nat.mod_eq_of_lt (by omega)
  have hfits : overLoaded (book.orderIndex.count + 1) (size book.orderIndex.slots) = false := by
    rw [overLoaded, toDouble_pow (IndexTables.size_toNat hsize (by omega)),
      toDouble_small (by omega), hnext, ← hsize, decide_eq_false_iff_not]
    omega
  rw [growthRequest, if_neg (by simpa using hne), hfits]
  rfl

/-- No page has been created, and the table has not been replaced by a larger one. -/
structure SameStorage (book book' : OrderBook) : Prop where
  pages : book'.orderPool.pages.size = book.orderPool.pages.size
  pageIndex : book'.orderPool.pageIndex = book.orderPool.pageIndex
  slots : book'.orderIndex.slots.size = book.orderIndex.slots.size

theorem SameStorage.refl (book : OrderBook) : SameStorage book book := ⟨rfl, rfl, rfl⟩

theorem SameStorage.trans {book'' : OrderBook} (h : SameStorage book book')
    (h' : SameStorage book' book'') : SameStorage book book'' where
  pages := h'.pages.trans h.pages
  pageIndex := h'.pageIndex.trans h.pageIndex
  slots := h'.slots.trans h.slots

theorem HasRoom.of_storage (h : HasRoom n book) (hs : SameStorage book book') : HasRoom n book' :=
  ⟨by rw [hs.pages]; exact h.pages, by rw [hs.slots]; exact h.slots⟩

/-- With a free slot and a table that is not to grow, an insertion asks the host for nothing. -/
theorem insertOrder_settled (h : Synced hash book queues) {host : Host} {order : Order}
    (hi : Insertable host book queues order)
    (hfirst : book.orderPool.firstPageWithFreeSlot ≠ none)
    (hnone : growthRequest book.orderIndex = none) {p : OrderPtr}
    (hrun : insertOrder hash host order book = (.returns p, book')) (host' : Host) :
    insertOrder hash host' order book = (.returns p, book') ∧ SameStorage book book' := by
  have hblock : ∀ host, insertOrder hash host order book = (do
      let p ← onPool (allocate host order.orderId order.price order.originalQuantity
        order.remainingQuantity order.timestamp order.orderSide order.orderType
        order.sequenceNumber)
      withLocals (tryCatch (attempt hash host p) (rollback p))
      return p : BookProc OrderPtr) book := by
    intro host
    rcases insertOrder_cases hash book host order with ⟨_, hnot⟩ | ⟨_, hnot⟩ | ⟨heq, _⟩
    · exact absurd hi.limit hnot
    · exact absurd ⟨hi.original, hi.remaining, hi.le⟩ hnot
    · exact heq
  rcases allocate_order h host order with
    ⟨hrefused, _⟩ | ⟨hgranted, q, book₁, hallocate, hallocated⟩
  · exact absurd hrefused hi.memory
  generalize hall : allocate host order.orderId order.price order.originalQuantity
    order.remainingQuantity order.timestamp order.orderSide order.orderType order.sequenceNumber
    ⟨book.orderPool, book.memory⟩ = result
  obtain ⟨o, t⟩ := result
  obtain ⟨hall', hpages, hpageIndex⟩ := allocate_settled (s := ⟨book.orderPool, book.memory⟩)
    h.pool hfirst host host' _ _ _ _ _ _ _ _ hall
  obtain ⟨rfl, rfl⟩ := Prod.mk.inj (hallocate.symm.trans (onPool_run hall))
  obtain ⟨index, hprice⟩ := hi.price
  obtain ⟨linked, hattempt, hlink⟩ := @attempt_linked hash book _ queues q order h hallocated
    hi.valid index hprice hi.remaining hi.limit (hi.fits index hprice)
  have hlinkedIndex : linked.orderIndex = book.orderIndex := hlink.index
  generalize hadd : OrderIndexing.addOrder hash host.slots q order.orderId book.orderIndex = added
  obtain ⟨hadd', hslots⟩ := @addOrder_settled hash _ hnone host.slots host'.slots q order.orderId
  rw [hadd] at hadd' hslots
  obtain ⟨o, index'⟩ := added
  rw [← hlinkedIndex] at hadd hadd'
  have hends := hattempt host
  rw [OrderBooks.onBook_run (onIndex_run hadd)] at hends
  have hends' := hattempt host'
  rw [OrderBooks.onBook_run (onIndex_run hadd')] at hends'
  rcases transaction_run h host hallocated hi.limit hi.original hi.remaining hi.le hgranted with
    ⟨_, t', l, hreturns, _⟩ | ⟨hnot, _⟩
  swap
  · exact absurd hi hnot
  obtain ⟨rfl, _⟩ := Prod.mk.inj (hends.symm.trans hreturns)
  rw [hblock, Proc.bind_returns _ (onPool_run hall),
    Proc.bind_returns _ (withLocals_run (Proc.handle_returns _ hends))] at hrun
  obtain ⟨_, rfl⟩ := Prod.mk.inj hrun
  refine ⟨?_, ?_, ?_, hslots⟩
  · rw [hblock, Proc.bind_returns _ (onPool_run hall'),
      Proc.bind_returns _ (withLocals_run (Proc.handle_returns _ hends'))]
    exact hrun
  · exact (congrArg (fun pool => pool.pages.size) hlink.pool).trans hpages
  · exact (congrArg OrderPool.pageIndex hlink.pool).trans hpageIndex

/-- The loop takes nothing from the host but room in the buffer. -/
theorem matchLoop_host {host host' : Host} (hbuffer : host'.buffer = host.buffer)
    (order : NewOrder) (fuel : ℕ) (remaining : UInt64) :
    matchLoop hash host' order fuel remaining = matchLoop hash host order fuel remaining := by
  have hround : matchRound hash host' order = matchRound hash host order := by
    funext remaining
    simp only [matchRound, emplaceBack, hbuffer]
  induction fuel generalizing remaining with
  | zero => rfl
  | succ fuel ih => simp only [matchLoop, hround, ih]

/-- A smaller remaining quantity takes no storage. -/
theorem storage_resized (book : OrderBook) (l : LevelPtr) (p : OrderPtr)
    (quantity total : Quantity) :
    SameStorage book (withTotal (withRemaining book p quantity) l total) := by
  obtain ⟨_, hpool, hindex⟩ := withTotal_frame (withRemaining book p quantity) l total
  exact ⟨by rw [hpool]; rfl, by rw [hpool]; rfl, by rw [hindex]; rfl⟩

/-- The loop frees slots and entries, but no storage. -/
theorem matchLoop_storage {s : EngineState} (hs : Sound hash s.orderBook) {order : NewOrder}
    {fuel : ℕ} (hfuel : (resting s.orderBook (!isBid order)).length < fuel) (host : Host)
    (remaining : UInt64) :
    SameStorage s.orderBook (matchLoop hash host order fuel remaining s).2.orderBook := by
  refine matchLoop_rule (motive := fun _ s result =>
    SameStorage s.orderBook result.2.orderBook) ?_ ?_ ?_ ?_ hs hfuel remaining
  · intro remaining s _ _ _
    exact .refl _
  · intro remaining s l p ps _ _ _ _
    exact .refl _
  · intro remaining s l p ps book' result _ _ _ _ hremoved _ hrest
    exact SameStorage.trans ⟨hremoved.pages, hremoved.pageIndex, hremoved.capacity⟩ hrest
  · intro remaining s l p ps _ _ _ _ _
    exact storage_resized _ _ _ _ _

/-- An insertion leaves one live order more. -/
theorem live_inserted {l : LevelPtr} {p : OrderPtr} {order : Order}
    (hi : Inserted hash book book' queues l p order) :
    book'.orderPool.liveOrderCount.toNat = (restingOrders book queues).length + 1 := by
  have hperm := restingOrders_perm_cons queues hi.lt
    (List.perm_append_singleton p (queues l))
  rw [Function.update_eq_self] at hperm
  rw [hi.synced.pool.count, restingOrders_grid hi.grid, hperm.length_eq, List.length_cons]

/-- With room for the order that it leaves, an insertion that returns asks the host for
nothing. -/
theorem insertOrder_roomy (hs : Sound hash book) (hroom : HasRoom n book) (hn : n ≤ 2 ^ 53)
    {host : Host} {order : Order} {p : OrderPtr}
    (hrun : insertOrder hash host order book = (.returns p, book'))
    (hlive : book'.orderPool.liveOrderCount.toNat ≤ n) (host' : Host) :
    insertOrder hash host' order book = (.returns p, book') ∧ SameStorage book book' := by
  obtain ⟨hinsertable, l, q, hinserted⟩ := insertOrder_returns hs.synced hrun
  rw [live_inserted hinserted] at hlive
  have hlive' : (restingOrders book (fifo book)).length <
      SlotsPerPage * book.orderPool.pages.size :=
    Nat.lt_of_lt_of_le hlive hroom.pages
  have hfirst := first_of_room (s := ⟨book.orderPool, book.memory⟩) hs.synced.pool hlive'
  exact insertOrder_settled hs.synced hinsertable hfirst
    (request_of_room hs.synced (by omega) hn hroom.slots) hrun host'

end Room

section Events

variable {hash : OrderId → UInt64} {host : Host} {s s' : EngineState} {n count : ℕ}

theorem matchOrder_roomy (hs : Sound hash s.orderBook) (hroom : HasRoom n s.orderBook)
    (hn : n ≤ 2 ^ 53) {order : NewOrder} (hrun : matchOrder hash host order s = (.returns (), s'))
    (hlive : s'.orderBook.orderPool.liveOrderCount.toNat ≤ n) :
    SameStorage s.orderBook s'.orderBook ∧ ∀ host' : Host, host'.buffer = host.buffer →
      matchOrder hash host' order s = (.returns (), s') := by
  obtain ⟨haccepted, left, t, hloop, hends⟩ := matchOrder_returns hs hrun
  have hfuel := length_resting_le hs (!isBid order)
  have hlooped : SameStorage s.orderBook t.orderBook := by
    have hstorage := matchLoop_storage (s := numbered s) hs hfuel host order.quantity
    rwa [hloop] at hstorage
  have hloop' : ∀ host' : Host, host'.buffer = host.buffer →
      matchLoop hash host' order (s.orderBook.orderPool.liveOrderCount.toNat + 1) order.quantity
        (numbered s) = (.returns left, t) := by
    intro host' hbuffer
    rw [matchLoop_host hbuffer, hloop]
  rcases hends with ⟨hdone, rfl⟩ | ⟨hrests, p, book, rfl, hinsert⟩
  · refine ⟨hlooped, fun host' hbuffer => ?_⟩
    rw [matchOrder_accepted hs host' haccepted, Proc.bind_returns _ (hloop' host' hbuffer),
      if_neg hdone]
    rfl
  · have ht : Sound hash t.orderBook := (matchLoop_returns hs haccepted.valid hloop).2.sound
    have hsettled := insertOrder_roomy ht (hroom.of_storage hlooped) hn hinsert hlive
    refine ⟨hlooped.trans (hsettled host).2, fun host' hbuffer => ?_⟩
    rw [matchOrder_accepted hs host' haccepted, Proc.bind_returns _ (hloop' host' hbuffer),
      if_pos hrests, Proc.bind_returns _ (MatchingRounds.onBook_run (hsettled host').1)]
    rfl

/-- With room for the orders that it leaves live, an event asks for no storage. -/
theorem processEvent_roomy (hs : Sound hash s.orderBook) (hroom : HasRoom n s.orderBook)
    (hn : n ≤ 2 ^ 53) {event : OrderEvent}
    (hrun : processEvent hash host event s = (.returns count, s'))
    (hlive : s'.orderBook.orderPool.liveOrderCount.toNat ≤ n) :
    SameStorage s.orderBook s'.orderBook ∧ ∀ host' : Host, host'.buffer = host.buffer →
      processEvent hash host' event s = (.returns count, s') := by
  cases event with
  | new order =>
    have hmatch := matchOrder_of_event hrun
    obtain ⟨hstorage, hhost⟩ := matchOrder_roomy (s := emptied s) hs hroom hn hmatch hlive
    refine ⟨hstorage, fun host' hbuffer => ?_⟩
    rw [processEvent_new (hhost host' hbuffer), ← hrun, processEvent_new hmatch]
  | cancel order =>
    refine ⟨?_, fun host' _ => hrun⟩
    have hends := processEvent_ends hs host (.cancel order)
    rw [hrun] at hends
    cases hends with
    | cancelAbsent => exact .refl _
    | cancelled _ _ _ hremoved => exact ⟨hremoved.pages, hremoved.pageIndex, hremoved.capacity⟩
  | reduce reduction =>
    refine ⟨?_, fun host' _ => hrun⟩
    have hends := processEvent_ends hs host (.reduce reduction)
    rw [hrun] at hends
    cases hends with
    | reduceAbsent => exact .refl _
    | reduceSame => exact .refl _
    | reduced => exact storage_resized _ _ _ _ _

/-- The event asks for no memory but room in the buffer of the executions. -/
structure Unasked (step : Returned hash) : Prop where
  storage : SameStorage step.before.orderBook step.after.orderBook
  host : ∀ host : Host, host.buffer = step.host.buffer →
    processEvent hash host step.event step.before = (.returns step.count, step.after)

/-- A run that leaves no more than `n` orders live works in the storage that it starts with. -/
theorem run_unasked {steps : List (Returned hash)} (hrun : Run hash s steps s')
    (hs : Sound hash s.orderBook) (hroom : HasRoom n s.orderBook) (hn : n ≤ 2 ^ 53)
    (hlive : ∀ step ∈ steps, step.after.orderBook.orderPool.liveOrderCount.toNat ≤ n) :
    ∀ step ∈ steps, Unasked step ∧ SameStorage s.orderBook step.after.orderBook := by
  induction steps generalizing s with
  | nil => simp
  | cons step steps ih =>
    obtain ⟨hbefore, hrest⟩ := run_cons hrun
    rw [← hbefore] at hs hroom ⊢
    obtain ⟨hstorage, hhost⟩ := processEvent_roomy hs hroom hn step.run
      (hlive step (List.mem_cons_self ..))
    have hsteps := ih hrest ((Returned.ends hs).sound hs) (hroom.of_storage hstorage)
      fun later hlater => hlive later (List.mem_cons_of_mem _ hlater)
    intro other hother
    rcases List.mem_cons.mp hother with rfl | hlater
    · exact ⟨⟨hstorage, hhost⟩, hstorage⟩
    · exact ⟨(hsteps other hlater).1, hstorage.trans (hsteps other hlater).2⟩

end Events

/-- The orders with their links, the levels, the best prices and the lookups are the same. -/
structure Untouched (hash : OrderId → UInt64) (book book' : OrderBook) : Prop where
  memory : book'.memory = book.memory
  queues : fifo book' = fifo book
  level : book'.level = book.level
  bestBid : book'.getBestBid = book.getBestBid
  bestAsk : book'.getBestAsk = book.getBestAsk
  live : book'.orderPool.liveOrderCount = book.orderPool.liveOrderCount
  found : ∀ id, (findOrder hash id book').1 = (findOrder hash id book).1

section Reservation

variable {hash : OrderId → UInt64} {book book' : OrderBook} {s : EngineState} {host : Host}
  {orderCount : UInt64}

/-- A reservation that returns has made room for the orders. -/
theorem hasRoom_reserved (hs : Sound hash book) (hn : orderCount.toNat ≤ 2 ^ 53)
    (hrun : reserveOrderCapacity hash host orderCount book = (.returns (), book')) :
    HasRoom orderCount.toNat book' := by
  have hfits : orderCount.toNat + 818 < 2 ^ 64 := by omega
  rcases reservation_cases hs host hfits with
    ⟨e, _, hthrows⟩ | ⟨k, henough, _, ⟨_, e, _, _, hthrows⟩ | ⟨t, hreturns, hpages, hslots, _⟩⟩
  · rw [hrun] at hthrows
    simp at hthrows
  · rw [hrun] at hthrows
    simp at hthrows
  · rw [hrun] at hreturns
    obtain ⟨_, rfl⟩ := Prod.mk.inj hreturns
    rw [toDouble_small hn] at henough
    exact ⟨hpages, by rw [hslots]; exact henough⟩

theorem untouched_reserved (hs : Sound hash book) (host : Host) (orderCount : UInt64) :
    Untouched hash book (reserveOrderCapacity hash host orderCount book).2 := by
  obtain ⟨o, pool, index, hrun, hpool, hindex, hmaps⟩ :=
    reserveOrderCapacity_run hs host orderCount
  rw [hrun]
  refine ⟨rfl, rfl, rfl, rfl, rfl, ?_, ?_⟩
  · apply UInt64.toNat_inj.mp
    exact hpool.count.trans hs.synced.pool.count.symm
  · intro id
    exact found_of_maps hs.synced.index hindex fun p => hmaps id p

/-- A reservation is not seen. -/
theorem sameView_reserved (hs : Sound hash book) (host : Host) (orderCount : UInt64) :
    SameView (reserveOrderCapacity hash host orderCount book).2 book := by
  obtain ⟨o, pool, index, hrun, _⟩ := reserveOrderCapacity_run hs host orderCount
  rw [hrun]
  exact ⟨.refl book, fun _ => rfl, fun _ => rfl⟩

/-- A reservation for up to `2 ^ 53` orders that returns changes nothing that is seen. Later
events that leave no more orders live than that create no page, leave the table of the index
at its size and ask the host for room in their buffer only; and what they execute and leave,
they would have executed and left without the reservation. -/
theorem reserved_capacity (h : Reachable hash AnyCall s) (hn : orderCount.toNat ≤ 2 ^ 53)
    (hrun : reserveOrderCapacity hash host orderCount s.orderBook = (.returns (), book)) :
    Untouched hash s.orderBook book ∧
      ∀ steps s', Run hash { s with orderBook := book } steps s' →
        ((∀ step ∈ steps,
            step.after.orderBook.orderPool.liveOrderCount.toNat ≤ orderCount.toNat) →
          ∀ step ∈ steps, Unasked step ∧ SameStorage book step.after.orderBook) ∧
        Replays steps s := by
  have hs := reachable_sound h
  have huntouched := untouched_reserved hs host orderCount
  have hsound := sound_reserved hs host orderCount
  have hview := sameView_reserved hs host orderCount
  rw [hrun] at huntouched hsound hview
  refine ⟨huntouched, fun steps s' hsteps => ⟨fun hlive => ?_, ?_⟩⟩
  · exact run_unasked hsteps hsound (hasRoom_reserved hs hn hrun) hn hlive
  · exact replays_of_view hsteps hsound hs hview

/-- After a reservation for two orders, two orders rest and a third is executed against one of
them. -/
theorem two_reserved : ∃ (s : EngineState) (book : OrderBook) (steps : List (Returned id)),
    Reachable id AnyCall s ∧
    reserveOrderCapacity id grantingHost 2 s.orderBook = (.returns (), book) ∧
    steps.map (fun step => step.after.out.length) = [0, 0, 1] ∧
    steps.map (fun step => step.after.orderBook.orderPool.liveOrderCount) = [1, 2, 1] ∧
    (∀ step ∈ steps, Unasked step ∧ SameStorage book step.after.orderBook) ∧
    Replays steps s := by
  obtain ⟨s, hs, hp⟩ := @exists_reachable id _ _ anyCall_of_removesNone 100 1 2 []
    (fun s => (reserveOrderCapacity id grantingHost 2 s.orderBook).1 = .returns () ∧
      (runEvents id grantingHost
        [.new ⟨1, 100, 10, 5, .sell, .limit⟩, .new ⟨2, 101, 10, 5, .sell, .limit⟩,
          .new ⟨3, 100, 10, 5, .buy, .limit⟩]
        { s with orderBook := (reserveOrderCapacity id grantingHost 2 s.orderBook).2 }).any fun run =>
          run.1.map (fun step => step.after.out.length) = [0, 0, 1] ∧
            run.1.map (fun step => step.after.orderBook.orderPool.liveOrderCount) = [1, 2, 1])
    (by decide +kernel)
  obtain ⟨hreturns, hany⟩ := of_decide_eq_true hp
  have hrun : reserveOrderCapacity id grantingHost 2 s.orderBook = (.returns (),
    (reserveOrderCapacity id grantingHost 2 s.orderBook).2) := Prod.ext hreturns rfl
  generalize (reserveOrderCapacity id grantingHost 2 s.orderBook).2 = book at hrun hany
  obtain ⟨⟨steps, s'⟩, hevents, hcounts⟩ := (Option.any_eq_true _ _).mp hany
  obtain ⟨hout, hlive⟩ := of_decide_eq_true hcounts
  have htwo : (2 : UInt64).toNat ≤ 2 ^ 53 := by decide
  obtain ⟨_, hlater⟩ := reserved_capacity hs htwo hrun
  obtain ⟨hroom, hreplays⟩ := hlater steps s' (run_runEvents hevents)
  refine ⟨s, book, steps, hs, hrun, hout, hlive, hroom ?_, hreplays⟩
  intro step hstep
  have hmem := List.mem_map_of_mem
    (f := fun step : Returned id => step.after.orderBook.orderPool.liveOrderCount) hstep
  rw [hlive] at hmem
  simp only [List.mem_cons, List.not_mem_nil, or_false] at hmem
  rcases hmem with heq | heq | heq <;> simp [heq]

end Reservation

end Leka.ReservedCapacity
