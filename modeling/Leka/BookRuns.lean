import Leka.EventOutcomes

/-!
Runs of calls on one book. The engines on a book and the code that calls the book directly
share it and the static counter; each call has a host of its own, and between two calls
engines on other books can take sequence numbers. A run starts at an empty book over any
memory, with any value of the counter.
-/

namespace Leka.BookRuns

open Procedures Orders IndexAsMap OrderPools PoolAsSet PriceLevels PriceLadders OrderBooks
  MatchingEngines Buckets SyncedBooks BookRemovals BookInsertions RestingOrders EventOutcomes

inductive Call where
  | addOrder (host : Host) (orderId : OrderId) (price : Price) (quantity : Quantity)
      (timestamp : Timestamp) (orderSide : OrderSide) (orderType : Orders.OrderType)
      (sequenceNumber : SequenceNumber)
  | addRestingRemainder (host : Host) (orderId : OrderId) (price : Price)
      (originalQuantity remainingQuantity : Quantity) (timestamp : Timestamp)
      (orderSide : OrderSide) (orderType : Orders.OrderType) (sequenceNumber : SequenceNumber)
  | cancelOrder (orderId : OrderId)
  | reduceOrder (orderId : OrderId) (newQuantity : Quantity)
  | removeOrder (order : OrderPtr)
  | reserveOrderCapacity (host : Host) (orderCount : UInt64)
  | processEvent (host : Host) (event : OrderEvent)
  | processOrder (host : Host) (order : NewOrder)

/-- Runs a call for its effect. -/
def Call.run (hash : OrderId → UInt64) : Call → EngineProc Unit
  | .addOrder host orderId price quantity timestamp orderSide orderType sequenceNumber => do
    let _ ← onBook (OrderBooks.addOrder hash host orderId price quantity timestamp orderSide
      orderType sequenceNumber)
  | .addRestingRemainder host orderId price originalQuantity remainingQuantity timestamp orderSide
      orderType sequenceNumber => do
    let _ ← onBook (OrderBooks.addRestingRemainder hash host orderId price originalQuantity
      remainingQuantity timestamp orderSide orderType sequenceNumber)
  | .cancelOrder orderId => do
    let _ ← onBook (OrderBooks.cancelOrder hash orderId)
  | .reduceOrder orderId newQuantity => do
    let _ ← onBook (OrderBooks.reduceOrder hash orderId newQuantity)
  | .removeOrder order => onBook (OrderBooks.removeOrder hash order)
  | .reserveOrderCapacity host orderCount =>
    onBook (OrderBooks.reserveOrderCapacity hash host orderCount)
  | .processEvent host event => do
    let _ ← MatchingEngines.processEvent hash host event
  | .processOrder host order => do
    let _ ← MatchingEngines.processOrder hash host order

/-- The states of the runs from an empty book in which every call is permitted. A call that
never ends has no state after it. -/
inductive Reachable (hash : OrderId → UInt64) (permits : EngineState → Call → Prop) :
    EngineState → Prop
  | start {memory : Memory} {minPrice tickSize : Price} {levelCount : UInt64} {book : OrderBook}
      (hmake : OrderBook.make memory minPrice tickSize levelCount = .ok book)
      (counter : UInt64) (out : List Execution) : Reachable hash permits ⟨counter, book, out⟩
  | elsewhere {s : EngineState} (h : Reachable hash permits s) {counter : UInt64}
      (hle : s.currentSequence ≤ counter) :
      Reachable hash permits { s with currentSequence := counter }
  | call {s s' : EngineState} (h : Reachable hash permits s) {c : Call} (hpermits : permits s c)
      {o : Outcome StdException Unit} (hrun : c.run hash s = (o, s')) (hends : o ≠ .diverges) :
      Reachable hash permits s'

/-- Every call is permitted, but only a live order may be removed by its address. -/
def AnyCall (s : EngineState) : Call → Prop
  | .removeOrder order => Live s.orderBook.orderPool order
  | _ => True

/-- Only events are processed. -/
def EventsOnly (_ : EngineState) : Call → Prop
  | .processEvent _ _ => True
  | .processOrder _ _ => True
  | _ => False

theorem EventsOnly.anyCall {s : EngineState} {c : Call} (h : EventsOnly s c) : AnyCall s c := by
  cases c with
  | removeOrder order => exact absurd h id
  | _ => trivial

theorem Reachable.mono {hash : OrderId → UInt64} {permits permits' : EngineState → Call → Prop}
    (himp : ∀ s c, permits s c → permits' s c) {s : EngineState}
    (h : Reachable hash permits s) : Reachable hash permits' s := by
  induction h with
  | start hmake counter out => exact Reachable.start hmake counter out
  | elsewhere _ hle ih => exact Reachable.elsewhere ih hle
  | call _ hpermits hrun hends ih => exact Reachable.call ih (himp _ _ hpermits) hrun hends

section ConcreteRuns

/-- Runs the calls, as long as each passes the check and ends. -/
def runCalls (hash : OrderId → UInt64) (check : EngineState → Call → Bool) :
    List Call → EngineState → Option EngineState
  | [], s => some s
  | c :: cs, s =>
    if check s c then
      match c.run hash s with
      | (.diverges, _) => none
      | (_, s') => runCalls hash check cs s'
    else none

/-- Runs the calls on an empty book over blank memory. -/
def runFromEmpty (hash : OrderId → UInt64) (check : EngineState → Call → Bool)
    (minPrice tickSize : Price) (levelCount : UInt64) (cs : List Call) : Option EngineState :=
  let blank : Order := {
    orderId := 0, price := 0, originalQuantity := 0, remainingQuantity := 0, timestamp := 0
    orderSide := .buy, orderType := .limit, sequenceNumber := 0 }
  match OrderBook.make (fun _ => blank) minPrice tickSize levelCount with
  | .error _ => none
  | .ok book => runCalls hash check cs ⟨0, book, []⟩

/-- A host that grants everything; the first page of a pool is mapped at `PageSize`. -/
def grantingHost : Host where
  systemPageSize := 4096
  mmap := fun pages => if pages = 0 then some ⟨65536, by decide, by decide⟩ else none
  heap := fun _ => true
  slots := fun _ => true
  buffer := fun _ => true

variable {hash : OrderId → UInt64} {permits : EngineState → Call → Prop}
  {check : EngineState → Call → Bool}

theorem reachable_runCalls (hcheck : ∀ s c, check s c = true → permits s c) {cs : List Call}
    {s s' : EngineState} (h : Reachable hash permits s)
    (hrun : runCalls hash check cs s = some s') : Reachable hash permits s' := by
  induction cs generalizing s with
  | nil =>
    rw [runCalls, Option.some.injEq] at hrun
    exact hrun ▸ h
  | cons c cs ih =>
    rw [runCalls] at hrun
    split_ifs at hrun with hpermits
    generalize hcall : c.run hash s = result at hrun
    obtain ⟨o, t⟩ := result
    cases o with
    | diverges => simp at hrun
    | returns _ => exact ih (h.call (hcheck s c hpermits) hcall (by simp)) hrun
    | throws e => exact ih (h.call (hcheck s c hpermits) hcall (by simp)) hrun

/-- A concrete run reaches its final state. -/
theorem exists_reachable (hcheck : ∀ s c, check s c = true → permits s c)
    (minPrice tickSize : Price) (levelCount : UInt64) (cs : List Call) (p : EngineState → Bool)
    (hp : (runFromEmpty hash check minPrice tickSize levelCount cs).any p = true) :
    ∃ s, Reachable hash permits s ∧ p s = true := by
  obtain ⟨s, hrun, hs⟩ := (Option.any_eq_true _ _).mp hp
  simp only [runFromEmpty] at hrun
  split at hrun
  · simp at hrun
  · rename_i book hmake
    exact ⟨s, reachable_runCalls hcheck (Reachable.start hmake 0 []) hrun, hs⟩

end ConcreteRuns

/-- A call that processes an event. -/
def isEvent (_ : EngineState) : Call → Bool
  | .processEvent _ _ => true
  | .processOrder _ _ => true
  | _ => false

theorem eventsOnly_of_isEvent (s : EngineState) (c : Call) (h : isEvent s c = true) :
    EventsOnly s c := by
  cases c with
  | processEvent | processOrder => trivial
  | _ => simp [isEvent] at h

/-- A call that removes no order by its address. -/
def removesNone (_ : EngineState) : Call → Bool
  | .removeOrder _ => false
  | _ => true

theorem anyCall_of_removesNone (s : EngineState) (c : Call) (h : removesNone s c = true) :
    AnyCall s c := by
  cases c with
  | removeOrder order => simp [removesNone] at h
  | _ => trivial

section Soundness

variable {hash : OrderId → UInt64} {book book' : OrderBook} {s s' : EngineState}

/-- The two ladders of an empty book. -/
theorem make_ladders {memory : Memory} {minPrice tickSize : Price} {levelCount : UInt64}
    (hmake : OrderBook.make memory minPrice tickSize levelCount = .ok book) :
    (∀ d, PriceLadder.make minPrice tickSize levelCount d = .ok (book.ladder d)) ∧
      book.orderPool = {} ∧ book.orderIndex = {} := by
  unfold OrderBook.make at hmake
  cases hbids : PriceLadder.make minPrice tickSize levelCount true with
  | error e => simp [hbids] at hmake
  | ok bids =>
    cases hasks : PriceLadder.make minPrice tickSize levelCount false with
    | error e => simp [hbids, hasks] at hmake
    | ok asks =>
      simp only [hbids, hasks, Except.ok.injEq] at hmake
      subst book
      refine ⟨?_, rfl, rfl⟩
      intro d
      cases d with
      | true => exact hbids
      | false => exact hasks

/-- The levels of a new ladder are empty. -/
theorem level_make {minPrice tickSize : Price} {levelCount : UInt64} {d : Bool}
    {ladder : PriceLadder} (hmake : PriceLadder.make minPrice tickSize levelCount d = .ok ladder)
    (i : ℕ) : ladder.level i = { price := (ladder.level i).price } := by
  obtain ⟨hconf, _, _, hempty⟩ := PriceLadder.make_spec hmake
  by_cases hi : i < ladder.levelCount.toNat
  · exact hempty i hi
  · have hout : ladder.level i = { price := 0 } := by
      rw [PriceLadder.level, Array.getD_eq_getD_getElem?,
        Array.getElem?_eq_none (by rw [hconf.levels_size]; omega)]
      rfl
    rw [hout]

/-- The parts of an empty book agree, on empty queues. -/
theorem synced_make {memory : Memory} {minPrice tickSize : Price} {levelCount : UInt64}
    (hmake : OrderBook.make memory minPrice tickSize levelCount = .ok book) :
    Synced hash book fun _ => [] := by
  obtain ⟨hladders, hpool, hindex⟩ := make_ladders hmake
  have hspec := fun d => PriceLadder.make_spec (hladders d)
  have hnone : restingOrders book (fun _ => []) = [] := by
    simp [restingOrders, sideOrders, gather]
  have hlevels : LevelsOk book fun _ => [] := by
    refine ⟨fun d => (hspec d).1, ?_, fun d => (hspec d).2.1, ?_, ?_, by simp, ?_⟩
    · intro d
      obtain ⟨_, _, _, _, _, hladder⟩ := PriceLadder.make_eq_ok (hladders d)
      rw [hladder]
    · intro l
      have hempty : book.level l = { price := (book.level l).price } :=
        level_make (hladders l.descending) l.index
      apply represents_nil <;> rw [hempty]
    · intro l
      rw [(hspec l.descending).2.2.1]
      simp
    · intro l
      simp [remainingSum]
  refine ⟨hlevels, ?_, ?_, ?_⟩
  · rw [hindex]
    exact indexOk_empty hash
  · intro id p
    rw [hindex]
    simp [not_maps_empty]
  · rw [hpool, hnone]
    exact poolOk_empty

theorem sound_make {memory : Memory} {minPrice tickSize : Price} {levelCount : UInt64}
    (hmake : OrderBook.make memory minPrice tickSize levelCount = .ok book) : Sound hash book :=
  sound_of_synced (synced_make hmake) (by simp [Positive])

theorem fifo_make {memory : Memory} {minPrice tickSize : Price} {levelCount : UInt64}
    (hmake : OrderBook.make memory minPrice tickSize levelCount = .ok book) :
    fifo book = fun _ => [] :=
  fifo_eq (@synced_make (fun _ => 0) _ _ _ _ _ hmake).toLevelsOk

theorem resting_make {memory : Memory} {minPrice tickSize : Price} {levelCount : UInt64}
    (hmake : OrderBook.make memory minPrice tickSize levelCount = .ok book) (d : Bool) :
    resting book d = [] := by
  simp [resting, fifo_make hmake, sideOrders, gather]

/-- A pool and an index that store the same orders will do. -/
theorem synced_restored {queues : Queues} (h : Synced hash book queues) {pool : OrderPool}
    {index : OrderIndexing.OrderIndex} (hpool : PoolOk pool (restingOrders book queues))
    (hindex : IndexOk hash index)
    (hmaps : ∀ id p, Maps index id p ↔ Maps book.orderIndex id p) :
    Synced hash { book with orderPool := pool, orderIndex := index } queues where
  toLevelsOk := h.toLevelsOk.frame rfl rfl fun _ _ _ => rfl
  index := hindex
  indexed id p := by
    rw [hmaps]
    exact h.indexed id p
  pool := hpool

/-- A reservation that is not refused a page goes on with the index. -/
theorem reserveOrderCapacity_split (hs : Sound hash book) (host : Host) (orderCount : UInt64) :
    ∃ pool, PoolOk pool (restingOrders book (fifo book)) ∧
      ((∃ e, OrderPools.reserve host orderCount ⟨book.orderPool, book.memory⟩ =
            (.throws e, ⟨pool, book.memory⟩) ∧
          reserveOrderCapacity hash host orderCount book =
            (.throws e, { book with orderPool := pool })) ∨
        (OrderPools.reserve host orderCount ⟨book.orderPool, book.memory⟩ =
            (.returns (), ⟨pool, book.memory⟩) ∧
          pagesFor orderCount ≤ pool.pages.size ∧
          reserveOrderCapacity hash host orderCount book =
            ((OrderIndexing.reserve hash host.slots orderCount book.orderIndex).1,
              { book with
                orderPool := pool
                orderIndex :=
                  (OrderIndexing.reserve hash host.slots orderCount book.orderIndex).2 }))) := by
  obtain ⟨o, pool, hrun, hpool, hends, hsize⟩ :=
    @PoolAsSet.reserve_spec host ⟨book.orderPool, book.memory⟩ _ hs.synced.pool orderCount
  have hrun' : onPool (OrderPools.reserve host orderCount) book =
      (o, { book with orderPool := pool }) := onPool_run hrun
  refine ⟨pool, hpool, ?_⟩
  unfold reserveOrderCapacity
  cases o with
  | throws e => exact .inl ⟨e, hrun, Proc.bind_throws _ hrun'⟩
  | diverges => exact absurd rfl hends
  | returns _ =>
    rw [Proc.bind_returns _ hrun']
    exact .inr ⟨hrun, hsize rfl, onIndex_run rfl⟩

/-- However a reservation ends, it has only replaced the pool by one with the same orders and
the index by one with the same entries. -/
theorem reserveOrderCapacity_run (hs : Sound hash book) (host : Host) (orderCount : UInt64) :
    ∃ o pool index, reserveOrderCapacity hash host orderCount book =
        (o, { book with orderPool := pool, orderIndex := index }) ∧
      PoolOk pool (restingOrders book (fifo book)) ∧ IndexOk hash index ∧
      ∀ id p, Maps index id p ↔ Maps book.orderIndex id p := by
  obtain ⟨pool, hpool, ⟨e, _, hrun⟩ | ⟨_, _, hrun⟩⟩ :=
    reserveOrderCapacity_split hs host orderCount
  · exact ⟨.throws e, pool, book.orderIndex, hrun, hpool, hs.synced.index, fun _ _ => Iff.rfl⟩
  · obtain ⟨hindex, hmaps, _⟩ :=
      @IndexAsMap.reserve_spec hash _ _ _ hs.synced.index host.slots orderCount rfl
    exact ⟨_, pool, _, hrun, hpool, hindex, hmaps⟩

/-- A reservation changes no resting order, however it ends. -/
theorem sound_reserved (hs : Sound hash book) (host : Host) (orderCount : UInt64) :
    Sound hash (reserveOrderCapacity hash host orderCount book).2 := by
  obtain ⟨o, pool, index, hrun, hpool, hindex, hmaps⟩ :=
    reserveOrderCapacity_run hs host orderCount
  rw [hrun]
  exact sound_of_synced (synced_restored hs.synced hpool hindex hmaps) hs.positive

theorem sound_inserted (hs : Sound hash book) (host : Host) (order : Order) :
    Sound hash (insertOrder hash host order book).2 := by
  rcases insertOrder_run hs.synced host order with
    ⟨hinsertable, book', l, p, hrun, hinserted⟩ | ⟨_, e, book', hrun, hrejected⟩
  · rw [hrun]
    exact sound_of_synced hinserted.synced
      (positive_inserted hs.positive hinsertable.remaining hinserted)
  · rw [hrun]
    exact sound_of_synced hrejected.synced (positive_rejected hs.positive hrejected)

theorem sound_cancelOrder (hs : Sound hash book) (id : OrderId) :
    Sound hash (cancelOrder hash id book).2 := by
  rcases cancelOrder_run hs.synced id with ⟨_, hrun⟩ | ⟨l, p, book', hp, _, hrun, hremoved⟩
  · rw [hrun]
    exact hs
  · rw [hrun]
    exact sound_removed hs hp hremoved

theorem sound_reduceOrder (hs : Sound hash book) (id : OrderId) (quantity : Quantity) :
    Sound hash (reduceOrder hash id quantity book).2 := by
  rcases reduceOrder_run hs.synced id quantity with ⟨_, hrun⟩ |
    ⟨l, p, hp, _, ⟨_, hrun⟩ | ⟨_, _, hrun⟩ | ⟨hpositive, hlt, hrun⟩⟩
  · rw [hrun]
    exact hs
  · rw [hrun]
    exact hs
  · rw [hrun]
    exact hs
  · rw [hrun]
    exact sound_resized hs hp hpositive (UInt64.le_of_lt hlt)

theorem sound_removeOrder (hs : Sound hash book) {p : OrderPtr} (hlive : Live book.orderPool p) :
    Sound hash (removeOrder hash p book).2 := by
  obtain ⟨l, hp⟩ := hs.synced.toLevelsOk.mem_restingOrders.mp ((hs.synced.pool.stored p).mpr hlive)
  obtain ⟨book', hrun, hremoved⟩ := removeOrder_run hs.synced hp
  rw [hrun]
  exact sound_removed hs hp hremoved

theorem sound_processEvent (hs : Sound hash s.orderBook) (host : Host) (event : OrderEvent) :
    Sound hash (processEvent hash host event s).2.orderBook :=
  EventEnds.sound hs (processEvent_ends hs host event)

/-- The state after a call run for its effect. -/
theorem discard_state {α : Type} (x : EngineProc α) (s : EngineState) :
    ((do let _ ← x : EngineProc Unit) s).2 = (x s).2 := by
  change ((x >>= fun _ => pure ()) s).2 = (x s).2
  rw [Proc.bind_apply]
  split <;> simp [*]

theorem onBook_state {α : Type} (x : BookProc α) (s : EngineState) :
    (MatchingEngines.onBook x s).2 = { s with orderBook := (x s.orderBook).2 } := rfl

/-- A call that processes an event has the effect of the event. -/
theorem event_of_call {c : Call} (hevents : EventsOnly s c) {o : Outcome StdException Unit}
    (hrun : c.run hash s = (o, s')) : ∃ host event,
      (c = .processEvent host event ∨ ∃ order, c = .processOrder host order ∧ event = .new order) ∧
      (MatchingEngines.processEvent hash host event s).2 = s' := by
  cases c with
  | processEvent host event =>
    refine ⟨host, event, Or.inl rfl, ?_⟩
    rw [Call.run] at hrun
    rw [← discard_state, hrun]
  | processOrder host order =>
    refine ⟨host, .new order, Or.inr ⟨order, rfl, rfl⟩, ?_⟩
    rw [Call.run] at hrun
    rw [← processOrder_eq, ← discard_state, hrun]
  | _ => exact absurd hevents id

/-- No permitted call breaks the agreement of the parts. -/
theorem sound_run (hs : Sound hash s.orderBook) {c : Call} (hany : AnyCall s c) :
    Sound hash (c.run hash s).2.orderBook := by
  cases c with
  | addOrder host orderId price quantity timestamp orderSide orderType sequenceNumber =>
    rw [Call.run, discard_state, onBook_state]
    exact sound_inserted hs host {
      orderId, price, timestamp, orderSide, orderType, sequenceNumber
      originalQuantity := quantity
      remainingQuantity := quantity }
  | addRestingRemainder host orderId price originalQuantity remainingQuantity timestamp orderSide
      orderType sequenceNumber =>
    rw [Call.run, discard_state, onBook_state]
    exact sound_inserted hs host {
      orderId, price, originalQuantity, remainingQuantity, timestamp, orderSide, orderType
      sequenceNumber := sequenceNumber }
  | cancelOrder orderId =>
    rw [Call.run, discard_state, onBook_state]
    exact sound_cancelOrder hs orderId
  | reduceOrder orderId newQuantity =>
    rw [Call.run, discard_state, onBook_state]
    exact sound_reduceOrder hs orderId newQuantity
  | removeOrder order =>
    rw [Call.run, onBook_state]
    exact sound_removeOrder hs hany
  | reserveOrderCapacity host orderCount =>
    rw [Call.run, onBook_state]
    exact sound_reserved hs host orderCount
  | processEvent host event =>
    rw [Call.run, discard_state]
    exact sound_processEvent hs host event
  | processOrder host order =>
    rw [Call.run, discard_state]
    exact sound_processEvent hs host (.new order)

/-- The parts of the book agree in every reachable state. -/
theorem reachable_sound (h : Reachable hash AnyCall s) : Sound hash s.orderBook := by
  induction h with
  | start hmake counter out => exact sound_make hmake
  | elsewhere _ _ ih => exact ih
  | call _ hpermits hrun _ ih =>
    have hsound := sound_run ih hpermits
    rw [hrun] at hsound
    exact hsound

end Soundness

end Leka.BookRuns
