import Leka.MatcherRefinement

/-!
Where the quantity of an order goes. Every incoming order opens a ledger of its own: what it
executes on arrival, what is discarded, what it executes while it rests, what reductions and
a cancellation take from it, and what is left. Each later event moves quantity from one
entry of the ledger to another, so the entries always add up to the submitted quantity.
-/

namespace Leka.QuantityLedgers

open Procedures Orders OrderPools PoolAsSet OrderBooks MatchingEngines SyncedBooks BookRemovals
  RestingOrders ReferenceMatchers Sweeps MatchingRounds EventOutcomes MatcherRefinement BookRuns

/-- What remains of the listed orders with the id. -/
def quantityIn (id : OrderId) (orders : List Resting) : ℕ :=
  ((orders.filter fun order => order.orderId = id).map Resting.remainingQuantity).sum

def quantityOf (id : OrderId) (book : Book) : ℕ :=
  quantityIn id (book.side true) + quantityIn id (book.side false)

/-- What the trades take from the resting order with the id. -/
def tradedFrom (id : OrderId) (trades : List Trade) : ℕ :=
  ((trades.filter fun trade => trade.restingOrderId = id).map Trade.quantity).sum

section Reference

variable {id : OrderId} {order : NewOrder} {book : Book}

theorem quantityIn_nil (orders : List Resting) (h : ∀ r ∈ orders, r.orderId ≠ id) :
    quantityIn id orders = 0 := by
  have hnone : (orders.filter fun order => order.orderId = id) = [] := by
    rw [List.filter_eq_nil_iff]
    intro r hr
    simpa using h r hr
  rw [quantityIn, hnone]
  rfl

theorem quantityIn_perm {xs ys : List Resting} (h : xs.Perm ys) :
    quantityIn id xs = quantityIn id ys :=
  ((h.filter _).map _).sum_eq

theorem quantityIn_cons (r : Resting) (orders : List Resting) : quantityIn id (r :: orders) =
    (if r.orderId = id then r.remainingQuantity else 0) + quantityIn id orders := by
  by_cases h : r.orderId = id <;> simp [quantityIn, h]

/-- The two sides in either order. -/
theorem quantityOf_sides (d : Bool) :
    quantityOf id book = quantityIn id (book.side d) + quantityIn id (book.side !d) := by
  cases d
  · exact Nat.add_comm _ _
  · rfl

theorem tradedFrom_fills (fills : List (Resting × ℕ)) :
    tradedFrom id (fills.map (tradeWith order)) =
      ((fills.filter fun fill => fill.1.orderId = id).map Prod.snd).sum := by
  rw [tradedFrom, List.filter_map, List.map_map]
  rfl

/-- A sweep moves quantity from the opposite side to the trades. -/
theorem quantityIn_fill (id : OrderId) (order : NewOrder) (demand : ℕ) (orders : List Resting) :
    quantityIn id orders = quantityIn id (fill order demand orders).rest +
      tradedFrom id ((fill order demand orders).fills.map (tradeWith order)) := by
  rw [tradedFrom_fills]
  have hkeep : ∀ (r : Resting) n,
      decide ((r.withRemaining n).orderId = id) = decide (r.orderId = id) := fun _ _ => rfl
  have hresized : ∀ (r : Resting) n, (r.withRemaining n).remainingQuantity = n := fun _ _ => rfl
  exact sum_taken hkeep hresized demand orders

/-- What is left of a limit order goes to the own side. -/
theorem side_submit (order : NewOrder) (book : Book) :
    (submit order book).2.side (isBid order) =
      if order.orderType = .limit ∧
          (fill order order.quantity.toNat (book.side !isBid order)).left ≠ 0 then
        enqueue (isBid order) (remainder order (book.lastSequence + 1)
          (fill order order.quantity.toNat (book.side !isBid order)).left) (book.side (isBid order))
      else book.side (isBid order) := by
  simp only [submit]
  split_ifs <;> cases isBid order <;> rfl

/-- The own side gains what is left of a limit order. -/
theorem side_submit_own : quantityIn id ((submit order book).2.side (isBid order)) =
    (if order.orderType = .limit ∧
        (fill order order.quantity.toNat (book.side !isBid order)).left ≠ 0 then
      if order.orderId = id then
        (fill order order.quantity.toNat (book.side !isBid order)).left
      else 0
    else 0) + quantityIn id (book.side (isBid order)) := by
  rw [side_submit]
  by_cases hrests : order.orderType = .limit ∧
      (fill order order.quantity.toNat (book.side !isBid order)).left ≠ 0
  · rw [if_pos hrests, if_pos hrests, quantityIn_perm (enqueue_perm _ _ _), quantityIn_cons]
    rfl
  · rw [if_neg hrests, if_neg hrests, Nat.zero_add]

theorem side_submit_opposite : (submit order book).2.side (!isBid order) =
    (fill order order.quantity.toNat (book.side !isBid order)).rest := by
  simp only [submit]
  split_ifs <;> cases isBid order <;> rfl

/-- The order with the id only loses what trades take from it. -/
theorem quantityOf_submit (hne : order.orderId ≠ id) : quantityOf id book =
    quantityOf id (submit order book).2 + tradedFrom id (submit order book).1 := by
  have hfill := quantityIn_fill id order order.quantity.toNat (book.side !isBid order)
  rw [quantityOf_sides (isBid order), quantityOf_sides (isBid order), side_submit_own,
    side_submit_opposite, if_neg hne, ite_self]
  change _ = _ + tradedFrom id ((fill order order.quantity.toNat
    (book.side !isBid order)).fills.map (tradeWith order))
  omega

/-- The submitted quantity is traded or left over, and what is left of a limit order rests. -/
theorem quantity_submit (habsent : ∀ d, ∀ r ∈ book.side d, r.orderId ≠ order.orderId) :
    order.quantity.toNat = ((submit order book).1.map Trade.quantity).sum +
        (fill order order.quantity.toNat (book.side !isBid order)).left ∧
    quantityOf order.orderId (submit order book).2 = if order.orderType = .limit then
      (fill order order.quantity.toNat (book.side !isBid order)).left else 0 := by
  have hfill := quantityIn_fill order.orderId order order.quantity.toNat (book.side !isBid order)
  rw [quantityIn_nil _ (habsent _)] at hfill
  constructor
  · have hsum : ((fill order order.quantity.toNat (book.side !isBid order)).fills.map
        Prod.snd).sum + (fill order order.quantity.toNat (book.side !isBid order)).left =
          order.quantity.toNat := sum_fills _ _
    simp only [submit, List.map_map]
    exact hsum.symm
  · rw [quantityOf_sides (isBid order), side_submit_own, side_submit_opposite, if_pos rfl,
      quantityIn_nil _ (habsent _)]
    have hrest : quantityIn order.orderId
        (fill order order.quantity.toNat (book.side !isBid order)).rest = 0 := by omega
    rw [hrest]
    by_cases htype : order.orderType = .limit
    · by_cases hleft : (fill order order.quantity.toNat (book.side !isBid order)).left = 0
      · simp [hleft]
      · simp [htype, hleft]
    · simp [htype]

theorem quantityOf_cancel_self : quantityOf id (cancel id book) = 0 := by
  have hnone : ∀ d, quantityIn id ((cancel id book).side d) = 0 := by
    intro d
    apply quantityIn_nil
    intro r hr
    cases d <;> exact of_decide_eq_true (List.mem_filter.mp hr).2
  rw [quantityOf, hnone, hnone]

theorem quantityOf_cancel_ne {other : OrderId} (hne : other ≠ id) :
    quantityOf id (cancel other book) = quantityOf id book := by
  have hkeep : ∀ orders : List Resting,
      quantityIn id (orders.filter fun order => order.orderId ≠ other) = quantityIn id orders := by
    intro orders
    rw [quantityIn, quantityIn, List.filter_filter]
    congr 2
    apply List.filter_congr
    intro r _
    by_cases hid : r.orderId = id
    · simp [hid, Ne.symm hne]
    · simp [hid]
  rw [quantityOf, quantityOf]
  exact congrArg₂ (· + ·) (hkeep _) (hkeep _)

theorem quantityOf_reduce_ne {other : OrderId} (hne : other ≠ id) (quantity : ℕ) :
    quantityOf id (reduce other quantity book) = quantityOf id book := by
  have hkeep : ∀ orders : List Resting,
      quantityIn id (orders.map (resizeId other quantity)) = quantityIn id orders := by
    intro orders
    induction orders with
    | nil => rfl
    | cons r rs ih =>
      rw [List.map_cons, quantityIn_cons, quantityIn_cons, ih]
      by_cases hother : r.orderId = other
      · simp [resizeId, hother, Resting.withRemaining, hne]
      · simp [resizeId, hother]
  rw [quantityOf, quantityOf]
  exact congrArg₂ (· + ·) (hkeep _) (hkeep _)

end Reference

/-- What remains of the resting order with the id, zero when none rests. -/
def remainingById (hash : OrderId → UInt64) (s : EngineState) (id : OrderId) : ℕ :=
  match findOrder hash id s.orderBook with
  | (.returns order, _) =>
    if order = nullptr then 0 else (s.orderBook.memory order).remainingQuantity.toNat
  | _ => 0

/-- An event that returned, between the states around it. -/
structure Returned (hash : OrderId → UInt64) where
  host : Host
  event : OrderEvent
  before : EngineState
  after : EngineState
  count : ℕ
  run : processEvent hash host event before = (.returns count, after)

/-- The events of a run in which every event returns. Between two of them engines on other
books can take sequence numbers. -/
inductive Run (hash : OrderId → UInt64) : EngineState → List (Returned hash) → EngineState → Prop
  | done (s : EngineState) : Run hash s [] s
  | elsewhere {s s' : EngineState} {steps : List (Returned hash)} {counter : UInt64}
      (hle : s.currentSequence ≤ counter)
      (h : Run hash { s with currentSequence := counter } steps s') : Run hash s steps s'
  | event {s s' : EngineState} {step : Returned hash} {steps : List (Returned hash)}
      (hbefore : step.before = s) (h : Run hash step.after steps s') :
      Run hash s (step :: steps) s'

section Entries

variable {hash : OrderId → UInt64} (id : OrderId) (step : Returned hash)

def executed : ℕ := (step.after.out.map fun x => x.executionQuantity.toNat).sum

def executedResting : ℕ :=
  ((step.after.out.filter fun x => x.restingOrderId = id).map fun x =>
    x.executionQuantity.toNat).sum

/-- The quantity left at the end of the matching loop, if it is not to rest. -/
def discarded (order : NewOrder) : ℕ :=
  if order.orderType = .market then
    match matchLoop hash step.host order (step.before.orderBook.orderPool.liveOrderCount.toNat + 1)
      order.quantity (numbered (emptied step.before)) with
    | (.returns left, _) => left.toNat
    | _ => 0
  else 0

def reducedBy : ℕ :=
  match step.event with
  | .reduce reduction =>
    if reduction.orderId = id then
      remainingById hash step.before id - reduction.newQuantity.toNat
    else 0
  | _ => 0

def cancelledBy : ℕ :=
  match step.event with
  | .cancel order => if order.orderId = id then remainingById hash step.before id else 0
  | _ => 0

def submits : Bool :=
  match step.event with
  | .new order => order.orderId = id
  | _ => false

end Entries

/-- The events during which the ledger of an id stays open. -/
def openFor {hash : OrderId → UInt64} (id : OrderId) (steps : List (Returned hash)) :
    List (Returned hash) :=
  steps.takeWhile fun step => !submits id step

section Steps

variable {hash : OrderId → UInt64} {s s' : EngineState} {id : OrderId}

theorem remainingById_of_mem (hs : Sound hash s.orderBook) {l : LevelPtr} {p : OrderPtr}
    (hp : p ∈ fifo s.orderBook l) : remainingById hash s (s.orderBook.memory p).orderId =
      (s.orderBook.memory p).remainingQuantity.toNat := by
  rw [remainingById, hs.synced.findOrder_self hp]
  exact if_neg (hs.synced.ne_null hp)

theorem remainingById_of_absent (hs : Sound hash s.orderBook)
    (habsent : ∀ l, ∀ p ∈ fifo s.orderBook l, (s.orderBook.memory p).orderId ≠ id) :
    remainingById hash s id = 0 := by
  obtain ⟨found, hrun, ⟨hnull, _⟩ | ⟨l, hp, hid⟩⟩ := hs.synced.findOrder_run id
  · rw [remainingById, hrun]
    exact if_pos hnull
  · exact absurd hid (habsent l found hp)

/-- The quantities of the two sides, over all resting orders. -/
theorem quantityOf_bookOf (id : OrderId) : quantityOf id (bookOf s) =
    (((restingOrders s.orderBook (fifo s.orderBook)).filter fun p =>
      (s.orderBook.memory p).orderId = id).map (remainingOf s.orderBook.memory)).sum := by
  rw [restingOrders, List.filter_append, List.map_append, List.sum_append, quantityOf]
  have hside : ∀ d, quantityIn id ((bookOf s).side d) =
      (((sideOrders s.orderBook (fifo s.orderBook) d).filter fun p =>
        (s.orderBook.memory p).orderId = id).map (remainingOf s.orderBook.memory)).sum := by
    intro d
    rw [side_bookOf, quantityIn, resting, List.filter_map, List.map_map]
    rfl
  rw [hside, hside]

/-- The lookup and the reading agree on what remains. -/
theorem remainingById_eq (hs : Sound hash s.orderBook) (id : OrderId) :
    remainingById hash s id = quantityOf id (bookOf s) := by
  rw [quantityOf_bookOf]
  by_cases hrests : ∃ l, ∃ p ∈ fifo s.orderBook l, (s.orderBook.memory p).orderId = id
  · obtain ⟨l, p, hp, rfl⟩ := hrests
    have hmem := hs.synced.toLevelsOk.mem_restingOrders.mpr ⟨l, hp⟩
    have honly : (restingOrders s.orderBook (fifo s.orderBook)).filter (fun q =>
        (s.orderBook.memory q).orderId = (s.orderBook.memory p).orderId) = [p] := by
      have hsame : (restingOrders s.orderBook (fifo s.orderBook)).filter (fun q =>
          (s.orderBook.memory q).orderId = (s.orderBook.memory p).orderId) =
          (restingOrders s.orderBook (fifo s.orderBook)).filter (fun q => q == p) := by
        apply List.filter_congr
        intro q hq
        obtain ⟨m, hq⟩ := hs.synced.toLevelsOk.mem_restingOrders.mp hq
        have hiff : (s.orderBook.memory q).orderId = (s.orderBook.memory p).orderId ↔ q = p :=
          ⟨fun hid => hs.synced.id_unique hq hp hid, fun heq => by rw [heq]⟩
        rw [Bool.eq_iff_iff, decide_eq_true_eq, beq_iff_eq]
        exact hiff
      rw [hsame, List.filter_beq, List.count_eq_one_of_mem hs.synced.pool.nodup hmem]
      rfl
    rw [remainingById_of_mem hs hp, honly]
    simp [remainingOf]
  · push Not at hrests
    rw [remainingById_of_absent hs fun l p hp => hrests l p hp]
    have hnone : (restingOrders s.orderBook (fifo s.orderBook)).filter (fun q =>
        (s.orderBook.memory q).orderId = id) = [] := by
      rw [List.filter_eq_nil_iff]
      intro q hq
      obtain ⟨m, hq⟩ := hs.synced.toLevelsOk.mem_restingOrders.mp hq
      simpa using hrests m q hq
    rw [hnone]
    rfl

theorem executedResting_eq (step : Returned hash) :
    executedResting id step = tradedFrom id (step.after.out.map tradeOf) := by
  rw [executedResting, tradedFrom, List.filter_map, List.map_map]
  rfl

/-- A reduction to `quantity` leaves `quantity`. -/
theorem remainingById_resized (hs : Sound hash s.orderBook) {l : LevelPtr} {p : OrderPtr}
    {quantity : Quantity} (hp : p ∈ fifo s.orderBook l) (hpositive : quantity ≠ 0)
    (hle : quantity ≤ (s.orderBook.memory p).remainingQuantity)
    (hafter : s'.orderBook = withTotal (withRemaining s.orderBook p quantity) l
      ((s.orderBook.level l).totalQuantity -
        ((s.orderBook.memory p).remainingQuantity - quantity))) :
    remainingById hash s' (s.orderBook.memory p).orderId = quantity.toNat := by
  have hsound : Sound hash s'.orderBook := by
    rw [hafter]
    exact sound_resized hs hp hpositive hle
  have hp' : p ∈ fifo s'.orderBook l := by
    rw [hafter, fifo_eq (synced_resize hs.synced hp hle).toLevelsOk]
    exact hp
  have hmemory : s'.orderBook.memory p =
      { s.orderBook.memory p with remainingQuantity := quantity } := by
    rw [hafter, (withTotal_frame _ _ _).1, withRemaining_self]
  have hremaining := remainingById_of_mem hsound hp'
  rw [hmemory] at hremaining
  exact hremaining

/-- A reduction takes exactly the difference. -/
theorem reduce_conserves {host : Host} {reduction : ReduceOrder} {n : ℕ}
    (hs : Sound hash s.orderBook)
    (hends : EventEnds hash host s (.reduce reduction) (.returns n, s')) :
    remainingById hash s reduction.orderId =
      remainingById hash s reduction.orderId - reduction.newQuantity.toNat +
        remainingById hash s' reduction.orderId := by
  cases hends with
  | reduceAbsent _ habsent =>
    have hbefore := remainingById_of_absent hs habsent
    have hafter : remainingById hash (emptied s) reduction.orderId = 0 := hbefore
    omega
  | @reduceSame _ l p _ hp horder hquantity =>
    have hbefore := remainingById_of_mem hs hp
    have hafter : remainingById hash (emptied s) reduction.orderId =
      remainingById hash s reduction.orderId := rfl
    rw [horder] at hbefore
    rw [hquantity]
    omega
  | @reduced _ l p _ hp horder hpositive hquantity =>
    have hbefore := remainingById_of_mem hs hp
    have hafter : remainingById hash { emptied s with
        orderBook := withTotal (withRemaining s.orderBook p reduction.newQuantity) l
          ((s.orderBook.level l).totalQuantity -
            ((s.orderBook.memory p).remainingQuantity - reduction.newQuantity)) }
        (s.orderBook.memory p).orderId = reduction.newQuantity.toNat :=
      remainingById_resized hs hp hpositive (UInt64.le_of_lt hquantity) rfl
    rw [horder] at hbefore hafter
    have hlt := UInt64.lt_iff_toNat_lt.mp hquantity
    omega

variable {step : Returned hash}

theorem Returned.ends (hs : Sound hash step.before.orderBook) :
    EventEnds hash step.host step.before step.event (.returns step.count, step.after) := by
  have hends := processEvent_ends hs step.host step.event
  rw [step.run] at hends
  exact hends

/-- An event that does not submit the id only moves quantity out of the order. -/
theorem step_conserves (hs : Sound hash step.before.orderBook) (hother : submits id step = false) :
    remainingById hash step.before id = executedResting id step + reducedBy id step +
      cancelledBy id step + remainingById hash step.after id := by
  have hends := Returned.ends hs
  have hsound := hends.sound hs
  obtain ⟨htrades, _, hbook⟩ := event_refines hs hends
  rw [executedResting_eq, htrades]
  cases hevent : step.event with
  | new order =>
    have hne : order.orderId ≠ id := by
      rw [submits, hevent] at hother
      exact of_decide_eq_false hother
    have hmoved : quantityOf id (bookOf step.before) = _ := quantityOf_submit hne
    rw [remainingById_eq hs, remainingById_eq hsound, hbook, hevent]
    simp only [reducedBy, cancelledBy, hevent]
    change _ = tradedFrom id (submit order _).1 + 0 + 0 + quantityOf id (submit order _).2
    omega
  | cancel order =>
    simp only [reducedBy, cancelledBy, hevent, respond, Nat.add_zero]
    change _ = 0 + _ + _
    by_cases hid : order.orderId = id
    · have hgone : remainingById hash step.after id = 0 := by
        rw [remainingById_eq hsound, hbook, hevent, ← hid]
        exact quantityOf_cancel_self
      rw [if_pos hid, hgone]
      omega
    · have hkept : remainingById hash step.after id = remainingById hash step.before id := by
        rw [remainingById_eq hsound, remainingById_eq hs, hbook, hevent]
        exact quantityOf_cancel_ne hid
      rw [if_neg hid, hkept]
      omega
  | reduce reduction =>
    simp only [reducedBy, cancelledBy, hevent, respond, Nat.add_zero]
    change _ = 0 + _ + _
    by_cases hid : reduction.orderId = id
    · rw [hevent] at hends
      have hmoved := reduce_conserves hs hends
      rw [hid] at hmoved
      rw [if_pos hid]
      omega
    · have hkept : remainingById hash step.after id = remainingById hash step.before id := by
        rw [remainingById_eq hsound, remainingById_eq hs, hbook, hevent]
        exact quantityOf_reduce_ne hid _
      rw [if_neg hid, hkept]
      omega

/-- An incoming order that returned was accepted. -/
theorem accepted_of_returned (hs : Sound hash step.before.orderBook) {order : NewOrder}
    (hevent : step.event = .new order) : Accepted order (emptied step.before) := by
  by_contra hnot
  obtain ⟨e, hrun⟩ := matchOrder_rejected (s := emptied step.before) hs step.host hnot
  have hreturned := step.run
  rw [hevent, processEvent_new hrun] at hreturned
  simp [Outcome.map] at hreturned

theorem absent_of_submits (hs : Sound hash step.before.orderBook)
    (hsubmits : submits id step = true) : remainingById hash step.before id = 0 := by
  cases hevent : step.event with
  | new order =>
    rw [submits, hevent] at hsubmits
    rw [← of_decide_eq_true hsubmits]
    exact remainingById_of_absent hs
      ((absent_iff hs order.orderId).mp (accepted_of_returned hs hevent).absent)
  | cancel order => simp [submits, hevent] at hsubmits
  | reduce reduction => simp [submits, hevent] at hsubmits

/-- The loop of an order that returned leaves what the reference leaves. -/
theorem discarded_eq (hs : Sound hash step.before.orderBook) {order : NewOrder}
    (hevent : step.event = .new order) : discarded step order =
      if order.orderType = .market then (filledBy order step.before).left else 0 := by
  by_cases htype : order.orderType = .market
  swap
  · rw [discarded, if_neg htype, if_neg htype]
  rw [discarded, if_pos htype, if_pos htype]
  have haccepted := accepted_of_returned hs hevent
  have hfilled : fill order order.quantity.toNat
      (resting (numbered (emptied step.before)).orderBook (!isBid order)) =
        filledBy order step.before := rfl
  rcases matchLoop_run (s := numbered (emptied step.before)) hs (testsLimit haccepted.valid)
      (length_resting_le hs _) step.host order.quantity hfilled with
    ⟨left, t, hloop, hleft, _⟩ | ⟨j, t, hloop, _⟩
  · change (match matchLoop hash step.host order
      (step.before.orderBook.orderPool.liveOrderCount.toNat + 1) order.quantity
      (numbered (emptied step.before)) with
      | (.returns left, _) => left.toNat
      | _ => 0) = _
    rw [show matchLoop hash step.host order
      (step.before.orderBook.orderPool.liveOrderCount.toNat + 1) order.quantity
      (numbered (emptied step.before)) = _ from hloop]
    exact hleft
  · have hreturned := step.run
    have hrun : matchOrder hash step.host order (emptied step.before) = (.throws .badAlloc, t) := by
      rw [matchOrder_accepted (s := emptied step.before) hs step.host haccepted]
      exact Proc.bind_throws _ hloop
    rw [hevent, processEvent_new hrun] at hreturned
    simp [Outcome.map] at hreturned

theorem executed_eq (step : Returned hash) :
    executed step = ((step.after.out.map tradeOf).map Trade.quantity).sum := by
  rw [executed, List.map_map]
  rfl

/-- The ledger of an incoming order, right after it. -/
theorem new_conserves (hs : Sound hash step.before.orderBook) {order : NewOrder}
    (hevent : step.event = .new order) : order.quantity.toNat =
      executed step + discarded step order + remainingById hash step.after order.orderId := by
  have hends := Returned.ends hs
  have hsound := hends.sound hs
  obtain ⟨htrades, _, hbook⟩ := event_refines hs hends
  have haccepted := accepted_of_returned hs hevent
  have habsent : ∀ d, ∀ r ∈ (bookOf step.before).side d, r.orderId ≠ order.orderId := by
    intro d
    rw [side_bookOf]
    exact haccepted.absent d
  obtain ⟨htraded, hrests⟩ := quantity_submit habsent
  have hfilled : fill order order.quantity.toNat ((bookOf step.before).side !isBid order) =
      filledBy order step.before := by
    rw [side_bookOf]
    rfl
  rw [hfilled] at htraded hrests
  rw [executed_eq, htrades, discarded_eq hs hevent, remainingById_eq hsound, hbook, hevent]
  change _ = ((submit order _).1.map _).sum + _ + quantityOf _ (submit order _).2
  rw [hrests]
  rcases (valid_fields haccepted.valid).2.2.2.2 with ⟨htype, _⟩ | ⟨htype, _⟩
  · simp only [htype, if_true]
    simpa using htraded
  · simp only [htype, if_true]
    simpa using htraded

/-- Each execution is a fill of a resting order of the other side at its own price. -/
theorem execution_facts (hs : Sound hash step.before.orderBook) {x : Execution}
    (hx : x ∈ step.after.out) : ∃ order l p, step.event = .new order ∧
      x.incomingOrderId = order.orderId ∧ x.executionQuantity ≠ 0 ∧
      l.descending = (!isBid order) ∧ p ∈ fifo step.before.orderBook l ∧
      x.restingOrderId = (step.before.orderBook.memory p).orderId ∧
      x.executionPrice = (step.before.orderBook.memory p).price ∧
      (step.before.orderBook.memory p).orderSide ≠ order.orderSide ∧
      (order.orderType = .limit → noWorse (isBid order) order.price.toNat
        x.executionPrice.toNat = true) := by
  have hends := Returned.ends hs
  obtain ⟨htrades, _, _⟩ := event_refines hs hends
  have htrade := List.mem_map_of_mem (f := tradeOf) hx
  rw [htrades] at htrade
  cases hevent : step.event with
  | cancel order => simp [hevent, respond] at htrade
  | reduce reduction => simp [hevent, respond] at htrade
  | new order =>
    rw [hevent] at htrade
    obtain ⟨taken, htaken, heq⟩ := List.mem_map.mp htrade
    rw [side_bookOf] at htaken
    have hpositive : ∀ r ∈ resting step.before.orderBook (!isBid order),
        0 < r.remainingQuantity := by
      intro r hr
      obtain ⟨p, hp, rfl⟩ := List.mem_map.mp hr
      obtain ⟨i, hp⟩ := (hs.synced.toLevelsOk.mem_sideOrders _).mp hp
      exact Nat.pos_of_ne_zero fun hzero => hs.positive _ p hp (UInt64.toNat_inj.mp hzero)
    obtain ⟨hamount, _, hallows, hresting⟩ := fills_amount hpositive htaken
    obtain ⟨p, hp, hrecord⟩ := List.mem_map.mp hresting
    obtain ⟨i, hp⟩ := (hs.synced.toLevelsOk.mem_sideOrders _).mp hp
    simp only [tradeOf, tradeWith, Trade.mk.injEq, ← hrecord, restingOf] at heq
    obtain ⟨hincoming, hid, hprice, hquantity⟩ := heq
    refine ⟨order, ⟨!isBid order, i⟩, p, rfl, hincoming.symm, ?_, rfl, hp, hid.symm,
      (UInt64.toNat_inj.mp hprice).symm, ?_, ?_⟩
    · intro hzero
      rw [hzero] at hquantity
      exact absurd hquantity (Nat.pos_iff_ne_zero.mp hamount)
    · have hside := (hs.synced.rests _ p hp).side
      rw [hside]
      simp only [isBid]
      by_cases hbuy : order.orderSide = .buy
      · simp [hbuy]
      · simpa [hbuy] using fun h => hbuy h.symm
    · intro htype
      rw [← hprice]
      simpa [allows, htype, ← hrecord, restingOf] using hallows

end Steps

section Runs

variable {hash : OrderId → UInt64} {s s' : EngineState} {id : OrderId}
  {steps steps' : List (Returned hash)}

theorem sound_run (h : Run hash s steps s') (hs : Sound hash s.orderBook) :
    Sound hash s'.orderBook := by
  induction h with
  | done s => exact hs
  | elsewhere _ _ ih => exact ih hs
  | event hbefore _ ih =>
    subst hbefore
    exact ih ((Returned.ends hs).sound hs)

/-- A run can be cut between any two of its events. -/
theorem run_append (h : Run hash s (steps ++ steps') s') :
    ∃ t, Run hash s steps t ∧ Run hash t steps' s' := by
  generalize hall : steps ++ steps' = all at h
  induction h generalizing steps with
  | done s =>
    obtain ⟨rfl, rfl⟩ := List.append_eq_nil_iff.mp hall
    exact ⟨s, Run.done s, Run.done s⟩
  | elsewhere hle _ ih =>
    obtain ⟨t, hfirst, hrest⟩ := ih hall
    exact ⟨t, Run.elsewhere hle hfirst, hrest⟩
  | @event s s' step rest hbefore hrun ih =>
    cases steps with
    | nil =>
      rw [List.nil_append] at hall
      rw [hall]
      exact ⟨s, Run.done s, Run.event hbefore hrun⟩
    | cons first steps =>
      obtain ⟨rfl, htail⟩ := List.cons.inj hall
      obtain ⟨t, hfirst, hrest⟩ := ih htail
      exact ⟨t, Run.event hbefore hfirst, hrest⟩

/-- The first event of a run starts on the book of the run. -/
theorem run_cons {step : Returned hash} (h : Run hash s (step :: steps) s') :
    step.before.orderBook = s.orderBook ∧ Run hash step.after steps s' := by
  generalize hall : step :: steps = all at h
  induction h with
  | done s => simp at hall
  | elsewhere _ _ ih => exact ih hall
  | event hbefore hrun =>
    obtain ⟨rfl, rfl⟩ := List.cons.inj hall
    exact ⟨congrArg EngineState.orderBook hbefore, hrun⟩

theorem run_nil (h : Run hash s [] s') : s'.orderBook = s.orderBook := by
  generalize hall : ([] : List (Returned hash)) = all at h
  induction h with
  | done s => rfl
  | elsewhere _ _ ih => exact ih hall
  | event => simp at hall

theorem remainingById_book (h : s'.orderBook = s.orderBook) (id : OrderId) :
    remainingById hash s' id = remainingById hash s id := by
  rw [remainingById, remainingById, h]

/-- Until the id is submitted again, its quantity only moves within its ledger. -/
theorem run_conserves (h : Run hash s steps s') (hs : Sound hash s.orderBook)
    (hother : ∀ step ∈ steps, submits id step = false) : remainingById hash s id =
      (steps.map (executedResting id)).sum + (steps.map (reducedBy id)).sum +
        (steps.map (cancelledBy id)).sum + remainingById hash s' id := by
  induction h with
  | done s => simp
  | elsewhere _ _ ih => exact ih hs hother
  | @event s s' step steps hbefore hrun ih =>
    subst hbefore
    have hmoved := step_conserves hs (hother step List.mem_cons_self)
    have hrest := ih ((Returned.ends hs).sound hs)
      fun step' hstep' => hother step' (List.mem_cons_of_mem _ hstep')
    simp only [List.map_cons, List.sum_cons]
    omega

/-- The ledger of an id while it is open. When it closes nothing of the order rests. -/
theorem open_conserves (h : Run hash s steps s') (hs : Sound hash s.orderBook) :
    remainingById hash s id =
      ((openFor id steps).map (executedResting id)).sum +
        ((openFor id steps).map (reducedBy id)).sum +
        ((openFor id steps).map (cancelledBy id)).sum +
        if (openFor id steps).length = steps.length then remainingById hash s' id else 0 := by
  have hsplit : openFor id steps ++ steps.dropWhile (fun step => !submits id step) = steps :=
    List.takeWhile_append_dropWhile
  generalize hrest : steps.dropWhile (fun step => !submits id step) = rest at hsplit
  rw [← hsplit] at h
  obtain ⟨t, hopen, hclosed⟩ := run_append h
  have hother : ∀ step ∈ openFor id steps, submits id step = false := by
    intro step hstep
    simpa using List.mem_takeWhile_imp hstep
  have hmoved := run_conserves hopen hs hother
  have hlength := congrArg List.length hsplit
  rw [List.length_append] at hlength
  cases rest with
  | nil =>
    rw [if_pos (by simpa using hlength), remainingById_book (run_nil hclosed)]
    exact hmoved
  | cons next rest =>
    have hsubmits : submits id next = true := by
      have hhead := List.head_dropWhile_not (fun step => !submits id step) (l := steps)
        (by rw [hrest]; simp)
      simp only [hrest, List.head_cons, Bool.not_eq_false'] at hhead
      exact hhead
    obtain ⟨hbook, _⟩ := run_cons hclosed
    have hsound : Sound hash next.before.orderBook := by
      rw [hbook]
      exact sound_run hopen hs
    have hnone := absent_of_submits hsound hsubmits
    rw [remainingById_book hbook] at hnone
    rw [if_neg (by simp only [List.length_cons] at hlength; omega)]
    omega

end Runs

/-- In a run from an empty book in which every event returns, the submitted quantity of each
incoming order is the sum of the entries of its ledger, and every execution is of a positive
quantity, against a resting order of the other side, at that order's limit and no worse than
the incoming limit. -/
theorem quantity_conserved {hash : OrderId → UInt64} {memory : Memory}
    {minPrice tickSize : Price} {levelCount counter : UInt64} {book : OrderBook}
    {out : List Execution} {steps : List (Returned hash)} {s : EngineState}
    (hmake : OrderBook.make memory minPrice tickSize levelCount = .ok book)
    (hrun : Run hash ⟨counter, book, out⟩ steps s) :
    (∀ pre step post order, steps = pre ++ step :: post → step.event = .new order →
      order.quantity.toNat = executed step + discarded step order +
        ((openFor order.orderId post).map (executedResting order.orderId)).sum +
        ((openFor order.orderId post).map (reducedBy order.orderId)).sum +
        ((openFor order.orderId post).map (cancelledBy order.orderId)).sum +
        if (openFor order.orderId post).length = post.length then
          remainingById hash s order.orderId
        else 0) ∧
    ∀ step ∈ steps, ∀ x ∈ step.after.out, ∃ order l p, step.event = .new order ∧
      x.incomingOrderId = order.orderId ∧ x.executionQuantity ≠ 0 ∧
      l.descending = (!isBid order) ∧ p ∈ fifo step.before.orderBook l ∧
      x.restingOrderId = (step.before.orderBook.memory p).orderId ∧
      x.executionPrice = (step.before.orderBook.memory p).price ∧
      (step.before.orderBook.memory p).orderSide ≠ order.orderSide ∧
      (order.orderType = .limit → noWorse (isBid order) order.price.toNat
        x.executionPrice.toNat = true) := by
  have hs : Sound hash book := sound_make hmake
  have hcut : ∀ pre step post, steps = pre ++ step :: post →
      Sound hash step.before.orderBook ∧ Run hash step.after post s := by
    intro pre step post hsplit
    rw [hsplit] at hrun
    obtain ⟨t, hpre, hrest⟩ := run_append hrun
    obtain ⟨hbook, hpost⟩ := run_cons hrest
    refine ⟨?_, hpost⟩
    rw [hbook]
    exact sound_run hpre hs
  constructor
  · intro pre step post order hsplit hevent
    obtain ⟨hsound, hpost⟩ := hcut pre step post hsplit
    have hopened := new_conserves hsound hevent
    have hclosed : remainingById hash step.after order.orderId = _ :=
      open_conserves hpost ((Returned.ends hsound).sound hsound)
    omega
  · intro step hstep x hx
    obtain ⟨pre, post, hsplit⟩ := List.append_of_mem hstep
    exact execution_facts (hcut pre step post hsplit).1 hx

/-- Processes the events as long as each returns. -/
def runEvents (hash : OrderId → UInt64) (host : Host) :
    List OrderEvent → EngineState → Option (List (Returned hash) × EngineState)
  | [], s => some ([], s)
  | event :: events, s =>
    match h : processEvent hash host event s with
    | (.returns n, s') => (runEvents hash host events s').map fun run =>
        (⟨host, event, s, s', n, h⟩ :: run.1, run.2)
    | _ => none

theorem run_runEvents {hash : OrderId → UInt64} {host : Host} {events : List OrderEvent}
    {s s' : EngineState} {steps : List (Returned hash)}
    (h : runEvents hash host events s = some (steps, s')) : Run hash s steps s' := by
  induction events generalizing s steps with
  | nil =>
    simp only [runEvents, Option.some.injEq, Prod.mk.injEq] at h
    obtain ⟨rfl, rfl⟩ := h
    exact Run.done s
  | cons event events ih =>
    rw [runEvents] at h
    split at h
    · obtain ⟨run, hrun, heq⟩ := Option.map_eq_some_iff.mp h
      obtain ⟨rfl, rfl⟩ := Prod.mk.inj heq
      exact Run.event rfl (ih hrun)
    · simp at h

/-- Processes the events on an empty book over blank memory. -/
def runEventsFromEmpty (hash : OrderId → UInt64) (host : Host) (minPrice tickSize : Price)
    (levelCount : UInt64) (events : List OrderEvent) :
    Option (List (Returned hash) × EngineState) :=
  match OrderBook.make (fun _ => ⟨0, 0, 0, 0, 0, .buy, .limit, 0, 0, 0, none⟩)
    minPrice tickSize levelCount with
  | .error _ => none
  | .ok book => runEvents hash host events ⟨0, book, []⟩

theorem exists_run {hash : OrderId → UInt64} {host : Host} (minPrice tickSize : Price)
    (levelCount : UInt64) (events : List OrderEvent)
    (p : List (Returned hash) → Bool)
    (hp : (runEventsFromEmpty hash host minPrice tickSize levelCount events).any
      (fun run => p run.1) = true) :
    ∃ memory book steps s, OrderBook.make memory minPrice tickSize levelCount = .ok book ∧
      Run hash ⟨0, book, []⟩ steps s ∧ p steps = true := by
  obtain ⟨⟨steps, s⟩, hrun, hsteps⟩ := (Option.any_eq_true _ _).mp hp
  rw [runEventsFromEmpty] at hrun
  split at hrun
  · simp at hrun
  · rename_i book hmake
    exact ⟨_, book, steps, s, hmake, run_runEvents hrun, hsteps⟩

/-- An order for 10 is partly filled, reduced and cancelled. -/
theorem quantity_conserved_until_cancelled : ∃ (step : Returned id) (post : List (Returned id)),
    (post.map (executedResting 1)).sum = 4 ∧ (post.map (reducedBy 1)).sum = 1 ∧
      (post.map (cancelledBy 1)).sum = 5 ∧
      ∃ left, 10 = executed step + discarded step ⟨1, 100, 10, 5, .sell, .limit⟩ +
        ((openFor 1 post).map (executedResting 1)).sum +
        ((openFor 1 post).map (reducedBy 1)).sum +
        ((openFor 1 post).map (cancelledBy 1)).sum + left := by
  obtain ⟨memory, book, steps, s, hmake, hrun, hp⟩ := @exists_run id grantingHost 100 1 2
    [.new ⟨1, 100, 10, 5, .sell, .limit⟩, .new ⟨2, 100, 4, 5, .buy, .limit⟩, .reduce ⟨1, 5⟩,
      .cancel ⟨1⟩]
    (fun steps => match steps with
      | [] => false
      | step :: post => step.event = .new ⟨1, 100, 10, 5, .sell, .limit⟩ ∧
        (post.map (executedResting 1)).sum = 4 ∧ (post.map (reducedBy 1)).sum = 1 ∧
          (post.map (cancelledBy 1)).sum = 5)
    (by decide +kernel)
  cases steps with
  | nil => simp at hp
  | cons step post =>
    obtain ⟨hevent, hexecuted, hreduced, hcancelled⟩ := of_decide_eq_true hp
    exact ⟨step, post, hexecuted, hreduced, hcancelled, _,
      (quantity_conserved hmake hrun).1 [] step post _ rfl hevent⟩

end Leka.QuantityLedgers
