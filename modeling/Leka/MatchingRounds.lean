import Leka.MatchingEngines
import Leka.RestingOrders

/-!
The matching loop. One round stops, is refused room in the output buffer, uses up the first
order of the opposite side or shrinks it in place. By induction on that side the whole loop
computes a sweep of it, and leaves the own side and every other part of the book alone.
-/

namespace Leka.MatchingRounds

open Procedures Orders IndexAsMap OrderPools PoolAsSet PriceLevels PriceLadders OrderBooks
  MatchingEngines Buckets SyncedBooks BookRemovals BookInsertions RestingOrders ReferenceMatchers
  Sweeps

def executionOf (order : NewOrder) (resting : Order) (quantity : Quantity) : Execution where
  incomingOrderId := order.orderId
  restingOrderId := resting.orderId
  executionPrice := resting.price
  executionQuantity := quantity

/-- A round meets the order `p`, the first of the opposite side `p :: ps`. -/
structure Meets (order : NewOrder) (book : OrderBook) (queues : Queues) (remaining : UInt64)
    (l : LevelPtr) (p : OrderPtr) (ps : List OrderPtr) : Prop where
  side : l.descending = !isBid order
  mem : p ∈ queues l
  first : sideOrders book queues (!isBid order) = p :: ps
  pending : remaining ≠ 0
  allowed : limitForbids order (book.memory p).price = false

/-- What a round comes to. -/
inductive RoundEnds (hash : OrderId → UInt64) (host : Host) (order : NewOrder)
    (remaining : UInt64) (s : EngineState) (queues : Queues) :
    Outcome StdException (Option UInt64) × EngineState → Prop
  | stops (h : remaining = 0 ∨ sideOrders s.orderBook queues (!isBid order) = [] ∨
      ∃ p ps, sideOrders s.orderBook queues (!isBid order) = p :: ps ∧
        limitForbids order (s.orderBook.memory p).price = true) :
      RoundEnds hash host order remaining s queues (.returns none, s)
  | refused {l : LevelPtr} {p : OrderPtr} {ps : List OrderPtr}
      (hmeets : Meets order s.orderBook queues remaining l p ps)
      (hbuffer : host.buffer s.out.length = false) :
      RoundEnds hash host order remaining s queues (.throws .badAlloc, s)
  | filled {l : LevelPtr} {p : OrderPtr} {ps : List OrderPtr} {book' : OrderBook}
      (hmeets : Meets order s.orderBook queues remaining l p ps)
      (hbuffer : host.buffer s.out.length = true)
      (hle : (s.orderBook.memory p).remainingQuantity ≤ remaining)
      (hremoved : Removed hash (withRemaining s.orderBook p 0) book' queues l p) :
      RoundEnds hash host order remaining s queues
        (.returns (some (remaining - (s.orderBook.memory p).remainingQuantity)),
          { s with
            orderBook := book'
            out := s.out ++ [executionOf order (s.orderBook.memory p)
              (s.orderBook.memory p).remainingQuantity] })
  | partly {l : LevelPtr} {p : OrderPtr} {ps : List OrderPtr}
      (hmeets : Meets order s.orderBook queues remaining l p ps)
      (hbuffer : host.buffer s.out.length = true)
      (hlt : remaining < (s.orderBook.memory p).remainingQuantity) :
      RoundEnds hash host order remaining s queues
        (.returns (some 0),
          { s with
            orderBook := withTotal
              (withRemaining s.orderBook p ((s.orderBook.memory p).remainingQuantity - remaining))
              l ((s.orderBook.level l).totalQuantity - remaining)
            out := s.out ++ [executionOf order (s.orderBook.memory p) remaining] })

section Round

variable {hash : OrderId → UInt64} {host : Host} {order : NewOrder} {remaining : UInt64}
  {s : EngineState} {queues : Queues}

theorem onBook_run {x : BookProc α} {o : Outcome StdException α} {book book' : OrderBook}
    {counter : UInt64} {out : List Execution} (h : x book = (o, book')) :
    MatchingEngines.onBook x ⟨counter, book, out⟩ = (o, ⟨counter, book', out⟩) := by
  simp only [MatchingEngines.onBook, Proc.zoom, h]

theorem best_eq (order : NewOrder) (book : OrderBook) :
    (if order.orderSide = .buy then book.getBestAsk else book.getBestBid) =
      (book.ladder !isBid order).best := by
  by_cases hbuy : order.orderSide = .buy <;>
    simp [isBid, hbuy, OrderBook.ladder, OrderBook.getBestAsk, OrderBook.getBestBid]

theorem reduceRemaining_run {book : OrderBook} {p : OrderPtr} {quantity : Quantity}
    (hle : quantity ≤ (book.memory p).remainingQuantity) :
    onOrder p (Order.reduceRemainingQuantity quantity) book =
      (.returns (), withRemaining book p ((book.memory p).remainingQuantity - quantity)) := by
  apply onOrder_run
  simp only [Order.reduceRemainingQuantity, Proc.get_bind_apply, gt_iff_lt, UInt64.not_lt.mpr hle,
    if_false, Proc.modify_apply]

theorem emplaceBack_run (host : Host) (execution : Execution) (s : EngineState) :
    emplaceBack host execution s =
      if host.buffer s.out.length then (.returns (), { s with out := s.out ++ [execution] })
      else (.throws .badAlloc, s) := by
  simp only [emplaceBack, Proc.get_bind_apply]
  cases host.buffer s.out.length <;> rfl

theorem min_of_ge {a b : UInt64} (h : b ≤ a) : min a b = b := by
  change (if a ≤ b then a else b) = b
  by_cases hab : a ≤ b
  · rw [if_pos hab]
    exact UInt64.le_antisymm hab h
  · rw [if_neg hab]

/-- The part of a round that executes against the order at the head. -/
theorem matchRound_meets (h : Synced hash s.orderBook queues) {l : LevelPtr} {p : OrderPtr}
    {ps : List OrderPtr} (hmeets : Meets order s.orderBook queues remaining l p ps)
    (hbest : (s.orderBook.ladder !isBid order).best = some l)
    (hhead : (s.orderBook.level l).headOrder = p) :
    matchRound hash host order remaining s = (do
      emplaceBack host (executionOf order (s.orderBook.memory p)
        (min remaining (s.orderBook.memory p).remainingQuantity))
      MatchingEngines.onBook (onOrder p (Order.reduceRemainingQuantity
        (min remaining (s.orderBook.memory p).remainingQuantity)))
      let s' ← Proc.get
      if (s'.orderBook.memory p).isFullyFilled then
        MatchingEngines.onBook (removeOrder hash p)
      else
        MatchingEngines.onBook (onLevel l (reduceTotalQuantity
          (min remaining (s.orderBook.memory p).remainingQuantity)))
      return some (remaining - min remaining (s.orderBook.memory p).remainingQuantity) :
        EngineProc (Option UInt64)) s := by
  have hprice : (s.orderBook.level l).price = (s.orderBook.memory p).price :=
    ((h.represents l).price p hmeets.mem).symm
  simp only [matchRound, hmeets.pending, if_false, Proc.get_bind_apply, best_eq, hbest, hprice,
    hmeets.allowed, Bool.false_eq_true, hhead, h.ne_null hmeets.mem, executionOf]

/-- A round against an order that it uses up. -/
theorem matchRound_filled (h : Synced hash s.orderBook queues) {l : LevelPtr} {p : OrderPtr}
    {ps : List OrderPtr} (hmeets : Meets order s.orderBook queues remaining l p ps)
    (hbest : (s.orderBook.ladder !isBid order).best = some l)
    (hhead : (s.orderBook.level l).headOrder = p) (hbuffer : host.buffer s.out.length = true)
    (hle : (s.orderBook.memory p).remainingQuantity ≤ remaining) :
    RoundEnds hash host order remaining s queues (matchRound hash host order remaining s) := by
  have hmin : min remaining (s.orderBook.memory p).remainingQuantity =
      (s.orderBook.memory p).remainingQuantity := min_of_ge hle
  have hshrunk : Synced hash (withRemaining s.orderBook p 0) queues :=
    synced_shrink h (UInt64.le_iff_toNat_le.mpr (Nat.zero_le _))
  obtain ⟨book', hrun, hremoved⟩ := removeOrder_run hshrunk hmeets.mem
  have hreduce := reduceRemaining_run (UInt64.le_refl (s.orderBook.memory p).remainingQuantity)
  rw [UInt64.sub_self] at hreduce
  have hfull : ((withRemaining s.orderBook p 0).memory p).isFullyFilled = true := by
    rw [withRemaining_self]
    rfl
  have hround : matchRound hash host order remaining s =
      (.returns (some (remaining - (s.orderBook.memory p).remainingQuantity)),
        { s with
          orderBook := book'
          out := s.out ++ [executionOf order (s.orderBook.memory p)
            (s.orderBook.memory p).remainingQuantity] }) := by
    rw [matchRound_meets h hmeets hbest hhead, hmin,
      Proc.bind_returns _ ((emplaceBack_run _ _ _).trans (if_pos hbuffer)),
      Proc.bind_returns _ (onBook_run hreduce), Proc.get_bind_apply, if_pos hfull,
      Proc.bind_returns _ (onBook_run hrun)]
    rfl
  rw [hround]
  exact RoundEnds.filled hmeets hbuffer hle hremoved

/-- A round against an order that outlasts it. -/
theorem matchRound_partly (h : Synced hash s.orderBook queues) {l : LevelPtr} {p : OrderPtr}
    {ps : List OrderPtr} (hmeets : Meets order s.orderBook queues remaining l p ps)
    (hbest : (s.orderBook.ladder !isBid order).best = some l)
    (hhead : (s.orderBook.level l).headOrder = p) (hbuffer : host.buffer s.out.length = true)
    (hlt : remaining < (s.orderBook.memory p).remainingQuantity) :
    RoundEnds hash host order remaining s queues (matchRound hash host order remaining s) := by
  have hle := UInt64.le_of_lt hlt
  have hmin : min remaining (s.orderBook.memory p).remainingQuantity = remaining := if_pos hle
  have hreduce := reduceRemaining_run hle
  have hfull : ((withRemaining s.orderBook p
      ((s.orderBook.memory p).remainingQuantity - remaining)).memory p).isFullyFilled ≠ true := by
    rw [withRemaining_self]
    intro hzero
    have hdiff := congrArg UInt64.toNat (beq_iff_eq.mp hzero)
    rw [UInt64.toNat_sub_of_le _ _ hle] at hdiff
    have hnat := UInt64.lt_iff_toNat_lt.mp hlt
    have hzeroNat : (0 : UInt64).toNat = 0 := rfl
    omega
  have htotal : remaining ≤ ((withRemaining s.orderBook p
      ((s.orderBook.memory p).remainingQuantity - remaining)).level l).totalQuantity := by
    have hcovered := remainingOf_le_total h.toLevelsOk hmeets.mem
    have hnat := UInt64.lt_iff_toNat_lt.mp hlt
    rw [UInt64.le_iff_toNat_le]
    exact Nat.le_trans hnat.le hcovered
  have hround : matchRound hash host order remaining s = (.returns (some 0),
      { s with
        orderBook := withTotal
          (withRemaining s.orderBook p ((s.orderBook.memory p).remainingQuantity - remaining))
          l ((s.orderBook.level l).totalQuantity - remaining)
        out := s.out ++ [executionOf order (s.orderBook.memory p) remaining] }) := by
    rw [matchRound_meets h hmeets hbest hhead, hmin,
      Proc.bind_returns _ ((emplaceBack_run _ _ _).trans (if_pos hbuffer)),
      Proc.bind_returns _ (onBook_run hreduce), Proc.get_bind_apply, if_neg hfull,
      Proc.bind_returns _ (onBook_run (reduceTotal_run htotal)), UInt64.sub_self]
    rfl
  rw [hround]
  exact RoundEnds.partly hmeets hbuffer hlt

theorem matchRound_ends (h : Synced hash s.orderBook queues) (host : Host) (order : NewOrder)
    (remaining : UInt64) :
    RoundEnds hash host order remaining s queues (matchRound hash host order remaining s) := by
  by_cases hzero : remaining = 0
  · have hrun : matchRound hash host order remaining s = (.returns none, s) := by
      rw [matchRound, if_pos hzero]
      rfl
    rw [hrun]
    exact RoundEnds.stops (Or.inl hzero)
  rcases best_cases h.toLevelsOk (!isBid order) with
    ⟨hnone, hnil⟩ | ⟨l, p, xs, hl, hbest, hq, hside⟩
  · have hrun : matchRound hash host order remaining s = (.returns none, s) := by
      simp only [matchRound, hzero, if_false, Proc.get_bind_apply, best_eq, hnone]
      rfl
    rw [hrun]
    exact RoundEnds.stops (Or.inr (Or.inl hnil))
  have hp : p ∈ queues l := by rw [hq]; simp
  have hhead : (s.orderBook.level l).headOrder = p := by
    rw [(h.represents l).head, hq]
    rfl
  have hprice : (s.orderBook.level l).price = (s.orderBook.memory p).price :=
    ((h.represents l).price p hp).symm
  by_cases hforbids : limitForbids order (s.orderBook.memory p).price = true
  · have hrun : matchRound hash host order remaining s = (.returns none, s) := by
      simp only [matchRound, hzero, if_false, Proc.get_bind_apply, best_eq, hbest, hprice,
        hforbids, if_true]
      rfl
    rw [hrun]
    exact RoundEnds.stops (Or.inr (Or.inr ⟨p, _, hside, hforbids⟩))
  have hmeets : Meets order s.orderBook queues remaining l p _ :=
    ⟨hl, hp, hside, hzero, by simpa using hforbids⟩
  by_cases hbuffer : host.buffer s.out.length = true
  · rcases UInt64.le_or_lt (s.orderBook.memory p).remainingQuantity remaining with hle | hlt
    · exact matchRound_filled h hmeets hbest hhead hbuffer hle
    · exact matchRound_partly h hmeets hbest hhead hbuffer hlt
  · have hrun : matchRound hash host order remaining s = (.throws .badAlloc, s) := by
      rw [matchRound_meets h hmeets hbest hhead,
        Proc.bind_throws _ ((emplaceBack_run _ _ _).trans (if_neg hbuffer))]
    rw [hrun]
    exact RoundEnds.refused hmeets (by simpa using hbuffer)

end Round

/-- What is seen of an execution. -/
def tradeOf (execution : Execution) : Trade where
  incomingOrderId := execution.incomingOrderId
  restingOrderId := execution.restingOrderId
  price := execution.executionPrice.toNat
  quantity := execution.executionQuantity.toNat

/-- The rounds so far have taken `fills` from the opposite side and left `rest` there. -/
structure Matched (hash : OrderId → UInt64) (order : NewOrder) (s s' : EngineState)
    (fills : List (Resting × ℕ)) (rest : List Resting) : Prop where
  sound : Sound hash s'.orderBook
  counter : s'.currentSequence = s.currentSequence
  trades : s'.out.map tradeOf = s.out.map tradeOf ++ fills.map (tradeWith order)
  opposite : resting s'.orderBook (!isBid order) = rest
  shorter : rest.length ≤ (resting s.orderBook (!isBid order)).length
  grid : ∀ d, PriceLadder.SameGrid (s.orderBook.ladder d) (s'.orderBook.ladder d)
  level : ∀ l, l.descending = isBid order → s'.orderBook.level l = s.orderBook.level l
  queue : ∀ l, l.descending = isBid order → fifo s'.orderBook l = fifo s.orderBook l
  orders : ∀ l, l.descending = isBid order → ∀ p ∈ fifo s.orderBook l,
    s'.orderBook.memory p = s.orderBook.memory p
  capacity : s'.orderBook.orderIndex.slots.size = s.orderBook.orderIndex.slots.size
  count : s'.orderBook.orderIndex.count +
      UInt64.ofNat ((resting s.orderBook (!isBid order)).length - rest.length) =
    s.orderBook.orderIndex.count
  freed : rest.length < (resting s.orderBook (!isBid order)).length →
    s'.orderBook.orderPool.firstPageWithFreeSlot ≠ none
  idle : rest.length = (resting s.orderBook (!isBid order)).length →
    s'.orderBook.orderPool = s.orderBook.orderPool
  exact : rest.length = (resting s.orderBook (!isBid order)).length →
    ExactTotals s.orderBook → ExactTotals s'.orderBook

section Loop

variable {hash : OrderId → UInt64} {host : Host} {order : NewOrder} {remaining : UInt64}
  {s s₁ s' : EngineState} {fills fills' : List (Resting × ℕ)} {rest rest' : List Resting}

namespace Matched

theorem refl (h : Sound hash s.orderBook) :
    Matched hash order s s [] (resting s.orderBook (!isBid order)) where
  sound := h
  counter := rfl
  trades := by simp
  opposite := rfl
  shorter := le_refl _
  grid _ := PriceLadder.SameGrid.refl _
  level _ _ := rfl
  queue _ _ := rfl
  orders _ _ _ _ := rfl
  capacity := rfl
  count := by
    rw [Nat.sub_self]
    exact UInt64.add_zero _
  freed hlt := absurd hlt (Nat.lt_irrefl _)
  idle _ := rfl
  exact _ h := h

theorem trans (h : Matched hash order s s₁ fills rest)
    (h' : Matched hash order s₁ s' fills' rest') :
    Matched hash order s s' (fills ++ fills') rest' := by
  have hrest := h.opposite
  have hshorter := h.shorter
  have hshorter' := h'.shorter
  rw [hrest] at hshorter'
  refine ⟨h'.sound, h'.counter.trans h.counter, ?_, h'.opposite, hshorter'.trans hshorter,
    fun d => (h.grid d).trans (h'.grid d), ?_, ?_, ?_, h'.capacity.trans h.capacity, ?_, ?_, ?_, ?_⟩
  · rw [h'.trades, h.trades, List.map_append, List.append_assoc]
  · intro l hl
    rw [h'.level l hl, h.level l hl]
  · intro l hl
    rw [h'.queue l hl, h.queue l hl]
  · intro l hl p hp
    rw [h'.orders l hl p (by rw [h.queue l hl]; exact hp), h.orders l hl p hp]
  · have hcount := h'.count
    rw [hrest] at hcount
    have hsplit : (resting s.orderBook (!isBid order)).length - rest'.length =
        (rest.length - rest'.length) +
          ((resting s.orderBook (!isBid order)).length - rest.length) := by omega
    rw [hsplit, UInt64.ofNat_add, ← UInt64.add_assoc, hcount, h.count]
  · intro hlt
    by_cases heq : rest'.length = rest.length
    · rw [h'.idle (by rw [hrest, heq])]
      exact h.freed (by omega)
    · exact h'.freed (by rw [hrest]; omega)
  · intro heq
    rw [h'.idle (by rw [hrest]; omega), h.idle (by omega)]
  · intro heq hexact
    exact h'.exact (by rw [hrest]; omega) (h.exact (by omega) hexact)

/-- The own side is as it was. -/
theorem own (h : Matched hash order s s' fills rest) :
    resting s'.orderBook (isBid order) = resting s.orderBook (isBid order) := by
  have hside : sideOrders s'.orderBook (fifo s'.orderBook) (isBid order) =
      sideOrders s.orderBook (fifo s.orderBook) (isBid order) := by
    rw [sideOrders_grid h.grid]
    apply gather_congr
    intro i _
    exact h.queue ⟨isBid order, i⟩ rfl
  rw [resting, resting, hside]
  apply List.map_congr_left
  intro p hp
  obtain ⟨i, _, hp⟩ := mem_gather.mp hp
  rw [h.orders ⟨isBid order, i⟩ rfl p hp]

end Matched

/-- A level of the own side is not the level that a round meets. -/
theorem Meets.ne_own {l l' : LevelPtr} {p : OrderPtr} {ps : List OrderPtr}
    (hmeets : Meets order s.orderBook (fifo s.orderBook) remaining l p ps)
    (hl' : l'.descending = isBid order) : l' ≠ l := by
  intro heq
  have hside := hmeets.side
  rw [← heq, hl'] at hside
  simp at hside

theorem Meets.length_resting {l : LevelPtr} {p : OrderPtr} {ps : List OrderPtr}
    (hmeets : Meets order s.orderBook (fifo s.orderBook) remaining l p ps) :
    (resting s.orderBook (!isBid order)).length = ps.length + 1 := by
  rw [resting, hmeets.first, List.length_map, List.length_cons]

/-- The effect of a round that uses up the first order. -/
theorem matched_filled (hs : Sound hash s.orderBook) {l : LevelPtr} {p : OrderPtr}
    {ps : List OrderPtr} (hmeets : Meets order s.orderBook (fifo s.orderBook) remaining l p ps)
    {book' : OrderBook}
    (hr : Removed hash (withRemaining s.orderBook p 0) book' (fifo s.orderBook) l p) :
    Matched hash order s
      { s with
        orderBook := book'
        out := s.out ++ [executionOf order (s.orderBook.memory p)
          (s.orderBook.memory p).remainingQuantity] }
      [(restingOf (s.orderBook.memory p), remainingOf s.orderBook.memory p)]
      (ps.map fun q => restingOf (s.orderBook.memory q)) := by
  have hlevels := hs.synced.toLevelsOk
  have hshrunk : LevelsOk (withRemaining s.orderBook p 0) (fifo s.orderBook) :=
    (synced_shrink hs.synced (UInt64.le_iff_toNat_le.mpr (Nat.zero_le _))).toLevelsOk
  have hnd := nodup_sideOrders hs.synced (!isBid order)
  rw [hmeets.first] at hnd
  have hlength := hmeets.length_resting
  have hotherOrder : ∀ q, q ≠ p → (book'.memory q).detached = (s.orderBook.memory q).detached := by
    intro q hq
    rw [hr.orders, withRemaining_ne hq]
  have hqueues := fifo_eq hr.synced.toLevelsOk
  refine ⟨sound_of_synced hr.synced ?_, rfl, ?_, ?_, ?_, hr.grid, ?_, ?_, ?_, hr.capacity, ?_, ?_,
    ?_, ?_⟩
  · refine positive_removed hshrunk hmeets.mem ?_ hr
    intro m q hq hqp
    rw [withRemaining_ne hqp]
    exact hs.positive m q hq
  · simp only [List.map_append, List.map_cons, List.map_nil]
    rfl
  · change resting book' _ = _
    rw [resting_eq hr.synced.toLevelsOk, sideOrders_removed hshrunk hmeets.mem hr.grid]
    have hfirst : sideOrders (withRemaining s.orderBook p 0) (fifo s.orderBook) (!isBid order) =
        p :: ps := hmeets.first
    rw [hfirst, List.erase_cons_head]
    apply List.map_congr_left
    intro q hq
    refine restingOf_of_detached (hotherOrder q ?_)
    intro heq
    exact (List.nodup_cons.mp hnd).1 (heq ▸ hq)
  · rw [hlength, List.length_map]
    omega
  · intro l' hl'
    exact hr.level_ne l' (hmeets.ne_own hl')
  · intro l' hl'
    change fifo book' l' = _
    rw [hqueues, Function.update_of_ne (hmeets.ne_own hl')]
  · intro l' hl' q hq
    have huntouched := hr.untouched l' (hmeets.ne_own hl') q hq
    rw [withRemaining_ne] at huntouched
    · exact huntouched
    · intro heq
      exact hmeets.ne_own hl' (hlevels.level_unique hq (heq ▸ hmeets.mem))
  · rw [hlength, List.length_map, Nat.add_sub_cancel_left]
    change book'.orderIndex.count + 1 = _
    rw [hr.count, UInt64.sub_add_cancel]
    rfl
  · intro _
    exact hr.freed
  · rw [hlength, List.length_map]
    intro heq
    omega
  · rw [hlength, List.length_map]
    intro heq
    omega

/-- The effect of a round that ends inside the first order. -/
theorem matched_partly (hs : Sound hash s.orderBook) {l : LevelPtr} {p : OrderPtr}
    {ps : List OrderPtr} (hmeets : Meets order s.orderBook (fifo s.orderBook) remaining l p ps)
    (hlt : remaining < (s.orderBook.memory p).remainingQuantity) :
    Matched hash order s
      { s with
        orderBook := withTotal
          (withRemaining s.orderBook p ((s.orderBook.memory p).remainingQuantity - remaining))
          l ((s.orderBook.level l).totalQuantity - remaining)
        out := s.out ++ [executionOf order (s.orderBook.memory p) remaining] }
      [(restingOf (s.orderBook.memory p), remaining.toNat)]
      ((restingOf (s.orderBook.memory p)).withRemaining
          (remainingOf s.orderBook.memory p - remaining.toNat) ::
        ps.map fun q => restingOf (s.orderBook.memory q)) := by
  have hlevels := hs.synced.toLevelsOk
  have hle := UInt64.le_of_lt hlt
  have hnat := UInt64.lt_iff_toNat_lt.mp hlt
  have hsub := UInt64.toNat_sub_of_le _ _ hle
  generalize hquantity : (s.orderBook.memory p).remainingQuantity - remaining = quantity at *
  have hamount : (s.orderBook.memory p).remainingQuantity - quantity = remaining := by
    rw [← hquantity]
    grind
  have hquantityLe : quantity ≤ (s.orderBook.memory p).remainingQuantity := by
    rw [UInt64.le_iff_toNat_le]
    omega
  have hsynced := synced_resize hs.synced hmeets.mem hquantityLe
  rw [hamount] at hsynced
  have hshrunk := (synced_shrink hs.synced hquantityLe).toLevelsOk
  have hr := relevelled_withTotal ((s.orderBook.level l).totalQuantity - remaining) hshrunk
    hmeets.mem
  have hqueues := fifo_eq hsynced.toLevelsOk
  have hmemory := (withTotal_frame (withRemaining s.orderBook p quantity) l
    ((s.orderBook.level l).totalQuantity - remaining)).1
  have hindex := (withTotal_frame (withRemaining s.orderBook p quantity) l
    ((s.orderBook.level l).totalQuantity - remaining)).2.2
  have hpool := (withTotal_frame (withRemaining s.orderBook p quantity) l
    ((s.orderBook.level l).totalQuantity - remaining)).2.1
  have hkept : ∀ {l' : LevelPtr} {q : OrderPtr}, l' ≠ l → q ∈ fifo s.orderBook l' → q ≠ p := by
    intro l' q hl' hq heq
    exact hl' (hlevels.level_unique hq (heq ▸ hmeets.mem))
  have hlength := hmeets.length_resting
  refine ⟨sound_of_synced hsynced ?_, rfl, ?_, ?_, ?_, hr.grid, ?_, ?_, ?_, ?_, ?_, ?_, ?_, ?_⟩
  · apply positive_resized hs.positive
    intro hzero
    have hzeroNat := congrArg UInt64.toNat hzero
    change quantity.toNat = 0 at hzeroNat
    omega
  · simp only [List.map_append, List.map_cons, List.map_nil]
    rfl
  · change resting (withTotal _ _ _) _ = _
    have hnd := nodup_sideOrders hs.synced (!isBid order)
    rw [hmeets.first] at hnd
    rw [resting_resized hsynced.toLevelsOk, hmeets.first, List.map_cons, if_pos rfl, hsub]
    refine congrArg (List.cons _) ?_
    apply List.map_congr_left
    intro q hq
    refine if_neg ?_
    intro heq
    exact (List.nodup_cons.mp hnd).1 (heq ▸ hq)
  · rw [hlength, List.length_cons, List.length_map]
  · intro l' hl'
    exact hr.level_ne l' (hmeets.ne_own hl')
  · intro l' _
    change fifo (withTotal _ _ _) l' = _
    rw [hqueues]
  · intro l' hl' q hq
    change (withTotal _ _ _).memory q = _
    rw [hmemory, withRemaining_ne (hkept (hmeets.ne_own hl') hq)]
  · change (withTotal _ _ _).orderIndex.slots.size = _
    rw [hindex]
    rfl
  · change (withTotal _ _ _).orderIndex.count + _ = _
    rw [hindex, hlength, List.length_cons, List.length_map, Nat.sub_self]
    exact UInt64.add_zero _
  · rw [hlength, List.length_cons, List.length_map]
    intro hlt
    omega
  · intro _
    exact hpool
  · intro _ hexact
    have hexact' := exact_resized hs.synced hmeets.mem hquantityLe hexact
    rw [hamount] at hexact'
    exact hexact'

/-- The limit test of the loop is the reference's, negated. -/
def TestsLimit (order : NewOrder) : Prop :=
  ∀ resting : Order, limitForbids order resting.price = !allows order (restingOf resting)

theorem matchLoop_stops {fuel : ℕ}
    (hround : matchRound hash host order remaining s = (.returns none, s₁)) :
    matchLoop hash host order (fuel + 1) remaining s = (.returns remaining, s₁) := by
  rw [matchLoop]
  exact Proc.bind_returns _ hround

theorem matchLoop_throws {fuel : ℕ} {e : StdException}
    (hround : matchRound hash host order remaining s = (.throws e, s₁)) :
    matchLoop hash host order (fuel + 1) remaining s = (.throws e, s₁) := by
  rw [matchLoop]
  exact Proc.bind_throws _ hround

theorem matchLoop_continues {fuel : ℕ} {left : UInt64}
    (hround : matchRound hash host order remaining s = (.returns (some left), s₁)) :
    matchLoop hash host order (fuel + 1) remaining s = matchLoop hash host order fuel left s₁ := by
  rw [matchLoop]
  exact Proc.bind_returns _ hround

theorem fill_stops (htests : TestsLimit order) {book : OrderBook}
    (h : remaining = 0 ∨ sideOrders book (fifo book) (!isBid order) = [] ∨
      ∃ p ps, sideOrders book (fifo book) (!isBid order) = p :: ps ∧
        limitForbids order (book.memory p).price = true) :
    fill order remaining.toNat (resting book (!isBid order)) =
      ⟨[], remaining.toNat, resting book (!isBid order)⟩ := by
  rcases h with rfl | hnil | ⟨p, ps, hcons, hforbids⟩
  · exact sweep_zero _
  · rw [resting, hnil]
    rfl
  · rw [resting, hcons, List.map_cons]
    apply sweep_rejected
    have htest := htests (book.memory p)
    rw [hforbids] at htest
    simpa using htest.symm

/-- The first order of the opposite side, as the sweep sees it. -/
theorem resting_meets {l : LevelPtr} {p : OrderPtr} {ps : List OrderPtr} (htests : TestsLimit order)
    (hmeets : Meets order s.orderBook (fifo s.orderBook) remaining l p ps) :
    resting s.orderBook (!isBid order) = restingOf (s.orderBook.memory p) ::
        ps.map (fun q => restingOf (s.orderBook.memory q)) ∧
      remaining.toNat ≠ 0 ∧ allows order (restingOf (s.orderBook.memory p)) = true := by
  refine ⟨?_, ?_, ?_⟩
  · rw [resting, hmeets.first, List.map_cons]
  · intro hzero
    exact hmeets.pending (UInt64.toNat_inj.mp hzero)
  · have htest := htests (s.orderBook.memory p)
    rw [hmeets.allowed] at htest
    simpa using htest.symm

/-- The sweep behind a round that uses up the first order. -/
theorem fill_filled {l : LevelPtr} {p : OrderPtr} {ps : List OrderPtr} (htests : TestsLimit order)
    (hmeets : Meets order s.orderBook (fifo s.orderBook) remaining l p ps)
    (hle : (s.orderBook.memory p).remainingQuantity ≤ remaining) :
    fill order remaining.toNat (resting s.orderBook (!isBid order)) =
      { fill order (remaining - (s.orderBook.memory p).remainingQuantity).toNat
          (ps.map fun q => restingOf (s.orderBook.memory q)) with
        fills := (restingOf (s.orderBook.memory p), remainingOf s.orderBook.memory p) ::
          (fill order (remaining - (s.orderBook.memory p).remainingQuantity).toNat
            (ps.map fun q => restingOf (s.orderBook.memory q))).fills } := by
  obtain ⟨hcons, hpending, hallows⟩ := resting_meets htests hmeets
  have hdemand : (remaining - (s.orderBook.memory p).remainingQuantity).toNat =
      remaining.toNat - (restingOf (s.orderBook.memory p)).remainingQuantity :=
    UInt64.toNat_sub_of_le _ _ hle
  rw [hcons, hdemand]
  exact sweep_full hpending hallows (UInt64.le_iff_toNat_le.mp hle)

/-- The sweep that ends inside the first order. -/
theorem fill_partly {l : LevelPtr} {p : OrderPtr} {ps : List OrderPtr} (htests : TestsLimit order)
    (hmeets : Meets order s.orderBook (fifo s.orderBook) remaining l p ps)
    (hlt : remaining < (s.orderBook.memory p).remainingQuantity) :
    fill order remaining.toNat (resting s.orderBook (!isBid order)) =
      ⟨[(restingOf (s.orderBook.memory p), remaining.toNat)], 0,
        (restingOf (s.orderBook.memory p)).withRemaining
            (remainingOf s.orderBook.memory p - remaining.toNat) ::
          ps.map fun q => restingOf (s.orderBook.memory q)⟩ := by
  obtain ⟨hcons, hpending, hallows⟩ := resting_meets htests hmeets
  rw [hcons]
  exact sweep_partly hpending hallows (UInt64.lt_iff_toNat_lt.mp hlt)

/-- A round that meets an order executes against it. -/
theorem fills_pos {l : LevelPtr} {p : OrderPtr} {ps : List OrderPtr} (htests : TestsLimit order)
    (hmeets : Meets order s.orderBook (fifo s.orderBook) remaining l p ps) :
    0 < (fill order remaining.toNat (resting s.orderBook (!isBid order))).fills.length := by
  by_cases hlt : remaining < (s.orderBook.memory p).remainingQuantity
  · rw [fill_partly htests hmeets hlt]
    exact Nat.zero_lt_one
  · rw [fill_filled htests hmeets (UInt64.not_lt.mp hlt)]
    exact Nat.succ_pos _

/-- Room for one execution, and behind it for `j` more. -/
theorem room_succ {n j : ℕ} (hfirst : host.buffer n = true)
    (hroom : ∀ i < j, host.buffer (n + 1 + i) = true) :
    ∀ i < j + 1, host.buffer (n + i) = true := by
  intro i hi
  cases i with
  | zero => exact hfirst
  | succ i =>
    rw [Nat.add_comm i 1, ← Nat.add_assoc]
    exact hroom i (by omega)

/-- The loop sweeps the opposite side: it ends with the quantity the sweep leaves, or at the
first execution the buffer has no room for. -/
theorem matchLoop_run (hs : Sound hash s.orderBook) (htests : TestsLimit order) {fuel : ℕ}
    (hfuel : (resting s.orderBook (!isBid order)).length < fuel) (host : Host)
    (remaining : UInt64) {filled : Swept Resting}
    (hfilled : fill order remaining.toNat (resting s.orderBook (!isBid order)) = filled) :
    (∃ left s', matchLoop hash host order fuel remaining s = (.returns left, s') ∧
      left.toNat = filled.left ∧
      (∀ j < filled.fills.length, host.buffer (s.out.length + j) = true) ∧
      Matched hash order s s' filled.fills filled.rest) ∨
    ∃ j s', matchLoop hash host order fuel remaining s = (.throws .badAlloc, s') ∧
      j < filled.fills.length ∧ (∀ i < j, host.buffer (s.out.length + i) = true) ∧
      host.buffer (s.out.length + j) = false ∧
      Matched hash order s s' (filled.fills.take j)
        ((resting s.orderBook (!isBid order)).drop j) := by
  induction fuel generalizing remaining s filled with
  | zero => omega
  | succ fuel ih =>
    have hends := matchRound_ends hs.synced host order remaining
    generalize hround : matchRound hash host order remaining s = result at hends
    cases hends with
    | stops hstops =>
      left
      rw [fill_stops htests hstops] at hfilled
      subst filled
      exact ⟨remaining, s, matchLoop_stops hround, rfl, fun j hj => by simp at hj,
        Matched.refl hs⟩
    | refused hmeets hbuffer =>
      right
      subst filled
      refine ⟨0, s, matchLoop_throws hround, fills_pos htests hmeets, fun i hi => by omega,
        hbuffer, ?_⟩
      simpa using Matched.refl hs
    | @filled l p ps book' hmeets hbuffer hle hremoved =>
      have hcons := (resting_meets htests hmeets).1
      have hmatched := matched_filled hs hmeets hremoved
      generalize hs₁ : ({ s with
          orderBook := book'
          out := s.out ++ [executionOf order (s.orderBook.memory p)
            (s.orderBook.memory p).remainingQuantity] } : EngineState) = s₁ at *
      have hout : s₁.out.length = s.out.length + 1 := by
        rw [← hs₁, List.length_append, List.length_singleton]
      have hrest := hmatched.opposite
      have hsweep : filled =
          { fill order (remaining - (s.orderBook.memory p).remainingQuantity).toNat
              (resting s₁.orderBook (!isBid order)) with
            fills := (restingOf (s.orderBook.memory p), remainingOf s.orderBook.memory p) ::
              (fill order (remaining - (s.orderBook.memory p).remainingQuantity).toNat
                (resting s₁.orderBook (!isBid order))).fills } := by
        rw [← hfilled, hrest]
        exact fill_filled htests hmeets hle
      have hshorter : (resting s₁.orderBook (!isBid order)).length < fuel := by
        rw [hrest]
        rw [hcons, List.length_cons] at hfuel
        omega
      rw [matchLoop_continues hround]
      rcases ih hmatched.sound hshorter (remaining - (s.orderBook.memory p).remainingQuantity) rfl
        with ⟨left, s', hrun, hleft, hroom, hlater⟩ | ⟨j, s', hrun, hj, hroom, hfull, hlater⟩
      · left
        rw [hout] at hroom
        rw [hsweep]
        exact ⟨left, s', hrun, hleft, room_succ hbuffer hroom, hmatched.trans hlater⟩
      · right
        rw [hout] at hroom hfull
        rw [Nat.add_assoc, Nat.add_comm 1 j] at hfull
        refine ⟨j + 1, s', hrun, ?_, room_succ hbuffer hroom, hfull, ?_⟩
        · rw [hsweep]
          exact Nat.succ_lt_succ hj
        · rw [hsweep, hcons, List.drop_succ_cons, ← hrest]
          exact hmatched.trans hlater
    | @partly l p ps hmeets hbuffer hlt =>
      left
      have hmatched := matched_partly hs hmeets hlt
      have hsweep := hfilled.symm.trans (fill_partly htests hmeets hlt)
      rw [matchLoop_continues hround]
      -- the round that follows finds nothing left to execute
      obtain ⟨fuel, rfl⟩ : ∃ n, fuel = n + 1 := by
        rw [(resting_meets htests hmeets).1, List.length_cons] at hfuel
        exact ⟨fuel - 1, by omega⟩
      refine ⟨0, _, matchLoop_stops (by rw [matchRound, if_pos rfl]; rfl), ?_, ?_, ?_⟩
      · rw [hsweep]
        rfl
      · intro j hj
        rw [hsweep, List.length_singleton] at hj
        obtain rfl : j = 0 := by omega
        exact hbuffer
      · rw [hsweep]
        exact hmatched

end Loop

end Leka.MatchingRounds
