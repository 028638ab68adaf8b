import Leka.BookRuns

/-!
When an incoming order is stopped. The insertion of a remainder comes after the matching,
but what it depends on can be read off the book before the matching: the own side is not
touched, and of the pool and the index only the number of orders used up matters. So the
outcome of a NEW event is decided by the state it comes in.
-/

namespace Leka.RemainderPlacements

open Procedures Orders OrderIndexing IndexAsMap OrderPools PoolAsSet PriceLadders OrderBooks
  MatchingEngines SyncedBooks BookInsertions RestingOrders ReferenceMatchers Sweeps MatchingRounds
  EventOutcomes

/-- The number of resting orders that the incoming order uses up. -/
def usedUp (order : NewOrder) (s : EngineState) : ℕ :=
  (resting s.orderBook (!isBid order)).length - (filledBy order s).rest.length

/-- The index without the orders used up, as far as its load goes. -/
def unloaded (order : NewOrder) (s : EngineState) : OrderIndex :=
  { s.orderBook.orderIndex with
    count := s.orderBook.orderIndex.count - UInt64.ofNat (usedUp order s) }

/-- The order has a remainder that would rest. -/
def LeavesRemainder (order : NewOrder) (s : EngineState) : Prop :=
  order.orderType = .limit ∧ (filledBy order s).left ≠ 0

/-- The remainder can be stored, in terms of the state before the matching. -/
structure Placeable (host : Host) (order : NewOrder) (s : EngineState) : Prop where
  memory : usedUp order s = 0 → ¬ AllocationRefused host s.orderBook.orderPool
  price : ∃ index, (s.orderBook.ladder (isBid order)).indexOf order.price = .ok index
  fits : ∀ index, (s.orderBook.ladder (isBid order)).indexOf order.price = .ok index →
    (s.orderBook.level ⟨isBid order, index.toNat⟩).totalQuantity.toNat +
      (filledBy order s).left < 2 ^ 64
  slots : ∀ c, growthRequest (unloaded order s) = some c → ¬ Refuses host.slots c

/-- The buffer refuses one of the executions. -/
def BufferRefuses (host : Host) (order : NewOrder) (s : EngineState) : Prop :=
  ∃ j < (filledBy order s).fills.length, host.buffer j = false

/-- The order passes the first checks and is stopped after its number has been taken. -/
structure StopsLate (host : Host) (order : NewOrder) (s : EngineState) : Prop where
  accepted : Accepted order s
  stops : BufferRefuses host order s ∨ LeavesRemainder order s ∧ ¬ Placeable host order s

section Placement

variable {hash : OrderId → UInt64} {host : Host} {order : NewOrder} {s s' : EngineState}

theorem numbered_book : (numbered s).orderBook = s.orderBook := rfl

theorem growthRequest_congr {index index' : OrderIndex}
    (hsize : index'.slots.size = index.slots.size) (hcount : index'.count = index.count) :
    growthRequest index' = growthRequest index := by
  have hempty : index'.slots.isEmpty = index.slots.isEmpty := by
    simp only [Array.isEmpty, hsize]
  rw [growthRequest, growthRequest, hempty, hcount, OrderIndexing.size, OrderIndexing.size, hsize]

/-- The index asks for the same slots as the one that matching leaves. -/
theorem growthRequest_matched
    (h : Matched hash order (numbered s) s' (filledBy order s).fills (filledBy order s).rest) :
    growthRequest s'.orderBook.orderIndex = growthRequest (unloaded order s) := by
  have hcapacity := h.capacity
  have hcount := h.count
  rw [numbered_book] at hcapacity hcount
  refine growthRequest_congr hcapacity ?_
  rw [unloaded, usedUp, ← hcount]
  exact (UInt64.add_sub_cancel _ _).symm

/-- Matching only takes orders from the other side. -/
theorem absent_matched
    (h : Matched hash order (numbered s) s' (filledBy order s).fills (filledBy order s).rest)
    (habsent : ∀ d, ∀ r ∈ resting s.orderBook d, r.orderId ≠ order.orderId) (d : Bool) :
    ∀ r ∈ resting s'.orderBook d, r.orderId ≠ order.orderId := by
  intro r hr
  by_cases hd : d = isBid order
  · rw [hd, h.own, numbered_book] at hr
    exact habsent _ r hr
  · have hd' : d = !isBid order := by
      cases d <;> cases hb : isBid order <;> simp_all
    rw [hd', h.opposite] at hr
    have hkeep : ∀ (resting : Resting) n, (resting.withRemaining n).orderId = resting.orderId :=
      fun _ _ => rfl
    have hids : ((filledBy order s).rest.map Resting.orderId).Sublist
        ((resting s.orderBook (!isBid order)).map Resting.orderId) :=
      rest_sublist hkeep order.quantity.toNat _
    obtain ⟨q, hq, heq⟩ := List.mem_map.mp (hids.subset (List.mem_map_of_mem hr))
    rw [← heq]
    exact habsent _ q hq

/-- A pool that gave slots back has a free one. -/
theorem memory_matched
    (h : Matched hash order (numbered s) s' (filledBy order s).fills (filledBy order s).rest) :
    ¬ AllocationRefused host s'.orderBook.orderPool ↔
      (usedUp order s = 0 → ¬ AllocationRefused host s.orderBook.orderPool) := by
  have hshorter := h.shorter
  have hfreed := h.freed
  have hidle := h.idle
  rw [numbered_book] at hshorter hfreed hidle
  by_cases hused : usedUp order s = 0
  · rw [hidle (by rw [usedUp] at hused; omega)]
    simp [hused]
  · have hfree := hfreed (by rw [usedUp] at hused; omega)
    refine ⟨fun _ hzero => absurd hzero hused, fun _ hrefused => hfree hrefused.1⟩

theorem remainder_valid (haccepted : Accepted order s) (hlimit : order.orderType = .limit)
    {left : UInt64} (hle : left ≤ order.quantity) :
    (remainderOrder order (s.currentSequence + 1) left).isValid = true := by
  obtain ⟨hid, hquantity, htimestamp, hside, htype⟩ := valid_fields haccepted.valid
  have hprice : order.price ≠ 0 := by
    rcases htype with ⟨_, hprice⟩ | ⟨hmarket, _⟩
    · exact hprice
    · rw [hlimit] at hmarket
      simp at hmarket
  have hsequence : s.currentSequence + 1 ≠ 0 := by
    intro hzero
    refine haccepted.counter ?_
    have hmax : s.currentSequence = 0 - 1 := by rw [← hzero, UInt64.add_sub_cancel]
    rw [hmax]
    rfl
  rcases hside with hside | hside <;>
    simp [Order.isValid, remainderOrder, OrderId.isValid, Quantity.isValid, Timestamp.isValid,
      SequenceNumber.isValid, Price.isValid, Order.isBuy, Order.isSell, Order.isLimit,
      Order.isMarket, hid, hquantity, htimestamp, hsequence, hprice, hside, hle]

/-- What the insertion of the remainder asks of the matched book is what the book before
the matching says. -/
theorem insertable_iff_placeable (haccepted : Accepted order s)
    (h : Matched hash order (numbered s) s' (filledBy order s).fills (filledBy order s).rest)
    (hlimit : order.orderType = .limit) {left : UInt64}
    (hleft : left.toNat = (filledBy order s).left) (hpositive : left ≠ 0) :
    Insertable host s'.orderBook (fifo s'.orderBook)
      (remainderOrder order (s.currentSequence + 1) left) ↔ Placeable host order s := by
  have hle : left ≤ order.quantity := by
    have hsum : ((filledBy order s).fills.map Prod.snd).sum + (filledBy order s).left =
        order.quantity.toNat := sum_fills _ _
    rw [UInt64.le_iff_toNat_le, hleft]
    omega
  have hgrid : ∀ price, (s'.orderBook.ladder (isBid order)).indexOf price =
      (s.orderBook.ladder (isBid order)).indexOf price := by
    intro price
    rw [(h.grid (isBid order)).indexOf_eq, numbered_book]
  have hlevel : ∀ i, s'.orderBook.level ⟨isBid order, i⟩ = s.orderBook.level ⟨isBid order, i⟩ := by
    intro i
    rw [h.level ⟨isBid order, i⟩ rfl, numbered_book]
  have hfits : ∀ i, left ≤ uint64Max - (s.orderBook.level ⟨isBid order, i⟩).totalQuantity ↔
      (s.orderBook.level ⟨isBid order, i⟩).totalQuantity.toNat + (filledBy order s).left <
        2 ^ 64 := by
    intro i
    rw [PriceLevels.fits_iff, hleft]
  have hbuy : (remainderOrder order (s.currentSequence + 1) left).isBuy = isBid order := rfl
  constructor
  · intro hinsertable
    have hprice := hinsertable.price
    rw [hbuy, hgrid] at hprice
    refine ⟨(memory_matched h).mp hinsertable.memory, hprice, ?_, ?_⟩
    · intro index hindex
      have hroom := hinsertable.fits index (by rw [hbuy, hgrid]; exact hindex)
      rw [hbuy, hlevel] at hroom
      exact (hfits _).mp hroom
    · rw [← growthRequest_matched h]
      exact hinsertable.slots
  · intro hplaceable
    have hquantity := (valid_fields haccepted.valid).2.1
    refine ⟨rfl, hquantity, hpositive, hle, (memory_matched h).mpr hplaceable.memory,
      remainder_valid haccepted hlimit hle, ?_, ?_, ?_, ?_⟩
    · rw [hbuy, hgrid]
      exact hplaceable.price
    · intro index hindex
      rw [hbuy, hgrid] at hindex
      rw [hbuy, hlevel]
      exact (hfits _).mpr (hplaceable.fits index hindex)
    · rw [growthRequest_matched h]
      exact hplaceable.slots
    · exact (absent_iff h.sound _).mp (absent_matched h haccepted.absent)

/-- Emptying the buffer decides nothing. -/
theorem accepted_emptied : Accepted order (emptied s) ↔ Accepted order s :=
  ⟨fun h => ⟨h.valid, h.absent, h.counter⟩, fun h => ⟨h.valid, h.absent, h.counter⟩⟩

theorem stopsLate_emptied : StopsLate host order (emptied s) ↔ StopsLate host order s := by
  have hplaceable : Placeable host order (emptied s) ↔ Placeable host order s :=
    ⟨fun h => ⟨h.memory, h.price, h.fits, h.slots⟩, fun h => ⟨h.memory, h.price, h.fits, h.slots⟩⟩
  constructor
  · intro h
    exact ⟨accepted_emptied.mp h.accepted,
      h.stops.imp id (fun hstops => ⟨hstops.1, mt hplaceable.mpr hstops.2⟩)⟩
  · intro h
    exact ⟨accepted_emptied.mpr h.accepted,
      h.stops.imp id (fun hstops => ⟨hstops.1, mt hplaceable.mp hstops.2⟩)⟩

/-- An incoming order fails exactly when it is not accepted or is stopped late. -/
theorem new_throws_iff (hs : Sound hash s.orderBook) (host : Host) (order : NewOrder) :
    (∃ e s', matchOrder hash host order (emptied s) = (.throws e, s')) ↔
      ¬ Accepted order s ∨ StopsLate host order s := by
  rw [← accepted_emptied, ← stopsLate_emptied]
  have hbuffer : ∀ i, host.buffer ((emptied s).out.length + i) = host.buffer i := by
    intro i
    rw [emptied, List.length_nil, Nat.zero_add]
  have hends := matchOrder_ends (s := emptied s) hs host order
  generalize matchOrder hash host order (emptied s) = result at hends
  cases hends with
  | rejected e hnot => exact ⟨fun _ => Or.inl hnot, fun _ => ⟨e, _, rfl⟩⟩
  | @full j s' haccepted hj hroom hfull hmatched =>
    rw [hbuffer] at hfull
    exact ⟨fun _ => Or.inr ⟨haccepted, Or.inl ⟨j, hj, hfull⟩⟩, fun _ => ⟨_, s', rfl⟩⟩
  | done haccepted hroom hmatched hdone =>
    refine ⟨fun h => absurd h (by simp), ?_⟩
    rintro (hnot | ⟨_, ⟨j, hj, hfull⟩ | ⟨hleaves, _⟩⟩)
    · exact absurd haccepted hnot
    · rw [← hbuffer, hroom j hj] at hfull
      simp at hfull
    · exact absurd hleaves hdone
  | rested haccepted hroom hmatched hlimit hleft hpositive hinsertable hinserted =>
    refine ⟨fun h => absurd h (by simp), ?_⟩
    have hplaceable :=
      (insertable_iff_placeable haccepted hmatched hlimit hleft hpositive).mp hinsertable
    rintro (hnot | ⟨_, ⟨j, hj, hfull⟩ | ⟨_, hnot⟩⟩)
    · exact absurd haccepted hnot
    · rw [← hbuffer, hroom j hj] at hfull
      simp at hfull
    · exact absurd hplaceable hnot
  | refused haccepted hroom hmatched hlimit hleft hpositive hnot hrejected =>
    have hunplaceable := fun hplaceable =>
      hnot ((insertable_iff_placeable haccepted hmatched hlimit hleft hpositive).mpr hplaceable)
    have hleaves : LeavesRemainder order (emptied s) := by
      refine ⟨hlimit, ?_⟩
      rw [← hleft]
      exact fun hzero => hpositive (UInt64.toNat_inj.mp hzero)
    exact ⟨fun _ => Or.inr ⟨haccepted, Or.inr ⟨hleaves, hunplaceable⟩⟩, fun _ => ⟨_, _, rfl⟩⟩

/-- An incoming order that does not fail ends. -/
theorem new_returns_iff (hs : Sound hash s.orderBook) (host : Host) (order : NewOrder) :
    (∃ s', matchOrder hash host order (emptied s) = (.returns (), s')) ↔
      Accepted order s ∧ ¬ StopsLate host order s := by
  have hthrows := new_throws_iff hs host order
  have hends := matchOrder_ends (s := emptied s) hs host order
  generalize matchOrder hash host order (emptied s) = result at hthrows hends
  obtain ⟨o, t⟩ := result
  cases o with
  | returns _ =>
    have hfine : ¬ (¬ Accepted order s ∨ StopsLate host order s) := by
      rw [← hthrows]
      simp
    rw [not_or, not_not] at hfine
    exact ⟨fun _ => hfine, fun _ => ⟨t, rfl⟩⟩
  | throws e =>
    have hfails := hthrows.mp ⟨e, t, rfl⟩
    refine ⟨fun h => absurd h (by simp), ?_⟩
    rintro ⟨haccepted, hnot⟩
    exact (hfails.elim (fun h => h haccepted) hnot).elim
  | diverges => cases hends

end Placement

end Leka.RemainderPlacements
