import Leka.RemainderPlacements

/-!
Orders that ought to be accepted. A valid order for which there is memory can only be
refused when its remainder does not fit in its level. The level measures that by its
recorded quantity, so the order is refused wrongly exactly when the record exceeds what
rests there by enough.
-/

namespace Leka.ValidOrders

open Procedures Orders IndexAsMap OrderPools PoolAsSet PriceLadders OrderBooks MatchingEngines
  SyncedBooks RestingOrders ReferenceMatchers EventOutcomes BookRuns RemainderPlacements

/-- An order that the book has no reason to refuse. -/
structure ValidOrder (order : NewOrder) (s : EngineState) : Prop where
  orderId : order.orderId ≠ 0
  quantity : order.quantity ≠ 0
  timestamp : order.timestamp ≠ 0
  side : order.orderSide = .buy ∨ order.orderSide = .sell
  price : order.orderType = .market ∧ order.price = 0 ∨ order.orderType = .limit ∧
    ∃ index, (s.orderBook.ladder (isBid order)).indexOf order.price = .ok index
  absent : ∀ d, ∀ r ∈ resting s.orderBook d, r.orderId ≠ order.orderId
  counter : s.currentSequence ≠ uint64Max

/-- The host grants what the order needs: room for its executions, a slot for its remainder
and, if the index has to grow, the new slots. -/
structure MemoryAvailable (host : Host) (order : NewOrder) (s : EngineState) : Prop where
  buffer : ∀ j < (filledBy order s).fills.length, host.buffer j = true
  memory : usedUp order s = 0 → ¬ AllocationRefused host s.orderBook.orderPool
  slots : ∀ c, growthRequest (unloaded order s) = some c → ¬ Refuses host.slots c

/-- The level that the remainder of the order goes to. -/
def OwnLevel (order : NewOrder) (s : EngineState) (l : LevelPtr) : Prop :=
  (s.orderBook.ladder (isBid order)).indexOf order.price = .ok (UInt64.ofNat l.index) ∧
    l.descending = isBid order ∧ l.index < 2 ^ 64

/-- The remainder and what rests at its price exceed the largest quantity. -/
def Overflows (order : NewOrder) (s : EngineState) : Prop :=
  LeavesRemainder order s ∧ ∃ l, OwnLevel order s l ∧
    2 ^ 64 - 1 < (filledBy order s).left + remainingSum s.orderBook.memory (fifo s.orderBook l)

/-- The remainder fits with what rests at its price, but not with what the level records. -/
def OverflowsRecordOnly (order : NewOrder) (s : EngineState) : Prop :=
  LeavesRemainder order s ∧ ∃ l, OwnLevel order s l ∧
    (filledBy order s).left + remainingSum s.orderBook.memory (fifo s.orderBook l) ≤ 2 ^ 64 - 1 ∧
    2 ^ 64 - 1 < (filledBy order s).left + (s.orderBook.level l).totalQuantity.toNat

section Valid

variable {hash : OrderId → UInt64} {host : Host} {order : NewOrder} {s : EngineState}

/-- A price on the grid is a valid price. -/
theorem price_ne_zero (hs : Sound hash s.orderBook) {d : Bool} {price : Price} {index : UInt64}
    (hprice : (s.orderBook.ladder d).indexOf price = .ok index) : price ≠ 0 := by
  intro hzero
  have hmin := (hs.synced.configured d).minPrice_pos
  rw [PriceLadder.indexOf, if_pos] at hprice
  · simp at hprice
  · right
    rw [UInt64.lt_iff_toNat_lt, hzero]
    exact hmin

theorem ValidOrder.accepted (hs : Sound hash s.orderBook) (h : ValidOrder order s) :
    Accepted order s := by
  refine ⟨?_, h.absent, h.counter⟩
  have hvalues : (!OrderId.isValid order.orderId || !Quantity.isValid order.quantity ||
      !Timestamp.isValid order.timestamp) = false := by
    simp [OrderId.isValid, Quantity.isValid, Timestamp.isValid, h.orderId, h.quantity, h.timestamp]
  have hside : ¬ (order.orderSide ≠ .buy ∧ order.orderSide ≠ .sell) := by
    rintro ⟨hbuy, hsell⟩
    exact h.side.elim hbuy hsell
  unfold validate
  rw [hvalues, if_neg Bool.false_ne_true, if_neg hside]
  rcases h.price with ⟨htype, hprice⟩ | ⟨htype, index, hprice⟩
  · simp [htype, hprice, Price.isValid]
  · simp [htype, Price.isValid, price_ne_zero hs hprice]

/-- The remainder of a valid order is placed exactly when the record of its level allows. -/
theorem placeable_iff (h : ValidOrder order s) (hmemory : MemoryAvailable host order s)
    (hleaves : LeavesRemainder order s) : Placeable host order s ↔ ∀ l, OwnLevel order s l →
      (filledBy order s).left + (s.orderBook.level l).totalQuantity.toNat ≤ 2 ^ 64 - 1 := by
  constructor
  · rintro hplaceable ⟨d, i⟩ ⟨hindex, hd, hi⟩
    simp only at hindex hd hi
    subst d
    have hfits := hplaceable.fits _ hindex
    rw [UInt64.toNat_ofNat_of_lt' hi] at hfits
    omega
  · intro hfits
    rcases h.price with ⟨hmarket, _⟩ | ⟨_, hprice⟩
    · rw [hleaves.1] at hmarket
      simp at hmarket
    refine ⟨hmemory.memory, hprice, ?_, hmemory.slots⟩
    intro index hindex
    have hroom := hfits ⟨isBid order, index.toNat⟩
      ⟨by rw [UInt64.ofNat_toNat]; exact hindex, rfl, index.toNat_lt⟩
    omega

/-- Nothing but the record of its level can stop a valid order. -/
theorem returns_iff (hs : Sound hash s.orderBook) (h : ValidOrder order s)
    (hmemory : MemoryAvailable host order s) :
    (∃ n s', processEvent hash host (.new order) s = (.returns n, s')) ↔
      (LeavesRemainder order s → ∀ l, OwnLevel order s l →
        (filledBy order s).left + (s.orderBook.level l).totalQuantity.toNat ≤ 2 ^ 64 - 1) := by
  have hends : (∃ n s', processEvent hash host (.new order) s = (.returns n, s')) ↔
      ∃ s', matchOrder hash host order (emptied s) = (.returns (), s') := by
    generalize hmatch : matchOrder hash host order (emptied s) = result
    obtain ⟨o, t⟩ := result
    rw [processEvent_new hmatch]
    cases o <;> simp [Outcome.map]
  rw [hends, new_returns_iff hs host order]
  constructor
  · rintro ⟨haccepted, hnot⟩ hleaves
    by_contra hover
    exact hnot ⟨haccepted, Or.inr ⟨hleaves, mt (placeable_iff h hmemory hleaves).mp hover⟩⟩
  · intro hfits
    refine ⟨h.accepted hs, ?_⟩
    rintro ⟨_, ⟨j, hj, hfull⟩ | ⟨hleaves, hnot⟩⟩
    · rw [hmemory.buffer j hj] at hfull
      simp at hfull
    · exact hnot ((placeable_iff h hmemory hleaves).mpr (hfits hleaves))

/-- The level of an order is determined by its price. -/
theorem OwnLevel.unique {l m : LevelPtr} (hl : OwnLevel order s l) (hm : OwnLevel order s m) :
    l = m := by
  obtain ⟨d, i⟩ := l
  obtain ⟨d', j⟩ := m
  obtain ⟨hi, rfl, hltI⟩ := hl
  obtain ⟨hj, rfl, hltJ⟩ := hm
  have hsame := congrArg UInt64.toNat (Except.ok.inj (hi.symm.trans hj))
  rw [UInt64.toNat_ofNat_of_lt' hltI, UInt64.toNat_ofNat_of_lt' hltJ] at hsame
  simp only at hsame
  rw [hsame]

theorem accepted_iff (hs : Sound hash s.orderBook) (h : ValidOrder order s)
    (hmemory : MemoryAvailable host order s) :
    (∃ n s', processEvent hash host (.new order) s = (.returns n, s')) ∨ Overflows order s ↔
      ¬ OverflowsRecordOnly order s := by
  rw [returns_iff hs h hmemory]
  constructor
  · rintro haccepted ⟨hleaves, l, hl, hfits, hover⟩
    rcases haccepted with hroom | ⟨_, m, hm, hsum⟩
    · have hbound := hroom hleaves l hl
      omega
    · rw [hm.unique hl] at hsum
      omega
  · intro hnot
    by_cases hover : Overflows order s
    · exact Or.inr hover
    left
    intro hleaves l hl
    by_contra hexceeds
    refine hnot ⟨hleaves, l, hl, ?_, by omega⟩
    by_contra hsum
    exact hover ⟨hleaves, l, hl, by omega⟩

end Valid

/-- In every reachable state a valid order with memory available is accepted or overflows
its level, except when only the level's record is too large. -/
theorem reachable_accepted_iff {hash : OrderId → UInt64} {host : Host} {order : NewOrder}
    {s : EngineState} (h : Reachable hash EventsOnly s) (hvalid : ValidOrder order s)
    (hmemory : MemoryAvailable host order s) :
    (∃ n s', processEvent hash host (.new order) s = (.returns n, s')) ∨ Overflows order s ↔
      ¬ OverflowsRecordOnly order s :=
  accepted_iff (reachable_sound (h.mono fun _ _ => EventsOnly.anyCall)) hvalid hmemory

/-- What a concrete state has to show for an order to sell at its lowest price, when no bid
rests and memory is granted. -/
def sellsAtFirst (order : NewOrder) (s : EngineState) : Bool :=
  order.orderSide = .sell ∧ order.orderType = .limit ∧
    (s.orderBook.ladder false).indexOf order.price = .ok 0 ∧
    resting s.orderBook true = [] ∧
    (∀ r ∈ resting s.orderBook false, r.orderId ≠ order.orderId) ∧
    s.currentSequence ≠ uint64Max ∧ s.orderBook.orderPool.firstPageWithFreeSlot ≠ none ∧
    growthRequest s.orderBook.orderIndex = none

section Concrete

variable {order : NewOrder} {s : EngineState}

theorem left_of_sellsAtFirst (h : sellsAtFirst order s = true) :
    (filledBy order s).fills = [] ∧ (filledBy order s).left = order.quantity.toNat ∧
      usedUp order s = 0 := by
  obtain ⟨hside, _, _, hnone, _⟩ := of_decide_eq_true h
  have hbid : isBid order = false := by simp [isBid, hside]
  have hempty : filledBy order s = ⟨[], order.quantity.toNat, []⟩ := by
    rw [filledBy, hbid, Bool.not_false, hnone]
    rfl
  rw [usedUp, hbid, Bool.not_false, hnone, hempty]
  exact ⟨rfl, rfl, rfl⟩

theorem valid_of_sellsAtFirst (h : sellsAtFirst order s = true) (hid : order.orderId ≠ 0)
    (hquantity : order.quantity ≠ 0) (htimestamp : order.timestamp ≠ 0) : ValidOrder order s := by
  obtain ⟨hside, htype, hprice, hnone, habsent, hcounter, _⟩ := of_decide_eq_true h
  have hbid : isBid order = false := by simp [isBid, hside]
  refine ⟨hid, hquantity, htimestamp, Or.inr hside, Or.inr ⟨htype, 0, ?_⟩, ?_, hcounter⟩
  · rw [hbid]
    exact hprice
  · intro d
    cases d with
    | true => simp [hnone]
    | false => exact habsent

theorem available_of_sellsAtFirst (h : sellsAtFirst order s = true) :
    MemoryAvailable grantingHost order s := by
  obtain ⟨hfills, _, hused⟩ := left_of_sellsAtFirst h
  obtain ⟨_, _, _, _, _, _, hfree, hgrowth⟩ := of_decide_eq_true h
  refine ⟨?_, fun _ hrefused => hfree hrefused.1, ?_⟩
  · simp [hfills]
  · intro c hc
    rw [unloaded, hused] at hc
    have hsame : s.orderBook.orderIndex.count - UInt64.ofNat 0 = s.orderBook.orderIndex.count :=
      UInt64.sub_zero _
    rw [hsame, hgrowth] at hc
    simp at hc

theorem ownLevel_of_sellsAtFirst (h : sellsAtFirst order s = true) :
    OwnLevel order s ⟨false, 0⟩ := by
  obtain ⟨hside, _, hprice, _⟩ := of_decide_eq_true h
  have hbid : isBid order = false := by simp [isBid, hside]
  refine ⟨?_, hbid.symm, by decide⟩
  rw [hbid]
  exact hprice

end Concrete

/-- A second order at a price where the record is exact. -/
theorem accepted_behind_resting : ∃ s : EngineState,
    (∃ n s', processEvent id grantingHost (.new ⟨2, 100, 4, 5, .sell, .limit⟩) s =
      (.returns n, s')) ∨ Overflows ⟨2, 100, 4, 5, .sell, .limit⟩ s := by
  obtain ⟨s, hs, hp⟩ := @exists_reachable id _ _ eventsOnly_of_isEvent 100 1 2
    [.processEvent grantingHost (.new ⟨1, 100, 10, 5, .sell, .limit⟩)]
    (fun s => sellsAtFirst ⟨2, 100, 4, 5, .sell, .limit⟩ s ∧
      (s.orderBook.level ⟨false, 0⟩).totalQuantity = 10) (by decide +kernel)
  obtain ⟨hsells, htotal⟩ := of_decide_eq_true hp
  refine ⟨s, (reachable_accepted_iff hs (valid_of_sellsAtFirst hsells (by decide) (by decide)
    (by decide)) (available_of_sellsAtFirst hsells)).mpr ?_⟩
  rintro ⟨_, l, hl, _, hover⟩
  rw [hl.unique (ownLevel_of_sellsAtFirst hsells), (left_of_sellsAtFirst hsells).2.1, htotal]
    at hover
  exact absurd hover (by decide)

/-- The largest quantity is sold and bought at one price. The empty level then refuses an
order for one. -/
theorem valid_order_refused : ¬ ∀ s, Reachable id EventsOnly s → ∀ host order,
    ValidOrder order s → MemoryAvailable host order s →
    (∃ n s', processEvent id host (.new order) s = (.returns n, s')) ∨ Overflows order s := by
  intro haccepted
  obtain ⟨s, hs, hp⟩ := @exists_reachable id _ _ eventsOnly_of_isEvent 100 1 2
    [.processEvent grantingHost (.new ⟨1, 100, uint64Max, 5, .sell, .limit⟩),
      .processEvent grantingHost (.new ⟨2, 100, uint64Max, 5, .buy, .limit⟩)]
    (fun s => sellsAtFirst ⟨3, 100, 1, 5, .sell, .limit⟩ s ∧
      fifo s.orderBook ⟨false, 0⟩ = [] ∧
      (processEvent id grantingHost (.new ⟨3, 100, 1, 5, .sell, .limit⟩) s).1 =
        .throws (.overflowError "Price level quantity overflow")) (by decide +kernel)
  obtain ⟨hsells, hempty, hthrows⟩ := of_decide_eq_true hp
  rcases haccepted s hs grantingHost _ (valid_of_sellsAtFirst hsells (by decide) (by decide)
    (by decide)) (available_of_sellsAtFirst hsells) with ⟨n, s', hrun⟩ | ⟨_, l, hl, hover⟩
  · rw [hrun] at hthrows
    simp at hthrows
  · rw [hl.unique (ownLevel_of_sellsAtFirst hsells), (left_of_sellsAtFirst hsells).2.1, hempty]
      at hover
    simp [remainingSum] at hover

end Leka.ValidOrders
