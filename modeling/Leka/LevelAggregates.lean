import Leka.EventMoves

/-!
The aggregates of the levels. An append, an unlinking, a partial fill and a reduction keep
them exact. A full fill does not: the order's remaining quantity is already zero when it is
unlinked, so the level keeps the executed quantity for good. Runs without a full fill have
exact aggregates in every state, and so in every snapshot.
-/

namespace Leka.LevelAggregates

open Procedures Orders OrderPools PriceLadders OrderBooks MatchingEngines SyncedBooks
  BookRemovals BookInsertions RestingOrders ReferenceMatchers Sweeps MatchingRounds EventOutcomes
  BookRuns EventMoves

/-- The incoming order is accepted and uses up the first order on the other side. -/
structure FullyFills (host : Host) (order : NewOrder) (s : EngineState) : Prop where
  accepted : Accepted order s
  room : host.buffer 0 = true
  first : ∃ r rs, resting s.orderBook (!isBid order) = r :: rs ∧ allows order r = true ∧
    r.remainingQuantity ≤ order.quantity.toNat

/-- Only events that use up no resting order. -/
def NoFullFill (s : EngineState) : Call → Prop
  | .processEvent host (.new order) => ¬ FullyFills host order s
  | .processEvent _ _ => True
  | .processOrder host order => ¬ FullyFills host order s
  | _ => False

theorem NoFullFill.eventsOnly {s : EngineState} {c : Call} (h : NoFullFill s c) :
    EventsOnly s c := by
  cases c with
  | processEvent | processOrder => trivial
  | _ => exact absurd h id

section Steps

variable {hash : OrderId → UInt64} {host : Host} {order : NewOrder} {s s' : EngineState}

/-- Without a full fill the other side keeps all its orders. -/
theorem length_rest (haccepted : Accepted order s) (hnot : ¬ FullyFills host order s)
    (hroom : (filledBy order s).fills ≠ [] → host.buffer 0 = true) :
    (filledBy order s).fills.length ≤ 1 ∧
      (filledBy order s).rest.length = (resting s.orderBook (!isBid order)).length := by
  rcases sweep_cases Resting.remainingQuantity Resting.withRemaining (allows order)
      order.quantity.toNat (resting s.orderBook (!isBid order)) with
    ⟨hnone, _⟩ | ⟨r, rs, hcons, hdemand, hallows, hlt⟩ | ⟨r, rs, hcons, hdemand, hallows, hle⟩
  · rw [filledBy, fill, hnone]
    exact ⟨Nat.zero_le _, rfl⟩
  · rw [filledBy, fill, hcons, sweep_partly hdemand hallows hlt]
    exact ⟨le_refl _, rfl⟩
  · refine absurd ⟨haccepted, hroom ?_, r, rs, hcons, hallows, hle⟩ hnot
    rw [filledBy, fill, hcons, sweep_full hdemand hallows hle]
    simp

/-- The book of an accepted order after a matching that used nothing up. -/
theorem exact_new {o : Outcome StdException Unit} (hends : NewEnds hash host order s (o, s'))
    (hout : s.out = []) (hnot : ¬ FullyFills host order s) (hexact : ExactTotals s.orderBook) :
    ExactTotals s'.orderBook := by
  have hbuffer : ∀ {j : ℕ}, (∀ i < j, host.buffer (s.out.length + i) = true) → j ≠ 0 →
      host.buffer 0 = true := by
    intro j hroom hj
    have hfirst := hroom 0 (by omega)
    rw [hout] at hfirst
    exact hfirst
  have hwhole : Accepted order s →
      (∀ i < (filledBy order s).fills.length, host.buffer (s.out.length + i) = true) →
      (filledBy order s).rest.length = (resting s.orderBook (!isBid order)).length := by
    intro haccepted hroom
    exact (length_rest haccepted hnot fun hne =>
      hbuffer hroom (fun hzero => hne (List.length_eq_zero_iff.mp hzero))).2
  cases hends with
  | rejected => exact hexact
  | @full j _ haccepted hj hroom hfull hmatched =>
    obtain rfl : j = 0 := by
      by_contra hj0
      have hone := (length_rest haccepted hnot fun _ => hbuffer hroom hj0).1
      omega
    exact hmatched.exact rfl hexact
  | done haccepted hroom hmatched _ => exact hmatched.exact (hwhole haccepted hroom) hexact
  | refused haccepted hroom hmatched _ _ _ _ hrejected =>
    exact exact_rejected hrejected (hmatched.exact (hwhole haccepted hroom) hexact)
  | @rested s₁ left book' l p haccepted hroom hmatched hlimit hleft hpositive hinsertable
      hinserted =>
    exact exact_inserted hinserted
      (hinsertable.fits_level hmatched.sound.synced.toLevelsOk hinserted)
      (hmatched.exact (hwhole haccepted hroom) hexact)

theorem exact_event {event : OrderEvent} {o : Outcome StdException ℕ}
    (hs : Sound hash s.orderBook) (hends : EventEnds hash host s event (o, s'))
    (hnot : ∀ order, event = .new order → ¬ FullyFills host order s)
    (hexact : ExactTotals s.orderBook) : ExactTotals s'.orderBook := by
  cases hends with
  | @new order o s' hends =>
    refine exact_new hends rfl ?_ hexact
    intro hfills
    exact hnot order rfl ⟨⟨hfills.accepted.valid, hfills.accepted.absent, hfills.accepted.counter⟩,
      hfills.room, hfills.first⟩
  | cancelled _ hp _ hremoved => exact exact_removed hs.synced.toLevelsOk hp hremoved hexact
  | reduced _ hp _ _ hquantity =>
    exact exact_resized hs.synced hp (UInt64.le_of_lt hquantity) hexact
  | cancelInvalid | cancelAbsent | reduceInvalid | reduceAbsent | reduceRefused | reduceSame =>
    exact hexact

theorem reachable_exact (h : Reachable hash NoFullFill s) : ExactTotals s.orderBook := by
  induction h with
  | @start memory minPrice tickSize levelCount book hmake counter out =>
    intro l
    have hempty : book.level l = { price := (book.level l).price } :=
      level_make ((make_ladders hmake).1 l.descending) l.index
    rw [fifo_make hmake]
    change (book.level l).totalQuantity.toNat = _
    rw [hempty]
    rfl
  | elsewhere _ _ ih => exact ih
  | @call s s' hreach c hpermits o hrun hends ih =>
    have hs := reachable_sound (hreach.mono fun _ _ h => h.eventsOnly.anyCall)
    obtain ⟨host, event, hcall, hstate⟩ := event_of_call hpermits.eventsOnly hrun
    subst s'
    refine exact_event hs (processEvent_ends hs host event) ?_ ih
    intro order heq
    rcases hcall with rfl | ⟨_, rfl, hnew⟩
    · rw [heq] at hpermits
      exact hpermits
    · rw [hnew, OrderEvent.new.injEq] at heq
      rw [← heq]
      exact hpermits

end Steps

/-- In a run in which no incoming order uses up a resting order, every aggregate is the sum
of what rests in its level, and every snapshot reports that sum. -/
theorem reachable_aggregates_exact {hash : OrderId → UInt64} {s : EngineState}
    (h : Reachable hash NoFullFill s) :
    (∀ l, (s.orderBook.level l).totalQuantity.toNat =
      remainingSum s.orderBook.memory (fifo s.orderBook l)) ∧
    ∀ out depth, ∀ entry ∈ (captureSnapshot s.orderBook out depth).bids ++
        (captureSnapshot s.orderBook out depth).asks,
      ∃ l, entry = snapshotLevel s.orderBook l ∧
        entry.quantity.toNat = remainingSum s.orderBook.memory (fifo s.orderBook l) := by
  have hexact := reachable_exact h
  refine ⟨hexact, ?_⟩
  intro out depth entry hentry
  obtain ⟨l, rfl⟩ : ∃ l, snapshotLevel s.orderBook l = entry := by
    rcases List.mem_append.mp hentry with hentry | hentry
    · obtain ⟨l, _, heq⟩ := List.mem_map.mp hentry
      exact ⟨l, heq⟩
    · obtain ⟨l, _, heq⟩ := List.mem_map.mp hentry
      exact ⟨l, heq⟩
  exact ⟨l, rfl, hexact l⟩

/-- The check of `NoFullFill` on a concrete state. -/
def leavesFirst (s : EngineState) : Call → Bool
  | .processEvent _ (.new order) =>
    match resting s.orderBook (!isBid order) with
    | [] => true
    | r :: _ => !allows order r || order.quantity.toNat < r.remainingQuantity
  | .processEvent _ _ => true
  | _ => false

theorem noFullFill_of_leavesFirst (s : EngineState) (c : Call) (h : leavesFirst s c = true) :
    NoFullFill s c := by
  cases c with
  | processEvent host event =>
    cases event with
    | new order =>
      intro hfills
      obtain ⟨r, rs, hcons, hallows, hle⟩ := hfills.first
      simp [leavesFirst, hcons, hallows, Nat.not_lt.mpr hle] at h
    | cancel | reduce => trivial
  | _ => simp [leavesFirst] at h

/-- An order for 10 is partly filled by one for 4. -/
theorem aggregates_exact_after_partial_fill : ∃ s : EngineState,
    (s.orderBook.level ⟨false, 0⟩).totalQuantity = 6 ∧
      (s.orderBook.level ⟨false, 0⟩).totalQuantity.toNat =
        remainingSum s.orderBook.memory (fifo s.orderBook ⟨false, 0⟩) := by
  obtain ⟨s, hs, hp⟩ := @exists_reachable id _ _ noFullFill_of_leavesFirst 100 1 2
    [.processEvent grantingHost (.new ⟨1, 100, 10, 5, .sell, .limit⟩),
      .processEvent grantingHost (.new ⟨2, 100, 4, 5, .buy, .limit⟩)]
    (fun s => (s.orderBook.level ⟨false, 0⟩).totalQuantity = 6) (by decide +kernel)
  exact ⟨s, of_decide_eq_true hp, (reachable_aggregates_exact hs).1 ⟨false, 0⟩⟩

/-- An order for 10 that is filled by another leaves its quantity in the aggregate of the
empty level. -/
theorem aggregate_drifts_after_full_fill : ¬ ∀ s, Reachable id EventsOnly s → ∀ l,
    (s.orderBook.level l).totalQuantity.toNat =
      remainingSum s.orderBook.memory (fifo s.orderBook l) := by
  intro hexact
  obtain ⟨s, hs, hp⟩ := @exists_reachable id _ _ eventsOnly_of_isEvent 100 1 2
    [.processEvent grantingHost (.new ⟨1, 100, 10, 5, .sell, .limit⟩),
      .processEvent grantingHost (.new ⟨2, 100, 10, 5, .buy, .limit⟩)]
    (fun s => (s.orderBook.level ⟨false, 0⟩).totalQuantity = 10 ∧
      fifo s.orderBook ⟨false, 0⟩ = []) (by decide +kernel)
  obtain ⟨htotal, hempty⟩ := of_decide_eq_true hp
  have hsum := hexact s hs ⟨false, 0⟩
  rw [htotal, hempty] at hsum
  simp [remainingSum] at hsum

end Leka.LevelAggregates
