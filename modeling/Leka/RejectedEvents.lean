import Leka.RemainderPlacements

/-!
Events that throw. What fails the first checks leaves everything as it was. An incoming
order that is stopped after its sequence number has been taken does not: the counter has
moved, and the executions made so far stay. The state before the event decides which.
-/

namespace Leka.RejectedEvents

open Procedures Orders OrderPools OrderBooks MatchingEngines RestingOrders EventOutcomes BookRuns
  RemainderPlacements

/-- Nothing that can be observed of the book or the counter has changed. -/
structure NoTrace (hash : OrderId → UInt64) (s s' : EngineState) : Prop where
  queues : ∀ l, fifo s'.orderBook l = fifo s.orderBook l
  orders : ∀ l, ∀ p ∈ fifo s.orderBook l, s'.orderBook.memory p = s.orderBook.memory p
  levels : ∀ l, s'.orderBook.level l = s.orderBook.level l
  bestBid : s'.orderBook.getBestBid = s.orderBook.getBestBid
  bestAsk : s'.orderBook.getBestAsk = s.orderBook.getBestAsk
  found : ∀ id, (OrderBooks.findOrder hash id s'.orderBook).1 =
    (OrderBooks.findOrder hash id s.orderBook).1
  counter : s'.currentSequence = s.currentSequence

section Events

variable {hash : OrderId → UInt64} {host : Host} {order : NewOrder} {event : OrderEvent}
  {s s' : EngineState} {e : StdException}

theorem noTrace_emptied (s : EngineState) : NoTrace hash s (emptied s) :=
  ⟨fun _ => rfl, fun _ _ _ => rfl, fun _ => rfl, rfl, rfl, fun _ => rfl, rfl⟩

/-- Once the number is taken the counter has moved, however the order ends. -/
theorem counter_accepted {o : Outcome StdException Unit} (haccepted : Accepted order s)
    (hends : NewEnds hash host order s (o, s')) :
    s'.currentSequence = s.currentSequence + 1 := by
  cases hends with
  | rejected e hnot => exact absurd haccepted hnot
  | full _ _ _ _ hmatched => exact hmatched.counter
  | done _ _ hmatched _ => exact hmatched.counter
  | rested _ _ hmatched _ _ _ _ _ => exact hmatched.counter
  | refused _ _ hmatched _ _ _ _ _ => exact hmatched.counter

theorem not_noTrace_of_accepted {o : Outcome StdException Unit} (haccepted : Accepted order s)
    (hends : NewEnds hash host order (emptied s) (o, s')) : ¬ NoTrace hash s s' := by
  intro h
  have hmoved := counter_accepted (accepted_emptied.mpr haccepted) hends
  rw [h.counter] at hmoved
  exact absurd (UInt64.left_eq_add.mp hmoved) (by decide)

/-- An order that fails the first checks leaves no trace. -/
theorem new_noTrace (hs : Sound hash s.orderBook) (hnot : ¬ StopsLate host order s)
    (hrun : matchOrder hash host order (emptied s) = (.throws e, s')) : NoTrace hash s s' := by
  rcases (new_throws_iff hs host order).mp ⟨e, s', hrun⟩ with hrejected | hstops
  · obtain ⟨e', hrejects⟩ :=
      matchOrder_rejected (s := emptied s) hs host (mt accepted_emptied.mp hrejected)
    rw [hrejects, Prod.mk.injEq] at hrun
    rw [← hrun.2]
    exact noTrace_emptied s
  · exact absurd hstops hnot

/-- CANCEL and REDUCE events throw before they change anything. -/
theorem other_noTrace (hs : Sound hash s.orderBook) (hother : ∀ order, event ≠ .new order)
    (hrun : processEvent hash host event s = (.throws e, s')) : NoTrace hash s s' := by
  have hends := processEvent_ends hs host event
  rw [hrun] at hends
  generalize hresult : ((.throws e : Outcome StdException ℕ), s') = result at hends
  cases hends with
  | @new order => exact absurd rfl (hother order)
  | cancelInvalid | reduceInvalid | reduceRefused =>
    rw [(Prod.mk.inj hresult).2]
    exact noTrace_emptied s
  | cancelAbsent | cancelled | reduceAbsent | reduceSame | reduced => simp at hresult

theorem noTrace_iff (hs : Sound hash s.orderBook) (host : Host) (event : OrderEvent) :
    (∀ e s', processEvent hash host event s = (.throws e, s') → NoTrace hash s s') ↔
      ¬ ∃ order, event = .new order ∧ StopsLate host order s := by
  constructor
  · rintro hnoTrace ⟨order, rfl, hstops⟩
    obtain ⟨e, s', hrun⟩ := (new_throws_iff hs host order).mpr (Or.inr hstops)
    have hends := matchOrder_ends (s := emptied s) hs host order
    rw [hrun] at hends
    exact not_noTrace_of_accepted hstops.accepted hends (hnoTrace e s' (processEvent_new hrun))
  · intro hnot e s' hrun
    cases event with
    | new order =>
      generalize hmatch : matchOrder hash host order (emptied s) = result
      obtain ⟨o, t⟩ := result
      rw [processEvent_new hmatch, Prod.mk.injEq] at hrun
      obtain ⟨ho, rfl⟩ := hrun
      cases o with
      | throws e => exact new_noTrace hs (fun hstops => hnot ⟨order, rfl, hstops⟩) hmatch
      | returns _ => simp [Outcome.map] at ho
      | diverges => simp [Outcome.map] at ho
    | cancel order => exact other_noTrace hs (by simp) hrun
    | reduce reduction => exact other_noTrace hs (by simp) hrun

end Events

/-- In every reachable state the events whose exceptions leave no trace are those that are
not an incoming order stopped after its number was taken. -/
theorem reachable_noTrace_iff {hash : OrderId → UInt64} {s : EngineState}
    (h : Reachable hash AnyCall s) (host : Host) (event : OrderEvent) :
    ((∀ e s', processEvent hash host event s = (.throws e, s') → NoTrace hash s s') ↔
      ¬ ∃ order, event = .new order ∧ StopsLate host order s) ∧
    ∀ order, processOrder hash host order s = processEvent hash host (.new order) s :=
  ⟨noTrace_iff (reachable_sound h) host event, fun order => processOrder_eq host order s⟩

/-- A REDUCE to more than what remains. -/
theorem noTrace_of_refused_reduce : ∃ s s' : EngineState, ∃ e,
    processEvent id grantingHost (.reduce ⟨1, 11⟩) s = (.throws e, s') ∧ NoTrace id s s' := by
  obtain ⟨s, hs, hp⟩ := @exists_reachable id _ _ anyCall_of_removesNone 100 1 2
    [.processEvent grantingHost (.new ⟨1, 100, 10, 5, .sell, .limit⟩)]
    (fun s => (processEvent id grantingHost (.reduce ⟨1, 11⟩) s).1 = .throws (.invalidArgument
      "Reduction requires a nonzero quantity no greater than the remaining quantity"))
    (by decide +kernel)
  have hrun : processEvent id grantingHost (.reduce ⟨1, 11⟩) s =
      (.throws _, (processEvent id grantingHost (.reduce ⟨1, 11⟩) s).2) :=
    Prod.ext (of_decide_eq_true hp) rfl
  exact ⟨s, _, _, hrun,
    (reachable_noTrace_iff hs grantingHost (.reduce ⟨1, 11⟩)).1.mpr (by simp) _ _ hrun⟩

/-- A buy order at a price outside the ladder takes the whole of an ask before it is
refused. -/
theorem trace_of_price_outside : ¬ ∀ s, Reachable id AnyCall s → ∀ host event e s',
    processEvent id host event s = (.throws e, s') → NoTrace id s s' := by
  intro hnoTrace
  obtain ⟨s, hs, hp⟩ := @exists_reachable id _ _ anyCall_of_removesNone 100 1 2
    [.processEvent grantingHost (.new ⟨1, 100, 10, 5, .sell, .limit⟩)]
    (fun s => (processEvent id grantingHost (.new ⟨2, 200, 20, 5, .buy, .limit⟩) s).1 =
        .throws (.outOfRange "Price is outside the configured ladder range") ∧
      (processEvent id grantingHost (.new ⟨2, 200, 20, 5, .buy, .limit⟩) s).2.orderBook.getBestAsk ≠
        s.orderBook.getBestAsk)
    (by decide +kernel)
  obtain ⟨hthrows, hmoved⟩ := of_decide_eq_true hp
  exact hmoved (hnoTrace s hs _ _ _ _ (Prod.ext hthrows rfl)).bestAsk

end Leka.RejectedEvents
