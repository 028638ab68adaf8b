import Leka.MatchingLoops
import Leka.BookRuns

/-!
The shape of what an incoming order executes. Every round of the loop that goes through takes
an order from the opposite side or uses up the incoming one, so there are no more rounds than
orders resting there. The executions go down that side order by order; each but the last
removes its order, and the last one leaves its order only when nothing of the incoming
quantity is left.
-/

namespace Leka.SweepShapes

open Procedures Orders OrderPools OrderBooks MatchingEngines Buckets SyncedBooks BookRemovals
  BookInsertions RestingOrders ReferenceMatchers Sweeps MatchingRounds EventOutcomes MatchingLoops
  BookRuns

/-- The given number of rounds in a row go through and lead from the first state, with its
quantity, to the second. -/
inductive Iterations (hash : OrderId → UInt64) (host : Host) (order : NewOrder) :
    ℕ → UInt64 → EngineState → UInt64 → EngineState → Prop
  | none {remaining : UInt64} {s : EngineState} :
      Iterations hash host order 0 remaining s remaining s
  | round {k : ℕ} {remaining between left : UInt64} {s s₁ s' : EngineState}
      (hround : matchRound hash host order remaining s = (.returns (some between), s₁))
      (h : Iterations hash host order k between s₁ left s') :
      Iterations hash host order (k + 1) remaining s left s'

/-- The loop goes through `k` rounds and is left at the next: by its condition or at a break,
with the quantity left over, or by an exception. -/
inductive Ends (hash : OrderId → UInt64) (host : Host) (order : NewOrder) (k : ℕ)
    (remaining : UInt64) (s : EngineState) : Outcome StdException UInt64 × EngineState → Prop
  | left {left : UInt64} {s' : EngineState}
      (hrounds : Iterations hash host order k remaining s left s')
      (hlast : matchRound hash host order left s' = (.returns none, s')) :
      Ends hash host order k remaining s (.returns left, s')
  | thrown {left : UInt64} {s' : EngineState} {e : StdException}
      (hrounds : Iterations hash host order k remaining s left s')
      (hlast : matchRound hash host order left s' = (.throws e, s')) :
      Ends hash host order k remaining s (.throws e, s')

section Loops

variable {hash : OrderId → UInt64} {host : Host} {order : NewOrder} {s : EngineState}

theorem Ends.round {k : ℕ} {remaining between : UInt64} {s₁ : EngineState}
    {result : Outcome StdException UInt64 × EngineState}
    (hround : matchRound hash host order remaining s = (.returns (some between), s₁))
    (h : Ends hash host order k between s₁ result) :
    Ends hash host order (k + 1) remaining s result := by
  cases h with
  | left hrounds hlast => exact Ends.left (.round hround hrounds) hlast
  | thrown hrounds hlast => exact Ends.thrown (.round hround hrounds) hlast

/-- The loop ends after at most as many rounds as orders rest on the opposite side. -/
theorem matchLoop_terminates (hs : Sound hash s.orderBook) {fuel : ℕ}
    (hfuel : (resting s.orderBook (!isBid order)).length < fuel) (remaining : UInt64) :
    ∃ k ≤ (resting s.orderBook (!isBid order)).length,
      Ends hash host order k remaining s (matchLoop hash host order fuel remaining s) := by
  refine matchLoop_rule (motive := fun remaining s result =>
    ∃ k ≤ (resting s.orderBook (!isBid order)).length,
      Ends hash host order k remaining s result) ?_ ?_ ?_ ?_ hs hfuel remaining
  · intro remaining s _ _ hround
    exact ⟨0, Nat.zero_le _, Ends.left .none hround⟩
  · intro remaining s l p ps _ _ _ hround
    exact ⟨0, Nat.zero_le _, Ends.thrown .none hround⟩
  · intro remaining s l p ps book' result hs hmeets _ _ hremoved hround hlater
    obtain ⟨k, hk, hends⟩ := hlater
    refine ⟨k + 1, ?_, hends.round hround⟩
    rw [(matched_filled hs hmeets hremoved).opposite, List.length_map] at hk
    rw [hmeets.length_resting]
    omega
  · intro remaining s l p ps _ hmeets _ _ hround
    refine ⟨1, ?_, Ends.left (.round hround .none) (matchRound_zero _)⟩
    rw [hmeets.length_resting]
    omega

end Loops

/-- The executions of an incoming order, and what rests after it, have the shape of a sweep. -/
structure SweepShaped (order : NewOrder) (s : EngineState) : Prop where
  distinct : (s.out.map Execution.restingOrderId).Nodup
  removed : ∀ execution ∈ s.out.dropLast, ∀ d, ∀ r ∈ resting s.orderBook d,
    r.orderId ≠ execution.restingOrderId
  last : ∀ execution ∈ s.out.getLast?,
    (∃ d, ∃ r ∈ resting s.orderBook d, r.orderId = execution.restingOrderId) →
    (s.out.map fun x => x.executionQuantity.toNat).sum = order.quantity.toNat

section Shapes

variable {hash : OrderId → UInt64} {host : Host} {order : NewOrder} {s s' : EngineState}

/-- An id rests once, on one side. -/
theorem nodup_ids (hs : Sound hash s.orderBook) (d : Bool) :
    ((resting s.orderBook d).map Resting.orderId).Nodup := by
  rw [resting, List.map_map]
  refine List.Nodup.map_on ?_ (nodup_sideOrders hs.synced d)
  intro p hp q hq heq
  obtain ⟨i, hp⟩ := (hs.synced.mem_sideOrders d).mp hp
  obtain ⟨j, hq⟩ := (hs.synced.mem_sideOrders d).mp hq
  exact hs.synced.id_unique hp hq heq

theorem id_not_other (hs : Sound hash s.orderBook) {d : Bool} {r r' : Resting}
    (hr : r ∈ resting s.orderBook d) (hr' : r' ∈ resting s.orderBook !d) :
    r.orderId ≠ r'.orderId := by
  intro heq
  obtain ⟨p, hp, rfl⟩ := List.mem_map.mp hr
  obtain ⟨q, hq, rfl⟩ := List.mem_map.mp hr'
  obtain ⟨i, hp⟩ := (hs.synced.mem_sideOrders d).mp hp
  obtain ⟨j, hq⟩ := (hs.synced.mem_sideOrders !d).mp hq
  obtain rfl := hs.synced.id_unique hp hq heq
  have hlevel := hs.synced.level_unique hp hq
  simp at hlevel

/-- What the buffer and the sides look like after part of a sweep: `fills` from the front of
the opposite side, what is left of that side, and on the own side nothing but what rested
there and the incoming order. -/
structure Progress (order : NewOrder) (s s' : EngineState) (fills : List (Resting × ℕ))
    (rest : List Resting) : Prop where
  trades : s'.out.map tradeOf = fills.map (tradeWith order)
  front : fills.map Prod.fst = (resting s.orderBook (!isBid order)).take fills.length
  behind : rest.map Resting.orderId =
      ((resting s.orderBook (!isBid order)).drop fills.length).map Resting.orderId ∨
    ((fills.map Prod.snd).sum = order.quantity.toNat ∧ rest.map Resting.orderId =
      ((resting s.orderBook (!isBid order)).drop (fills.length - 1)).map Resting.orderId)
  sides : ∀ d, ∀ r ∈ resting s'.orderBook d, r ∈ rest ∨ r ∈ resting s.orderBook (isBid order) ∨
    r.orderId = order.orderId

theorem Progress.shaped (hs : Sound hash s.orderBook)
    (habsent : ∀ d, ∀ r ∈ resting s.orderBook d, r.orderId ≠ order.orderId)
    {fills : List (Resting × ℕ)} {rest : List Resting} (h : Progress order s s' fills rest) :
    SweepShaped order s' := by
  generalize hids : (resting s.orderBook (!isBid order)).map Resting.orderId = ids
  have hnodup : ids.Nodup := hids ▸ nodup_ids hs _
  have htaken : s'.out.map Execution.restingOrderId = ids.take fills.length := by
    have htrades := congrArg (List.map Trade.restingOrderId) h.trades
    rw [List.map_map, List.map_map] at htrades
    have hfront := congrArg (List.map Resting.orderId) h.front
    rw [List.map_map, List.map_take, hids] at hfront
    exact htrades.trans hfront
  have hlength : s'.out.length = fills.length := by
    have htrades := congrArg List.length h.trades
    rwa [List.length_map, List.length_map] at htrades
  -- an order that is taken rests neither on the own side nor as the incoming one
  have hrests : ∀ id ∈ ids, ∀ d, ∀ r ∈ resting s'.orderBook d, r.orderId = id →
      id ∈ rest.map Resting.orderId := by
    intro id hid d r hr heq
    rw [← hids] at hid
    obtain ⟨r', hr', hid'⟩ := List.mem_map.mp hid
    rcases h.sides d r hr with hrest | hown | hnew
    · exact List.mem_map.mpr ⟨r, hrest, heq⟩
    · have hother : r ∈ resting s.orderBook (!(!isBid order)) := by rwa [Bool.not_not]
      exact absurd (hid'.trans heq.symm) (id_not_other hs hr' hother)
    · exact absurd (hid'.trans (heq.symm.trans hnew)) (habsent _ r' hr')
  have hbehind : ∃ n, fills.length - 1 ≤ n ∧ rest.map Resting.orderId = ids.drop n ∧
      (n < fills.length → (fills.map Prod.snd).sum = order.quantity.toNat) := by
    rcases h.behind with hwhole | ⟨hsum, hinside⟩
    · rw [List.map_drop, hids] at hwhole
      exact ⟨fills.length, Nat.sub_le _ _, hwhole, fun hlt => absurd hlt (Nat.lt_irrefl _)⟩
    · rw [List.map_drop, hids] at hinside
      exact ⟨fills.length - 1, le_refl _, hinside, fun _ => hsum⟩
  obtain ⟨n, hn, hrest, hused⟩ := hbehind
  refine ⟨htaken ▸ hnodup.sublist (List.take_sublist _ _), ?_, ?_⟩
  · intro execution hexecution d r hr heq
    have htake : execution.restingOrderId ∈ ids.take (fills.length - 1) := by
      have hmem := List.mem_map_of_mem (f := Execution.restingOrderId) hexecution
      rw [List.map_dropLast, htaken, List.dropLast_eq_take, List.length_take, List.take_take]
        at hmem
      exact (List.take_subset_take_left _ (by omega)) hmem
    have hdrop := hrests _ (List.mem_of_mem_take htake) d r hr heq
    rw [hrest] at hdrop
    exact List.disjoint_take_drop hnodup hn htake hdrop
  · rintro execution hexecution ⟨d, r, hr, heq⟩
    have hmem : execution.restingOrderId ∈ ids.take fills.length := by
      rw [← htaken]
      exact List.mem_map_of_mem (List.mem_of_getLast? hexecution)
    have hdrop := hrests _ (List.mem_of_mem_take hmem) d r hr heq
    rw [hrest] at hdrop
    have hlt : n < fills.length := by
      by_contra hge
      exact List.disjoint_take_drop hnodup (by omega) hmem hdrop
    have htrades := congrArg (fun trades => (trades.map Trade.quantity).sum) h.trades
    simp only [List.map_map] at htrades
    exact htrades.trans (hused hlt)

theorem progress_matched {fills : List (Resting × ℕ)} {rest : List Resting} (hout : s.out = [])
    (h : Matched hash order (numbered s) s' fills rest)
    (hfront : fills.map Prod.fst = (resting s.orderBook (!isBid order)).take fills.length)
    (hbehind : rest.map Resting.orderId =
        ((resting s.orderBook (!isBid order)).drop fills.length).map Resting.orderId ∨
      ((fills.map Prod.snd).sum = order.quantity.toNat ∧ rest.map Resting.orderId =
        ((resting s.orderBook (!isBid order)).drop (fills.length - 1)).map Resting.orderId)) :
    Progress order s s' fills rest where
  trades := by
    have htrades := h.trades
    rwa [show (numbered s).out = [] from hout, List.map_nil, List.nil_append] at htrades
  front := hfront
  behind := hbehind
  sides := by
    intro d r hr
    by_cases hd : d = isBid order
    · rw [hd, h.own] at hr
      exact Or.inr (Or.inl hr)
    · rw [Bool.eq_not_of_ne hd, h.opposite] at hr
      exact Or.inl hr

/-- The whole sweep of the opposite side. -/
theorem progress_swept (hout : s.out = [])
    (h : Matched hash order (numbered s) s' (filledBy order s).fills (filledBy order s).rest) :
    Progress order s s' (filledBy order s).fills (filledBy order s).rest := by
  apply progress_matched hout h (fills_isPrefix _ _)
  have hid : ∀ (r : Resting) (n : ℕ), (r.withRemaining n).orderId = r.orderId := fun _ _ => rfl
  rcases @rest_drop _ Resting.remainingQuantity Resting.withRemaining (allows order) _ _ hid
      order.quantity.toNat (resting s.orderBook (!isBid order)) with hwhole | ⟨hleft, hinside⟩
  · exact Or.inl hwhole
  · have hsum := @sum_fills _ Resting.remainingQuantity Resting.withRemaining (allows order)
      order.quantity.toNat (resting s.orderBook (!isBid order))
    rw [hleft, Nat.add_zero] at hsum
    exact Or.inr ⟨hsum, hinside⟩

/-- What an insertion adds is the incoming order. -/
theorem Progress.of_book {fills : List (Resting × ℕ)} {rest : List Resting}
    (h : Progress order s s' fills rest) {book' : OrderBook}
    (hsides : ∀ d, ∀ r ∈ resting book' d,
      r ∈ resting s'.orderBook d ∨ r.orderId = order.orderId) :
    Progress order s { s' with orderBook := book' } fills rest where
  trades := h.trades
  front := h.front
  behind := h.behind
  sides := by
    intro d r hr
    rcases hsides d r hr with hold | hnew
    · exact h.sides d r hold
    · exact Or.inr (Or.inr hnew)

/-- However matching ends. -/
theorem new_shaped (hs : Sound hash s.orderBook) {o : Outcome StdException Unit}
    (hends : NewEnds hash host order s (o, s')) (hout : s.out = []) : SweepShaped order s' := by
  cases hends with
  | rejected =>
    refine ⟨?_, ?_, ?_⟩
    · rw [hout]
      exact List.nodup_nil
    · rw [hout]
      intro execution hexecution
      cases hexecution
    · rw [hout]
      intro execution hexecution
      cases hexecution
  | @full j s' haccepted hj _ _ hmatched =>
    apply (progress_matched hout hmatched ?_ (Or.inl ?_)).shaped hs haccepted.absent
    · have hfirst : (filledBy order s).fills.map Prod.fst =
          (resting s.orderBook (!isBid order)).take (filledBy order s).fills.length :=
        fills_isPrefix _ _
      rw [List.map_take, hfirst, List.take_take, List.length_take]
    · rw [List.length_take, Nat.min_eq_left hj.le]
  | done haccepted _ hmatched _ =>
    exact (progress_swept hout hmatched).shaped hs haccepted.absent
  | @rested s₁ left book' l p haccepted _ hmatched _ _ _ _ hinserted =>
    refine ((progress_swept hout hmatched).of_book ?_).shaped hs haccepted.absent
    intro d r hr
    by_cases hd : d = (remainderOrder order (s.currentSequence + 1) left).isBuy
    · rw [hd, resting_inserted hmatched.sound.synced.toLevelsOk hinserted] at hr
      rcases mem_insertBehind.mp hr with rfl | hold
      · exact Or.inr rfl
      · exact Or.inl (hd ▸ hold)
    · rw [resting_inserted_ne hmatched.sound.synced.toLevelsOk hinserted hd] at hr
      exact Or.inl hr
  | refused haccepted _ hmatched _ _ _ _ hrejected =>
    refine ((progress_swept hout hmatched).of_book ?_).shaped hs haccepted.absent
    intro d r hr
    rw [resting_rejected hmatched.sound.synced.toLevelsOk hrejected] at hr
    exact Or.inl hr

/-- The loop of an incoming order ends, behind at most as many rounds as orders rest on the
opposite side, and the event leaves the shape of a sweep, also when it throws. -/
theorem matching_sweeps (h : Reachable hash AnyCall s) (host : Host) (order : NewOrder) :
    (∃ k ≤ (resting s.orderBook (!isBid order)).length,
      Ends hash host order k order.quantity (numbered (emptied s))
        (matchLoop hash host order (s.orderBook.orderPool.liveOrderCount.toNat + 1)
          order.quantity (numbered (emptied s)))) ∧
    SweepShaped order (processEvent hash host (.new order) s).2 := by
  have hs := reachable_sound h
  constructor
  · exact matchLoop_terminates (s := numbered (emptied s)) hs (length_resting_le hs _) _
  · generalize hrun : matchOrder hash host order (emptied s) = result
    obtain ⟨o, s'⟩ := result
    have hends := matchOrder_ends (s := emptied s) hs host order
    rw [hrun] at hends
    rw [processEvent_new hrun]
    exact new_shaped (s := emptied s) hs hends rfl

/-- An order for 12 uses up one for 10 and ends inside the next. -/
theorem sweep_ends_inside : ∃ s : EngineState,
    (resting s.orderBook false).length = 2 ∧
      (processEvent id grantingHost (.new ⟨3, 101, 12, 9, .buy, .limit⟩) s).2.out.length = 2 ∧
      SweepShaped ⟨3, 101, 12, 9, .buy, .limit⟩
        (processEvent id grantingHost (.new ⟨3, 101, 12, 9, .buy, .limit⟩) s).2 := by
  obtain ⟨s, hs, hp⟩ := @exists_reachable id _ _ anyCall_of_removesNone 100 1 2
    [.addOrder grantingHost 1 100 10 5 .sell .limit 1,
      .addOrder grantingHost 2 101 5 6 .sell .limit 2]
    (fun s => (resting s.orderBook false).length == 2 &&
      (processEvent id grantingHost (.new ⟨3, 101, 12, 9, .buy, .limit⟩) s).2.out.length == 2)
    (by decide +kernel)
  rw [Bool.and_eq_true, beq_iff_eq, beq_iff_eq] at hp
  exact ⟨s, hp.1, hp.2, (matching_sweeps hs grantingHost _).2⟩

end Shapes

end Leka.SweepShapes
