import Leka.BookRuns

/-!
The engine refines the price-time matcher. The book is read as its two sides together with
the counter, and an event that returns has the executions and the effect of the reference
on that reading, whatever calls came before.
-/

namespace Leka.MatcherRefinement

open Procedures Orders OrderPools OrderBooks MatchingEngines SyncedBooks BookRemovals
  BookInsertions RestingOrders ReferenceMatchers Sweeps MatchingRounds EventOutcomes BookRuns

/-- What the reference sees of a state. -/
def bookOf (s : EngineState) : Book where
  bids := resting s.orderBook true
  asks := resting s.orderBook false
  lastSequence := s.currentSequence.toNat

theorem side_bookOf (s : EngineState) (d : Bool) : (bookOf s).side d = resting s.orderBook d := by
  cases d <;> rfl

/-- The reading is determined by the two sides and the counter. -/
theorem bookOf_eq {s : EngineState} {book : Book}
    (hside : ∀ d, resting s.orderBook d = book.side d)
    (hlast : s.currentSequence.toNat = book.lastSequence) : bookOf s = book := by
  apply Book.ext_sides
  · intro d
    rw [side_bookOf, hside]
  · exact hlast

theorem toNat_succ {counter : UInt64} (h : counter ≠ uint64Max) :
    (counter + 1).toNat = counter.toNat + 1 := by
  have hlt := counter.toNat_lt
  have hne : counter.toNat ≠ 2 ^ 64 - 1 := fun heq => h (UInt64.toNat_inj.mp heq)
  rw [UInt64.toNat_add]
  exact Nat.mod_eq_of_lt (by change counter.toNat + 1 < 2 ^ 64; omega)

section Events

variable {hash : OrderId → UInt64} {host : Host} {order : NewOrder} {s s' : EngineState}

/-- The engine's reading after matching alone. -/
theorem bookOf_matched {fills : List (Resting × ℕ)} {rest : List Resting}
    (hcounter : s.currentSequence ≠ uint64Max)
    (h : Matched hash order (numbered s) s' fills rest) (d : Bool) :
    resting s'.orderBook d = ((bookOf s).setSide (!isBid order) rest).side d ∧
      s'.currentSequence.toNat = (bookOf s).lastSequence + 1 := by
  refine ⟨?_, ?_⟩
  · by_cases hd : d = isBid order
    · rw [hd, side_setSide_not, side_bookOf]
      exact h.own
    · have hd' : d = !isBid order := by
        cases d <;> cases hb : isBid order <;> simp_all
      rw [hd', side_setSide_self]
      exact h.opposite
  · rw [h.counter]
    exact toNat_succ hcounter

theorem matchOrder_refines (h : NewEnds hash host order s (.returns (), s')) (hout : s.out = []) :
    s'.out.map tradeOf = (submit order (bookOf s)).1 ∧
      bookOf s' = (submit order (bookOf s)).2 := by
  have hfilled : fill order order.quantity.toNat ((bookOf s).side !isBid order) =
      filledBy order s := by
    rw [side_bookOf]
    rfl
  simp only [submit, hfilled]
  cases h with
  | done haccepted hroom hmatched hdone =>
    have htrades := hmatched.trades
    rw [show (numbered s).out = [] from hout] at htrades
    refine ⟨htrades, ?_⟩
    rw [if_neg hdone]
    apply bookOf_eq
    · intro d
      exact (bookOf_matched haccepted.counter hmatched d).1
    · exact (bookOf_matched haccepted.counter hmatched true).2
  | @rested s₁ left book' l p haccepted hroom hmatched hlimit hleft hpositive hinsertable
      hinserted =>
    have htrades := hmatched.trades
    rw [show (numbered s).out = [] from hout] at htrades
    refine ⟨htrades, ?_⟩
    have hleftNat : (filledBy order s).left ≠ 0 := by
      rw [← hleft]
      exact fun hzero => hpositive (UInt64.toNat_inj.mp hzero)
    rw [if_pos ⟨hlimit, hleftNat⟩]
    have hbuy : (remainderOrder order (s.currentSequence + 1) left).isBuy = isBid order := rfl
    have hrecord : restingOf (remainderOrder order (s.currentSequence + 1) left) =
        remainder order ((bookOf s).lastSequence + 1) (filledBy order s).left := by
      simp only [restingOf, remainderOrder, remainder, hleft, toNat_succ haccepted.counter]
      rfl
    have hmatchedSides := fun d => (bookOf_matched haccepted.counter hmatched d).1
    apply bookOf_eq
    · intro d
      by_cases hd : d = isBid order
      · rw [hd, side_setSide_self, ← hbuy, resting_inserted hmatched.sound.synced.toLevelsOk
          hinserted, hbuy, hrecord, hmatchedSides]
        rfl
      · have hd' : d = !isBid order := by
          cases d <;> cases hb : isBid order <;> simp_all
        rw [resting_inserted_ne hmatched.sound.synced.toLevelsOk hinserted (by rw [hbuy]; exact hd),
          hmatchedSides]
        subst d
        cases isBid order <;> rfl
    · rw [lastSequence_setSide]
      exact (bookOf_matched haccepted.counter hmatched true).2

/-- Cancelling an id that does not rest changes nothing. -/
theorem cancel_absent {book : Book} {id : OrderId}
    (habsent : ∀ d, ∀ r ∈ book.side d, r.orderId ≠ id) : cancel id book = book := by
  refine Book.ext_sides (fun d => ?_) (Eq.refl _)
  have hkeep : (book.side d).filter (fun order => order.orderId ≠ id) = book.side d :=
    List.filter_eq_self.mpr fun r hr => decide_eq_true (habsent d r hr)
  cases d <;> exact hkeep

/-- Resizing changes nothing when the orders with the id already have the quantity. -/
theorem reduce_same {book : Book} {id : OrderId} {quantity : ℕ}
    (hsame : ∀ d, ∀ r ∈ book.side d, r.orderId = id → r.remainingQuantity = quantity) :
    reduce id quantity book = book := by
  refine Book.ext_sides (fun d => ?_) (Eq.refl _)
  have hkeep : (book.side d).map (resizeId id quantity) = book.side d := by
    refine (List.map_congr_left fun r hr => ?_).trans (List.map_id _)
    rw [resizeId]
    split_ifs with hid
    · rw [Resting.withRemaining, ← hsame d r hr hid]
      rfl
    · rfl
  cases d <;> exact hkeep

/-- One event that returns, from any state whose parts agree. -/
theorem event_refines (hs : Sound hash s.orderBook) {event : OrderEvent} {n : ℕ}
    (h : EventEnds hash host s event (.returns n, s')) :
    s'.out.map tradeOf = (respond event (bookOf s)).1 ∧ n = s'.out.length ∧
      bookOf s' = (respond event (bookOf s)).2 := by
  have hlevels := hs.synced.toLevelsOk
  generalize hresult : ((.returns n : Outcome StdException ℕ), s') = result at h
  cases h with
  | @new order o s₁ hends =>
    cases o with
    | returns _ =>
      simp only [Outcome.map, Prod.mk.injEq, Outcome.returns.injEq] at hresult
      obtain ⟨rfl, rfl⟩ := hresult
      obtain ⟨htrades, hbook⟩ := matchOrder_refines hends rfl
      exact ⟨htrades, rfl, hbook⟩
    | throws e => simp [Outcome.map] at hresult
    | diverges => simp [Outcome.map] at hresult
  | @cancelAbsent order hid habsent =>
    simp only [Prod.mk.injEq, Outcome.returns.injEq] at hresult
    obtain ⟨rfl, rfl⟩ := hresult
    refine ⟨rfl, rfl, (cancel_absent ?_).symm⟩
    intro d
    rw [side_bookOf]
    exact (absent_iff hs order.orderId).mpr habsent d
  | cancelled hid hp horder hremoved =>
    simp only [Prod.mk.injEq, Outcome.returns.injEq] at hresult
    obtain ⟨rfl, rfl⟩ := hresult
    refine ⟨rfl, rfl, ?_⟩
    apply bookOf_eq
    · intro d
      rw [resting_removed hs.synced hp hremoved d, horder]
      cases d <;> rfl
    · rfl
  | @reduceAbsent reduction hid habsent =>
    simp only [Prod.mk.injEq, Outcome.returns.injEq] at hresult
    obtain ⟨rfl, rfl⟩ := hresult
    refine ⟨rfl, rfl, (reduce_same ?_).symm⟩
    intro d r hr hsame
    rw [side_bookOf] at hr
    exact absurd hsame ((absent_iff hs reduction.orderId).mpr habsent d r hr)
  | reduceSame hid hp horder hquantity =>
    simp only [Prod.mk.injEq, Outcome.returns.injEq] at hresult
    obtain ⟨rfl, rfl⟩ := hresult
    refine ⟨rfl, rfl, (reduce_same ?_).symm⟩
    intro d r hr hsame
    rw [side_bookOf] at hr
    obtain ⟨q, hq, rfl⟩ := List.mem_map.mp hr
    obtain ⟨i, hq⟩ := (hlevels.mem_sideOrders d).mp hq
    have heq := hs.synced.id_unique hq hp (hsame.trans horder.symm)
    rw [heq, hquantity]
    rfl
  | reduced hid hp horder hpositive hquantity =>
    simp only [Prod.mk.injEq, Outcome.returns.injEq] at hresult
    obtain ⟨rfl, rfl⟩ := hresult
    refine ⟨rfl, rfl, ?_⟩
    have hresized := synced_resize hs.synced hp (UInt64.le_of_lt hquantity)
    apply bookOf_eq
    · intro d
      change resting (withTotal _ _ _) d = _
      rw [resting_resizedId hs.synced hp hresized.toLevelsOk d, horder]
      cases d <;> rfl
    · rfl
  | cancelInvalid | reduceInvalid | reduceRefused => simp at hresult

/-- Both sides of the reading are sorted, best price first. -/
theorem sorted_bookOf (hs : Sound hash s.orderBook) (d : Bool) :
    ((bookOf s).side d).Pairwise fun a b => noWorse d a.price b.price = true := by
  rw [side_bookOf, resting, List.pairwise_map]
  exact sorted_sideOrders hs.synced.toLevelsOk d

end Events

/-- After any calls, an event that returns has exactly the executions of the reference, and
leaves exactly the book of the reference. -/
theorem processEvent_refines {hash : OrderId → UInt64} {host : Host} {s s' : EngineState}
    {event : OrderEvent} {n : ℕ} (hreach : Reachable hash AnyCall s)
    (hrun : processEvent hash host event s = (.returns n, s')) :
    s'.out.map tradeOf = (respond event (bookOf s)).1 ∧ n = s'.out.length ∧
      bookOf s' = (respond event (bookOf s)).2 ∧
      ∀ d, ((bookOf s').side d).Pairwise fun a b => noWorse d a.price b.price = true := by
  have hs := reachable_sound hreach
  have hends := processEvent_ends hs host event
  rw [hrun] at hends
  obtain ⟨htrades, hlength, hbook⟩ := event_refines hs hends
  exact ⟨htrades, hlength, hbook, sorted_bookOf (EventEnds.sound hs hends)⟩

/-- An order for 6 fills one for 4 and rests. -/
theorem processEvent_refines_sweep : ∃ s s' : EngineState, bookOf s ≠ bookOf s' ∧
    s'.out.map tradeOf = (respond (.new ⟨2, 100, 6, 5, .buy, .limit⟩) (bookOf s)).1 ∧
    bookOf s' = (respond (.new ⟨2, 100, 6, 5, .buy, .limit⟩) (bookOf s)).2 := by
  obtain ⟨s, hs, hp⟩ := @exists_reachable id _ _ anyCall_of_removesNone 100 1 2
    [.addOrder grantingHost 1 100 4 5 .sell .limit 1]
    (fun s => (processEvent id grantingHost (.new ⟨2, 100, 6, 5, .buy, .limit⟩) s).1 =
        .returns 1 ∧ (bookOf s).bids = [] ∧
      (bookOf (processEvent id grantingHost (.new ⟨2, 100, 6, 5, .buy, .limit⟩) s).2).bids ≠ [])
    (by decide +kernel)
  obtain ⟨hreturns, hbefore, hafter⟩ := of_decide_eq_true hp
  obtain ⟨htrades, _, hbook, _⟩ := processEvent_refines hs (Prod.ext hreturns rfl)
  exact ⟨s, _, fun heq => hafter (heq ▸ hbefore), htrades, hbook⟩

end Leka.MatcherRefinement
