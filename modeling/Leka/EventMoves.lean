import Leka.MatcherRefinement

/-!
What an event does to the prices and sequence numbers on the two sides. Either orders only
leave, or in addition one order with a new number joins the back of its price, and then
nothing it could still trade with rests on the other side. This covers the events that
throw, also after a part of the matching.
-/

namespace Leka.EventMoves

open Procedures Orders OrderPools PriceLadders OrderBooks MatchingEngines Buckets SyncedBooks
  BookRemovals BookInsertions RestingOrders ReferenceMatchers Sweeps MatchingRounds EventOutcomes
  MatcherRefinement BookRuns

/-- Price and sequence number. -/
def keyOf (order : Resting) : ℕ × ℕ := (order.price, order.sequenceNumber)

def keys (book : OrderBook) (d : Bool) : List (ℕ × ℕ) := (resting book d).map keyOf

inductive Moves (s s' : EngineState) : Prop
  | leave (hcounter : s.currentSequence ≤ s'.currentSequence)
      (hkeys : ∀ d, (keys s'.orderBook d).Sublist (keys s.orderBook d))
  | join {order : NewOrder} {left : ℕ}
      (hcounter : s'.currentSequence.toNat = s.currentSequence.toNat + 1)
      (hopposite : (keys s'.orderBook (!isBid order)).Sublist (keys s.orderBook (!isBid order)))
      (hown : resting s'.orderBook (isBid order) = enqueue (isBid order)
        (remainder order s'.currentSequence.toNat left) (resting s.orderBook (isBid order)))
      (hfree : ∀ r ∈ resting s'.orderBook (!isBid order),
        noWorse (isBid order) order.price.toNat r.price = false)

section Limits

variable {order : NewOrder} {a b : Resting}

theorem noWorse_not (d : Bool) (a b : ℕ) : noWorse (!d) a b = noWorse d b a := by
  cases d <;> rfl

/-- What allows a worse price allows a better one. -/
theorem allows_mono (hab : noWorse (!isBid order) a.price b.price = true)
    (hb : allows order b = true) : allows order a = true := by
  rw [noWorse_not] at hab
  rw [allows, Bool.or_eq_true] at hb ⊢
  exact hb.imp_right fun hlimit => noWorse_trans hlimit hab

/-- Once the limit rules out the first order of a sorted side, it rules out the rest. -/
theorem none_allowed {orders : List Resting}
    (hsorted : orders.Pairwise fun a b => noWorse (!isBid order) a.price b.price = true)
    (hhead : ∀ y ys, orders = y :: ys → allows order y = false) :
    ∀ r ∈ orders, allows order r = false := by
  intro r hr
  cases orders with
  | nil => simp at hr
  | cons y ys =>
    have hy := hhead y ys rfl
    rcases List.mem_cons.mp hr with rfl | hr
    · exact hy
    · rw [← Bool.not_eq_true] at hy ⊢
      exact fun hallow => hy (allows_mono ((List.pairwise_cons.mp hsorted).1 r hr) hallow)

end Limits

section Events

variable {hash : OrderId → UInt64} {host : Host} {order : NewOrder} {s s' : EngineState}

theorem sorted_resting {book : OrderBook} (hs : Sound hash book) (d : Bool) :
    (resting book d).Pairwise fun a b => noWorse d a.price b.price = true := by
  rw [resting, List.pairwise_map]
  exact sorted_sideOrders hs.synced.toLevelsOk d

theorem keys_fill (order : NewOrder) (demand : ℕ) (orders : List Resting) :
    ((fill order demand orders).rest.map keyOf).Sublist (orders.map keyOf) := by
  have hkeep : ∀ (resting : Resting) n, keyOf (resting.withRemaining n) = keyOf resting :=
    fun _ _ => rfl
  exact rest_sublist hkeep demand orders

theorem keys_resizeId (id : OrderId) (quantity : ℕ) (orders : List Resting) :
    (orders.map (resizeId id quantity)).map keyOf = orders.map keyOf := by
  rw [List.map_map]
  apply List.map_congr_left
  intro r _
  rw [Function.comp_apply, resizeId]
  split_ifs <;> rfl

theorem keys_matched {fills : List (Resting × ℕ)} {rest : List Resting}
    (h : Matched hash order (numbered s) s' fills rest)
    (hrest : (rest.map keyOf).Sublist (keys s.orderBook (!isBid order))) (d : Bool) :
    (keys s'.orderBook d).Sublist (keys s.orderBook d) := by
  by_cases hd : d = isBid order
  · rw [hd, keys, h.own]
    exact List.Sublist.refl _
  · have hd' : d = !isBid order := by
      cases d <;> cases hb : isBid order <;> simp_all
    rw [hd', keys, h.opposite]
    exact hrest

theorem counter_matched {fills : List (Resting × ℕ)} {rest : List Resting}
    (hcounter : s.currentSequence ≠ uint64Max)
    (h : Matched hash order (numbered s) s' fills rest) :
    s'.currentSequence.toNat = s.currentSequence.toNat + 1 := by
  rw [h.counter]
  exact toNat_succ hcounter

theorem new_moves {o : Outcome StdException Unit} (hends : NewEnds hash host order s (o, s')) :
    Moves s s' := by
  have hle : ∀ {t : EngineState}, t.currentSequence.toNat = s.currentSequence.toNat + 1 →
      s.currentSequence ≤ t.currentSequence := by
    intro t ht
    rw [UInt64.le_iff_toNat_le]
    omega
  cases hends with
  | rejected => exact Moves.leave (UInt64.le_refl _) fun d => List.Sublist.refl _
  | full haccepted hj hroom hfull hmatched =>
    refine Moves.leave (hle (counter_matched haccepted.counter hmatched)) (keys_matched hmatched ?_)
    rw [keys]
    exact (List.drop_sublist _ _).map keyOf
  | done haccepted hroom hmatched hdone =>
    exact Moves.leave (hle (counter_matched haccepted.counter hmatched))
      (keys_matched hmatched (keys_fill _ _ _))
  | @refused s₁ left book' e haccepted hroom hmatched hlimit hleft hpositive hnot hrejected =>
    refine Moves.leave (hle (t := s₁) (counter_matched haccepted.counter hmatched)) ?_
    intro d
    have hsame : keys book' d = keys s₁.orderBook d := by
      rw [keys, keys, resting_rejected hmatched.sound.synced.toLevelsOk hrejected]
    change (keys book' d).Sublist _
    rw [hsame]
    exact keys_matched hmatched (keys_fill _ _ _) d
  | @rested s₁ left book' l p haccepted hroom hmatched hlimit hleft hpositive hinsertable
      hinserted =>
    have hlevels := hmatched.sound.synced.toLevelsOk
    have hbuy : (remainderOrder order (s.currentSequence + 1) left).isBuy = isBid order := rfl
    have hcounter := counter_matched haccepted.counter hmatched
    have hopposite : resting book' (!isBid order) = resting s₁.orderBook (!isBid order) :=
      resting_inserted_ne hlevels hinserted (by rw [hbuy]; cases isBid order <;> simp)
    refine @Moves.join s _ order left.toNat hcounter ?_ ?_ ?_
    · change (keys book' _).Sublist _
      rw [keys, hopposite]
      exact keys_matched hmatched (keys_fill _ _ _) _
    · change resting book' _ = _
      have hinsert := resting_inserted hlevels hinserted
      rw [hbuy] at hinsert
      rw [hinsert, hmatched.own]
      change enqueue _ _ _ = enqueue _ (remainder order s₁.currentSequence.toNat _) _
      rw [hcounter, ← toNat_succ haccepted.counter]
      rfl
    · intro r hr
      change r ∈ resting book' _ at hr
      rw [hopposite] at hr
      have hnone := none_allowed (sorted_resting hmatched.sound (!isBid order))
        (fun y ys hy => ?_) r hr
      · rw [allows, Bool.or_eq_false_iff] at hnone
        exact hnone.2
      · rw [hmatched.opposite] at hy
        refine @rest_head _ _ _ (allows order) _ (resting s.orderBook (!isBid order)) _ _ ?_ hy
        intro hzero
        exact hpositive (UInt64.toNat_inj.mp (hleft.trans hzero))

theorem Moves.of_emptied (h : Moves (emptied s) s') : Moves s s' := by
  cases h with
  | leave hcounter hkeys => exact Moves.leave hcounter hkeys
  | join hcounter hopposite hown hfree => exact Moves.join hcounter hopposite hown hfree

/-- However an event ends. -/
theorem event_moves {event : OrderEvent} {o : Outcome StdException ℕ}
    (hs : Sound hash s.orderBook) (h : EventEnds hash host s event (o, s')) : Moves s s' := by
  cases h with
  | new hends => exact (new_moves hends).of_emptied
  | cancelled hid hp horder hremoved =>
    refine Moves.leave (UInt64.le_refl _) ?_
    intro d
    rw [keys, keys, resting_removed hs.synced hp hremoved]
    exact List.filter_sublist.map keyOf
  | reduced hid hp horder hpositive hquantity =>
    refine Moves.leave (UInt64.le_refl _) ?_
    intro d
    have hresized := synced_resize hs.synced hp (UInt64.le_of_lt hquantity)
    change (keys (withTotal _ _ _) d).Sublist _
    rw [keys, keys, resting_resizedId hs.synced hp hresized.toLevelsOk, keys_resizeId]
  | cancelInvalid | cancelAbsent | reduceInvalid | reduceAbsent | reduceRefused | reduceSame =>
    exact Moves.leave (UInt64.le_refl _) fun d => List.Sublist.refl _

end Events

/-- What holds of an empty book, whatever the counter, and is kept by every move holds in
every state of a run of events. -/
theorem events_induction {hash : OrderId → UInt64} {P : EngineState → Prop}
    (hempty : ∀ s : EngineState, (∀ d, resting s.orderBook d = []) → P s)
    (helsewhere : ∀ (s : EngineState) (counter : UInt64), P s → s.currentSequence ≤ counter →
      P { s with currentSequence := counter })
    (hmoves : ∀ s s' : EngineState, Sound hash s.orderBook → P s → Moves s s' → P s')
    {s : EngineState} (h : Reachable hash EventsOnly s) : P s := by
  induction h with
  | start hmake counter out => exact hempty _ (resting_make hmake)
  | elsewhere _ hle ih => exact helsewhere _ _ ih hle
  | @call s s' hreach c hpermits o hrun hends ih =>
    have hs := reachable_sound (hreach.mono fun _ _ => EventsOnly.anyCall)
    obtain ⟨host, event, _, hstate⟩ := event_of_call hpermits hrun
    have hmove : Moves s (MatchingEngines.processEvent hash host event s).2 :=
      event_moves hs (processEvent_ends hs host event)
    rw [hstate] at hmove
    exact hmoves _ _ hs ih hmove

end Leka.EventMoves
