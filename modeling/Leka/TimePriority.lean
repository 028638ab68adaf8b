import Leka.EventMoves

/-!
Time priority. Numbers are handed out before matching and queues are joined at the back, so
along a run of events the numbers grow from head to tail of every level. Each execution of
a NEW event then meets, among the orders resting on the other side at that moment, the one
with the best price and the smallest number.
-/

namespace Leka.TimePriority

open Procedures Orders OrderPools PriceLadders OrderBooks MatchingEngines Buckets SyncedBooks
  BookRemovals BookInsertions RestingOrders ReferenceMatchers Sweeps MatchingRounds EventOutcomes
  MatcherRefinement BookRuns EventMoves

/-- The numbers of the resting orders: growing at each price, distinct, and given out. -/
structure Numbered (s : EngineState) : Prop where
  ordered : ∀ d, (keys s.orderBook d).Pairwise fun a b => a.1 = b.1 → a.2 < b.2
  distinct : ((keys s.orderBook true ++ keys s.orderBook false).map Prod.snd).Nodup
  bounded : ∀ d, ∀ k ∈ keys s.orderBook d, k.2 ≤ s.currentSequence.toNat

section Steps

variable {s s' : EngineState}

theorem numbered_leave (h : Numbered s) (hcounter : s.currentSequence ≤ s'.currentSequence)
    (hkeys : ∀ d, (keys s'.orderBook d).Sublist (keys s.orderBook d)) : Numbered s' where
  ordered d := (h.ordered d).sublist (hkeys d)
  distinct := h.distinct.sublist (((hkeys true).append (hkeys false)).map Prod.snd)
  bounded d k hk := (h.bounded d k ((hkeys d).subset hk)).trans
    (UInt64.le_iff_toNat_le.mp hcounter)

theorem keys_enqueue (d : Bool) (resting : Resting) (orders : List Resting) :
    ((enqueue d resting orders).map keyOf).Perm (keyOf resting :: orders.map keyOf) :=
  (enqueue_perm d resting orders).map keyOf

/-- A number that was not given out before stays distinct. -/
theorem nodup_join {key : ℕ × ℕ} {xs ys joined : List (ℕ × ℕ)} (hperm : joined.Perm (key :: xs))
    (hnd : ((xs ++ ys).map Prod.snd).Nodup) (hnew : ∀ k ∈ xs ++ ys, k.2 < key.2) :
    ((joined ++ ys).map Prod.snd).Nodup := by
  have hwhole := (hperm.append_right ys).map Prod.snd
  rw [hwhole.nodup_iff, List.cons_append, List.map_cons, List.nodup_cons]
  refine ⟨?_, hnd⟩
  intro hmem
  obtain ⟨k, hk, heq⟩ := List.mem_map.mp hmem
  have hlt := hnew k hk
  omega

section Join

variable {order : NewOrder} {left : ℕ} (h : Numbered s)
  (hcounter : s'.currentSequence.toNat = s.currentSequence.toNat + 1)
  (hopposite : (keys s'.orderBook (!isBid order)).Sublist (keys s.orderBook (!isBid order)))
  (hown : resting s'.orderBook (isBid order) = enqueue (isBid order)
    (remainder order s'.currentSequence.toNat left) (resting s.orderBook (isBid order)))
include h hcounter hown

/-- The own side stays ordered. -/
theorem ordered_join (hsorted : (resting s.orderBook (isBid order)).Pairwise fun a b =>
      noWorse (isBid order) a.price b.price = true) :
    (keys s'.orderBook (isBid order)).Pairwise fun a b => a.1 = b.1 → a.2 < b.2 := by
  have hordered := h.ordered (isBid order)
  rw [keys, List.pairwise_map] at hordered
  rw [keys, hown, List.pairwise_map]
  refine pairwise_insertBehind hsorted (fun a b hab hb => noWorse_trans hab hb) hordered ?_ ?_
  · intro y hy _ _
    have hbound := h.bounded (isBid order) (keyOf y) (List.mem_map_of_mem hy)
    change y.sequenceNumber ≤ _ at hbound
    change y.sequenceNumber < s'.currentSequence.toNat
    omega
  · intro y _ hworse hprice
    have hsame : (remainder order s'.currentSequence.toNat left).price = y.price := hprice
    rw [hsame, noWorse_refl] at hworse
    simp at hworse

include hopposite

theorem numbered_join (hsorted : (resting s.orderBook (isBid order)).Pairwise fun a b =>
      noWorse (isBid order) a.price b.price = true) : Numbered s' := by
  have hown' := ordered_join h hcounter hown hsorted
  have hperm : (keys s'.orderBook (isBid order)).Perm
      (keyOf (remainder order s'.currentSequence.toNat left) ::
        keys s.orderBook (isBid order)) := by
    rw [keys, hown]
    exact keys_enqueue _ _ _
  have hnew : ∀ d, ∀ k ∈ keys s.orderBook d,
      k.2 < (keyOf (remainder order s'.currentSequence.toNat left)).2 := by
    intro d k hk
    have hbound := h.bounded d k hk
    change k.2 < s'.currentSequence.toNat
    omega
  refine ⟨?_, ?_, ?_⟩
  · intro d
    by_cases hd : d = isBid order
    · rw [hd]
      exact hown'
    · have hd' : d = !isBid order := by
        cases d <;> cases hb : isBid order <;> simp_all
      rw [hd']
      exact (h.ordered _).sublist hopposite
  · have hdistinct := h.distinct
    have hswap : ∀ xs ys : List (ℕ × ℕ), ((xs ++ ys).map Prod.snd).Nodup ↔
        ((ys ++ xs).map Prod.snd).Nodup :=
      fun xs ys => (List.perm_append_comm.map Prod.snd).nodup_iff
    have hold : ((keys s.orderBook (isBid order) ++
        keys s'.orderBook (!isBid order)).map Prod.snd).Nodup := by
      refine List.Nodup.sublist (((List.Sublist.refl _).append hopposite).map Prod.snd) ?_
      cases isBid order
      · exact (hswap _ _).mp hdistinct
      · exact hdistinct
    have hjoined := nodup_join hperm hold ?_
    · cases hside : isBid order
      · rw [hside] at hjoined
        exact (hswap _ _).mp hjoined
      · rw [hside] at hjoined
        exact hjoined
    · intro k hk
      rcases List.mem_append.mp hk with hk | hk
      · exact hnew _ k hk
      · exact hnew _ k (hopposite.subset hk)
  · intro d k hk
    by_cases hd : d = isBid order
    · subst d
      rcases List.mem_cons.mp (hperm.subset hk) with rfl | hk
      · exact le_refl _
      · have hbound := h.bounded _ k hk
        omega
    · have hd' : d = !isBid order := by
        cases d <;> cases hb : isBid order <;> simp_all
      subst d
      have hbound := h.bounded _ k (hopposite.subset hk)
      omega

end Join

theorem numbered_moves {hash : OrderId → UInt64} (hs : Sound hash s.orderBook) (h : Numbered s)
    (hmoves : Moves s s') : Numbered s' := by
  cases hmoves with
  | leave hcounter hkeys => exact numbered_leave h hcounter hkeys
  | join hcounter hopposite hown _ =>
    exact numbered_join h hcounter hopposite hown (sorted_resting hs _)

theorem reachable_numbered {hash : OrderId → UInt64} (h : Reachable hash EventsOnly s) :
    Numbered s := by
  refine events_induction ?_ ?_ ?_ h
  · intro s hempty
    have hnone : ∀ d, keys s.orderBook d = [] := by
      intro d
      rw [keys, hempty]
      rfl
    exact ⟨fun d => by simp [hnone], by simp [hnone], fun d => by simp [hnone]⟩
  · intro s counter hs hle
    exact numbered_leave hs hle fun d => List.Sublist.refl _
  · intro s s' hs hnumbered hmoves
    exact numbered_moves hs hnumbered hmoves

end Steps

/-- The states the matching loop passes through, with the quantity still to execute. -/
inductive Rounds (hash : OrderId → UInt64) (host : Host) (order : NewOrder) (s : EngineState)
    (demand : UInt64) : EngineState → UInt64 → Prop
  | start : Rounds hash host order s demand s demand
  | next {t t' : EngineState} {remaining left : UInt64}
      (h : Rounds hash host order s demand t remaining)
      (hround : matchRound hash host order remaining t = (.returns (some left), t')) :
      Rounds hash host order s demand t' left

/-- The execution is against the order on the other side with the best price and, at that
price, the smallest number. -/
def HitsBest (order : NewOrder) (t : EngineState) (x : Execution) : Prop :=
  ∃ l p, l.descending = (!isBid order) ∧ p ∈ fifo t.orderBook l ∧
    x.restingOrderId = (t.orderBook.memory p).orderId ∧
    x.executionPrice = (t.orderBook.memory p).price ∧
    ∀ m q, m.descending = (!isBid order) → q ∈ fifo t.orderBook m → q ≠ p →
      noWorse (!isBid order) (t.orderBook.memory p).price.toNat
        (t.orderBook.memory q).price.toNat = true ∧
      ((t.orderBook.memory p).price = (t.orderBook.memory q).price →
        (t.orderBook.memory p).sequenceNumber < (t.orderBook.memory q).sequenceNumber)

section Rounds

variable {hash : OrderId → UInt64} {host : Host} {order : NewOrder} {s s' t t' : EngineState}
  {demand remaining left : UInt64}

/-- A round that executes meets the first order of the other side. -/
theorem round_returns (hs : Sound hash t.orderBook)
    (hround : matchRound hash host order remaining t = (.returns (some left), t')) :
    ∃ l p ps quantity rest, Meets order t.orderBook (fifo t.orderBook) remaining l p ps ∧
      t'.out = t.out ++ [executionOf order (t.orderBook.memory p) quantity] ∧
      Matched hash order t t' [(restingOf (t.orderBook.memory p), quantity.toNat)] rest ∧
      (rest.map keyOf).Sublist (keys t.orderBook (!isBid order)) := by
  have hends := matchRound_ends hs.synced host order remaining
  rw [hround] at hends
  generalize hresult : ((.returns (some left) : Outcome StdException (Option UInt64)), t') =
    result at hends
  cases hends with
  | stops => simp at hresult
  | refused => simp at hresult
  | filled hmeets _ _ hremoved =>
    rw [Prod.mk.injEq] at hresult
    obtain ⟨_, rfl⟩ := hresult
    refine ⟨_, _, _, _, _, hmeets, rfl, matched_filled hs hmeets hremoved, ?_⟩
    rw [keys, resting, hmeets.first, List.map_cons, List.map_cons]
    exact List.sublist_cons_self _ _
  | partly hmeets _ hlt =>
    rw [Prod.mk.injEq] at hresult
    obtain ⟨_, rfl⟩ := hresult
    refine ⟨_, _, _, _, _, hmeets, rfl, matched_partly hs hmeets hlt, ?_⟩
    rw [keys, resting, hmeets.first, List.map_cons, List.map_cons, List.map_cons]
    exact List.Sublist.refl _

theorem keys_round {fills : List (Resting × ℕ)} {rest : List Resting}
    (h : Matched hash order t t' fills rest)
    (hrest : (rest.map keyOf).Sublist (keys t.orderBook (!isBid order))) (d : Bool) :
    (keys t'.orderBook d).Sublist (keys t.orderBook d) := by
  by_cases hd : d = isBid order
  · rw [hd, keys, h.own]
    exact List.Sublist.refl _
  · have hd' : d = !isBid order := by
      cases d <;> cases hb : isBid order <;> simp_all
    rw [hd', keys, h.opposite]
    exact hrest

/-- Rounds keep the book in order and only take orders away. -/
theorem rounds_keep (hs : Sound hash s.orderBook)
    (h : Rounds hash host order s demand t remaining) :
    Sound hash t.orderBook ∧ ∀ d, (keys t.orderBook d).Sublist (keys s.orderBook d) := by
  induction h with
  | start => exact ⟨hs, fun d => List.Sublist.refl _⟩
  | next _ hround ih =>
    obtain ⟨hsound, hkeys⟩ := ih
    obtain ⟨_, _, _, _, rest, _, _, hmatched, hrest⟩ := round_returns hsound hround
    exact ⟨hmatched.sound, fun d => (keys_round hmatched hrest d).trans (hkeys d)⟩

/-- The head of the other side comes before everything else that rests there. -/
theorem meets_best (hs : Sound hash t.orderBook)
    (hordered : (keys t.orderBook (!isBid order)).Pairwise fun a b => a.1 = b.1 → a.2 < b.2)
    {l : LevelPtr} {p : OrderPtr} {ps : List OrderPtr}
    (hmeets : Meets order t.orderBook (fifo t.orderBook) remaining l p ps) (quantity : Quantity) :
    HitsBest order t (executionOf order (t.orderBook.memory p) quantity) := by
  have hlevels := hs.synced.toLevelsOk
  refine ⟨l, p, hmeets.side, hmeets.mem, rfl, rfl, ?_⟩
  intro m q hm hq hne
  have hmem : q ∈ ps := by
    have hside : q ∈ sideOrders t.orderBook (fifo t.orderBook) (!isBid order) :=
      (hlevels.mem_sideOrders _).mpr ⟨m.index, by rw [← hm]; exact hq⟩
    rw [hmeets.first, List.mem_cons] at hside
    exact hside.resolve_left hne
  have hsorted := sorted_sideOrders hlevels (!isBid order)
  rw [hmeets.first] at hsorted
  rw [keys, resting, hmeets.first, List.map_map, List.pairwise_map] at hordered
  refine ⟨(List.pairwise_cons.mp hsorted).1 q hmem, ?_⟩
  intro hprice
  rw [UInt64.lt_iff_toNat_lt]
  exact (List.pairwise_cons.mp hordered).1 q hmem (congrArg UInt64.toNat hprice)

/-- Each execution comes from a round of its own. -/
theorem rounds_split (hs : Sound hash s.orderBook) (hout : s.out = [])
    (h : Rounds hash host order s demand t remaining) {pre post : List Execution} {x : Execution}
    (hsplit : t.out = pre ++ x :: post) :
    ∃ u u' r left, Rounds hash host order s demand u r ∧ u.out = pre ∧
      matchRound hash host order r u = (.returns (some left), u') ∧ u'.out = pre ++ [x] := by
  induction h generalizing post with
  | start =>
    rw [hout] at hsplit
    simp at hsplit
  | @next t t' remaining left hrounds hround ih =>
    obtain ⟨_, p, _, quantity, _, _, hstep, _, _⟩ :=
      round_returns (rounds_keep hs hrounds).1 hround
    rcases List.eq_nil_or_concat post with rfl | ⟨front, y, rfl⟩
    · have hlast := hstep.symm.trans hsplit
      obtain ⟨hpre, hx⟩ := List.append_inj' hlast rfl
      exact ⟨t, t', remaining, left, hrounds, hpre, hround, hsplit⟩
    · have hlast : t.out ++ [executionOf order (t.orderBook.memory p) quantity] =
          (pre ++ x :: front) ++ [y] := by
        rw [← hstep, hsplit, List.concat_eq_append]
        simp
      exact ih (List.append_inj' hlast rfl).1

/-- The loop ends in a state that its rounds reach. -/
theorem matchLoop_rounds (hs : Sound hash s.orderBook)
    (h : Rounds hash host order s demand t remaining) (fuel : ℕ) :
    ∃ left,
      Rounds hash host order s demand (matchLoop hash host order fuel remaining t).2 left := by
  induction fuel generalizing t remaining with
  | zero => exact ⟨remaining, h⟩
  | succ fuel ih =>
    have hends := matchRound_ends (rounds_keep hs h).1.synced host order remaining
    generalize hround : matchRound hash host order remaining t = result at hends
    cases hends with
    | stops =>
      rw [matchLoop_stops hround]
      exact ⟨remaining, h⟩
    | refused =>
      rw [matchLoop_throws hround]
      exact ⟨remaining, h⟩
    | filled =>
      rw [matchLoop_continues hround]
      exact ih (Rounds.next h hround)
    | partly =>
      rw [matchLoop_continues hround]
      exact ih (Rounds.next h hround)

/-- What an incoming order leaves in the buffer was written by the rounds of its loop. -/
theorem new_rounds (hs : Sound hash s.orderBook) (host : Host) (order : NewOrder) :
    (matchOrder hash host order (emptied s)).2.out = [] ∨
      ∃ t left, Rounds hash host order (numbered (emptied s)) order.quantity t left ∧
        (matchOrder hash host order (emptied s)).2.out = t.out := by
  by_cases haccepted : Accepted order (emptied s)
  swap
  · obtain ⟨e, hrun⟩ := matchOrder_rejected (s := emptied s) hs host haccepted
    left
    rw [hrun]
    rfl
  right
  have hstart : Rounds hash host order (numbered (emptied s)) order.quantity _ _ := Rounds.start
  obtain ⟨left, hrounds⟩ := matchLoop_rounds (s := numbered (emptied s)) hs hstart
    ((emptied s).orderBook.orderPool.liveOrderCount.toNat + 1)
  refine ⟨_, left, hrounds, ?_⟩
  rw [matchOrder_accepted (s := emptied s) hs host haccepted]
  generalize hloop : matchLoop hash host order
    ((emptied s).orderBook.orderPool.liveOrderCount.toNat + 1) order.quantity
    (numbered (emptied s)) = result
  obtain ⟨o, t⟩ := result
  cases o with
  | throws e => rw [Proc.bind_throws _ hloop]
  | diverges => rw [Proc.bind_diverges _ hloop]
  | returns remaining =>
    rw [Proc.bind_returns _ hloop]
    by_cases hrests : remaining > 0 ∧ order.orderType = .limit
    · rw [if_pos hrests]
      have hstate := discard_state (MatchingEngines.onBook (insertOrder hash host
        (remainderOrder order ((emptied s).currentSequence + 1) remaining))) t
      exact (congrArg EngineState.out hstate).trans rfl
    · rw [if_neg hrests]
      rfl

/-- The executions of an incoming order take the other side from the front. -/
theorem new_prefix {o : Outcome StdException Unit} (hends : NewEnds hash host order s (o, s'))
    (hout : s.out = []) : ∃ k, (s'.out.map tradeOf).map (fun x => (x.restingOrderId, x.price)) =
      ((resting s.orderBook (!isBid order)).take k).map fun r => (r.orderId, r.price) := by
  have htaken : ∀ {t : EngineState} {rest : List Resting} (j : ℕ),
      Matched hash order (numbered s) t ((filledBy order s).fills.take j) rest →
      ∃ k, (t.out.map tradeOf).map (fun x => (x.restingOrderId, x.price)) =
        ((resting s.orderBook (!isBid order)).take k).map fun r => (r.orderId, r.price) := by
    intro t rest j hmatched
    have htrades := hmatched.trades
    rw [show (numbered s).out = [] from hout, List.map_nil, List.nil_append] at htrades
    have hfirst : (filledBy order s).fills.map Prod.fst =
        (resting s.orderBook (!isBid order)).take (filledBy order s).fills.length :=
      fills_isPrefix _ _
    refine ⟨min j (filledBy order s).fills.length, ?_⟩
    rw [← List.take_take, ← hfirst, htrades, ← List.map_take, List.map_map, List.map_map]
    rfl
  have hall := @List.take_length _ (filledBy order s).fills
  cases hends with
  | rejected => exact ⟨0, by rw [hout]; rfl⟩
  | full _ _ _ _ hmatched => exact htaken _ hmatched
  | done _ _ hmatched _ => exact htaken _ (by rw [hall]; exact hmatched)
  | rested _ _ hmatched _ _ _ _ _ =>
    have hmatched' := htaken (filledBy order s).fills.length (by rw [hall]; exact hmatched)
    exact hmatched'
  | refused _ _ hmatched _ _ _ _ _ =>
    have hmatched' := htaken (filledBy order s).fills.length (by rw [hall]; exact hmatched)
    exact hmatched'

/-- The queue of a level is a part of its side. -/
theorem fifo_sublist (hs : Sound hash s.orderBook) (l : LevelPtr) :
    (fifo s.orderBook l).Sublist (sideOrders s.orderBook (fifo s.orderBook) l.descending) := by
  by_cases hnil : fifo s.orderBook l = []
  · rw [hnil]
    exact List.nil_sublist _
  · rw [sideOrders_split (hs.synced.toLevelsOk.index_lt hnil)]
    exact (List.sublist_append_left _ _).trans (List.sublist_append_right _ _)

theorem fifo_ordered (hs : Sound hash s.orderBook) (h : Numbered s) (l : LevelPtr) :
    (fifo s.orderBook l).Pairwise fun p q =>
      (s.orderBook.memory p).sequenceNumber < (s.orderBook.memory q).sequenceNumber := by
  have hside := h.ordered l.descending
  rw [keys, resting, List.map_map, List.pairwise_map] at hside
  refine (hside.sublist (fifo_sublist hs l)).imp_of_mem ?_
  intro p q hp hq hpq
  have hrep := hs.synced.represents l
  rw [UInt64.lt_iff_toNat_lt]
  exact hpq (congrArg UInt64.toNat ((hrep.price p hp).trans (hrep.price q hq).symm))

theorem sequence_injective (hs : Sound hash s.orderBook) (h : Numbered s) {l m : LevelPtr}
    {p q : OrderPtr} (hp : p ∈ fifo s.orderBook l) (hq : q ∈ fifo s.orderBook m)
    (heq : (s.orderBook.memory p).sequenceNumber = (s.orderBook.memory q).sequenceNumber) :
    p = q := by
  have hdistinct := h.distinct
  have hkeys : (keys s.orderBook true ++ keys s.orderBook false).map Prod.snd =
      (restingOrders s.orderBook (fifo s.orderBook)).map fun p =>
        (s.orderBook.memory p).sequenceNumber.toNat := by
    simp only [keys, resting, restingOrders, List.map_append, List.map_map]
    rfl
  rw [hkeys] at hdistinct
  have hmem : ∀ {l : LevelPtr} {p : OrderPtr}, p ∈ fifo s.orderBook l →
      p ∈ restingOrders s.orderBook (fifo s.orderBook) :=
    fun hp => hs.synced.toLevelsOk.mem_restingOrders.mpr ⟨_, hp⟩
  exact List.inj_on_of_nodup_map hdistinct (hmem hp) (hmem hq) (congrArg UInt64.toNat heq)

theorem sequence_bounded (hs : Sound hash s.orderBook) (h : Numbered s) {l : LevelPtr}
    {p : OrderPtr} (hp : p ∈ fifo s.orderBook l) :
    (s.orderBook.memory p).sequenceNumber ≤ s.currentSequence := by
  rw [UInt64.le_iff_toNat_le]
  refine h.bounded l.descending (keyOf (restingOf (s.orderBook.memory p))) ?_
  rw [keys, resting, List.map_map]
  exact List.mem_map_of_mem ((fifo_sublist hs l).subset hp)

theorem resting_strict (hs : Sound hash s.orderBook) (h : Numbered s) (d : Bool) :
    (resting s.orderBook d).Pairwise fun a b => noWorse d a.price b.price = true ∧
      (a.price = b.price → a.sequenceNumber < b.sequenceNumber) := by
  have hordered := h.ordered d
  rw [keys, List.pairwise_map] at hordered
  exact (sorted_resting hs d).and hordered

/-- The rounds of an incoming order hit the best order each time. -/
theorem new_hits (hs : Sound hash s.orderBook) (h : Numbered s) {pre post : List Execution}
    {x : Execution}
    (hsplit : (matchOrder hash host order (emptied s)).2.out = pre ++ x :: post) :
    ∃ t t' remaining left,
      Rounds hash host order (numbered (emptied s)) order.quantity t remaining ∧ t.out = pre ∧
      matchRound hash host order remaining t = (.returns (some left), t') ∧
      t'.out = pre ++ [x] ∧ HitsBest order t x := by
  rcases new_rounds hs host order with hnone | ⟨u, r, hrounds, hout⟩
  · rw [hnone] at hsplit
    simp at hsplit
  rw [hout] at hsplit
  obtain ⟨t, t', remaining, left, ht, htout, hround, hstep⟩ :=
    rounds_split (s := numbered (emptied s)) hs rfl hrounds hsplit
  obtain ⟨hsound, hkeys⟩ := rounds_keep (s := numbered (emptied s)) hs ht
  obtain ⟨l, p, ps, quantity, rest, hmeets, hwritten, _, _⟩ := round_returns hsound hround
  refine ⟨t, t', remaining, left, ht, htout, hround, hstep, ?_⟩
  have hx : [executionOf order (t.orderBook.memory p) quantity] = [x] := by
    rw [hwritten, htout] at hstep
    exact List.append_cancel_left hstep
  rw [← List.singleton_inj.mp hx]
  exact meets_best hsound ((h.ordered _).sublist (hkeys _)) hmeets quantity

/-- In every state of a run of events the numbers grow from head to tail of every level, are
distinct and have been given out; and whatever an incoming order does in it, each execution
hits the order with the best price and then the smallest number among those then resting on
the other side, so the executions follow the other side's priority. -/
theorem reachable_time_priority (h : Reachable hash EventsOnly s) :
    (∀ l, (fifo s.orderBook l).Pairwise fun p q =>
      (s.orderBook.memory p).sequenceNumber < (s.orderBook.memory q).sequenceNumber) ∧
    (∀ l m p q, p ∈ fifo s.orderBook l → q ∈ fifo s.orderBook m →
      (s.orderBook.memory p).sequenceNumber = (s.orderBook.memory q).sequenceNumber → p = q) ∧
    (∀ l, ∀ p ∈ fifo s.orderBook l,
      (s.orderBook.memory p).sequenceNumber ≤ s.currentSequence) ∧
    ∀ host order o s', processEvent hash host (.new order) s = (o, s') →
      (∀ pre x post, s'.out = pre ++ x :: post → ∃ t t' remaining left,
        Rounds hash host order (numbered (emptied s)) order.quantity t remaining ∧ t.out = pre ∧
        matchRound hash host order remaining t = (.returns (some left), t') ∧
        t'.out = pre ++ [x] ∧ HitsBest order t x) ∧
      (∃ k, (s'.out.map tradeOf).map (fun x => (x.restingOrderId, x.price)) =
        ((resting s.orderBook (!isBid order)).take k).map fun r => (r.orderId, r.price)) ∧
      (resting s.orderBook (!isBid order)).Pairwise fun a b =>
        noWorse (!isBid order) a.price b.price = true ∧
          (a.price = b.price → a.sequenceNumber < b.sequenceNumber) := by
  have hs := reachable_sound (h.mono fun _ _ => EventsOnly.anyCall)
  have hnumbered := reachable_numbered h
  refine ⟨fifo_ordered hs hnumbered, fun l m p q hp hq => sequence_injective hs hnumbered hp hq,
    fun l p hp => sequence_bounded hs hnumbered hp, ?_⟩
  intro host order o s' hrun
  have hstate : (matchOrder hash host order (emptied s)).2 = s' := by
    generalize hmatch : matchOrder hash host order (emptied s) = result
    obtain ⟨o', t⟩ := result
    rw [processEvent_new hmatch, Prod.mk.injEq] at hrun
    exact hrun.2
  have hends := matchOrder_ends (s := emptied s) hs host order
  refine ⟨?_, ?_, resting_strict hs hnumbered _⟩
  · intro pre x post hsplit
    rw [← hstate] at hsplit
    exact new_hits hs hnumbered hsplit
  · rw [← hstate]
    exact new_prefix (s := emptied s) hends rfl

/-- Two asks at one price, hit by an order that is larger than the first. -/
theorem time_priority_of_two_asks : ∃ (s s' : EngineState) (p q : OrderPtr),
    fifo s.orderBook ⟨false, 0⟩ = [p, q] ∧
    (s.orderBook.memory p).sequenceNumber < (s.orderBook.memory q).sequenceNumber ∧
    s'.out.length = 2 ∧
    ∃ k, (s'.out.map tradeOf).map (fun x => (x.restingOrderId, x.price)) =
      ((resting s.orderBook false).take k).map fun r => (r.orderId, r.price) := by
  obtain ⟨s, hs, hp⟩ := @exists_reachable id _ _ eventsOnly_of_isEvent 100 1 2
    [.processEvent grantingHost (.new ⟨1, 100, 4, 5, .sell, .limit⟩),
      .processEvent grantingHost (.new ⟨2, 100, 4, 5, .sell, .limit⟩)]
    (fun s => (fifo s.orderBook ⟨false, 0⟩).length = 2 ∧
      (processEvent id grantingHost (.new ⟨3, 100, 6, 5, .buy, .limit⟩) s).2.out.length = 2)
    (by decide +kernel)
  obtain ⟨htwo, hout⟩ := of_decide_eq_true hp
  obtain ⟨p, q, hqueue⟩ := List.length_eq_two.mp htwo
  obtain ⟨hordered, _, _, hnew⟩ := reachable_time_priority hs
  have hpq := hordered ⟨false, 0⟩
  rw [hqueue, List.pairwise_pair] at hpq
  exact ⟨s, _, p, q, hqueue, hpq, hout,
    (hnew grantingHost ⟨3, 100, 6, 5, .buy, .limit⟩ _ _ rfl).2.1⟩

end Rounds

end Leka.TimePriority
