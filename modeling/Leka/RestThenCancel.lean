import Leka.MatchingLoops
import Leka.UpkeepOrders

/-!
An order that rests without an execution and is cancelled again leaves no trace. It is
appended to a queue and counted in the aggregate of its level; reductions take from the order
and the aggregate alike, and the cancellation takes out the rest. What stays different is
free memory: pages, slots of the index and the places of the keys in it.
-/

namespace Leka.RestThenCancel

open Procedures Orders OrderPools PriceLevels PriceLadders OrderBooks MatchingEngines SyncedBooks
  BookInsertions RestingOrders ReferenceMatchers Sweeps MatchingRounds EventOutcomes MatchingLoops
  BookRuns FailedInsertions BookViews UpkeepOrders

section Resting

variable {hash : OrderId → UInt64} {host : Host} {order : NewOrder} {s s' : EngineState}

/-- A limit order that returns without an execution has been inserted whole. -/
theorem rested_whole (hs : Sound hash s.orderBook) (hlimit : order.orderType = .limit)
    (hrun : matchOrder hash host order s = (.returns (), s')) (hnone : s'.out = []) :
    Accepted order s ∧ ∃ l p,
      Insertable host s.orderBook (fifo s.orderBook)
        (remainderOrder order (s.currentSequence + 1) order.quantity) ∧
      Inserted hash s.orderBook s'.orderBook (fifo s.orderBook) l p
        (remainderOrder order (s.currentSequence + 1) order.quantity) := by
  have hends := matchOrder_ends hs host order
  rw [hrun] at hends
  obtain ⟨haccepted, left, t, hloop', hinserts⟩ := matchOrder_returns hs hrun
  have hfills : (filledBy order s).fills = [] := by
    have htrades : ∀ {s₁ rest}, Matched hash order (numbered s) s₁ (filledBy order s).fills rest →
        s₁.out = [] → (filledBy order s).fills = [] := by
      intro s₁ rest hmatched hout
      have htrades := hmatched.trades
      rw [hout, List.map_nil, eq_comm, List.append_eq_nil_iff] at htrades
      exact List.map_eq_nil_iff.mp htrades.2
    cases hends with
    | done _ _ hmatched => exact htrades hmatched hnone
    | rested _ _ hmatched => exact htrades hmatched hnone
  obtain ⟨_, hquantity, _⟩ := valid_fields haccepted.valid
  have hpositive : order.quantity > 0 := by
    rw [gt_iff_lt, UInt64.lt_iff_toNat_lt]
    exact Nat.pos_of_ne_zero fun hzero => hquantity (UInt64.toNat_inj.mp hzero)
  have hloop : matchLoop hash host order (s.orderBook.orderPool.liveOrderCount.toNat + 1)
      order.quantity (numbered s) = (.returns order.quantity, numbered s) :=
    matchLoop_idle (s := numbered s) hs (testsLimit haccepted.valid) (length_resting_le hs _)
      hfills
  rw [hloop] at hloop'
  obtain ⟨hleft, rfl⟩ := Prod.mk.inj hloop'
  obtain rfl := Outcome.returns.inj hleft
  refine ⟨haccepted, ?_⟩
  rcases hinserts with ⟨hnot, _⟩ | ⟨_, _, book', rfl, hinsert⟩
  · exact absurd ⟨hpositive, hlimit⟩ hnot
  · obtain ⟨hinsertable, l, p, hinserted⟩ := insertOrder_returns hs.synced hinsert
    exact ⟨l, p, hinsertable, hinserted⟩

end Resting

section Cancelling

variable {hash : OrderId → UInt64} {host : Host} {order : NewOrder} {s s' : EngineState}
  {us : List Upkeep}

theorem changes_append (us vs : List Upkeep) (id : OrderId) (remaining : Quantity) :
    changes (us ++ vs) id remaining = (changes us id remaining).bind (changes vs id) := by
  induction us generalizing remaining with
  | nil => rfl
  | cons u us ih =>
    rw [List.cons_append, changes, changes, Change.andThen, Change.andThen]
    cases u.change id remaining with
    | none => rfl
    | some left => exact ih left

/-- The last event decides that the order is gone. -/
theorem changes_cancelled {id : OrderId} (hlast : us.getLast? = some (.cancel ⟨id⟩))
    (remaining : Quantity) : changes us id remaining = none := by
  obtain ⟨front, rfl⟩ := List.getLast?_eq_some_iff.mp hlast
  rw [changes_append]
  cases changes front id remaining with
  | none => rfl
  | some left =>
    have hgone : (Upkeep.cancel ⟨id⟩).change id left = none := if_pos rfl
    rw [Option.bind_some, changes, Change.andThen, hgone, Option.bind_none]

/-- Without the orders that have the id of the inserted one, the queues are as before. -/
theorem queue_without {book book' : OrderBook} {l : LevelPtr} {p : OrderPtr} {inserted : Order}
    (hi : Inserted hash book book' (fifo book) l p inserted)
    (habsent : ∀ l, ∀ q ∈ fifo book l, (book.memory q).orderId ≠ inserted.orderId)
    {keeps : Order → Bool} (hkeeps : ∀ o : Order, keeps o = decide (o.orderId ≠ inserted.orderId))
    (m : LevelPtr) :
    (fifo book' m).filter (fun q => keeps (book'.memory q)) = fifo book m := by
  have hold : (fifo book m).filter (fun q => keeps (book'.memory q)) = fifo book m := by
    rw [List.filter_eq_self]
    intro q hq
    rw [hkeeps, decide_eq_true_eq, (SyncedBooks.detached_fields (hi.orders m q hq)).1]
    exact habsent m q hq
  rw [fifo_eq hi.synced.toLevelsOk]
  by_cases hm : m = l
  · subst m
    have hnew : keeps (book'.memory p) = false := by
      rw [hkeeps, (SyncedBooks.detached_fields hi.placed).1, decide_eq_false_iff_not, not_not]
    rw [Function.update_self, List.filter_append, hold, List.filter_singleton, hnew]
    exact List.append_nil _
  · rw [Function.update_of_ne hm]
    exact hold

/-- A limit order that rests without an execution and is then cancelled, after any
cancellations and reductions of it, accepted or refused, leaves the book as it was. -/
theorem rest_then_cancel (h : Reachable hash AnyCall s) (hlimit : order.orderType = .limit) {n : ℕ}
    (hnew : processEvent hash host (.new order) s = (.returns n, s')) (hnone : s'.out = [])
    {us : List (Host × Upkeep)} (hnamed : ∀ hu ∈ us, hu.2.orderId = order.orderId)
    (hlast : (us.map Prod.snd).getLast? = some (.cancel ⟨order.orderId⟩)) :
    Restored hash s.orderBook (runUpkeep hash us s').2.orderBook ∧
      fifo (runUpkeep hash us s').2.orderBook = fifo s.orderBook := by
  have hs := reachable_sound h
  obtain ⟨haccepted, l, p, hinsertable, hinserted⟩ :=
    rested_whole (s := emptied s) hs hlimit (matchOrder_of_event hnew) hnone
  change Insertable host s.orderBook (fifo s.orderBook) _ at hinsertable
  change Inserted hash s.orderBook s'.orderBook (fifo s.orderBook) l p _ at hinserted
  have hs' : Sound hash s'.orderBook :=
    sound_of_synced hinserted.synced (positive_inserted hs.positive hinsertable.remaining hinserted)
  have hchanged := runUpkeep_changed hs' us
  have habsent := (absent_iff hs order.orderId).mp haccepted.absent
  have hothers : ∀ id remaining, id ≠ order.orderId →
      changes (us.map Prod.snd) id remaining = some remaining := by
    intro id remaining hne
    apply changes_of_absent
    intro u hu heq
    obtain ⟨hu', hmem, rfl⟩ := List.mem_map.mp hu
    exact hne (heq.symm.trans (hnamed hu' hmem))
  have hkeeps : ∀ o : Order, ((changes (us.map Prod.snd)).at o).isSome =
      decide (o.orderId ≠ order.orderId) := by
    intro o
    by_cases hid : o.orderId = order.orderId
    · rw [Change.at, hid, changes_cancelled hlast]
      simp
    · rw [Change.at, hothers _ _ hid]
      simp [hid]
  have hfifo : ∀ m, fifo (runUpkeep hash us s').2.orderBook m = fifo s.orderBook m := by
    intro m
    rw [hchanged.queue]
    exact queue_without hinserted habsent hkeeps m
  refine ⟨restored_of_view hs hchanged.sound (fun d => (hinserted.grid d).trans (hchanged.grid d))
    hfifo ?_ ?_, funext hfifo⟩
  · intro m q hq
    have hdetached := hinserted.orders m q hq
    have hq' : q ∈ fifo s'.orderBook m :=
      (hchanged.mem.mp ((hfifo m).symm ▸ hq)).1
    have hid : (s'.orderBook.memory q).orderId ≠ order.orderId := by
      rw [(SyncedBooks.detached_fields hdetached).1]
      exact habsent m q hq
    exact (hchanged.orders m q hq' _ (hothers _ _ hid)).trans hdetached
  · intro m
    exact (hchanged.excess_eq m).trans
      (excess_inserted hinserted (hinsertable.fits_level hs.synced.toLevelsOk hinserted) m)

/-- The event returned without an execution. -/
def restsWhole (result : Outcome StdException ℕ × EngineState) : Bool :=
  match result with
  | (.returns _, s) => s.out.isEmpty
  | (.throws _, _) | (.diverges, _) => false

theorem returned_of_restsWhole {result : Outcome StdException ℕ × EngineState}
    (h : restsWhole result = true) : ∃ n s', result = (.returns n, s') ∧ s'.out = [] := by
  obtain ⟨o, s'⟩ := result
  cases o with
  | returns n => exact ⟨n, s', rfl, List.isEmpty_iff.mp h⟩
  | throws _ => cases h
  | diverges => cases h

/-- The order becomes the best of its side, is reduced, and is cancelled. -/
theorem new_best_cancelled : ∃ s s' : EngineState,
    Restored id s.orderBook (runUpkeep id
      [(grantingHost, .reduce ⟨2, 3⟩), (grantingHost, .cancel ⟨2⟩)] s').2.orderBook := by
  obtain ⟨s, hs, hp⟩ := @exists_reachable id _ _ anyCall_of_removesNone 100 1 2
    [.addOrder grantingHost 1 101 10 5 .sell .limit 1]
    (fun s => restsWhole (processEvent id grantingHost (.new ⟨2, 100, 5, 7, .sell, .limit⟩) s))
    (by decide +kernel)
  obtain ⟨n, s', hnew, hnone⟩ := returned_of_restsWhole hp
  have hrestored := @rest_then_cancel id grantingHost _ s s' hs rfl n hnew hnone
    [(grantingHost, .reduce ⟨2, 3⟩), (grantingHost, .cancel ⟨2⟩)] (by simp [Upkeep.orderId])
    (by decide)
  exact ⟨s, s', hrestored.1⟩

end Cancelling

end Leka.RestThenCancel
