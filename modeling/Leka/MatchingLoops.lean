import Leka.EventOutcomes

/-!
Rules for the matching loop as a whole. A property of a run of the loop follows from its
three kinds of rounds: one at which the loop is left, one that uses up the first order of the
opposite side, and one that ends inside it, behind which nothing is left to execute. Two
orders that no resting order tells apart go through the same states.
-/

namespace Leka.MatchingLoops

open Procedures Orders OrderPools PriceLevels PriceLadders OrderBooks MatchingEngines SyncedBooks
  BookRemovals BookInsertions RestingOrders ReferenceMatchers Sweeps MatchingRounds EventOutcomes

section Rule

variable {hash : OrderId → UInt64} {host : Host} {order : NewOrder} {remaining : UInt64}
  {s : EngineState}

/-- The loop is left by its condition or at a break. -/
def Leaves (order : NewOrder) (remaining : UInt64) (book : OrderBook) : Prop :=
  remaining = 0 ∨ sideOrders book (fifo book) (!isBid order) = [] ∨
    ∃ p ps, sideOrders book (fifo book) (!isBid order) = p :: ps ∧
      limitForbids order (book.memory p).price = true

/-- The state after a round that used up `p` and left `book'`. -/
abbrev afterFill (order : NewOrder) (s : EngineState) (p : OrderPtr) (book' : OrderBook) :
    EngineState :=
  { s with
    orderBook := book'
    out := s.out ++ [executionOf order (s.orderBook.memory p)
      (s.orderBook.memory p).remainingQuantity] }

/-- The state after a round that ended inside `p`. -/
abbrev afterPart (order : NewOrder) (s : EngineState) (remaining : UInt64) (l : LevelPtr)
    (p : OrderPtr) : EngineState :=
  { s with
    orderBook := withTotal
      (withRemaining s.orderBook p ((s.orderBook.memory p).remainingQuantity - remaining))
      l ((s.orderBook.level l).totalQuantity - remaining)
    out := s.out ++ [executionOf order (s.orderBook.memory p) remaining] }

theorem matchRound_zero (s : EngineState) :
    matchRound hash host order 0 s = (.returns none, s) := by
  rw [matchRound, if_pos rfl]
  rfl

/-- What holds of a run that is left at once, and is handed on from the state behind a round,
holds of every run of the loop. The fuel covers the opposite side. -/
theorem matchLoop_rule
    {motive : UInt64 → EngineState → Outcome StdException UInt64 × EngineState → Prop}
    (leaves : ∀ remaining s, Sound hash s.orderBook → Leaves order remaining s.orderBook →
      matchRound hash host order remaining s = (.returns none, s) →
      motive remaining s (.returns remaining, s))
    (refused : ∀ remaining s l p ps, Sound hash s.orderBook →
      Meets order s.orderBook (fifo s.orderBook) remaining l p ps →
      host.buffer s.out.length = false →
      matchRound hash host order remaining s = (.throws .badAlloc, s) →
      motive remaining s (.throws .badAlloc, s))
    (filled : ∀ remaining s l p ps book' result, Sound hash s.orderBook →
      Meets order s.orderBook (fifo s.orderBook) remaining l p ps →
      host.buffer s.out.length = true → (s.orderBook.memory p).remainingQuantity ≤ remaining →
      Removed hash (withRemaining s.orderBook p 0) book' (fifo s.orderBook) l p →
      matchRound hash host order remaining s =
        (.returns (some (remaining - (s.orderBook.memory p).remainingQuantity)),
          afterFill order s p book') →
      motive (remaining - (s.orderBook.memory p).remainingQuantity) (afterFill order s p book')
        result →
      motive remaining s result)
    (partly : ∀ remaining s l p ps, Sound hash s.orderBook →
      Meets order s.orderBook (fifo s.orderBook) remaining l p ps →
      host.buffer s.out.length = true → remaining < (s.orderBook.memory p).remainingQuantity →
      matchRound hash host order remaining s =
        (.returns (some 0), afterPart order s remaining l p) →
      motive remaining s (.returns 0, afterPart order s remaining l p))
    (hs : Sound hash s.orderBook) {fuel : ℕ}
    (hfuel : (resting s.orderBook (!isBid order)).length < fuel) (remaining : UInt64) :
    motive remaining s (matchLoop hash host order fuel remaining s) := by
  induction fuel generalizing remaining s with
  | zero => omega
  | succ fuel ih =>
    have hends := matchRound_ends hs.synced host order remaining
    generalize hround : matchRound hash host order remaining s = result at hends
    cases hends with
    | stops hstops =>
      rw [matchLoop_stops hround]
      exact leaves remaining s hs hstops hround
    | refused hmeets hbuffer =>
      rw [matchLoop_throws hround]
      exact refused remaining s _ _ _ hs hmeets hbuffer hround
    | filled hmeets hbuffer hle hremoved =>
      have hmatched := matched_filled hs hmeets hremoved
      rw [matchLoop_continues hround]
      apply filled remaining s _ _ _ _ _ hs hmeets hbuffer hle hremoved hround
      apply ih hmatched.sound
      have hlength := hmeets.length_resting
      rw [hmatched.opposite, List.length_map]
      omega
    | partly hmeets hbuffer hlt =>
      have hlength := hmeets.length_resting
      rw [matchLoop_continues hround]
      -- the round that follows finds nothing left to execute
      obtain ⟨fuel, rfl⟩ : ∃ n, fuel = n + 1 := ⟨fuel - 1, by omega⟩
      rw [matchLoop_stops (matchRound_zero _)]
      exact partly remaining s _ _ _ hs hmeets hbuffer hlt hround

/-- An order that executes nothing leaves the state as it is. -/
theorem matchLoop_idle (hs : Sound hash s.orderBook) (htests : TestsLimit order) {fuel : ℕ}
    (hfuel : (resting s.orderBook (!isBid order)).length < fuel)
    (hfill : (fill order remaining.toNat (resting s.orderBook (!isBid order))).fills = []) :
    matchLoop hash host order fuel remaining s = (.returns remaining, s) := by
  have hmeetsNone : ∀ {l p ps}, ¬ Meets order s.orderBook (fifo s.orderBook) remaining l p ps := by
    intro l p ps hmeets
    have hpos := fills_pos htests hmeets
    rw [hfill] at hpos
    exact Nat.lt_irrefl 0 hpos
  obtain ⟨fuel, rfl⟩ : ∃ n, fuel = n + 1 := ⟨fuel - 1, by omega⟩
  have hends := matchRound_ends hs.synced host order remaining
  generalize hround : matchRound hash host order remaining s = result at hends
  cases hends with
  | stops hstops => exact matchLoop_stops hround
  | refused hmeets => exact absurd hmeets hmeetsNone
  | filled hmeets => exact absurd hmeets hmeetsNone
  | partly hmeets => exact absurd hmeets hmeetsNone

/-- A call that returns went through the loop, and inserted what a limit order had left. -/
theorem matchOrder_returns {s' : EngineState} (hs : Sound hash s.orderBook)
    (hrun : matchOrder hash host order s = (.returns (), s')) : Accepted order s ∧
      ∃ left t, matchLoop hash host order (s.orderBook.orderPool.liveOrderCount.toNat + 1)
          order.quantity (numbered s) = (.returns left, t) ∧
        (¬ (left > 0 ∧ order.orderType = .limit) ∧ s' = t ∨
          (left > 0 ∧ order.orderType = .limit) ∧ ∃ p book', s' = { t with orderBook := book' } ∧
            insertOrder hash host (remainderOrder order (s.currentSequence + 1) left) t.orderBook =
              (.returns p, book')) := by
  by_cases haccepted : Accepted order s
  swap
  · obtain ⟨e, hthrows⟩ := matchOrder_rejected hs host haccepted
    rw [hrun] at hthrows
    simp at hthrows
  refine ⟨haccepted, ?_⟩
  rw [matchOrder_accepted hs host haccepted] at hrun
  generalize hloop : matchLoop hash host order
    (s.orderBook.orderPool.liveOrderCount.toNat + 1) order.quantity (numbered s) = result at hrun
  obtain ⟨o, t⟩ := result
  cases o with
  | throws e =>
    rw [Proc.bind_throws _ hloop] at hrun
    simp at hrun
  | diverges =>
    rw [Proc.bind_diverges _ hloop] at hrun
    simp at hrun
  | returns left =>
    rw [Proc.bind_returns _ hloop] at hrun
    refine ⟨left, t, rfl, ?_⟩
    by_cases hrests : left > 0 ∧ order.orderType = .limit
    · rw [if_pos hrests] at hrun
      generalize hinsert : insertOrder hash host
        (remainderOrder order (s.currentSequence + 1) left) t.orderBook = inserted at hrun
      obtain ⟨o, book'⟩ := inserted
      cases o with
      | returns p =>
        rw [Proc.bind_returns _ (onBook_run hinsert)] at hrun
        exact .inr ⟨hrests, p, book', (congrArg Prod.snd hrun).symm, rfl⟩
      | throws e =>
        rw [Proc.bind_throws _ (onBook_run hinsert)] at hrun
        simp at hrun
      | diverges =>
        rw [Proc.bind_diverges _ (onBook_run hinsert)] at hrun
        simp at hrun
    · rw [if_neg hrests] at hrun
      exact .inl ⟨hrests, (congrArg Prod.snd hrun).symm⟩

end Rule

end Leka.MatchingLoops
