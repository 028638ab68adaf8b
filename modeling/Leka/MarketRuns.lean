import Leka.LadderSizes
import Leka.MarketRefinement
import Leka.SeparateEngines

/-!
Runs of the engine and of its market. As long as no host refuses memory, every call of a run has
the outcome, the executions and the book of the market, so engines of one market cannot be told
apart, whatever their hash functions, hosts and reservations are.
-/

namespace Leka.MarketRuns

open Procedures Orders OrderPools PriceLadders OrderBooks MatchingEngines SyncedBooks RestingOrders
  ReferenceMatchers MatchingRounds EventOutcomes MatcherRefinement BookRuns BookGrids
  InternalErrors Observations ReplayedEvents LadderSizes SeparateEngines Markets MarketReadings
  MarketRefinement

section Runs

variable {hash hash' : OrderId → UInt64} {s t : EngineState}

/-- What a call has said and left is what the market says and leaves. -/
structure Agrees (answer : Answer) (response : Response) : Prop where
  outcome : response.outcome = outcomeOf answer.trades.length answer.error
  executions : response.executions.map tradeOf = answer.trades
  side : ∀ d, resting response.orderBook d = answer.market.book.side d
  shown : ∀ d, ∀ i < (response.orderBook.ladder d).levelCount.toNat,
    (response.orderBook.level ⟨d, i⟩).totalQuantity.toNat =
      answer.market.shown d ((response.orderBook.ladder d).slotPrice i)

theorem Gives.agrees {answer : Answer} {result : Outcome StdException ℕ × EngineState}
    (h : Gives [] answer.trades.length answer result) (hs : Sound hash result.2.orderBook) :
    Agrees answer (responseOf result) where
  outcome := h.outcome
  executions := h.trades
  side d := by
    rw [← h.market]
    exact (side_bookOf _ _).symm
  shown d i hi := by
    rw [← h.market]
    exact (shown_level hs hi).symm

theorem alone_agrees (hs : Sound hash s.orderBook) {events : List (Host × OrderEvent)}
    (hmemory : ∀ response ∈ alone hash events s, ¬ RefusesMemory response.outcome) :
    List.Forall₂ Agrees (answers (events.map Prod.snd) (marketOf s)) (alone hash events s) := by
  induction events generalizing s with
  | nil => exact .nil
  | cons sent events ih =>
    obtain ⟨host, event⟩ := sent
    rw [alone] at hmemory ⊢
    obtain ⟨hfirst, hrest⟩ := List.forall_mem_cons.mp hmemory
    rcases processEvent_gives hs host event with hrefused | hgives
    · exact absurd hrefused hfirst
    · have hsound := sound_processEvent hs host event
      have hagrees := Gives.agrees hgives hsound
      have hlater := ih hsound hrest
      rw [hgives.market] at hlater
      exact .cons hagrees hlater

/-- After any calls, the engine says and leaves what its market does, objections and partial
executions included, when no host refuses memory. -/
theorem engine_answers (h : Reachable hash AnyCall s) {events : List (Host × OrderEvent)}
    (hmemory : ∀ response ∈ alone hash events s, ¬ RefusesMemory response.outcome) :
    List.Forall₂ Agrees (answers (events.map Prod.snd) (marketOf s)) (alone hash events s) :=
  alone_agrees (reachable_sound h) hmemory

theorem refusesMemory_throws {α : Type} {e : StdException} :
    RefusesMemory (.throws e : Outcome StdException α) ↔ Storage e :=
  ⟨fun ⟨_, heq, h⟩ => (Outcome.throws.inj heq).symm ▸ h, fun h => ⟨e, rfl, h⟩⟩

instance {α : Type} : DecidablePred fun o : Outcome StdException α => RefusesMemory o
  | .throws _ => decidable_of_iff _ refusesMemory_throws.symm
  | .returns _ => isFalse nofun
  | .diverges => isFalse nofun

/-- An offer, and a bid that takes it and cannot rest, since its price has no level. -/
def refusedBehindTrades : List (Host × OrderEvent) :=
  [(grantingHost, .new ⟨1, 100, 5, 1, .sell, .limit⟩),
    (grantingHost, .new ⟨2, 105, 8, 2, .buy, .limit⟩)]

theorem engine_answers_refusal : ∃ s : EngineState,
    List.Forall₂ Agrees (answers (refusedBehindTrades.map Prod.snd) (marketOf s))
      (alone id refusedBehindTrades s) ∧
    (alone id refusedBehindTrades s).map (fun response =>
      (response.outcome, response.executions.length)) =
        [(.returns 0, 0),
          (.throws (.outOfRange "Price is outside the configured ladder range"), 1)] := by
  obtain ⟨s, hs, hp⟩ := @exists_reachable id _ _ anyCall_of_removesNone 100 1 2 []
    (fun s => (alone id refusedBehindTrades s).map (fun response =>
        (response.outcome, response.executions.length)) =
          [(.returns 0, 0),
            (.throws (.outOfRange "Price is outside the configured ladder range"), 1)] ∧
      ∀ response ∈ alone id refusedBehindTrades s, ¬ RefusesMemory response.outcome)
    (by decide +kernel)
  obtain ⟨hresponses, hmemory⟩ := of_decide_eq_true hp
  exact ⟨s, engine_answers hs hmemory, hresponses⟩

/-- Callers cannot tell the responses apart. -/
structure Alike (response response' : Response) : Prop where
  outcome : response'.outcome = response.outcome
  executions : response'.executions = response.executions
  side : ∀ d, resting response'.orderBook d = resting response.orderBook d

theorem alike_of_agrees {answer : Answer} {response response' : Response}
    (h : Agrees answer response) (h' : Agrees answer response') : Alike response response' where
  outcome := h'.outcome.trans h.outcome.symm
  executions := List.map_injective_iff.mpr tradeOf_injective
    (h'.executions.trans h.executions.symm)
  side d := (h'.side d).trans (h.side d).symm

theorem forall₂_alike {expected : List Answer} {responses responses' : List Response}
    (h : List.Forall₂ Agrees expected responses) (h' : List.Forall₂ Agrees expected responses') :
    List.Forall₂ Alike responses responses' := by
  induction h generalizing responses' with
  | nil =>
    cases h'
    exact .nil
  | cons hfirst _ ih =>
    cases h' with
    | cons hfirst' hrest' => exact .cons (alike_of_agrees hfirst hfirst') (ih hrest')

theorem alone_alike (hs : Sound hash s.orderBook) (ht : Sound hash' t.orderBook)
    (hmarket : marketOf t = marketOf s) {events events' : List (Host × OrderEvent)}
    (hevents : events'.map Prod.snd = events.map Prod.snd)
    (hmemory : ∀ response ∈ alone hash events s, ¬ RefusesMemory response.outcome)
    (hmemory' : ∀ response ∈ alone hash' events' t, ¬ RefusesMemory response.outcome) :
    List.Forall₂ Alike (alone hash events s) (alone hash' events' t) := by
  have hagrees := alone_agrees ht hmemory'
  rw [hmarket, hevents] at hagrees
  exact forall₂_alike (alone_agrees hs hmemory) hagrees

end Runs

section Tools

variable {hash hash' : OrderId → UInt64} {book book' made made' : OrderBook} {counter : UInt64}

/-- Books that look alike are of one market. -/
theorem marketOf_view (hs : Sound hash book) (hs' : Sound hash book') (h : SameView book book')
    (counter : UInt64) : marketOf ⟨counter, book', []⟩ = marketOf ⟨counter, book, []⟩ := by
  refine marketOf_eq (bookOf_eq (fun d => ?_) rfl) (fun d => gridOf_same (h.grid d)) ?_
  · exact (h.side d).trans (side_bookOf ⟨counter, book, []⟩ d).symm
  · exact surplusOf_same hs hs' h.grid fun l _ => h.excess_eq l

theorem sameView_reserved (hs : Sound hash book) (host : Host) (orderCount : UInt64) :
    SameView book (reserveOrderCapacity hash host orderCount book).2 := by
  obtain ⟨o, pool, index, hrun, -⟩ := reserveOrderCapacity_run hs host orderCount
  rw [hrun]
  exact ⟨SameGrids.refl book, fun _ => rfl, fun _ => rfl⟩

theorem sameView_prepared (hs : Sound hash book) (tool : Tool) (host : Host)
    (events : List ParsedEvent) : SameView book (tool.prepare hash host events book).2 := by
  cases tool with
  | benchmark_interchange => exact ⟨SameGrids.refl book, fun _ => rfl, fun _ => rfl⟩
  | snapshot_recorder | threaded_replay_benchmark => exact sameView_reserved hs host _

/-- The market of a new book. -/
def newMarket (minPrice tick : Price) (levelCount counter : UInt64) : Market where
  book := ⟨[], [], counter.toNat⟩
  grid _ := ⟨minPrice.toNat, minPrice.toNat + (levelCount.toNat - 1) * tick.toNat, tick.toNat⟩
  surplus _ _ := 0

theorem surplusOf_make {memory : Memory} {minPrice tick : Price} {levelCount : UInt64}
    (hmake : OrderBook.make memory minPrice tick levelCount = .ok made) (d : Bool) (price : ℕ) :
    surplusOf made d price = 0 := by
  have hexcess : ∀ l, excess made l = 0 := by
    intro l
    have hlevel := level_make ((make_ladders hmake).1 l.descending) l.index
    change ((made.ladder l.descending).level l.index).totalQuantity.toNat - _ = 0
    rw [hlevel]
    exact Nat.zero_sub _
  unfold surplusOf
  split_ifs
  · cases (made.ladder d).indexOf (UInt64.ofNat price) with
    | error => rfl
    | ok index => exact hexcess _
  · rfl

theorem marketOf_make {memory : Memory} {minPrice tick : Price} {levelCount : UInt64}
    (hmake : OrderBook.make memory minPrice tick levelCount = .ok made) (counter : UInt64) :
    marketOf ⟨counter, made, []⟩ = newMarket minPrice tick levelCount counter := by
  refine marketOf_eq (bookOf_eq (fun d => ?_) rfl) (fun d => ?_) fun d price => ?_
  · cases d <;> exact resting_make hmake _
  · have hladder := (make_ladders hmake).1 d
    obtain ⟨-, -, -, -, -, heq⟩ := PriceLadder.make_eq_ok hladder
    have hmax := (PriceLadder.make_spec hladder).1.maxPrice_eq
    have hmin : (made.ladder d).minPrice = minPrice := by rw [heq]
    have htick : (made.ladder d).tickSize = tick := by rw [heq]
    have hcount : (made.ladder d).levelCount = levelCount := by rw [heq]
    rw [hmin, htick, hcount] at hmax
    rw [gridOf, hmin, htick, hmax]
    rfl
  · exact surplusOf_make hmake d price

/-- A reservation does not change the market. -/
theorem marketOf_reserved {memory : Memory} {minPrice tick : Price} {levelCount : UInt64}
    (hmake : OrderBook.make memory minPrice tick levelCount = .ok made) {host : Host}
    {orderCount : UInt64} {o : Outcome StdException Unit}
    (hreserve : reserveOrderCapacity hash host orderCount made = (o, book)) (counter : UInt64) :
    marketOf ⟨counter, book, []⟩ = newMarket minPrice tick levelCount counter := by
  have hs : Sound hash made := sound_make hmake
  have hsound := sound_reserved hs host orderCount
  have hview := sameView_reserved hs host orderCount
  rw [hreserve] at hsound hview
  rw [marketOf_view hs hsound hview, marketOf_make hmake]

/-- A tool replays a file on a book of the market of the ladder that it has been given. -/
theorem marketOf_prepared {memory : Memory} {minPrice tick : Price} {levelCount : UInt64}
    (hmake : OrderBook.make memory minPrice tick levelCount = .ok made) (tool : Tool)
    (host : Host) (events : List ParsedEvent)
    (hprepare : tool.prepare hash host events made = (.returns (), book)) (counter : UInt64) :
    Sound hash book ∧
      marketOf ⟨counter, book, []⟩ = newMarket minPrice tick levelCount counter := by
  have hs : Sound hash made := sound_make hmake
  have hsound := (prepare_grids hs tool host events).1
  have hview := sameView_prepared hs tool host events
  rw [hprepare] at hsound hview
  exact ⟨hsound, (marketOf_view hs hsound hview counter).trans (marketOf_make hmake counter)⟩

/-- Whatever two tools replay a file, with whatever hash functions, hosts and reservations, they
are told the same and keep the same orders, as far into the file as neither is refused memory. -/
theorem tools_agree {memory memory' : Memory} {minPrice tick : Price} {levelCount : UInt64}
    (hmake : OrderBook.make memory minPrice tick levelCount = .ok made)
    (hmake' : OrderBook.make memory' minPrice tick levelCount = .ok made') {tool tool' : Tool}
    {host host' : Host} {events : List ParsedEvent}
    (hprepare : tool.prepare hash host events made = (.returns (), book))
    (hprepare' : tool'.prepare hash' host' events made' = (.returns (), book'))
    {n : ℕ} {sent sent' : List (Host × OrderEvent)}
    (hsent : sent.map Prod.snd = (events.take n).map toOrderEvent)
    (hsent' : sent'.map Prod.snd = (events.take n).map toOrderEvent)
    (hmemory : ∀ response ∈ alone hash sent ⟨counter, book, []⟩,
      ¬ RefusesMemory response.outcome)
    (hmemory' : ∀ response ∈ alone hash' sent' ⟨counter, book', []⟩,
      ¬ RefusesMemory response.outcome) :
    List.Forall₂ Alike (alone hash sent ⟨counter, book, []⟩)
      (alone hash' sent' ⟨counter, book', []⟩) := by
  obtain ⟨hs, hmarket⟩ := marketOf_prepared hmake tool host events hprepare counter
  obtain ⟨hs', hmarket'⟩ := marketOf_prepared hmake' tool' host' events hprepare' counter
  exact alone_alike hs hs' (hmarket'.trans hmarket.symm) (hsent'.trans hsent.symm) hmemory hmemory'

/-- Two orders that meet and one without a timestamp. -/
def threeRows : List ParsedEvent :=
  [{ tsNs := 1, orderId := 1, priceRaw := 100, quantity := 5 },
    { tsNs := 2, orderId := 2, side := .sell, priceRaw := 100, quantity := 3 },
    { orderId := 3, priceRaw := 100, quantity := 5 }]

/-- The rows as they are sent to an engine. -/
def sentRows : List (Host × OrderEvent) :=
  threeRows.map fun e => (grantingHost, toOrderEvent e)

/-- The recorder puts all ids in one bucket and reserves, the benchmark does neither. -/
theorem recorder_agrees : ∃ made book : OrderBook,
    List.Forall₂ Alike (alone id sentRows ⟨0, made, []⟩)
      (alone (fun _ => 0) sentRows ⟨0, book, []⟩) ∧
    (alone id sentRows ⟨0, made, []⟩).map Response.outcome =
      [.returns 0, .returns 1, .throws (.invalidArgument "Invalid incoming order value")] := by
  have hcheck : ((OrderBook.make (fun _ => {
        orderId := 0, price := 0, originalQuantity := 0, remainingQuantity := 0, timestamp := 0
        orderSide := .buy, orderType := .limit, sequenceNumber := 0 }) 100 1 2).map fun made =>
      let prepared := Tool.snapshot_recorder.prepare (fun _ => 0) grantingHost threeRows made
      decide (prepared.1 = .returns () ∧
        (alone id sentRows ⟨0, made, []⟩).map Response.outcome =
          [.returns 0, .returns 1, .throws (.invalidArgument "Invalid incoming order value")] ∧
        (∀ response ∈ alone id sentRows ⟨0, made, []⟩, ¬ RefusesMemory response.outcome) ∧
        ∀ response ∈ alone (fun _ => 0) sentRows ⟨0, prepared.2, []⟩,
          ¬ RefusesMemory response.outcome)).toOption = some true := by
    decide +kernel
  generalize hmake : OrderBook.make _ 100 1 2 = result at hcheck
  cases result with
  | error e => cases hcheck
  | ok made =>
    rw [Except.map, Except.toOption, Option.some.injEq, decide_eq_true_iff] at hcheck
    obtain ⟨hreturns, houtcomes, hmemory, hmemory'⟩ := hcheck
    have hprepare : Tool.benchmark_interchange.prepare id grantingHost threeRows made =
        (.returns (), made) := rfl
    generalize hprepare' : Tool.snapshot_recorder.prepare (fun _ => 0) grantingHost threeRows
      made = prepared at hreturns hmemory'
    have hprepare' := hprepare'.trans (Prod.ext hreturns rfl : prepared = (.returns (), prepared.2))
    have hsent : sentRows.map Prod.snd = (threeRows.take 3).map toOrderEvent := rfl
    exact ⟨made, _, tools_agree hmake hmake hprepare hprepare' hsent hsent hmemory hmemory',
      houtcomes⟩

end Tools

end Leka.MarketRuns
