import Leka.InterchangeReaders
import Leka.ReplayTraces
import Leka.MatcherRefinement

/-!
The timed replay of an interchange file. A call that returns is logged under a label that
depends on the executions it left in the buffer, and an exception is counted. The overload
without a buffer leaves the caller's buffer alone, so the two loops of the tools differ in
nothing but the buffer behind a CANCEL or a REDUCE, and no label is ever read from that.
-/

namespace Leka.InterchangeReplays

open Procedures Orders OrderPools OrderBooks MatchingEngines EventOutcomes BookRuns LadderSizes
  RestingOrders ReplayTraces

/-- What a sample is recorded under. -/
inductive Label
  | NEW_REST
  | NEW_CROSS
  | CANCEL
  | REDUCE
  | HANDOFF
  deriving DecidableEq

/-- The samples of each label, in the order in which they were recorded. -/
abbrev LatencyLog := Label → List UInt64

def record (label : Label) (nanos : UInt64) (log : LatencyLog) : LatencyLog :=
  Function.update log label (log label ++ [nanos])

/-- A replay under way; the buffer of the engine is `executionBuffer`. -/
structure Replay where
  engine : EngineState
  latency : LatencyLog := fun _ => []
  eventCounts : Label → UInt64 := fun _ => 0
  errorCount : UInt64 := 0

abbrev ReplayProc := Proc StdException Replay

def onEngine (x : EngineProc α) : ReplayProc α :=
  Proc.zoom Replay.engine (fun engine s => { s with engine }) x

section Events

variable (hash : OrderId → UInt64) (host : Host)

/-- The overload that returns the executions in a vector of its own. -/
def processEventReturning (event : OrderEvent) : EngineProc (List Execution) := fun s =>
  match processEvent hash host event s with
  | (o, s') => (o.map fun _ => s'.out, { s' with out := s.out })

/-- A MARKET order never rests, whether it finds liquidity or not. -/
def labelOf (e : ParsedEvent) (executionBuffer : List Execution) : Label :=
  match e.kind with
  | .New => if e.type = .market ∨ executionBuffer ≠ [] then .NEW_CROSS else .NEW_REST
  | .Cancel => .CANCEL
  | .Reduce => .REDUCE

def recordSample (label : Label) (nanos : UInt64) : ReplayProc Unit :=
  Proc.modify fun s => { s with latency := record label nanos s.latency }

def countEvent (label : Label) : ReplayProc Unit :=
  Proc.modify fun s =>
    { s with eventCounts := Function.update s.eventCounts label (s.eventCounts label + 1) }

def countError (_ : StdException) : ReplayProc Unit :=
  Proc.modify fun s => { s with errorCount := s.errorCount + 1 }

/-- One round of the loop of `benchmark_interchange`. -/
def benchmarkEvent (elapsed : UInt64) (e : ParsedEvent) : ReplayProc Unit :=
  tryCatch
    (match e.kind with
      | .New => do
        let _ ← onEngine (processEvent hash host (toOrderEvent e))
        let s ← Proc.get
        recordSample (labelOf e s.engine.out) elapsed
        countEvent (labelOf e s.engine.out)
      | .Cancel => do
        let _ ← onEngine (processEventReturning hash host (toOrderEvent e))
        recordSample .CANCEL elapsed
        countEvent .CANCEL
      | .Reduce => do
        let _ ← onEngine (processEventReturning hash host (toOrderEvent e))
        recordSample .REDUCE elapsed
        countEvent .REDUCE)
    countError

/-- What the matching thread of `threaded_replay_benchmark` does with an event that it has
popped, `raw` being the row at its position. -/
def matchEvent (elapsed : UInt64) (raw : ParsedEvent) (event : OrderEvent) : ReplayProc Unit :=
  tryCatch
    (do
      let _ ← onEngine (processEvent hash host event)
      let s ← Proc.get
      recordSample (labelOf raw s.engine.out) elapsed)
    countError

end Events

section Loops

variable (hash : OrderId → UInt64) (hosts : ℕ → Host) (elapsed : ℕ → UInt64)

/-- The loop from the event with the given index on. Each call meets the host in a state of its
own and takes a time of its own. -/
def benchmarkEvents : ℕ → List ParsedEvent → ReplayProc Unit
  | _, [] => pure ()
  | index, e :: events => do
    benchmarkEvent hash (hosts index) (elapsed index) e
    benchmarkEvents (index + 1) events

end Loops

/-- How the engine answers the events, one after the other. -/
def answers (hash : OrderId → UInt64) (hosts : ℕ → Host) :
    ℕ → List ParsedEvent → EngineState → List (Outcome StdException ℕ)
  | _, [], _ => []
  | index, e :: events, s =>
    (processEvent hash (hosts index) (toOrderEvent e) s).1 ::
      answers hash hosts (index + 1) events
        (processEvent hash (hosts index) (toOrderEvent e) s).2

/-- The label of an event that the engine has answered, `none` for an error. -/
def labelled (e : ParsedEvent) : Outcome StdException ℕ → Option Label
  | .returns n => some (match e.kind with
    | .New => if e.type = .market ∨ n ≠ 0 then .NEW_CROSS else .NEW_REST
    | .Cancel => .CANCEL
    | .Reduce => .REDUCE)
  | _ => none

/-- The times of the calls with one label. -/
def timesOf (elapsed : ℕ → UInt64) (label : Label) : ℕ → List (Option Label) → List UInt64
  | _, [] => []
  | index, answer :: labels =>
    (if answer = some label then [elapsed index] else []) ++
      timesOf elapsed label (index + 1) labels

section Calls

variable {hash : OrderId → UInt64} {host : Host} {s : Replay} {t : EngineState} {e : ParsedEvent}
  {event : OrderEvent} {n : ℕ} {exn : StdException}

/-- A call empties the buffer first, so it does not matter what is in it. -/
theorem processEvent_buffer (hash : OrderId → UInt64) (host : Host) (event : OrderEvent)
    (s : EngineState) (out : List Execution) :
    processEvent hash host event { s with out } = processEvent hash host event s := rfl

/-- The replay behind a call that has returned. -/
def Replay.logged (s : Replay) (t : EngineState) (label : Label) (elapsed : UInt64) : Replay :=
  { s with engine := t, latency := record label elapsed s.latency }

/-- The replay behind a call that has thrown. -/
def Replay.failed (s : Replay) (t : EngineState) : Replay :=
  { s with engine := t, errorCount := s.errorCount + 1 }

def Replay.counted (s : Replay) (label : Label) : Replay :=
  { s with eventCounts := Function.update s.eventCounts label (s.eventCounts label + 1) }

theorem onEngine_run {α : Type} {x : EngineProc α} {o : Outcome StdException α}
    (hrun : x s.engine = (o, t)) : onEngine x s = (o, { s with engine := t }) := by
  rw [onEngine, Proc.zoom, hrun]

theorem matchEvent_returns (elapsed : UInt64) (e : ParsedEvent)
    (hrun : processEvent hash host event s.engine = (.returns n, t)) :
    matchEvent hash host elapsed e event s =
      (.returns (), s.logged t (labelOf e t.out) elapsed) := by
  refine Proc.handle_returns _ ?_
  rw [Proc.bind_returns _ (onEngine_run hrun)]
  rfl

theorem matchEvent_throws (elapsed : UInt64) (e : ParsedEvent)
    (hrun : processEvent hash host event s.engine = (.throws exn, t)) :
    matchEvent hash host elapsed e event s = (.returns (), s.failed t) := by
  rw [matchEvent, Proc.handle_throws exn (Proc.bind_throws _ (onEngine_run hrun))]
  rfl

theorem benchmarkEvent_returns (elapsed : UInt64)
    (hrun : processEvent hash host (toOrderEvent e) s.engine = (.returns n, t)) :
    ∃ out, benchmarkEvent hash host elapsed e s =
      (.returns (), (s.logged { t with out } (labelOf e t.out) elapsed).counted
        (labelOf e t.out)) := by
  have hreturning : processEventReturning hash host (toOrderEvent e) s.engine =
      (.returns t.out, { t with out := s.engine.out }) := by
    rw [processEventReturning, hrun]
    rfl
  cases hkind : e.kind with
  | New =>
    refine ⟨t.out, ?_⟩
    simp only [benchmarkEvent, hkind]
    refine Proc.handle_returns _ ?_
    rw [Proc.bind_returns _ (onEngine_run hrun)]
    rfl
  | Cancel =>
    refine ⟨s.engine.out, ?_⟩
    simp only [benchmarkEvent, labelOf, hkind]
    refine Proc.handle_returns _ ?_
    rw [Proc.bind_returns _ (onEngine_run hreturning)]
    rfl
  | Reduce =>
    refine ⟨s.engine.out, ?_⟩
    simp only [benchmarkEvent, labelOf, hkind]
    refine Proc.handle_returns _ ?_
    rw [Proc.bind_returns _ (onEngine_run hreturning)]
    rfl

theorem benchmarkEvent_throws (elapsed : UInt64)
    (hrun : processEvent hash host (toOrderEvent e) s.engine = (.throws exn, t)) :
    ∃ out, benchmarkEvent hash host elapsed e s = (.returns (), s.failed { t with out }) := by
  have hreturning : processEventReturning hash host (toOrderEvent e) s.engine =
      (.throws exn, { t with out := s.engine.out }) := by
    rw [processEventReturning, hrun]
    rfl
  cases hkind : e.kind with
  | New =>
    refine ⟨t.out, ?_⟩
    simp only [benchmarkEvent, hkind]
    rw [Proc.handle_throws exn (Proc.bind_throws _ (onEngine_run hrun))]
    rfl
  | Cancel | Reduce =>
    refine ⟨s.engine.out, ?_⟩
    simp only [benchmarkEvent, hkind]
    rw [Proc.handle_throws exn (Proc.bind_throws _ (onEngine_run hreturning))]
    rfl

/-- A call on a book whose parts agree returns or throws. -/
theorem processEvent_cases (hs : Sound hash t.orderBook) (host : Host) (event : OrderEvent) :
    (∃ n t', processEvent hash host event t = (.returns n, t')) ∨
      ∃ exn t', processEvent hash host event t = (.throws exn, t') := by
  have hends := processEvent_ends_ne hs host event
  generalize processEvent hash host event t = result at hends
  obtain ⟨o, t'⟩ := result
  cases o with
  | returns n => exact .inl ⟨n, t', rfl⟩
  | throws exn => exact .inr ⟨exn, t', rfl⟩
  | diverges => exact absurd rfl hends

end Calls

section Tools

variable {hash : OrderId → UInt64} {s b : Replay}

/-- The loops of the two tools have come to the same, but for the buffer and the handoffs. -/
structure SameReplay (s b : Replay) : Prop where
  orderBook : b.engine.orderBook = s.engine.orderBook
  currentSequence : b.engine.currentSequence = s.engine.currentSequence
  latency : ∀ label ≠ .HANDOFF, b.latency label = s.latency label
  errorCount : b.errorCount = s.errorCount

theorem labelOf_ne_handoff (e : ParsedEvent) (out : List Execution) :
    labelOf e out ≠ .HANDOFF := by
  rw [labelOf]
  split
  · split <;> simp
  · simp
  · simp

theorem record_congr {log log' : LatencyLog} {label : Label}
    (h : ∀ other ≠ .HANDOFF, log' other = log other) (hlabel : label ≠ .HANDOFF)
    (nanos : UInt64) : ∀ other ≠ .HANDOFF, record label nanos log' other =
      record label nanos log other := by
  intro other hother
  rw [record, record, h label hlabel]
  by_cases hsame : other = label
  · rw [hsame, Function.update_self, Function.update_self]
  · rw [Function.update_of_ne hsame, Function.update_of_ne hsame, h other hother]

theorem SameReplay.event (h : SameReplay s b) (hs : Sound hash s.engine.orderBook) (host : Host)
    (elapsed : UInt64) (e : ParsedEvent) :
    ∃ s' b', matchEvent hash host elapsed e (toOrderEvent e) s = (.returns (), s') ∧
      benchmarkEvent hash host elapsed e b = (.returns (), b') ∧ SameReplay s' b' ∧
        s'.engine = (processEvent hash host (toOrderEvent e) s.engine).2 := by
  have hengine : b.engine =
      ⟨s.engine.currentSequence, s.engine.orderBook, b.engine.out⟩ := by
    rw [← h.orderBook, ← h.currentSequence]
  have hcall : processEvent hash host (toOrderEvent e) b.engine =
      processEvent hash host (toOrderEvent e) s.engine := by
    rw [hengine, ← processEvent_buffer hash host _ s.engine b.engine.out]
  rcases processEvent_cases hs host (toOrderEvent e) with ⟨n, t, hrun⟩ | ⟨exn, t, hrun⟩
  · obtain ⟨out, hbenchmark⟩ := benchmarkEvent_returns elapsed (hcall.trans hrun)
    refine ⟨_, _, matchEvent_returns elapsed e hrun, hbenchmark, ⟨rfl, rfl, ?_, ?_⟩, ?_⟩
    · exact record_congr h.latency (labelOf_ne_handoff e t.out) elapsed
    · exact h.errorCount
    · rw [hrun]
      rfl
  · obtain ⟨out, hbenchmark⟩ := benchmarkEvent_throws elapsed (hcall.trans hrun)
    refine ⟨_, _, matchEvent_throws elapsed e hrun, hbenchmark, ⟨rfl, rfl, h.latency, ?_⟩, ?_⟩
    · exact congrArg (· + 1) h.errorCount
    · rw [hrun]
      rfl

end Tools

section Accounts

variable {hash : OrderId → UInt64} {host : Host} {s : EngineState} {e : ParsedEvent}

theorem count_eq_length {event : OrderEvent} {n : ℕ} {t : EngineState} (hs : Sound hash s.orderBook)
    (hrun : processEvent hash host event s = (.returns n, t)) : n = t.out.length := by
  have hends := processEvent_ends hs host event
  rw [hrun] at hends
  exact (MatcherRefinement.event_refines hs hends).2.1

theorem labelled_returns {n : ℕ} {t : EngineState} (hs : Sound hash s.orderBook)
    (hrun : processEvent hash host (toOrderEvent e) s = (.returns n, t)) :
    labelled e (.returns n) = some (labelOf e t.out) := by
  have hempty : n ≠ 0 ↔ t.out ≠ [] := by
    rw [count_eq_length hs hrun, ne_eq, List.length_eq_zero_iff]
  simp only [labelled, labelOf, hempty]

/-- The log and the counters tell how the events were answered. -/
structure Accounts (elapsed : ℕ → UInt64) (labels : List (Option Label)) (r r' : Replay)
    (index : ℕ) : Prop where
  latency : ∀ label, r'.latency label = r.latency label ++ timesOf elapsed label index labels
  eventCounts : ∀ label, r'.eventCounts label =
    r.eventCounts label + UInt64.ofNat (labels.count (some label))
  errorCount : r'.errorCount = r.errorCount + UInt64.ofNat (labels.count none)

theorem Accounts.cons {elapsed : ℕ → UInt64} {answer : Option Label} {labels : List (Option Label)}
    {r r' r'' : Replay} {index : ℕ} (h : Accounts elapsed [answer] r r' index)
    (h' : Accounts elapsed labels r' r'' (index + 1)) :
    Accounts elapsed (answer :: labels) r r'' index := by
  have hcount : ∀ x : Option Label,
      (answer :: labels).count x = [answer].count x + labels.count x := by
    intro x
    rw [List.count_cons, List.count_singleton, Nat.add_comm]
  refine ⟨fun label => ?_, fun label => ?_, ?_⟩
  · rw [h'.latency, h.latency, List.append_assoc, timesOf, timesOf, timesOf, List.append_nil]
  · rw [h'.eventCounts, h.eventCounts, hcount, UInt64.ofNat_add, UInt64.add_assoc]
  · rw [h'.errorCount, h.errorCount, hcount, UInt64.ofNat_add, UInt64.add_assoc]

theorem benchmarkEvent_accounts {r : Replay} (hs : Sound hash r.engine.orderBook) (host : Host)
    (elapsed : ℕ → UInt64) (index : ℕ) (e : ParsedEvent) :
    ∃ r', benchmarkEvent hash host (elapsed index) e r = (.returns (), r') ∧
      Accounts elapsed [labelled e (processEvent hash host (toOrderEvent e) r.engine).1] r r'
        index ∧
      ∃ out, r'.engine = { (processEvent hash host (toOrderEvent e) r.engine).2 with out } := by
  rcases processEvent_cases hs host (toOrderEvent e) with ⟨n, t, hrun⟩ | ⟨exn, t, hrun⟩
  · obtain ⟨out, hbenchmark⟩ := benchmarkEvent_returns (elapsed index) hrun
    rw [hrun]
    dsimp only
    rw [labelled_returns hs hrun]
    refine ⟨_, hbenchmark, ⟨fun label => ?_, fun label => ?_, ?_⟩, out, rfl⟩
    · change record (labelOf e t.out) (elapsed index) r.latency label = _
      rw [record, timesOf, timesOf, List.append_nil]
      by_cases hsame : label = labelOf e t.out
      · rw [hsame, Function.update_self, if_pos rfl]
      · rw [Function.update_of_ne hsame, if_neg (fun h => hsame (Option.some.inj h).symm),
          List.append_nil]
    · change Function.update r.eventCounts (labelOf e t.out)
        (r.eventCounts (labelOf e t.out) + 1) label = _
      by_cases hsame : label = labelOf e t.out
      · rw [hsame, Function.update_self, List.count_singleton_self]
        rfl
      · rw [Function.update_of_ne hsame, List.count_singleton,
          if_neg (by simpa using Ne.symm hsame)]
        exact (UInt64.add_zero _).symm
    · change r.errorCount = r.errorCount + 0
      exact (UInt64.add_zero _).symm
  · obtain ⟨out, hbenchmark⟩ := benchmarkEvent_throws (elapsed index) hrun
    rw [hrun]
    refine ⟨_, hbenchmark, ⟨fun label => ?_, fun label => ?_, ?_⟩, out, rfl⟩
    · exact (List.append_nil _).symm
    · exact (UInt64.add_zero _).symm
    · rfl

theorem benchmarkEvents_accounts {r : Replay} (hs : Sound hash r.engine.orderBook)
    (hosts : ℕ → Host) (elapsed : ℕ → UInt64) (index : ℕ) (events : List ParsedEvent) :
    ∃ r', benchmarkEvents hash hosts elapsed index events r = (.returns (), r') ∧
      Accounts elapsed
        (List.zipWith labelled events (answers hash hosts index events r.engine)) r r' index := by
  induction events generalizing r index with
  | nil =>
    refine ⟨r, rfl, fun label => ?_, fun label => ?_, ?_⟩
    · exact (List.append_nil _).symm
    · exact (UInt64.add_zero _).symm
    · exact (UInt64.add_zero _).symm
  | cons e events ih =>
    obtain ⟨r₁, hbenchmark, haccounts, out, hengine⟩ :=
      benchmarkEvent_accounts hs (hosts index) elapsed index e
    have hsound : Sound hash r₁.engine.orderBook := by
      rw [hengine]
      exact sound_processEvent hs (hosts index) (toOrderEvent e)
    obtain ⟨r', hrest, haccounts'⟩ := ih hsound (index + 1)
    refine ⟨r', ?_, ?_⟩
    · rw [benchmarkEvents, Proc.bind_returns _ hbenchmark, hrest]
    · rw [answers, List.zipWith_cons_cons]
      refine haccounts.cons ?_
      have hsame : answers hash hosts (index + 1) events r₁.engine =
          answers hash hosts (index + 1) events
            (processEvent hash (hosts index) (toOrderEvent e) r.engine).2 := by
        rw [hengine]
        cases events with
        | nil => rfl
        | cons e' events => rfl
      rwa [hsame] at haccounts'

theorem length_timesOf (elapsed : ℕ → UInt64) (label : Label) (index : ℕ)
    (labels : List (Option Label)) :
    (timesOf elapsed label index labels).length = labels.count (some label) := by
  induction labels generalizing index with
  | nil => rfl
  | cons answer labels ih =>
    rw [timesOf, List.length_append, ih, List.count_cons, Nat.add_comm]
    congr 1
    by_cases hsame : answer = some label
    · rw [if_pos hsame, if_pos (beq_iff_eq.mpr hsame), List.length_singleton]
    · rw [if_neg hsame, if_neg (mt beq_iff_eq.mp hsame), List.length_nil]

theorem length_answers (hosts : ℕ → Host) (index : ℕ) (events : List ParsedEvent)
    (s : EngineState) : (answers hash hosts index events s).length = events.length := by
  induction events generalizing index s with
  | nil => rfl
  | cons e events ih => rw [answers, List.length_cons, List.length_cons, ih]

/-- Answers are errors or have one of the four labels. -/
theorem count_labels {labels : List (Option Label)} (h : some .HANDOFF ∉ labels) :
    labels.length = labels.count none +
      (labels.count (some .NEW_REST) + labels.count (some .NEW_CROSS) +
        labels.count (some .CANCEL) + labels.count (some .REDUCE)) := by
  induction labels with
  | nil => rfl
  | cons answer labels ih =>
    rw [List.mem_cons, not_or] at h
    have hrest := ih h.2
    simp only [List.count_cons, List.length_cons, beq_iff_eq]
    cases answer with
    | none => simp only [reduceCtorEq, if_true, if_false]; omega
    | some label =>
      cases label with
      | HANDOFF => exact absurd rfl h.1
      | NEW_REST | NEW_CROSS | CANCEL | REDUCE =>
        simp only [Option.some.injEq, reduceCtorEq, if_true, if_false]
        omega

theorem handoff_notMem (events : List ParsedEvent) (outcomes : List (Outcome StdException ℕ)) :
    some .HANDOFF ∉ List.zipWith labelled events outcomes := by
  induction events generalizing outcomes with
  | nil => simp
  | cons e events ih =>
    cases outcomes with
    | nil => simp
    | cons o outcomes =>
      rw [List.zipWith_cons_cons, List.mem_cons, not_or]
      refine ⟨?_, ih outcomes⟩
      cases o with
      | returns n =>
        rw [labelled]
        split
        · split <;> simp
        · simp
        · simp
      | throws | diverges => simp [labelled]

/-- `benchmark_interchange` times every event that returns once, under the one label that tells
how it was answered, and counts every other event as an error. -/
theorem benchmark_accounts {book : OrderBook} {memory : Memory} {minPrice tick : Price}
    {levelCount : UInt64} (hmake : OrderBook.make memory minPrice tick levelCount = .ok book)
    (hosts : ℕ → Host) (elapsed : ℕ → UInt64) (counter : UInt64) (events : List ParsedEvent) :
    ∃ r, benchmarkEvents hash hosts elapsed 0 events { engine := ⟨counter, book, []⟩ } =
        (.returns (), r) ∧
      let labels := List.zipWith labelled events (answers hash hosts 0 events ⟨counter, book, []⟩)
      (∀ label, r.latency label = timesOf elapsed label 0 labels ∧
        r.eventCounts label = UInt64.ofNat (r.latency label).length) ∧
      r.errorCount = UInt64.ofNat (labels.count none) ∧
      events.length = labels.count none +
        ((r.latency .NEW_REST).length + (r.latency .NEW_CROSS).length +
          (r.latency .CANCEL).length + (r.latency .REDUCE).length) := by
  obtain ⟨r, hrun, haccounts⟩ := benchmarkEvents_accounts
    (r := { engine := ⟨counter, book, []⟩ }) (@sound_make hash _ _ _ _ _ hmake) hosts elapsed 0
    events
  have hlength : (List.zipWith labelled events
      (answers hash hosts 0 events ⟨counter, book, []⟩)).length = events.length := by
    rw [List.length_zipWith, length_answers, min_self]
  have hhandoff := handoff_notMem events (answers hash hosts 0 events ⟨counter, book, []⟩)
  generalize List.zipWith labelled events (answers hash hosts 0 events ⟨counter, book, []⟩) = labels
    at haccounts hlength hhandoff
  have hlatency : ∀ label, r.latency label = timesOf elapsed label 0 labels := haccounts.latency
  have hcounted : ∀ label, (r.latency label).length = labels.count (some label) := by
    intro label
    rw [hlatency, length_timesOf]
  refine ⟨r, hrun, fun label => ⟨hlatency label, ?_⟩, ?_, ?_⟩
  · rw [hcounted, haccounts.eventCounts]
    exact UInt64.zero_add _
  · rw [haccounts.errorCount]
    exact UInt64.zero_add _
  · rw [← hlength, hcounted, hcounted, hcounted, hcounted]
    exact count_labels hhandoff

/-- A resting order, an order that meets it, one without a timestamp and a cancellation. -/
def fourEvents : List ParsedEvent :=
  [{ tsNs := 1, orderId := 1, priceRaw := 100, quantity := 5 },
    { tsNs := 2, orderId := 2, side := .sell, priceRaw := 100, quantity := 5 },
    { orderId := 3, priceRaw := 100, quantity := 5 },
    { tsNs := 4, orderId := 1, kind := .Cancel }]

theorem four_events_accounted : ∃ (book : OrderBook) (r : Replay),
    benchmarkEvents id (fun _ => grantingHost) (fun i => UInt64.ofNat (i + 7)) 0 fourEvents
      { engine := ⟨0, book, []⟩ } = (.returns (), r) ∧
      r.errorCount = 1 ∧ r.latency .NEW_REST = [7] ∧ r.latency .NEW_CROSS = [8] ∧
        r.latency .CANCEL = [10] ∧ r.eventCounts .CANCEL = 1 := by
  have hcheck : ((OrderBook.make (fun _ => {
        orderId := 0, price := 0, originalQuantity := 0, remainingQuantity := 0, timestamp := 0
        orderSide := .buy, orderType := .limit, sequenceNumber := 0 }) 100 1 2).map fun book =>
      List.zipWith labelled fourEvents
        (answers id (fun _ => grantingHost) 0 fourEvents ⟨0, book, []⟩)).toOption =
        some [some .NEW_REST, some .NEW_CROSS, none, some .CANCEL] := by
    decide +kernel
  generalize hmake : OrderBook.make _ 100 1 2 = result at hcheck
  cases result with
  | error e => cases hcheck
  | ok book =>
    rw [Except.map, Except.toOption, Option.some.injEq] at hcheck
    obtain ⟨r, hrun, hlatency, herrors, -⟩ := @benchmark_accounts id book _ 100 1 2 hmake
      (fun _ => grantingHost) (fun i => UInt64.ofNat (i + 7)) 0 fourEvents
    rw [hcheck] at hlatency herrors
    refine ⟨book, r, hrun, herrors, (hlatency _).1, (hlatency _).1, (hlatency _).1, ?_⟩
    rw [(hlatency _).2, (hlatency _).1]
    rfl

end Accounts

end Leka.InterchangeReplays
