import Leka.MarketRuns
import Leka.RecordedFrames

/-!
What a recording tells of a market. Each event is one that the market has answered, and a frame
counts the events without an objection, lists the last executions since the frame before and
shows the market behind its event. The executions of an order that is objected to, since its
remainder cannot rest, are in no frame.
-/

namespace Leka.RecordedRuns

open Procedures Orders OrderPools OrderBooks MatchingEngines Numerals LadderSizes BookRuns
  SyncedBooks RestingOrders ReferenceMatchers MatchingRounds EventOutcomes SeparateEngines
  MarketReadings MarketRefinement MarketRuns Utf8Texts JsonTexts Snapshots SnapshotRecorders
  DisplayedLevels RecordedFrames
open Markets hiding answers
open InterchangeReplays (Label labelOf labelled timesOf labelled_returns processEvent_cases)

/-- An event of a file and the answer of the market. -/
structure Answered where
  event : ParsedEvent
  answer : Answer

/-- The events, each answered behind the ones before. -/
def answered : List ParsedEvent → Market → List Answered
  | [], _ => []
  | e :: events, market =>
    let answer := market.answer (toOrderEvent e)
    ⟨e, answer⟩ :: answered events answer.market

namespace Answered

def ofKind (kind : EventKind) (a : Answered) : ℕ :=
  if a.answer.error = none ∧ a.event.kind = kind then 1 else 0

def tradeCount (a : Answered) : ℕ :=
  if a.answer.error = none then a.answer.trades.length else 0

def quantity (a : Answered) : ℕ :=
  if a.answer.error = none then (a.answer.trades.map Trade.quantity).sum else 0

def boughtQuantity (a : Answered) : ℕ := if a.event.side = .buy then a.quantity else 0

def soldQuantity (a : Answered) : ℕ := if a.event.side = .buy then 0 else a.quantity

def errorCount (a : Answered) : ℕ := if a.answer.error = none then 0 else 1

/-- The letter of the aggressor. -/
def letter (a : Answered) : Char := if a.event.side = .buy then 'B' else 'S'

def entries (a : Answered) : List (ℕ × ℕ × ℕ × Char) :=
  if a.answer.error = none then
    a.answer.trades.map fun trade => (a.event.tsNs.toNat, trade.price, trade.quantity, a.letter)
  else []

def label (a : Answered) : Option Label :=
  labelled a.event (outcomeOf a.answer.trades.length a.answer.error)

end Answered

/-- A counter that wraps. -/
def total (count : Answered → ℕ) (told : List Answered) : ℕ := (told.map count).sum % 2 ^ 64

def flowAt (told : List Answered) : Flow where
  newCount := total (Answered.ofKind .New) told
  cancelCount := total (Answered.ofKind .Cancel) told
  reduceCount := total (Answered.ofKind .Reduce) told
  tradeCount := total Answered.tradeCount told
  buyQty := total Answered.boughtQuantity told
  sellQty := total Answered.soldQuantity told

/-- The percentiles of the last samples of each label that has any. -/
def lastLatencies (position : Percentile → ℕ → ℕ) (samples : Label → List UInt64) :
    List (Chars × ℕ × ℕ × ℕ) :=
  latencyNames.filterMap fun name =>
    if samples name.2 = [] then none
    else
      let window : RollingLatency := ⟨(samples name.2).rtake Window⟩
      let p := window.percentiles position
      some (name.1.toList, p.1.toNat, p.2.1.toNat, p.2.2.toNat)

section Frames

variable (setting : Setting)

def samplesAt (told : List Answered) (label : Label) : List UInt64 :=
  timesOf setting.elapsed label 0 (told.map Answered.label)

def latAt (told : List Answered) : List (Chars × ℕ × ℕ × ℕ) :=
  lastLatencies setting.position (samplesAt setting told)

/-- The frame behind the last one of the events told, `since` being those that the frame before
has not told. -/
def frameAt (told since : List Answered) (last : Answered) : Frame where
  seq := told.length % 2 ^ 64
  ts := last.event.tsNs.toNat
  bids := sideView last.answer.market true setting.depth.toNat
  asks := sideView last.answer.market false setting.depth.toNat
  flow := flowAt told
  lat := latAt setting told
  tape := (since.flatMap Answered.entries).rtake TapeCap

/-- The frame behind the event with the given index, and none between two frames. -/
def frameBehind (every : ℕ) (told : List Answered) (index : ℕ) (a : Answered) : Option Frame :=
  if (index + 1) % every ≠ 0 ∧ index + 1 ≠ told.length then none
  else
    let before := told.take (index + 1)
    some (frameAt setting before (before.drop (index / every * every)) a)

/-- The frames behind the last of the events told, from the one with the given index on. -/
def framesFrom (every : ℕ) (told : List Answered) (index : ℕ) (last : List Answered) :
    List Frame :=
  (last.zipIdx index).filterMap fun a => frameBehind setting every told a.2 a.1

def framesOf (every : ℕ) (told : List Answered) : List Frame :=
  framesFrom setting every told 0 told

theorem framesFrom_cons (every : ℕ) (told : List Answered) (index : ℕ) (a : Answered)
    (last : List Answered) : framesFrom setting every told index (a :: last) =
      (frameBehind setting every told index a).toList ++
        framesFrom setting every told (index + 1) last := by
  rw [framesFrom, List.zipIdx_cons, List.filterMap_cons]
  cases frameBehind setting every told index a <;> rfl

end Frames

section Samples

/-- A window keeps the last samples. -/
theorem add_rtake (samples : List UInt64) (nanos : UInt64) :
    RollingLatency.add nanos ⟨samples.rtake Window⟩ = ⟨(samples ++ [nanos]).rtake Window⟩ := by
  have hdrop : ∀ n, samples.rtake n = samples.drop (samples.length - n) := fun _ => rfl
  obtain ⟨n, hn⟩ : ∃ n, Window = n + 1 := ⟨1023, rfl⟩
  rw [RollingLatency.add, hn, List.rtake_concat_succ, hdrop, hdrop, List.length_drop,
    List.tail_drop]
  congr 2
  split
  · exact congrArg samples.drop (by omega)
  · exact congrArg samples.drop (by omega)

theorem timesOf_concat (elapsed : ℕ → UInt64) (label : Label) (index : ℕ)
    (labels : List (Option Label)) (answer : Option Label) :
    timesOf elapsed label index (labels ++ [answer]) = timesOf elapsed label index labels ++
      if answer = some label then [elapsed (index + labels.length)] else [] := by
  induction labels generalizing index with
  | nil => simp [timesOf]
  | cons first labels ih =>
    rw [List.cons_append, timesOf, timesOf, ih, List.append_assoc, List.length_cons,
      Nat.add_right_comm, Nat.add_assoc]

theorem shownTape_rtake (tape : List TapeEntry) : shownTape tape = tape.rtake TapeCap := by
  rw [shownTape, List.rtake]
  split
  · rfl
  · exact congrArg tape.drop (by omega)

end Samples

section Events

variable {hash : OrderId → UInt64} {host : Host} {s : Recording} {t : EngineState}
  {e : ParsedEvent}

def tapeEntry (e : ParsedEvent) (execution : Execution) : TapeEntry :=
  ⟨e.tsNs, execution.executionPrice, execution.executionQuantity,
    if e.side = .buy then ascii 'B' else ascii 'S'⟩

/-- An entry of the tape, as a frame shows it. -/
theorem entryOf_tapeEntry (a : Answered) (execution : Execution) :
    entryOf (tapeEntry a.event execution) = (a.event.tsNs.toNat,
      execution.executionPrice.toNat, execution.executionQuantity.toNat, a.letter) := by
  rw [entryOf, tapeEntry, Answered.letter]
  split <;> rfl

/-- The executions of an event are counted and put on the tape. -/
theorem addExecutions (e : ParsedEvent) (s : Recording) (executions : List Execution) :
    executions.foldl (addExecution e) s = { s with
      tradeCount := s.tradeCount + UInt64.ofNat executions.length
      buyQty := s.buyQty + UInt64.ofNat
        (if e.side = .buy then (executions.map fun x => x.executionQuantity.toNat).sum else 0)
      sellQty := s.sellQty + UInt64.ofNat
        (if e.side = .buy then 0 else (executions.map fun x => x.executionQuantity.toNat).sum)
      tape := s.tape ++ executions.map (tapeEntry e) } := by
  induction executions generalizing s with
  | nil => simp
  | cons execution executions ih =>
    rw [List.foldl_cons, ih, addExecution]
    by_cases hside : e.side = .buy
    · simp [hside, tapeEntry, Nat.add_comm executions.length 1, UInt64.ofNat_add,
        UInt64.add_assoc]
    · simp [hside, tapeEntry, Nat.add_comm executions.length 1, UInt64.ofNat_add,
        UInt64.add_assoc]

/-- The recording behind a call that has returned. -/
def Recording.told (s : Recording) (t : EngineState) (e : ParsedEvent) (elapsed : UInt64) :
    Recording :=
  t.out.foldl (addExecution e)
    (addSample (labelOf e t.out) elapsed (countEvent e { s with engine := t }))

theorem onEngine_run {α : Type} {x : EngineProc α} {o : Outcome StdException α}
    (hrun : x s.engine = (o, t)) : onEngine x s = (o, { s with engine := t }) := by
  rw [onEngine, Proc.zoom, hrun]

theorem recordEvent_returns {n : ℕ} (elapsed : UInt64)
    (hrun : processEvent hash host (toOrderEvent e) s.engine = (.returns n, t)) :
    recordEvent hash host elapsed e s = (.returns (), Recording.told s t e elapsed) := by
  refine Proc.handle_returns _ ?_
  rw [Proc.bind_returns _ (onEngine_run hrun)]
  rfl

theorem recordEvent_throws {exn : StdException} (elapsed : UInt64)
    (hrun : processEvent hash host (toOrderEvent e) s.engine = (.throws exn, t)) :
    recordEvent hash host elapsed e s =
      (.returns (), { s with engine := t, errorCount := s.errorCount + 1 }) := by
  rw [recordEvent, Proc.handle_throws exn (Proc.bind_throws _ (onEngine_run hrun))]
  rfl

/-- What a call that returns adds to each part of a recording. -/
theorem told_eq (s : Recording) (t : EngineState) (e : ParsedEvent) (elapsed : UInt64) :
    Recording.told s t e elapsed = { s with
      engine := t
      newCount := s.newCount + UInt64.ofNat (if e.kind = .New then 1 else 0)
      cancelCount := s.cancelCount + UInt64.ofNat (if e.kind = .Cancel then 1 else 0)
      reduceCount := s.reduceCount + UInt64.ofNat (if e.kind = .Reduce then 1 else 0)
      latency := Function.update s.latency (labelOf e t.out)
        (some (((s.latency (labelOf e t.out)).getD {}).add elapsed))
      tradeCount := s.tradeCount + UInt64.ofNat t.out.length
      buyQty := s.buyQty + UInt64.ofNat
        (if e.side = .buy then (t.out.map fun x => x.executionQuantity.toNat).sum else 0)
      sellQty := s.sellQty + UInt64.ofNat
        (if e.side = .buy then 0 else (t.out.map fun x => x.executionQuantity.toNat).sum)
      tape := s.tape ++ t.out.map (tapeEntry e) } := by
  rw [Recording.told, addExecutions]
  cases hkind : e.kind <;> simp [countEvent, addSample, hkind]

end Events

section Steps

variable {setting : Setting} {told since : List Answered} {s : Recording}

def windowOf (samples : List UInt64) : Option RollingLatency :=
  if samples = [] then none else some ⟨samples.rtake Window⟩

/-- The counters, the windows and the tape of a recording come from the events told, of which
`since` are those behind the last frame. -/
structure Tells (setting : Setting) (told since : List Answered) (s : Recording) : Prop where
  newCount : s.newCount = UInt64.ofNat (told.map (Answered.ofKind .New)).sum
  cancelCount : s.cancelCount = UInt64.ofNat (told.map (Answered.ofKind .Cancel)).sum
  reduceCount : s.reduceCount = UInt64.ofNat (told.map (Answered.ofKind .Reduce)).sum
  tradeCount : s.tradeCount = UInt64.ofNat (told.map Answered.tradeCount).sum
  buyQty : s.buyQty = UInt64.ofNat (told.map Answered.boughtQuantity).sum
  sellQty : s.sellQty = UInt64.ofNat (told.map Answered.soldQuantity).sum
  errorCount : s.errorCount = UInt64.ofNat (told.map Answered.errorCount).sum
  latency : ∀ label, s.latency label = windowOf (samplesAt setting told label)
  tape : s.tape.map entryOf = since.flatMap Answered.entries
  sided : ∀ entry ∈ s.tape, Sided entry

theorem Tells.initial {engine : EngineState} {written : Text} :
    Tells setting [] [] { engine, written } := by
  refine ⟨rfl, rfl, rfl, rfl, rfl, rfl, rfl, fun _ => rfl, rfl, ?_⟩
  intro entry hentry
  cases hentry

theorem counted {count : Answered → ℕ} {v : UInt64} {n : ℕ} {a : Answered}
    (h : v = UInt64.ofNat (told.map count).sum) (hn : n = count a) :
    v + UInt64.ofNat n = UInt64.ofNat ((told ++ [a]).map count).sum := by
  rw [h, hn, ← UInt64.ofNat_add, List.map_append, List.sum_append, List.map_singleton,
    List.sum_singleton]

theorem samplesAt_concat (setting : Setting) (told : List Answered) (a : Answered)
    (label : Label) : samplesAt setting (told ++ [a]) label = samplesAt setting told label ++
      if a.label = some label then [setting.elapsed told.length] else [] := by
  rw [samplesAt, List.map_append, List.map_singleton, timesOf_concat, List.length_map,
    Nat.zero_add, samplesAt]

theorem windowOf_concat (samples : List UInt64) (nanos : UInt64) :
    windowOf (samples ++ [nanos]) = some (((windowOf samples).getD {}).add nanos) := by
  have hne : samples ++ [nanos] ≠ [] := by simp
  rw [windowOf, if_neg hne, windowOf]
  split
  · rename_i hempty
    have hnil : ({} : RollingLatency) = ⟨([] : List UInt64).rtake Window⟩ := by rw [List.rtake_nil]
    rw [hempty, Option.getD_none, hnil, add_rtake]
  · rw [Option.getD_some, add_rtake]

/-- An event that the market answers without an objection. -/
theorem Tells.returned (h : Tells setting told since s) {t : EngineState} {a : Answered}
    (herror : a.answer.error = none) (htrades : t.out.map tradeOf = a.answer.trades)
    (hlabel : a.label = some (labelOf a.event t.out)) :
    Tells setting (told ++ [a]) (since ++ [a])
      (Recording.told s t a.event (setting.elapsed told.length)) := by
  have hlength : t.out.length = a.answer.trades.length := by
    rw [← htrades, List.length_map]
  have hquantity : (t.out.map fun x => x.executionQuantity.toNat).sum = a.quantity := by
    rw [Answered.quantity, if_pos herror, ← htrades, List.map_map]
    rfl
  rw [told_eq]
  refine ⟨counted h.newCount ?_, counted h.cancelCount ?_, counted h.reduceCount ?_,
    counted h.tradeCount ?_, counted h.buyQty ?_, counted h.sellQty ?_, ?_, ?_, ?_, ?_⟩
  · simp [Answered.ofKind, herror]
  · simp [Answered.ofKind, herror]
  · simp [Answered.ofKind, herror]
  · rw [Answered.tradeCount, if_pos herror, hlength]
  · rw [Answered.boughtQuantity, hquantity]
  · rw [Answered.soldQuantity, hquantity]
  · have hnone : 0 = a.errorCount := by rw [Answered.errorCount, if_pos herror]
    exact (UInt64.add_zero _).symm.trans (counted h.errorCount hnone)
  · intro label
    change Function.update s.latency _ _ label = _
    rw [samplesAt_concat, hlabel]
    by_cases hsame : label = labelOf a.event t.out
    · rw [hsame, Function.update_self, if_pos rfl, windowOf_concat, h.latency]
    · rw [Function.update_of_ne hsame, if_neg (fun heq => hsame (Option.some.inj heq).symm),
        List.append_nil, h.latency]
  · have hentries : (t.out.map (tapeEntry a.event)).map entryOf = a.entries := by
      rw [Answered.entries, if_pos herror, ← htrades, List.map_map, List.map_map]
      exact List.map_congr_left fun execution _ => entryOf_tapeEntry a execution
    change (s.tape ++ t.out.map (tapeEntry a.event)).map entryOf = _
    rw [List.map_append, h.tape, hentries, List.flatMap_append, List.flatMap_singleton]
  · intro entry hentry
    rcases List.mem_append.mp hentry with hentry | hentry
    · exact h.sided entry hentry
    · obtain ⟨execution, -, rfl⟩ := List.mem_map.mp hentry
      rw [Sided, tapeEntry]
      split
      · exact .inl rfl
      · exact .inr rfl

/-- An event that the market objects to leaves no trace but in the number of errors. -/
theorem Tells.refused (h : Tells setting told since s) {t : EngineState} {a : Answered}
    (herror : a.answer.error ≠ none) (hlabel : a.label = none) :
    Tells setting (told ++ [a]) (since ++ [a])
      { s with engine := t, errorCount := s.errorCount + 1 } := by
  have hkeeps : ∀ {count : Answered → ℕ} {v : UInt64},
      v = UInt64.ofNat (told.map count).sum → 0 = count a →
        v = UInt64.ofNat ((told ++ [a]).map count).sum := fun hv hzero =>
    (UInt64.add_zero _).symm.trans (counted hv hzero)
  have hquantity : a.quantity = 0 := if_neg herror
  refine ⟨hkeeps h.newCount ?_, hkeeps h.cancelCount ?_, hkeeps h.reduceCount ?_,
    hkeeps h.tradeCount ?_, hkeeps h.buyQty ?_, hkeeps h.sellQty ?_, ?_, ?_, ?_, h.sided⟩
  · exact (if_neg fun hboth => herror hboth.1).symm
  · exact (if_neg fun hboth => herror hboth.1).symm
  · exact (if_neg fun hboth => herror hboth.1).symm
  · exact (if_neg herror).symm
  · rw [Answered.boughtQuantity, hquantity, ite_self]
  · rw [Answered.soldQuantity, hquantity, ite_self]
  · exact counted (n := 1) h.errorCount (if_neg herror).symm
  · intro label
    rw [samplesAt_concat, hlabel, if_neg nofun, List.append_nil]
    exact h.latency label
  · have hentries : a.entries = [] := if_neg herror
    rw [List.flatMap_append, List.flatMap_singleton, hentries, List.append_nil]
    exact h.tape

/-- The market answers the event, unless the host refuses memory. -/
theorem Tells.event (h : Tells setting told since s)
    (hs : Sound setting.hash s.engine.orderBook) {host : Host} {e : ParsedEvent}
    (hmemory : ¬ RefusesMemory (processEvent setting.hash host (toOrderEvent e) s.engine).1) :
    ∃ s', recordEvent setting.hash host (setting.elapsed told.length) e s = (.returns (), s') ∧
      Tells setting (told ++ [⟨e, (marketOf s.engine).answer (toOrderEvent e)⟩])
        (since ++ [⟨e, (marketOf s.engine).answer (toOrderEvent e)⟩]) s' ∧
      s'.engine = (processEvent setting.hash host (toOrderEvent e) s.engine).2 ∧
      marketOf s'.engine = ((marketOf s.engine).answer (toOrderEvent e)).market ∧
      s'.written = s.written ∧ s'.frames = s.frames := by
  have hgives := (processEvent_gives hs host (toOrderEvent e)).resolve_left hmemory
  generalize hanswer : (marketOf s.engine).answer (toOrderEvent e) = answer at hgives ⊢
  generalize hcall : processEvent setting.hash host (toOrderEvent e) s.engine = result at hgives ⊢
  obtain ⟨o, t⟩ := result
  obtain ⟨houtcome, htrades, hmarket⟩ := hgives
  dsimp only at houtcome htrades hmarket ⊢
  rw [List.nil_append] at htrades
  cases herror : answer.error with
  | none =>
    rw [herror, outcomeOf] at houtcome
    rw [houtcome] at hcall
    refine ⟨_, recordEvent_returns _ hcall, ?_, ?_, ?_, ?_, ?_⟩
    · refine h.returned herror htrades ?_
      rw [Answered.label, herror, outcomeOf]
      exact labelled_returns hs hcall
    all_goals rw [told_eq]
    exact hmarket
  | some exn =>
    rw [herror, outcomeOf] at houtcome
    rw [houtcome] at hcall
    refine ⟨_, recordEvent_throws _ hcall, ?_, rfl, hmarket, rfl, rfl⟩
    refine h.refused (by rw [herror]; nofun) ?_
    rw [Answered.label, herror]
    rfl

/-- What is written of a recording is the frame of the market. -/
theorem Tells.frame (h : Tells setting told since s)
    (hs : Sound setting.hash s.engine.orderBook) {last : Answered}
    (hmarket : marketOf s.engine = last.answer.market) :
    frameOf setting.position { s with
        snapshot := { captureSnapshot s.engine.orderBook s.snapshot setting.depth with
          sequence := UInt64.ofNat told.length, tsNs := last.event.tsNs } } =
      frameAt setting told since last := by
  have hside : ∀ d, viewOf (sideOf (captureSnapshot s.engine.orderBook s.snapshot setting.depth)
      d) = sideView last.answer.market d setting.depth.toNat := by
    intro d
    rw [← hmarket]
    exact viewOf_capture hs s.snapshot setting.depth d
  have hflow : flowOf s = flowAt told := by
    rw [flowOf, h.newCount, h.cancelCount, h.reduceCount, h.tradeCount, h.buyQty, h.sellQty]
    simp only [UInt64.toNat_ofNat']
    rfl
  have hlat : latOf setting.position s.latency = latAt setting told := by
    rw [latOf, latAt, lastLatencies]
    refine List.filterMap_congr fun name _ => ?_
    rw [h.latency, windowOf]
    split <;> rfl
  have htape : (shownTape s.tape).map entryOf =
      (since.flatMap Answered.entries).rtake TapeCap := by
    rw [shownTape_rtake, ← h.tape, List.rtake, List.rtake, List.map_drop, List.length_map]
  rw [frameAt, ← hside true, ← hside false, ← hflow, ← hlat, ← htape]
  simp only [frameOf, UInt64.toNat_ofNat']
  rfl

end Steps

section Runs

variable {setting : Setting} {told since : List Answered} {s : Recording}

/-- The lines of the frames. -/
def frameLines (frames : List Frame) : Text :=
  frames.flatMap fun frame => asciiText (frame.json.render ++ ['\n'])

/-- The recording behind a frame. -/
theorem Tells.recordFrame (h : Tells setting told since s)
    (hs : Sound setting.hash s.engine.orderBook) {last : Answered}
    (hmarket : marketOf s.engine = last.answer.market) {index : ℕ}
    (hindex : told.length = index + 1) :
    ∃ s', recordFrame setting.position setting.depth index last.event s = s' ∧
      Tells setting told [] s' ∧ s'.engine = s.engine ∧ s'.frames = s.frames + 1 ∧
      s'.written = s.written ++ frameLines [frameAt setting told since last] := by
  refine ⟨_, rfl, ?_, rfl, rfl, ?_⟩
  · exact { h with
      tape := rfl
      sided := fun entry hentry => absurd hentry List.not_mem_nil }
  · have hframe := h.frame hs hmarket
    rw [hindex] at hframe
    rw [SnapshotRecorders.recordFrame, frameLines, List.flatMap_singleton, ← hframe]
    exact congrArg (s.written ++ ·) (frameLine_json setting.position h.sided)

/-- The events from the one with the given index on, as they are sent to the engine. -/
def sentFrom (hosts : ℕ → Host) (index : ℕ) (events : List ParsedEvent) :
    List (Host × OrderEvent) :=
  (events.zipIdx index).map fun e => (hosts e.2, toOrderEvent e.1)

/-- Between two frames, what the next one has to list grows. -/
theorem since_grows {every : ℕ} (told : List Answered) (a : Answered)
    (hno : (told.length + 1) % every ≠ 0) :
    told.drop (told.length / every * every) ++ [a] =
      (told ++ [a]).drop ((told.length + 1) / every * every) := by
  have hdiv : (told.length + 1) / every = told.length / every :=
    Nat.succ_div_of_not_dvd fun hdvd => hno (Nat.mod_eq_zero_of_dvd hdvd)
  rw [hdiv, List.drop_append_of_le_length (Nat.div_mul_le_self _ _)]

/-- Behind a multiple of the distance, the next frame has nothing to list yet. -/
theorem since_restarts {every : ℕ} (told : List Answered) (a : Answered)
    (hzero : (told.length + 1) % every = 0) :
    (told ++ [a]).drop ((told.length + 1) / every * every) = [] := by
  have hlength : (told ++ [a]).length = told.length + 1 := by simp
  rw [Nat.div_mul_cancel (Nat.dvd_of_mod_eq_zero hzero), ← hlength, List.drop_length]

theorem frameBehind_eq {every : ℕ} {whole last : List Answered} {a : Answered}
    (hwhole : whole = (told ++ [a]) ++ last)
    (hframe : ¬ ((told.length + 1) % every ≠ 0 ∧ told.length + 1 ≠ whole.length)) :
    frameBehind setting every whole told.length a = some (frameAt setting (told ++ [a])
      (told.drop (told.length / every * every) ++ [a]) a) := by
  have hlength : (told ++ [a]).length = told.length + 1 := by simp
  have htake : whole.take (told.length + 1) = told ++ [a] := by
    rw [hwhole, ← hlength, List.take_left']
    rfl
  have hdrop : told.drop (told.length / every * every) ++ [a] =
      (told ++ [a]).drop (told.length / every * every) :=
    (List.drop_append_of_le_length (Nat.div_mul_le_self _ _)).symm
  rw [hdrop, ← htake]
  exact if_neg hframe

/-- The run of the loop from the events told on: it returns, and writes the frames of the market
behind the events to come. -/
theorem recordEvents_tells {every : ℕ} {whole : List Answered} {events : List ParsedEvent}
    (h : Tells setting told since s)
    (hsince : events ≠ [] → since = told.drop (told.length / every * every))
    (hs : Sound setting.hash s.engine.orderBook)
    (hwhole : whole = told ++ answered events (marketOf s.engine))
    (hmemory : ∀ response ∈ alone setting.hash (sentFrom setting.hosts told.length events) s.engine,
      ¬ RefusesMemory response.outcome) :
    ∃ s', recordEvents setting every whole.length told.length events s = (.returns (), s') ∧
      s'.errorCount = UInt64.ofNat (whole.map Answered.errorCount).sum ∧
      ∃ frames, framesFrom setting every whole told.length (answered events (marketOf s.engine)) =
          frames ∧
        s'.frames = s.frames + UInt64.ofNat frames.length ∧
        s'.written = s.written ++ frameLines frames := by
  induction events generalizing told since s with
  | nil =>
    refine ⟨s, rfl, ?_, [], rfl, (UInt64.add_zero _).symm, (List.append_nil _).symm⟩
    rw [hwhole, answered, List.append_nil]
    exact h.errorCount
  | cons e events ih =>
    obtain ⟨hfirst, hrest⟩ := List.forall_mem_cons.mp hmemory
    obtain ⟨s₁, hevent, htells, hengine, hmarket, hwritten, hframes⟩ := h.event hs hfirst
    have hsound : Sound setting.hash s₁.engine.orderBook := by
      rw [hengine]
      exact sound_processEvent hs _ (toOrderEvent e)
    rw [answered] at hwhole ⊢
    generalize ha : (⟨e, (marketOf s.engine).answer (toOrderEvent e)⟩ : Answered) = a
      at hwhole htells ⊢
    have hanswer : (marketOf s.engine).answer (toOrderEvent e) = a.answer := by rw [← ha]
    rw [hanswer] at hmarket hwhole ⊢
    have hlength : (told ++ [a]).length = told.length + 1 := by simp
    have hwhole' : whole = (told ++ [a]) ++ answered events a.answer.market := by
      rw [hwhole, List.append_assoc, List.singleton_append]
    have hsince := hsince (List.cons_ne_nil _ _)
    have hnext := fun {since' : List Answered} {s₂ : Recording}
        (h' : Tells setting (told ++ [a]) since' s₂) (hsame : s₂.engine = s₁.engine) hsince' =>
      ih h' hsince' (by rwa [hsame]) (by rwa [hsame, hmarket])
        (by rwa [hsame, hlength, hengine])
    rw [hlength] at hnext
    rw [recordEvents, Proc.bind_returns _ hevent, framesFrom_cons]
    by_cases hno : (told.length + 1) % every ≠ 0 ∧ told.length + 1 ≠ whole.length
    · have hbehind : frameBehind setting every whole told.length a = none := if_pos hno
      obtain ⟨s', hrun, herrors, frames, hlist, hcount, htext⟩ := hnext htells rfl
        fun _ => by rw [hsince, since_grows told a hno.1]
      rw [hmarket] at hlist
      rw [if_pos hno, hbehind, hlist]
      exact ⟨s', hrun, herrors, frames, rfl, by rw [hcount, hframes], by rw [htext, hwritten]⟩
    · have hbehind : frameBehind setting every whole told.length a = _ :=
        frameBehind_eq hwhole' hno
      rw [← hsince] at hbehind
      -- unless the file ends here, the frame stands behind a multiple of the distance
      have hrestarts : events ≠ [] →
          [] = (told ++ [a]).drop ((told.length + 1) / every * every) := by
        intro hmore
        have hrest : told.length + 1 ≠ whole.length := by
          rw [hwhole', List.length_append, hlength]
          cases events with
          | nil => exact absurd rfl hmore
          | cons e' events => simp [answered]
        have hzero : (told.length + 1) % every = 0 := by
          by_contra hne
          exact hno ⟨hne, hrest⟩
        exact (since_restarts told a hzero).symm
      obtain ⟨s₂, hframe, htells₂, hengine₂, hframes₂, hwritten₂⟩ :=
        htells.recordFrame hsound hmarket hlength
      obtain ⟨s', hrun, herrors, frames, hlist, hcount, htext⟩ := hnext htells₂ hengine₂ hrestarts
      rw [hengine₂, hmarket] at hlist
      have hlast : e = a.event := by rw [← ha]
      rw [if_neg hno, hbehind, hlist, hlast, Proc.modify_bind_apply, hframe]
      refine ⟨s', hrun, herrors, _, rfl, ?_, ?_⟩
      · rw [hcount, hframes₂, hframes, List.length_append, UInt64.ofNat_add, UInt64.add_assoc]
        rfl
      · rw [htext, hwritten₂, hwritten, List.append_assoc]
        exact congrArg (s.written ++ ·) List.flatMap_append.symm

end Runs

end Leka.RecordedRuns
