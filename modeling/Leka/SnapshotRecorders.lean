import Leka.InterchangeReplays

/-!
The recorder of book snapshots. It replays an interchange file like the benchmark does, and
behind every so many events, and behind the last one, it writes what a viewer shows of the book
and of the events so far. The samples of a label are kept in a window, and a frame carries the
last executions since the frame before.
-/

namespace Leka.SnapshotRecorders

open Procedures Orders OrderPools OrderBooks MatchingEngines Numerals LadderSizes
  InterchangeReaders
open InterchangeReplays hiding Replay ReplayProc onEngine countEvent countError

section Windows

/-- What is asked of a window of samples. -/
inductive Percentile
  | p50
  | p99
  | p999

structure RollingLatency where
  samples : List UInt64 := []

def Window : ℕ := 1024

def RollingLatency.add (nanos : UInt64) (latency : RollingLatency) : RollingLatency where
  samples :=
    (if latency.samples.length = Window then latency.samples.tail else latency.samples) ++ [nanos]

/-- `position` is the index of a percentile in so many samples, a computation on doubles. -/
def RollingLatency.percentiles (position : Percentile → ℕ → ℕ) (latency : RollingLatency) :
    UInt64 × UInt64 × UInt64 :=
  if latency.samples = [] then (0, 0, 0)
  else
    let sorted := latency.samples.mergeSort
    let at' p := sorted.getD (position p sorted.length) 0
    (at' .p50, at' .p99, at' .p999)

end Windows

/-- One execution, as the tape view needs it. -/
structure TapeEntry where
  tsNs : UInt64
  priceRaw : UInt64
  quantity : UInt64
  aggressorSide : UInt8
  deriving DecidableEq

/-- A recording under way; the buffer of the engine is `executionBuffer`. -/
structure Recording where
  engine : EngineState
  snapshot : BookSnapshot := {}
  latency : Label → Option RollingLatency := fun _ => none
  tape : List TapeEntry := []
  newCount : UInt64 := 0
  cancelCount : UInt64 := 0
  reduceCount : UInt64 := 0
  tradeCount : UInt64 := 0
  buyQty : UInt64 := 0
  sellQty : UInt64 := 0
  errorCount : UInt64 := 0
  frames : UInt64 := 0
  written : Text := []

abbrev RecordProc := Proc StdException Recording

def onEngine (x : EngineProc α) : RecordProc α :=
  Proc.zoom Recording.engine (fun engine s => { s with engine }) x

section Events

def countEvent (e : ParsedEvent) (s : Recording) : Recording :=
  match e.kind with
  | .New => { s with newCount := s.newCount + 1 }
  | .Reduce => { s with reduceCount := s.reduceCount + 1 }
  | .Cancel => { s with cancelCount := s.cancelCount + 1 }

def addSample (label : Label) (elapsed : UInt64) (s : Recording) : Recording :=
  let samples := (s.latency label).getD {}
  { s with latency := Function.update s.latency label (some (samples.add elapsed)) }

/-- One round of the loop over the executions of an event. -/
def addExecution (e : ParsedEvent) (s : Recording) (execution : Execution) : Recording :=
  let qty := execution.executionQuantity
  { s with
    tradeCount := s.tradeCount + 1
    buyQty := if e.side = .buy then s.buyQty + qty else s.buyQty
    sellQty := if e.side = .buy then s.sellQty else s.sellQty + qty
    tape := s.tape ++
      [⟨e.tsNs, execution.executionPrice, qty, if e.side = .buy then ascii 'B' else ascii 'S'⟩] }

/-- The call of the engine, and what follows it up to the frame. -/
def recordEvent (hash : OrderId → UInt64) (host : Host) (elapsed : UInt64) (e : ParsedEvent) :
    RecordProc Unit :=
  tryCatch
    (do
      let _ ← onEngine (processEvent hash host (toOrderEvent e))
      let s ← Proc.get
      let executionBuffer := s.engine.out
      Proc.modify (countEvent e)
      Proc.modify (addSample (labelOf e executionBuffer) elapsed)
      Proc.modify fun s => executionBuffer.foldl (addExecution e) s)
    fun _ => Proc.modify fun s => { s with errorCount := s.errorCount + 1 }

end Events

section Frames

def to_string (v : UInt64) : Text := decimal v.toNat

def levelText (level : BookSnapshotLevel) : Text :=
  ofString "[" ++ to_string level.priceRaw ++ ofString "," ++ to_string level.quantity ++
    ofString "," ++ to_string level.orderCount ++ ofString "]"

def appendJsonLevels (levels : List BookSnapshotLevel) : Text :=
  ofString "[" ++ [ascii ','].intercalate (levels.map levelText) ++ ofString "]"

/-- The labels that a frame lists. -/
def latencyNames : List (String × Label) :=
  [("NEW_REST", .NEW_REST), ("NEW_CROSS", .NEW_CROSS), ("CANCEL", .CANCEL), ("REDUCE", .REDUCE)]

def latencyText (name : String) (p : UInt64 × UInt64 × UInt64) : Text :=
  ofString "\"" ++ ofString name ++ ofString "\":[" ++ to_string p.1 ++ ofString "," ++
    to_string p.2.1 ++ ofString "," ++ to_string p.2.2 ++ ofString "]"

def latencyTexts (position : Percentile → ℕ → ℕ) (latency : Label → Option RollingLatency) :
    List Text :=
  latencyNames.filterMap fun name => (latency name.2).map fun samples =>
    latencyText name.1 (samples.percentiles position)

def tapeText (entry : TapeEntry) : Text :=
  ofString "[" ++ to_string entry.tsNs ++ ofString "," ++ to_string entry.priceRaw ++
    ofString "," ++ to_string entry.quantity ++ ofString ",\"" ++ [entry.aggressorSide] ++
    ofString "\"]"

/-- The entries that one frame carries at most. -/
def TapeCap : ℕ := 24

/-- The last entries of a tape that is too long for a frame. -/
def shownTape (tape : List TapeEntry) : List TapeEntry :=
  tape.drop (if tape.length > TapeCap then tape.length - TapeCap else 0)

/-- The line of a frame. -/
def frameLine (position : Percentile → ℕ → ℕ) (s : Recording) : Text :=
  let snapshot := s.snapshot
  ofString "\x7b\"seq\":" ++ to_string snapshot.sequence ++
  ofString ",\"ts\":" ++ to_string snapshot.tsNs ++
  ofString ",\"bb\":" ++ to_string snapshot.bestBidRaw ++
  ofString ",\"ba\":" ++ to_string snapshot.bestAskRaw ++
  ofString ",\"nb\":" ++ to_string snapshot.bidLevelCount ++
  ofString ",\"na\":" ++ to_string snapshot.askLevelCount ++
  ofString ",\"bids\":" ++ appendJsonLevels snapshot.bids ++
  ofString ",\"asks\":" ++ appendJsonLevels snapshot.asks ++
  ofString ",\"flow\":\x7b\"new\":" ++ to_string s.newCount ++
  ofString ",\"cancel\":" ++ to_string s.cancelCount ++
  ofString ",\"reduce\":" ++ to_string s.reduceCount ++
  ofString ",\"trades\":" ++ to_string s.tradeCount ++
  ofString ",\"buyQty\":" ++ to_string s.buyQty ++
  ofString ",\"sellQty\":" ++ to_string s.sellQty ++ ofString "\x7d" ++
  ofString ",\"lat\":\x7b" ++ [ascii ','].intercalate (latencyTexts position s.latency) ++
  ofString "\x7d" ++
  ofString ",\"tape\":[" ++ [ascii ','].intercalate ((shownTape s.tape).map tapeText) ++
  ofString "]\x7d\n"

/-- The frame behind the event with the given index. -/
def recordFrame (position : Percentile → ℕ → ℕ) (depth : UInt64) (index : ℕ) (e : ParsedEvent)
    (s : Recording) : Recording :=
  let captured := captureSnapshot s.engine.orderBook s.snapshot depth
  let s := { s with
    snapshot := { captured with sequence := UInt64.ofNat (index + 1), tsNs := e.tsNs } }
  { s with
    tape := []
    written := s.written ++ frameLine position s
    frames := s.frames + 1 }

end Frames

/-- What the tool runs with: the hash of the index, the host at the reservation and at each call
of the engine, the options, the computations on doubles, the clock readings around each call,
the contents of the memory and the process-wide counter. -/
structure Setting where
  hash : OrderId → UInt64
  host : Host
  hosts : ℕ → Host
  input : Text
  label : Text
  snapshotEvery : UInt64
  depth : UInt64
  tick : UInt64
  scale : UInt64 → UInt64
  position : Percentile → ℕ → ℕ
  elapsed : ℕ → UInt64
  memory : Memory
  currentSequence : UInt64

section Tool

variable (setting : Setting)

/-- The loop from the event with the given index on, of `size` events. -/
def recordEvents (every size : ℕ) : ℕ → List ParsedEvent → RecordProc Unit
  | _, [] => pure ()
  | index, e :: events => do
    recordEvent setting.hash (setting.hosts index) (setting.elapsed index) e
    if (index + 1) % every ≠ 0 ∧ index + 1 ≠ size then
      recordEvents every size (index + 1) events
    else do
      Proc.modify (recordFrame setting.position setting.depth index e)
      recordEvents every size (index + 1) events

/-- The name of the recording. -/
def Setting.shownLabel : Text := if setting.label = [] then setting.input else setting.label

/-- The distance of the frames: about 1500 of them, when none is asked for. -/
def Setting.every (size : UInt64) : UInt64 :=
  if setting.snapshotEvery = 0 then max 1 (size / 1500) else setting.snapshotEvery

def headerLine (pass : Pass) : Text :=
  let size := UInt64.ofNat pass.events.length
  ofString "\x7b\"type\":\"meta\",\"label\":\"" ++
  (setting.shownLabel.flatMap fun c =>
    (if c = ascii '"' ∨ c = ascii '\\' then [ascii '\\'] else []) ++ [c]) ++
  ofString "\",\"events\":" ++ to_string size ++
  ofString ",\"tick\":" ++ to_string setting.tick ++
  ofString ",\"depth\":" ++ to_string setting.depth ++
  ofString ",\"every\":" ++ to_string (setting.every size) ++
  ofString ",\"minPrice\":" ++ to_string pass.range.minPriceRaw ++
  ofString ",\"maxPrice\":" ++ to_string pass.range.maxPriceRaw ++ ofString "\x7d\n"

/-- How the tool ends. -/
inductive Run where
  /-- No row is a priced LIMIT order. -/
  | noPricedRows
  /-- The book cannot be set up, and nothing catches the exception. -/
  | stopped (o : Outcome StdException Unit)
  | recorded (o : Outcome StdException Unit) (s : Recording)

/-- The book of the recorder, with its capacity reserved. -/
def openBook (pass : Pass) : Outcome StdException Unit × Option OrderBook :=
  let size := ladderSize setting.tick (setting.scale pass.range.span) pass.range
  match OrderBook.make setting.memory size.ladderMin setting.tick size.levelCount with
  | .error e => (.throws e, none)
  | .ok book =>
    match Tool.snapshot_recorder.prepare setting.hash setting.host pass.events book with
    | (o, book) => (o, some book)

def snapshotRecorder (text : Text) : Run :=
  let pass := parseAll text
  if pass.range.minPriceRaw = uint64Max then .noPricedRows
  else
    match openBook setting pass with
    | (.returns (), some book) =>
      let every := (setting.every (UInt64.ofNat pass.events.length)).toNat
      let (o, s) := recordEvents setting every pass.events.length 0 pass.events
        { engine := ⟨setting.currentSequence, book, []⟩, written := headerLine setting pass }
      .recorded o s
    | (o, _) => .stopped o

end Tool

end Leka.SnapshotRecorders
