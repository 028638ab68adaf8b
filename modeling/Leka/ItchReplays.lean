import Leka.CsvReaders
import Leka.LadderSizes
import Mathlib.Data.List.AList

/-!
The replay of a converted session. The first pass over the rows collects the price range and
groups the executions by time and resting side; a group stands for the aggressor that no
message tells of. The second pass replays the rows through a book, and submits the aggressors
of a time in front of the first row that carries it. The headroom is a computation on doubles,
and the order in which the groups are visited is that of a hash table: both are parameters.
-/

namespace Leka.ItchReplays

open Procedures Orders OrderPools OrderBooks MatchingEngines Numerals CsvReaders LadderSizes

/-- The fields of a row. -/
abbrev Row := List Text

def field (f : Row) (column : Column) : Text := f.getD column.index []

/-- The message type of a row, which has to be one character. -/
def msgOf (f : Row) : Option UInt8 :=
  match field f .Msg with
  | [msg] => some msg
  | _ => none

def tsOf (f : Row) : UInt64 := parseU64 (field f .TsNs)

def refOf (f : Row) : UInt64 := parseU64 (field f .OrderRef)

def newRefOf (f : Row) : UInt64 := parseU64 (field f .NewOrderRef)

def sharesOf (f : Row) : UInt64 := parseU64 (field f .Shares)

/-- A field that is no price leaves the variable at 0. -/
def priceOf (f : Row) : UInt64 := (parsePriceRaw (field f .PriceCol)).getD 0

/-- The side that the first pass notes for an added order. -/
def sideOf (f : Row) : UInt8 := (field f .Side).headD (ascii 'B')

/-- The lines of a file behind its header, split. -/
def dataRows (text : Text) : List Row := ((forEachLine text).drop 1).map splitRow

/-- One execution group of a time and a resting side. -/
structure Aggregate where
  restingSide : UInt8 := ascii 'B'
  quantity : UInt64 := 0
  priceExtreme : UInt64 := 0
  started : Bool := false
  deriving DecidableEq

/-- One more execution. The worst price of a buyer is the highest, of a seller the lowest. -/
def Aggregate.add (agg : Aggregate) (restingSide : UInt8) (price qty : UInt64) : Aggregate :=
  let agg :=
    if !agg.started then { agg with started := true, restingSide, priceExtreme := price }
    else if restingSide = ascii 'S' then
      { agg with priceExtreme := max agg.priceExtreme price }
    else { agg with priceExtreme := min agg.priceExtreme price }
  { agg with quantity := agg.quantity + qty }

/-- The entries of the table of groups, by `ts_ns * 2 + (restingSide == 'S')`. -/
abbrev Aggregates := AList fun _ : UInt64 => Aggregate

abbrev Entry := Σ _ : UInt64, Aggregate

def keyOf (ts : UInt64) (restingSide : UInt8) : UInt64 :=
  ts * 2 + if restingSide = ascii 'S' then 1 else 0

/-- What the first pass has collected. -/
structure Scan where
  refSide : UInt64 → Option UInt8 := fun _ => none
  refPrice : UInt64 → Option UInt64 := fun _ => none
  aggregates : Aggregates := ∅
  range : PriceRange := {}
  rowCount : UInt64 := 0

section FirstPass

/-- One row of the first pass, with a message type. -/
def scanMessage (scan : Scan) (f : Row) (msg : UInt8) : Scan :=
  let ref := refOf f
  if msg = ascii 'A' ∨ msg = ascii 'F' then
    { scan with
      refSide := Function.update scan.refSide ref (some (sideOf f))
      refPrice := Function.update scan.refPrice ref (some (priceOf f))
      range := noteRange scan.range (priceOf f) }
  else if msg = ascii 'U' then
    let side := (scan.refSide ref).getD (ascii 'B')
    { scan with
      refSide := Function.update (Function.update scan.refSide ref none) (newRefOf f) (some side)
      refPrice :=
        Function.update (Function.update scan.refPrice ref none) (newRefOf f) (some (priceOf f))
      range := noteRange scan.range (priceOf f) }
  else if msg = ascii 'D' then
    { scan with
      refSide := Function.update scan.refSide ref none
      refPrice := Function.update scan.refPrice ref none }
  else if msg = ascii 'E' ∨ msg = ascii 'C' then
    match scan.refSide ref with
    | none => scan
    | some restingSide =>
      let price := if msg = ascii 'C' then priceOf f else (scan.refPrice ref).getD 0
      let key := keyOf (tsOf f) restingSide
      let agg := ((scan.aggregates.lookup key).getD {}).add restingSide price (sharesOf f)
      { scan with
        aggregates := scan.aggregates.insert key agg
        range := noteRange scan.range agg.priceExtreme }
  else scan

def scanRow (scan : Scan) (f : Row) : Scan :=
  let scan := { scan with rowCount := scan.rowCount + 1 }
  match msgOf f with
  | none => scan
  | some msg => scanMessage scan f msg

def passOne (rows : List Row) : Scan := rows.foldl scanRow {}

end FirstPass

structure AggressorEvent where
  side : OrderSide
  quantity : UInt64
  priceRaw : UInt64
  deriving DecidableEq

def aggressorOf (agg : Aggregate) : AggressorEvent where
  side := if agg.restingSide = ascii 'S' then .buy else .sell
  quantity := agg.quantity
  priceRaw := agg.priceExtreme

/-- The aggressors of each time, in the order in which the entries are visited. A time
without aggressors is one that is not in the table. -/
def regroup (entries : List Entry) : UInt64 → List AggressorEvent :=
  entries.foldl
    (fun table entry => Function.update table (entry.1 / 2)
      (table (entry.1 / 2) ++ [aggressorOf entry.2]))
    fun _ => []

/-- The sizing of the book. The headroom is not rounded to ticks here. -/
def headroom (tick scaled : UInt64) : UInt64 := scaled + tick

def ladderSize (tick scaled : UInt64) (range : PriceRange) : LadderSize :=
  let ladderMin :=
    if range.minPriceRaw > headroom tick scaled then range.minPriceRaw - headroom tick scaled
    else tick
  let ladderMax := range.maxPriceRaw + headroom tick scaled
  ⟨ladderMin, ladderMax, (ladderMax - ladderMin) / tick + 1⟩

/-- What a submission to the engine is timed and counted as. -/
inductive Label
  | AGGR
  | NEW
  | CANCEL
  | REDUCE
  deriving DecidableEq

/-- A call of the engine, with the row that it was made for. -/
structure Submission where
  index : ℕ
  fields : Row
  label : Label
  event : OrderEvent
  outcome : Outcome StdException ℕ

/-- The state of the second pass. -/
structure Replay where
  aggressorsByTs : UInt64 → List AggressorEvent
  syntheticIdCounter : UInt64 := 0
  engine : EngineState
  submissions : List Submission := []

abbrev ReplayProc := Proc StdException Replay

def SyntheticIdBase : UInt64 := 4611686018427387904

section SecondPass

variable (hash : OrderId → UInt64) (hosts : ℕ → Host) (index : ℕ) (f : Row)

/-- A call of the engine. Each call meets the host in its own state. -/
def submit (label : Label) (event : OrderEvent) : ReplayProc Unit := fun s =>
  match processEvent hash (hosts s.submissions.length) event s.engine with
  | (o, engine) =>
    (o.map fun _ => (),
      { s with engine, submissions := s.submissions ++ [⟨index, f, label, event, o⟩] })

/-- Runs a procedure of the book of the engine. -/
def onEngineBook (x : BookProc α) : ReplayProc α :=
  Proc.zoom Replay.engine (fun engine s => { s with engine }) (onBook x)

/-- The order submitted for an aggressor. -/
def aggressorOrder (orderId : OrderId) (timestamp : Timestamp) (agg : AggressorEvent) :
    NewOrder where
  orderId
  price := agg.priceRaw
  quantity := agg.quantity
  timestamp
  orderSide := agg.side
  orderType := .limit

/-- The aggressors that are due, one after the other; a failed one is counted and left. -/
def inject (timestamp : Timestamp) : List AggressorEvent → ReplayProc Unit
  | [] => pure ()
  | agg :: rest => do
    let s ← Proc.get
    Proc.modify fun s => { s with syntheticIdCounter := s.syntheticIdCounter + 1 }
    tryCatch
      (submit hash hosts index f .AGGR
        (.new (aggressorOrder (SyntheticIdBase + s.syntheticIdCounter) timestamp agg)))
      fun _ => pure ()
    inject timestamp rest

/-- The new order of a row. -/
def newOrderOf (orderId : OrderId) (timestamp : Timestamp) (orderSide : OrderSide) : NewOrder where
  orderId
  price := priceOf f
  quantity := sharesOf f
  timestamp
  orderSide
  orderType := .limit

/-- The events of a row. -/
def replayMessage (timestamp : Timestamp) (msg : UInt8) : ReplayProc Unit := do
  let ref := refOf f
  if msg = ascii 'A' ∨ msg = ascii 'F' then
    let side := if (field f .Side).head? = some (ascii 'B') then OrderSide.buy else .sell
    submit hash hosts index f .NEW (.new (newOrderOf f ref timestamp side))
  else if msg = ascii 'D' then
    submit hash hosts index f .CANCEL (.cancel ⟨ref⟩)
  else if msg = ascii 'X' then
    let existing ← onEngineBook (findOrder hash ref)
    if existing ≠ nullptr then
      let s ← Proc.get
      let remaining := (s.engine.orderBook.memory existing).remainingQuantity
      let cancelled := sharesOf f
      if cancelled < remaining then
        submit hash hosts index f .REDUCE (.reduce ⟨ref, remaining - cancelled⟩)
      else
        submit hash hosts index f .CANCEL (.cancel ⟨ref⟩)
  else if msg = ascii 'U' then
    let existing ← onEngineBook (findOrder hash ref)
    if existing ≠ nullptr then
      let s ← Proc.get
      let side := (s.engine.orderBook.memory existing).orderSide
      submit hash hosts index f .CANCEL (.cancel ⟨ref⟩)
      submit hash hosts index f .NEW (.new (newOrderOf f (newRefOf f) timestamp side))

def timestampOf : Timestamp :=
  let epochNs := parseU64 (field f .EpochNs)
  if epochNs ≠ 0 then epochNs else tsOf f

def replayRow : ReplayProc Unit :=
  match msgOf f with
  | none => pure ()
  | some msg => do
    let s ← Proc.get
    inject hash hosts index f (timestampOf f) (s.aggressorsByTs (tsOf f))
    Proc.modify fun s =>
      { s with aggressorsByTs := Function.update s.aggressorsByTs (tsOf f) [] }
    tryCatch (replayMessage hash hosts index f (timestampOf f) msg) fun _ => pure ()

/-- The rows from the one with the given index on. -/
def replayRows : ℕ → List Row → ReplayProc Unit
  | _, [] => pure ()
  | index, f :: rows => do
    replayRow hash hosts index f
    replayRows (index + 1) rows

/-- The second pass, through a book. -/
def passTwo (visited : List Entry) (rows : List Row) (currentSequence : UInt64)
    (book : OrderBook) : Outcome StdException Unit × Replay :=
  replayRows hash hosts 0 rows
    { aggressorsByTs := regroup visited, engine := ⟨currentSequence, book, []⟩ }

end SecondPass

/-- How the tool ends. -/
inductive Run where
  /-- No row has a price. -/
  | noPricedRows
  /-- The book cannot be set up, and nothing catches the exception. -/
  | stopped (o : Outcome StdException Unit)
  | replayed (o : Outcome StdException Unit) (s : Replay)

/-- The calls of the second pass, when it is reached. -/
def Run.submissions : Run → List Submission
  | .replayed _ s => s.submissions
  | _ => []

/-- What the tool runs with: the hash of the index, the host at the reservation and at each call
of the engine, the order in which a hash table is visited, the headroom computation, the tick,
the contents of the memory and the process-wide counter. -/
structure Setting where
  hash : OrderId → UInt64
  host : Host
  hosts : ℕ → Host
  visit : List Entry → List Entry
  scale : UInt64 → UInt64
  tick : UInt64
  memory : Memory
  currentSequence : UInt64

/-- The book of the second pass, with its capacity reserved. -/
def openBook (setting : Setting) (scan : Scan) : Outcome StdException Unit × Option OrderBook :=
  let size := ladderSize setting.tick (setting.scale scan.range.span) scan.range
  match OrderBook.make setting.memory size.ladderMin setting.tick size.levelCount with
  | .error e => (.throws e, none)
  | .ok book =>
    match reserveOrderCapacity setting.hash setting.host
      (scan.rowCount + UInt64.ofNat scan.aggregates.entries.length) book with
    | (o, book) => (o, some book)

def itchReplay (setting : Setting) (text : Text) : Run :=
  let rows := dataRows text
  let scan := passOne rows
  if scan.range.minPriceRaw = uint64Max then .noPricedRows
  else
    match openBook setting scan with
    | (.returns (), some book) =>
      let (o, s) := passTwo setting.hash setting.hosts (setting.visit scan.aggregates.entries) rows
        setting.currentSequence book
      .replayed o s
    | (o, _) => .stopped o

end Leka.ItchReplays
