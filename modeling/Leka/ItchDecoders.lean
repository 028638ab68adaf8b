import Leka.ByteReads
import Mathlib.Data.List.DropRight

/-!
The converter from ITCH session files to CSV. A frame is a length and a payload, and most
payloads become one row. The loop is kept with the frames it visits: each with the state it
was met in and the indices of the payload that were read for it. The midnight of the session
date and the contents of the memory behind the file are parameters. The mapping of the file into
memory is left out: it refuses an empty file in front of the loop.
-/

namespace Leka.ItchDecoders

open Numerals ByteReads

def FrameLengthBytes : ℕ := 2
def LocateOffset : ℕ := 1
def TimestampOffset : ℕ := 5
def StockSymbolWidth : ℕ := 8

/-- The message type is one of the letters. -/
def isOneOf (type : UInt8) (letters : String) : Bool :=
  letters.toList.any fun letter => type == ascii letter

/-- The text without the padding spaces at its end. -/
def unpadded (text : Text) : Text := text.rdropWhile (· == ascii ' ')

def symbolAt (bytes : ByteView) (offset : ℕ) : Reading Text := do
  let text ← textAt bytes offset StockSymbolWidth
  return unpadded text

def messageName (type : UInt8) : String :=
  match Char.ofNat type.toNat with
  | 'A' => "ADD_ORDER"
  | 'F' => "ADD_ORDER_MPID"
  | 'E' => "EXECUTED"
  | 'C' => "EXECUTED_WITH_PRICE"
  | 'X' => "CANCEL_PARTIAL"
  | 'D' => "DELETE"
  | 'U' => "REPLACE"
  | 'P' => "TRADE_NON_CROSS"
  | 'Q' => "TRADE_CROSS"
  | 'B' => "TRADE_BROKEN"
  | 'S' => "SYSTEM_EVENT"
  | 'H' => "TRADING_ACTION"
  | _ => "OTHER"

/-- The text that `appendUInt` appends; so for the other three. -/
def appendUInt (v : UInt64) : Text := decimal v.toNat

def appendPrice (raw : UInt32) : Text :=
  let frac := raw.toNat % 10000
  decimal (raw.toNat / 10000) ++ [ascii '.', digit (frac / 1000 % 10), digit (frac / 100 % 10),
    digit (frac / 10 % 10), digit (frac % 10)]

def appendPadded (v width : ℕ) : Text := padded width v

def appendClock (nanosSinceMidnight : UInt64) : Text :=
  let nanos := nanosSinceMidnight.toNat % 1000000000
  let seconds := nanosSinceMidnight.toNat / 1000000000
  appendPadded (seconds / 3600) 2 ++ [ascii ':'] ++ appendPadded (seconds / 60 % 60) 2 ++
    [ascii ':'] ++ appendPadded (seconds % 60) 2 ++ [ascii '.'] ++ appendPadded nanos 9

structure Options where
  symbols : List Text
  limit : UInt64
  system : Bool

/-- The state of the loop besides the offset. `written` is what has gone to the output. -/
structure Decoder where
  keepLocate : Array Bool := #[]
  locateToSymbol : UInt16 → Option Text := fun _ => none
  written : Text := []
  buffer : Text
  messages : UInt64 := 0
  rows : UInt64 := 0

section Columns

variable (m : ByteView) (type : UInt8)

def symbolColumn (locateToSymbol : UInt16 → Option Text) (locate : UInt16) : Reading Text :=
  if isOneOf type "AFP" then symbolAt m 24
  else if isOneOf type "Q" then symbolAt m 19
  else if isOneOf type "H" then symbolAt m 11
  else if !isOneOf type "S" then pure ((locateToSymbol locate).getD [])
  else pure []

def orderRefColumn : Reading Text :=
  if isOneOf type "AFECXDUP" then do
    let v ← rd64 m 11
    return appendUInt v
  else pure []

def sideColumn : Reading Text :=
  if isOneOf type "AFP" then do
    let c ← byteAt m 19
    return [c]
  else pure []

def sharesColumn : Reading Text :=
  if isOneOf type "AFP" then do
    let v ← rd32 m 20
    return appendUInt v.toUInt64
  else if isOneOf type "ECX" then do
    let v ← rd32 m 19
    return appendUInt v.toUInt64
  else if isOneOf type "U" then do
    let v ← rd32 m 27
    return appendUInt v.toUInt64
  else if isOneOf type "Q" then do
    let v ← rd64 m 11
    return appendUInt v
  else pure []

def priceColumn : Reading Text :=
  if isOneOf type "AFP" then do
    let v ← rd32 m 32
    return appendPrice v
  else if isOneOf type "C" then do
    let v ← rd32 m 32
    return appendPrice v
  else if isOneOf type "U" then do
    let v ← rd32 m 31
    return appendPrice v
  else if isOneOf type "Q" then do
    let v ← rd32 m 27
    return appendPrice v
  else pure []

def newOrderRefColumn : Reading Text :=
  if isOneOf type "U" then do
    let v ← rd64 m 19
    return appendUInt v
  else pure []

def matchNumberColumn : Reading Text :=
  if isOneOf type "EC" then do
    let v ← rd64 m 23
    return appendUInt v
  else if isOneOf type "P" then do
    let v ← rd64 m 36
    return appendUInt v
  else if isOneOf type "Q" then do
    let v ← rd64 m 31
    return appendUInt v
  else if isOneOf type "B" then do
    let v ← rd64 m 11
    return appendUInt v
  else pure []

def printableColumn : Reading Text :=
  if isOneOf type "C" then do
    let c ← byteAt m 31
    return [c]
  else pure []

def attributionColumn : Reading Text :=
  if isOneOf type "F" then do
    let mpid ← textAt m 36 4
    return unpadded mpid
  else if isOneOf type "S" then do
    let c ← byteAt m 11
    return [c]
  else if isOneOf type "H" then do
    let c ← byteAt m 19
    return [c]
  else pure []

/-- The fifteen columns of a row, in the order in which they are appended. -/
def columns (epochBase : UInt64) (locateToSymbol : UInt16 → Option Text) (locate : UInt16)
    (seq : UInt64) : Reading (List Text) := do
  let nanos ← rd48 m TimestampOffset
  let symbol ← symbolColumn m type locateToSymbol locate
  let orderRef ← orderRefColumn m type
  let side ← sideColumn m type
  let shares ← sharesColumn m type
  let price ← priceColumn m type
  let newOrderRef ← newOrderRefColumn m type
  let matchNumber ← matchNumberColumn m type
  let printable ← printableColumn m type
  let attribution ← attributionColumn m type
  return [appendUInt seq, appendUInt nanos,
    if epochBase ≠ 0 then appendUInt (epochBase + nanos) else [],
    appendClock nanos, [type], ofString (messageName type), symbol, orderRef, side, shares, price,
    newOrderRef, matchNumber, printable, attribution]

end Columns

/-- A row: a comma after every column but the last, which ends the line. -/
def rowText (columns : List Text) : Text := [ascii ','].intercalate columns ++ [ascii '\n']

def header : Text := ofString ("seq,ts_ns,epoch_ns,clock_et,msg,name,symbol,order_ref,side," ++
  "shares,price,new_order_ref,match_number,printable,attribution\n")

section Handling

variable (options : Options) (epochBase : UInt64)

def filtering : Bool := !options.symbols.isEmpty

/-- What an 'R' message adds to the directory; the first symbol of a locate code stays. -/
def learn (locate : UInt16) (symbol : Text) (d : Decoder) : Decoder :=
  { d with
    locateToSymbol := fun code => if code = locate ∧ d.locateToSymbol locate = none then some symbol
      else d.locateToSymbol code
    keepLocate := if filtering options then
        (d.keepLocate ++ Array.replicate (locate.toNat + 1 - d.keepLocate.size) false).setIfInBounds
          locate.toNat (options.symbols.contains symbol)
      else d.keepLocate }

/-- The filter keeps the message. -/
def keeps (d : Decoder) (type : UInt8) (locate : UInt16) : Bool :=
  !(filtering options && !isOneOf type "S") || d.keepLocate.getD locate.toNat false

/-- The buffer goes to the output when it has grown large. -/
def flush (d : Decoder) : Decoder :=
  if d.buffer.length ≥ 2 ^ 21 then { d with written := d.written ++ d.buffer, buffer := [] } else d

/-- One round of the loop, on the payload `m`; the flag says that the row limit ends it. -/
def handle (m : ByteView) (d : Decoder) : Reading (Bool × Decoder) := do
  let d := { d with messages := d.messages + 1 }
  let type ← byteAt m 0
  let locate ← rd16 m LocateOffset
  if isOneOf type "R" then
    let symbol ← symbolAt m 11
    return (false, learn options locate symbol d)
  else if isOneOf type "SH" && !options.system then
    return (false, d)
  else if !keeps options d type locate then
    return (false, d)
  else if messageName type = "OTHER" then
    return (false, d)
  else
    let fields ← columns m type epochBase d.locateToSymbol locate (d.rows + 1)
    let d := flush { d with rows := d.rows + 1, buffer := d.buffer ++ rowText fields }
    return (options.limit ≠ 0 && d.rows ≥ options.limit, d)

/-- The head of the loop: the length of the frame at `offset`, or the exit from the loop with
the flag for an input that ends within a message. -/
def nextFrame (input : ByteView) (offset : ℕ) : Except Bool ℕ :=
  if offset + FrameLengthBytes ≤ input.size then
    let length := (rd16 input offset).value.toNat
    if length = 0 ∨ offset + FrameLengthBytes + length > input.size then
      .error (decide (offset + FrameLengthBytes + length > input.size ∧ length ≠ 0))
    else .ok length
  else .error false

/-- A frame as the loop meets it. -/
structure Visit where
  before : Decoder
  start : ℕ
  frame : ByteView
  reads : List ℕ

structure Result where
  visits : List Visit
  truncated : Bool
  last : Decoder

/-- The loop, with a bound on its rounds. -/
def loop (input : ByteView) : ℕ → ℕ → Decoder → Option Result
  | 0, _, _ => none
  | fuel + 1, offset, d =>
    match nextFrame input offset with
    | .error truncated => some ⟨[], truncated, d⟩
    | .ok length =>
      let m := input.subspan (offset + FrameLengthBytes) length
      let handled := handle options epochBase m d
      let visit : Visit := ⟨d, offset + FrameLengthBytes, m, handled.reads⟩
      if handled.value.1 then some ⟨[visit], false, handled.value.2⟩
      else
        (loop input fuel (offset + FrameLengthBytes + length) handled.value.2).map fun result =>
          { result with visits := visit :: result.visits }

/-- The conversion. Each round takes three bytes or more, so the rounds are bounded. -/
def decode (input : ByteView) : Option Result :=
  loop options epochBase input (input.size + 1) 0 { buffer := header }

/-- The output file. -/
def Result.csv (result : Result) : Text := result.last.written ++ result.last.buffer

end Handling

end Leka.ItchDecoders
