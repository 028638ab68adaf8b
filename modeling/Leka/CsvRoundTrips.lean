import Leka.CsvReaders
import Leka.FrameSplits
import Leka.RowTexts
import Mathlib.Data.List.GetD

/-!
The reader reads back what the converter writes. For a file of well-formed messages the lines
are the header and one row for every emitted message; every row splits into the columns that
were written, and the numbers, the price and the clock in it denote what the message holds.
-/

namespace Leka.CsvRoundTrips

open Numerals ByteReads ItchDecoders ItchLayouts ItchRounds FrameReads RowTexts CsvReaders Frames
open FrameSplits

/-- A time of day, in the texts of its parts. -/
structure Clock where
  hours : Text
  minutes : Text
  seconds : Text
  fraction : Text

/-- The text is the clock time with this many nanoseconds since midnight. -/
structure Clock.Denotes (clock : Clock) (text : Text) (nanos : ℕ) : Prop where
  text_eq : text = clock.hours ++ [ascii ':'] ++ clock.minutes ++ [ascii ':'] ++ clock.seconds ++
    [ascii '.'] ++ clock.fraction
  digits : AllDigits (clock.hours ++ clock.minutes ++ clock.seconds ++ clock.fraction)
  widths : clock.hours.length = 2 ∧ clock.minutes.length = 2 ∧ clock.seconds.length = 2 ∧
    clock.fraction.length = 9
  minutes_lt : valueOf clock.minutes < 60
  seconds_lt : valueOf clock.seconds < 60
  nanos_eq : nanos = ((valueOf clock.hours * 60 + valueOf clock.minutes) * 60 +
    valueOf clock.seconds) * 10 ^ 9 + valueOf clock.fraction

/-- The field that a column shows in the rows of a type. -/
def fieldOf (type : UInt8) (column : Column) : Shown :=
  (layout type).getD (column.index - Column.Symbol.index) .blank

/-- The number in a field, zero for a blank one. -/
def numberIn (m : ByteView) : Shown → ℕ
  | .number offset width => bigEndian (m.field offset width)
  | _ => 0

def priceIn (m : ByteView) : Shown → Option ℕ
  | .price offset => some (bigEndian (m.field offset 4))
  | _ => none

def cell (line : Text) (column : Column) : Text := (splitRow line).getD column.index []

/-- The line is the row of the message, and its columns read as what the message holds. -/
structure ReadsBack (epochBase : UInt64) (visit : Visit) (line : Text) : Prop where
  columns : splitRow line = rowOf epochBase visit.frame visit.before
  timestamp : (parseU64 (cell line .TsNs)).toNat = bigEndian (visit.frame.field TimestampOffset 6)
  numbers : ∀ column ∈ [Column.OrderRef, .Shares, .NewOrderRef, .MatchNumber],
    (parseU64 (cell line column)).toNat =
      numberIn visit.frame (fieldOf (typeOf visit.frame) column)
  price : (parsePriceRaw (cell line .PriceCol)).map UInt64.toNat =
    priceIn visit.frame (fieldOf (typeOf visit.frame) .PriceCol)
  clock : ∃ clock : Clock,
    clock.Denotes (cell line .ClockEt) (bigEndian (visit.frame.field TimestampOffset 6))

def columnNames : List Text := ["seq", "ts_ns", "epoch_ns", "clock_et", "msg", "name", "symbol",
  "order_ref", "side", "shares", "price", "new_order_ref", "match_number", "printable",
  "attribution"].map ofString

section Cells

variable (m : ByteView)

theorem clock_denotes {nanos : UInt64} (h : nanos.toNat < 2 ^ 48) :
    ∃ clock : Clock, clock.Denotes (appendClock nanos) nanos.toNat := by
  have hhours : valueOf (padded 2 (nanos.toNat / 1000000000 / 3600)) =
      nanos.toNat / 1000000000 / 3600 := by
    rw [valueOf_padded]
    omega
  have hminutes : valueOf (padded 2 (nanos.toNat / 1000000000 / 60 % 60)) =
      nanos.toNat / 1000000000 / 60 % 60 := by
    rw [valueOf_padded]
    omega
  have hseconds : valueOf (padded 2 (nanos.toNat / 1000000000 % 60)) =
      nanos.toNat / 1000000000 % 60 := by
    rw [valueOf_padded]
    omega
  have hfraction : valueOf (padded 9 (nanos.toNat % 1000000000)) =
      nanos.toNat % 1000000000 := by
    rw [valueOf_padded]
    omega
  refine ⟨⟨padded 2 (nanos.toNat / 1000000000 / 3600),
    padded 2 (nanos.toNat / 1000000000 / 60 % 60), padded 2 (nanos.toNat / 1000000000 % 60),
    padded 9 (nanos.toNat % 1000000000)⟩, ?_⟩
  constructor
  · rfl
  · exact allDigits_append (allDigits_append (allDigits_append (allDigits_padded _ _)
      (allDigits_padded _ _)) (allDigits_padded _ _)) (allDigits_padded _ _)
  · exact ⟨length_padded _ _, length_padded _ _, length_padded _ _, length_padded _ _⟩
  · rw [hminutes]
    omega
  · rw [hseconds]
    omega
  · rw [hhours, hminutes, hseconds, hfraction]
    omega

theorem parsePriceRaw_priceText {raw : ℕ} (h : raw < 2 ^ 32) :
    (parsePriceRaw (priceText raw)).map UInt64.toNat = some raw := by
  have hten : (10000 : UInt64).toNat = 10000 := rfl
  rw [priceText, parsePriceRaw_digits (allDigits_decimal _), Option.map_some, UInt64.toNat_add,
    UInt64.toNat_mul, parseU64_decimal (by omega), parseU64_padded (by omega), hten]
  congr 1
  omega

theorem numberField_lt {offset width : ℕ} (h : width ≤ 8) :
    bigEndian (m.field offset width) < 2 ^ 64 := by
  have hlt := bigEndian_lt (m.field offset width)
  rw [length_field] at hlt
  have hpow := Nat.pow_le_pow_right (show 0 < 256 by omega) h
  omega

theorem cell_field {epochBase : UInt64} {d : Decoder} {line : Text} (h : typeOf m ∈ emitted)
    (hcolumns : splitRow line = rowOf epochBase m d) {column : Column}
    (hcolumn : Column.Symbol.index ≤ column.index) :
    cell line column = (fieldOf (typeOf m) column).write m
      ((d.locateToSymbol (locateOf m)).getD []) := by
  rw [cell, hcolumns, rowOf_eq epochBase h, List.getD_append_right _ _ _ _ hcolumn]
  exact List.getD_map (layout (typeOf m)) Shown.blank (Shown.write m _)

theorem layout_numbers {type : UInt8} (h : type ∈ emitted) {column : Column}
    (hcolumn : column ∈ [Column.OrderRef, .Shares, .NewOrderRef, .MatchNumber]) :
    fieldOf type column = .blank ∨
      ∃ offset width, width ≤ 8 ∧ fieldOf type column = .number offset width := by
  have hall : ∀ type ∈ emitted, ∀ column ∈ [Column.OrderRef, .Shares, .NewOrderRef, .MatchNumber],
      fieldOf type column = .blank ∨ (fieldOf type column).width ≤ 8 ∧ fieldOf type column =
        .number (fieldOf type column).offset (fieldOf type column).width := by
    decide +kernel
  rcases hall type h column hcolumn with hblank | ⟨hwidth, hnumber⟩
  · exact Or.inl hblank
  · exact Or.inr ⟨_, _, hwidth, hnumber⟩

theorem layout_price {type : UInt8} (h : type ∈ emitted) :
    fieldOf type .PriceCol = .blank ∨ ∃ offset, fieldOf type .PriceCol = .price offset := by
  have hall : ∀ type ∈ emitted, fieldOf type .PriceCol = .blank ∨
      fieldOf type .PriceCol = .price (fieldOf type .PriceCol).offset := by
    decide +kernel
  rcases hall type h with hblank | hprice
  · exact Or.inl hblank
  · exact Or.inr ⟨_, hprice⟩

end Cells

section Rows

variable (options : Options) (epochBase : UInt64)

/-- The row of a well-formed message reads back. -/
theorem lineOf_readsBack {visit : Visit} (h : typeOf visit.frame ∈ emitted)
    (hm : WellFormed visit.frame) (hd : DirectoryClean visit.before) :
    ReadsBack epochBase visit (lineOf epochBase visit) := by
  have hcolumns : splitRow (lineOf epochBase visit) = rowOf epochBase visit.frame visit.before :=
    splitRow_joined (fun text htext hcomma =>
      (rowOf_clean epochBase h hm hd text htext _ hcomma).1 rfl) (length_rowOf epochBase h)
  have hnanos := rd48_value visit.frame TimestampOffset
  have hnanos_lt := bigEndian_lt (visit.frame.field TimestampOffset 6)
  rw [length_field] at hnanos_lt
  have hleading : ∀ column : Column, column.index < 6 →
      cell (lineOf epochBase visit) column = (leading visit.frame epochBase
        (visit.before.rows + 1) (typeOf visit.frame)).getD column.index [] := by
    intro column hcolumn
    rw [cell, hcolumns, rowOf_eq epochBase h, List.getD_append _ _ _ _ hcolumn]
  refine ⟨hcolumns, ?_, ?_, ?_, ?_⟩
  · rw [hleading .TsNs (by decide), ← hnanos]
    exact parseU64_decimal (rd48 visit.frame TimestampOffset).value.toNat_lt
  · intro column hcolumn
    have hindex : Column.Symbol.index ≤ column.index := by
      have hall : ∀ column ∈ [Column.OrderRef, .Shares, .NewOrderRef, .MatchNumber],
          Column.Symbol.index ≤ column.index := by decide
      exact hall column hcolumn
    rw [cell_field visit.frame h hcolumns hindex]
    rcases layout_numbers h hcolumn with hfield | ⟨offset, width, hwidth, hfield⟩
    · rw [hfield]
      rfl
    · rw [hfield]
      exact parseU64_decimal (numberField_lt visit.frame hwidth)
  · rw [cell_field visit.frame h hcolumns (by decide)]
    rcases layout_price h with hfield | ⟨offset, hfield⟩
    · rw [hfield]
      rfl
    · rw [hfield]
      have hlt := bigEndian_lt (visit.frame.field offset 4)
      rw [length_field] at hlt
      exact parsePriceRaw_priceText (by omega)
  · rw [hleading .ClockEt (by decide), ← hnanos]
    exact clock_denotes (by omega)

end Rows

section Files

variable (options : Options) (epochBase : UInt64)

/-- The view of one message. -/
def view (payload : Text) : ByteView := .ofList payload fun _ => 0

theorem header_line : header = [ascii ','].intercalate columnNames ++ [ascii '\n'] := by
  decide +kernel

theorem columnNames_clean : ∀ name ∈ columnNames, Clean name := by decide +kernel

/-- The lines of a run over well-formed messages: the header and the rows, which read back. -/
theorem rounds_lines {input : ByteView} {result : Result}
    (h : Rounds options epochBase input 0 { buffer := header } result)
    (hvisits : ∀ visit ∈ result.visits, WellFormed visit.frame) :
    forEachLine result.csv =
        [ascii ','].intercalate columnNames :: linesOf options epochBase result.visits ∧
      List.Forall₂ (ReadsBack epochBase) (emittedVisits options result.visits)
        (linesOf options epochBase result.visits) := by
  have hdirectory : ∀ visit ∈ result.visits, DirectoryClean visit.before :=
    rounds_directory options epochBase h (fun _ _ hlookup => nomatch hlookup) hvisits
  have hemitted : ∀ visit ∈ emittedVisits options result.visits,
      typeOf visit.frame ∈ emitted ∧ WellFormed visit.frame ∧ DirectoryClean visit.before := by
    intro visit hmem
    obtain ⟨hvisit, hemits⟩ := List.mem_filter.mp hmem
    exact ⟨mem_emitted ((emits_iff options visit.frame visit.before).mp hemits).2.2.2,
      hvisits visit hvisit, hdirectory visit hvisit⟩
  constructor
  · have hcsv : result.csv = ended ([ascii ','].intercalate columnNames ::
        linesOf options epochBase result.visits) := by
      rw [rounds_csv options epochBase h, ended_cons, ← header_line, textOf_new]
    rw [hcsv, ended, forEachLine_lines]
    rw [List.forall_mem_cons, linesOf, List.forall_mem_map]
    refine ⟨joined_line columnNames_clean (by decide), fun visit hmem => ?_⟩
    obtain ⟨htype, hm, hd⟩ := hemitted visit hmem
    refine joined_line (rowOf_clean epochBase htype hm hd) ?_
    rw [length_rowOf epochBase htype]
    omega
  · rw [linesOf, List.forall₂_map_right_iff, List.forall₂_same]
    intro visit hmem
    obtain ⟨htype, hm, hd⟩ := hemitted visit hmem
    exact lineOf_readsBack epochBase htype hm hd

/-- The header and one row for each emitted message, and every row reads back. -/
theorem replay_reads_back (messages : List Text) (beyond : ℕ → UInt8)
    (hframable : ∀ payload ∈ messages, Framable payload)
    (hmessages : ∀ payload ∈ messages, WellFormed (view payload)) :
    ∃ result head rows,
      decode options epochBase (.ofList (messages.flatMap framed) beyond) = some result ∧
      payloads result <+: messages ∧ (options.limit = 0 → payloads result = messages) ∧
      (options.symbols = [] → options.system = true → emittedVisits options result.visits =
        result.visits.filter fun visit => typeOf visit.frame ∈ emitted) ∧
      forEachLine result.csv = head :: rows ∧ splitRow head = columnNames ∧
      List.Forall₂ (ReadsBack epochBase) (emittedVisits options result.visits) rows := by
  have hbytes := ofList_bytes (messages.flatMap framed) beyond
  obtain ⟨result, hdecode, hrounds⟩ :=
    decode_rounds options epochBase (.ofList (messages.flatMap framed) beyond)
  obtain ⟨hvisited, rest, hrest⟩ := rounds_prefix options epochBase _ hrounds
  have hbegins : payloads result <+: messages :=
    prefix_of_frames hvisited hframable (hbytes.symm.trans hrest)
  have hvisits : ∀ visit ∈ result.visits, WellFormed visit.frame := by
    intro visit hmem
    have hpayload : visit.frame.bytes ∈ messages :=
      hbegins.subset (List.mem_map_of_mem (f := (·.frame.bytes)) hmem)
    exact wellFormed_congr (ofList_bytes ..)
      (List.length_pos_iff.mpr (hframable _ hpayload).1) (hmessages _ hpayload)
  obtain ⟨hlines, hrows⟩ := rounds_lines options epochBase hrounds hvisits
  refine ⟨result, _, _, hdecode, hbegins, ?_, ?_, hlines, ?_, hrows⟩
  · intro hlimit
    obtain ⟨left, hsplit, -⟩ := rounds_split options epochBase _ hlimit hrounds
    have hsplit' : Split (messages.flatMap framed) (payloads result) left := hbytes ▸ hsplit
    exact (split_unique hsplit' (split_frames hframable)).1
  · intro hsymbols hsystem
    exact List.filter_congr fun visit _ =>
      emits_unfiltered options visit.frame visit.before hsymbols hsystem
  · refine splitRow_joined (fun name hname hcomma => ?_) rfl
    exact (columnNames_clean name hname _ hcomma).1 rfl

/-- A start of messages and an order to buy 100 shares of "A" at 12.34. -/
def twoMessages : List Text :=
  [ofString "S" ++ List.replicate 10 0 ++ ofString "O",
    ofString "A" ++ [0, 7, 0, 0] ++ [0, 0, 0, 0, 0, 9] ++ [0, 0, 0, 0, 0, 0, 1, 0] ++
      ofString "B" ++ [0, 0, 0, 100] ++ ofString "A       " ++ [0, 1, 226, 8]]

theorem two_messages_read_back :
    ∃ result head rows,
      decode ⟨[], 0, true⟩ 0 (.ofList (twoMessages.flatMap framed) fun _ => 0) = some result ∧
      payloads result = twoMessages ∧ forEachLine result.csv = head :: rows ∧
      List.Forall₂ (ReadsBack 0) (emittedVisits ⟨[], 0, true⟩ result.visits) rows := by
  have hframable : ∀ payload ∈ twoMessages, payload ≠ [] ∧ payload.length < 2 ^ 16 := by
    decide +kernel
  have hdirectory : ∀ payload ∈ twoMessages, isOneOf (typeOf (view payload)) "R" = false := by
    decide +kernel
  have hsize : ∀ payload ∈ twoMessages,
      bytesRead (typeOf (view payload)) ≤ (view payload).size := by
    decide +kernel
  have hclean : ∀ payload ∈ twoMessages, ∀ shown ∈ layout (typeOf (view payload)),
      CleanIn (view payload) shown := by
    decide +kernel
  obtain ⟨result, head, rows, hdecode, -, hall, -, hlines, -, hrows⟩ :=
    replay_reads_back ⟨[], 0, true⟩ 0 twoMessages (fun _ => 0) hframable fun payload hmem =>
      { directory := fun h => absurd h (by rw [hdirectory payload hmem]; decide)
        size := fun _ => hsize payload hmem
        clean := fun _ => hclean payload hmem }
  exact ⟨result, head, rows, hdecode, hall rfl, hlines, hrows⟩

end Files

end Leka.CsvRoundTrips
