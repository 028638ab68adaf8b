import Leka.ItchDecoders

/-!
The layouts of the messages that become rows. The column blocks of the converter are chains of
tests on the message type; a layout says for one type which field of the payload each column
shows. Every row is written from the layout of its type, and reads the fields of the layout.
-/

namespace Leka.ItchLayouts

open Numerals ByteReads ItchDecoders

/-- What a column shows: nothing, the symbol on record for the locate code, or a field. -/
inductive Shown
  | blank
  | directory
  | text (offset width : ℕ)
  | letter (offset : ℕ)
  | number (offset width : ℕ)
  | price (offset : ℕ)
  deriving DecidableEq

namespace Shown

def offset : Shown → ℕ
  | blank | directory => 0
  | text offset _ | letter offset | number offset _ | price offset => offset

def width : Shown → ℕ
  | blank | directory => 0
  | text _ width | number _ width => width
  | letter _ => 1
  | price _ => 4

/-- The number of bytes that a payload needs for the field. -/
def stop (shown : Shown) : ℕ := if shown.width = 0 then 0 else shown.offset + shown.width

def reads (shown : Shown) : List ℕ := (List.range shown.width).map (shown.offset + ·)

end Shown

def priceText (raw : ℕ) : Text := decimal (raw / 10000) ++ ascii '.' :: padded 4 raw

/-- The text of a column, with the symbol on record. -/
def Shown.write (m : ByteView) (symbol : Text) : Shown → Text
  | blank => []
  | directory => symbol
  | text offset width => unpadded (m.field offset width)
  | letter offset => [m.data offset]
  | number offset width => decimal (bigEndian (m.field offset width))
  | price offset => priceText (bigEndian (m.field offset 4))

open Shown in
/-- The last nine columns of the rows of one type, from the symbol on. -/
def layout (type : UInt8) : List Shown :=
  match Char.ofNat type.toNat with
  | 'A' => [text 24 8, number 11 8, letter 19, number 20 4, price 32, blank, blank, blank, blank]
  | 'F' => [text 24 8, number 11 8, letter 19, number 20 4, price 32, blank, blank, blank, text 36 4]
  | 'E' => [directory, number 11 8, blank, number 19 4, blank, blank, number 23 8, blank, blank]
  | 'C' =>
    [directory, number 11 8, blank, number 19 4, price 32, blank, number 23 8, letter 31, blank]
  | 'X' => [directory, number 11 8, blank, number 19 4, blank, blank, blank, blank, blank]
  | 'D' => [directory, number 11 8, blank, blank, blank, blank, blank, blank, blank]
  | 'U' => [directory, number 11 8, blank, number 27 4, price 31, number 19 8, blank, blank, blank]
  | 'P' => [text 24 8, number 11 8, letter 19, number 20 4, price 32, blank, number 36 8, blank, blank]
  | 'Q' => [text 19 8, blank, blank, number 11 8, price 27, blank, number 31 8, blank, blank]
  | 'B' => [directory, blank, blank, blank, blank, blank, number 11 8, blank, blank]
  | 'S' => [blank, blank, blank, blank, blank, blank, blank, blank, letter 11]
  | 'H' => [text 11 8, blank, blank, blank, blank, blank, blank, blank, letter 19]
  | _ => []

/-- The types of the messages that become rows. -/
def emitted : List UInt8 := ofString "AFECXDUPQBSH"

theorem emitted_eq : emitted = [65, 70, 69, 67, 88, 68, 85, 80, 81, 66, 83, 72] := rfl

theorem mem_emitted {type : UInt8} (h : messageName type ≠ "OTHER") : type ∈ emitted := by
  have hall : ∀ n < 256, messageName (UInt8.ofNat n) ≠ "OTHER" → UInt8.ofNat n ∈ emitted := by
    decide +kernel
  have htype := hall type.toNat type.toNat_lt
  rw [UInt8.ofNat_toNat] at htype
  exact htype h

theorem emitted_named {type : UInt8} (h : type ∈ emitted) :
    messageName type ≠ "OTHER" ∧ isOneOf type "R" = false := by
  have hall : ∀ type ∈ emitted, messageName type ≠ "OTHER" ∧ isOneOf type "R" = false := by
    decide +kernel
  exact hall type h

section Blocks

variable (m : ByteView) (symbol : Text)

/-- A column with the indices read for it. -/
def Shown.read (shown : Shown) : Reading Text := ⟨shown.write m symbol, shown.reads⟩

theorem appendPrice_eq (raw : UInt32) : appendPrice raw = priceText raw.toNat := by
  have h₀ : raw.toNat / 10 / 10 / 10 % 10 = raw.toNat % 10000 / 1000 % 10 := by omega
  have h₁ : raw.toNat / 10 / 10 % 10 = raw.toNat % 10000 / 100 % 10 := by omega
  have h₂ : raw.toNat / 10 % 10 = raw.toNat % 10000 / 10 % 10 := by omega
  have h₃ : raw.toNat % 10 = raw.toNat % 10000 % 10 := by omega
  rw [appendPrice, priceText]
  simp only [padded, List.nil_append, List.cons_append, h₀, h₁, h₂, h₃]

theorem read_text (offset width : ℕ) :
    (do let text ← textAt m offset width; return unpadded text : Reading Text) =
      (Shown.text offset width).read m symbol := by
  rw [Shown.read, Shown.reads, Reading.mk.injEq]
  exact ⟨rfl, List.append_nil _⟩

theorem read_letter (offset : ℕ) : (do let c ← byteAt m offset; return [c] : Reading Text) =
    (Shown.letter offset).read m symbol := rfl

theorem read_number64 (offset : ℕ) :
    (do let v ← rd64 m offset; return appendUInt v : Reading Text) =
      (Shown.number offset 8).read m symbol := by
  rw [Shown.read, Shown.reads, Reading.mk.injEq]
  constructor
  · rw [bind_value, pure_value, appendUInt, rd64_value, Shown.write]
  · rw [bind_reads, pure_reads, List.append_nil, rd64, shiftIn_reads]
    rfl

theorem read_number32 (offset : ℕ) :
    (do let v ← rd32 m offset; return appendUInt v.toUInt64 : Reading Text) =
      (Shown.number offset 4).read m symbol := by
  rw [Shown.read, Reading.mk.injEq]
  refine ⟨?_, rfl⟩
  rw [bind_value, pure_value, appendUInt, UInt32.toNat_toUInt64, rd32_value, Shown.write]

theorem read_price (offset : ℕ) :
    (do let v ← rd32 m offset; return appendPrice v : Reading Text) =
      (Shown.price offset).read m symbol := by
  rw [Shown.read, Reading.mk.injEq]
  refine ⟨?_, rfl⟩
  rw [bind_value, pure_value, appendPrice_eq, rd32_value, Shown.write]

end Blocks

section Columns

variable (m : ByteView) (epochBase : UInt64) (locateToSymbol : UInt16 → Option Text)
  (locate : UInt16) (seq : UInt64)

/-- The column blocks of a type, one after the other. -/
def blocks (type : UInt8) : List (Reading Text) :=
  [symbolColumn m type locateToSymbol locate, orderRefColumn m type, sideColumn m type,
    sharesColumn m type, priceColumn m type, newOrderRefColumn m type, matchNumberColumn m type,
    printableColumn m type, attributionColumn m type]

/-- The six columns that a row of any type begins with. -/
def leading (type : UInt8) : List Text :=
  let nanos := (rd48 m TimestampOffset).value
  [appendUInt seq, appendUInt nanos, if epochBase ≠ 0 then appendUInt (epochBase + nanos) else [],
    appendClock nanos, [type], ofString (messageName type)]

/-- Every row is written from the layout of its type. -/
theorem blocks_eq {type : UInt8} (h : type ∈ emitted) : blocks m locateToSymbol locate type =
    (layout type).map (Shown.read m ((locateToSymbol locate).getD [])) := by
  simp only [blocks, symbolColumn, orderRefColumn, sideColumn, sharesColumn, priceColumn,
    newOrderRefColumn, matchNumberColumn, printableColumn, attributionColumn, symbolAt,
    StockSymbolWidth, read_text m ((locateToSymbol locate).getD []),
    read_letter m ((locateToSymbol locate).getD []),
    read_number64 m ((locateToSymbol locate).getD []),
    read_number32 m ((locateToSymbol locate).getD []),
    read_price m ((locateToSymbol locate).getD [])]
  rw [emitted_eq] at h
  simp only [List.mem_cons, List.not_mem_nil, or_false] at h
  -- with the type fixed, every test of the column blocks evaluates
  rcases h with rfl | rfl | rfl | rfl | rfl | rfl | rfl | rfl | rfl | rfl | rfl | rfl
  all_goals rfl

theorem columns_value {type : UInt8} (h : type ∈ emitted) :
    (columns m type epochBase locateToSymbol locate seq).value =
      leading m epochBase seq type ++
        (layout type).map (Shown.write m ((locateToSymbol locate).getD [])) := by
  have hblocks : (columns m type epochBase locateToSymbol locate seq).value =
      leading m epochBase seq type ++
        (blocks m locateToSymbol locate type).map Reading.value := rfl
  rw [hblocks, blocks_eq m locateToSymbol locate h, List.map_map]
  rfl

theorem columns_reads {type : UInt8} (h : type ∈ emitted) :
    (columns m type epochBase locateToSymbol locate seq).reads =
      (List.range 6).map (TimestampOffset + ·) ++ (layout type).flatMap Shown.reads := by
  have hblocks : (columns m type epochBase locateToSymbol locate seq).reads =
      (List.range 6).map (TimestampOffset + ·) ++
        (blocks m locateToSymbol locate type).flatMap Reading.reads := by
    simp only [columns, blocks, bind_reads, pure_reads, List.flatMap_cons, List.flatMap_nil,
      rd48, shiftIn_reads]
  rw [hblocks, blocks_eq m locateToSymbol locate h, List.flatMap_map]
  rfl

end Columns

end Leka.ItchLayouts
