import Leka.ItchRounds

/-!
What a row keeps of its message. Every column determines the bytes of the field it shows, for
fields have fixed widths. Two messages of one type with the same row agree from offset 11 on
exactly when they agree in the bytes that no column shows: the cross type of a cross trade, and
the reserved byte and the reason of a trading action.
-/

namespace Leka.LostFields

open Numerals ByteReads ItchDecoders ItchLayouts ItchRounds

/-- The payload lengths of ITCH 5.0. -/
def specLength (type : UInt8) : ℕ :=
  match Char.ofNat type.toNat with
  | 'A' => 36
  | 'F' => 40
  | 'E' => 31
  | 'C' => 36
  | 'X' => 23
  | 'D' => 19
  | 'U' => 35
  | 'P' => 44
  | 'Q' => 40
  | 'B' => 19
  | 'S' => 12
  | 'H' => 25
  | _ => 0

/-- The offsets of the bytes from 11 on that no column shows. -/
def unwritten (type : UInt8) : List ℕ :=
  match Char.ofNat type.toNat with
  | 'Q' => [39]
  | 'H' => [20, 21, 22, 23, 24]
  | _ => []

section Columns

variable {m m' : ByteView} {symbol symbol' : Text}

/-- Texts of one width with the same unpadded text are the same. -/
theorem unpadded_inj {text text' : Text} (hlength : text.length = text'.length)
    (h : unpadded text = unpadded text') : text = text' := by
  have hpadding : ∀ text : Text, text = unpadded text ++
      List.replicate (text.length - (unpadded text).length) (ascii ' ') := by
    intro text
    have hsplit : unpadded text ++ text.rtakeWhile (· == ascii ' ') = text :=
      List.rdropWhile_append_rtakeWhile
    have hspaces : text.rtakeWhile (· == ascii ' ') =
        List.replicate (text.rtakeWhile (· == ascii ' ')).length (ascii ' ') :=
      List.eq_replicate_of_mem fun c hc =>
        eq_of_beq (List.mem_rtakeWhile_imp (p := (· == ascii ' ')) hc)
    have hcount := congrArg List.length hsplit
    rw [List.length_append] at hcount
    rw [show text.length - (unpadded text).length =
      (text.rtakeWhile (· == ascii ' ')).length by omega, ← hspaces, hsplit]
  rw [hpadding text, hpadding text', h, hlength]

theorem priceText_inj {raw raw' : ℕ} (h : priceText raw = priceText raw') : raw = raw' := by
  rw [priceText, priceText] at h
  have hwidth : (ascii '.' :: padded 4 raw).length = (ascii '.' :: padded 4 raw').length := by
    rw [List.length_cons, List.length_cons, length_padded, length_padded]
  obtain ⟨hunits, hfraction⟩ := List.append_inj' h hwidth
  have hhigh := decimal_injective hunits
  have hlow := congrArg valueOf (List.tail_eq_of_cons_eq hfraction)
  rw [valueOf_padded, valueOf_padded] at hlow
  omega

/-- A column determines the field that it shows. -/
theorem write_inj {shown : Shown} (h : shown.write m symbol = shown.write m' symbol') :
    m.field shown.offset shown.width = m'.field shown.offset shown.width := by
  have hlength : ∀ offset width : ℕ,
      (m.field offset width).length = (m'.field offset width).length := by
    intro offset width
    rw [length_field, length_field]
  cases shown with
  | blank => rfl
  | directory => rfl
  | text offset width => exact unpadded_inj (hlength offset width) h
  | letter offset => exact h
  | number offset width => exact bigEndian_inj (hlength offset width) (decimal_injective h)
  | price offset => exact bigEndian_inj (hlength offset 4) (priceText_inj h)

end Columns

section Coverage

/-- From offset 11 on, every byte of a message is in a field of its layout or is unwritten. -/
theorem covered {type : UInt8} (h : type ∈ emitted) {i : ℕ} (hi : 11 ≤ i)
    (hlt : i < specLength type) :
    i ∈ unwritten type ∨ i ∈ (layout type).flatMap Shown.reads := by
  have hall : ∀ type ∈ emitted, ∀ i < specLength type, 11 ≤ i →
      i ∈ unwritten type ∨ i ∈ (layout type).flatMap Shown.reads := by
    decide +kernel
  exact hall type h i hlt hi

theorem unwritten_inside {type : UInt8} (h : type ∈ emitted) {i : ℕ} (hi : i ∈ unwritten type) :
    11 ≤ i ∧ i < specLength type := by
  have hall : ∀ type ∈ emitted, ∀ i ∈ unwritten type, 11 ≤ i ∧ i < specLength type := by
    decide +kernel
  exact hall type h i hi

end Coverage

section Rows

variable (epochBase : UInt64) {m m' : ByteView} {d d' : Decoder}

/-- The rows agree in every column but the sequence number. -/
def RowsAgree (m : ByteView) (d : Decoder) (m' : ByteView) (d' : Decoder) : Prop :=
  (rowOf epochBase m d).tail = (rowOf epochBase m' d').tail

theorem fields_agree (htype : typeOf m' = typeOf m) (hemitted : typeOf m ∈ emitted)
    (hrows : RowsAgree epochBase m d m' d') :
    ∀ i ∈ (layout (typeOf m)).flatMap Shown.reads, m.data i = m'.data i := by
  rw [RowsAgree, rowOf, rowOf, htype, columns_value _ _ _ _ _ hemitted,
    columns_value _ _ _ _ _ hemitted] at hrows
  have hfields : ∀ shown ∈ layout (typeOf m), shown.write m _ = shown.write m' _ :=
    List.map_inj_left.mp (congrArg (List.drop 5) hrows)
  intro i hi
  obtain ⟨shown, hshown, hread⟩ := List.mem_flatMap.mp hi
  exact field_eq_iff.mp (write_inj (hfields shown hshown)) i hread

/-- Two messages of one type, of the lengths of the format, with rows that agree: what follows
the header is the same exactly when the unwritten bytes are. -/
theorem payloads_agree_iff (htype : typeOf m' = typeOf m) (hemitted : typeOf m ∈ emitted)
    (hsize : m.size = specLength (typeOf m)) (hsize' : m'.size = specLength (typeOf m))
    (hrows : RowsAgree epochBase m d m' d') :
    (m.size = m'.size ∧ ∀ i, 11 ≤ i → i < m.size → m.data i = m'.data i) ↔
      ∀ i ∈ unwritten (typeOf m), m.data i = m'.data i := by
  constructor
  · rintro ⟨-, hagree⟩ i hi
    obtain ⟨hle, hlt⟩ := unwritten_inside hemitted hi
    exact hagree i hle (by omega)
  · intro hunwritten
    refine ⟨hsize.trans hsize'.symm, fun i hle hlt => ?_⟩
    rcases covered hemitted hle (by omega) with hi | hi
    · exact hunwritten i hi
    · exact fields_agree epochBase htype hemitted hrows i hi

end Rows

section Instances

/-- A trading action: a halt of the symbol "A". -/
def halt (reason : String) : ByteView :=
  .ofList (ofString "H" ++ [0, 1, 0, 0, 0, 0, 0, 0, 0, 0] ++ ofString "A       H " ++
    ofString reason) fun _ => 0

theorem halt_rows_agree :
    RowsAgree 0 (halt "T1  ") { buffer := [] } (halt "LUDP") { buffer := [] } := by
  rw [RowsAgree]
  decide +kernel

theorem payloads_agree_halt : ((halt "T1  ").size = (halt "LUDP").size ∧ ∀ i, 11 ≤ i →
    i < (halt "T1  ").size → (halt "T1  ").data i = (halt "LUDP").data i) ↔
      ∀ i ∈ unwritten (typeOf (halt "T1  ")), (halt "T1  ").data i = (halt "LUDP").data i :=
  payloads_agree_iff 0 (by decide +kernel) (by decide +kernel) (by decide +kernel)
    (by decide +kernel) halt_rows_agree

/-- Two halts for different reasons have the same row. -/
theorem reason_lost : typeOf (halt "LUDP") = typeOf (halt "T1  ") ∧
    (halt "T1  ").size = specLength (typeOf (halt "T1  ")) ∧
    (halt "LUDP").size = specLength (typeOf (halt "T1  ")) ∧
    RowsAgree 0 (halt "T1  ") { buffer := [] } (halt "LUDP") { buffer := [] } ∧
    unpadded ((halt "T1  ").field 21 4) ≠ unpadded ((halt "LUDP").field 21 4) :=
  ⟨by decide +kernel, by decide +kernel, by decide +kernel, halt_rows_agree, by decide +kernel⟩

end Instances

end Leka.LostFields
