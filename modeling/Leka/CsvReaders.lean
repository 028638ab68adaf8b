import Leka.Numerals

/-!
The reading side of the CSV files: lines, their fields, and the numbers and prices in them. The
reader checks nothing, so what it does is told by what it makes of texts that are well formed:
joined fields without commas, ended lines, and digits.
-/

namespace Leka.CsvReaders

open Numerals

def ColumnCount : ℕ := 15

inductive Column
  | Seq
  | TsNs
  | EpochNs
  | ClockEt
  | Msg
  | Name
  | Symbol
  | OrderRef
  | Side
  | Shares
  | PriceCol
  | NewOrderRef
  | MatchNumber
  | Printable
  | Attribution
  deriving DecidableEq

/-- The index of a column. -/
def Column.index (column : Column) : ℕ := column.ctorIdx

/-- The loop of `splitRow`, with `count` fields to go and `field` read since the last comma. -/
def splitFields : ℕ → Text → Text → List Text
  | 0, _, _ => []
  | _ + 1, field, [] => [field]
  | count + 1, field, c :: line =>
    if c = ascii ',' then field :: splitFields count [] line
    else splitFields (count + 1) (field ++ [c]) line

def splitRow (line : Text) : List Text :=
  let fields := splitFields ColumnCount [] line
  fields ++ List.replicate (ColumnCount - fields.length) []

/-- A `char` is signed, and the difference to '0' is converted to 64 bits. -/
def parseU64 (s : Text) : UInt64 :=
  s.foldl (fun v c => v * 10 + (c.toInt8.toInt64 - 48).toUInt64) 0

def parsePriceRaw (s : Text) : Option UInt64 :=
  if s = [] then none
  else
    match s.findIdx? (· == ascii '.') with
    | none => none
    | some dot => some (parseU64 (s.take dot) * 10000 + parseU64 (s.drop (dot + 1)))

/-- The lines that `forEachLine` calls its function on. -/
def forEachLine (text : Text) : List Text :=
  if _h : text = [] then []
  else
    -- the index of the next line end, or the size of the text
    let stop := text.findIdx (· == ascii '\n')
    (if stop > 0 then [text.take stop] else []) ++ forEachLine (text.drop (stop + 1))
termination_by text.length
decreasing_by
  rw [List.length_drop]
  have hpos := List.length_pos_iff.mpr _h
  omega

section Fields

theorem splitFields_field {f : Text} (h : ascii ',' ∉ f) (count : ℕ) (field line : Text) :
    splitFields (count + 1) field (f ++ line) = splitFields (count + 1) (field ++ f) line := by
  induction f generalizing field with
  | nil => rw [List.nil_append, List.append_nil]
  | cons c f ih =>
    rw [List.mem_cons, not_or] at h
    rw [List.cons_append, splitFields, if_neg (Ne.symm h.1), ih h.2, List.append_assoc]
    rfl

theorem splitFields_joined {fields : List Text} (h : ∀ f ∈ fields, ascii ',' ∉ f)
    (hne : fields ≠ []) {count : ℕ} (hcount : fields.length ≤ count) :
    splitFields count [] ([ascii ','].intercalate fields) = fields := by
  induction fields generalizing count with
  | nil => exact absurd rfl hne
  | cons f fields ih =>
    obtain ⟨hf, hfields⟩ := List.forall_mem_cons.mp h
    obtain ⟨count, rfl⟩ := Nat.exists_eq_add_one_of_ne_zero (show count ≠ 0 by
      rw [List.length_cons] at hcount
      omega)
    rw [List.length_cons, Nat.add_le_add_iff_right] at hcount
    rcases eq_or_ne fields [] with rfl | hmore
    · have hlast := splitFields_field hf count [] []
      rw [List.append_nil] at hlast
      rw [List.intercalate_singleton, hlast]
      rfl
    · rw [List.intercalate_cons_of_ne_nil hmore, List.append_assoc, splitFields_field hf,
        List.singleton_append, splitFields, if_pos rfl, ih hfields hmore hcount]
      rfl

/-- Splitting is the inverse of joining, for fifteen fields without commas. -/
theorem splitRow_joined {fields : List Text} (h : ∀ f ∈ fields, ascii ',' ∉ f)
    (hlength : fields.length = ColumnCount) :
    splitRow ([ascii ','].intercalate fields) = fields := by
  have hne : fields ≠ [] := by
    rintro rfl
    cases hlength
  rw [splitRow, splitFields_joined h hne (by omega), hlength, Nat.sub_self]
  exact List.append_nil fields

end Fields

section Lines

/-- The first occurrence of a byte is behind a text without it. -/
theorem findIdx_behind {c : UInt8} {line : Text} (h : c ∉ line) (text : Text) :
    (line ++ c :: text).findIdx (· == c) = line.length := by
  have hline : line.findIdx (· == c) = line.length :=
    List.findIdx_eq_length.mpr fun x hx => beq_eq_false_iff_ne.mpr (ne_of_mem_of_not_mem hx h)
  rw [List.findIdx_append, if_neg (by omega), List.findIdx_cons, beq_self_eq_true]
  exact Nat.zero_add _

theorem forEachLine_ended {line : Text} (hne : line ≠ []) (h : ascii '\n' ∉ line) (text : Text) :
    forEachLine (line ++ ascii '\n' :: text) = line :: forEachLine text := by
  have hpos := List.length_pos_iff.mpr hne
  rw [forEachLine, dif_neg (List.append_ne_nil_of_left_ne_nil hne _), findIdx_behind h]
  dsimp only
  rw [if_pos hpos, List.take_left, List.drop_append, Nat.add_sub_cancel_left,
    List.drop_eq_nil_of_le (Nat.le_succ _)]
  rfl

/-- Lines are read as they were ended. -/
theorem forEachLine_lines {lines : List Text} (h : ∀ line ∈ lines, line ≠ [] ∧ ascii '\n' ∉ line) :
    forEachLine (lines.flatMap (· ++ [ascii '\n'])) = lines := by
  induction lines with
  | nil => rw [List.flatMap_nil, forEachLine, dif_pos rfl]
  | cons line lines ih =>
    obtain ⟨hline, hlines⟩ := List.forall_mem_cons.mp h
    rw [List.flatMap_cons, List.append_assoc, List.singleton_append,
      forEachLine_ended hline.1 hline.2, ih hlines]

end Lines

section Numbers

theorem parseU64_append_digit (s : Text) {d : ℕ} (h : d < 10) :
    parseU64 (s ++ [digit d]) = parseU64 s * 10 + UInt64.ofNat d := by
  have hdigit : ∀ d < 10, ((digit d).toInt8.toInt64 - 48).toUInt64 = UInt64.ofNat d := by decide
  rw [parseU64, List.foldl_append, List.foldl_cons, List.foldl_nil, hdigit d h]
  rfl

/-- A text of digits is read modulo 2^64. -/
theorem parseU64_toNat {s : Text} (h : AllDigits s) : (parseU64 s).toNat = valueOf s % 2 ^ 64 := by
  induction s using List.reverseRecOn with
  | nil => rfl
  | append_singleton s c ih =>
    have hc := h c (by simp)
    have hdigit : c = digit (c.toNat - 48) := by
      rw [digit, show 48 + (c.toNat - 48) = c.toNat by omega, UInt8.ofNat_toNat]
    have hs : AllDigits s := fun c hc => h c (List.mem_append_left _ hc)
    have hsmall : (UInt64.ofNat (c.toNat - 48)).toNat = c.toNat - 48 :=
      UInt64.toNat_ofNat_of_lt' (by rw [UInt64.size]; omega)
    have hten : (10 : UInt64).toNat = 10 := rfl
    rw [hdigit, parseU64_append_digit s (by omega), ← hdigit, valueOf_append_digit,
      UInt64.toNat_add, UInt64.toNat_mul, ih hs, hsmall, hten]
    omega

theorem parseU64_decimal {n : ℕ} (h : n < 2 ^ 64) : (parseU64 (decimal n)).toNat = n := by
  rw [parseU64_toNat (allDigits_decimal n), valueOf_decimal, Nat.mod_eq_of_lt h]

theorem parseU64_padded {width n : ℕ} (h : 10 ^ width ≤ 2 ^ 64) :
    (parseU64 (padded width n)).toNat = n % 10 ^ width := by
  have hlt := Nat.mod_lt n (Nat.pow_pos (show 0 < 10 by omega) (n := width))
  rw [parseU64_toNat (allDigits_padded width n), valueOf_padded, Nat.mod_eq_of_lt (by omega)]

theorem parsePriceRaw_digits {units fraction : Text} (hunits : AllDigits units) :
    parsePriceRaw (units ++ ascii '.' :: fraction) =
      some (parseU64 units * 10000 + parseU64 fraction) := by
  have hdot : ascii '.' ∉ units := fun hmem => absurd (hunits _ hmem).1 (by decide)
  have hindex : (units ++ ascii '.' :: fraction).findIdx? (· == ascii '.') = some units.length := by
    rw [List.findIdx?_eq_some_iff_findIdx_eq, findIdx_behind hdot, List.length_append,
      List.length_cons]
    exact ⟨by omega, rfl⟩
  rw [parsePriceRaw, if_neg (by simp), hindex]
  dsimp only
  rw [List.take_left, List.drop_append, Nat.add_sub_cancel_left,
    List.drop_eq_nil_of_le (Nat.le_succ _)]
  rfl

end Numbers

end Leka.CsvReaders
