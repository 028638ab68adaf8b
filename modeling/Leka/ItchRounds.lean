import Leka.ItchLayouts

/-!
The rounds of the converter. A round ends the loop, or visits the frame at the offset and goes
on behind it; the rounds of an input are as many as its frames. What a visit does is one of
three: it records a directory symbol, it appends a row, or it does nothing.
-/

namespace Leka.ItchRounds

open Numerals ByteReads ItchDecoders ItchLayouts

variable (options : Options) (epochBase : UInt64)

section Visits

variable (m : ByteView) (d : Decoder)

def typeOf : UInt8 := m.data 0

def locateOf : UInt16 := (rd16 m LocateOffset).value

/-- The message gets a row: it is no directory message, and nothing skips it. -/
def emits : Bool :=
  !isOneOf (typeOf m) "R" && !(isOneOf (typeOf m) "SH" && !options.system) &&
    keeps options d (typeOf m) (locateOf m) && decide (messageName (typeOf m) ≠ "OTHER")

def counted : Decoder := { d with messages := d.messages + 1 }

/-- The fifteen texts of the message's row. -/
def rowOf : List Text :=
  (columns m (typeOf m) epochBase d.locateToSymbol (locateOf m) (d.rows + 1)).value

/-- The state behind a row. -/
def withRow : Decoder :=
  flush { counted d with rows := d.rows + 1, buffer := d.buffer ++ rowText (rowOf epochBase m d) }

/-- What a visit does once the type and the locate code are read. -/
def acted : Reading (Bool × Decoder) :=
  if isOneOf (typeOf m) "R" then do
    let symbol ← symbolAt m 11
    return (false, learn options (locateOf m) symbol (counted d))
  else if isOneOf (typeOf m) "SH" && !options.system then
    return (false, counted d)
  else if !keeps options d (typeOf m) (locateOf m) then
    return (false, counted d)
  else if messageName (typeOf m) = "OTHER" then
    return (false, counted d)
  else do
    let fields ← columns m (typeOf m) epochBase d.locateToSymbol (locateOf m) (d.rows + 1)
    let d := flush { counted d with rows := d.rows + 1, buffer := d.buffer ++ rowText fields }
    return (options.limit ≠ 0 && d.rows ≥ options.limit, d)

theorem handle_eq : handle options epochBase m d =
    ⟨(acted options epochBase m d).value, [0, 1, 2] ++ (acted options epochBase m d).reads⟩ := rfl

theorem flush_rows (d : Decoder) : (flush d).rows = d.rows := by
  rw [flush]
  split
  · rfl
  · rfl

theorem handle_directory (h : isOneOf (typeOf m) "R" = true) : handle options epochBase m d =
    ⟨(false, learn options (locateOf m) (unpadded (m.field 11 8)) (counted d)),
      [0, 1, 2] ++ (List.range 8).map (11 + ·)⟩ := by
  rw [handle_eq, acted, if_pos h]
  rfl

theorem emits_iff : emits options m d = true ↔ isOneOf (typeOf m) "R" = false ∧
    (isOneOf (typeOf m) "SH" && !options.system) = false ∧
    keeps options d (typeOf m) (locateOf m) = true ∧ messageName (typeOf m) ≠ "OTHER" := by
  rw [emits, Bool.and_eq_true, Bool.and_eq_true, Bool.and_eq_true, Bool.not_eq_true',
    Bool.not_eq_true', decide_eq_true_eq, and_assoc, and_assoc]

/-- Without a filter every message of the twelve types gets a row. -/
theorem emits_unfiltered (hsymbols : options.symbols = []) (hsystem : options.system = true) :
    emits options m d = decide (typeOf m ∈ emitted) := by
  have hkeeps : keeps options d (typeOf m) (locateOf m) = true := by
    rw [keeps, filtering, hsymbols]
    rfl
  rw [Bool.eq_iff_iff, decide_eq_true_iff]
  constructor
  · exact fun h => mem_emitted ((emits_iff options m d).mp h).2.2.2
  · intro h
    obtain ⟨hname, hdirectory⟩ := emitted_named h
    exact (emits_iff options m d).mpr
      ⟨hdirectory, by rw [hsystem, Bool.not_true, Bool.and_false], hkeeps, hname⟩

theorem handle_row (h : emits options m d = true) : handle options epochBase m d =
    ⟨(options.limit ≠ 0 && d.rows + 1 ≥ options.limit, withRow epochBase m d),
      [0, 1, 2] ++ ((List.range 6).map (TimestampOffset + ·) ++
        (layout (typeOf m)).flatMap Shown.reads)⟩ := by
  obtain ⟨hdirectory, hsystem, hkeeps, hname⟩ := (emits_iff options m d).mp h
  have hcolumns := columns_reads m epochBase d.locateToSymbol (locateOf m) (d.rows + 1)
    (mem_emitted hname)
  rw [handle_eq, acted, if_neg (by rw [hdirectory]; decide), if_neg (by rw [hsystem]; decide),
    if_neg (by rw [hkeeps]; decide), if_neg hname, bind_value, bind_reads, pure_reads,
    List.append_nil, hcolumns, pure_value, flush_rows]
  rfl

theorem handle_skipped (hdirectory : isOneOf (typeOf m) "R" = false)
    (h : emits options m d = false) :
    handle options epochBase m d = ⟨(false, counted d), [0, 1, 2]⟩ := by
  rw [handle_eq, acted, if_neg (by rw [hdirectory]; decide)]
  split
  · rfl
  · split
    · rfl
    · split
      · rfl
      · rename_i hsystem hkeeps hname
        have hemits := (emits_iff options m d).mpr ⟨hdirectory, by simpa using hsystem,
          by simpa using hkeeps, hname⟩
        rw [h] at hemits
        cases hemits

/-- The three things that a visit does. -/
theorem handle_cases :
    (isOneOf (typeOf m) "R" = true ∧ emits options m d = false ∧ handle options epochBase m d =
      ⟨(false, learn options (locateOf m) (unpadded (m.field 11 8)) (counted d)),
        [0, 1, 2] ++ (List.range 8).map (11 + ·)⟩) ∨
    (isOneOf (typeOf m) "R" = false ∧ emits options m d = true ∧ handle options epochBase m d =
      ⟨(options.limit ≠ 0 && d.rows + 1 ≥ options.limit, withRow epochBase m d),
        [0, 1, 2] ++ ((List.range 6).map (TimestampOffset + ·) ++
          (layout (typeOf m)).flatMap Shown.reads)⟩) ∨
    (isOneOf (typeOf m) "R" = false ∧ emits options m d = false ∧
      handle options epochBase m d = ⟨(false, counted d), [0, 1, 2]⟩) := by
  rcases hemits : emits options m d with _ | _
  · rcases hdirectory : isOneOf (typeOf m) "R" with _ | _
    · exact Or.inr (Or.inr ⟨rfl, rfl, handle_skipped options epochBase m d hdirectory hemits⟩)
    · exact Or.inl ⟨rfl, rfl, handle_directory options epochBase m d hdirectory⟩
  · have hdirectory := ((emits_iff options m d).mp hemits).1
    exact Or.inr (Or.inl ⟨hdirectory, rfl, handle_row options epochBase m d hemits⟩)

end Visits

section Loop

variable (input : ByteView)

theorem nextFrame_ok {offset length : ℕ} (h : nextFrame input offset = .ok length) :
    length = (rd16 input offset).value.toNat ∧ 0 < length ∧
      offset + FrameLengthBytes + length ≤ input.size := by
  rw [nextFrame] at h
  dsimp only at h
  split at h
  · split at h
    · cases h
    · rename_i hlength
      cases h
      rw [not_or] at hlength
      exact ⟨rfl, Nat.pos_of_ne_zero hlength.1, by omega⟩
  · cases h

theorem nextFrame_error {offset : ℕ} {truncated : Bool}
    (h : nextFrame input offset = .error truncated) :
    (input.size < offset + FrameLengthBytes ∧ truncated = false) ∨
      (offset + FrameLengthBytes ≤ input.size ∧
        (truncated = true ∧ (rd16 input offset).value.toNat ≠ 0 ∧
            input.size < offset + FrameLengthBytes + (rd16 input offset).value.toNat ∨
          truncated = false ∧ (rd16 input offset).value.toNat = 0)) := by
  rw [nextFrame] at h
  dsimp only at h
  split at h
  · rename_i hfits
    refine Or.inr ⟨hfits, ?_⟩
    split at h
    · rename_i hlength
      injection h with h
      rcases Nat.eq_zero_or_pos (rd16 input offset).value.toNat with hzero | hpos
      · exact Or.inr ⟨by rw [← h, decide_eq_false_iff_not]; omega, hzero⟩
      · exact Or.inl ⟨by rw [← h, decide_eq_true_eq]; omega, by omega, by omega⟩
    · cases h
  · rename_i hfits
    injection h with h
    exact Or.inl ⟨by omega, h.symm⟩

/-- The visit of the frame at an offset. -/
def visitAt (offset length : ℕ) (d : Decoder) : Visit where
  before := d
  start := offset + FrameLengthBytes
  frame := input.subspan (offset + FrameLengthBytes) length
  reads := (handle options epochBase (input.subspan (offset + FrameLengthBytes) length) d).reads

/-- The rounds from an offset and a state on. -/
inductive Rounds : ℕ → Decoder → Result → Prop
  | exit {offset : ℕ} {d : Decoder} {truncated : Bool} :
      nextFrame input offset = .error truncated → Rounds offset d ⟨[], truncated, d⟩
  | limit {offset length : ℕ} {d after : Decoder} :
      nextFrame input offset = .ok length →
      (handle options epochBase (visitAt options epochBase input offset length d).frame d).value =
        (true, after) →
      Rounds offset d ⟨[visitAt options epochBase input offset length d], false, after⟩
  | round {offset length : ℕ} {d after : Decoder} {result : Result} :
      nextFrame input offset = .ok length →
      (handle options epochBase (visitAt options epochBase input offset length d).frame d).value =
        (false, after) →
      Rounds (offset + FrameLengthBytes + length) after result →
      Rounds offset d
        { result with visits := visitAt options epochBase input offset length d :: result.visits }

/-- The loop ends: each round takes three bytes or more. -/
theorem loop_rounds (fuel offset : ℕ) (d : Decoder) (h : input.size - offset < fuel) :
    ∃ result, loop options epochBase input fuel offset d = some result ∧
      Rounds options epochBase input offset d result := by
  induction fuel generalizing offset d with
  | zero => omega
  | succ fuel ih =>
    rw [loop]
    cases hnext : nextFrame input offset with
    | error truncated => exact ⟨_, rfl, .exit hnext⟩
    | ok length =>
      obtain ⟨-, hpos, hfits⟩ := nextFrame_ok input hnext
      cases hvalue : (handle options epochBase
          (visitAt options epochBase input offset length d).frame d).value with
      | mk ends after =>
        have hhandle : (handle options epochBase
            (input.subspan (offset + FrameLengthBytes) length) d).value = (ends, after) := hvalue
        simp only [hhandle]
        cases ends with
        | true => exact ⟨_, rfl, .limit hnext hvalue⟩
        | false =>
          obtain ⟨result, hloop, hrounds⟩ :=
            ih (offset + FrameLengthBytes + length) after (by rw [FrameLengthBytes] at *; omega)
          rw [hloop]
          exact ⟨_, rfl, .round hnext hvalue hrounds⟩

theorem decode_rounds : ∃ result, decode options epochBase input = some result ∧
    Rounds options epochBase input 0 { buffer := header } result :=
  loop_rounds options epochBase input _ 0 _ (by omega)

end Loop

end Leka.ItchRounds
