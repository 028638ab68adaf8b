import Leka.Frames
import Leka.ItchRounds

/-!
The frames that the converter visits, and the flag for an input that ends within a message. The
loop has two exits. The one for a frame that does not fit sets the flag; the one for a length
field that does not fit leaves it unset, so an input that ends behind the first byte of a length
field counts as complete.
-/

namespace Leka.FrameSplits

open Numerals ByteReads ItchDecoders ItchLayouts ItchRounds Frames

/-- The payloads of the visited frames, in order. -/
def payloads (result : Result) : List Text := result.visits.map (·.frame.bytes)

/-- The conversion ends, the frames it visits are all the complete ones, and it flags the inputs
with a rest that is no zero length field. -/
def SplitsAndFlags (options : Options) (epochBase : UInt64) (input : ByteView) : Prop :=
  ∃ result left, decode options epochBase input = some result ∧
    Split input.bytes (payloads result) left ∧
    (result.truncated = true ↔ left ≠ [] ∧ ¬ [0, 0] <+: left)

/-- Complete frames and one more byte. -/
def EndsInLength (bytes : Text) : Prop :=
  ∃ (payloads : List Text) (b : UInt8), (∀ payload ∈ payloads, Framable payload) ∧
    bytes = payloads.flatMap framed ++ [b]

section Heads

variable (input : ByteView) (offset : ℕ)

theorem length_value : (rd16 input offset).value.toNat =
    (input.data offset).toNat * 256 + (input.data (offset + 1)).toNat := by
  rw [rd16_value, field_succ, bigEndian_append, field_succ, bigEndian_append]
  simp [ByteView.field, bigEndian]

theorem field_head {size : ℕ} (h : offset + 2 ≤ size) :
    input.field offset (size - offset) = input.data offset :: input.data (offset + 1) ::
      input.field (offset + 2) (size - (offset + 2)) := by
  rw [show size - offset = size - (offset + 2) + 1 + 1 by omega, field_cons, field_cons]

theorem zero_length_iff (high low : UInt8) (rest : Text) :
    [0, 0] <+: high :: low :: rest ↔ high.toNat * 256 + low.toNat = 0 := by
  rw [List.cons_prefix_cons, List.cons_prefix_cons, ← UInt8.toNat_inj, ← UInt8.toNat_inj,
    UInt8.toNat_zero]
  constructor
  · rintro ⟨hhigh, hlow, -⟩
    omega
  · intro h
    exact ⟨by omega, by omega, List.nil_prefix⟩

end Heads

section Runs

variable (options : Options) (epochBase : UInt64) (input : ByteView)

/-- Without a row limit no visit ends the loop. -/
theorem handle_goes_on (hlimit : options.limit = 0) (m : ByteView) (d : Decoder) :
    (handle options epochBase m d).value.1 = false := by
  rcases handle_cases options epochBase m d with ⟨-, -, hhandle⟩ | ⟨-, -, hhandle⟩ |
    ⟨-, -, hhandle⟩
  · rw [hhandle]
  · rw [hhandle]
    simp [hlimit]
  · rw [hhandle]

/-- How the loop ends, in terms of the bytes that are left. -/
theorem exit_left {offset : ℕ} {truncated : Bool}
    (h : nextFrame input offset = .error truncated) :
    Split (input.field offset (input.size - offset)) [] (input.field offset (input.size - offset)) ∧
      (truncated = true ↔ 2 ≤ (input.field offset (input.size - offset)).length ∧
        ¬ [0, 0] <+: input.field offset (input.size - offset)) := by
  rcases nextFrame_error input h with ⟨hshort, rfl⟩ | ⟨hfits, hlength⟩
  · have hleft : (input.field offset (input.size - offset)).length < 2 := by
      rw [length_field]
      rw [FrameLengthBytes] at hshort
      omega
    refine ⟨split_nil fun payload rest _ => no_frame_of_short hleft payload rest, ?_⟩
    constructor
    · exact fun h => absurd h (by decide)
    · rintro ⟨h, -⟩
      omega
  · rw [FrameLengthBytes] at hfits hlength
    rw [length_value] at hlength
    rw [field_head input offset hfits, zero_length_iff]
    constructor
    · refine split_nil (no_frame_iff.mpr ?_)
      rw [length_field]
      omega
    · rw [List.length_cons, List.length_cons]
      rcases hlength with ⟨rfl, hlength, -⟩ | ⟨rfl, hlength⟩
      · exact ⟨fun _ => ⟨by omega, hlength⟩, fun _ => rfl⟩
      · exact ⟨fun h => absurd h (by decide), fun h => absurd hlength h.2⟩

/-- A visit takes one frame from the head of the bytes that are left. -/
theorem visited_framed {offset length : ℕ} (h : nextFrame input offset = .ok length)
    (d : Decoder) :
    Framable (visitAt options epochBase input offset length d).frame.bytes ∧
      input.field offset (input.size - offset) =
        framed (visitAt options epochBase input offset length d).frame.bytes ++
          input.field (offset + FrameLengthBytes + length)
            (input.size - (offset + FrameLengthBytes + length)) := by
  obtain ⟨hlength, hpos, hfits⟩ := nextFrame_ok input h
  have hlt := (rd16 input offset).value.toNat_lt
  rw [← hlength] at hlt
  rw [length_value] at hlength
  rw [FrameLengthBytes] at hfits
  have hframe : (visitAt options epochBase input offset length d).frame.bytes =
      input.field (offset + 2) length := subspan_bytes ..
  have hpayload : (input.field (offset + 2) length).length = length := length_field ..
  rw [hframe]
  refine ⟨framable_of_length (by omega) (by omega), ?_⟩
  rw [field_head input offset (by omega), framed_eq (hlength.symm.trans hpayload.symm),
    show input.size - (offset + 2) = length + (input.size - (offset + 2 + length)) by omega,
    field_add]
  rfl

theorem payloads_cons (visit : Visit) (result : Result) :
    payloads { result with visits := visit :: result.visits } =
      visit.frame.bytes :: payloads result := rfl

/-- The frames that a run visits are the first ones of what is left, without a gap. -/
theorem rounds_prefix {offset : ℕ} {d : Decoder} {result : Result}
    (h : Rounds options epochBase input offset d result) :
    (∀ payload ∈ payloads result, Framable payload) ∧
      ∃ rest, input.field offset (input.size - offset) =
        (payloads result).flatMap framed ++ rest := by
  induction h with
  | exit => exact ⟨fun _ hmem => absurd hmem List.not_mem_nil, _, rfl⟩
  | @limit offset length d after hnext _ =>
    obtain ⟨hframable, hfield⟩ := visited_framed options epochBase input hnext d
    refine ⟨List.forall_mem_singleton.mpr hframable,
      input.field (offset + FrameLengthBytes + length)
        (input.size - (offset + FrameLengthBytes + length)), ?_⟩
    rw [hfield, payloads, List.map_singleton, List.flatMap_singleton]
  | @round offset length d after result hnext _ _ ih =>
    obtain ⟨hframable, hfield⟩ := visited_framed options epochBase input hnext d
    obtain ⟨hframables, rest, hrest⟩ := ih
    refine ⟨List.forall_mem_cons.mpr ⟨hframable, hframables⟩, rest, ?_⟩
    rw [hfield, hrest, payloads_cons, List.flatMap_cons, List.append_assoc]

theorem rounds_split (hlimit : options.limit = 0) {offset : ℕ} {d : Decoder} {result : Result}
    (h : Rounds options epochBase input offset d result) :
    ∃ left, Split (input.field offset (input.size - offset)) (payloads result) left ∧
      (result.truncated = true ↔ 2 ≤ left.length ∧ ¬ [0, 0] <+: left) := by
  induction h with
  | exit hnext => exact ⟨_, exit_left input hnext⟩
  | @limit offset length d after _ hvalue =>
    have hgoes := handle_goes_on options epochBase hlimit
      (visitAt options epochBase input offset length d).frame d
    rw [hvalue] at hgoes
    cases hgoes
  | @round offset length d after result hnext _ _ ih =>
    obtain ⟨left, hsplit, hflag⟩ := ih
    obtain ⟨hframable, hfield⟩ := visited_framed options epochBase input hnext d
    refine ⟨left, ?_, hflag⟩
    rw [hfield]
    exact split_cons hframable hsplit

/-- The frames that are visited are those of the input; the flag asks for two bytes more. -/
theorem decode_split (hlimit : options.limit = 0) :
    ∃ result left, decode options epochBase input = some result ∧
      Split input.bytes (payloads result) left ∧
      (result.truncated = true ↔ 2 ≤ left.length ∧ ¬ [0, 0] <+: left) := by
  obtain ⟨result, hdecode, hrounds⟩ := decode_rounds options epochBase input
  obtain ⟨left, hsplit, hflag⟩ := rounds_split options epochBase input hlimit hrounds
  exact ⟨result, left, hdecode, hsplit, hflag⟩

theorem endsInLength_iff {bytes left : Text} {payloads : List Text}
    (h : Split bytes payloads left) : EndsInLength bytes ↔ left.length = 1 := by
  constructor
  · rintro ⟨payloads', b, hframable, hbytes⟩
    have hshort : [b].length < 2 := by rw [List.length_singleton]; omega
    have hsplit : Split bytes payloads' [b] :=
      ⟨hbytes, hframable, fun payload rest _ => no_frame_of_short hshort payload rest⟩
    rw [(split_unique h hsplit).2, List.length_singleton]
  · intro hlength
    obtain ⟨b, rfl⟩ := List.length_eq_one_iff.mp hlength
    exact ⟨payloads, b, h.framable, h.bytes_eq⟩

/-- The input is split and its rest flagged, unless it ends behind the first byte of a
length field. -/
theorem framing_iff (hlimit : options.limit = 0) :
    SplitsAndFlags options epochBase input ↔ ¬ EndsInLength input.bytes := by
  obtain ⟨result, left, hdecode, hsplit, hflag⟩ := decode_split options epochBase input hlimit
  rw [endsInLength_iff hsplit]
  constructor
  · rintro ⟨result', left', hdecode', hsplit', hflag'⟩ hlength
    rw [hdecode, Option.some.injEq] at hdecode'
    subst hdecode'
    obtain ⟨-, rfl⟩ := split_unique hsplit hsplit'
    obtain ⟨b, rfl⟩ := List.length_eq_one_iff.mp hlength
    have hflagged := hflag'.mpr ⟨by simp, fun h => absurd h.length_le (by simp)⟩
    have htruncated := (hflag.mp hflagged).1
    rw [hlength] at htruncated
    omega
  · intro hlength
    refine ⟨result, left, hdecode, hsplit, hflag.trans ?_⟩
    rw [← List.length_pos_iff]
    constructor
    · exact fun h => ⟨by omega, h.2⟩
    · exact fun h => ⟨by omega, h.2⟩

end Runs

theorem framing_iff_zero_length : SplitsAndFlags ⟨[], 0, true⟩ 0 (.ofList [0, 0] fun _ => 0) ↔
    ¬ EndsInLength (ByteView.ofList [0, 0] fun _ => 0).bytes :=
  framing_iff ⟨[], 0, true⟩ 0 (.ofList [0, 0] fun _ => 0) rfl

/-- A frame of three bytes and the first byte of the next length: the input ends within a length
field, and the flag is not set. -/
theorem half_length_not_flagged :
    ¬ SplitsAndFlags ⟨[], 0, true⟩ 0 (.ofList [0, 3, ascii 'L', 0, 1, 0] fun _ => 0) := by
  rintro ⟨result, left, hdecode, hsplit, hflag⟩
  have hresult : (decode ⟨[], 0, true⟩ 0 (.ofList [0, 3, ascii 'L', 0, 1, 0] fun _ => 0)).map
      (fun result => (payloads result, result.truncated)) = some ([[ascii 'L', 0, 1]], false) := by
    decide +kernel
  rw [hdecode, Option.map_some, Option.some.injEq, Prod.mk.injEq] at hresult
  have hbytes := hsplit.bytes_eq
  rw [hresult.1, show (ByteView.ofList [0, 3, ascii 'L', 0, 1, 0] fun _ => 0).bytes =
    [[ascii 'L', 0, 1]].flatMap framed ++ [0] by decide +kernel] at hbytes
  rw [← List.append_cancel_left hbytes, hresult.2] at hflag
  exact absurd (hflag.mpr (by decide)) (by decide)

end Leka.FrameSplits
