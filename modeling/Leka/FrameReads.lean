import Leka.ItchRounds

/-!
Reads beyond the frame. The loop checks that a declared frame fits in the file, and nothing
else: the type decides how far into the payload a visit reads. The reads of a visit stay inside
its frame exactly when the frame is long enough for what its message is used for.
-/

namespace Leka.FrameReads

open Numerals ByteReads ItchDecoders ItchLayouts ItchRounds

/-- Every byte that the visit reads is inside its frame and inside the input. -/
def ReadsInside (input : ByteView) (visit : Visit) : Prop :=
  ∀ i ∈ visit.reads, i < visit.frame.size ∧ visit.start + i < input.size

/-- The bytes that a payload needs for the row of its type. -/
def bytesRead (type : UInt8) : ℕ :=
  (layout type).foldr (fun shown bytes => max shown.stop bytes) (TimestampOffset + 6)

example : emitted = ofString "AFECXDUPQBSH" ∧
    emitted.map bytesRead = [36, 40, 31, 36, 23, 19, 35, 44, 39, 19, 12, 20] := by decide

/-- The frame has the locate code, the symbol if it is a directory message, and the fields of
its row if it gets one. -/
def LongEnough (options : Options) (d : Decoder) (m : ByteView) : Prop :=
  3 ≤ m.size ∧ (isOneOf (typeOf m) "R" = true → 19 ≤ m.size) ∧
    (emits options m d = true → bytesRead (typeOf m) ≤ m.size)

section Ranges

variable (size : ℕ)

theorem range_inside {offset width : ℕ} :
    (∀ i ∈ (List.range width).map (offset + ·), i < size) ↔ width = 0 ∨ offset + width ≤ size := by
  constructor
  · intro h
    rcases Nat.eq_zero_or_pos width with hzero | hpos
    · exact Or.inl hzero
    · have hlast := h (offset + (width - 1))
        (List.mem_map_of_mem (List.mem_range.mpr (by omega)))
      omega
  · intro h i hi
    obtain ⟨k, hk, rfl⟩ := List.mem_map.mp hi
    rw [List.mem_range] at hk
    omega

theorem shown_inside (shown : Shown) : (∀ i ∈ shown.reads, i < size) ↔ shown.stop ≤ size := by
  rw [Shown.reads, range_inside, Shown.stop]
  split
  · omega
  · omega

theorem fields_inside (fields : List Shown) (least : ℕ) :
    fields.foldr (fun shown bytes => max shown.stop bytes) least ≤ size ↔
      least ≤ size ∧ ∀ i ∈ fields.flatMap Shown.reads, i < size := by
  induction fields with
  | nil => simp
  | cons shown fields ih =>
    rw [List.foldr_cons, max_le_iff, ih, ← shown_inside, List.flatMap_cons, List.forall_mem_append]
    tauto

/-- The reads for a row are inside a frame of the bytes that its type needs. -/
theorem row_inside (type : UInt8) : (∀ i ∈ (List.range 6).map (TimestampOffset + ·) ++
    (layout type).flatMap Shown.reads, i < size) ↔ bytesRead type ≤ size := by
  rw [List.forall_mem_append, range_inside, bytesRead, fields_inside]
  simp only [OfNat.ofNat_ne_zero, false_or]

end Ranges

section Frames

variable (options : Options) (epochBase : UInt64)

theorem first_reads (size : ℕ) : (∀ i ∈ [0, 1, 2], i < size) ↔ 3 ≤ size := by
  simp only [List.forall_mem_cons, List.not_mem_nil, false_imp_iff, implies_true, and_true]
  omega

/-- One visit: its reads are inside the frame exactly when the frame is long enough. -/
theorem handle_inside (m : ByteView) (d : Decoder) :
    (∀ i ∈ (handle options epochBase m d).reads, i < m.size) ↔ LongEnough options d m := by
  rw [LongEnough]
  rcases handle_cases options epochBase m d with ⟨hdirectory, hemits, hhandle⟩ |
    ⟨hdirectory, hemits, hhandle⟩ | ⟨hdirectory, hemits, hhandle⟩
  · rw [hhandle, List.forall_mem_append, first_reads, range_inside]
    simp [hdirectory, hemits]
  · rw [hhandle, List.forall_mem_append, first_reads, row_inside]
    simp [hdirectory, hemits]
  · rw [hhandle, first_reads]
    simp [hdirectory, hemits]

/-- The visits of a run read their own frames, which lie in the input. -/
theorem rounds_visits {input : ByteView} {offset : ℕ} {d : Decoder} {result : Result}
    (h : Rounds options epochBase input offset d result) : ∀ visit ∈ result.visits,
    visit.reads = (handle options epochBase visit.frame visit.before).reads ∧
      visit.start + visit.frame.size ≤ input.size := by
  have hvisit : ∀ {offset length : ℕ} {d : Decoder}, nextFrame input offset = .ok length →
      (visitAt options epochBase input offset length d).reads =
          (handle options epochBase (visitAt options epochBase input offset length d).frame
            (visitAt options epochBase input offset length d).before).reads ∧
        (visitAt options epochBase input offset length d).start +
          (visitAt options epochBase input offset length d).frame.size ≤ input.size :=
    fun hnext => ⟨rfl, (nextFrame_ok input hnext).2.2⟩
  induction h with
  | exit => exact fun visit hmem => absurd hmem List.not_mem_nil
  | limit hnext _ =>
    intro visit hmem
    rw [List.mem_singleton.mp hmem]
    exact hvisit hnext
  | round hnext _ _ ih =>
    intro visit hmem
    rcases List.mem_cons.mp hmem with rfl | hmem
    · exact hvisit hnext
    · exact ih visit hmem

theorem visit_inside {input : ByteView} {offset : ℕ} {d : Decoder} {result : Result}
    (h : Rounds options epochBase input offset d result) {visit : Visit}
    (hmem : visit ∈ result.visits) :
    ReadsInside input visit ↔ LongEnough options visit.before visit.frame := by
  obtain ⟨hreads, hfits⟩ := rounds_visits options epochBase h visit hmem
  rw [ReadsInside, ← handle_inside options epochBase, ← hreads]
  constructor
  · exact fun hinside i hi => (hinside i hi).1
  · intro hinside i hi
    have hlt := hinside i hi
    exact ⟨hlt, by omega⟩

/-- The conversion reads inside the frames exactly when every frame it visits is long enough. -/
theorem decode_reads_inside_iff (input : ByteView) :
    ∃ result, decode options epochBase input = some result ∧
      ((∀ visit ∈ result.visits, ReadsInside input visit) ↔
        ∀ visit ∈ result.visits, LongEnough options visit.before visit.frame) := by
  obtain ⟨result, hdecode, hrounds⟩ := decode_rounds options epochBase input
  refine ⟨result, hdecode, ?_⟩
  exact forall₂_congr fun visit hmem => visit_inside options epochBase hrounds hmem

end Frames

/-- A frame of one byte at the end of the file, with the type of an added order: the price ends
35 bytes behind the end of the file. -/
theorem short_frame_reads_outside :
    ¬ ∃ result, decode ⟨[], 0, true⟩ 0 (.ofList [0, 1, ascii 'A'] fun _ => 0) = some result ∧
      ∀ visit ∈ result.visits,
        ReadsInside (.ofList [0, 1, ascii 'A'] fun _ => 0) visit := by
  rintro ⟨result, hdecode, hinside⟩
  have hreads : (decode ⟨[], 0, true⟩ 0 (.ofList [0, 1, ascii 'A'] fun _ => 0)).map
      (fun result => result.visits.all fun visit => visit.reads.all (· < visit.frame.size)) =
        some false := by
    decide +kernel
  rw [hdecode, Option.map_some, Option.some.injEq, List.all_eq_false] at hreads
  obtain ⟨visit, hmem, hread⟩ := hreads
  refine hread (List.all_eq_true.mpr fun i hi => ?_)
  exact decide_eq_true (hinside visit hmem i hi).1

end Leka.FrameReads
