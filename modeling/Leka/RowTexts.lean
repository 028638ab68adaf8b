import Leka.FrameReads

/-!
The output file of a run, row by row. Well-formed messages have no separators in their texts and
letters, and then no column has one: numbers, prices and clocks are digits with fixed marks, and
the symbols on record come from well-formed directory messages.
-/

namespace Leka.RowTexts

open Numerals ByteReads ItchDecoders ItchLayouts ItchRounds FrameReads

/-- The text has neither a comma nor a line end. -/
def Clean (text : Text) : Prop := ∀ c ∈ text, c ≠ ascii ',' ∧ c ≠ ascii '\n'

instance (text : Text) : Decidable (Clean text) :=
  List.decidableBAll (fun c => c ≠ ascii ',' ∧ c ≠ ascii '\n') text

/-- A text or a letter of the payload is clean; numbers and prices may be any. -/
def CleanIn (m : ByteView) : Shown → Prop
  | .text offset width => Clean (m.field offset width)
  | .letter offset => Clean [m.data offset]
  | _ => True

instance (m : ByteView) : (shown : Shown) → Decidable (CleanIn m shown)
  | .text offset width => inferInstanceAs (Decidable (Clean (m.field offset width)))
  | .letter offset => inferInstanceAs (Decidable (Clean [m.data offset]))
  | .blank | .directory | .number _ _ | .price _ => .isTrue trivial

/-- A message with all the fields that are read, and with clean texts. -/
structure WellFormed (m : ByteView) : Prop where
  directory : isOneOf (typeOf m) "R" = true → 19 ≤ m.size ∧ Clean (m.field 11 8)
  size : typeOf m ∈ emitted → bytesRead (typeOf m) ≤ m.size
  clean : typeOf m ∈ emitted → ∀ shown ∈ layout (typeOf m), CleanIn m shown

/-- The symbols on record are clean. -/
def DirectoryClean (d : Decoder) : Prop :=
  ∀ locate symbol, d.locateToSymbol locate = some symbol → Clean symbol

section Texts

theorem clean_nil : Clean [] := fun _ hc => absurd hc List.not_mem_nil

theorem clean_append {xs ys : Text} (hx : Clean xs) (hy : Clean ys) : Clean (xs ++ ys) :=
  List.forall_mem_append.mpr ⟨hx, hy⟩

theorem clean_cons {c : UInt8} {text : Text} (hc : Clean [c]) (h : Clean text) :
    Clean (c :: text) := clean_append hc h

theorem clean_digits {text : Text} (h : AllDigits text) : Clean text := by
  intro c hc
  have hdigit := (h c hc).1
  constructor
  · rintro rfl
    exact absurd hdigit (by decide)
  · rintro rfl
    exact absurd hdigit (by decide)

theorem clean_unpadded {text : Text} (h : Clean text) : Clean (unpadded text) :=
  fun c hc => h c ((List.rdropWhile_prefix _ _).subset hc)

theorem mem_joined {c : UInt8} {fields : List Text}
    (h : c ∈ [ascii ','].intercalate fields) : c = ascii ',' ∨ ∃ f ∈ fields, c ∈ f := by
  induction fields with
  | nil => exact absurd h (by simp)
  | cons f fields ih =>
    rcases eq_or_ne fields [] with rfl | hmore
    · rw [List.intercalate_singleton] at h
      exact Or.inr ⟨f, List.mem_cons_self, h⟩
    · rw [List.intercalate_cons_of_ne_nil hmore, List.append_assoc, List.mem_append,
        List.mem_append, List.mem_singleton] at h
      rcases h with h | h | h
      · exact Or.inr ⟨f, List.mem_cons_self, h⟩
      · exact Or.inl h
      · rcases ih h with h | ⟨f', hf', h⟩
        · exact Or.inl h
        · exact Or.inr ⟨f', List.mem_cons_of_mem _ hf', h⟩

/-- Joined clean fields are on one line. -/
theorem joined_unended {fields : List Text} (h : ∀ f ∈ fields, Clean f) :
    ascii '\n' ∉ [ascii ','].intercalate fields := by
  intro hmem
  rcases mem_joined hmem with hcomma | ⟨f, hf, hend⟩
  · exact absurd hcomma (by decide)
  · exact (h f hf _ hend).2 rfl

/-- Joined clean fields are one line, and not an empty one. -/
theorem joined_line {fields : List Text} (h : ∀ f ∈ fields, Clean f) (hlength : 2 ≤ fields.length) :
    [ascii ','].intercalate fields ≠ [] ∧ ascii '\n' ∉ [ascii ','].intercalate fields := by
  refine ⟨?_, joined_unended h⟩
  rcases fields with _ | ⟨f, fields⟩
  · cases hlength
  · rw [List.length_cons] at hlength
    rw [List.intercalate_cons_of_ne_nil (List.ne_nil_of_length_pos (by omega))]
    simp

theorem clean_priceText (raw : ℕ) : Clean (priceText raw) :=
  clean_append (clean_digits (allDigits_decimal _))
    (clean_cons (by decide) (clean_digits (allDigits_padded _ _)))

theorem clean_appendClock (nanos : UInt64) : Clean (appendClock nanos) := by
  rw [appendClock]
  have hpadded : ∀ v width, Clean (appendPadded v width) :=
    fun v width => clean_digits (allDigits_padded width v)
  have hcolon : Clean [ascii ':'] := by decide
  have hdot : Clean [ascii '.'] := by decide
  exact clean_append (clean_append (clean_append (clean_append (clean_append (clean_append
    (hpadded _ _) hcolon) (hpadded _ _)) hcolon) (hpadded _ _)) hdot) (hpadded _ _)

theorem clean_type {type : UInt8} (h : type ∈ emitted) :
    Clean [type] ∧ Clean (ofString (messageName type)) := by
  have hall : ∀ type ∈ emitted, Clean [type] ∧ Clean (ofString (messageName type)) := by
    decide +kernel
  exact hall type h

theorem clean_write {m : ByteView} {symbol : Text} (hsymbol : Clean symbol) {shown : Shown}
    (h : CleanIn m shown) : Clean (shown.write m symbol) := by
  cases shown with
  | blank => exact clean_nil
  | directory => exact hsymbol
  | text offset width => exact clean_unpadded h
  | letter offset => exact h
  | number offset width => exact clean_digits (allDigits_decimal _)
  | price offset => exact clean_priceText _

end Texts

section Congruence

variable {m m' : ByteView}

theorem cleanIn_congr {shown : Shown} (hdata : ∀ i ∈ shown.reads, m.data i = m'.data i)
    (h : CleanIn m shown) : CleanIn m' shown := by
  have hfield := field_eq_iff.mpr hdata
  cases shown with
  | text offset width =>
    change m.field offset width = m'.field offset width at hfield
    rw [CleanIn, ← hfield]
    exact h
  | letter offset =>
    change m.field offset 1 = m'.field offset 1 at hfield
    change Clean (m'.field offset 1)
    rw [← hfield]
    exact h
  | blank | directory | number | price => trivial

/-- Being well formed is a matter of the bytes inside the view. -/
theorem wellFormed_congr (hbytes : m.bytes = m'.bytes) (hpos : 0 < m.size) (h : WellFormed m) :
    WellFormed m' := by
  have hsize : m.size = m'.size := by
    have hlength := congrArg List.length hbytes
    rwa [ByteView.bytes, ByteView.bytes, length_field, length_field] at hlength
  have hdata : ∀ i < m.size, m.data i = m'.data i := by
    rw [ByteView.bytes, ByteView.bytes, ← hsize, field_eq_iff] at hbytes
    exact fun i hi => hbytes i (List.mem_map.mpr ⟨i, List.mem_range.mpr hi, Nat.zero_add i⟩)
  have htype : typeOf m = typeOf m' := hdata 0 hpos
  constructor
  · rw [← htype, ← hsize]
    intro hdirectory
    obtain ⟨hle, hclean⟩ := h.directory hdirectory
    have hreads := (range_inside m.size).mpr (Or.inr (show 11 + 8 ≤ m.size by omega))
    have hfield := field_eq_iff.mpr fun i hi => hdata i (hreads i hi)
    rw [← hfield]
    exact ⟨hle, hclean⟩
  · rw [← htype, ← hsize]
    exact h.size
  · rw [← htype]
    intro hemitted shown hshown
    have hreads := (row_inside m.size (typeOf m)).mpr (h.size hemitted)
    refine cleanIn_congr (fun i hi => hdata i (hreads i ?_)) (h.clean hemitted shown hshown)
    exact List.mem_append_right _ (List.mem_flatMap.mpr ⟨shown, hshown, hi⟩)

end Congruence

section Rows

variable (epochBase : UInt64) {m : ByteView} {d : Decoder}

theorem rowOf_eq (h : typeOf m ∈ emitted) : rowOf epochBase m d =
    leading m epochBase (d.rows + 1) (typeOf m) ++
      (layout (typeOf m)).map (Shown.write m ((d.locateToSymbol (locateOf m)).getD [])) :=
  columns_value m epochBase d.locateToSymbol (locateOf m) (d.rows + 1) h

theorem rowOf_clean (h : typeOf m ∈ emitted) (hm : WellFormed m) (hd : DirectoryClean d) :
    ∀ text ∈ rowOf epochBase m d, Clean text := by
  have hsymbol : Clean ((d.locateToSymbol (locateOf m)).getD []) := by
    cases hlookup : d.locateToSymbol (locateOf m) with
    | none => exact clean_nil
    | some symbol => exact hd _ _ hlookup
  have hnumber : ∀ v, Clean (appendUInt v) := fun v => clean_digits (allDigits_decimal _)
  rw [rowOf_eq epochBase h, List.forall_mem_append]
  constructor
  · have hepoch : ∀ v, Clean (if epochBase ≠ 0 then appendUInt v else []) := by
      intro v
      split
      · exact hnumber v
      · exact clean_nil
    simp only [leading, List.forall_mem_cons, List.not_mem_nil, false_imp_iff, implies_true,
      and_true]
    exact ⟨hnumber _, hnumber _, hepoch _, clean_appendClock _, (clean_type h).1, (clean_type h).2⟩
  · rw [List.forall_mem_map]
    exact fun shown hshown => clean_write hsymbol (hm.clean h shown hshown)

theorem length_rowOf (h : typeOf m ∈ emitted) : (rowOf epochBase m d).length = 15 := by
  have hlayout : ∀ type ∈ emitted, (layout type).length = 9 := by decide +kernel
  rw [rowOf_eq epochBase h, List.length_append, List.length_map, hlayout _ h]
  rfl

end Rows

section Visits

variable (options : Options) (epochBase : UInt64) (m : ByteView) (d : Decoder)

/-- What has been written so far, in the file and in the buffer. -/
def textOf (d : Decoder) : Text := d.written ++ d.buffer

theorem textOf_new (text : Text) : textOf { buffer := text } = text := List.nil_append text

theorem textOf_flush (d : Decoder) : textOf (flush d) = textOf d := by
  rw [flush]
  split
  · exact List.append_nil _
  · rfl

theorem flush_locateToSymbol (d : Decoder) : (flush d).locateToSymbol = d.locateToSymbol := by
  rw [flush]
  split
  · rfl
  · rfl

/-- A visit appends its row, if its message gets one, and nothing else. -/
theorem textOf_handle : textOf (handle options epochBase m d).value.2 = textOf d ++
    if emits options m d = true then rowText (rowOf epochBase m d) else [] := by
  rcases handle_cases options epochBase m d with ⟨-, hemits, hhandle⟩ | ⟨-, hemits, hhandle⟩ |
    ⟨-, hemits, hhandle⟩
  · rw [hhandle, hemits, if_neg (by decide), List.append_nil]
    rfl
  · rw [hhandle, hemits, if_pos rfl, withRow, textOf_flush]
    exact (List.append_assoc ..).symm
  · rw [hhandle, hemits, if_neg (by decide), List.append_nil]
    rfl

theorem directoryClean_handle (hm : WellFormed m) (hd : DirectoryClean d) :
    DirectoryClean (handle options epochBase m d).value.2 := by
  rcases handle_cases options epochBase m d with ⟨hdirectory, -, hhandle⟩ | ⟨-, -, hhandle⟩ |
    ⟨-, -, hhandle⟩
  · rw [hhandle]
    intro locate symbol hlookup
    dsimp only [learn] at hlookup
    split at hlookup
    · rw [← Option.some.inj hlookup]
      exact clean_unpadded (hm.directory hdirectory).2
    · exact hd locate symbol hlookup
  · rw [hhandle, DirectoryClean, withRow, flush_locateToSymbol]
    exact hd
  · rw [hhandle]
    exact hd

end Visits

section Runs

variable (options : Options) (epochBase : UInt64) {input : ByteView}

/-- The visits whose messages get a row. -/
def emittedVisits (visits : List Visit) : List Visit :=
  visits.filter fun visit => emits options visit.frame visit.before

/-- The line of a visit. -/
def lineOf (visit : Visit) : Text :=
  [ascii ','].intercalate (rowOf epochBase visit.frame visit.before)

def linesOf (visits : List Visit) : List Text :=
  (emittedVisits options visits).map (lineOf epochBase)

def ended (lines : List Text) : Text := lines.flatMap (· ++ [ascii '\n'])

theorem ended_cons (line : Text) (lines : List Text) :
    ended (line :: lines) = line ++ [ascii '\n'] ++ ended lines := List.flatMap_cons

theorem ended_linesOf_cons (visit : Visit) (visits : List Visit) :
    ended (linesOf options epochBase (visit :: visits)) =
      (if emits options visit.frame visit.before = true then
        rowText (rowOf epochBase visit.frame visit.before) else []) ++
        ended (linesOf options epochBase visits) := by
  rw [linesOf, emittedVisits, List.filter_cons]
  split
  · rw [List.map_cons, ended_cons]
    rfl
  · rfl

/-- The file of a run is what was there before, and a line for every emitted message. -/
theorem rounds_csv {offset : ℕ} {d : Decoder} {result : Result}
    (h : Rounds options epochBase input offset d result) :
    result.csv = textOf d ++ ended (linesOf options epochBase result.visits) := by
  induction h with
  | exit => exact (List.append_nil _).symm
  | @limit offset length d after _ hvalue =>
    have htext := textOf_handle options epochBase
      (visitAt options epochBase input offset length d).frame d
    rw [hvalue] at htext
    rw [ended_linesOf_cons, ← List.append_assoc]
    exact htext.trans (List.append_nil _).symm
  | @round offset length d after result _ hvalue _ ih =>
    have htext := textOf_handle options epochBase
      (visitAt options epochBase input offset length d).frame d
    rw [hvalue] at htext
    rw [ended_linesOf_cons, ← List.append_assoc]
    exact ih.trans (congrArg (· ++ _) htext)

theorem rounds_directory {offset : ℕ} {d : Decoder} {result : Result}
    (h : Rounds options epochBase input offset d result) (hd : DirectoryClean d)
    (hvisits : ∀ visit ∈ result.visits, WellFormed visit.frame) :
    ∀ visit ∈ result.visits, DirectoryClean visit.before := by
  induction h with
  | exit => exact fun _ hmem => absurd hmem List.not_mem_nil
  | limit => exact List.forall_mem_singleton.mpr hd
  | @round offset length d after result _ hvalue _ ih =>
    obtain ⟨hfirst, hrest⟩ := List.forall_mem_cons.mp hvisits
    have hafter := directoryClean_handle options epochBase _ d hfirst hd
    rw [hvalue] at hafter
    exact List.forall_mem_cons.mpr ⟨hd, ih hafter hrest⟩

end Runs

end Leka.RowTexts
