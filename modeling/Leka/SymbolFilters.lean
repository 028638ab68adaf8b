import Leka.CsvReaders
import Leka.FrameSplits
import Leka.RowTexts

/-!
The symbol filter of the converter. The filter works on locate codes, in a bit vector that
grows with the directory messages, while the symbol of a row comes from the payload or from
the directory, by message type. When the directory is consistent the two agree, and the rows
of a filtered run are those of the unfiltered run for the symbols asked for, renumbered.
-/

namespace Leka.SymbolFilters

open Numerals ByteReads ItchDecoders ItchLayouts ItchRounds FrameSplits RowTexts CsvReaders

section Frames

variable (input : ByteView)

/-- The payloads from an offset on, with a bound on their number. -/
def framesFrom : ℕ → ℕ → List ByteView
  | 0, _ => []
  | fuel + 1, offset =>
    match nextFrame input offset with
    | .error _ => []
    | .ok length =>
      input.subspan (offset + FrameLengthBytes) length ::
        framesFrom fuel (offset + FrameLengthBytes + length)

def frames : List ByteView := framesFrom input (input.size + 1) 0

end Frames

def isDirectory (m : ByteView) : Bool := isOneOf (typeOf m) "R"

/-- The symbol that a directory message names. -/
def symbolOf (r : ByteView) : Text := unpadded (r.field 11 8)

/-- Where the messages that carry a symbol of their own have it. -/
def stockField (type : UInt8) : Option ℕ :=
  match Char.ofNat type.toNat with
  | 'A' | 'F' | 'P' => some 24
  | 'Q' => some 19
  | 'H' => some 11
  | _ => none

/-- Every message that gets a row and is no system event has an earlier directory message for
its locate code; the directory messages of a code name one symbol, and so do stock fields. -/
structure Directed (frames : List ByteView) : Prop where
  listed : ∀ front m back, frames = front ++ m :: back → typeOf m ∈ emitted →
    isOneOf (typeOf m) "S" = false →
    ∃ r ∈ front, isDirectory r = true ∧ locateOf r = locateOf m
  named : ∀ r ∈ frames, ∀ r' ∈ frames, isDirectory r = true → isDirectory r' = true →
    locateOf r = locateOf r' → symbolOf r = symbolOf r'
  stock : ∀ m ∈ frames, ∀ r ∈ frames, isDirectory r = true → locateOf r = locateOf m →
    ∀ offset, stockField (typeOf m) = some offset → unpadded (m.field offset 8) = symbolOf r

section Rows

variable (options : Options) (epochBase : UInt64)

/-- The rows of a run, each with its fifteen columns. -/
def rowsOf (visits : List Visit) : List (List Text) :=
  (emittedVisits options visits).map fun visit => rowOf epochBase visit.frame visit.before

/-- The row is a system event's, or its symbol is asked for. -/
def keepsRow (symbols : List Text) (row : List Text) : Bool :=
  row.getD Column.Msg.index [] == [ascii 'S'] ||
    symbols.contains (row.getD Column.Symbol.index [])

/-- The rows with the sequence numbers `n + 1`, `n + 2` and so on. -/
def renumberedFrom (n : ℕ) (rows : List (List Text)) : List (List Text) :=
  rows.mapIdx fun i row => appendUInt (UInt64.ofNat (n + i + 1)) :: row.tail

/-- The rows with the sequence numbers 1, 2, 3 and so on. -/
def renumbered (rows : List (List Text)) : List (List Text) := renumberedFrom 0 rows

theorem renumberedFrom_cons (n : ℕ) (row : List Text) (rows : List (List Text)) :
    renumberedFrom n (row :: rows) =
      (appendUInt (UInt64.ofNat (n + 1)) :: row.tail) :: renumberedFrom (n + 1) rows := by
  have hindex : (fun (i : ℕ) (row : List Text) =>
      appendUInt (UInt64.ofNat (n + (i + 1) + 1)) :: row.tail) =
      fun i row => appendUInt (UInt64.ofNat (n + 1 + i + 1)) :: row.tail := by
    funext i row
    rw [show n + (i + 1) + 1 = n + 1 + i + 1 by omega]
  rw [renumberedFrom, List.mapIdx_cons, hindex]
  rfl

theorem rowsOf_cons (visit : Visit) (visits : List Visit) :
    rowsOf options epochBase (visit :: visits) =
      if emits options visit.frame visit.before = true then
        rowOf epochBase visit.frame visit.before :: rowsOf options epochBase visits
      else rowsOf options epochBase visits := by
  rw [rowsOf, emittedVisits, List.filter_cons]
  split
  · rfl
  · rfl

/-- The file of a run is the header and its rows. -/
theorem csv_rows {input : ByteView} {result : Result}
    (h : Rounds options epochBase input 0 { buffer := header } result) :
    result.csv = header ++ (rowsOf options epochBase result.visits).flatMap rowText := by
  rw [rounds_csv options epochBase h, textOf_new, ended, linesOf, rowsOf, List.flatMap_map,
    List.flatMap_map]
  rfl

end Rows

section Directory

variable {options : Options}

/-- The symbol that the messages so far name first for a locate code. -/
def directory (past : List ByteView) (code : UInt16) : Option Text :=
  (past.find? fun r => isDirectory r && locateOf r == code).map symbolOf

theorem directory_append (past : List ByteView) (m : ByteView) (code : UInt16) :
    directory (past ++ [m]) code = (directory past code).or
      (if isDirectory m = true ∧ locateOf m = code then some (symbolOf m) else none) := by
  rw [directory, directory, List.find?_append]
  cases hfind : past.find? fun r => isDirectory r && locateOf r == code with
  | some r => rfl
  | none =>
    by_cases hm : isDirectory m = true ∧ locateOf m = code
    · simp [hm]
    · have hnone : [m].find? (fun r => isDirectory r && locateOf r == code) = none := by
        simpa using hm
      rw [if_neg hm, hnone]
      rfl

/-- With one symbol for a code, any directory message of the code tells its symbol. -/
theorem directory_of_mem {frames past : List ByteView} (h : Directed frames)
    (hpast : past ⊆ frames) {r : ByteView} (hr : r ∈ past) (hdirectory : isDirectory r = true) :
    directory past (locateOf r) = some (symbolOf r) := by
  cases hfind : past.find? fun r' => isDirectory r' && locateOf r' == locateOf r with
  | none =>
    have hnone := List.find?_eq_none.mp hfind r hr
    simp [hdirectory] at hnone
  | some r' =>
    have hfound := List.find?_some hfind
    simp only [Bool.and_eq_true, beq_iff_eq] at hfound
    rw [directory, hfind, Option.map_some, Option.some_inj]
    exact h.named r' (hpast (List.mem_of_find?_eq_some hfind)) r (hpast hr) hfound.1 hdirectory
      hfound.2

/-- What the decoder has learnt of the directory: the symbols, and with a filter, for every
code whether its symbol is asked for. -/
structure Learnt (options : Options) (past : List ByteView) (d : Decoder) : Prop where
  symbols : ∀ code, d.locateToSymbol code = directory past code
  kept : filtering options = true → ∀ code, d.keepLocate.getD code.toNat false =
    ((directory past code).map options.symbols.contains).getD false

theorem learnt_start (text : Text) : Learnt options [] { buffer := text } :=
  ⟨fun _ => rfl, fun _ _ => rfl⟩

/-- The bit vector grown to a code, with the bit of the code set. -/
theorem getD_grown (bits : Array Bool) (i : ℕ) (b : Bool) (j : ℕ) :
    ((bits ++ Array.replicate (i + 1 - bits.size) false).setIfInBounds i b).getD j false =
      if j = i then b else bits.getD j false := by
  simp only [Array.getD_eq_getD_getElem?, Array.getElem?_setIfInBounds, Array.size_append,
    Array.size_replicate]
  by_cases hji : j = i
  · subst j
    rw [if_pos rfl, if_pos (by omega), if_pos rfl]
    rfl
  · rw [if_neg (Ne.symm hji), if_neg hji, Array.getElem?_append, Array.getElem?_replicate]
    split_ifs with hlt hnew
    · rfl
    · rw [Array.getElem?_eq_none (by omega)]
      rfl
    · rw [Array.getElem?_eq_none (by omega)]

variable {frames past : List ByteView} {m : ByteView} {d : Decoder}

theorem Learnt.learn (hframes : Directed frames) (hpast : past ++ [m] ⊆ frames)
    (hdirectory : isDirectory m = true) (h : Learnt options past d) :
    Learnt options (past ++ [m])
      (learn options (locateOf m) (unpadded (m.field 11 8)) (counted d)) where
  symbols code := by
    change (if code = locateOf m ∧ d.locateToSymbol (locateOf m) = none then some (symbolOf m)
      else d.locateToSymbol code) = _
    rw [directory_append, h.symbols, h.symbols]
    by_cases hcode : locateOf m = code
    · subst code
      cases hfirst : directory past (locateOf m) with
      | none => simp [hdirectory]
      | some symbol => simp
    · have hne : code ≠ locateOf m := fun heq => hcode heq.symm
      rw [if_neg (fun hboth => hne hboth.1), if_neg (fun hboth => hcode hboth.2), Option.or_none]
  kept hfilter code := by
    simp only [ItchDecoders.learn, hfilter, if_true, getD_grown]
    change (if code.toNat = (locateOf m).toNat then options.symbols.contains (symbolOf m)
      else d.keepLocate.getD code.toNat false) = _
    by_cases hcode : locateOf m = code
    · subst code
      rw [if_pos rfl, directory_of_mem hframes hpast (by simp) hdirectory]
      rfl
    · have hne : code.toNat ≠ (locateOf m).toNat := fun heq => hcode (UInt16.toNat_inj.mp heq.symm)
      rw [if_neg hne, directory_append, if_neg (fun hboth => hcode hboth.2), Option.or_none]
      exact h.kept hfilter code

theorem Learnt.ignore (hdirectory : isDirectory m = false) (h : Learnt options past d)
    {after : Decoder} (hsymbols : after.locateToSymbol = d.locateToSymbol)
    (hkeep : after.keepLocate = d.keepLocate) : Learnt options (past ++ [m]) after where
  symbols code := by
    rw [hsymbols, h.symbols, directory_append, if_neg (by simp [hdirectory]), Option.or_none]
  kept hfilter code := by
    rw [hkeep, h.kept hfilter, directory_append, if_neg (by simp [hdirectory]), Option.or_none]

theorem flush_keepLocate (d : Decoder) : (flush d).keepLocate = d.keepLocate := by
  rw [flush]
  split
  · rfl
  · rfl

/-- A visit learns its directory message, and nothing from any other message. -/
theorem Learnt.handle (epochBase : UInt64) (hframes : Directed frames)
    (hpast : past ++ [m] ⊆ frames) (h : Learnt options past d) :
    Learnt options (past ++ [m]) (handle options epochBase m d).value.2 := by
  rcases handle_cases options epochBase m d with ⟨hdirectory, -, hhandle⟩ |
    ⟨hdirectory, -, hhandle⟩ | ⟨hdirectory, -, hhandle⟩
  · rw [hhandle]
    exact h.learn hframes hpast hdirectory
  · rw [hhandle]
    refine h.ignore hdirectory ?_ ?_
    · rw [withRow, flush_locateToSymbol]
      rfl
    · rw [withRow, flush_keepLocate]
      rfl
  · rw [hhandle]
    exact h.ignore hdirectory rfl rfl

end Directory

section Columns

variable {epochBase : UInt64} {frames front back : List ByteView} {m : ByteView} {d : Decoder}
  {options : Options}

/-- A message shows a stock field of its own, the symbol on record, or is a system event. -/
theorem layout_symbol {type : UInt8} (h : type ∈ emitted) :
    (isOneOf type "S" = true ∧ (layout type).head? = some .blank) ∨
    (isOneOf type "S" = false ∧
      ((∃ offset, stockField type = some offset ∧ (layout type).head? = some (.text offset 8)) ∨
        (layout type).head? = some .directory)) := by
  rw [emitted_eq] at h
  simp only [List.mem_cons, List.not_mem_nil, or_false] at h
  rcases h with rfl | rfl | rfl | rfl | rfl | rfl | rfl | rfl | rfl | rfl | rfl | rfl
  · exact Or.inr ⟨by decide, Or.inl ⟨24, rfl, rfl⟩⟩
  · exact Or.inr ⟨by decide, Or.inl ⟨24, rfl, rfl⟩⟩
  · exact Or.inr ⟨by decide, Or.inr rfl⟩
  · exact Or.inr ⟨by decide, Or.inr rfl⟩
  · exact Or.inr ⟨by decide, Or.inr rfl⟩
  · exact Or.inr ⟨by decide, Or.inr rfl⟩
  · exact Or.inr ⟨by decide, Or.inr rfl⟩
  · exact Or.inr ⟨by decide, Or.inl ⟨24, rfl, rfl⟩⟩
  · exact Or.inr ⟨by decide, Or.inl ⟨19, rfl, rfl⟩⟩
  · exact Or.inr ⟨by decide, Or.inr rfl⟩
  · exact Or.inl ⟨by decide, rfl⟩
  · exact Or.inr ⟨by decide, Or.inl ⟨11, rfl, rfl⟩⟩

theorem row_msg (h : typeOf m ∈ emitted) :
    (rowOf epochBase m d).getD Column.Msg.index [] = [typeOf m] := by
  rw [rowOf_eq epochBase h]
  rfl

theorem row_symbol (h : typeOf m ∈ emitted) {shown : Shown}
    (hshown : (layout (typeOf m)).head? = some shown) :
    (rowOf epochBase m d).getD Column.Symbol.index [] =
      shown.write m ((d.locateToSymbol (locateOf m)).getD []) := by
  obtain ⟨rest, hlayout⟩ := List.head?_eq_some_iff.mp hshown
  rw [rowOf_eq epochBase h, hlayout]
  rfl

/-- The symbol of a row, whichever source it has, is the one on record for the locate code. -/
theorem row_on_record (epochBase : UInt64) (hframes : Directed frames)
    (hsplit : frames = front ++ m :: back) (h : Learnt options front d)
    (hemitted : typeOf m ∈ emitted) (hsystem : isOneOf (typeOf m) "S" = false) :
    directory front (locateOf m) = some ((rowOf epochBase m d).getD Column.Symbol.index []) := by
  obtain ⟨r, hr, hdirectory, hlocate⟩ := hframes.listed front m back hsplit hemitted hsystem
  have hfront : front ⊆ frames := by simp [hsplit]
  have hrecord := directory_of_mem hframes hfront hr hdirectory
  rw [hlocate] at hrecord
  rw [hrecord, Option.some_inj]
  rcases layout_symbol hemitted with ⟨hs, -⟩ | ⟨-, ⟨offset, hstock, hshown⟩ | hshown⟩
  · rw [hs] at hsystem
    cases hsystem
  · rw [row_symbol hemitted hshown]
    exact (hframes.stock m (by simp [hsplit]) r (hfront hr) hdirectory hlocate offset hstock).symm
  · rw [row_symbol hemitted hshown, h.symbols, hrecord]
    rfl

end Columns

section Filtering

variable {epochBase : UInt64} {input : ByteView} {frames front back past : List ByteView}
  {m : ByteView} {symbols : List Text} {system : Bool} {u f : Decoder}

theorem isOneOf_system (type : UInt8) : isOneOf type "S" = (type == ascii 'S') := by
  simp [isOneOf]

/-- The filter keeps a message of the unfiltered run exactly when it keeps the row. -/
theorem emits_filtered (epochBase : UInt64) (hframes : Directed frames)
    (hsplit : frames = front ++ m :: back) (hsymbols : symbols ≠ [])
    (hu : Learnt ⟨[], 0, system⟩ front u)
    (hf : Learnt ⟨symbols, 0, system⟩ front f) :
    emits ⟨symbols, 0, system⟩ m f =
      (emits ⟨[], 0, system⟩ m u && keepsRow symbols (rowOf epochBase m u)) := by
  have hfilter : filtering ⟨symbols, 0, system⟩ = true := by
    simpa [filtering, List.isEmpty_iff] using hsymbols
  have hall : keeps ⟨[], 0, system⟩ u (typeOf m) (locateOf m) = true := rfl
  by_cases hemitted : typeOf m ∈ emitted
  · have hkeeps : keeps ⟨symbols, 0, system⟩ f (typeOf m) (locateOf m) =
        keepsRow symbols (rowOf epochBase m u) := by
      rw [keeps, hfilter, isOneOf_system, keepsRow, row_msg hemitted]
      by_cases hsystem : typeOf m = ascii 'S'
      · simp [hsystem]
      · have hother : isOneOf (typeOf m) "S" = false := by
          rw [isOneOf_system]
          simpa using hsystem
        have hrecord := row_on_record epochBase hframes hsplit hu hemitted hother
        rw [hf.kept hfilter, hrecord]
        simp
    simp only [emits, hall, hkeeps, Bool.and_true]
    cases keepsRow symbols (rowOf epochBase m u) <;> simp
  · have hname : messageName (typeOf m) = "OTHER" := by
      by_contra hname
      exact hemitted (mem_emitted hname)
    simp [emits, hname]

/-- The rows of a message differ in the sequence number alone. -/
theorem rowOf_same (hemitted : typeOf m ∈ emitted)
    (hsymbols : f.locateToSymbol = u.locateToSymbol) :
    rowOf epochBase m f = appendUInt (f.rows + 1) :: (rowOf epochBase m u).tail := by
  rw [rowOf_eq epochBase hemitted, rowOf_eq epochBase hemitted, hsymbols]
  rfl

theorem handle_rows (options : Options) (epochBase : UInt64) (m : ByteView) (d : Decoder) :
    (handle options epochBase m d).value.2.rows =
      if emits options m d = true then d.rows + 1 else d.rows := by
  rcases handle_cases options epochBase m d with ⟨-, hemits, hhandle⟩ | ⟨-, hemits, hhandle⟩ |
    ⟨-, hemits, hhandle⟩
  · rw [hhandle, hemits]
    rfl
  · rw [hhandle, hemits, if_pos rfl, withRow, flush_rows]
  · rw [hhandle, hemits]
    rfl

/-- One message: the row of the filtered run is the renumbered row of the unfiltered one. -/
theorem rowsOf_visit (hframes : Directed frames) (hsplit : frames = front ++ m :: back)
    (hsymbols : symbols ≠ []) (hu : Learnt ⟨[], 0, system⟩ front u)
    (hf : Learnt ⟨symbols, 0, system⟩ front f) {n : ℕ} (hrows : f.rows = UInt64.ofNat n)
    {visit visit' : Visit} {visits visits' : List Visit}
    (hvisit : visit.before = u ∧ visit.frame = m) (hvisit' : visit'.before = f ∧ visit'.frame = m)
    (ih : ∀ k, (handle ⟨symbols, 0, system⟩ epochBase m f).value.2.rows = UInt64.ofNat k →
      rowsOf ⟨symbols, 0, system⟩ epochBase visits' =
        renumberedFrom k ((rowsOf ⟨[], 0, system⟩ epochBase visits).filter (keepsRow symbols))) :
    rowsOf ⟨symbols, 0, system⟩ epochBase (visit' :: visits') =
      renumberedFrom n
        ((rowsOf ⟨[], 0, system⟩ epochBase (visit :: visits)).filter (keepsRow symbols)) := by
  have hemits := emits_filtered epochBase hframes hsplit hsymbols hu hf
  have hafter := handle_rows ⟨symbols, 0, system⟩ epochBase m f
  rw [rowsOf_cons, rowsOf_cons, hvisit.1, hvisit.2, hvisit'.1, hvisit'.2]
  by_cases hboth : emits ⟨symbols, 0, system⟩ m f = true
  · have hemitted := mem_emitted ((emits_iff _ m f).mp hboth).2.2.2
    have hlookup : f.locateToSymbol = u.locateToSymbol := by
      funext code
      rw [hf.symbols, hu.symbols]
    rw [if_pos hboth, hrows] at hafter
    have hnext : UInt64.ofNat n + 1 = UInt64.ofNat (n + 1) := (UInt64.ofNat_add n 1).symm
    rw [hboth] at hemits
    obtain ⟨hrow, hkeep⟩ := Bool.and_eq_true_iff.mp hemits.symm
    rw [if_pos hboth, if_pos hrow, List.filter_cons_of_pos hkeep, renumberedFrom_cons,
      ih (n + 1) (hafter.trans hnext), rowOf_same hemitted hlookup, hrows, hnext]
  · rw [if_neg hboth] at hafter
    rw [if_neg hboth, ih n (hafter.trans hrows)]
    split_ifs with hrow
    · have hdrop : keepsRow symbols (rowOf epochBase m u) = false := by
        rw [Bool.not_eq_true] at hboth
        rw [hboth, hrow, Bool.true_and] at hemits
        exact hemits.symm
      rw [List.filter_cons_of_neg (by rw [hdrop]; decide)]
    · rfl

/-- Two runs side by side, the one with a filter and the one without. -/
theorem rowsOf_rounds {offset : ℕ} {unfiltered filtered : Result}
    (hrun : Rounds ⟨[], 0, system⟩ epochBase input offset u unfiltered)
    (hrun' : Rounds ⟨symbols, 0, system⟩ epochBase input offset f filtered)
    (hsymbols : symbols ≠ []) (hframes : Directed frames)
    (hsplit : frames = past ++ unfiltered.visits.map (·.frame))
    (hu : Learnt ⟨[], 0, system⟩ past u) (hf : Learnt ⟨symbols, 0, system⟩ past f) {n : ℕ}
    (hrows : f.rows = UInt64.ofNat n) :
    rowsOf ⟨symbols, 0, system⟩ epochBase filtered.visits =
      renumberedFrom n
        ((rowsOf ⟨[], 0, system⟩ epochBase unfiltered.visits).filter (keepsRow symbols)) := by
  induction hrun generalizing f filtered past n with
  | exit hexit =>
    cases hrun' with
    | exit => rfl
    | limit hnext => exact absurd (hexit.symm.trans hnext) nofun
    | round hnext => exact absurd (hexit.symm.trans hnext) nofun
  | @limit offset length u after hnext hvalue =>
    have hgoes := handle_goes_on ⟨[], 0, system⟩ epochBase rfl
      (visitAt ⟨[], 0, system⟩ epochBase input offset length u).frame u
    rw [hvalue] at hgoes
    cases hgoes
  | @round offset length u after unfiltered hnext hvalue _ ih =>
    cases hrun' with
    | exit hexit => exact absurd (hnext.symm.trans hexit) nofun
    | @limit _ length' _ after' hnext' hvalue' =>
      have hgoes := handle_goes_on ⟨symbols, 0, system⟩ epochBase rfl
        (visitAt ⟨symbols, 0, system⟩ epochBase input offset length' f).frame f
      rw [hvalue'] at hgoes
      cases hgoes
    | @round _ length' _ after' filtered hnext' hvalue' hrest' =>
      obtain rfl : length = length' := Except.ok.inj (hnext.symm.trans hnext')
      rw [List.map_cons] at hsplit
      have hpast : past ++ [input.subspan (offset + FrameLengthBytes) length] ⊆ frames := by
        rw [hsplit]
        intro r hr
        rcases List.mem_append.mp hr with hr | hr
        · exact List.mem_append_left _ hr
        · rw [List.mem_singleton.mp hr]
          exact List.mem_append_right _ List.mem_cons_self
      have hu' := hu.handle epochBase hframes hpast
      have hf' := hf.handle epochBase hframes hpast
      have hafter := congrArg Prod.snd hvalue
      have hafter' := congrArg Prod.snd hvalue'
      change (handle _ epochBase (input.subspan _ length) u).value.2 = after at hafter
      change (handle _ epochBase (input.subspan _ length) f).value.2 = after' at hafter'
      rw [hafter] at hu'
      rw [hafter'] at hf'
      refine rowsOf_visit hframes hsplit hsymbols hu hf hrows ⟨rfl, rfl⟩ ⟨rfl, rfl⟩ ?_
      intro k hk
      refine ih hrest' ?_ hu' hf' (hafter' ▸ hk)
      rw [hsplit, List.append_assoc]
      rfl

theorem visited_frames {options : Options} (hlimit : options.limit = 0) {offset : ℕ}
    {d : Decoder} {result : Result} (h : Rounds options epochBase input offset d result)
    {fuel : ℕ} (hfuel : input.size - offset < fuel) :
    result.visits.map (·.frame) = framesFrom input fuel offset := by
  induction h generalizing fuel with
  | exit hexit =>
    obtain ⟨fuel, rfl⟩ := Nat.exists_eq_succ_of_ne_zero (by omega : fuel ≠ 0)
    rw [framesFrom, hexit]
    rfl
  | @limit offset length d after hnext hvalue =>
    have hgoes := handle_goes_on options epochBase hlimit
      (visitAt options epochBase input offset length d).frame d
    rw [hvalue] at hgoes
    cases hgoes
  | @round offset length d after result hnext _ _ ih =>
    obtain ⟨fuel, rfl⟩ := Nat.exists_eq_succ_of_ne_zero (by omega : fuel ≠ 0)
    obtain ⟨-, hpos, hfits⟩ := nextFrame_ok input hnext
    have hless : input.size - (offset + FrameLengthBytes + length) < fuel := by
      have hbytes : FrameLengthBytes = 2 := rfl
      omega
    rw [framesFrom, hnext, List.map_cons, ih hless]
    rfl

/-- Filtering by symbol is a projection: the filtered run has the rows of the unfiltered run
that are system events' or have a symbol asked for, in order, and renumbered. -/
theorem filter_projects (hdirected : Directed (SymbolFilters.frames input))
    (hsymbols : symbols ≠ []) :
    ∃ filtered unfiltered,
      decode ⟨symbols, 0, system⟩ epochBase input = some filtered ∧
      decode ⟨[], 0, system⟩ epochBase input = some unfiltered ∧
      filtered.csv = header ++
        (rowsOf ⟨symbols, 0, system⟩ epochBase filtered.visits).flatMap rowText ∧
      unfiltered.csv = header ++
        (rowsOf ⟨[], 0, system⟩ epochBase unfiltered.visits).flatMap rowText ∧
      rowsOf ⟨symbols, 0, system⟩ epochBase filtered.visits =
        renumbered
          ((rowsOf ⟨[], 0, system⟩ epochBase unfiltered.visits).filter (keepsRow symbols)) := by
  obtain ⟨filtered, hdecode', hrun'⟩ := decode_rounds ⟨symbols, 0, system⟩ epochBase input
  obtain ⟨unfiltered, hdecode, hrun⟩ := decode_rounds ⟨[], 0, system⟩ epochBase input
  have hframes : SymbolFilters.frames input = [] ++ unfiltered.visits.map (·.frame) :=
    (visited_frames rfl hrun (by omega)).symm
  exact ⟨filtered, unfiltered, hdecode', hdecode, csv_rows _ epochBase hrun',
    csv_rows _ epochBase hrun, rowsOf_rounds hrun hrun' hsymbols hdirected hframes
      (learnt_start _) (learnt_start _) rfl⟩

end Filtering

section Instance

/-- The directory message of a locate code. -/
def listing (locate : UInt8) (symbol : String) : Text :=
  ofString "R" ++ [0, locate, 0, 0, 0, 0, 0, 0, 0, 0] ++ ofString symbol

/-- The deletion of order 7 of a locate code. -/
def deletion (locate : UInt8) : Text :=
  ofString "D" ++ [0, locate, 0, 0, 0, 0, 0, 0, 0, 0, 0, 0, 0, 0, 0, 0, 0, 7]

def twoSymbols : ByteView :=
  .ofList ([0, 19] ++ listing 1 "A       " ++ [0, 19] ++ listing 2 "B       " ++
    [0, 19] ++ deletion 2 ++ [0, 19] ++ deletion 1) fun _ => 0

theorem frames_twoSymbols : frames twoSymbols =
    [twoSymbols.subspan 2 19, twoSymbols.subspan 23 19, twoSymbols.subspan 44 19,
      twoSymbols.subspan 65 19] := rfl

theorem directed_twoSymbols : Directed (frames twoSymbols) := by
  have hstock : ∀ m ∈ frames twoSymbols, stockField (typeOf m) = none := by
    rw [frames_twoSymbols]
    decide +kernel
  refine ⟨?_, ?_, ?_⟩
  · intro front m back hsplit hemitted _
    rw [frames_twoSymbols] at hsplit
    rcases front with _ | ⟨r₁, _ | ⟨r₂, _ | ⟨d₁, _ | ⟨d₂, front⟩⟩⟩⟩
    all_goals
      simp only [List.nil_append, List.cons_append, List.cons.injEq] at hsplit
    · rw [← hsplit.1] at hemitted
      exact absurd hemitted (by decide +kernel)
    · rw [← hsplit.2.1] at hemitted
      exact absurd hemitted (by decide +kernel)
    · obtain ⟨-, rfl, rfl, -⟩ := hsplit
      exact ⟨_, List.mem_cons_of_mem _ List.mem_cons_self, by decide +kernel, by decide +kernel⟩
    · obtain ⟨rfl, -, -, rfl, -⟩ := hsplit
      exact ⟨_, List.mem_cons_self, by decide +kernel, by decide +kernel⟩
    · simp at hsplit
  · rw [frames_twoSymbols]
    decide +kernel
  · intro m hm r _ _ _ offset hoffset
    rw [hstock m hm] at hoffset
    cases hoffset

theorem filter_projects_twoSymbols :
    ∃ filtered unfiltered,
      decode ⟨[ofString "A"], 0, true⟩ 0 twoSymbols = some filtered ∧
      decode ⟨[], 0, true⟩ 0 twoSymbols = some unfiltered ∧
      filtered.csv = header ++
        (rowsOf ⟨[ofString "A"], 0, true⟩ 0 filtered.visits).flatMap rowText ∧
      unfiltered.csv = header ++ (rowsOf ⟨[], 0, true⟩ 0 unfiltered.visits).flatMap rowText ∧
      rowsOf ⟨[ofString "A"], 0, true⟩ 0 filtered.visits =
        renumbered
          ((rowsOf ⟨[], 0, true⟩ 0 unfiltered.visits).filter (keepsRow [ofString "A"])) :=
  filter_projects directed_twoSymbols (by decide)

end Instance

end Leka.SymbolFilters
