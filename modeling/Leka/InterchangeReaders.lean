import Leka.LadderSizes
import Leka.RowTexts
import Leka.CsvReaders
import Mathlib.Data.List.DropRight

/-!
The interchange files, and the parsing pass of the three tools that replay one. A column may
pad its number with spaces and follow it with anything but digits, or have no number at all; a
row may have more or fewer columns than the schema, and blank lines are no rows. However a file
is laid out, the pass reads the events that its rows name.
-/

namespace Leka.InterchangeReaders

open Orders Numerals LadderSizes RowTexts
open CsvReaders hiding ColumnCount Column Column.index splitRow splitRow_joined parseU64
  parsePriceRaw

def ColumnCount : ℕ := 8

inductive Column
  | Seq
  | TsNs
  | EventCol
  | OrderIdCol
  | SideCol
  | TypeCol
  | PriceCol
  | QuantityCol
  deriving DecidableEq

def Column.index (column : Column) : ℕ := column.ctorIdx

def splitRow (line : Text) : List Text :=
  let fields := splitFields ColumnCount [] line
  fields ++ List.replicate (ColumnCount - fields.length) []

def IsDigit (c : UInt8) : Prop := 48 ≤ c.toNat ∧ c.toNat ≤ 57

instance (c : UInt8) : Decidable (IsDigit c) := inferInstanceAs (Decidable (_ ∧ _))

/-- The digits end at the first byte that is none. A byte from 128 on is a negative `char`, and
no digit either way. -/
def digitsFrom : UInt64 → Text → UInt64
  | v, [] => v
  | v, c :: s => if IsDigit c then digitsFrom (v * 10 + (c - ascii '0').toUInt64) s else v

def isSpace (c : UInt8) : Bool := c == ascii ' '

def parseU64 (s : Text) : UInt64 := digitsFrom 0 (s.dropWhile isSpace)

def parsePriceRaw (s : Text) : Option UInt64 :=
  let trimmed := (s.dropWhile isSpace).rdropWhile isSpace
  if trimmed = [] then none else some (parseU64 trimmed)

/-- The fields of a row. -/
abbrev Row := List Text

def field (f : Row) (column : Column) : Text := f.getD column.index []

def kindOf (event : Text) : Option EventKind :=
  if event = ofString "NEW" then some .New
  else if event = ofString "CANCEL" then some .Cancel
  else if event = ofString "REDUCE" then some .Reduce
  else none

/-- The event of a row, `none` when the row is skipped. A blank price is left at 0. -/
def eventOf (f : Row) : Option ParsedEvent :=
  (kindOf (field f .EventCol)).map fun kind => {
    tsNs := parseU64 (field f .TsNs)
    kind
    orderId := parseU64 (field f .OrderIdCol)
    side := if (field f .SideCol).head? = some (ascii 'B') then .buy else .sell
    type := if field f .TypeCol = ofString "MARKET" then .market else .limit
    priceRaw := (parsePriceRaw (field f .PriceCol)).getD 0
    quantity := parseU64 (field f .QuantityCol) }

/-- The variables of the parsing pass. -/
structure Pass where
  firstLine : Bool := true
  events : List ParsedEvent := []
  range : PriceRange := {}
  rowCount : UInt64 := 0
  skipped : UInt64 := 0

def readLine (pass : Pass) (line : Text) : Pass :=
  if pass.firstLine then { pass with firstLine := false }
  else
    let pass := { pass with rowCount := pass.rowCount + 1 }
    match eventOf (splitRow line) with
    | none => { pass with skipped := pass.skipped + 1 }
    | some e => { pass with events := pass.events ++ [e], range := observe pass.range e }

def parseAll (text : Text) : Pass := (forEachLine text).foldl readLine {}

/-- The name of an event kind in the files. -/
def nameOf : EventKind → Text
  | .New => ofString "NEW"
  | .Cancel => ofString "CANCEL"
  | .Reduce => ofString "REDUCE"

/-- The text shows the number: spaces, digits, and then nothing that goes on with them. Digits
count modulo 2^64, and a text without any shows 0. -/
def Shows (text : Text) (n : UInt64) : Prop :=
  ∃ spaces digits rest, text = List.replicate spaces (ascii ' ') ++ digits ++ rest ∧
    AllDigits digits ∧ (∀ c, rest.head? = some c → ¬ IsDigit c) ∧
    (digits = [] → rest.head? ≠ some (ascii ' ')) ∧ n.toNat = valueOf digits % 2 ^ 64

/-- The columns lay out the event. There may be more of them than the schema has, or fewer: a
column that is missing is an empty one. -/
structure Lays (f : Row) (e : ParsedEvent) : Prop where
  clean : ∀ text ∈ f, Clean text
  tsNs : Shows (field f .TsNs) e.tsNs
  kind : field f .EventCol = nameOf e.kind
  orderId : Shows (field f .OrderIdCol) e.orderId
  side : if (field f .SideCol).head? = some (ascii 'B') then e.side = .buy else e.side = .sell
  type : if field f .TypeCol = ofString "MARKET" then e.type = .market else e.type = .limit
  price : Shows (field f .PriceCol) e.priceRaw
  quantity : Shows (field f .QuantityCol) e.quantity

/-- The columns lay out a row of another kind. -/
structure Other (f : Row) : Prop where
  clean : ∀ text ∈ f, Clean text
  kind : ∀ kind, field f .EventCol ≠ nameOf kind

/-- A line of a file behind its header, with the events that it adds. -/
inductive Line : Text → List ParsedEvent → Prop
  | blank : Line [] []
  | row {f : Row} {e : ParsedEvent} (h : Lays f e) : Line ([ascii ','].intercalate f) [e]
  | other {f : Row} (h : Other f) : Line ([ascii ','].intercalate f) []

section Splits

/-- Splitting off `count` fields is splitting at every comma, cut off. -/
theorem splitFields_eq (count : ℕ) (field line : Text) :
    splitFields count field line =
      ((line.splitOn (ascii ',')).modifyHead (field ++ ·)).take count := by
  induction line generalizing count field with
  | nil =>
    cases count with
    | zero => rfl
    | succ count =>
      rw [splitFields, List.splitOn_nil, List.modifyHead_cons, List.append_nil,
        List.take_succ_cons, List.take_nil]
  | cons c line ih =>
    cases count with
    | zero => rfl
    | succ count =>
      rw [splitFields, List.splitOn_cons_eq_if_modifyHead]
      by_cases hcomma : c = ascii ','
      · have hhead : (line.splitOn (ascii ',')).modifyHead (([] : Text) ++ ·) =
            line.splitOn (ascii ',') := by
          cases line.splitOn (ascii ',') <;> rfl
        rw [if_pos hcomma, if_pos (beq_iff_eq.mpr hcomma), ih, hhead, List.modifyHead_cons,
          List.append_nil, List.take_succ_cons]
      · rw [if_neg hcomma, if_neg (mt beq_iff_eq.mp hcomma), ih, List.modifyHead_modifyHead]
        congr 2
        funext rest
        exact List.append_assoc field [c] rest

/-- The columns of a joined row, whether it has more or fewer of them than the schema. -/
theorem field_splitRow {f : Row} (hclean : ∀ text ∈ f, Clean text) (column : Column) :
    field (splitRow ([ascii ','].intercalate f)) column = field f column := by
  have hcommas : ∀ text ∈ f, ascii ',' ∉ text :=
    fun text htext hmem => (hclean text htext _ hmem).1 rfl
  have hindex : column.index < ColumnCount := by
    cases column <;> decide
  cases f with
  | nil => cases column <;> rfl
  | cons text f =>
    have hfields : splitFields ColumnCount [] ([ascii ','].intercalate (text :: f)) =
        (text :: f).take ColumnCount := by
      rw [splitFields_eq, List.splitOn_intercalate _ hcommas (List.cons_ne_nil _ _)]
      rfl
    rw [field, field, splitRow, hfields, List.getD_eq_getElem?_getD, List.getD_eq_getElem?_getD]
    by_cases hlength : column.index < ((text :: f).take ColumnCount).length
    · rw [List.getElem?_append_left hlength, List.getElem?_take_of_lt hindex]
    · have hmissing : (text :: f).length ≤ column.index := by
        rw [List.length_take] at hlength
        omega
      rw [List.getElem?_append_right (not_lt.mp hlength), List.getElem?_eq_none hmissing,
        List.getElem?_replicate]
      split <;> rfl

theorem forEachLine_skip (text : Text) : forEachLine (ascii '\n' :: text) = forEachLine text := by
  have hstop : (ascii '\n' :: text).findIdx (· == ascii '\n') = 0 := by
    rw [List.findIdx_cons, beq_self_eq_true]
    rfl
  rw [forEachLine, dif_neg (List.cons_ne_nil _ _), hstop]
  rfl

theorem forEachLine_last {line : Text} (h : ascii '\n' ∉ line) :
    forEachLine line = if line = [] then [] else [line] := by
  split_ifs with hempty
  · rw [hempty, forEachLine, dif_pos rfl]
  · have hstop : line.findIdx (· == ascii '\n') = line.length :=
      List.findIdx_eq_length.mpr fun x hx => beq_eq_false_iff_ne.mpr (ne_of_mem_of_not_mem hx h)
    have hrest : forEachLine (line.drop (line.length + 1)) = [] := by
      rw [List.drop_eq_nil_of_le (Nat.le_succ _), forEachLine, dif_pos rfl]
    rw [forEachLine, dif_neg hempty, hstop]
    dsimp only
    rw [hrest, List.take_length, if_pos (List.length_pos_iff.mpr hempty), List.append_nil]

/-- Joined lines are read without the empty ones, whether the last one is ended or not. -/
theorem forEachLine_joined {lines : List Text} (h : ∀ line ∈ lines, ascii '\n' ∉ line) :
    forEachLine ([ascii '\n'].intercalate lines) = lines.filter (· ≠ []) := by
  induction lines with
  | nil => rw [List.intercalate_nil, forEachLine_last (by simp), if_pos rfl, List.filter_nil]
  | cons line lines ih =>
    obtain ⟨hline, hlines⟩ := List.forall_mem_cons.mp h
    rcases eq_or_ne lines [] with rfl | hmore
    · rw [List.intercalate_singleton, forEachLine_last hline]
      by_cases hempty : line = []
      · simp [hempty]
      · simp [hempty]
    · rw [List.intercalate_cons_of_ne_nil hmore, List.append_assoc, List.singleton_append]
      by_cases hempty : line = []
      · rw [hempty, List.nil_append, forEachLine_skip, ih hlines,
          List.filter_cons_of_neg (by simp)]
      · rw [forEachLine_ended hempty hline, ih hlines,
          List.filter_cons_of_pos (by simpa using hempty)]

end Splits

section Numbers

theorem digitsFrom_digits (v : UInt64) {digits rest : Text} (h : AllDigits digits)
    (hrest : ∀ c, rest.head? = some c → ¬ IsDigit c) :
    digitsFrom v (digits ++ rest) =
      digits.foldl (fun v c => v * 10 + (c - ascii '0').toUInt64) v := by
  induction digits generalizing v with
  | nil =>
    cases rest with
    | nil => rfl
    | cons c rest =>
      rw [List.nil_append, digitsFrom, if_neg (hrest c rfl)]
      rfl
  | cons c digits ih =>
    obtain ⟨hc, hdigits⟩ := List.forall_mem_cons.mp h
    rw [List.cons_append, digitsFrom, if_pos (show IsDigit c from hc), ih _ hdigits]
    rfl

/-- The accumulated digits are their value modulo 2^64. -/
theorem foldl_digits {digits : Text} (h : AllDigits digits) :
    digits.foldl (fun v c => v * 10 + (c - ascii '0').toUInt64) 0 =
      UInt64.ofNat (valueOf digits) := by
  induction digits using List.reverseRecOn with
  | nil => rfl
  | append_singleton digits c ih =>
    have hc := h c (List.mem_append_right _ (List.mem_singleton_self c))
    have hdigit : (c - ascii '0').toUInt64 = UInt64.ofNat (c.toNat - 48) := by
      have hle : ascii '0' ≤ c := UInt8.le_iff_toNat_le.mpr hc.1
      rw [← UInt64.toNat_inj, UInt8.toNat_toUInt64, UInt8.toNat_sub_of_le _ _ hle,
        UInt64.toNat_ofNat']
      change c.toNat - 48 = _
      omega
    rw [List.foldl_append, List.foldl_cons, List.foldl_nil, hdigit,
      ih fun c hc => h c (List.mem_append_left _ hc), valueOf_append_digit, UInt64.ofNat_add,
      UInt64.ofNat_mul]
    rfl

theorem not_space_of_digit {c : UInt8} (h : IsDigit c) : ¬ isSpace c = true := by
  rw [isSpace, beq_iff_eq]
  rintro rfl
  exact absurd h.1 (by decide)

/-- Leading spaces are skipped. -/
theorem dropSpaces {spaces : ℕ} {digits rest : Text} (h : AllDigits digits)
    (hrest : digits = [] → rest.head? ≠ some (ascii ' ')) :
    (List.replicate spaces (ascii ' ') ++ digits ++ rest).dropWhile isSpace =
      digits ++ rest := by
  have hspaces : ∀ x ∈ List.replicate spaces (ascii ' '), isSpace x = true :=
    fun x hx => beq_iff_eq.mpr (List.eq_of_mem_replicate hx)
  rw [List.append_assoc, List.dropWhile_append_of_pos hspaces]
  cases digits with
  | cons c digits =>
    rw [List.cons_append, List.dropWhile_cons_of_neg (not_space_of_digit (h c List.mem_cons_self))]
  | nil =>
    cases rest with
    | nil => rfl
    | cons c rest =>
      have hc : ¬ isSpace c = true := fun hspace => hrest rfl (congrArg some (beq_iff_eq.mp hspace))
      rw [List.nil_append, List.dropWhile_cons_of_neg hc]

/-- The digits in front of the rest are read, and counted modulo 2^64. -/
theorem digitsFrom_shown {n : UInt64} {digits rest : Text} (h : AllDigits digits)
    (hrest : ∀ c, rest.head? = some c → ¬ IsDigit c) (hn : n.toNat = valueOf digits % 2 ^ 64) :
    digitsFrom 0 (digits ++ rest) = n := by
  rw [digitsFrom_digits 0 h hrest, foldl_digits h, ← UInt64.toNat_inj, UInt64.toNat_ofNat', hn]

theorem parseU64_shows {text : Text} {n : UInt64} (h : Shows text n) : parseU64 text = n := by
  obtain ⟨spaces, digits, rest, rfl, hdigits, hrest, hnone, hvalue⟩ := h
  rw [parseU64, dropSpaces hdigits hnone, digitsFrom_shown hdigits hrest hvalue]

/-- Trailing spaces are trimmed behind the digits. -/
theorem trim_digits {digits : Text} (h : AllDigits digits) (rest : Text) :
    (digits ++ rest).rdropWhile isSpace =
      digits ++ rest.rdropWhile isSpace := by
  induction rest using List.reverseRecOn with
  | nil =>
    rw [List.append_nil, List.rdropWhile_nil, List.append_nil, List.rdropWhile_eq_self_iff]
    exact fun hl => not_space_of_digit (h _ (List.getLast_mem hl))
  | append_singleton rest c ih =>
    rw [← List.append_assoc]
    by_cases hspace : isSpace c = true
    · rw [List.rdropWhile_concat_pos _ _ _ hspace, List.rdropWhile_concat_pos _ _ _ hspace, ih]
    · rw [List.rdropWhile_concat_neg _ _ _ hspace, List.rdropWhile_concat_neg _ _ _ hspace,
        List.append_assoc]

/-- A column of a price is read as any other column is. -/
theorem parsePriceRaw_shows {text : Text} {n : UInt64} (h : Shows text n) :
    (parsePriceRaw text).getD 0 = n := by
  obtain ⟨spaces, digits, rest, rfl, hdigits, hrest, hnone, hvalue⟩ := h
  have hhead : ∀ c, (rest.rdropWhile isSpace).head? = some c → rest.head? = some c := by
    intro c hc
    obtain ⟨tail, htail⟩ := List.rdropWhile_prefix isSpace rest
    rw [← htail, List.head?_append, hc]
    rfl
  have htrimmed : Shows (digits ++ rest.rdropWhile isSpace) n :=
    ⟨0, digits, _, rfl, hdigits, fun c hc => hrest c (hhead c hc),
      fun hempty hc => hnone hempty (hhead _ hc), hvalue⟩
  rw [parsePriceRaw, dropSpaces hdigits hnone, trim_digits hdigits]
  split_ifs with hblank
  · rw [Option.getD_none, ← parseU64_shows htrimmed, hblank]
    rfl
  · rw [Option.getD_some, parseU64_shows htrimmed]

/-- Every text shows a number. -/
theorem exists_shows (text : Text) : ∃ n, Shows text n := by
  have hspace : ∀ {c}, c ∈ text.takeWhile isSpace → c = ascii ' ' := by
    intro c hc
    exact beq_iff_eq.mp (List.mem_takeWhile_imp (p := isSpace) hc)
  have hspaces : List.replicate (text.takeWhile isSpace).length (ascii ' ') =
      text.takeWhile isSpace :=
    (List.eq_replicate_iff.mpr ⟨rfl, fun c hc => hspace hc⟩).symm
  refine ⟨UInt64.ofNat (valueOf ((text.dropWhile isSpace).takeWhile fun c => IsDigit c)),
    (text.takeWhile isSpace).length, _, (text.dropWhile isSpace).dropWhile fun c => IsDigit c,
    ?_, fun c hc => ?_, fun c hc hdigit => ?_, fun hnone hspace => ?_, UInt64.toNat_ofNat'⟩
  · rw [hspaces, List.append_assoc, List.takeWhile_append_dropWhile,
      List.takeWhile_append_dropWhile]
  · exact of_decide_eq_true (List.mem_takeWhile_imp (p := fun c => decide (IsDigit c)) hc)
  · have hstop := List.head?_dropWhile_not (fun c => decide (IsDigit c)) (text.dropWhile isSpace)
    rw [hc] at hstop
    exact absurd (decide_eq_true hdigit) (by simpa using hstop)
  · have hstop := List.head?_dropWhile_not isSpace text
    have hrest := List.takeWhile_append_dropWhile (p := fun c => decide (IsDigit c))
      (l := text.dropWhile isSpace)
    rw [hnone, List.nil_append] at hrest
    rw [hrest] at hspace
    rw [hspace] at hstop
    exact absurd hstop (by decide)

/-- The number that a text shows is the one that is read. -/
theorem shows_iff {text : Text} {n : UInt64} : Shows text n ↔ parseU64 text = n := by
  refine ⟨parseU64_shows, fun h => ?_⟩
  obtain ⟨shown, hshown⟩ := exists_shows text
  exact (parseU64_shows hshown).symm.trans h ▸ hshown

end Numbers

section Rows

variable {f : Row} {e : ParsedEvent}

theorem kindOf_nameOf : ∀ kind, kindOf (nameOf kind) = some kind := by
  intro kind
  cases kind <;> decide

theorem kindOf_eq_none {event : Text} (h : ∀ kind, event ≠ nameOf kind) : kindOf event = none := by
  have hnew : event ≠ ofString "NEW" := h .New
  have hcancel : event ≠ ofString "CANCEL" := h .Cancel
  have hreduce : event ≠ ofString "REDUCE" := h .Reduce
  rw [kindOf, if_neg hnew, if_neg hcancel, if_neg hreduce]

theorem side_eq {p : Prop} [Decidable p] {side : OrderSide}
    (h : if p then side = .buy else side = .sell) : (if p then .buy else .sell) = side := by
  split_ifs at h ⊢ <;> exact h.symm

theorem type_eq {p : Prop} [Decidable p] {type : Orders.OrderType}
    (h : if p then type = .market else type = .limit) : (if p then .market else .limit) = type := by
  split_ifs at h ⊢ <;> exact h.symm

theorem eventOf_lays (h : Lays f e) : eventOf f = some e := by
  rw [eventOf, h.kind, kindOf_nameOf, parsePriceRaw_shows h.price, parseU64_shows h.tsNs,
    parseU64_shows h.orderId, parseU64_shows h.quantity, side_eq h.side, type_eq h.type]
  rfl

theorem eventOf_splitRow (hclean : ∀ text ∈ f, Clean text) :
    eventOf (splitRow ([ascii ','].intercalate f)) = eventOf f := by
  simp only [eventOf, field_splitRow hclean]

end Rows

section Files

variable {line : Text} {added : List ParsedEvent} {lines : List (Text × List ParsedEvent)}

theorem Line.unended (h : Line line added) : ascii '\n' ∉ line := by
  cases h with
  | blank => exact List.not_mem_nil
  | row h => exact joined_unended h.clean
  | other h => exact joined_unended h.clean

theorem Line.blank_adds (h : Line line added) (hempty : line = []) : added = [] := by
  cases h with
  | blank | other => rfl
  | @row f e h =>
    have hkind := field_splitRow h.clean .EventCol
    rw [hempty, h.kind] at hkind
    have hnamed : nameOf e.kind ≠ [] := by
      cases e.kind <;> decide
    exact absurd hkind.symm hnamed

/-- Every line is a row of columns. -/
theorem exists_columns (h : ascii '\n' ∉ line) :
    ∃ text f, (∀ column ∈ text :: f, Clean column) ∧
      [ascii ','].intercalate (text :: f) = line := by
  induction line with
  | nil => exact ⟨[], [], by simp [Clean], rfl⟩
  | cons c line ih =>
    have hc : c ≠ ascii '\n' := fun hbreak => h (hbreak ▸ List.mem_cons_self)
    have hline : ascii '\n' ∉ line := fun hmem => h (List.mem_cons_of_mem c hmem)
    obtain ⟨text, f, hclean, rfl⟩ := ih hline
    by_cases hcomma : c = ascii ','
    · refine ⟨[], text :: f, List.forall_mem_cons.mpr ⟨clean_nil, hclean⟩, ?_⟩
      rw [List.intercalate_cons_cons, hcomma]
      rfl
    · obtain ⟨htext, hf⟩ := List.forall_mem_cons.mp hclean
      refine ⟨c :: text, f, List.forall_mem_cons.mpr ⟨clean_cons ?_ htext, hf⟩, ?_⟩
      · intro d hd
        rw [List.mem_singleton.mp hd]
        exact ⟨hcomma, hc⟩
      · cases f with
        | nil => rfl
        | cons second f =>
          rw [List.intercalate_cons_cons, List.intercalate_cons_cons]
          rfl

theorem eq_nameOf {event : Text} {kind : EventKind} (h : kindOf event = some kind) :
    event = nameOf kind := by
  unfold kindOf at h
  split_ifs at h with hnew hcancel hreduce
  · cases h
    exact hnew
  · cases h
    exact hcancel
  · cases h
    exact hreduce

/-- The columns lay out the event that is read from them. -/
theorem lays_of_eventOf {f : Row} {e : ParsedEvent} (hclean : ∀ text ∈ f, Clean text)
    (h : eventOf f = some e) : Lays f e := by
  obtain ⟨kind, hkind, rfl⟩ := Option.map_eq_some_iff.mp h
  refine ⟨hclean, shows_iff.mpr rfl, eq_nameOf hkind, shows_iff.mpr rfl, ?_, ?_, ?_,
    shows_iff.mpr rfl⟩
  · dsimp only
    split <;> rfl
  · dsimp only
    split <;> rfl
  · obtain ⟨price, hprice⟩ := exists_shows (field f .PriceCol)
    exact (parsePriceRaw_shows hprice).symm ▸ hprice

/-- Columns without commas and line breaks lay out the event that is read from them, or none. -/
theorem line_of_columns {f : Row} (hclean : ∀ text ∈ f, Clean text) :
    Line ([ascii ','].intercalate f) (eventOf f).toList := by
  cases hevent : eventOf f with
  | some e => exact .row (lays_of_eventOf hclean hevent)
  | none =>
    refine .other ⟨hclean, fun kind hname => ?_⟩
    rw [eventOf, hname, kindOf_nameOf] at hevent
    cases hevent

/-- No line is without a layout. -/
theorem exists_line (h : ascii '\n' ∉ line) : ∃ added, Line line added := by
  obtain ⟨text, f, hclean, rfl⟩ := exists_columns h
  exact ⟨_, line_of_columns hclean⟩

/-- The variables of the pass behind lines with the listed events. -/
def passAfter (rows : ℕ) (events : List ParsedEvent) : Pass where
  firstLine := false
  events
  range := observed events
  rowCount := UInt64.ofNat rows
  skipped := UInt64.ofNat (rows - events.length)

theorem observed_concat (events : List ParsedEvent) (e : ParsedEvent) :
    observed (events ++ [e]) = LadderSizes.observe (observed events) e := by
  rw [observed, List.foldl_append]
  rfl

/-- What a line that is no blank one adds. -/
theorem readLine_adds (h : Line line added) (hne : line ≠ []) {rows : ℕ}
    {events : List ParsedEvent} (hle : events.length ≤ rows) :
    readLine (passAfter rows events) line = passAfter (rows + 1) (events ++ added) ∧
      (events ++ added).length ≤ rows + 1 := by
  cases h with
  | blank => exact absurd rfl hne
  | @row f e h =>
    have hevent : eventOf (splitRow ([ascii ','].intercalate f)) = some e := by
      rw [eventOf_splitRow h.clean, eventOf_lays h]
    have hskipped : rows + 1 - (events.length + 1) = rows - events.length := by omega
    rw [List.length_append, List.length_singleton]
    refine ⟨?_, by omega⟩
    simp only [readLine, passAfter, hevent, List.length_append, List.length_singleton, hskipped,
      observed_concat, UInt64.ofNat_add]
    rfl
  | @other f h =>
    have hevent : eventOf (splitRow ([ascii ','].intercalate f)) = none := by
      rw [eventOf_splitRow h.clean, eventOf, kindOf_eq_none h.kind]
      rfl
    have hskipped : rows + 1 - events.length = rows - events.length + 1 := by omega
    rw [List.append_nil]
    refine ⟨?_, by omega⟩
    simp only [readLine, passAfter, hevent, hskipped, UInt64.ofNat_add]
    rfl

/-- The pass over the lines that are not empty. -/
theorem foldl_readLine (hlines : ∀ l ∈ lines, Line l.1 l.2) {rows : ℕ} {events : List ParsedEvent}
    (hle : events.length ≤ rows) :
    ((lines.map Prod.fst).filter (· ≠ [])).foldl readLine (passAfter rows events) =
      passAfter (rows + ((lines.map Prod.fst).filter (· ≠ [])).length)
        (events ++ lines.flatMap Prod.snd) := by
  induction lines generalizing rows events with
  | nil => simp
  | cons l lines ih =>
    obtain ⟨hl, hrest⟩ := List.forall_mem_cons.mp hlines
    rw [List.map_cons, List.flatMap_cons]
    by_cases hempty : l.1 = []
    · rw [List.filter_cons_of_neg (by simpa using hempty), ih hrest hle, hl.blank_adds hempty,
        List.nil_append]
    · obtain ⟨hread, hle'⟩ := readLine_adds hl hempty hle
      rw [List.filter_cons_of_pos (by simpa using hempty), List.foldl_cons, hread, ih hrest hle',
        List.length_cons, List.append_assoc, Nat.add_assoc, Nat.add_comm 1]

/-- Every line has a layout, and the pass reads the events that the rows lay out, in their order,
with their extremes, and skips the other rows. Blank lines and an ended last line make no
difference. -/
theorem parseAll_reads_back (blanks : ℕ) {header : Text} (hne : header ≠ [])
    (hheader : ascii '\n' ∉ header) (hlines : ∀ l ∈ lines, Line l.1 l.2) :
    (∀ line, ascii '\n' ∉ line → ∃ added, Line line added) ∧
    parseAll ([ascii '\n'].intercalate
        (List.replicate blanks [] ++ header :: lines.map Prod.fst)) =
      passAfter ((lines.map Prod.fst).filter (· ≠ [])).length (lines.flatMap Prod.snd) := by
  refine ⟨fun _ hunended => exists_line hunended, ?_⟩
  have hunended : ∀ line ∈ List.replicate blanks [] ++ header :: lines.map Prod.fst,
      ascii '\n' ∉ line := by
    intro line hline
    rcases List.mem_append.mp hline with hblank | hline
    · rw [List.eq_of_mem_replicate hblank]
      exact List.not_mem_nil
    · refine (List.forall_mem_cons (p := fun line => ascii '\n' ∉ line)).mpr
        ⟨hheader, fun line hline => ?_⟩ line hline
      obtain ⟨l, hl, rfl⟩ := List.mem_map.mp hline
      exact (hlines l hl).unended
  have hblanks : (List.replicate blanks ([] : Text)).filter (· ≠ []) = [] :=
    List.filter_eq_nil_iff.mpr fun line hline => by simp [List.eq_of_mem_replicate hline]
  have hfirst : readLine {} header = passAfter 0 [] := rfl
  rw [parseAll, forEachLine_joined hunended, List.filter_append, hblanks, List.nil_append,
    List.filter_cons_of_pos (by simpa using hne), List.foldl_cons, hfirst]
  have hpass := @foldl_readLine lines hlines 0 [] le_rfl
  rwa [Nat.zero_add, List.nil_append] at hpass

end Files

/-- Padded numbers and a column too many, columns that are missing or have no number, a number
of more than 64 bits, and a row of another kind. -/
def untidyRows : List Row :=
  [["1", " 05", "NEW", "7 ", "BUY", "LIMIT", " 100 ", "3", "note"], ["2", "", "CANCEL", "7"],
    ["3", "x", "REDUCE", "18446744073709551623", "SELL", "MARKET", " ", "-"], ["4", " NEW"]].map
    fun row => row.map ofString

/-- What the rows of kinds that are known lay out. -/
def untidyEvents : List ParsedEvent :=
  [{ tsNs := 5, orderId := 7, side := .buy, priceRaw := 100, quantity := 3 },
    { kind := .Cancel, orderId := 7, side := .sell },
    { kind := .Reduce, orderId := 7, side := .sell, type := .market }]

theorem untidy_rows_read_back :
    parseAll ([ascii '\n'].intercalate ([[], ofString "seq", []] ++
        untidyRows.map [ascii ','].intercalate ++ [[]])) = passAfter 4 untidyEvents := by
  have hclean : ∀ f ∈ untidyRows, ∀ text ∈ f, Clean text := by decide +kernel
  have hevents : untidyRows.flatMap (fun f => (eventOf f).toList) = untidyEvents := by
    decide +kernel
  have hlines : ∀ l ∈ [([], [])] ++ (untidyRows.map fun f =>
      ([ascii ','].intercalate f, (eventOf f).toList)) ++ [([], [])], Line l.1 l.2 := by
    intro l hl
    simp only [List.mem_append, List.mem_singleton] at hl
    rcases hl with (rfl | hrow) | rfl
    · exact .blank
    · obtain ⟨f, hf, rfl⟩ := List.mem_map.mp hrow
      exact line_of_columns (hclean f hf)
    · exact .blank
  obtain ⟨-, hread⟩ := @parseAll_reads_back _ 1 (ofString "seq") (by decide) (by decide) hlines
  rw [← hevents]
  exact hread

end Leka.InterchangeReaders
