import Leka.Doubles
import Mathlib.Data.List.Chain
import Mathlib.Tactic.Common

/-!
Texts of a part of JSON: natural numbers, strings, arrays and objects; the words, other numbers and
escapes by number are left out. A text is read by two machines, one over its characters and one
over the tokens in it, and a value is written as the texts of its tokens. A script reads the
numbers as binary64 ones, so what is written reads back with its numbers rounded, unless a string
has a control character: there a reader stops, inside the string. Nothing here depends on the
program that uses it.
-/

namespace Leka.JsonTexts

open Doubles

abbrev Chars := List Char

/-- A value, with numbers of some kind. -/
inductive Json (ν : Type)
  | number (n : ν)
  | string (text : Chars)
  | array (items : List (Json ν))
  | object (members : List (Chars × Json ν))

inductive Token
  | openArray
  | closeArray
  | openObject
  | closeObject
  | colon
  | comma
  | string (text : Chars)
  | number (n : ℕ)
  deriving DecidableEq

section Writing

/-- A quotation mark or a backslash stands behind a backslash. -/
def escaped (text : Chars) : Chars :=
  text.flatMap fun c => if c = '"' ∨ c = '\\' then ['\\', c] else [c]

def quoted (text : Chars) : Chars := '"' :: escaped text ++ ['"']

def Token.text : Token → Chars
  | .openArray => ['[']
  | .closeArray => [']']
  | .openObject => ['\x7b']
  | .closeObject => ['\x7d']
  | .colon => [':']
  | .comma => [',']
  | .string text => quoted text
  | .number n => Nat.toDigits 10 n

mutual

def Json.tokens : Json ℕ → List Token
  | .number n => [.number n]
  | .string text => [.string text]
  | .array items => .openArray :: itemTokens items
  | .object members => .openObject :: memberTokens members

/-- The items of an array, from its beginning. -/
def itemTokens : List (Json ℕ) → List Token
  | [] => [.closeArray]
  | item :: items => item.tokens ++ moreItems items

/-- The items behind another one. -/
def moreItems : List (Json ℕ) → List Token
  | [] => [.closeArray]
  | item :: items => .comma :: item.tokens ++ moreItems items

def memberTokens : List (Chars × Json ℕ) → List Token
  | [] => [.closeObject]
  | (name, value) :: members => .string name :: .colon :: value.tokens ++ moreMembers members

def moreMembers : List (Chars × Json ℕ) → List Token
  | [] => [.closeObject]
  | (name, value) :: members =>
    .comma :: .string name :: .colon :: value.tokens ++ moreMembers members

end

def Json.render (value : Json ℕ) : Chars := value.tokens.flatMap Token.text

end Writing

section Lexing

/-- Where a reader of characters is: between two tokens, in a number, in a string, or behind a
backslash in a string, with what it has read. -/
inductive Mode
  | between
  | digits (read : Chars)
  | inside (read : Chars)
  | escape (read : Chars)

def isBlank (c : Char) : Bool :=
  c == ' ' || c == '\t' || c == '\n' || c == '\r'

/-- The character that a backslash and this one stand for. -/
def unescape (c : Char) : Option Char :=
  if c = '"' ∨ c = '\\' ∨ c = '/' then some c
  else if c = 'b' then some '\x08'
  else if c = 'f' then some '\x0c'
  else if c = 'n' then some '\n'
  else if c = 'r' then some '\r'
  else if c = 't' then some '\t'
  else none

/-- A character between two tokens: the tokens that end with it, and what it begins. -/
def begins (c : Char) : Option (List Token × Mode) :=
  if c = '[' then some ([.openArray], .between)
  else if c = ']' then some ([.closeArray], .between)
  else if c = '\x7b' then some ([.openObject], .between)
  else if c = '\x7d' then some ([.closeObject], .between)
  else if c = ':' then some ([.colon], .between)
  else if c = ',' then some ([.comma], .between)
  else if c = '"' then some ([], .inside [])
  else if c.isDigit = true then some ([], .digits [c])
  else if isBlank c = true then some ([], .between)
  else none

/-- One character. A number has no leading zeros, a string no control characters. -/
def Mode.step : Mode → Char → Option (List Token × Mode)
  | .between, c => begins c
  | .digits read, c =>
    if c.isDigit = true then
      if read = ['0'] then none else some ([], .digits (read ++ [c]))
    else (begins c).map fun next => (.number (Nat.ofDigitChars 10 read 0) :: next.1, next.2)
  | .inside read, c =>
    if c = '"' then some ([.string read], .between)
    else if c = '\\' then some ([], .escape read)
    else if c.toNat < 32 then none
    else some ([], .inside (read ++ [c]))
  | .escape read, c => (unescape c).map fun c => ([], .inside (read ++ [c]))

/-- The end of the text: no string is open. -/
def Mode.finish : Mode → Option (List Token)
  | .between => some []
  | .digits read => some [.number (Nat.ofDigitChars 10 read 0)]
  | .inside _ | .escape _ => none

def lex : Mode → Chars → Option (List Token)
  | mode, [] => mode.finish
  | mode, c :: text =>
    (mode.step c).bind fun next => (lex next.2 text).map fun tokens => next.1 ++ tokens

end Lexing

section Parsing

/-- An array or an object that a reader of tokens is in, in front of a value. -/
inductive Context
  | array (items : List (Json ℕ))
  | object (members : List (Chars × Json ℕ)) (name : Chars)

/-- What a reader of tokens waits for, and the contexts around it, the innermost first. -/
inductive State
  | value (around : List Context)
  | firstItem (around : List Context)
  | moreItems (items : List (Json ℕ)) (around : List Context)
  | firstMember (around : List Context)
  | member (members : List (Chars × Json ℕ)) (around : List Context)
  | colon (members : List (Chars × Json ℕ)) (name : Chars) (around : List Context)
  | moreMembers (members : List (Chars × Json ℕ)) (around : List Context)
  | done (value : Json ℕ)

/-- A value has been read. -/
def complete (value : Json ℕ) : List Context → State
  | [] => .done value
  | .array items :: around => .moreItems (items ++ [value]) around
  | .object members name :: around => .moreMembers (members ++ [(name, value)]) around

def beginValue (around : List Context) : Token → Option State
  | .number n => some (complete (.number n) around)
  | .string text => some (complete (.string text) around)
  | .openArray => some (.firstItem around)
  | .openObject => some (.firstMember around)
  | .closeArray | .closeObject | .colon | .comma => none

def State.step : State → Token → Option State
  | .value around, token => beginValue around token
  | .firstItem around, .closeArray => some (complete (.array []) around)
  | .firstItem around, token => beginValue (.array [] :: around) token
  | .moreItems items around, .comma => some (.value (.array items :: around))
  | .moreItems items around, .closeArray => some (complete (.array items) around)
  | .firstMember around, .closeObject => some (complete (.object []) around)
  | .firstMember around, .string name => some (.colon [] name around)
  | .member members around, .string name => some (.colon members name around)
  | .colon members name around, .colon => some (.value (.object members name :: around))
  | .moreMembers members around, .comma => some (.member members around)
  | .moreMembers members around, .closeObject => some (complete (.object members) around)
  | _, _ => none

def State.result : State → Option (Json ℕ)
  | .done json => some json
  | _ => none

def parse (tokens : List Token) : Option (Json ℕ) :=
  (tokens.foldlM State.step (.value [])).bind State.result

mutual

/-- The value with its numbers turned into others. -/
def Json.map {ν ν' : Type} (f : ν → ν') : Json ν → Json ν'
  | .number n => .number (f n)
  | .string text => .string text
  | .array items => .array (mapItems f items)
  | .object members => .object (mapMembers f members)

def mapItems {ν ν' : Type} (f : ν → ν') : List (Json ν) → List (Json ν')
  | [] => []
  | item :: items => item.map f :: mapItems f items

def mapMembers {ν ν' : Type} (f : ν → ν') : List (Chars × Json ν) → List (Chars × Json ν')
  | [] => []
  | (name, value) :: members => (name, value.map f) :: mapMembers f members

end

/-- The value that a text denotes, with its numbers as they stand in the text. -/
def readExact (text : Chars) : Option (Json ℕ) := (lex .between text).bind parse

/-- The value that a script reads off a text: its numbers are binary64 ones. -/
def read (text : Chars) : Option (Json Double) := (readExact text).map (Json.map nearest)

end Parsing

section Numbers

/-- A decimal text begins with a digit, and with 0 only if that is all. -/
theorem toDigits_head (n : ℕ) :
    ∃ c ds, Nat.toDigits 10 n = c :: ds ∧ (c = '0' → ds = []) := by
  induction n using Nat.strongRecOn with
  | _ n ih =>
    rw [Nat.toDigits_eq_if (by decide)]
    split
    · exact ⟨_, [], rfl, fun _ => rfl⟩
    · obtain ⟨c, ds, htext, hzero⟩ := ih (n / 10) (by omega)
      refine ⟨c, ds ++ [(n % 10).digitChar], by rw [htext]; rfl, fun hc => ?_⟩
      have hvalue := @Nat.ofDigitChars_toDigits 10 (n / 10) (by decide) (by decide)
      rw [htext, hzero hc, hc] at hvalue
      have hnone : Nat.ofDigitChars 10 ['0'] 0 = 0 := rfl
      omega

/-- A character that ends no token. -/
theorem lex_silent {mode next : Mode} {c : Char} (hstep : mode.step c = some ([], next))
    (text : Chars) : lex mode (c :: text) = lex next text := by
  rw [lex, hstep, Option.bind_some]
  exact Option.map_id'

theorem begins_digit {c : Char} (h : c.isDigit = true) : begins c = some ([], .digits [c]) := by
  have hne : ∀ {other : Char}, other.isDigit = false → c ≠ other := by
    rintro other hother rfl
    rw [h] at hother
    cases hother
  rw [begins, if_neg (hne rfl), if_neg (hne rfl), if_neg (hne rfl), if_neg (hne rfl),
    if_neg (hne rfl), if_neg (hne rfl), if_neg (hne rfl), if_pos h]

/-- Digits behind a digit are read, unless that digit is a 0. -/
theorem lex_digits {read ds rest : Chars} (hds : ∀ c ∈ ds, c.isDigit = true)
    (hread : ds ≠ [] → read ≠ ['0'] ∧ read ≠ []) :
    lex (.digits read) (ds ++ rest) = lex (.digits (read ++ ds)) rest := by
  induction ds generalizing read with
  | nil => rw [List.nil_append, List.append_nil]
  | cons c ds ih =>
    obtain ⟨hc, hds⟩ := List.forall_mem_cons.mp hds
    obtain ⟨hzero, hempty⟩ := hread (by simp)
    have hstep : Mode.step (.digits read) c = some ([], .digits (read ++ [c])) := by
      rw [Mode.step, if_pos hc, if_neg hzero]
    have hlonger : read ++ [c] ≠ ['0'] ∧ read ++ [c] ≠ [] := by
      refine ⟨fun h => hempty ?_, by simp⟩
      simpa using congrArg List.length h
    rw [List.cons_append, lex_silent hstep, ih hds fun _ => hlonger, List.append_assoc,
      List.singleton_append]

theorem lex_number (n : ℕ) {rest : Chars} (hrest : ∀ c ∈ rest.head?, c.isDigit = false) :
    lex .between (Nat.toDigits 10 n ++ rest) =
      (lex .between rest).map fun tokens => .number n :: tokens := by
  obtain ⟨c, ds, htext, hzero⟩ := toDigits_head n
  have hdigits : ∀ c ∈ Nat.toDigits 10 n, c.isDigit = true :=
    fun c hc => Nat.isDigit_of_mem_toDigits (by decide) (by decide) hc
  have hvalue : Nat.ofDigitChars 10 (Nat.toDigits 10 n) 0 = n :=
    Nat.ofDigitChars_toDigits (by decide) (by decide)
  rw [htext] at hdigits
  obtain ⟨hc, hds⟩ := List.forall_mem_cons.mp hdigits
  have hfirst : Mode.step .between c = some ([], .digits [c]) := begins_digit hc
  have hread : lex .between (Nat.toDigits 10 n ++ rest) =
      lex (.digits (Nat.toDigits 10 n)) rest := by
    rw [htext, List.cons_append, lex_silent hfirst]
    exact lex_digits hds fun hne => ⟨fun h => hne (hzero (List.singleton_inj.mp h)), by simp⟩
  rw [hread]
  cases rest with
  | nil => rw [lex, lex, Mode.finish, Mode.finish, hvalue, Option.map_some]
  | cons c' rest =>
    have hother : c'.isDigit = false := hrest c' rfl
    rw [lex, lex, Mode.step, Mode.step, if_neg (by rw [hother]; decide), hvalue]
    cases begins c' with
    | none => rfl
    | some next => simp [Option.map_map, Function.comp_def]

end Numbers

section Strings

/-- No control character, as JSON has them. -/
def Printable (c : Char) : Prop := 32 ≤ c.toNat

instance : DecidablePred Printable := fun c => inferInstanceAs (Decidable (32 ≤ c.toNat))

/-- All characters of a text have the property. -/
def AllChars (p : Char → Prop) (text : Chars) : Prop := ∀ c ∈ text, p c

instance {p : Char → Prop} [DecidablePred p] (text : Chars) : Decidable (AllChars p text) :=
  List.decidableBAll p text

theorem escaped_cons (c : Char) (text : Chars) :
    escaped (c :: text) =
      (if c = '"' ∨ c = '\\' then ['\\', c] else [c]) ++ escaped text :=
  List.flatMap_cons

/-- A character of a string is read as it was, and a control character stops the reader. -/
theorem lex_escaped (read : Chars) (c : Char) (text rest : Chars) :
    lex (.inside read) (escaped (c :: text) ++ rest) =
      if Printable c then lex (.inside (read ++ [c])) (escaped text ++ rest) else none := by
  rw [escaped_cons, List.append_assoc]
  by_cases hspecial : c = '"' ∨ c = '\\'
  · have hprintable : Printable c := by
      rcases hspecial with rfl | rfl <;> decide
    have hbackslash : Mode.step (.inside read) '\\' = some ([], .escape read) := rfl
    have hescape : Mode.step (.escape read) c = some ([], .inside (read ++ [c])) := by
      rcases hspecial with rfl | rfl <;> rfl
    rw [if_pos hspecial, if_pos hprintable, List.cons_append, lex_silent hbackslash,
      List.singleton_append, lex_silent hescape]
  · rw [if_neg hspecial, List.singleton_append]
    obtain ⟨hquote, hbackslash⟩ := not_or.mp hspecial
    split_ifs with hprintable
    · refine lex_silent ?_ _
      rw [Mode.step, if_neg hquote, if_neg hbackslash, if_neg (not_lt.mpr hprintable)]
    · rw [lex, Mode.step, if_neg hquote, if_neg hbackslash, if_pos (not_le.mp hprintable),
        Option.bind_none]

/-- A string is read up to its end. -/
theorem lex_inside {read text : Chars} (htext : AllChars Printable text) (rest : Chars) :
    lex (.inside read) (escaped text ++ rest) = lex (.inside (read ++ text)) rest := by
  induction text generalizing read with
  | nil => rw [escaped, List.flatMap_nil, List.nil_append, List.append_nil]
  | cons c text ih =>
    obtain ⟨hc, htext⟩ := List.forall_mem_cons.mp htext
    rw [lex_escaped, if_pos hc, ih htext, List.append_assoc, List.singleton_append]

theorem lex_string {text : Chars} (htext : AllChars Printable text) (rest : Chars) :
    lex .between (quoted text ++ rest) =
      (lex .between rest).map fun tokens => .string text :: tokens := by
  have hopen : Mode.step .between '"' = some ([], .inside []) := rfl
  rw [quoted, List.cons_append, List.cons_append, lex_silent hopen, List.append_assoc,
    lex_inside htext, List.nil_append, List.singleton_append]
  rfl

end Strings

section Tokens

def Token.IsNumber : Token → Prop
  | .number _ => True
  | _ => False

/-- Both tokens can stand next to each other. -/
def Apart (first second : Token) : Prop := ¬ (first.IsNumber ∧ second.IsNumber)

/-- The characters of a string have the property. -/
def Token.All (p : Char → Prop) : Token → Prop
  | .string text => AllChars p text
  | _ => True

/-- The characters of all strings in the value have the property. -/
def Json.All (p : Char → Prop) (value : Json ℕ) : Prop := ∀ token ∈ value.tokens, token.All p

/-- The text of a token that is no number begins with no digit. -/
theorem text_head {token : Token} (h : ¬ token.IsNumber) (rest : Chars) :
    ∀ c ∈ (token.text ++ rest).head?, c.isDigit = false := by
  cases token with
  | number => exact absurd trivial h
  | openArray | closeArray | openObject | closeObject | colon | comma | string =>
    simp only [Token.text, quoted, List.cons_append, List.head?_cons, Option.mem_some_iff]
    rintro c rfl
    rfl

theorem lex_token {token : Token} (hprintable : token.All Printable) {rest : Chars}
    (hrest : token.IsNumber → ∀ c ∈ rest.head?, c.isDigit = false) :
    lex .between (token.text ++ rest) =
      (lex .between rest).map fun tokens => token :: tokens := by
  cases token with
  | number n => exact lex_number n (hrest trivial)
  | string text => exact lex_string hprintable rest
  | openArray | closeArray | openObject | closeObject | colon | comma => rfl

/-- The texts of tokens that can stand next to each other are read as these tokens. -/
theorem lex_texts {tokens : List Token} (hprintable : ∀ token ∈ tokens, token.All Printable)
    (hapart : tokens.IsChain Apart) {rest : Chars}
    (hrest : ∀ token ∈ tokens.getLast?, token.IsNumber → ∀ c ∈ rest.head?, c.isDigit = false) :
    lex .between (tokens.flatMap Token.text ++ rest) =
      (lex .between rest).map fun more => tokens ++ more := by
  induction tokens with
  | nil => exact Option.map_id'.symm
  | cons token tokens ih =>
    obtain ⟨hfirst, hprintable⟩ := List.forall_mem_cons.mp hprintable
    have hnext : token.IsNumber →
        ∀ c ∈ (tokens.flatMap Token.text ++ rest).head?, c.isDigit = false := by
      intro hnumber
      cases tokens with
      | nil => exact hrest token rfl hnumber
      | cons second tokens =>
        have hsecond : ¬ second.IsNumber := fun h => hapart.rel ⟨hnumber, h⟩
        rw [List.flatMap_cons, List.append_assoc]
        exact text_head hsecond _
    have hlast : ∀ last ∈ tokens.getLast?, last.IsNumber →
        ∀ c ∈ rest.head?, c.isDigit = false := by
      intro last hmem
      cases tokens with
      | nil => cases hmem
      | cons second tokens => exact hrest last hmem
    rw [List.flatMap_cons, List.append_assoc, lex_token hfirst hnext,
      ih hprintable hapart.tail hlast, Option.map_map]
    rfl

/-- Behind tokens and a quotation mark the reader is inside a string. -/
theorem read_quote {tokens : List Token} (hprintable : ∀ token ∈ tokens, token.All Printable)
    (hapart : tokens.IsChain Apart) {rest : Chars} (hrest : lex (.inside []) rest = none) :
    readExact (tokens.flatMap Token.text ++ '"' :: rest) = none := by
  have hquote : Mode.step .between '"' = some ([], .inside []) := rfl
  rw [readExact, lex_texts hprintable hapart, lex_silent hquote, hrest]
  · rfl
  · rintro - - - c hc
    cases Option.mem_some_iff.mp hc
    rfl

end Tokens

section Values

theorem step_number {state : State} {n : ℕ} {next : State}
    (hstep : state.step (.number n) = some next) : ∃ around,
      next = complete (.number n) around := by
  cases state with
  | value around => exact ⟨around, (Option.some.inj hstep).symm⟩
  | firstItem around => exact ⟨.array [] :: around, (Option.some.inj hstep).symm⟩
  | moreItems | firstMember | member | colon | moreMembers | done => cases hstep

theorem complete_number (value : Json ℕ) (around : List Context) (n : ℕ) :
    (complete value around).step (.number n) = none := by
  cases around with
  | nil => rfl
  | cons context around => cases context <;> rfl

/-- No reader of tokens takes two numbers in a row. -/
theorem apart_of_accepted {tokens : List Token} {state last : State}
    (haccepted : tokens.foldlM State.step state = some last) : tokens.IsChain Apart := by
  induction tokens generalizing state with
  | nil => exact .nil
  | cons token tokens ih =>
    rw [List.foldlM_cons] at haccepted
    obtain ⟨next, hstep, hrest⟩ := Option.bind_eq_some_iff.mp haccepted
    refine List.isChain_cons.mpr ⟨fun second hsecond => ?_, ih hrest⟩
    rintro ⟨hfirst, hnumber⟩
    cases token with
    | number n =>
      obtain ⟨around, rfl⟩ := step_number hstep
      obtain ⟨m, rfl⟩ : ∃ m, second = .number m := by
        cases second with
        | number m => exact ⟨m, rfl⟩
        | openArray | closeArray | openObject | closeObject | colon | comma | string =>
          exact hnumber.elim
      obtain ⟨more, rfl⟩ := List.head?_eq_some_iff.mp hsecond
      rw [List.foldlM_cons, complete_number] at hrest
      cases hrest
    | openArray | closeArray | openObject | closeObject | colon | comma | string =>
      exact hfirst.elim

/-- What holds of the numbers and the strings, and of an array or an object when it holds of the
values in it, holds of every value. -/
theorem Json.induction {P : Json ℕ → Prop} (number : ∀ n, P (.number n))
    (string : ∀ text, P (.string text))
    (array : ∀ items, (∀ item ∈ items, P item) → P (.array items))
    (object : ∀ members, (∀ member ∈ members, P member.2) → P (.object members)) :
    ∀ value, P value
  | .number n => number n
  | .string text => string text
  | .array items => array items fun item _ => Json.induction number string array object item
  | .object members =>
    object members fun member _ => Json.induction number string array object member.2
termination_by value => value
decreasing_by
  · have hlt := List.sizeOf_lt_of_mem ‹item ∈ items›
    simp only [Json.array.sizeOf_spec]
    omega
  · have hlt := List.sizeOf_lt_of_mem ‹member ∈ members›
    have hvalue : sizeOf member = 1 + sizeOf member.1 + sizeOf member.2 := by
      cases member
      rfl
    simp only [Json.object.sizeOf_spec]
    omega

/-- The reader takes the tokens of a value for it, in any context. -/
def Accepts (value : Json ℕ) : Prop :=
  ∀ around, value.tokens.foldlM State.step (.value around) = some (complete value around)

theorem accepts_moreItems {items : List (Json ℕ)} (hitems : ∀ item ∈ items, Accepts item)
    (before : List (Json ℕ)) (around : List Context) :
    (moreItems items).foldlM State.step (.moreItems before around) =
      some (complete (.array (before ++ items)) around) := by
  induction items generalizing before with
  | nil => simp [moreItems, State.step]
  | cons item items ih =>
    obtain ⟨hitem, hitems⟩ := List.forall_mem_cons.mp hitems
    have hcomma : State.step (.moreItems before around) .comma =
        some (.value (.array before :: around)) := rfl
    rw [moreItems, List.cons_append, List.foldlM_cons, hcomma, Option.bind_eq_bind,
      Option.bind_some, List.foldlM_append, hitem, Option.bind_eq_bind, Option.bind_some, complete,
      ih hitems, List.append_assoc, List.singleton_append]

theorem accepts_array {items : List (Json ℕ)} (hitems : ∀ item ∈ items, Accepts item) :
    Accepts (.array items) := by
  intro around
  rw [Json.tokens]
  cases items with
  | nil => rfl
  | cons item items =>
    obtain ⟨hitem, hitems⟩ := List.forall_mem_cons.mp hitems
    have hopen : State.step (.value around) .openArray = some (.firstItem around) := rfl
    -- no value begins with the end of an array
    have hfirst : item.tokens.foldlM State.step (.firstItem around) =
        item.tokens.foldlM State.step (.value (.array [] :: around)) := by
      cases item <;> rfl
    rw [List.foldlM_cons, hopen, Option.bind_eq_bind, Option.bind_some, itemTokens,
      List.foldlM_append, hfirst, hitem, Option.bind_eq_bind, Option.bind_some]
    exact accepts_moreItems hitems [item] around

theorem accepts_moreMembers {members : List (Chars × Json ℕ)}
    (hmembers : ∀ member ∈ members, Accepts member.2) (before : List (Chars × Json ℕ))
    (around : List Context) :
    (moreMembers members).foldlM State.step (.moreMembers before around) =
      some (complete (.object (before ++ members)) around) := by
  induction members generalizing before with
  | nil => simp [moreMembers, State.step]
  | cons member members ih =>
    obtain ⟨name, value⟩ := member
    obtain ⟨hvalue, hmembers⟩ := List.forall_mem_cons.mp hmembers
    have hname : [Token.comma, .string name, .colon].foldlM State.step
        (.moreMembers before around) = some (.value (.object before name :: around)) := rfl
    rw [moreMembers, show Token.comma :: .string name :: .colon :: value.tokens ++
        moreMembers members = [Token.comma, .string name, .colon] ++
          (value.tokens ++ moreMembers members) from rfl, List.foldlM_append, hname,
      Option.bind_eq_bind, Option.bind_some, List.foldlM_append, hvalue, Option.bind_eq_bind,
      Option.bind_some, complete, ih hmembers, List.append_assoc, List.singleton_append]

theorem accepts_object {members : List (Chars × Json ℕ)}
    (hmembers : ∀ member ∈ members, Accepts member.2) : Accepts (.object members) := by
  intro around
  rw [Json.tokens]
  cases members with
  | nil => rfl
  | cons member members =>
    obtain ⟨name, value⟩ := member
    obtain ⟨hvalue, hmembers⟩ := List.forall_mem_cons.mp hmembers
    have hname : [Token.openObject, .string name, .colon].foldlM State.step (.value around) =
        some (.value (.object [] name :: around)) := rfl
    rw [memberTokens, show Token.openObject :: (.string name :: .colon :: value.tokens ++
        moreMembers members) = [Token.openObject, .string name, .colon] ++
          (value.tokens ++ moreMembers members) from rfl, List.foldlM_append, hname,
      Option.bind_eq_bind, Option.bind_some, List.foldlM_append, hvalue, Option.bind_eq_bind,
      Option.bind_some]
    exact accepts_moreMembers hmembers [(name, value)] around

theorem accepts_tokens (value : Json ℕ) : Accepts value := by
  induction value using Json.induction with
  | number n => exact fun _ => rfl
  | string text => exact fun _ => rfl
  | array items ih => exact accepts_array ih
  | object members ih => exact accepts_object ih

theorem parse_tokens (value : Json ℕ) : parse value.tokens = some value := by
  rw [parse, accepts_tokens]
  rfl

/-- What is written stands in the text. -/
theorem read_render {value : Json ℕ} (hprintable : value.All Printable) :
    readExact value.render = some value := by
  have hlex := @lex_texts value.tokens hprintable (apart_of_accepted (accepts_tokens value [])) []
    (fun _ _ _ c hc => by cases hc)
  rw [List.append_nil] at hlex
  rw [readExact, Json.render, hlex]
  exact (congrArg parse (List.append_nil _)).trans (parse_tokens value)

end Values

section Rounding

variable {ν ν' : Type}

theorem mapItems_eq (f : ν → ν') (items : List (Json ν)) :
    mapItems f items = items.map (Json.map f) := by
  induction items with
  | nil => rfl
  | cons item items ih => rw [mapItems, ih, List.map_cons]

theorem mapMembers_eq (f : ν → ν') (members : List (Chars × Json ν)) :
    mapMembers f members = members.map fun member => (member.1, member.2.map f) := by
  induction members with
  | nil => rfl
  | cons member members ih =>
    obtain ⟨name, value⟩ := member
    rw [mapMembers, ih, List.map_cons]

/-- A number of the text is below the bound. -/
def Token.Below (bound : ℕ) : Token → Prop
  | .number n => n < bound
  | .string _ | .openArray | .closeArray | .openObject | .closeObject | .colon | .comma => True

instance (bound : ℕ) : DecidablePred (Token.Below bound)
  | .number n => inferInstanceAs (Decidable (n < bound))
  | .string _ | .openArray | .closeArray | .openObject | .closeObject | .colon | .comma =>
    .isTrue trivial

theorem tokens_item {items : List (Json ℕ)} {item : Json ℕ} (hitem : item ∈ items) :
    item.tokens ⊆ (Json.array items).tokens := by
  have hmore : ∀ items : List (Json ℕ), item ∈ items → item.tokens ⊆ moreItems items := by
    intro items hitem
    induction items with
    | nil => cases hitem
    | cons first items ih =>
      rw [moreItems, List.cons_append]
      refine List.subset_cons_of_subset _ ?_
      rcases List.mem_cons.mp hitem with rfl | hitem
      · exact List.subset_append_left _ _
      · exact List.Subset.trans (ih hitem) (List.subset_append_right _ _)
  rw [Json.tokens]
  refine List.subset_cons_of_subset _ ?_
  cases items with
  | nil => cases hitem
  | cons first items =>
    rw [itemTokens]
    rcases List.mem_cons.mp hitem with rfl | hitem
    · exact List.subset_append_left _ _
    · exact List.Subset.trans (hmore items hitem) (List.subset_append_right _ _)

theorem tokens_member {members : List (Chars × Json ℕ)} {member : Chars × Json ℕ}
    (hmember : member ∈ members) : member.2.tokens ⊆ (Json.object members).tokens := by
  have hmore : ∀ members : List (Chars × Json ℕ), member ∈ members →
      member.2.tokens ⊆ moreMembers members := by
    intro members hmember
    induction members with
    | nil => cases hmember
    | cons first members ih =>
      obtain ⟨name, value⟩ := first
      rw [moreMembers, List.cons_append, List.cons_append, List.cons_append]
      refine List.subset_cons_of_subset _ (List.subset_cons_of_subset _
        (List.subset_cons_of_subset _ ?_))
      rcases List.mem_cons.mp hmember with rfl | hmember
      · exact List.subset_append_left _ _
      · exact List.Subset.trans (ih hmember) (List.subset_append_right _ _)
  rw [Json.tokens]
  refine List.subset_cons_of_subset _ ?_
  cases members with
  | nil => cases hmember
  | cons first members =>
    obtain ⟨name, value⟩ := first
    rw [memberTokens, List.cons_append, List.cons_append]
    refine List.subset_cons_of_subset _ (List.subset_cons_of_subset _ ?_)
    rcases List.mem_cons.mp hmember with rfl | hmember
    · exact List.subset_append_left _ _
    · exact List.Subset.trans (hmore members hmember) (List.subset_append_right _ _)

/-- A value with numbers of up to 53 bits is read as it is. -/
theorem map_nearest {value : Json ℕ} (h : ∀ token ∈ value.tokens, token.Below (2 ^ 53)) :
    (value.map nearest).map Double.number = value.map some := by
  induction value using Json.induction with
  | number n =>
    rw [Json.map, Json.map, Json.map, nearest_exact (h _ (List.mem_singleton.mpr rfl))]
  | string text => rfl
  | array items ih =>
    rw [Json.map, Json.map, Json.map, mapItems_eq, mapItems_eq, mapItems_eq, List.map_map]
    congr 1
    exact List.map_congr_left fun item hitem =>
      ih item hitem fun token htoken => h token (tokens_item hitem htoken)
  | object members ih =>
    rw [Json.map, Json.map, Json.map, mapMembers_eq, mapMembers_eq, mapMembers_eq, List.map_map]
    congr 1
    exact List.map_congr_left fun member hmember => congrArg (Prod.mk member.1)
      (ih member hmember fun token htoken => h token (tokens_member hmember htoken))

end Rounding

section Texts

theorem render_number (n : ℕ) : (Json.number n).render = Nat.toDigits 10 n := List.append_nil _

theorem render_string (text : Chars) : (Json.string text).render = quoted text := List.append_nil _

theorem intercalate_cons (first : Chars) (texts : List Chars) :
    [','].intercalate (first :: texts) =
      first ++ texts.flatMap fun text => ',' :: text := by
  induction texts generalizing first with
  | nil => simp
  | cons second texts ih =>
    rw [List.intercalate_cons_cons, ih, List.flatMap_cons, List.append_assoc]
    rfl

/-- The text of an array: the items between brackets, with commas. -/
theorem render_array (items : List (Json ℕ)) :
    (Json.array items).render =
      ['['] ++ [','].intercalate (items.map Json.render) ++ [']'] := by
  have hmore : ∀ items : List (Json ℕ), (moreItems items).flatMap Token.text =
      ((items.map Json.render).flatMap fun text => ',' :: text) ++ [']'] := by
    intro items
    induction items with
    | nil => rfl
    | cons item items ih =>
      rw [moreItems, List.cons_append, List.flatMap_cons, List.flatMap_append, ih, List.map_cons,
        List.flatMap_cons, List.append_assoc]
      rfl
  cases items with
  | nil => rfl
  | cons item items =>
    rw [Json.render, Json.tokens, List.flatMap_cons, itemTokens, List.flatMap_append, hmore,
      List.map_cons, intercalate_cons, List.append_assoc, List.append_assoc]
    rfl

theorem render_object (members : List (Chars × Json ℕ)) :
    (Json.object members).render = ['\x7b'] ++ [','].intercalate
      (members.map fun member => quoted member.1 ++ [':'] ++ member.2.render) ++
        ['\x7d'] := by
  have hmore : ∀ members : List (Chars × Json ℕ), (moreMembers members).flatMap Token.text =
      ((members.map fun member => quoted member.1 ++ [':'] ++ member.2.render).flatMap
        fun text => ',' :: text) ++ ['\x7d'] := by
    intro members
    induction members with
    | nil => rfl
    | cons member members ih =>
      obtain ⟨name, value⟩ := member
      rw [moreMembers, List.cons_append, List.cons_append, List.cons_append, List.flatMap_cons,
        List.flatMap_cons, List.flatMap_cons, List.flatMap_append, ih, List.map_cons,
        List.flatMap_cons]
      simp [Token.text, Json.render]
  cases members with
  | nil => rfl
  | cons member members =>
    obtain ⟨name, value⟩ := member
    rw [Json.render, Json.tokens, List.flatMap_cons, memberTokens, List.cons_append,
      List.cons_append, List.flatMap_cons, List.flatMap_cons, List.flatMap_append, hmore,
      List.map_cons, intercalate_cons]
    simp [Token.text, Json.render]

end Texts

section Characters

variable {p q : Char → Prop}

theorem all_number (n : ℕ) : (Json.number n).All p := by
  intro token htoken
  rw [List.mem_singleton.mp htoken]
  trivial

theorem all_string {text : Chars} (h : AllChars p text) : (Json.string text).All p := by
  intro token htoken
  rw [List.mem_singleton.mp htoken]
  exact h

theorem all_array {items : List (Json ℕ)} (h : ∀ item ∈ items, item.All p) :
    (Json.array items).All p := by
  have hmore : ∀ items : List (Json ℕ), (∀ item ∈ items, item.All p) →
      ∀ token ∈ moreItems items, token.All p := by
    intro items h
    induction items with
    | nil => simp [moreItems, Token.All]
    | cons item items ih =>
      obtain ⟨hitem, hitems⟩ := List.forall_mem_cons.mp h
      rw [moreItems, List.cons_append, List.forall_mem_cons, List.forall_mem_append]
      exact ⟨trivial, hitem, ih hitems⟩
  rw [Json.All, Json.tokens, List.forall_mem_cons]
  refine ⟨trivial, ?_⟩
  cases items with
  | nil => simp [itemTokens, Token.All]
  | cons item items =>
    obtain ⟨hitem, hitems⟩ := List.forall_mem_cons.mp h
    rw [itemTokens, List.forall_mem_append]
    exact ⟨hitem, hmore items hitems⟩

theorem all_object {members : List (Chars × Json ℕ)}
    (hnames : ∀ member ∈ members, AllChars p member.1)
    (hvalues : ∀ member ∈ members, member.2.All p) : (Json.object members).All p := by
  have hmore : ∀ members : List (Chars × Json ℕ), (∀ member ∈ members, AllChars p member.1) →
      (∀ member ∈ members, member.2.All p) → ∀ token ∈ moreMembers members, token.All p := by
    intro members hnames hvalues
    induction members with
    | nil => simp [moreMembers, Token.All]
    | cons member members ih =>
      obtain ⟨name, value⟩ := member
      obtain ⟨hname, hnames⟩ := List.forall_mem_cons.mp hnames
      obtain ⟨hvalue, hvalues⟩ := List.forall_mem_cons.mp hvalues
      rw [moreMembers, List.cons_append, List.cons_append, List.cons_append,
        List.forall_mem_cons, List.forall_mem_cons, List.forall_mem_cons, List.forall_mem_append]
      exact ⟨trivial, hname, trivial, hvalue, ih hnames hvalues⟩
  rw [Json.All, Json.tokens, List.forall_mem_cons]
  refine ⟨trivial, ?_⟩
  cases members with
  | nil => simp [memberTokens, Token.All]
  | cons member members =>
    obtain ⟨name, value⟩ := member
    obtain ⟨hname, hnames⟩ := List.forall_mem_cons.mp hnames
    obtain ⟨hvalue, hvalues⟩ := List.forall_mem_cons.mp hvalues
    rw [memberTokens, List.cons_append, List.cons_append, List.forall_mem_cons,
      List.forall_mem_cons, List.forall_mem_append]
    exact ⟨hname, trivial, hvalue, hmore members hnames hvalues⟩

theorem Token.All.mono {token : Token} (h : token.All p) (himp : ∀ c, p c → q c) :
    token.All q := by
  cases token with
  | string => exact fun c hc => himp c (h c hc)
  | number | openArray | closeArray | openObject | closeObject | colon | comma => trivial

/-- The characters that stand around strings and in numbers. -/
def Structural (c : Char) : Prop := c ∈ "[]\x7b\x7d:,\"\\".toList ∨ c.isDigit = true

theorem all_token {token : Token} (hstructural : ∀ c, Structural c → p c) (h : token.All p) :
    AllChars p token.text := by
  cases token with
  | number n =>
    exact fun c hc => hstructural c (.inr (Nat.isDigit_of_mem_toDigits (by decide) (by decide) hc))
  | string text =>
    have hquote : p '"' := hstructural _ (.inl (by decide))
    rw [Token.text, quoted, List.cons_append, AllChars, List.forall_mem_cons,
      List.forall_mem_append, List.forall_mem_singleton]
    refine ⟨hquote, fun c hc => ?_, hquote⟩
    obtain ⟨d, hd, hmem⟩ := List.mem_flatMap.mp hc
    split at hmem
    · rcases List.mem_cons.mp hmem with rfl | hmem
      · exact hstructural _ (.inl (by decide))
      · exact List.mem_singleton.mp hmem ▸ h d hd
    · exact List.mem_singleton.mp hmem ▸ h d hd
  | openArray | closeArray | openObject | closeObject | colon | comma =>
    rw [Token.text, AllChars, List.forall_mem_singleton]
    exact hstructural _ (.inl (by decide))

theorem all_texts {tokens : List Token} (hstructural : ∀ c, Structural c → p c)
    (h : ∀ token ∈ tokens, token.All p) : AllChars p (tokens.flatMap Token.text) := by
  intro c hc
  obtain ⟨token, htoken, hmem⟩ := List.mem_flatMap.mp hc
  exact all_token hstructural (h token htoken) c hmem

theorem structural_bounds {c : Char} (h : Structural c) : 32 ≤ c.toNat ∧ c.toNat < 128 := by
  rcases h with h | h
  · have hbounds : AllChars (fun c => 32 ≤ c.toNat ∧ c.toNat < 128)
        "[]\x7b\x7d:,\"\\".toList := by decide
    exact hbounds c h
  · rw [Char.isDigit, Bool.and_eq_true, decide_eq_true_iff, decide_eq_true_iff] at h
    exact ⟨le_trans (by decide) h.1, lt_of_le_of_lt h.2 (by decide)⟩

end Characters

section Lines

/-- A line break is a control character. -/
theorem newline_notMem {text : Chars} (h : AllChars Printable text) : '\n' ∉ text := fun hmem =>
  absurd (h _ hmem) (by decide)

/-- The values of a text with one value on each line that is not empty. -/
def readLines (text : Chars) : Option (List (Json Double)) :=
  ((text.splitOn '\n').filter fun line => line ≠ []).mapM read

/-- The text with the values on lines of their own. -/
def renderLines (values : List (Json ℕ)) : Chars :=
  values.flatMap fun value => value.render ++ ['\n']

theorem splitOn_lines {lines : List Chars} (h : ∀ line ∈ lines, '\n' ∉ line) :
    (lines.flatMap fun line => line ++ ['\n']).splitOn '\n' = lines ++ [[]] := by
  induction lines with
  | nil => rfl
  | cons line lines ih =>
    obtain ⟨hline, hlines⟩ := List.forall_mem_cons.mp h
    rw [List.flatMap_cons, List.append_assoc, List.singleton_append,
      List.splitOn_append_cons_self_of_not_mem hline, ih hlines, List.cons_append]

theorem mapM_read {values : List (Json ℕ)} (h : ∀ value ∈ values, value.All Printable) :
    values.mapM (read ∘ Json.render) = some (values.map (Json.map nearest)) := by
  induction values with
  | nil => rfl
  | cons value values ih =>
    obtain ⟨hvalue, hvalues⟩ := List.forall_mem_cons.mp h
    rw [List.mapM_cons, Function.comp_apply, read, read_render hvalue, ih hvalues]
    rfl

/-- What is written in lines reads back, with its numbers rounded. -/
theorem readLines_render {values : List (Json ℕ)} (h : ∀ value ∈ values, value.All Printable) :
    readLines (renderLines values) = some (values.map (Json.map nearest)) := by
  have hsplit : (renderLines values).splitOn '\n' = values.map Json.render ++ [[]] := by
    have hlines : ∀ line ∈ values.map Json.render, '\n' ∉ line := by
      intro line hline
      obtain ⟨value, hvalue, rfl⟩ := List.mem_map.mp hline
      exact newline_notMem (all_texts (fun c hc => (structural_bounds hc).1) (h value hvalue))
    rw [← splitOn_lines hlines, List.flatMap_map]
    rfl
  have hfull : (values.map Json.render).filter (fun line => line ≠ []) =
      values.map Json.render := by
    rw [List.filter_eq_self]
    intro line hline
    obtain ⟨value, hvalue, rfl⟩ := List.mem_map.mp hline
    have hread := read_render (h value hvalue)
    refine decide_eq_true ?_
    intro hempty
    rw [hempty] at hread
    cases hread
  rw [readLines, hsplit, List.filter_append, hfull]
  have hnone : ([[]] : List Chars).filter (fun line => line ≠ []) = [] := rfl
  rw [hnone, List.append_nil, List.mapM_map]
  exact mapM_read h

/-- A line with an open string that has a control character is not read, whether the line ends
there or behind it. -/
theorem lex_line {read text : Chars} (htext : ¬ AllChars Printable text) (rest : Chars) :
    lex (.inside read) ((escaped text ++ rest).takeWhile fun c => c ≠ '\n') = none := by
  induction text generalizing read with
  | nil => exact absurd (fun c hc => absurd hc List.not_mem_nil) htext
  | cons c text ih =>
    by_cases hbreak : c = '\n'
    · subst hbreak
      rfl
    · have hpiece : ∀ d ∈ escaped [c], decide (d ≠ '\n') = true := by
        intro d hd
        rw [escaped, List.flatMap_singleton] at hd
        split at hd
        · rcases List.mem_cons.mp hd with rfl | hd
          · rfl
          · rw [List.mem_singleton.mp hd]
            exact decide_eq_true hbreak
        · rw [List.mem_singleton.mp hd]
          exact decide_eq_true hbreak
      have hone : escaped ([c] ++ text) = escaped [c] ++ escaped text := List.flatMap_append
      have hsplit : escaped (c :: text) ++ rest = escaped [c] ++ (escaped text ++ rest) :=
        (congrArg (· ++ rest) hone).trans (List.append_assoc _ _ _)
      rw [hsplit, List.takeWhile_append_of_pos hpiece, lex_escaped]
      split
      · rename_i hc
        exact ih fun hrest => htext (List.forall_mem_cons.mpr ⟨hc, hrest⟩)
      · rfl

/-- A text is not read when its first line is not. -/
theorem readLines_first {text : Chars}
    (hne : text.takeWhile (fun c => c ≠ '\n') ≠ [])
    (h : read (text.takeWhile fun c => c ≠ '\n') = none) : readLines text = none := by
  obtain ⟨more, hsplit⟩ : ∃ more, text.splitOn '\n' =
      text.takeWhile (fun c => c ≠ '\n') :: more := by
    clear hne h
    induction text with
    | nil => exact ⟨[], rfl⟩
    | cons c text ih =>
      obtain ⟨more, hmore⟩ := ih
      rw [List.splitOn_cons_eq_if_modifyHead]
      by_cases hbreak : c = '\n'
      · subst hbreak
        exact ⟨_, rfl⟩
      · rw [if_neg (by simpa using hbreak), hmore,
          List.takeWhile_cons_of_pos (by simpa using hbreak)]
        exact ⟨more, rfl⟩
  rw [readLines, hsplit, List.filter_cons_of_pos (p := fun line : Chars => line ≠ [])
    (decide_eq_true hne), List.mapM_cons, h]
  rfl

end Lines

end Leka.JsonTexts
