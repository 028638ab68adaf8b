import Leka.Numerals
import Mathlib.Tactic.Common

/-!
UTF-8 as a reader of files decodes it, byte by byte. Whatever is no character becomes U+FFFD: a
byte that cannot begin one, and the longest beginning of one that the next byte or the end cuts
off. Bytes below 128 stand for themselves everywhere, so a text can be taken apart at them. Nothing
here depends on the program that uses it.
-/

namespace Leka.Utf8Texts

open Numerals

/-- A character that has begun: the number so far, how many bytes are missing behind the next one,
and the bounds for that one. Every number that it can end in is a character, and not an ASCII
one. -/
structure Begun where
  codePoint : ℕ
  more : ℕ
  lower : ℕ
  upper : ℕ
  lower_le : 128 ≤ lower
  upper_lt : upper < 192
  valid : ∀ v, (codePoint * 64 + (lower - 128)) * 64 ^ more ≤ v →
    v < (codePoint * 64 + (upper - 127)) * 64 ^ more → v.isValidChar ∧ 128 ≤ v

/-- Where the decoder is: between two characters, or in one. -/
inductive State
  | between
  | inside (begun : Begun)

/-- What stands for bytes that are no character. -/
def replacement : Char := Char.ofNat 0xFFFD

/-- The character that a byte from 128 on begins. Of the second bytes behind some first ones those
are excluded that would make a number too small, a surrogate or a number too large. -/
def beginning (lead : ℕ) : Option Begun :=
  if h : 0xC2 ≤ lead ∧ lead ≤ 0xDF then some {
    codePoint := lead - 0xC0, more := 0, lower := 0x80, upper := 0xBF
    lower_le := by omega
    upper_lt := by omega
    valid := by
      intro v hle hlt
      exact ⟨Or.inl (by omega), by omega⟩ }
  else if h : 0xE0 ≤ lead ∧ lead ≤ 0xEF then some {
    codePoint := lead - 0xE0, more := 1
    lower := if lead = 0xE0 then 0xA0 else 0x80
    upper := if lead = 0xED then 0x9F else 0xBF
    lower_le := by split <;> omega
    upper_lt := by split <;> omega
    valid := by
      intro v hle hlt
      rw [Nat.isValidChar]
      split_ifs at hle hlt <;> omega }
  else if h : 0xF0 ≤ lead ∧ lead ≤ 0xF4 then some {
    codePoint := lead - 0xF0, more := 2
    lower := if lead = 0xF0 then 0x90 else 0x80
    upper := if lead = 0xF4 then 0x8F else 0xBF
    lower_le := by split <;> omega
    upper_lt := by split <;> omega
    valid := by
      intro v hle hlt
      rw [Nat.isValidChar]
      split_ifs at hle hlt <;> omega }
  else none

/-- The byte goes on with the character. -/
def Begun.Takes (begun : Begun) (b : UInt8) : Prop :=
  begun.lower ≤ b.toNat ∧ b.toNat ≤ begun.upper

instance (begun : Begun) (b : UInt8) : Decidable (begun.Takes b) :=
  inferInstanceAs (Decidable (_ ∧ _))

section Bounds

variable {begun : Begun} {b : UInt8}

theorem Begun.Takes.valid (h : begun.Takes b) {v : ℕ}
    (hle : (begun.codePoint * 64 + (b.toNat - 128)) * 64 ^ begun.more ≤ v)
    (hlt : v < (begun.codePoint * 64 + (b.toNat - 128) + 1) * 64 ^ begun.more) :
    v.isValidChar ∧ 128 ≤ v := by
  obtain ⟨hlower, hupper⟩ := h
  have hleast := begun.lower_le
  refine begun.valid v (le_trans ?_ hle) (lt_of_lt_of_le hlt ?_)
  · exact Nat.mul_le_mul_right _ (by omega)
  · exact Nat.mul_le_mul_right _ (by omega)

end Bounds

/-- The character with one more byte, or complete. -/
def Begun.take (begun : Begun) (b : UInt8) (h : begun.Takes b) : List Char × State :=
  if hmore : begun.more = 0 then
    ([Char.ofNatAux (begun.codePoint * 64 + (b.toNat - 128))
      (h.valid (by rw [hmore]; omega) (by rw [hmore]; omega)).1], .between)
  else ([], .inside {
    codePoint := begun.codePoint * 64 + (b.toNat - 128)
    more := begun.more - 1, lower := 0x80, upper := 0xBF
    lower_le := by omega
    upper_lt := by omega
    valid := by
      intro v hle hlt
      have hpow : 64 * 64 ^ (begun.more - 1) = 64 ^ begun.more := by
        rw [← pow_succ', Nat.sub_add_cancel (by omega)]
      refine h.valid (le_trans ?_ hle) (lt_of_lt_of_le hlt ?_)
      · rw [← hpow, ← Nat.mul_assoc]
        exact Nat.mul_le_mul_right _ (by omega)
      · rw [← hpow, ← Nat.mul_assoc]
        exact Nat.mul_le_mul_right _ (by omega) })

/-- A byte between two characters. -/
def first (b : UInt8) : List Char × State :=
  if b.toNat < 128 then ([Char.ofNat b.toNat], .between)
  else match beginning b.toNat with
    | some begun => ([], .inside begun)
    | none => ([replacement], .between)

/-- One byte: the characters that end with it, and where it leads. A byte that does not go on with
a character is read as if it stood between two. -/
def State.step : State → UInt8 → List Char × State
  | .between, b => first b
  | .inside begun, b =>
    if h : begun.Takes b then begun.take b h
    else (replacement :: (first b).1, (first b).2)

/-- The end of the text. -/
def State.finish : State → List Char
  | .between => []
  | .inside _ => [replacement]

def decodeFrom : State → Text → List Char
  | state, [] => state.finish
  | state, b :: text => (state.step b).1 ++ decodeFrom (state.step b).2 text

/-- The characters of a text. -/
def decode (text : Text) : List Char := decodeFrom .between text

/-- The characters of a file. A mark in front of them that tells of the encoding is skipped. -/
def textOf (file : Text) : List Char :=
  decode (if [0xEF, 0xBB, 0xBF] <+: file then file.drop 3 else file)

/-- The bytes of a text of ASCII characters. -/
def asciiText (chars : List Char) : Text := chars.map ascii

section Ascii

variable {state : State} {b : UInt8}

/-- A byte below 128 ends whatever has begun, and stands for itself. -/
theorem step_ascii (hb : b.toNat < 128) :
    state.step b = (state.finish ++ [Char.ofNat b.toNat], .between) := by
  have hfirst : first b = ([Char.ofNat b.toNat], .between) := if_pos hb
  cases state with
  | between => exact hfirst
  | inside begun =>
    have hleast := begun.lower_le
    have hnot : ¬ begun.Takes b := fun h => by
      have hlower := h.1
      omega
    rw [State.step, dif_neg hnot, hfirst]
    rfl

/-- A file that begins with a byte below 128 has no mark. -/
theorem textOf_ascii (hb : b.toNat < 128) (rest : Text) :
    textOf (b :: rest) = decode (b :: rest) := by
  have hnone : ¬ [0xEF, 0xBB, 0xBF] <+: b :: rest := by
    rintro ⟨more, hsame⟩
    rw [← (List.cons.inj hsame).1] at hb
    exact absurd hb (by decide)
  rw [textOf, if_neg hnone]

theorem decodeFrom_ascii (hb : b.toNat < 128) (state : State) (text : Text) :
    decodeFrom state (b :: text) = state.finish ++ Char.ofNat b.toNat :: decode text := by
  rw [decodeFrom, step_ascii hb, List.append_assoc]
  rfl

/-- A text can be taken apart in front of a byte below 128. -/
theorem decodeFrom_append (hb : b.toNat < 128) (state : State) (text rest : Text) :
    decodeFrom state (text ++ b :: rest) =
      decodeFrom state text ++ Char.ofNat b.toNat :: decode rest := by
  induction text generalizing state with
  | nil => exact decodeFrom_ascii hb state rest
  | cons c text ih => rw [List.cons_append, decodeFrom, decodeFrom, ih, List.append_assoc]

/-- The characters of bytes from 128 on are none below 128. -/
theorem step_wide (hb : 128 ≤ b.toNat) : ∀ c ∈ (state.step b).1, 128 ≤ c.toNat := by
  have hfirst : ∀ c ∈ (first b).1, 128 ≤ c.toNat := by
    rw [first, if_neg (by omega)]
    cases beginning b.toNat with
    | some begun => simp
    | none =>
      intro c hc
      rw [List.mem_singleton.mp hc]
      decide
  cases state with
  | between => exact hfirst
  | inside begun =>
    rw [State.step]
    split_ifs with h
    · by_cases hmore : begun.more = 0
      · intro c hc
        have hwide := (@Begun.Takes.valid _ _ h (begun.codePoint * 64 + (b.toNat - 128))
          (by rw [hmore]; omega) (by rw [hmore]; omega)).2
        rw [Begun.take, dif_pos hmore] at hc
        rw [List.mem_singleton.mp hc]
        exact hwide
      · rw [Begun.take, dif_neg hmore]
        simp
    · exact List.forall_mem_cons.mpr ⟨by decide, hfirst⟩

theorem finish_wide : ∀ c ∈ state.finish, 128 ≤ c.toNat := by
  cases state with
  | between => simp [State.finish]
  | inside => simp [State.finish, replacement]

/-- Bytes below 128 in front of a rest. -/
theorem decodeFrom_asciis {front : Text} (hfront : ∀ b ∈ front, b.toNat < 128) (hne : front ≠ [])
    (state : State) (rest : Text) : decodeFrom state (front ++ rest) =
      state.finish ++ (front.map fun b => Char.ofNat b.toNat) ++ decode rest := by
  obtain ⟨b, front, rfl⟩ := List.exists_cons_of_ne_nil hne
  obtain ⟨hb, hfront⟩ := List.forall_mem_cons.mp hfront
  have hmore : ∀ front : Text, (∀ b ∈ front, b.toNat < 128) → decode (front ++ rest) =
      (front.map fun b => Char.ofNat b.toNat) ++ decode rest := by
    intro front hfront
    induction front with
    | nil => rfl
    | cons c front ih =>
      obtain ⟨hc, hfront⟩ := List.forall_mem_cons.mp hfront
      rw [List.cons_append, decode, decodeFrom_ascii hc, ih hfront]
      rfl
  rw [List.cons_append, decodeFrom_ascii hb, hmore front hfront, List.map_cons, List.append_assoc]
  rfl

theorem asciiText_append (front rest : List Char) :
    asciiText (front ++ rest) = asciiText front ++ asciiText rest := List.map_append

theorem asciiText_intercalate (c : Char) (texts : List (List Char)) :
    asciiText ([c].intercalate texts) = [ascii c].intercalate (texts.map asciiText) := by
  induction texts with
  | nil => rfl
  | cons text texts ih =>
    cases texts with
    | nil => simp
    | cons next texts =>
      have hmore : (text :: next :: texts).map asciiText =
          asciiText text :: asciiText next :: texts.map asciiText := rfl
      rw [List.intercalate_cons_cons, asciiText_append, asciiText_append, ih, hmore,
        List.intercalate_cons_cons]
      rfl

theorem ofNat_ascii {c : Char} (hc : c.toNat < 128) : Char.ofNat (ascii c).toNat = c := by
  rw [ascii, UInt8.toNat_ofNat_of_lt' (by rw [UInt8.size]; omega), Char.ofNat_toNat]

theorem ofNat_eq_iff {c : Char} (hb : b.toNat < 128) (hc : c.toNat < 128) :
    Char.ofNat b.toNat = c ↔ b = ascii c := by
  constructor
  · rintro rfl
    have hvalid : b.toNat.isValidChar := Or.inl (by omega)
    have hvalue : (Char.ofNat b.toNat).toNat = b.toNat := by
      rw [Char.ofNat, dif_pos hvalid]
      rfl
    rw [ascii, hvalue, UInt8.ofNat_toNat]
  · rintro rfl
    exact ofNat_ascii hc

/-- ASCII characters are read as they were written. -/
theorem decode_asciiText {chars : List Char} (hchars : ∀ c ∈ chars, c.toNat < 128) (rest : Text) :
    decode (asciiText chars ++ rest) = chars ++ decode rest := by
  rcases eq_or_ne chars [] with rfl | hne
  · rfl
  · have hfront : ∀ b ∈ asciiText chars, b.toNat < 128 := by
      intro b hb
      obtain ⟨c, hc, rfl⟩ := List.mem_map.mp hb
      rw [ascii, UInt8.toNat_ofNat_of_lt' (by rw [UInt8.size]; have := hchars c hc; omega)]
      exact hchars c hc
    have hsame : (asciiText chars).map (fun b => Char.ofNat b.toNat) = chars := by
      rw [asciiText, List.map_map]
      exact (List.map_congr_left fun c hc => ofNat_ascii (hchars c hc)).trans (List.map_id chars)
    have hne' : asciiText chars ≠ [] := fun hnil => hne (List.map_eq_nil_iff.mp hnil)
    rw [decode, decodeFrom_asciis hfront hne', hsame]
    rfl

/-- Bytes below 128 that are replaced by some such bytes become the characters of these. -/
theorem decodeFrom_flatMap {f : UInt8 → Text} {g : Char → List Char}
    (hne : ∀ b, f b ≠ []) (hascii : ∀ b, b.toNat < 128 → (∀ c ∈ f b, c.toNat < 128) ∧
      g (Char.ofNat b.toNat) = (f b).map fun c => Char.ofNat c.toNat)
    (hwide : ∀ b, 128 ≤ b.toNat → f b = [b]) (hwide' : ∀ c, 128 ≤ c.toNat → g c = [c])
    (state : State) (text : Text) :
    decodeFrom state (text.flatMap f) = (decodeFrom state text).flatMap g := by
  have hsame : ∀ chars : List Char, (∀ c ∈ chars, 128 ≤ c.toNat) → chars.flatMap g = chars := by
    intro chars hchars
    induction chars with
    | nil => rfl
    | cons c chars ih =>
      obtain ⟨hc, hchars⟩ := List.forall_mem_cons.mp hchars
      rw [List.flatMap_cons, hwide' c hc, ih hchars, List.singleton_append]
  induction text generalizing state with
  | nil => exact (hsame _ finish_wide).symm
  | cons b text ih =>
    rw [List.flatMap_cons]
    rcases Nat.lt_or_ge b.toNat 128 with hb | hb
    · obtain ⟨hbytes, hchar⟩ := hascii b hb
      rw [decodeFrom_asciis hbytes (hne b), decodeFrom_ascii hb, List.flatMap_append,
        List.flatMap_cons, hsame _ finish_wide, hchar, decode, decode, ih, List.append_assoc]
    · rw [hwide b hb, List.singleton_append, decodeFrom, decodeFrom, ih, List.flatMap_append,
        hsame _ (step_wide hb)]

end Ascii

section Encoding

/-- The last bytes of a character, six bits in each. -/
def tails (v : ℕ) : ℕ → Text
  | 0 => [UInt8.ofNat (v % 64 + 128)]
  | k + 1 => UInt8.ofNat (v / 64 ^ (k + 1) % 64 + 128) :: tails v k

theorem tail_toNat (v : ℕ) : (UInt8.ofNat (v % 64 + 128)).toNat = v % 64 + 128 :=
  UInt8.toNat_ofNat_of_lt' (by rw [UInt8.size]; omega)

theorem ofNatAux_eq {n v : ℕ} (hvalid : n.isValidChar) (hsame : n = v) :
    Char.ofNatAux n hvalid = Char.ofNat v := by
  subst hsame
  rw [Char.ofNat, dif_pos hvalid]

theorem decodeFrom_tails {v k : ℕ} {begun : Begun} (hmore : begun.more = k)
    (hcode : begun.codePoint = v / 64 ^ (k + 1)) (hlower : begun.lower ≤ v / 64 ^ k % 64 + 128)
    (hupper : v / 64 ^ k % 64 + 128 ≤ begun.upper) (rest : Text) :
    decodeFrom (.inside begun) (tails v k ++ rest) = Char.ofNat v :: decode rest := by
  induction k generalizing begun with
  | zero =>
    rw [pow_zero, Nat.div_one] at hlower hupper
    have htakes : begun.Takes (UInt8.ofNat (v % 64 + 128)) := by
      rw [Begun.Takes, tail_toNat]
      exact ⟨hlower, hupper⟩
    have hall : begun.codePoint * 64 + ((UInt8.ofNat (v % 64 + 128)).toNat - 128) = v := by
      rw [tail_toNat, hcode, zero_add, pow_one]
      omega
    rw [tails, List.singleton_append, decodeFrom, State.step, dif_pos htakes, Begun.take,
      dif_pos hmore]
    exact congrArg (· :: decode rest) (ofNatAux_eq _ hall)
  | succ k ih =>
    have htakes : begun.Takes (UInt8.ofNat (v / 64 ^ (k + 1) % 64 + 128)) := by
      rw [Begun.Takes, tail_toNat]
      exact ⟨hlower, hupper⟩
    have hall : begun.codePoint * 64 +
        ((UInt8.ofNat (v / 64 ^ (k + 1) % 64 + 128)).toNat - 128) = v / 64 ^ (k + 1) := by
      rw [tail_toNat, hcode, pow_succ, ← Nat.div_div_eq_div_mul]
      omega
    rw [tails, List.cons_append, decodeFrom, State.step, dif_pos htakes, Begun.take,
      dif_neg (by omega), List.nil_append]
    refine ih ?_ hall ?_ ?_
    · exact (congrArg (· - 1) hmore).trans (Nat.add_sub_cancel k 1)
    · exact Nat.le_add_left 128 _
    · change _ ≤ 191
      omega

theorem ofNat_toNat {lead : ℕ} (h : lead < 256) : (UInt8.ofNat lead).toNat = lead :=
  UInt8.toNat_ofNat_of_lt' (by rw [UInt8.size]; exact h)

/-- The first byte of a character in two, three or four bytes. -/
theorem decode_leading {v k lead : ℕ} (hlead : 128 ≤ lead ∧ lead < 256)
    (hbegun : ∃ begun, beginning lead = some begun ∧ begun.more = k ∧
      begun.codePoint = v / 64 ^ (k + 1) ∧ begun.lower ≤ v / 64 ^ k % 64 + 128 ∧
      v / 64 ^ k % 64 + 128 ≤ begun.upper) (rest : Text) :
    decode (UInt8.ofNat lead :: tails v k ++ rest) = Char.ofNat v :: decode rest := by
  obtain ⟨begun, hsome, hmore, hcode, hlower, hupper⟩ := hbegun
  have hfirst : first (UInt8.ofNat lead) = ([], .inside begun) := by
    rw [first, ofNat_toNat hlead.2, if_neg (by omega), hsome]
  rw [List.cons_append, decode, decodeFrom, State.step, hfirst, List.nil_append]
  exact decodeFrom_tails hmore hcode hlower hupper rest

/-- The bytes of a character, in groups of six bits behind the first one. -/
theorem encodeChar_eq (c : Char) : String.utf8EncodeChar c =
    if c.toNat ≤ 0x7f then [UInt8.ofNat c.toNat]
    else if c.toNat ≤ 0x7ff then UInt8.ofNat (c.toNat / 64 % 0x20 + 0xc0) :: tails c.toNat 0
    else if c.toNat ≤ 0xffff then UInt8.ofNat (c.toNat / 4096 % 0x10 + 0xe0) :: tails c.toNat 1
    else UInt8.ofNat (c.toNat / 262144 % 0x08 + 0xf0) :: tails c.toNat 2 := rfl

/-- A character is read from its bytes. -/
theorem decode_encodeChar (c : Char) (rest : Text) :
    decode (String.utf8EncodeChar c ++ rest) = c :: decode rest := by
  have hchar : Char.ofNat c.toNat = c := Char.ofNat_toNat c
  have hv : c.toNat.isValidChar := c.valid
  rw [encodeChar_eq]
  generalize c.toNat = v at hchar hv ⊢
  rw [← hchar]
  split_ifs with h1 h2 h3
  · have hbyte := @ofNat_toNat v (by omega)
    rw [List.singleton_append, decode, decodeFrom_ascii (by omega), hbyte]
    rfl
  · refine decode_leading ⟨by omega, by omega⟩ ?_ rest
    rw [beginning, dif_pos (by omega)]
    refine ⟨_, rfl, rfl, ?_, ?_, ?_⟩
    all_goals
      dsimp only
      omega
  · refine decode_leading ⟨by omega, by omega⟩ ?_ rest
    rw [beginning, dif_neg (by omega), dif_pos (by omega)]
    refine ⟨_, rfl, rfl, ?_, ?_, ?_⟩
    all_goals dsimp only
    · omega
    · split <;> omega
    · rw [Nat.isValidChar] at hv
      split <;> omega
  · refine decode_leading ⟨by omega, by omega⟩ ?_ rest
    rw [Nat.isValidChar] at hv
    rw [beginning, dif_neg (by omega), dif_neg (by omega),
      dif_pos (by omega)]
    refine ⟨_, rfl, rfl, ?_, ?_, ?_⟩
    all_goals dsimp only
    · omega
    · split <;> omega
    · split <;> omega

/-- What is written in UTF-8 is read as it was. -/
theorem decode_encode (chars : List Char) :
    decode (chars.flatMap String.utf8EncodeChar) = chars := by
  induction chars with
  | nil => rfl
  | cons c chars ih => rw [List.flatMap_cons, decode_encodeChar, ih]

end Encoding

end Leka.Utf8Texts
