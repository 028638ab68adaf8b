import Mathlib.Algebra.Order.Ring.Nat
import Mathlib.Data.List.Induction
import Mathlib.Tactic.Common

/-!
Numbers as bytes: decimal texts, with and without padding, and big-endian fields. Reading
inverts writing, and on texts of one width writing inverts reading. Nothing here depends on
the program that uses it.
-/

namespace Leka.Numerals

/-- A text is a list of bytes. -/
abbrev Text := List UInt8

def ascii (c : Char) : UInt8 := UInt8.ofNat c.toNat

def ofString (s : String) : Text := s.toList.map ascii

/-- The digits of `n`, without leading zeros. -/
def decimal (n : ℕ) : Text := (Nat.toDigits 10 n).map ascii

def digit (d : ℕ) : UInt8 := UInt8.ofNat (48 + d)

/-- The last `width` digits of `n`, with leading zeros. -/
def padded : ℕ → ℕ → Text
  | 0, _ => []
  | width + 1, n => padded width (n / 10) ++ [digit (n % 10)]

/-- The number that a text of digits denotes. -/
def valueOf (text : Text) : ℕ := text.foldl (fun v c => v * 10 + (c.toNat - 48)) 0

def AllDigits (text : Text) : Prop := ∀ c ∈ text, 48 ≤ c.toNat ∧ c.toNat ≤ 57

section Decimals

theorem digit_toNat {d : ℕ} (h : d < 10) : (digit d).toNat = 48 + d :=
  UInt8.toNat_ofNat_of_lt' (by rw [UInt8.size]; omega)

theorem valueOf_append_digit (text : Text) (c : UInt8) :
    valueOf (text ++ [c]) = valueOf text * 10 + (c.toNat - 48) := by
  rw [valueOf, List.foldl_append]
  rfl

theorem allDigits_append {xs ys : Text} (hx : AllDigits xs) (hy : AllDigits ys) :
    AllDigits (xs ++ ys) := by
  intro c hc
  rcases List.mem_append.mp hc with hc | hc
  · exact hx c hc
  · exact hy c hc

theorem allDigits_digit {d : ℕ} (h : d < 10) : AllDigits [digit d] := by
  intro c hc
  rw [List.mem_singleton.mp hc, digit_toNat h]
  omega

theorem valueOf_padded (width n : ℕ) : valueOf (padded width n) = n % 10 ^ width := by
  induction width generalizing n with
  | zero => rw [pow_zero, Nat.mod_one]; rfl
  | succ width ih =>
    have hlt := Nat.mod_lt n (show 0 < 10 by omega)
    rw [padded, valueOf_append_digit, ih, digit_toNat hlt, pow_succ', Nat.mod_mul]
    omega

theorem allDigits_padded (width n : ℕ) : AllDigits (padded width n) := by
  induction width generalizing n with
  | zero => exact fun c hc => absurd hc (by simp [padded])
  | succ width ih =>
    exact allDigits_append (ih _) (allDigits_digit (Nat.mod_lt n (by omega)))

theorem length_padded (width n : ℕ) : (padded width n).length = width := by
  induction width generalizing n with
  | zero => rfl
  | succ width ih => rw [padded, List.length_append, ih, List.length_singleton]

theorem digitChar_toNat : ∀ {d : ℕ}, d < 10 → (Nat.digitChar d).toNat = 48 + d := by
  decide

theorem decimal_eq (n : ℕ) :
    decimal n = if n < 10 then [digit n] else decimal (n / 10) ++ [digit (n % 10)] := by
  have hascii : ∀ {d : ℕ}, d < 10 → ascii (Nat.digitChar d) = digit d := by
    intro d hd
    rw [ascii, digitChar_toNat hd, digit]
  rw [decimal, Nat.toDigits_eq_if (by omega)]
  split
  · rename_i hlt
    rw [List.map_singleton, hascii hlt]
  · rw [List.map_append, List.map_singleton, hascii (Nat.mod_lt n (by omega))]
    rfl

theorem valueOf_decimal (n : ℕ) : valueOf (decimal n) = n := by
  induction n using Nat.strongRecOn with
  | _ n ih =>
    rw [decimal_eq]
    split
    · rename_i hlt
      change 0 * 10 + ((digit n).toNat - 48) = n
      rw [digit_toNat hlt]
      omega
    · rw [valueOf_append_digit, ih _ (by omega), digit_toNat (Nat.mod_lt n (by omega))]
      omega

theorem allDigits_decimal (n : ℕ) : AllDigits (decimal n) := by
  induction n using Nat.strongRecOn with
  | _ n ih =>
    rw [decimal_eq]
    split
    · rename_i hlt
      exact allDigits_digit hlt
    · exact allDigits_append (ih _ (by omega)) (allDigits_digit (Nat.mod_lt n (by omega)))

theorem decimal_injective : Function.Injective decimal := by
  intro m n h
  rw [← valueOf_decimal m, h, valueOf_decimal]

end Decimals

/-- The number in a big-endian field. -/
def bigEndian (bytes : List UInt8) : ℕ := bytes.foldl (fun v b => v * 256 + b.toNat) 0

section BigEndian

theorem bigEndian_append (bytes : List UInt8) (b : UInt8) :
    bigEndian (bytes ++ [b]) = bigEndian bytes * 256 + b.toNat := by
  rw [bigEndian, List.foldl_append]
  rfl

theorem bigEndian_lt (bytes : List UInt8) : bigEndian bytes < 256 ^ bytes.length := by
  induction bytes using List.reverseRecOn with
  | nil => simp [bigEndian]
  | append_singleton bytes b ih =>
    have hb := b.toNat_lt
    rw [bigEndian_append, List.length_append, List.length_singleton, pow_succ]
    omega

theorem bigEndian_cons (b : UInt8) (bytes : List UInt8) :
    bigEndian (b :: bytes) = b.toNat * 256 ^ bytes.length + bigEndian bytes := by
  induction bytes using List.reverseRecOn with
  | nil => simp [bigEndian]
  | append_singleton bytes c ih =>
    rw [← List.cons_append, bigEndian_append, ih, bigEndian_append, List.length_append,
      List.length_singleton, pow_succ, ← mul_assoc]
    omega

/-- Fields of one width that hold the same number hold the same bytes. -/
theorem bigEndian_inj {xs ys : List UInt8} (hlength : xs.length = ys.length)
    (h : bigEndian xs = bigEndian ys) : xs = ys := by
  induction xs using List.reverseRecOn generalizing ys with
  | nil => exact (List.length_eq_zero_iff.mp hlength.symm).symm
  | append_singleton xs x ih =>
    rw [List.length_append, List.length_singleton] at hlength
    rcases List.eq_nil_or_concat ys with rfl | ⟨ys, y, rfl⟩
    · simp at hlength
    · rw [List.concat_eq_append] at hlength h ⊢
      rw [List.length_append, List.length_singleton, Nat.add_right_cancel_iff] at hlength
      have hx := x.toNat_lt
      have hy := y.toNat_lt
      rw [bigEndian_append, bigEndian_append] at h
      have hlast : x = y := UInt8.toNat_inj.mp (by omega)
      rw [ih hlength (by omega), hlast]

end BigEndian

end Leka.Numerals
