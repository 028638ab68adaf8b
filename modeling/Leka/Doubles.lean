import Mathlib.Algebra.Order.Ring.Nat
import Mathlib.Tactic.Common

/-!
Natural numbers as binary64 numbers. A number is rounded to a nearest one with a significand of
53 bits, to the one with the even significand when two are equally near, and it is infinite when
that is too large. Nothing here depends on the program that uses it.
-/

namespace Leka.Doubles

/-- A significand of 53 bits and an exponent denote the number. -/
def Representable (n : ℕ) : Prop := ∃ m e, m < 2 ^ 53 ∧ n = m * 2 ^ e

/-- The finite numbers are below 2 to this power. -/
def MaxExponent : ℕ := 1024

/-- The binary64 numbers that are natural ones, and the infinite one above them. -/
inductive Double
  | finite (value : ℕ) (representable : Representable value) (bounded : value < 2 ^ MaxExponent)
  | infinite
  deriving DecidableEq

/-- The number that a finite one is. -/
def Double.number : Double → Option ℕ
  | .finite value _ _ => some value
  | .infinite => none

/-- The value of the last bit of a significand. -/
def spacing (n : ℕ) : ℕ := 2 ^ (n.log2 - 52)

/-- The numbers with 53 bits next to `n` have the significands `n / spacing n` and one more. -/
def rounded (n : ℕ) : ℕ :=
  let rest := n % spacing n
  if 2 * rest < spacing n ∨ 2 * rest = spacing n ∧ n / spacing n % 2 = 0 then
    n / spacing n * spacing n
  else (n / spacing n + 1) * spacing n

section Neighbours

variable (n : ℕ)

theorem spacing_pos : 0 < spacing n := Nat.two_pow_pos _

theorem significand_lt : n / spacing n < 2 ^ 53 := by
  rw [Nat.div_lt_iff_lt_mul (spacing_pos n), spacing, ← pow_add]
  exact lt_of_lt_of_le Nat.lt_log2_self (Nat.pow_le_pow_right (by omega) (by omega))

/-- A number with more than 53 bits has a significand with the highest bit set. -/
theorem le_significand (h : 52 < n.log2) : 2 ^ 52 ≤ n / spacing n := by
  have hne : n ≠ 0 := by
    rintro rfl
    simp at h
  have hle := Nat.log2_self_le hne
  rw [Nat.le_div_iff_mul_le (spacing_pos n), spacing, ← pow_add]
  rwa [show 52 + (n.log2 - 52) = n.log2 by omega]

/-- No number with 53 bits is between the two. -/
theorem neighbours {d : ℕ} (hd : Representable d) :
    d ≤ n / spacing n * spacing n ∨ (n / spacing n + 1) * spacing n ≤ d := by
  obtain ⟨m, e, hm, rfl⟩ := hd
  by_cases he : n.log2 - 52 ≤ e
  · -- A multiple of the spacing.
    obtain ⟨c, hc⟩ : spacing n ∣ m * 2 ^ e := Dvd.dvd.mul_left (Nat.pow_dvd_pow 2 he) m
    rw [hc, Nat.mul_comm]
    rcases Nat.lt_or_ge (n / spacing n) c with hlt | hge
    · exact Or.inr (Nat.mul_le_mul_right _ hlt)
    · exact Or.inl (Nat.mul_le_mul_right _ hge)
  · -- The spacing is more than 1, and then smaller exponents give smaller numbers.
    refine Or.inl ?_
    have hsmall : m * 2 ^ e ≤ 2 ^ 53 * 2 ^ (n.log2 - 53) :=
      Nat.mul_le_mul hm.le (Nat.pow_le_pow_right (by omega) (by omega))
    have hlarge := Nat.mul_le_mul_right (spacing n) (le_significand n (by omega))
    have hsame : 2 ^ 53 * 2 ^ (n.log2 - 53) = 2 ^ 52 * spacing n := by
      rw [spacing, ← pow_add, ← pow_add]
      congr 1
      omega
    omega

theorem representable_rounded : Representable (rounded n) := by
  have hlt := significand_lt n
  rw [rounded]
  split_ifs
  · exact ⟨_, _, hlt, rfl⟩
  · rcases Nat.lt_or_ge (n / spacing n + 1) (2 ^ 53) with hless | hfull
    · exact ⟨_, _, hless, rfl⟩
    · refine ⟨1, 53 + (n.log2 - 52), by omega, ?_⟩
      rw [show n / spacing n + 1 = 2 ^ 53 by omega, spacing, ← pow_add, Nat.one_mul]

/-- No number with 53 bits is nearer. -/
theorem rounded_nearest {d : ℕ} (hd : Representable d) :
    ((rounded n : ℤ) - n).natAbs ≤ ((d : ℤ) - n).natAbs := by
  have hsplit := Nat.div_add_mod' n (spacing n)
  have hrest := Nat.mod_lt n (spacing_pos n)
  have hnext := Nat.succ_mul (n / spacing n) (spacing n)
  have hneighbours := neighbours n hd
  rw [rounded]
  generalize n / spacing n * spacing n = low at *
  rw [Nat.succ_eq_add_one] at hnext
  rw [hnext] at hneighbours ⊢
  split_ifs <;> omega

theorem rounded_representable (h : Representable n) : rounded n = n := by
  have hnearest := rounded_nearest n h
  omega

end Neighbours

/-- The number as a binary64 one. -/
def nearest (n : ℕ) : Double :=
  if h : rounded n < 2 ^ MaxExponent then .finite (rounded n) (representable_rounded n) h
  else .infinite

/-- Numbers of up to 53 bits stay as they are. -/
theorem nearest_exact {n : ℕ} (h : n < 2 ^ 53) : (nearest n).number = some n := by
  have hn : Representable n := ⟨n, 0, h, by rw [pow_zero, Nat.mul_one]⟩
  have hlt : n < 2 ^ MaxExponent := h.trans (Nat.pow_lt_pow_right Nat.one_lt_two (by decide))
  have hsame := rounded_representable n hn
  rw [nearest, dif_pos (hsame.symm ▸ hlt), Double.number, hsame]

end Leka.Doubles
