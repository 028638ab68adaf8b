import Mathlib.Logic.Basic
import Mathlib.Tactic.Common
import Mathlib.Tactic.SplitIfs

/-!
Bit sets stored in a vector of 64-bit words: position `i` is bit `i % 64` of word
`i / 64`. Setting and clearing a position change that position alone, and the least
set position at or after a start is found by one shifted word and a scan of the rest.
-/

namespace Leka.WordBits

abbrev Words := Array UInt64

def bit (w : UInt64) (i : ℕ) : Bool := w.toBitVec.getLsbD i

/-- The number of consecutive zero bits from the low end; 64 for the zero word. -/
def countrZero (w : UInt64) : UInt64 := ⟨w.toBitVec.ctz⟩

def word (ws : Words) (w : ℕ) : UInt64 := ws.getD w 0

def bitAt (ws : Words) (i : ℕ) : Bool := bit (word ws (i / 64)) (i % 64)

def setWord (ws : Words) (w : ℕ) (value : UInt64) : Words := ws.setIfInBounds w value

theorem size_setWord (ws : Words) (w : ℕ) (value : UInt64) :
    (setWord ws w value).size = ws.size := by
  simp [setWord]

theorem word_setWord_self {ws : Words} {w : ℕ} (hw : w < ws.size) (value : UInt64) :
    word (setWord ws w value) w = value := by
  simp [word, setWord, hw]

theorem word_setWord_ne {ws : Words} {v w : ℕ} (hne : v ≠ w) (value : UInt64) :
    word (setWord ws w value) v = word ws v := by
  simp [word, setWord, Array.getElem?_setIfInBounds_ne (Ne.symm hne)]

theorem bit_of_le {w : UInt64} {i : ℕ} (hi : 64 ≤ i) : bit w i = false :=
  BitVec.getLsbD_of_ge _ _ hi

theorem bit_zero (i : ℕ) : bit 0 i = false := by simp [bit]

theorem bit_or (v w : UInt64) (i : ℕ) : bit (v ||| w) i = (bit v i || bit w i) := by
  simp [bit]

theorem bit_and (v w : UInt64) (i : ℕ) : bit (v &&& w) i = (bit v i && bit w i) := by
  simp [bit]

theorem bit_not (w : UInt64) {i : ℕ} (hi : i < 64) : bit (~~~w) i = !bit w i := by
  simp [bit, hi]

/-- The mask with only bit `k` set. -/
theorem bit_one_shiftLeft {k : UInt64} (hk : k.toNat < 64) (i : ℕ) :
    bit (1 <<< k) i = decide (i = k.toNat) := by
  have hmod : (k.toBitVec % 64).toNat = k.toNat := by
    simpa using Nat.mod_eq_of_lt hk
  simp only [bit, UInt64.toBitVec_shiftLeft, BitVec.shiftLeft_eq', hmod,
    BitVec.getLsbD_shiftLeft, UInt64.toBitVec_one, BitVec.getLsbD_one]
  by_cases heq : i = k.toNat
  · simp [heq, hk]
  · simp only [heq, decide_false]
    by_cases hlt : i < k.toNat
    · simp [hlt]
    · simp
      omega

theorem bit_shiftRight {w k : UInt64} (hk : k.toNat < 64) (i : ℕ) :
    bit (w >>> k) i = bit w (k.toNat + i) := by
  have hmod : (k.toBitVec % 64).toNat = k.toNat := by
    simpa using Nat.mod_eq_of_lt hk
  simp only [bit, UInt64.toBitVec_shiftRight, BitVec.ushiftRight_eq', hmod,
    BitVec.getLsbD_ushiftRight]

theorem eq_zero_iff (w : UInt64) : w = 0 ↔ ∀ i, bit w i = false := by
  constructor
  · rintro rfl
    exact bit_zero
  · intro h
    apply UInt64.toBitVec_inj.mp
    apply BitVec.eq_of_getLsbD_eq
    intro i _
    simpa [bit] using h i

section CountrZero

variable {w : UInt64}

theorem countrZero_lt (hw : w ≠ 0) : (countrZero w).toNat < 64 := by
  have hne : w.toBitVec ≠ 0#64 := fun heq => hw (UInt64.toBitVec_inj.mp heq)
  exact BitVec.lt_def.mp (BitVec.ctz_lt_iff_ne_zero.mpr hne)

theorem bit_countrZero (hw : w ≠ 0) : bit w (countrZero w).toNat = true := by
  have hne : w.toBitVec ≠ 0#64 := fun heq => hw (UInt64.toBitVec_inj.mp heq)
  exact BitVec.getLsbD_true_ctz_of_ne_zero hne

theorem bit_of_lt_countrZero {i : ℕ} (hi : i < (countrZero w).toNat) : bit w i = false :=
  BitVec.getLsbD_false_of_lt_ctz hi

end CountrZero

section Positions

variable {ws : Words} {i : ℕ}

theorem bitAt_word {w b : ℕ} (hb : b < 64) : bitAt ws (w * 64 + b) = bit (word ws w) b := by
  have hdiv : (w * 64 + b) / 64 = w := by omega
  have hmod : (w * 64 + b) % 64 = b := by omega
  rw [bitAt, hdiv, hmod]

theorem bitAt_replicate_zero (n i : ℕ) : bitAt (Array.replicate n 0) i = false := by
  have hword : word (Array.replicate n 0) (i / 64) = 0 := by
    by_cases hi : i / 64 < n <;> simp [word, hi]
  rw [bitAt, hword, bit_zero]

/-- Or-ing in the mask of a position sets that position and no other. -/
theorem bitAt_set {k : UInt64} (hi : i / 64 < ws.size) (hk : k.toNat = i % 64) (j : ℕ) :
    bitAt (setWord ws (i / 64) (word ws (i / 64) ||| 1 <<< k)) j =
      (decide (j = i) || bitAt ws j) := by
  have hlt : k.toNat < 64 := by omega
  by_cases hword : j / 64 = i / 64
  · have hiff : j % 64 = i % 64 ↔ j = i := by omega
    rw [bitAt, hword, word_setWord_self hi, bit_or, bit_one_shiftLeft hlt, hk, bitAt, hword,
      Bool.or_comm]
    simp only [hiff]
  · have hne : j ≠ i := fun heq => hword (by rw [heq])
    rw [bitAt, word_setWord_ne hword, ← bitAt]
    simp [hne]

/-- And-ing with the complement of the mask clears that position and no other. -/
theorem bitAt_clear {k : UInt64} (hi : i / 64 < ws.size) (hk : k.toNat = i % 64) (j : ℕ) :
    bitAt (setWord ws (i / 64) (word ws (i / 64) &&& ~~~(1 <<< k))) j =
      (!decide (j = i) && bitAt ws j) := by
  have hlt : k.toNat < 64 := by omega
  by_cases hword : j / 64 = i / 64
  · have hiff : j % 64 = i % 64 ↔ j = i := by omega
    rw [bitAt, hword, word_setWord_self hi, bit_and, bit_not _ (Nat.mod_lt _ (by omega)),
      bit_one_shiftLeft hlt, hk, bitAt, hword, Bool.and_comm]
    simp only [hiff]
  · have hne : j ≠ i := fun heq => hword (by rw [heq])
    rw [bitAt, word_setWord_ne hword, ← bitAt]
    simp [hne]

end Positions

/-- `i` is the least position of `p` at or after `lo`. -/
structure LeastFrom (p : ℕ → Bool) (lo i : ℕ) : Prop where
  le : lo ≤ i
  set : p i = true
  least : ∀ j, lo ≤ j → j < i → p j = false

theorem LeastFrom.unique {p : ℕ → Bool} {lo i j : ℕ} (hi : LeastFrom p lo i)
    (hj : LeastFrom p lo j) : i = j := by
  rcases Nat.lt_trichotomy i j with hlt | heq | hgt
  · have hset := hi.set
    rw [hj.least i hi.le hlt] at hset
    simp at hset
  · exact heq
  · have hset := hj.set
    rw [hi.least j hj.le hgt] at hset
    simp at hset

/-- Skipping positions that are not set does not move the least one. -/
theorem LeastFrom.extend {p : ℕ → Bool} {lo mid i : ℕ} (h : LeastFrom p mid i)
    (hle : lo ≤ mid) (hskip : ∀ j, lo ≤ j → j < mid → p j = false) : LeastFrom p lo i where
  le := Nat.le_trans hle h.le
  set := h.set
  least j hlo hj := by
    by_cases hmid : j < mid
    · exact hskip j hlo hmid
    · exact h.least j (by omega) hj

/-- The lowest bit of a shifted word lies inside the word it was shifted from. -/
theorem countrZero_shiftRight_lt {w k : UInt64} (hk : k.toNat < 64) (hne : w >>> k ≠ 0) :
    k.toNat + (countrZero (w >>> k)).toNat < 64 := by
  have hbit := bit_countrZero hne
  rw [bit_shiftRight hk] at hbit
  by_contra hge
  rw [bit_of_le (by omega)] at hbit
  simp at hbit

/-- The first nonzero bit of a word shifted down to the start. -/
theorem leastFrom_shifted {ws : Words} {w : ℕ} {k : UInt64} (hk : k.toNat < 64)
    (hne : word ws w >>> k ≠ 0) :
    LeastFrom (bitAt ws) (w * 64 + k.toNat)
      (w * 64 + k.toNat + (countrZero (word ws w >>> k)).toNat) := by
  have hbit := bit_countrZero hne
  rw [bit_shiftRight hk] at hbit
  have hlt := countrZero_shiftRight_lt hk hne
  refine ⟨by omega, ?_, ?_⟩
  · rw [Nat.add_assoc, bitAt_word hlt]
    exact hbit
  · intro j hlo hj
    have hj' : j = w * 64 + (j - w * 64) := by omega
    rw [hj', bitAt_word (by omega)]
    have hzero := bit_of_lt_countrZero (w := word ws w >>> k)
      (i := j - w * 64 - k.toNat) (by omega)
    rw [bit_shiftRight hk] at hzero
    rwa [show k.toNat + (j - w * 64 - k.toNat) = j - w * 64 by omega] at hzero

/-- A word that is zero once shifted has no set position from there to its end. -/
theorem bitAt_of_shifted_zero {ws : Words} {w : ℕ} {k : UInt64} (hk : k.toNat < 64)
    (hzero : word ws w >>> k = 0) (j : ℕ) (hlo : w * 64 + k.toNat ≤ j)
    (hj : j < (w + 1) * 64) : bitAt ws j = false := by
  have hj' : j = w * 64 + (j - w * 64) := by omega
  rw [hj', bitAt_word (by omega)]
  have hbit := (eq_zero_iff _).mp hzero (j - w * 64 - k.toNat)
  rw [bit_shiftRight hk] at hbit
  rwa [show k.toNat + (j - w * 64 - k.toNat) = j - w * 64 by omega] at hbit

end Leka.WordBits
