import Leka.PriceLevels
import Leka.WordBits
import Mathlib.Data.Finset.Card
import Mathlib.Data.Finset.Range

/-!
One side of a book: an array of levels addressed by price, an occupancy bit per level
and the cached index of the best occupied level. The grid arithmetic never wraps on an
accepted configuration; marking a level occupied or empty keeps the cached best the
least occupied index and the counter the number of occupied levels.
-/

namespace Leka.PriceLadders

open Procedures Orders PriceLevels WordBits

structure PriceLadder where
  minPrice : UInt64
  tickSize : UInt64
  maxPrice : UInt64
  levelCount : UInt64
  descending : Bool
  levels : Array PriceLevel
  words : Words
  bestIndex : UInt64
  occupied : UInt64

/-- Sentinel index when no level is occupied. -/
def npos : UInt64 := 18446744073709551615

/-- `std::vector<PriceLevel>::max_size()` for levels of 40 bytes. -/
def maxLevels : ℕ := (2 ^ 63 - 1) / 40

namespace PriceLadder

def make (minPrice tickSize : Price) (levelCount : UInt64) (descending : Bool) :
    Except StdException PriceLadder :=
  if minPrice = 0 then
    .error (.invalidArgument "PriceLadder minPrice must be nonzero")
  else if tickSize = 0 then
    .error (.invalidArgument "PriceLadder tickSize must be nonzero")
  else if levelCount = 0 then
    .error (.invalidArgument "PriceLadder levelCount must be nonzero")
  else
    let span := levelCount - 1
    if span > (uint64Max - minPrice) / tickSize then
      .error (.invalidArgument "PriceLadder range overflows a 64-bit price")
    else
      let maxPrice := minPrice + span * tickSize
      if maxLevels < levelCount.toNat then .error (.lengthError "vector::reserve")
      else .ok {
        minPrice, tickSize, maxPrice, levelCount, descending
        levels := Array.ofFn fun index : Fin levelCount.toNat =>
          { price := if descending then maxPrice - UInt64.ofNat index * tickSize
              else minPrice + UInt64.ofNat index * tickSize }
        words := Array.replicate ((levelCount + 63) / 64).toNat 0
        bestIndex := npos
        occupied := 0 }

def indexOf (self : PriceLadder) (price : Price) : Except StdException UInt64 :=
  if price > self.maxPrice ∨ price < self.minPrice then
    .error (.outOfRange "Price is outside the configured ladder range")
  else
    let offset := if self.descending then self.maxPrice - price else price - self.minPrice
    if offset % self.tickSize ≠ 0 then
      .error (.invalidArgument "Price does not fall on a configured tick boundary")
    else .ok (offset / self.tickSize)

/-- The address of the level slot at an index. -/
def levelPtr (self : PriceLadder) (index : UInt64) : LevelPtr := ⟨self.descending, index.toNat⟩

def levelAt (self : PriceLadder) (price : Price) : Except StdException LevelPtr :=
  (self.indexOf price).map self.levelPtr

/-- `levels[index]`. -/
def level (self : PriceLadder) (index : ℕ) : PriceLevel := self.levels.getD index { price := 0 }

def setLevel (self : PriceLadder) (index : ℕ) (level : PriceLevel) : PriceLadder :=
  { self with levels := self.levels.setIfInBounds index level }

/-- The words after the first, from `w` on: the first nonzero one decides. -/
def scanWords (self : PriceLadder) : ℕ → ℕ → UInt64
  | 0, _ => npos
  | remaining + 1, w =>
    if word self.words w ≠ 0 then
      let index := UInt64.ofNat w * 64 + countrZero (word self.words w)
      if index < self.levelCount then index else npos
    else scanWords self remaining (w + 1)

def nextSetBit (self : PriceLadder) (start : UInt64) : UInt64 :=
  if start ≥ self.levelCount then npos
  else
    let startWord := start / 64
    let startBit := start % 64
    let firstWord := word self.words startWord.toNat >>> startBit
    if firstWord ≠ 0 then start + countrZero firstWord
    else
      self.scanWords (self.words.size - (startWord.toNat + 1)) (startWord.toNat + 1)

/-- The address of the best occupied level, `none` for a null pointer. -/
def best (self : PriceLadder) : Option LevelPtr :=
  if self.bestIndex = npos then none else some (self.levelPtr self.bestIndex)

/-- The level slots that `forEachOccupied` visits from `index` on, in order. -/
def visit (self : PriceLadder) : ℕ → UInt64 → List LevelPtr
  | 0, _ => []
  | remaining + 1, index =>
    if index = npos then []
    else self.levelPtr index :: visit self remaining (self.nextSetBit (index + 1))

def forEachOccupied (self : PriceLadder) (maxLevels : UInt64) : List LevelPtr :=
  self.visit maxLevels.toNat self.bestIndex

end PriceLadder

abbrev LadderProc := Proc StdException PriceLadder

def markOccupied (price : Price) : LadderProc Unit := do
  let self ← Proc.get
  let index ← Proc.check (self.indexOf price)
  Proc.modify fun self => { self with
    words := setWord self.words (index.toNat / 64)
      (word self.words (index.toNat / 64) ||| 1 <<< (index % 64))
    bestIndex := if self.occupied = 0 ∨ index < self.bestIndex then index else self.bestIndex
    occupied := self.occupied + 1 }

def markEmpty (price : Price) : LadderProc Unit := do
  let self ← Proc.get
  let index ← Proc.check (self.indexOf price)
  Proc.modify fun self => { self with
    words := setWord self.words (index.toNat / 64)
      (word self.words (index.toNat / 64) &&& ~~~(1 <<< (index % 64)))
    occupied := self.occupied - 1 }
  Proc.modify fun self => { self with
    bestIndex := if index = self.bestIndex then
        if self.occupied = 0 then npos else self.nextSetBit (index + 1)
      else self.bestIndex }

namespace PriceLadder

/-- The price of slot `i`. -/
def slotPrice (ladder : PriceLadder) (i : ℕ) : ℕ :=
  if ladder.descending then ladder.maxPrice.toNat - i * ladder.tickSize.toNat
  else ladder.minPrice.toNat + i * ladder.tickSize.toNat

/-- What the constructor establishes and no procedure changes. -/
structure Configured (ladder : PriceLadder) : Prop where
  minPrice_pos : 0 < ladder.minPrice.toNat
  tickSize_pos : 0 < ladder.tickSize.toNat
  levelCount_pos : 0 < ladder.levelCount.toNat
  levelCount_le : ladder.levelCount.toNat ≤ maxLevels
  maxPrice_eq : ladder.maxPrice.toNat =
    ladder.minPrice.toNat + (ladder.levelCount.toNat - 1) * ladder.tickSize.toNat
  levels_size : ladder.levels.size = ladder.levelCount.toNat
  words_size : ladder.words.size = (ladder.levelCount.toNat + 63) / 64
  level_price : ∀ i < ladder.levelCount.toNat, (ladder.level i).price.toNat = ladder.slotPrice i

/-- The occupancy bits, their number and the cached best index agree. -/
structure Marked (ladder : PriceLadder) : Prop where
  high : ∀ i, ladder.levelCount.toNat ≤ i → bitAt ladder.words i = false
  occupied : ladder.occupied.toNat =
    ((Finset.range ladder.levelCount.toNat).filter fun i => bitAt ladder.words i).card
  best : (ladder.bestIndex = npos ∧ ∀ i, bitAt ladder.words i = false) ∨
    LeastFrom (bitAt ladder.words) 0 ladder.bestIndex.toNat

/-- The ladder after `markOccupied` at `index`. -/
def occupiedAt (ladder : PriceLadder) (index : UInt64) : PriceLadder :=
  { ladder with
    words := setWord ladder.words (index.toNat / 64)
      (word ladder.words (index.toNat / 64) ||| 1 <<< (index % 64))
    bestIndex := if ladder.occupied = 0 ∨ index < ladder.bestIndex then index
      else ladder.bestIndex
    occupied := ladder.occupied + 1 }

/-- The bit and the counter of `markEmpty`, before the best index is looked at. -/
def clearedAt (ladder : PriceLadder) (index : UInt64) : PriceLadder :=
  { ladder with
    words := setWord ladder.words (index.toNat / 64)
      (word ladder.words (index.toNat / 64) &&& ~~~(1 <<< (index % 64)))
    occupied := ladder.occupied - 1 }

/-- The ladder after `markEmpty` at `index`. -/
def emptiedAt (ladder : PriceLadder) (index : UInt64) : PriceLadder :=
  { ladder.clearedAt index with
    bestIndex := if index = ladder.bestIndex then
        if (ladder.clearedAt index).occupied = 0 then npos
        else (ladder.clearedAt index).nextSetBit (index + 1)
      else ladder.bestIndex }

/-- The two ladders have the same configuration. -/
structure SameGrid (ladder ladder' : PriceLadder) : Prop where
  minPrice : ladder'.minPrice = ladder.minPrice
  tickSize : ladder'.tickSize = ladder.tickSize
  maxPrice : ladder'.maxPrice = ladder.maxPrice
  levelCount : ladder'.levelCount = ladder.levelCount
  descending : ladder'.descending = ladder.descending

namespace SameGrid

variable {a b c : PriceLadder}

theorem refl (a : PriceLadder) : SameGrid a a := ⟨rfl, rfl, rfl, rfl, rfl⟩

theorem trans (h : SameGrid a b) (h' : SameGrid b c) : SameGrid a c :=
  ⟨h'.minPrice.trans h.minPrice, h'.tickSize.trans h.tickSize, h'.maxPrice.trans h.maxPrice,
    h'.levelCount.trans h.levelCount, h'.descending.trans h.descending⟩

theorem indexOf_eq (h : SameGrid a b) (price : Price) : b.indexOf price = a.indexOf price := by
  simp only [indexOf, h.minPrice, h.tickSize, h.maxPrice, h.descending]

theorem slotPrice_eq (h : SameGrid a b) (i : ℕ) : b.slotPrice i = a.slotPrice i := by
  simp only [slotPrice, h.minPrice, h.tickSize, h.maxPrice, h.descending]

theorem setLevel (a : PriceLadder) (i : ℕ) (level : PriceLevel) : SameGrid a (a.setLevel i level) :=
  ⟨rfl, rfl, rfl, rfl, rfl⟩

theorem occupiedAt (a : PriceLadder) (index : UInt64) : SameGrid a (a.occupiedAt index) :=
  ⟨rfl, rfl, rfl, rfl, rfl⟩

theorem emptiedAt (a : PriceLadder) (index : UInt64) : SameGrid a (a.emptiedAt index) :=
  ⟨rfl, rfl, rfl, rfl, rfl⟩

end SameGrid

section Grid

variable {ladder : PriceLadder}

theorem tick_le {i : ℕ} (hi : i < ladder.levelCount.toNat) :
    i * ladder.tickSize.toNat ≤ (ladder.levelCount.toNat - 1) * ladder.tickSize.toNat :=
  Nat.mul_le_mul_right _ (by omega)

/-- The price of a slot maps to that slot. -/
theorem indexOf_slotPrice (htick : 0 < ladder.tickSize.toNat)
    (hmax : ladder.maxPrice.toNat =
      ladder.minPrice.toNat + (ladder.levelCount.toNat - 1) * ladder.tickSize.toNat)
    {i : ℕ} (hi : i < ladder.levelCount.toNat) {price : Price}
    (hprice : price.toNat = ladder.slotPrice i) : ladder.indexOf price = .ok (UInt64.ofNat i) := by
  have hspan := tick_le hi
  have hlt := ladder.maxPrice.toNat_lt
  have hcount := ladder.levelCount.toNat_lt
  have hin : ¬ (price > ladder.maxPrice ∨ price < ladder.minPrice) := by
    simp only [gt_iff_lt, UInt64.lt_iff_toNat_lt, hprice, slotPrice]
    split_ifs <;> omega
  have hoffset : (if ladder.descending then ladder.maxPrice - price
      else price - ladder.minPrice).toNat = i * ladder.tickSize.toNat := by
    simp only [gt_iff_lt, not_or, UInt64.not_lt] at hin
    by_cases hdesc : ladder.descending
    · rw [if_pos hdesc, UInt64.toNat_sub_of_le _ _ hin.1, hprice, slotPrice, if_pos hdesc]
      omega
    · rw [if_neg hdesc, UInt64.toNat_sub_of_le _ _ hin.2, hprice, slotPrice, if_neg hdesc]
      omega
  have hmod : (if ladder.descending then ladder.maxPrice - price
      else price - ladder.minPrice) % ladder.tickSize = 0 := by
    apply UInt64.toNat_inj.mp
    rw [UInt64.toNat_mod, hoffset, Nat.mul_mod_left]
    rfl
  have hdiv : (if ladder.descending then ladder.maxPrice - price
      else price - ladder.minPrice) / ladder.tickSize = UInt64.ofNat i := by
    apply UInt64.toNat_inj.mp
    rw [UInt64.toNat_div, hoffset, Nat.mul_div_cancel _ htick,
      UInt64.toNat_ofNat_of_lt' (by rw [UInt64.size]; omega)]
  simp [indexOf, if_neg hin, hmod, hdiv]

theorem Configured.indexOf_slotPrice (h : ladder.Configured) {i : ℕ}
    (hi : i < ladder.levelCount.toNat) {price : Price}
    (hprice : price.toNat = ladder.slotPrice i) : ladder.indexOf price = .ok (UInt64.ofNat i) :=
  PriceLadder.indexOf_slotPrice h.tickSize_pos h.maxPrice_eq hi hprice

theorem Configured.indexOf_ok (h : ladder.Configured) {price : Price} {index : UInt64}
    (hok : ladder.indexOf price = .ok index) :
    index.toNat < ladder.levelCount.toNat ∧ price.toNat = ladder.slotPrice index.toNat := by
  have hmax := h.maxPrice_eq
  have htick := h.tickSize_pos
  have hcount := h.levelCount_pos
  unfold indexOf at hok
  by_cases hin : price > ladder.maxPrice ∨ price < ladder.minPrice
  · rw [if_pos hin] at hok
    simp at hok
  rw [if_neg hin] at hok
  by_cases hmod : (if ladder.descending then ladder.maxPrice - price
      else price - ladder.minPrice) % ladder.tickSize = 0
  swap
  · simp [hmod] at hok
  simp only [hmod, ne_eq, not_true, if_false] at hok
  simp only [gt_iff_lt, not_or, UInt64.not_lt, UInt64.le_iff_toNat_le] at hin
  have hexact : ∀ offset : UInt64, offset % ladder.tickSize = 0 →
      (offset / ladder.tickSize).toNat * ladder.tickSize.toNat = offset.toNat := by
    intro offset hzero
    have hzero' := congrArg UInt64.toNat hzero
    rw [UInt64.toNat_mod, UInt64.toNat_zero] at hzero'
    rw [UInt64.toNat_div]
    exact Nat.div_mul_cancel (Nat.dvd_of_mod_eq_zero hzero')
  have hrange : ∀ k, k * ladder.tickSize.toNat ≤
      (ladder.levelCount.toNat - 1) * ladder.tickSize.toNat → k < ladder.levelCount.toNat := by
    intro k hk
    have hle := Nat.le_of_mul_le_mul_right hk htick
    omega
  simp only [Except.ok.injEq] at hok
  subst index
  by_cases hdesc : ladder.descending
  · rw [if_pos hdesc] at hmod ⊢
    have hoff := hexact _ hmod
    rw [UInt64.toNat_sub_of_le _ _ (UInt64.le_iff_toNat_le.mpr hin.1)] at hoff
    refine ⟨hrange _ (by omega), ?_⟩
    rw [slotPrice, if_pos hdesc]
    omega
  · rw [if_neg hdesc] at hmod ⊢
    have hoff := hexact _ hmod
    rw [UInt64.toNat_sub_of_le _ _ (UInt64.le_iff_toNat_le.mpr hin.2)] at hoff
    refine ⟨hrange _ (by omega), ?_⟩
    rw [slotPrice, if_neg hdesc]
    omega

theorem Configured.slotPrice_inj (h : ladder.Configured) {i j : ℕ}
    (hi : i < ladder.levelCount.toNat) (hj : j < ladder.levelCount.toNat)
    (heq : ladder.slotPrice i = ladder.slotPrice j) : i = j := by
  have htick := h.tickSize_pos
  have hmax := h.maxPrice_eq
  have hile := tick_le hi
  have hjle := tick_le hj
  have hmul : i * ladder.tickSize.toNat = j * ladder.tickSize.toNat := by
    unfold slotPrice at heq
    split_ifs at heq <;> omega
  exact Nat.eq_of_mul_eq_mul_right htick hmul

/-- Better prices have smaller indices. -/
theorem Configured.slotPrice_lt (h : ladder.Configured) {i j : ℕ} (hij : i < j)
    (hj : j < ladder.levelCount.toNat) :
    if ladder.descending then ladder.slotPrice j < ladder.slotPrice i
    else ladder.slotPrice i < ladder.slotPrice j := by
  have hmax := h.maxPrice_eq
  have hmin := h.minPrice_pos
  have hjle := tick_le hj
  have hlt : i * ladder.tickSize.toNat < j * ladder.tickSize.toNat :=
    Nat.mul_lt_mul_of_pos_right hij h.tickSize_pos
  unfold slotPrice
  split_ifs <;> omega

end Grid

section Marking

variable {ladder : PriceLadder}

theorem wordIndex_lt (hsize : ladder.words.size = (ladder.levelCount.toNat + 63) / 64) {i : ℕ}
    (hi : i < ladder.levelCount.toNat) : i / 64 < ladder.words.size := by
  rw [hsize]
  omega

/-- The word scan finds the least set position in the words from `w` on. -/
theorem scanWords_spec (hsize : ladder.words.size = (ladder.levelCount.toNat + 63) / 64)
    (hhigh : ∀ i, ladder.levelCount.toNat ≤ i → bitAt ladder.words i = false) :
    ∀ (remaining w : ℕ), w + remaining = ladder.words.size →
      (ladder.scanWords remaining w = npos ∧ ∀ i, w * 64 ≤ i → bitAt ladder.words i = false) ∨
      ((ladder.scanWords remaining w).toNat < ladder.levelCount.toNat ∧
        LeastFrom (bitAt ladder.words) (w * 64) (ladder.scanWords remaining w).toNat) := by
  have hlevels := ladder.levelCount.toNat_lt
  intro remaining
  induction remaining with
  | zero =>
    intro w hw
    left
    refine ⟨rfl, ?_⟩
    intro i hi
    exact hhigh i (by omega)
  | succ remaining ih =>
    intro w hw
    unfold scanWords
    by_cases hzero : word ladder.words w = 0
    · rw [if_neg (by simpa using hzero)]
      have hskip : ∀ i, w * 64 ≤ i → i < (w + 1) * 64 → bitAt ladder.words i = false := by
        intro i hlo hhi
        exact bitAt_of_shifted_zero (k := 0) (by simp) (by simp [hzero]) i (by simpa using hlo) hhi
      rcases ih (w + 1) (by omega) with ⟨hnone, hclear⟩ | ⟨hlt, hleast⟩
      · left
        refine ⟨hnone, ?_⟩
        intro i hi
        by_cases hword : i < (w + 1) * 64
        · exact hskip i hi hword
        · exact hclear i (by omega)
      · right
        exact ⟨hlt, hleast.extend (by omega) hskip⟩
    · rw [if_pos (by simpa using hzero)]
      have hcz := countrZero_lt hzero
      have hindex : (UInt64.ofNat w * 64 + countrZero (word ladder.words w)).toNat =
          w * 64 + (countrZero (word ladder.words w)).toNat := by
        rw [UInt64.toNat_add, UInt64.toNat_mul, UInt64.toNat_ofNat_of_lt' (by
          rw [UInt64.size]; omega)]
        change (w * 64 % 2 ^ 64 + _) % 2 ^ 64 = _
        omega
      have hleast := @leastFrom_shifted ladder.words w 0 (by simp)
        (by simpa using hzero)
      simp only [UInt64.toNat_zero, Nat.add_zero, UInt64.shiftRight_zero, ← hindex] at hleast
      have hlt : (UInt64.ofNat w * 64 + countrZero (word ladder.words w)).toNat <
          ladder.levelCount.toNat := by
        by_contra hge
        have hset := hleast.set
        rw [hhigh _ (by omega)] at hset
        simp at hset
      rw [if_pos (UInt64.lt_iff_toNat_lt.mpr hlt)]
      exact Or.inr ⟨hlt, hleast⟩

/-- `nextSetBit` is the least set position at or after its argument. -/
theorem nextSetBit_spec (hsize : ladder.words.size = (ladder.levelCount.toNat + 63) / 64)
    (hhigh : ∀ i, ladder.levelCount.toNat ≤ i → bitAt ladder.words i = false) (start : UInt64) :
    (ladder.nextSetBit start = npos ∧
      ∀ i, start.toNat ≤ i → bitAt ladder.words i = false) ∨
    ((ladder.nextSetBit start).toNat < ladder.levelCount.toNat ∧
      LeastFrom (bitAt ladder.words) start.toNat (ladder.nextSetBit start).toNat) := by
  unfold nextSetBit
  by_cases hend : start ≥ ladder.levelCount
  · rw [if_pos hend]
    left
    refine ⟨rfl, ?_⟩
    intro i hi
    have hle := UInt64.le_iff_toNat_le.mp hend
    exact hhigh i (by omega)
  · rw [if_neg hend]
    have hlt : start.toNat < ladder.levelCount.toNat := by
      simpa [UInt64.lt_iff_toNat_lt] using hend
    have hcount := ladder.levelCount.toNat_lt
    have hword : (start / 64).toNat = start.toNat / 64 := UInt64.toNat_div _ _
    have hbit : (start % 64).toNat = start.toNat % 64 := UInt64.toNat_mod _ _
    have hk : (start % 64).toNat < 64 := by omega
    have hsplit : (start / 64).toNat * 64 + (start % 64).toNat = start.toNat := by omega
    have hindex := wordIndex_lt hsize hlt
    by_cases hzero : word ladder.words (start / 64).toNat >>> (start % 64) = 0
    · simp only [hzero, ne_eq, not_true, if_false]
      have hskip : ∀ i, start.toNat ≤ i → i < ((start / 64).toNat + 1) * 64 →
          bitAt ladder.words i = false := by
        intro i hlo hhi
        exact bitAt_of_shifted_zero hk hzero i (by omega) hhi
      rcases scanWords_spec hsize hhigh (ladder.words.size - ((start / 64).toNat + 1))
        ((start / 64).toNat + 1) (by omega) with ⟨hnone, hclear⟩ | ⟨hfound, hleast⟩
      · left
        refine ⟨hnone, ?_⟩
        intro i hi
        by_cases hfirst : i < ((start / 64).toNat + 1) * 64
        · exact hskip i hi hfirst
        · exact hclear i (by omega)
      · right
        exact ⟨hfound, hleast.extend (by omega) hskip⟩
    · simp only [hzero, ne_eq, not_false_eq_true, if_true]
      right
      have hcz := countrZero_shiftRight_lt hk hzero
      have hsum : (start + countrZero (word ladder.words (start / 64).toNat >>>
          (start % 64))).toNat = start.toNat +
            (countrZero (word ladder.words (start / 64).toNat >>> (start % 64))).toNat := by
        rw [UInt64.toNat_add]
        exact Nat.mod_eq_of_lt (by omega)
      have hleast := leastFrom_shifted hk hzero
      rw [hsplit, ← hsum] at hleast
      refine ⟨?_, hleast⟩
      by_contra hge
      have hset := hleast.set
      rw [hhigh _ (by omega)] at hset
      simp at hset

theorem npos_toNat : npos.toNat = 2 ^ 64 - 1 := rfl

theorem Configured.index_ne_npos (h : ladder.Configured) {index : UInt64}
    (hi : index.toNat < ladder.levelCount.toNat) : index ≠ npos := by
  intro heq
  have hmaxLevels : maxLevels < 2 ^ 58 := by decide
  have hlevels := h.levelCount_le
  rw [heq, npos_toNat] at hi
  omega

theorem Marked.lt_of_set (hm : ladder.Marked) {i : ℕ} (hset : bitAt ladder.words i = true) :
    i < ladder.levelCount.toNat := by
  by_contra hge
  rw [hm.high i (by omega)] at hset
  simp at hset

/-- The cached best index is the sentinel exactly on an empty side. -/
theorem Marked.best_cases (h : ladder.Configured) (hm : ladder.Marked) :
    (ladder.best = none ∧ ∀ i, bitAt ladder.words i = false) ∨
    ∃ i, ladder.best = some ⟨ladder.descending, i⟩ ∧ i < ladder.levelCount.toNat ∧
      LeastFrom (bitAt ladder.words) 0 i := by
  rcases hm.best with ⟨hnpos, hclear⟩ | hleast
  · left
    exact ⟨by simp [PriceLadder.best, hnpos], hclear⟩
  · right
    have hlt := hm.lt_of_set hleast.set
    refine ⟨_, ?_, hlt, hleast⟩
    simp [PriceLadder.best, h.index_ne_npos hlt, levelPtr]

theorem markOccupied_run {price : Price} {index : UInt64}
    (hindex : ladder.indexOf price = .ok index) :
    markOccupied price ladder = (.returns (), ladder.occupiedAt index) := by
  simp [markOccupied, hindex, occupiedAt]

theorem markEmpty_run {price : Price} {index : UInt64}
    (hindex : ladder.indexOf price = .ok index) :
    markEmpty price ladder = (.returns (), ladder.emptiedAt index) := by
  simp only [markEmpty, Proc.get_bind_apply, hindex, Proc.check_ok, Proc.pure_bind_apply,
    Proc.modify_bind_apply, Proc.modify_apply]
  rfl

theorem bitAt_occupiedAt (hsize : ladder.words.size = (ladder.levelCount.toNat + 63) / 64)
    {index : UInt64} (hi : index.toNat < ladder.levelCount.toNat) (j : ℕ) :
    bitAt (ladder.occupiedAt index).words j = (decide (j = index.toNat) || bitAt ladder.words j) :=
  bitAt_set (wordIndex_lt hsize hi) (UInt64.toNat_mod _ _) j

theorem bitAt_emptiedAt (hsize : ladder.words.size = (ladder.levelCount.toNat + 63) / 64)
    {index : UInt64} (hi : index.toNat < ladder.levelCount.toNat) (j : ℕ) :
    bitAt (ladder.emptiedAt index).words j =
      (!decide (j = index.toNat) && bitAt ladder.words j) :=
  bitAt_clear (wordIndex_lt hsize hi) (UInt64.toNat_mod _ _) j

theorem Configured.occupiedAt (h : ladder.Configured) (index : UInt64) :
    (ladder.occupiedAt index).Configured where
  __ := h
  words_size := by
    simp only [PriceLadder.occupiedAt, size_setWord]
    exact h.words_size

theorem Configured.clearedAt (h : ladder.Configured) (index : UInt64) :
    (ladder.clearedAt index).Configured where
  __ := h
  words_size := by
    simp only [PriceLadder.clearedAt, size_setWord]
    exact h.words_size

theorem Configured.emptiedAt (h : ladder.Configured) (index : UInt64) :
    (ladder.emptiedAt index).Configured where
  __ := h.clearedAt index

theorem card_lt (ladder : PriceLadder) (p : ℕ → Bool) :
    ((Finset.range ladder.levelCount.toNat).filter fun i => p i).card < 2 ^ 64 := by
  have hle := Finset.card_filter_le (Finset.range ladder.levelCount.toNat) (fun i => p i = true)
  have hlt := ladder.levelCount.toNat_lt
  rw [Finset.card_range] at hle
  omega

/-- Occupying an empty slot. -/
theorem Marked.occupiedAt (h : ladder.Configured) (hm : ladder.Marked) {index : UInt64}
    (hi : index.toNat < ladder.levelCount.toNat) (hclear : bitAt ladder.words index.toNat = false) :
    (ladder.occupiedAt index).Marked := by
  have hbits := bitAt_occupiedAt h.words_size hi
  have hfilter : ((Finset.range ladder.levelCount.toNat).filter
      fun i => bitAt (ladder.occupiedAt index).words i) =
      insert index.toNat ((Finset.range ladder.levelCount.toNat).filter
        fun i => bitAt ladder.words i) := by
    ext j
    simp only [Finset.mem_filter, Finset.mem_range, Finset.mem_insert, hbits, Bool.or_eq_true,
      decide_eq_true_eq]
    grind
  have hcard : ((Finset.range ladder.levelCount.toNat).filter
      fun i => bitAt (ladder.occupiedAt index).words i).card = ladder.occupied.toNat + 1 := by
    rw [hfilter, Finset.card_insert_of_notMem (by simp [hclear]), hm.occupied]
  refine ⟨?_, ?_, ?_⟩
  · intro j hj
    change ladder.levelCount.toNat ≤ j at hj
    rw [hbits, hm.high j hj]
    simp only [Bool.or_false, decide_eq_false_iff_not]
    omega
  · have hlt := card_lt ladder (bitAt (ladder.occupiedAt index).words)
    rw [hcard] at hlt
    change (ladder.occupied + 1).toNat = _
    rw [UInt64.toNat_add, UInt64.toNat_one, Nat.mod_eq_of_lt hlt]
    exact hcard.symm
  · right
    have hself : bitAt (ladder.occupiedAt index).words index.toNat = true := by simp [hbits]
    have hzero : ladder.occupied = 0 → ∀ j, bitAt ladder.words j = false := by
      intro hocc j
      by_contra hset
      rw [Bool.not_eq_false] at hset
      have hpos : 0 < ((Finset.range ladder.levelCount.toNat).filter
          fun i => bitAt ladder.words i).card :=
        Finset.card_pos.mpr ⟨j, by simp [hset, hm.lt_of_set hset]⟩
      rw [← hm.occupied, hocc] at hpos
      simp at hpos
    simp only [PriceLadder.occupiedAt]
    split_ifs with hcond
    · refine ⟨Nat.zero_le _, hself, ?_⟩
      intro j _ hj
      change bitAt (ladder.occupiedAt index).words j = false
      rw [hbits]
      have hne : j ≠ index.toNat := by omega
      rcases hcond with hocc | hbetter
      · simp [hne, hzero hocc j]
      · have hlt := UInt64.lt_iff_toNat_lt.mp hbetter
        rcases hm.best with ⟨_, hnone⟩ | hleast
        · simp [hne, hnone j]
        · simp [hne, hleast.least j (Nat.zero_le _) (by omega)]
    · rw [not_or, UInt64.not_lt, UInt64.le_iff_toNat_le] at hcond
      rcases hm.best with ⟨hnpos, hnone⟩ | hleast
      · exfalso
        apply hcond.1
        apply UInt64.toNat_inj.mp
        rw [hm.occupied]
        simp [hnone]
      · refine ⟨Nat.zero_le _, ?_, ?_⟩
        · change bitAt (ladder.occupiedAt index).words _ = true
          simp [hbits, hleast.set]
        · intro j _ hj
          change bitAt (ladder.occupiedAt index).words _ = false
          have hne : j ≠ index.toNat := by omega
          simp [hbits, hne, hleast.least j (Nat.zero_le _) hj]

/-- Emptying an occupied slot. -/
theorem Marked.emptiedAt (h : ladder.Configured) (hm : ladder.Marked) {index : UInt64}
    (hi : index.toNat < ladder.levelCount.toNat) (hset : bitAt ladder.words index.toNat = true) :
    (ladder.emptiedAt index).Marked := by
  have hbits := bitAt_emptiedAt h.words_size hi
  have hfilter : ((Finset.range ladder.levelCount.toNat).filter
      fun i => bitAt (ladder.emptiedAt index).words i) =
      ((Finset.range ladder.levelCount.toNat).filter
        fun i => bitAt ladder.words i).erase index.toNat := by
    ext j
    simp only [Finset.mem_filter, Finset.mem_range, Finset.mem_erase, hbits, Bool.and_eq_true,
      Bool.not_eq_true', decide_eq_false_iff_not]
    tauto
  have hmem : index.toNat ∈ (Finset.range ladder.levelCount.toNat).filter
      fun i => bitAt ladder.words i := by simp [hi, hset]
  have hpos : 0 < ladder.occupied.toNat := by
    rw [hm.occupied]
    exact Finset.card_pos.mpr ⟨_, hmem⟩
  have hocc : (ladder.occupied - 1).toNat = ladder.occupied.toNat - 1 := by
    have hle : (1 : UInt64) ≤ ladder.occupied := UInt64.le_iff_toNat_le.mpr hpos
    rw [UInt64.toNat_sub_of_le _ _ hle, UInt64.toNat_one]
  have hcard : (ladder.occupied - 1).toNat = ((Finset.range ladder.levelCount.toNat).filter
      fun i => bitAt (ladder.emptiedAt index).words i).card := by
    rw [hocc, hfilter, Finset.card_erase_of_mem hmem, hm.occupied]
  have hhigh : ∀ j, ladder.levelCount.toNat ≤ j →
      bitAt (ladder.emptiedAt index).words j = false := by
    intro j hj
    simp [hbits, hm.high j hj]
  refine ⟨hhigh, hcard, ?_⟩
  have hleast : LeastFrom (bitAt ladder.words) 0 ladder.bestIndex.toNat := by
    rcases hm.best with ⟨_, hnone⟩ | hleast
    · rw [hnone] at hset
      simp at hset
    · exact hleast
  change (PriceLadder.bestIndex (ladder.emptiedAt index) = npos ∧ _) ∨ _
  by_cases hbest : index = ladder.bestIndex
  · have hbefore : ∀ j, j < index.toNat + 1 →
        bitAt (ladder.emptiedAt index).words j = false := by
      intro j hj
      rw [hbits]
      by_cases hj' : j = index.toNat
      · simp [hj']
      · rw [hleast.least j (Nat.zero_le _) (by rw [← hbest]; omega)]
        simp
    have hnext : (index + 1).toNat = index.toNat + 1 := by
      have hlt := ladder.levelCount.toNat_lt
      rw [UInt64.toNat_add, UInt64.toNat_one]
      exact Nat.mod_eq_of_lt (by omega)
    by_cases hempty : ladder.occupied - 1 = 0
    · left
      refine ⟨by simp [PriceLadder.emptiedAt, PriceLadder.clearedAt, hbest, hempty], ?_⟩
      intro j
      by_contra hj
      rw [Bool.not_eq_false] at hj
      have hlt : j < ladder.levelCount.toNat := by
        by_contra hge
        rw [hhigh j (by omega)] at hj
        simp at hj
      have hpos' : 0 < ((Finset.range ladder.levelCount.toNat).filter
          fun i => bitAt (ladder.emptiedAt index).words i).card :=
        Finset.card_pos.mpr ⟨j, by simp [hj, hlt]⟩
      rw [← hcard, hempty] at hpos'
      simp at hpos'
    · have hrun : (ladder.emptiedAt index).bestIndex =
          (ladder.clearedAt index).nextSetBit (index + 1) := by
        simp only [PriceLadder.emptiedAt, if_pos hbest]
        exact if_neg hempty
      rw [hrun]
      rcases nextSetBit_spec (h.clearedAt index).words_size hhigh (index + 1) with
        ⟨hnone, hclear⟩ | ⟨_, hfound⟩
      · left
        refine ⟨hnone, ?_⟩
        intro j
        by_cases hj : j < index.toNat + 1
        · exact hbefore j hj
        · exact hclear j (by omega)
      · right
        exact hfound.extend (Nat.zero_le _) (fun j _ hj => hbefore j (by omega))
  · right
    have hrun : (ladder.emptiedAt index).bestIndex = ladder.bestIndex := by
      simp [PriceLadder.emptiedAt, hbest]
    rw [hrun]
    have hne : ladder.bestIndex.toNat ≠ index.toNat :=
      fun heq => hbest (UInt64.toNat_inj.mp heq.symm)
    refine ⟨Nat.zero_le _, by simp [hbits, hne, hleast.set], ?_⟩
    intro j _ hj
    simp [hbits, hleast.least j (Nat.zero_le _) hj]

end Marking

section Levels

variable {ladder : PriceLadder} {i : ℕ} {level : PriceLevel}

theorem level_setLevel_self (hi : i < ladder.levels.size) :
    (ladder.setLevel i level).level i = level := by
  simp [PriceLadder.level, setLevel, hi]

theorem level_setLevel_ne {j : ℕ} (hne : j ≠ i) :
    (ladder.setLevel i level).level j = ladder.level j := by
  simp [PriceLadder.level, setLevel, Array.getElem?_setIfInBounds_ne (Ne.symm hne)]

/-- Writing a level slot keeps its price. -/
theorem Configured.setLevel (h : ladder.Configured)
    (hprice : level.price = (ladder.level i).price) : (ladder.setLevel i level).Configured where
  __ := h
  levels_size := by
    simp only [PriceLadder.setLevel, Array.size_setIfInBounds]
    exact h.levels_size
  level_price j hj := by
    by_cases hji : j = i
    · subst j
      have hsize : i < ladder.levels.size := by
        rw [h.levels_size]
        exact hj
      rw [level_setLevel_self hsize, hprice]
      exact h.level_price i hj
    · rw [level_setLevel_ne hji]
      exact h.level_price j hj

theorem Marked.setLevel (hm : ladder.Marked) : (ladder.setLevel i level).Marked where
  __ := hm

end Levels

section Construction

variable {minPrice tickSize : Price} {levelCount : UInt64}

/-- The range check of the constructor leaves room for every price of the grid. -/
theorem span_fits (htick : tickSize ≠ 0)
    (hspan : ¬ levelCount - 1 > (uint64Max - minPrice) / tickSize) :
    minPrice.toNat + (levelCount - 1).toNat * tickSize.toNat < 2 ^ 64 := by
  have hpos : 0 < tickSize.toNat := by
    apply Nat.pos_of_ne_zero
    intro heq
    exact htick (UInt64.toNat_inj.mp heq)
  have hmin : minPrice.toNat ≤ uint64Max.toNat := by
    have hlt := minPrice.toNat_lt
    change minPrice.toNat ≤ 2 ^ 64 - 1
    omega
  rw [gt_iff_lt, UInt64.not_lt, UInt64.le_iff_toNat_le, UInt64.toNat_div,
    UInt64.toNat_sub_of_le _ _ (UInt64.le_iff_toNat_le.mpr hmin)] at hspan
  have hmul := (Nat.le_div_iff_mul_le hpos).mp hspan
  change _ ≤ 2 ^ 64 - 1 - minPrice.toNat at hmul
  change minPrice.toNat ≤ 2 ^ 64 - 1 at hmin
  omega

/-- What a successful construction checked and built. -/
theorem make_eq_ok {descending : Bool} {ladder : PriceLadder}
    (hok : make minPrice tickSize levelCount descending = .ok ladder) :
    minPrice ≠ 0 ∧ tickSize ≠ 0 ∧ levelCount ≠ 0 ∧
      ¬ levelCount - 1 > (uint64Max - minPrice) / tickSize ∧ ¬ maxLevels < levelCount.toNat ∧
      ladder = {
        minPrice, tickSize, maxPrice := minPrice + (levelCount - 1) * tickSize, levelCount,
        descending
        levels := Array.ofFn fun index : Fin levelCount.toNat =>
          { price := if descending then
              minPrice + (levelCount - 1) * tickSize - UInt64.ofNat index * tickSize
              else minPrice + UInt64.ofNat index * tickSize }
        words := Array.replicate ((levelCount + 63) / 64).toNat 0
        bestIndex := npos
        occupied := 0 } := by
  unfold make at hok
  by_cases hmin : minPrice = 0
  · simp [hmin] at hok
  by_cases htick : tickSize = 0
  · simp [hmin, htick] at hok
  by_cases hcount : levelCount = 0
  · simp [hmin, htick, hcount] at hok
  by_cases hspan : levelCount - 1 > (uint64Max - minPrice) / tickSize
  · simp [hmin, htick, hcount, hspan] at hok
  by_cases hmax : maxLevels < levelCount.toNat
  · simp [hmin, htick, hcount, hspan, hmax] at hok
  simp only [hmin, htick, hcount, hspan, hmax, if_false, Except.ok.injEq] at hok
  exact ⟨hmin, htick, hcount, hspan, hmax, hok.symm⟩

/-- A constructed ladder is configured and has every level empty. -/
theorem make_spec {descending : Bool} {ladder : PriceLadder}
    (hok : make minPrice tickSize levelCount descending = .ok ladder) :
    ladder.Configured ∧ ladder.Marked ∧ (∀ i, bitAt ladder.words i = false) ∧
      ∀ i < ladder.levelCount.toNat, ladder.level i = { price := (ladder.level i).price } := by
  obtain ⟨hmin, htick, hcount, hspan, hmax, rfl⟩ := make_eq_ok hok
  have hfits := span_fits htick hspan
  have hminPos : 0 < minPrice.toNat := by
    apply Nat.pos_of_ne_zero
    intro heq
    exact hmin (UInt64.toNat_inj.mp heq)
  have htickPos : 0 < tickSize.toNat := by
    apply Nat.pos_of_ne_zero
    intro heq
    exact htick (UInt64.toNat_inj.mp heq)
  have hcountPos : 0 < levelCount.toNat := by
    apply Nat.pos_of_ne_zero
    intro heq
    exact hcount (UInt64.toNat_inj.mp heq)
  have hone : (levelCount - 1).toNat = levelCount.toNat - 1 :=
    UInt64.toNat_sub_of_le _ _ (UInt64.le_iff_toNat_le.mpr hcountPos)
  rw [hone] at hfits
  have hmaxPrice : (minPrice + (levelCount - 1) * tickSize).toNat =
      minPrice.toNat + (levelCount.toNat - 1) * tickSize.toNat := by
    rw [UInt64.toNat_add, UInt64.toNat_mul, hone,
      Nat.mod_eq_of_lt (by omega : (levelCount.toNat - 1) * tickSize.toNat < 2 ^ 64)]
    exact Nat.mod_eq_of_lt hfits
  have hmaxLevels : maxLevels < 2 ^ 58 := by decide
  have hlevel : ∀ i (hi : i < levelCount.toNat), (PriceLadder.level {
      minPrice, tickSize, maxPrice := minPrice + (levelCount - 1) * tickSize, levelCount,
      descending
      levels := Array.ofFn fun index : Fin levelCount.toNat =>
        { price := if descending then
            minPrice + (levelCount - 1) * tickSize - UInt64.ofNat index * tickSize
            else minPrice + UInt64.ofNat index * tickSize }
      words := Array.replicate ((levelCount + 63) / 64).toNat 0
      bestIndex := npos
      occupied := 0 } i) = { price := if descending then
          minPrice + (levelCount - 1) * tickSize - UInt64.ofNat i * tickSize
          else minPrice + UInt64.ofNat i * tickSize } := by
    intro i hi
    simp [PriceLadder.level, hi]
  refine ⟨⟨hminPos, htickPos, hcountPos, Nat.le_of_not_lt hmax, hmaxPrice, by simp, ?_, ?_⟩,
    ⟨fun i _ => bitAt_replicate_zero _ i, ?_, Or.inl ⟨rfl, bitAt_replicate_zero _⟩⟩,
    bitAt_replicate_zero _, ?_⟩
  · simp only [Array.size_replicate]
    rw [UInt64.toNat_div, UInt64.toNat_add]
    change (levelCount.toNat + 63) % 2 ^ 64 / 64 = _
    rw [Nat.mod_eq_of_lt (by omega)]
  · intro i hi
    have hle : i * tickSize.toNat ≤ (levelCount.toNat - 1) * tickSize.toNat :=
      Nat.mul_le_mul_right _ (by change i < levelCount.toNat at hi; omega)
    have hmul : (UInt64.ofNat i * tickSize).toNat = i * tickSize.toNat := by
      have hlt := levelCount.toNat_lt
      change i < levelCount.toNat at hi
      rw [UInt64.toNat_mul, UInt64.toNat_ofNat_of_lt' (by rw [UInt64.size]; omega)]
      exact Nat.mod_eq_of_lt (by omega)
    rw [hlevel i hi, slotPrice]
    simp only
    split_ifs
    · rw [UInt64.toNat_sub_of_le _ _ (by rw [UInt64.le_iff_toNat_le, hmaxPrice, hmul]; omega),
        hmul]
    · rw [UInt64.toNat_add, hmul]
      exact Nat.mod_eq_of_lt (by omega)
  · simp only [bitAt_replicate_zero]
    simp
  · intro i hi
    rw [hlevel i hi]

end Construction

end PriceLadder

end Leka.PriceLadders
