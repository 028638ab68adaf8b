import Leka.BookRuns
import Mathlib.Data.Set.Basic
import Mathlib.Order.Bounds.Basic

/-!
The search for the next occupied level, over every occupancy bitset of the right number
of words: it finds the least set position at or after its argument, it never reads past
the words and never shifts by a whole word. Marking a level keeps the positions above
the last level clear and changes the bit of that level alone.
-/

namespace Leka.BitSearches

open Procedures Orders PriceLadders PriceLadder OrderBooks MatchingEngines BookRuns WordBits

section Checked

/-- `v >> k`, which is undefined from the width of the word on. -/
def shiftChecked (v k : UInt64) : Option UInt64 :=
  if k < 64 then some (v >>> k) else none

/-- `scanWords` with every word read through the bounds of the vector. -/
def scanWordsChecked (self : PriceLadder) : ℕ → ℕ → Option UInt64
  | 0, _ => some npos
  | remaining + 1, w => do
    let value ← self.words[w]?
    if value ≠ 0 then
      let index := UInt64.ofNat w * 64 + countrZero value
      some (if index < self.levelCount then index else npos)
    else scanWordsChecked self remaining (w + 1)

/-- `nextSetBit`, undefined where it would leave the words or shift by a whole word. -/
def nextSetBitChecked (self : PriceLadder) (start : UInt64) : Option UInt64 :=
  if start ≥ self.levelCount then some npos
  else do
    let startWord := start / 64
    let startBit := start % 64
    let value ← self.words[startWord.toNat]?
    let firstWord ← shiftChecked value startBit
    if firstWord ≠ 0 then some (start + countrZero firstWord)
    else
      scanWordsChecked self (self.words.size - (startWord.toNat + 1)) (startWord.toNat + 1)

end Checked

/-- An occupancy bitset: as many words as the levels need, clear above the last level. -/
structure Bitset (ladder : PriceLadder) : Prop where
  size : ladder.words.size = (ladder.levelCount.toNat + 63) / 64
  high : ∀ i, ladder.levelCount.toNat ≤ i → bitAt ladder.words i = false

/-- The prices of the ladder are `levelCount` ticks from its lowest price on. -/
structure OnTicks (ladder : PriceLadder) : Prop where
  tickSize_pos : 0 < ladder.tickSize.toNat
  maxPrice_eq : ladder.maxPrice.toNat =
    ladder.minPrice.toNat + (ladder.levelCount.toNat - 1) * ladder.tickSize.toNat

/-- The set positions of the levels at or after `start`. -/
def setFrom (ladder : PriceLadder) (start : ℕ) : Set ℕ :=
  {p | start ≤ p ∧ p < ladder.levelCount.toNat ∧ bitAt ladder.words p = true}

section Ladders

variable {ladder : PriceLadder}

theorem Bitset.of_marked (h : ladder.Configured) (hm : ladder.Marked) : Bitset ladder :=
  ⟨h.words_size, hm.high⟩

theorem OnTicks.of_configured (h : ladder.Configured) : OnTicks ladder :=
  ⟨h.tickSize_pos, h.maxPrice_eq⟩

theorem word_getElem {ws : Words} {w : ℕ} (hw : w < ws.size) : ws[w]? = some (word ws w) := by
  simp [word, hw]

/-- The scan stays inside the words. -/
theorem scanWords_checked : ∀ (remaining w : ℕ), w + remaining = ladder.words.size →
    scanWordsChecked ladder remaining w = some (ladder.scanWords remaining w) := by
  intro remaining
  induction remaining with
  | zero =>
    intro w _
    rfl
  | succ remaining ih =>
    intro w hw
    have hlt : w < ladder.words.size := by omega
    have hread := word_getElem hlt
    unfold scanWordsChecked scanWords
    by_cases hzero : word ladder.words w = 0
    · simp only [hread, Option.bind_eq_bind, Option.bind_some, hzero, ne_eq, not_true, if_false]
      exact ih (w + 1) (by omega)
    · simp only [hread, Option.bind_eq_bind, Option.bind_some, ne_eq, hzero, not_false_eq_true,
        if_true]

theorem nextSetBit_checked (h : Bitset ladder) (start : UInt64) :
    nextSetBitChecked ladder start = some (ladder.nextSetBit start) := by
  unfold nextSetBitChecked nextSetBit
  by_cases hend : start ≥ ladder.levelCount
  · rw [if_pos hend, if_pos hend]
  · rw [if_neg hend, if_neg hend]
    have hlt : start.toNat < ladder.levelCount.toNat := by
      simpa [UInt64.lt_iff_toNat_lt] using hend
    have hword : (start / 64).toNat = start.toNat / 64 := UInt64.toNat_div _ _
    have hindex : (start / 64).toNat < ladder.words.size := by
      rw [hword]
      exact wordIndex_lt h.size hlt
    have hbit : start % 64 < 64 := by
      have hmod : (start % 64).toNat = start.toNat % 64 := UInt64.toNat_mod _ _
      have hlow : start.toNat % 64 < 64 := Nat.mod_lt _ (by omega)
      rw [UInt64.lt_iff_toNat_lt, hmod]
      exact hlow
    simp only [word_getElem hindex, shiftChecked, if_pos hbit, Option.bind_eq_bind,
      Option.bind_some]
    split_ifs with hzero
    · rfl
    · exact scanWords_checked _ _ (by omega)

/-- The search finds the least set position, and the sentinel when there is none. -/
theorem nextSetBit_least (h : Bitset ladder) (start : UInt64) :
    (ladder.nextSetBit start = npos ∧ setFrom ladder start.toNat = ∅) ∨
      IsLeast (setFrom ladder start.toNat) (ladder.nextSetBit start).toNat := by
  rcases nextSetBit_spec h.size h.high start with ⟨hnone, hclear⟩ | ⟨hlt, hleast⟩
  · left
    refine ⟨hnone, Set.eq_empty_iff_forall_notMem.mpr ?_⟩
    rintro p ⟨hlo, _, hset⟩
    rw [hclear p hlo] at hset
    simp at hset
  · right
    refine ⟨⟨hleast.le, hlt, hleast.set⟩, ?_⟩
    rintro p ⟨hlo, _, hset⟩
    by_contra hbefore
    rw [hleast.least p hlo (by omega)] at hset
    simp at hset

end Ladders

section Marking

variable {ladder : PriceLadder} {index : UInt64}

theorem Bitset.occupiedAt (h : Bitset ladder) (hi : index.toNat < ladder.levelCount.toNat) :
    Bitset (ladder.occupiedAt index) where
  size := by
    simp only [PriceLadder.occupiedAt, size_setWord]
    exact h.size
  high j hj := by
    change ladder.levelCount.toNat ≤ j at hj
    have hne : j ≠ index.toNat := by omega
    rw [bitAt_occupiedAt h.size hi, h.high j hj]
    simp [hne]

theorem Bitset.emptiedAt (h : Bitset ladder) (hi : index.toNat < ladder.levelCount.toNat) :
    Bitset (ladder.emptiedAt index) where
  size := by
    simp only [PriceLadder.emptiedAt, PriceLadder.clearedAt, size_setWord]
    exact h.size
  high j hj := by
    change ladder.levelCount.toNat ≤ j at hj
    rw [bitAt_emptiedAt h.size hi, h.high j hj]
    simp

theorem OnTicks.indexOf {i : ℕ} (h : OnTicks ladder) (hi : i < ladder.levelCount.toNat)
    {price : Price} (hprice : price.toNat = ladder.slotPrice i) :
    ladder.indexOf price = .ok (UInt64.ofNat i) :=
  indexOf_slotPrice h.tickSize_pos h.maxPrice_eq hi hprice

theorem toNat_slot {i : ℕ} (hi : i < ladder.levelCount.toNat) :
    (UInt64.ofNat i).toNat = i := by
  have hcount := ladder.levelCount.toNat_lt
  exact UInt64.toNat_ofNat_of_lt' (by rw [UInt64.size]; omega)

/-- Marking the level of a price occupied sets its bit and no other. -/
theorem markOccupied_bit (h : Bitset ladder) (ht : OnTicks ladder) {i : ℕ}
    (hi : i < ladder.levelCount.toNat) {price : Price} (hprice : price.toNat = ladder.slotPrice i) :
    ∃ after, markOccupied price ladder = (.returns (), after) ∧ Bitset after ∧
      ∀ j, bitAt after.words j = (decide (j = i) || bitAt ladder.words j) := by
  have hindex : (UInt64.ofNat i).toNat < ladder.levelCount.toNat := by
    rw [toNat_slot hi]
    exact hi
  refine ⟨_, markOccupied_run (ht.indexOf hi hprice), h.occupiedAt hindex, ?_⟩
  intro j
  rw [bitAt_occupiedAt h.size hindex, toNat_slot hi]

/-- Marking the level of a price empty clears its bit and no other. -/
theorem markEmpty_bit (h : Bitset ladder) (ht : OnTicks ladder) {i : ℕ}
    (hi : i < ladder.levelCount.toNat) {price : Price} (hprice : price.toNat = ladder.slotPrice i) :
    ∃ after, markEmpty price ladder = (.returns (), after) ∧ Bitset after ∧
      ∀ j, bitAt after.words j = (!decide (j = i) && bitAt ladder.words j) := by
  have hindex : (UInt64.ofNat i).toNat < ladder.levelCount.toNat := by
    rw [toNat_slot hi]
    exact hi
  refine ⟨_, markEmpty_run (ht.indexOf hi hprice), h.emptiedAt hindex, ?_⟩
  intro j
  rw [bitAt_emptiedAt h.size hindex, toNat_slot hi]

/-- The search is exact and stays in bounds on every occupancy bitset, and marking the
level of a price keeps the bitset and changes the bit of that level alone. -/
theorem nextSetBit_exact (h : Bitset ladder) :
    (∀ start : UInt64, nextSetBitChecked ladder start = some (ladder.nextSetBit start) ∧
      ((ladder.nextSetBit start = npos ∧ setFrom ladder start.toNat = ∅) ∨
        IsLeast (setFrom ladder start.toNat) (ladder.nextSetBit start).toNat)) ∧
    (OnTicks ladder → ∀ i < ladder.levelCount.toNat, ∀ price : Price,
      price.toNat = ladder.slotPrice i →
      (∃ after, markOccupied price ladder = (.returns (), after) ∧ Bitset after ∧
        ∀ j, bitAt after.words j = (decide (j = i) || bitAt ladder.words j)) ∧
      ∃ after, markEmpty price ladder = (.returns (), after) ∧ Bitset after ∧
        ∀ j, bitAt after.words j = (!decide (j = i) && bitAt ladder.words j)) := by
  constructor
  · intro start
    exact ⟨nextSetBit_checked h start, nextSetBit_least h start⟩
  · intro ht i hi price hprice
    exact ⟨markOccupied_bit h ht hi hprice, markEmpty_bit h ht hi hprice⟩

end Marking

/-- The ladders of a reachable book have such a bitset and such prices, so each of their searches
finds the least set position and stays inside the words. -/
theorem reachable_search {hash : OrderId → UInt64} {s : EngineState} (h : Reachable hash AnyCall s)
    (d : Bool) (start : UInt64) :
    OnTicks (s.orderBook.ladder d) ∧
      nextSetBitChecked (s.orderBook.ladder d) start =
        some ((s.orderBook.ladder d).nextSetBit start) ∧
      (((s.orderBook.ladder d).nextSetBit start = npos ∧
          setFrom (s.orderBook.ladder d) start.toNat = ∅) ∨
        IsLeast (setFrom (s.orderBook.ladder d) start.toNat)
          ((s.orderBook.ladder d).nextSetBit start).toNat) := by
  have hsynced := (reachable_sound h).synced
  have hbitset := Bitset.of_marked (hsynced.configured d) (hsynced.marked d)
  exact ⟨.of_configured (hsynced.configured d), nextSetBit_checked hbitset start,
    nextSetBit_least hbitset start⟩

/-- Seventy empty levels in two words. -/
def seventyLevels : PriceLadder where
  minPrice := 1
  tickSize := 1
  maxPrice := 70
  levelCount := 70
  descending := false
  levels := #[]
  words := Array.replicate 2 0
  bestIndex := npos
  occupied := 0

theorem seventyLevels_bitset : Bitset (seventyLevels.occupiedAt 66) := by
  have hempty : Bitset seventyLevels := ⟨rfl, fun i _ => bitAt_replicate_zero 2 i⟩
  exact hempty.occupiedAt (by decide)

theorem nextSetBit_exact_seventy :
    nextSetBitChecked (seventyLevels.occupiedAt 66) 3 = some 66 ∧
      IsLeast (setFrom (seventyLevels.occupiedAt 66) 3) 66 ∧
      ∃ after, markEmpty 67 (seventyLevels.occupiedAt 66) = (.returns (), after) ∧
        Bitset after ∧ bitAt after.words 66 = false := by
  have hfound : (seventyLevels.occupiedAt 66).nextSetBit 3 = 66 := by decide +kernel
  obtain ⟨hsearch, hmark⟩ := nextSetBit_exact seventyLevels_bitset
  obtain ⟨hchecked, hleast⟩ := hsearch 3
  rw [hfound] at hchecked hleast
  refine ⟨hchecked, ?_, ?_⟩
  · rcases hleast with ⟨hnone, _⟩ | hleast
    · exact absurd hnone (by decide)
    · exact hleast
  · obtain ⟨_, after, hrun, hbits, hclear⟩ :=
      hmark ⟨by decide, by decide⟩ 66 (by decide) 67 (by decide)
    exact ⟨after, hrun, hbits, by simp [hclear]⟩

end Leka.BitSearches
