import Leka.PriceLadders

/-!
A ladder as a finite set of prices. In every run of legal marks the occupancy bits are the
prices of the set, so the cached best index is the level of its best price, the counter its
size, and the scan from the best index its first elements in the order of priority.
-/

namespace Leka.LadderAsSet

open Procedures Orders PriceLevels PriceLadders PriceLadder WordBits

/-- The first price is ahead of the second on a ladder of the given direction. -/
def Better (descending : Bool) (p q : Price) : Prop :=
  if descending then q < p else p < q

/-- The ladders met in the runs of legal marks from an empty ladder, with the prices marked
occupied. A mark that throws leaves the ladder as it is. -/
inductive LadderRun (minPrice tickSize : Price) (levelCount : UInt64) (descending : Bool) :
    PriceLadder → Finset Price → Prop
  | start {ladder : PriceLadder}
      (hmake : PriceLadder.make minPrice tickSize levelCount descending = .ok ladder) :
      LadderRun minPrice tickSize levelCount descending ladder ∅
  | occupied {ladder ladder' : PriceLadder} {prices : Finset Price}
      (h : LadderRun minPrice tickSize levelCount descending ladder prices) {price : Price}
      (hempty : price ∉ prices) (hrun : markOccupied price ladder = (.returns (), ladder')) :
      LadderRun minPrice tickSize levelCount descending ladder' (insert price prices)
  | emptied {ladder ladder' : PriceLadder} {prices : Finset Price}
      (h : LadderRun minPrice tickSize levelCount descending ladder prices) {price : Price}
      (hoccupied : price ∈ prices) (hrun : markEmpty price ladder = (.returns (), ladder')) :
      LadderRun minPrice tickSize levelCount descending ladder' (prices.erase price)
  | refused {ladder ladder' : PriceLadder} {prices : Finset Price}
      (h : LadderRun minPrice tickSize levelCount descending ladder prices) {price : Price}
      {e : StdException} (hrun : markOccupied price ladder = (.throws e, ladder') ∨
        markEmpty price ladder = (.throws e, ladder')) :
      LadderRun minPrice tickSize levelCount descending ladder' prices

/-- The bits of the ladder are the prices of the set. -/
structure Holds (ladder : PriceLadder) (prices : Finset Price) : Prop where
  configured : ladder.Configured
  marked : ladder.Marked
  mem : ∀ p, p ∈ prices ↔
    ∃ index, ladder.indexOf p = .ok index ∧ bitAt ladder.words index.toNat = true

/-- The price of the level at an index. -/
def priceAt (ladder : PriceLadder) (i : ℕ) : Price := (ladder.level i).price

section Indices

variable {ladder : PriceLadder} {prices : Finset Price}

theorem indexOf_priceAt (h : ladder.Configured) {i : ℕ} (hi : i < ladder.levelCount.toNat) :
    ∃ index, ladder.indexOf (priceAt ladder i) = .ok index ∧ index.toNat = i := by
  have hcount := ladder.levelCount.toNat_lt
  refine ⟨UInt64.ofNat i, h.indexOf_slotPrice hi (h.level_price i hi), ?_⟩
  exact UInt64.toNat_ofNat_of_lt' (by rw [UInt64.size]; omega)

theorem priceAt_of_indexOf (h : ladder.Configured) {p : Price} {index : UInt64}
    (hindex : ladder.indexOf p = .ok index) : priceAt ladder index.toNat = p := by
  obtain ⟨hlt, hslot⟩ := h.indexOf_ok hindex
  apply UInt64.toNat_inj.mp
  exact (h.level_price _ hlt).trans hslot.symm

theorem priceAt_inj (h : ladder.Configured) {i j : ℕ} (hi : i < ladder.levelCount.toNat)
    (hj : j < ladder.levelCount.toNat) (heq : priceAt ladder i = priceAt ladder j) : i = j := by
  have hprice := congrArg UInt64.toNat heq
  rw [priceAt, priceAt, h.level_price i hi, h.level_price j hj] at hprice
  exact h.slotPrice_inj hi hj hprice

/-- A smaller index is a better price. -/
theorem better_priceAt (h : ladder.Configured) {i j : ℕ} (hij : i < j)
    (hj : j < ladder.levelCount.toNat) :
    Better ladder.descending (priceAt ladder i) (priceAt ladder j) := by
  have hslot := h.slotPrice_lt hij hj
  rw [← h.level_price i (by omega), ← h.level_price j hj] at hslot
  simp only [Better, UInt64.lt_iff_toNat_lt]
  exact hslot

theorem Holds.mem_priceAt (h : Holds ladder prices) {i : ℕ} (hi : i < ladder.levelCount.toNat) :
    priceAt ladder i ∈ prices ↔ bitAt ladder.words i = true := by
  obtain ⟨index, hindex, heq⟩ := indexOf_priceAt h.configured hi
  rw [h.mem, ← heq]
  constructor
  · intro hp
    obtain ⟨index', hindex', hbit⟩ := hp
    rw [heq, hindex] at hindex'
    rw [Except.ok.inj hindex']
    exact hbit
  · intro hbit
    exact ⟨index, by rw [heq]; exact hindex, hbit⟩

theorem Holds.exists_index (h : Holds ladder prices) {p : Price} (hp : p ∈ prices) :
    ∃ i < ladder.levelCount.toNat, bitAt ladder.words i = true ∧ priceAt ladder i = p := by
  obtain ⟨index, hindex, hbit⟩ := (h.mem p).mp hp
  exact ⟨index.toNat, (h.configured.indexOf_ok hindex).1, hbit,
    priceAt_of_indexOf h.configured hindex⟩

/-- The counter is the size of the set. -/
theorem Holds.card (h : Holds ladder prices) : ladder.occupied.toNat = prices.card := by
  rw [h.marked.occupied]
  refine Finset.card_bij (fun i _ => priceAt ladder i) ?_ ?_ ?_
  · intro i hi
    obtain ⟨hlt, hbit⟩ := Finset.mem_filter.mp hi
    exact (h.mem_priceAt (Finset.mem_range.mp hlt)).mpr hbit
  · intro i hi j hj heq
    obtain ⟨hi, _⟩ := Finset.mem_filter.mp hi
    obtain ⟨hj, _⟩ := Finset.mem_filter.mp hj
    exact priceAt_inj h.configured (Finset.mem_range.mp hi) (Finset.mem_range.mp hj) heq
  · intro p hp
    obtain ⟨i, hi, hbit, hprice⟩ := h.exists_index hp
    exact ⟨i, Finset.mem_filter.mpr ⟨Finset.mem_range.mpr hi, hbit⟩, hprice⟩

end Indices

section Marks

variable {ladder ladder' : PriceLadder} {prices : Finset Price} {price : Price}

theorem holds_make {minPrice tickSize : Price} {levelCount : UInt64} {descending : Bool}
    (hmake : PriceLadder.make minPrice tickSize levelCount descending = .ok ladder) :
    Holds ladder ∅ := by
  obtain ⟨hconf, hmarked, hclear, _⟩ := make_spec hmake
  refine ⟨hconf, hmarked, ?_⟩
  intro p
  simp [hclear]

/-- A mark that returns found the slot of its price. -/
theorem markOccupied_returns (hrun : markOccupied price ladder = (.returns (), ladder')) :
    ∃ index, ladder.indexOf price = .ok index ∧ ladder' = ladder.occupiedAt index := by
  cases hindex : ladder.indexOf price with
  | error e => simp [markOccupied, hindex] at hrun
  | ok index =>
    rw [markOccupied_run hindex] at hrun
    exact ⟨index, rfl, (congrArg Prod.snd hrun).symm⟩

theorem markEmpty_returns (hrun : markEmpty price ladder = (.returns (), ladder')) :
    ∃ index, ladder.indexOf price = .ok index ∧ ladder' = ladder.emptiedAt index := by
  cases hindex : ladder.indexOf price with
  | error e => simp [markEmpty, hindex] at hrun
  | ok index =>
    rw [markEmpty_run hindex] at hrun
    exact ⟨index, rfl, (congrArg Prod.snd hrun).symm⟩

/-- A mark that throws did so before any write. -/
theorem mark_throws {e : StdException} (hrun : markOccupied price ladder = (.throws e, ladder') ∨
    markEmpty price ladder = (.throws e, ladder')) : ladder' = ladder := by
  cases hindex : ladder.indexOf price with
  | error e' =>
    simp only [markOccupied, markEmpty, Proc.get_bind_apply, hindex, Proc.check_error,
      Proc.throw_bind_apply, Prod.mk.injEq] at hrun
    rcases hrun with hrun | hrun
    · exact hrun.2.symm
    · exact hrun.2.symm
  | ok index =>
    rw [markOccupied_run hindex, markEmpty_run hindex] at hrun
    simp at hrun

theorem Holds.occupied (h : Holds ladder prices) (hempty : price ∉ prices) {index : UInt64}
    (hindex : ladder.indexOf price = .ok index) :
    Holds (ladder.occupiedAt index) (insert price prices) := by
  obtain ⟨hlt, _⟩ := h.configured.indexOf_ok hindex
  have hprice := priceAt_of_indexOf h.configured hindex
  have hclear : bitAt ladder.words index.toNat = false := by
    rw [← Bool.not_eq_true, ← h.mem_priceAt hlt, hprice]
    exact hempty
  refine ⟨h.configured.occupiedAt index, h.marked.occupiedAt h.configured hlt hclear, ?_⟩
  intro p
  simp only [Finset.mem_insert, h.mem, (SameGrid.occupiedAt ladder index).indexOf_eq,
    bitAt_occupiedAt h.configured.words_size hlt, Bool.or_eq_true, decide_eq_true_eq]
  constructor
  · intro hp
    rcases hp with rfl | ⟨i, hi, hbit⟩
    · exact ⟨index, hindex, Or.inl rfl⟩
    · exact ⟨i, hi, Or.inr hbit⟩
  · intro hp
    obtain ⟨i, hi, heq | hbit⟩ := hp
    · left
      rw [← priceAt_of_indexOf h.configured hi, heq, hprice]
    · exact Or.inr ⟨i, hi, hbit⟩

theorem Holds.emptied (h : Holds ladder prices) (hoccupied : price ∈ prices) {index : UInt64}
    (hindex : ladder.indexOf price = .ok index) :
    Holds (ladder.emptiedAt index) (prices.erase price) := by
  obtain ⟨hlt, _⟩ := h.configured.indexOf_ok hindex
  have hprice := priceAt_of_indexOf h.configured hindex
  have hset : bitAt ladder.words index.toNat = true := by
    rw [← h.mem_priceAt hlt, hprice]
    exact hoccupied
  refine ⟨h.configured.emptiedAt index, h.marked.emptiedAt h.configured hlt hset, ?_⟩
  intro p
  simp only [Finset.mem_erase, h.mem, (SameGrid.emptiedAt ladder index).indexOf_eq,
    bitAt_emptiedAt h.configured.words_size hlt, Bool.and_eq_true, Bool.not_eq_true',
    decide_eq_false_iff_not]
  constructor
  · intro hp
    obtain ⟨hne, i, hi, hbit⟩ := hp
    refine ⟨i, hi, ?_, hbit⟩
    intro heq
    apply hne
    rw [← priceAt_of_indexOf h.configured hi, heq, hprice]
  · intro hp
    obtain ⟨i, hi, hne, hbit⟩ := hp
    refine ⟨?_, i, hi, hbit⟩
    rintro rfl
    rw [hindex] at hi
    exact hne (by rw [Except.ok.inj hi])

theorem LadderRun.holds {minPrice tickSize : Price} {levelCount : UInt64} {descending : Bool}
    (h : LadderRun minPrice tickSize levelCount descending ladder prices) :
    Holds ladder prices ∧ ladder.descending = descending := by
  induction h with
  | start hmake =>
    obtain ⟨_, _, _, _, _, hladder⟩ := make_eq_ok hmake
    exact ⟨holds_make hmake, by rw [hladder]⟩
  | occupied _ hempty hrun ih =>
    obtain ⟨index, hindex, rfl⟩ := markOccupied_returns hrun
    exact ⟨ih.1.occupied hempty hindex, ih.2⟩
  | emptied _ hoccupied hrun ih =>
    obtain ⟨index, hindex, rfl⟩ := markEmpty_returns hrun
    exact ⟨ih.1.emptied hoccupied hindex, ih.2⟩
  | refused _ hrun ih =>
    rw [mark_throws hrun]
    exact ih

end Marks

section Scans

variable {ladder : PriceLadder} {prices : Finset Price}

/-- The scan visits the set positions from `lo` on, in order, until it has visited enough. -/
theorem visit_spec (h : ladder.Configured)
    (hhigh : ∀ i, ladder.levelCount.toNat ≤ i → bitAt ladder.words i = false) (remaining : ℕ)
    (index : UInt64) (lo : ℕ)
    (hindex : (index = npos ∧ ∀ i, lo ≤ i → bitAt ladder.words i = false) ∨
      (index.toNat < ladder.levelCount.toNat ∧ LeastFrom (bitAt ladder.words) lo index.toNat)) :
    ∃ is : List ℕ, ladder.visit remaining index = is.map (LevelPtr.mk ladder.descending) ∧
      is.length ≤ remaining ∧ is.Pairwise (· < ·) ∧
      (∀ i ∈ is, lo ≤ i ∧ bitAt ladder.words i = true) ∧
      ∀ j, lo ≤ j → bitAt ladder.words j = true → j ∉ is →
        is.length = remaining ∧ ∀ i ∈ is, i < j := by
  induction remaining generalizing index lo with
  | zero => exact ⟨[], rfl, le_refl _, List.Pairwise.nil, by simp, fun j _ _ _ => ⟨rfl, by simp⟩⟩
  | succ remaining ih =>
    rcases hindex with ⟨hnone, hclear⟩ | ⟨hlt, hleast⟩
    · refine ⟨[], by simp [visit, hnone], by simp, List.Pairwise.nil, by simp, ?_⟩
      intro j hj hset
      rw [hclear j hj] at hset
      simp at hset
    · have hmaxLevels : maxLevels < 2 ^ 58 := by decide
      have hcount := h.levelCount_le
      have hstart : (index + 1).toNat = index.toNat + 1 := by
        rw [UInt64.toNat_add, UInt64.toNat_one]
        exact Nat.mod_eq_of_lt (by omega)
      have hnext := nextSetBit_spec h.words_size hhigh (index + 1)
      rw [hstart] at hnext
      obtain ⟨is, hvisit, hlength, hsorted, hset, hrest⟩ := ih _ (index.toNat + 1) hnext
      refine ⟨index.toNat :: is, ?_, by simpa using hlength, ?_, ?_, ?_⟩
      · simp only [visit, h.index_ne_npos hlt, if_false, hvisit, List.map_cons, levelPtr]
      · exact List.pairwise_cons.mpr ⟨fun i hi => (hset i hi).1, hsorted⟩
      · intro i hi
        rcases List.mem_cons.mp hi with rfl | hi
        · exact ⟨hleast.le, hleast.set⟩
        · obtain ⟨hge, hbit⟩ := hset i hi
          have hle := hleast.le
          exact ⟨by omega, hbit⟩
      · intro j hj hbit hnot
        rw [List.mem_cons, not_or] at hnot
        have hgt : index.toNat < j := by
          by_contra hge
          have hclear := hleast.least j hj (by omega)
          rw [hbit] at hclear
          simp at hclear
        obtain ⟨hfull, hbelow⟩ := hrest j hgt hbit hnot.2
        refine ⟨by rw [List.length_cons, hfull], ?_⟩
        intro i hi
        rcases List.mem_cons.mp hi with rfl | hi
        · exact hgt
        · exact hbelow i hi

/-- The level at an address is the level of a price. -/
def LevelOf (ladder : PriceLadder) (level : LevelPtr) (p : Price) : Prop :=
  ladder.levelAt p = .ok level ∧ (ladder.level level.index).price = p

theorem levelOf_priceAt (h : ladder.Configured) {i : ℕ} (hi : i < ladder.levelCount.toNat) :
    LevelOf ladder ⟨ladder.descending, i⟩ (priceAt ladder i) := by
  obtain ⟨index, hindex, heq⟩ := indexOf_priceAt h hi
  refine ⟨?_, rfl⟩
  rw [levelAt, hindex, Except.map, levelPtr, heq]

/-- The ladder answers as the ordered set of its occupied prices does. -/
structure OrderedSet (ladder : PriceLadder) (prices : Finset Price) : Prop where
  best_none : ladder.best = none ↔ prices = ∅
  best_some : ∀ level, ladder.best = some level → ∃ p ∈ prices, LevelOf ladder level p ∧
    ∀ q ∈ prices, q ≠ p → Better ladder.descending p q
  occupiedCount : ladder.occupied.toNat = prices.card
  forEachOccupied : ∀ k : UInt64, ∃ ps : List Price,
    List.Forall₂ (LevelOf ladder) (ladder.forEachOccupied k) ps ∧
    ps.length = min k.toNat prices.card ∧ ps.Pairwise (Better ladder.descending) ∧
    (∀ p ∈ ps, p ∈ prices) ∧
    ∀ q ∈ prices, q ∉ ps → ∀ p ∈ ps, Better ladder.descending p q

theorem Holds.best_none (h : Holds ladder prices) : ladder.best = none ↔ prices = ∅ := by
  rcases h.marked.best_cases h.configured with ⟨hnone, hclear⟩ | ⟨i, hsome, hi, hleast⟩
  · simp only [hnone, true_iff, Finset.eq_empty_iff_forall_notMem]
    intro p hp
    obtain ⟨i, _, hbit, _⟩ := h.exists_index hp
    rw [hclear i] at hbit
    simp at hbit
  · simp only [hsome, reduceCtorEq, false_iff]
    intro hempty
    have hmem := (h.mem_priceAt hi).mpr hleast.set
    rw [hempty] at hmem
    simp at hmem

theorem Holds.best_some (h : Holds ladder prices) {level : LevelPtr}
    (hbest : ladder.best = some level) : ∃ p ∈ prices, LevelOf ladder level p ∧
      ∀ q ∈ prices, q ≠ p → Better ladder.descending p q := by
  rcases h.marked.best_cases h.configured with ⟨hnone, _⟩ | ⟨i, hsome, hi, hleast⟩
  · rw [hnone] at hbest
    simp at hbest
  · rw [hsome] at hbest
    obtain rfl := Option.some.inj hbest
    refine ⟨priceAt ladder i, (h.mem_priceAt hi).mpr hleast.set,
      levelOf_priceAt h.configured hi, ?_⟩
    intro q hq hne
    obtain ⟨j, hj, hbit, rfl⟩ := h.exists_index hq
    have hij : i < j := by
      by_contra hge
      rcases Nat.lt_or_eq_of_le (Nat.le_of_not_lt hge) with hlt | heq
      · have hclear := hleast.least j (Nat.zero_le j) hlt
        rw [hbit] at hclear
        simp at hclear
      · exact hne (by rw [heq])
    exact better_priceAt h.configured hij hj

theorem Holds.forEachOccupied (h : Holds ladder prices) (k : UInt64) : ∃ ps : List Price,
    List.Forall₂ (LevelOf ladder) (ladder.forEachOccupied k) ps ∧
    ps.length = min k.toNat prices.card ∧ ps.Pairwise (Better ladder.descending) ∧
    (∀ p ∈ ps, p ∈ prices) ∧
    ∀ q ∈ prices, q ∉ ps → ∀ p ∈ ps, Better ladder.descending p q := by
  obtain ⟨is, hvisit, hlength, hsorted, hset, hrest⟩ :=
    visit_spec h.configured h.marked.high k.toNat ladder.bestIndex 0 (by
      rcases h.marked.best with ⟨hnone, hclear⟩ | hleast
      · exact Or.inl ⟨hnone, fun i _ => hclear i⟩
      · exact Or.inr ⟨h.marked.lt_of_set hleast.set, hleast⟩)
  have hlt : ∀ i ∈ is, i < ladder.levelCount.toNat := fun i hi => h.marked.lt_of_set (hset i hi).2
  have hmem : ∀ q ∈ prices, q ∉ is.map (priceAt ladder) →
      is.length = k.toNat ∧ ∀ p ∈ is.map (priceAt ladder), Better ladder.descending p q := by
    intro q hq hnot
    obtain ⟨j, hj, hbit, rfl⟩ := h.exists_index hq
    obtain ⟨hfull, hbelow⟩ := hrest j (Nat.zero_le j) hbit
      (fun hmem => hnot (List.mem_map_of_mem hmem))
    refine ⟨hfull, ?_⟩
    intro p hp
    obtain ⟨i, hi, rfl⟩ := List.mem_map.mp hp
    exact better_priceAt h.configured (hbelow i hi) hj
  have hnodup : (is.map (priceAt ladder)).Nodup := by
    refine List.Nodup.map_on ?_ (hsorted.imp fun hlt => Nat.ne_of_lt hlt)
    intro i hi j hj heq
    exact priceAt_inj h.configured (hlt i hi) (hlt j hj) heq
  have hsub : (is.map (priceAt ladder)).toFinset ⊆ prices := by
    intro p hp
    obtain ⟨i, hi, rfl⟩ := List.mem_map.mp (List.mem_toFinset.mp hp)
    exact (h.mem_priceAt (hlt i hi)).mpr (hset i hi).2
  have hcard : (is.map (priceAt ladder)).toFinset.card = is.length := by
    rw [List.toFinset_card_of_nodup hnodup, List.length_map]
  refine ⟨is.map (priceAt ladder), ?_, ?_, ?_, ?_, fun q hq hnot => (hmem q hq hnot).2⟩
  · rw [PriceLadder.forEachOccupied, hvisit, List.forall₂_map_left_iff, List.forall₂_map_right_iff,
      List.forall₂_same]
    exact fun i hi => levelOf_priceAt h.configured (hlt i hi)
  · have hle := Finset.card_le_card hsub
    rw [hcard] at hle
    rw [List.length_map]
    by_cases hall : prices ⊆ (is.map (priceAt ladder)).toFinset
    · have hge := Finset.card_le_card hall
      rw [hcard] at hge
      omega
    · -- a price is left out, so the scan stopped at its bound
      obtain ⟨q, hq, hnot⟩ := Finset.not_subset.mp hall
      obtain ⟨hfull, _⟩ := hmem q hq (fun hin => hnot (List.mem_toFinset.mpr hin))
      omega
  · refine List.pairwise_map.mpr (hsorted.imp_of_mem ?_)
    intro i j _ hj hij
    exact better_priceAt h.configured hij (hlt j hj)
  · intro p hp
    exact hsub (List.mem_toFinset.mpr hp)

/-- In every run of legal marks the ladder is the ordered set of its occupied prices. -/
theorem ladder_is_ordered_set {minPrice tickSize : Price} {levelCount : UInt64} {descending : Bool}
    (h : LadderRun minPrice tickSize levelCount descending ladder prices) :
    ladder.descending = descending ∧ OrderedSet ladder prices := by
  obtain ⟨hholds, hdescending⟩ := h.holds
  exact ⟨hdescending, hholds.best_none, fun _ => hholds.best_some, hholds.card,
    hholds.forEachOccupied⟩

/-- Two levels on either side of a word boundary, of which the first is emptied again. -/
theorem ordered_set_across_words : ∃ ladder : PriceLadder,
    ladder.best = some ⟨false, 64⟩ ∧ OrderedSet ladder {65} := by
  cases hmake : PriceLadder.make 1 1 130 false with
  | error e =>
    have hok : (PriceLadder.make 1 1 130 false).isOk = true := by decide +kernel
    rw [hmake] at hok
    simp [Except.isOk, Except.toBool] at hok
  | ok ladder =>
    obtain ⟨_, _, _, _, _, hladder⟩ := make_eq_ok hmake
    have h64 : ladder.indexOf 64 = .ok 63 := by
      rw [hladder]
      rfl
    have h65 : ladder.indexOf 65 = .ok 64 := by
      rw [hladder]
      rfl
    have hfirst := (LadderRun.start hmake).occupied (by simp) (markOccupied_run h64)
    have hsecond := hfirst.occupied (by decide) (markOccupied_run
      ((SameGrid.occupiedAt ladder 63).indexOf_eq 65 ▸ h65))
    have hthird := hsecond.emptied (by decide : (64 : Price) ∈ _) (markEmpty_run
      (((SameGrid.occupiedAt ladder 63).trans (SameGrid.occupiedAt _ 64)).indexOf_eq 64 ▸ h64))
    have hset := (ladder_is_ordered_set hthird).2
    have hprices : (insert 65 (insert 64 (∅ : Finset Price))).erase 64 = {65} := by decide
    rw [hprices] at hset
    refine ⟨_, ?_, hset⟩
    rw [hladder]
    decide +kernel

end Scans

end Leka.LadderAsSet
