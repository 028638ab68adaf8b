import Leka.ReplayTraces
import Leka.ExecutionGroups

/-!
The ladder that the replay sizes for its book. The headroom is not rounded to whole ticks, so
the lowest level keeps the residue of the observed prices only when the scaled span is a whole
number of ticks, or when the subtraction does not happen at all. Exactly then the ladder has a
level for every noted price, and no order of the second pass is turned away by it.
-/

namespace Leka.ReplayLadders

open Procedures Orders PriceLadders OrderBooks MatchingEngines RestingOrders EventOutcomes BookRuns
  BookGrids InternalErrors LadderAddresses Numerals CsvReaders ItchReplays ReplayTraces
  ExecutionGroups
open LadderSizes hiding headroom ladderSize

/-- The price that a row brings to the range: that of an added order, or the worst one of the
group that an execution belongs to. -/
def noticed (scan : Scan) (f : Row) : UInt64 :=
  match addedRef f, executedSide scan f with
  | some _, _ => priceOf f
  | none, some restingSide =>
    (((scanRow scan f).aggregates.lookup (keyOf (tsOf f) restingSide)).map
      Aggregate.priceExtreme).getD 0
  | none, none => 0

def noticesFrom : Scan → List Row → List UInt64
  | _, [] => []
  | scan, f :: rows => noticed scan f :: noticesFrom (scanRow scan f) rows

/-- The nonzero prices that the first pass notes. -/
def noted (rows : List Row) : List UInt64 := (noticesFrom {} rows).filter (· ≠ 0)

/-- The scaled span of a file, and the sizing of its ladder. -/
def scaledSpan (setting : Setting) (text : Text) : UInt64 :=
  setting.scale (passOne (dataRows text)).range.span

def sizeOf (setting : Setting) (text : Text) : LadderSize :=
  ladderSize setting.tick (scaledSpan setting text) (passOne (dataRows text)).range

/-- The ladder holds every price of the replay: the book is accepted, both of its sides have a
level for every noted price, and no call of the second pass answers with an error of the
ladder. -/
structure HoldsEveryPrice (setting : Setting) (text : Text) : Prop where
  accepted : ∃ book, OrderBook.make setting.memory (sizeOf setting text).ladderMin setting.tick
      (sizeOf setting text).levelCount = .ok book ∧
    ∀ p ∈ noted (dataRows text), ∀ d, ∃ l, (book.ladder d).levelAt p = .ok l
  replayed : ∀ sub ∈ (itchReplay setting text).submissions, ∀ e, sub.outcome = .throws e →
    e ∉ ladderErrors

section Notes

variable {scan : Scan} {f : Row} {rows : List Row}

theorem scanRow_range (scan : Scan) (f : Row) :
    (scanRow scan f).range = noteRange scan.range (noticed scan f) := by
  unfold noticed
  have hstep := scanRow_step scan f
  generalize scanRow scan f = after at hstep ⊢
  cases hstep with
  | ignored hadded hexecuted | deleted hadded hexecuted => simp [hadded, hexecuted, noteRange]
  | added _ hadded _ => simp [hadded]
  | replaced hadded _ => simp [hadded]
  | executed hadded hexecuted _ => simp [hadded, hexecuted]

/-- The entries behind a row are those in front of it, or have the price that it brings. -/
theorem scanRow_lookup {key : UInt64} {agg : Aggregate}
    (hfound : (scanRow scan f).aggregates.lookup key = some agg) :
    agg.priceExtreme = noticed scan f ∨ scan.aggregates.lookup key = some agg := by
  unfold noticed
  have hstep := scanRow_step scan f
  generalize scanRow scan f = after at hstep hfound ⊢
  cases hstep with
  | ignored | deleted | added | replaced => exact .inr hfound
  | @executed restingSide _ hadded hexecuted _ =>
    by_cases hkey : key = keyOf (tsOf f) restingSide
    · subst hkey
      rw [AList.lookup_insert, Option.some.injEq] at hfound
      exact .inl (by simp [hadded, hexecuted, hfound])
    · rw [AList.lookup_insert_ne hkey] at hfound
      exact .inr hfound

/-- The range is that of the prices that the rows bring. -/
theorem foldl_scanRow_range (scan : Scan) (rows : List Row) :
    (rows.foldl scanRow scan).range = (noticesFrom scan rows).foldl noteRange scan.range := by
  induction rows generalizing scan with
  | nil => rfl
  | cons f rows ih => rw [List.foldl_cons, ih, noticesFrom, List.foldl_cons, scanRow_range]

/-- The worst price of an entry was brought when it was last written. -/
theorem foldl_scanRow_lookup {key : UInt64} {agg : Aggregate}
    (hfound : (rows.foldl scanRow scan).aggregates.lookup key = some agg) :
    agg.priceExtreme ∈ noticesFrom scan rows ∨ scan.aggregates.lookup key = some agg := by
  induction rows generalizing scan with
  | nil => exact .inr hfound
  | cons f rows ih =>
    rcases ih hfound with hmem | hfound
    · exact .inl (List.mem_cons_of_mem _ hmem)
    · rcases scanRow_lookup hfound with heq | hfound
      · exact .inl (heq ▸ List.mem_cons_self)
      · exact .inr hfound

theorem priceOf_mem (hf : f ∈ rows) {ref : UInt64} (hadded : addedRef f = some ref) (scan : Scan) :
    priceOf f ∈ noticesFrom scan rows := by
  induction rows generalizing scan with
  | nil => simp at hf
  | cons g rows ih =>
    rcases List.mem_cons.mp hf with rfl | hf
    · have hfirst : noticed scan f = priceOf f := by simp [noticed, hadded]
      exact hfirst ▸ List.mem_cons_self
    · exact List.mem_cons_of_mem _ (ih hf _)

theorem mem_noted {p : UInt64} (hp : p ∈ noticesFrom {} rows) : p = 0 ∨ p ∈ noted rows := by
  by_cases hzero : p = 0
  · exact .inl hzero
  · exact .inr (List.mem_filter.mpr ⟨hp, by simpa using hzero⟩)

theorem noted_ne {p : UInt64} (hp : p ∈ noted rows) : p ≠ 0 := by
  simpa using (List.mem_filter.mp hp).2

theorem range_extends (rows : List Row) : Extends {} (passOne rows).range (noted rows) := by
  have hrange : (passOne rows).range = (noticesFrom {} rows).foldl noteRange {} :=
    foldl_scanRow_range {} rows
  rw [hrange]
  exact foldl_noteRange_extends {} (noticesFrom {} rows)

/-- The orders of the rows have noted prices or none. -/
theorem priced_noted (hf : f ∈ rows) : Priced {p | p = 0 ∨ p ∈ noted rows} f := by
  intro msg hmsg htype
  have hadded : ∃ ref, addedRef f = some ref := by
    simp only [addedRef, hmsg]
    rcases htype with rfl | rfl | rfl
    · exact ⟨refOf f, rfl⟩
    · exact ⟨refOf f, rfl⟩
    · exact ⟨newRefOf f, rfl⟩
  obtain ⟨ref, hadded⟩ := hadded
  exact mem_noted (priceOf_mem hf hadded {})

/-- The worst prices of the groups are noted or 0. -/
theorem extreme_noted {entry : Entry} (hentry : entry ∈ (passOne rows).aggregates.entries) :
    entry.2.priceExtreme = 0 ∨ entry.2.priceExtreme ∈ noted rows := by
  have hfound : (passOne rows).aggregates.lookup entry.1 = some entry.2 :=
    AList.mem_lookup_iff.mpr hentry
  rcases foldl_scanRow_lookup hfound with hmem | hempty
  · exact mem_noted hmem
  · simp at hempty

end Notes

section Arithmetic

variable {tick scaled lo hi : UInt64}

theorem headroom_toNat (hroom : scaled.toNat + tick.toNat < 2 ^ 64) :
    (headroom tick scaled).toNat = scaled.toNat + tick.toNat := by
  rw [headroom, UInt64.toNat_add, Nat.mod_eq_of_lt hroom]

/-- The lowest level is a price no higher than the lowest noted one. A multiple of the tick is
on its grid unless it was shifted by part of a tick. -/
theorem ladderMin_spec (htick : tick ≠ 0) (hlo : lo ≠ 0) (hdvd : tick.toNat ∣ lo.toNat)
    (hroom : scaled.toNat + tick.toNat < 2 ^ 64) (hi : UInt64) :
    (ladderSize tick scaled ⟨lo, hi⟩).ladderMin ≠ 0 ∧
    (ladderSize tick scaled ⟨lo, hi⟩).ladderMin ≤ lo ∧
    ∀ p : Price, lo ≤ p → tick.toNat ∣ p.toNat →
      (tick.toNat ∣ p.toNat - (ladderSize tick scaled ⟨lo, hi⟩).ladderMin.toNat ↔
        lo.toNat ≤ scaled.toNat + tick.toNat ∨ tick.toNat ∣ scaled.toNat) := by
  have hhead := headroom_toNat hroom
  simp only [ladderSize]
  by_cases habove : lo > headroom tick scaled
  · have hlt := UInt64.lt_iff_toNat_lt.mp habove
    have hsub : (lo - headroom tick scaled).toNat = lo.toNat - (headroom tick scaled).toNat :=
      UInt64.toNat_sub_of_le _ _ (UInt64.le_of_lt habove)
    rw [if_pos habove]
    refine ⟨?_, ?_, ?_⟩
    · intro heq
      rw [heq] at hsub
      change 0 = _ at hsub
      omega
    · rw [UInt64.le_iff_toNat_le, hsub]
      exact Nat.sub_le _ _
    · intro p hlop hpdvd
      have hlop' := UInt64.le_iff_toNat_le.mp hlop
      -- the distance is that from the lowest price, a whole number of ticks, and the headroom
      have hsplit : p.toNat - (lo - headroom tick scaled).toNat =
          (p.toNat - lo.toNat) + tick.toNat + scaled.toNat := by omega
      have hwhole : tick.toNat ∣ (p.toNat - lo.toNat) + tick.toNat :=
        Nat.dvd_add (Nat.dvd_sub hpdvd hdvd) (Nat.dvd_refl _)
      rw [hsplit, Nat.dvd_add_right hwhole]
      constructor
      · exact .inr
      · rintro (hle | hdvd)
        · omega
        · exact hdvd
  · have hnot := mt UInt64.lt_iff_toNat_lt.mpr habove
    rw [if_neg habove]
    refine ⟨htick, ?_, ?_⟩
    · rw [UInt64.le_iff_toNat_le]
      exact Nat.le_of_dvd (toNat_pos hlo) hdvd
    · intro p _ hpdvd
      exact ⟨fun _ => .inl (by omega), fun _ => Nat.dvd_sub hpdvd (Nat.dvd_refl _)⟩

/-- The constructor accepts the sizing, and a multiple of the tick between the extremes is the
price of a level unless the lowest level was shifted by part of a tick. -/
theorem ladderSize_spec (htick : tick ≠ 0) (hlo : lo ≠ 0) (hle : lo ≤ hi)
    (hdvd : tick.toNat ∣ lo.toNat) (hroom : hi.toNat + scaled.toNat + tick.toNat < 2 ^ 64) :
    (ladderSize tick scaled ⟨lo, hi⟩).ladderMin ≠ 0 ∧
    (ladderSize tick scaled ⟨lo, hi⟩).levelCount ≠ 0 ∧
    topPrice (ladderSize tick scaled ⟨lo, hi⟩).ladderMin tick
        (ladderSize tick scaled ⟨lo, hi⟩).levelCount ≤ 2 ^ 64 - 1 ∧
    ∀ p : Price, lo ≤ p → p ≤ hi → tick.toNat ∣ p.toNat →
      (p ∈ Grid (ladderSize tick scaled ⟨lo, hi⟩).ladderMin tick
          (ladderSize tick scaled ⟨lo, hi⟩).levelCount ↔
        lo.toNat ≤ scaled.toNat + tick.toNat ∨ tick.toNat ∣ scaled.toNat) := by
  have hhead : scaled.toNat + tick.toNat < 2 ^ 64 := by omega
  obtain ⟨hne, hmin, hresidue⟩ := ladderMin_spec htick hlo hdvd hhead hi
  have hcount : (ladderSize tick scaled ⟨lo, hi⟩).levelCount =
      (hi + headroom tick scaled - (ladderSize tick scaled ⟨lo, hi⟩).ladderMin) / tick + 1 := rfl
  rw [hcount]
  generalize (ladderSize tick scaled ⟨lo, hi⟩).ladderMin = lower at hne hmin hresidue
  have hmin' := UInt64.le_iff_toNat_le.mp hmin
  have hlohi := UInt64.le_iff_toNat_le.mp hle
  have hmax : (hi + headroom tick scaled).toNat = hi.toNat + (headroom tick scaled).toNat := by
    rw [UInt64.toNat_add, headroom_toNat hhead, Nat.mod_eq_of_lt (by omega)]
  have hends : lower ≤ hi + headroom tick scaled := by
    rw [UInt64.le_iff_toNat_le, hmax]
    omega
  refine ⟨hne, ?_, ?_, ?_⟩
  · intro hzero
    have hlevels := levelCount_toNat hne hends tick
    rw [hzero] at hlevels
    exact Nat.succ_ne_zero _ hlevels.symm
  · have hlt := (hi + headroom tick scaled).toNat_lt
    have hends' := UInt64.le_iff_toNat_le.mp hends
    have hfloor := Nat.div_mul_le_self ((hi + headroom tick scaled).toNat - lower.toNat) tick.toNat
    rw [topPrice_between hne hends]
    omega
  · intro p hlop hphi hpdvd
    have hlop' := UInt64.le_iff_toNat_le.mp hlop
    have hphi' := UInt64.le_iff_toNat_le.mp hphi
    rw [mem_grid_between htick hne hends, ← hresidue p hlop hpdvd, hmax]
    constructor
    · exact fun h => h.2.2
    · exact fun h => ⟨by omega, by omega, h⟩

end Arithmetic

section Replays

variable {hash : OrderId → UInt64} {minPrice tick levelCount : UInt64}

/-- On a sound book with the grid, orders with prices on the grid or none keep the grid and meet
no error of the ladder. -/
theorem plays_onGrid (hash : OrderId → UInt64) {prices : List UInt64}
    (hlisted : ∀ p ∈ prices, p ∈ Grid minPrice tick levelCount) :
    Plays hash
      (fun s => Sound hash s.orderBook ∧
        ∀ d, HasGrid (s.orderBook.ladder d) minPrice tick levelCount d)
      {p | p = 0 ∨ p ∈ prices} fun o => ∀ e, o = .throws e → e ∉ ladderErrors where
  sound _ h := h.1
  step host event s h hprices := by
    obtain ⟨hs, hgrid⟩ := h
    have hsound := sound_processEvent hs host event
    have hsame := grids_event hs host event
    refine ⟨⟨hsound, fun d => (hgrid d).same (hsound.synced.configured d) (hsame d)⟩, ?_⟩
    refine processEvent_onGrid hs host hgrid fun order hnew _ hne => ?_
    rcases hprices order hnew with hzero | hmem
    · exact absurd hzero hne
    · exact hlisted _ hmem

/-- A level is a price of the grid. -/
theorem levelAt_accepts {ladder : PriceLadder} {d : Bool} {p : Price}
    (h : HasGrid ladder minPrice tick levelCount d) :
    (∃ l, ladder.levelAt p = .ok l) ↔ p ∈ Grid minPrice tick levelCount := by
  rw [← h.addresses.accepts p]
  unfold PriceLadder.levelAt
  cases ladder.indexOf p <;> simp [Except.map]

/-- The book of the second pass has the grid of the sizing. -/
theorem openBook_grid {setting : Setting} {text : Text} {book : OrderBook}
    (hopen : openBook setting (passOne (dataRows text)) = (.returns (), some book)) (d : Bool) :
    HasGrid (book.ladder d) (sizeOf setting text).ladderMin setting.tick
      (sizeOf setting text).levelCount d := by
  have hsound : Sound setting.hash book := openBook_sound hopen
  obtain ⟨made, hmade, hreserve⟩ := openBook_made hopen
  have hsame := grids_reserved (@sound_make setting.hash _ _ _ _ _ hmade) setting.host
    ((passOne (dataRows text)).rowCount +
      UInt64.ofNat (passOne (dataRows text)).aggregates.entries.length)
  rw [hreserve] at hsame
  exact (hasGrid_made ((make_ladders hmade).1 d)).same (hsound.synced.configured d) (hsame d)

/-- When every noted price is on the grid, no call of the second pass meets an error of the
ladder. -/
theorem replayed_onGrid {setting : Setting} {text : Text}
    (hvisit : ∀ entries, (setting.visit entries).Perm entries)
    (hlisted : ∀ p ∈ noted (dataRows text),
      p ∈ Grid (sizeOf setting text).ladderMin setting.tick (sizeOf setting text).levelCount) :
    ∀ sub ∈ (itchReplay setting text).submissions, ∀ e, sub.outcome = .throws e →
      e ∉ ladderErrors := by
  intro sub hsub
  obtain ⟨o, s, hrun, hsub⟩ := mem_submissions hsub
  obtain ⟨book, hopen, hpass⟩ := itchReplay_replayed hrun
  let engine : EngineState := ⟨setting.currentSequence, book, []⟩
  have hinv : Sound setting.hash engine.orderBook ∧
      ∀ d, HasGrid (engine.orderBook.ladder d) (sizeOf setting text).ladderMin setting.tick
        (sizeOf setting text).levelCount d :=
    ⟨openBook_sound hopen, openBook_grid hopen⟩
  obtain ⟨s', hrun', hok, -⟩ := passTwo_traces (plays_onGrid setting.hash hlisted) setting.hosts
    hinv (fun f hf => priced_noted hf)
    fun entry hentry => extreme_noted ((hvisit _).mem_iff.mp hentry)
  obtain ⟨rfl, rfl⟩ := Prod.ext_iff.mp (hrun'.symm.trans hpass)
  exact hok sub hsub

end Replays

/-- With noted prices that are multiples of the tick, an upper end of 64 bits and levels that
fit in memory, the ladder holds every price of the replay exactly when some noted price is no
higher than the headroom, or the scaled span is a whole number of ticks. -/
theorem ladder_holds_iff (setting : Setting) (text : Text)
    (hvisit : ∀ entries, (setting.visit entries).Perm entries) (htick : setting.tick ≠ 0)
    (hsome : noted (dataRows text) ≠ [])
    (hmultiples : ∀ p ∈ noted (dataRows text), setting.tick.toNat ∣ p.toNat)
    (hroom : (passOne (dataRows text)).range.maxPriceRaw.toNat + (scaledSpan setting text).toNat +
      setting.tick.toNat < 2 ^ 64)
    (hlevels : (sizeOf setting text).levelCount.toNat ≤ maxLevels) :
    HoldsEveryPrice setting text ↔
      (∃ p ∈ noted (dataRows text),
        p.toNat ≤ (scaledSpan setting text).toNat + setting.tick.toNat) ∨
      setting.tick.toNat ∣ (scaledSpan setting text).toNat := by
  have hrange := range_extends (dataRows text)
  obtain ⟨hlo, hhi⟩ := hrange.extremes_mem hsome fun p hp => noted_ne hp
  have hlohi := hrange.below _ hhi
  obtain ⟨hmin, hcount, htop, hgrid⟩ :=
    ladderSize_spec htick (noted_ne hlo) hlohi (hmultiples _ hlo) hroom
  constructor
  · rintro ⟨⟨book, hmake, haccepts⟩, -⟩
    have hlevel := (levelAt_accepts (hasGrid_made ((make_ladders hmake).1 true))).mp
      (haccepts _ hlo true)
    have hcases := (hgrid _ (UInt64.le_refl _) hlohi (hmultiples _ hlo)).mp hlevel
    exact hcases.imp_left fun hle => ⟨_, hlo, hle⟩
  · intro hcases
    have hlisted : ∀ p ∈ noted (dataRows text),
        p ∈ Grid (sizeOf setting text).ladderMin setting.tick (sizeOf setting text).levelCount := by
      intro p hp
      refine (hgrid p (hrange.below p hp) (hrange.above p hp) (hmultiples p hp)).mpr ?_
      refine hcases.imp_left ?_
      rintro ⟨q, hq, hle⟩
      exact (UInt64.le_iff_toNat_le.mp (hrange.below q hq)).trans hle
    obtain ⟨book, hmake⟩ := make_accepts_book hlevels hmin htick hcount htop setting.memory
    refine ⟨⟨book, hmake, fun p hp d => ?_⟩, replayed_onGrid hvisit hlisted⟩
    exact (levelAt_accepts (hasGrid_made ((make_ladders hmake).1 d))).mpr (hlisted p hp)

/-- A buy order at 100 and a sell order at 110. -/
def twoQuotes : Text :=
  fileOf ["0,1,0,,A,,,1,B,10,0.0100,,,,", "1,2,0,,A,,,2,S,10,0.0110,,,,"]

theorem noted_twoQuotes : noted (dataRows twoQuotes) = [100, 110] := by decide +kernel

theorem multiples_twoQuotes : ∀ p ∈ noted (dataRows twoQuotes), 5 ∣ p.toNat := by
  rw [noted_twoQuotes]
  intro p hp
  rw [List.mem_pair] at hp
  rcases hp with rfl | rfl <;> decide

/-- With a headroom of two ticks and one more every price of the two quotes has a level. -/
theorem ladder_holds_iff_whole : HoldsEveryPrice (fiveTick fun span => span) twoQuotes :=
  (ladder_holds_iff (fiveTick fun span => span) twoQuotes (fun entries => entries.reverse_perm)
    (by decide) (by rw [noted_twoQuotes]; decide) multiples_twoQuotes (by decide +kernel)
    (by decide +kernel)).mpr (.inr (by decide +kernel))

/-- A headroom of a fifth of the span. -/
def shiftingTool : Setting := fiveTick fun span => span / 5

/-- With a headroom of a fifth of the span and one tick, 7, the levels start at 93, and both quotes
are turned away. -/
theorem shifted_quotes :
    (∀ entries, (shiftingTool.visit entries).Perm entries) ∧
    noted (dataRows twoQuotes) = [100, 110] ∧
    (∀ p ∈ noted (dataRows twoQuotes), shiftingTool.tick.toNat ∣ p.toNat) ∧
    scaledSpan shiftingTool twoQuotes = 2 ∧
    sizeOf shiftingTool twoQuotes = ⟨93, 117, 5⟩ ∧
    (itchReplay shiftingTool twoQuotes).submissions.map
        (fun sub => (sub.label, sub.outcome)) =
      [(.NEW, .throws (.invalidArgument "Price does not fall on a configured tick boundary")),
        (.NEW, .throws (.invalidArgument "Price does not fall on a configured tick boundary"))] ∧
    ¬ HoldsEveryPrice shiftingTool twoQuotes := by
  have hcalls : (itchReplay shiftingTool twoQuotes).submissions.map
      (fun sub => (sub.label, sub.outcome)) =
    [(.NEW, .throws (.invalidArgument "Price does not fall on a configured tick boundary")),
      (.NEW, .throws (.invalidArgument "Price does not fall on a configured tick boundary"))] := by
    decide +kernel
  refine ⟨fun entries => entries.reverse_perm, noted_twoQuotes, multiples_twoQuotes,
    by decide +kernel, by decide +kernel, hcalls, fun h => ?_⟩
  have hrejected : (Label.NEW, Outcome.throws (StdException.invalidArgument
      "Price does not fall on a configured tick boundary")) ∈
      (itchReplay shiftingTool twoQuotes).submissions.map
        fun sub => (sub.label, sub.outcome) := by
    rw [hcalls]
    exact List.mem_cons_self
  obtain ⟨sub, hsub, heq⟩ := List.mem_map.mp hrejected
  exact h.replayed sub hsub _ (congrArg Prod.snd heq) (by decide)

end Leka.ReplayLadders
