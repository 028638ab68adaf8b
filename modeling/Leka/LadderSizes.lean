import Leka.LadderAddresses
import Leka.InternalErrors

/-!
The sizing of a ladder from the prices of a file, shared by the tools that replay one. The
headroom is rounded up to whole ticks, so the lowest level keeps the residue of the observed
prices and the highest level is the upper end that was asked for. No event of the file then
meets a price off the grid.
-/

namespace Leka.LadderSizes

open Procedures Orders OrderPools PriceLevels PriceLadders OrderBooks MatchingEngines
  ReferenceMatchers RestingOrders MatchingRounds EventOutcomes BookRuns BookGrids InternalErrors
  LadderAddresses

inductive EventKind
  | New
  | Cancel
  | Reduce
  deriving DecidableEq

structure ParsedEvent where
  tsNs : UInt64 := 0
  kind : EventKind := .New
  orderId : UInt64 := 0
  side : OrderSide := .buy
  type : Orders.OrderType := .limit
  priceRaw : UInt64 := 0
  quantity : UInt64 := 0
  deriving DecidableEq

def toOrderEvent (e : ParsedEvent) : OrderEvent :=
  match e.kind with
  | .New => .new {
      orderId := e.orderId
      price := e.priceRaw
      quantity := e.quantity
      timestamp := e.tsNs
      orderSide := e.side
      orderType := e.type }
  | .Cancel => .cancel ⟨e.orderId⟩
  | .Reduce => .reduce ⟨e.orderId, e.quantity⟩

/-- The extremes that the parsing pass keeps. -/
structure PriceRange where
  minPriceRaw : UInt64 := uint64Max
  maxPriceRaw : UInt64 := 0

def noteRange (range : PriceRange) (p : UInt64) : PriceRange :=
  if p = 0 then range
  else ⟨min range.minPriceRaw p, max range.maxPriceRaw p⟩

/-- What a row does to the extremes. A blank price column leaves the price at 0. -/
def observe (range : PriceRange) (e : ParsedEvent) : PriceRange :=
  if e.kind = .New ∧ e.type = .limit then noteRange range e.priceRaw else range

/-- The extremes after the parsing pass. -/
def observed (events : List ParsedEvent) : PriceRange := events.foldl observe {}

def PriceRange.span (range : PriceRange) : UInt64 := range.maxPriceRaw - range.minPriceRaw

/-- The arguments of the book, with the upper end that is reported. -/
structure LadderSize where
  ladderMin : UInt64
  ladderMax : UInt64
  levelCount : UInt64
  deriving DecidableEq

/-- `scaled` is the span times the headroom percentage, a computation on doubles. -/
def rawHeadroom (tick scaled : UInt64) : UInt64 := scaled + tick

def headroom (tick scaled : UInt64) : UInt64 :=
  (rawHeadroom tick scaled + tick - 1) / tick * tick

def ladderMin (tick scaled minPriceRaw : UInt64) : UInt64 :=
  let lowest :=
    if minPriceRaw > headroom tick scaled then minPriceRaw - headroom tick scaled
    else minPriceRaw % tick
  -- a price of 0 is reserved as invalid
  if lowest = 0 then tick else lowest

def ladderSize (tick scaled : UInt64) (range : PriceRange) : LadderSize :=
  let lower := ladderMin tick scaled range.minPriceRaw
  let ladderMax := range.maxPriceRaw + headroom tick scaled
  ⟨lower, ladderMax, (ladderMax - lower) / tick + 1⟩

/-- The sizing of the tools, `none` when the file has no priced LIMIT NEW row. -/
def autoSize (tick : UInt64) (scale : UInt64 → UInt64) (events : List ParsedEvent) :
    Option LadderSize :=
  let range := observed events
  if range.minPriceRaw = uint64Max then none
  else some (ladderSize tick (scale range.span) range)

inductive Tool
  | benchmark_interchange
  | snapshot_recorder
  | threaded_replay_benchmark

/-- What a tool does with its new book before the replay. -/
def Tool.prepare (hash : OrderId → UInt64) (host : Host) (events : List ParsedEvent) :
    Tool → BookProc Unit
  | .benchmark_interchange => pure ()
  | .snapshot_recorder | .threaded_replay_benchmark =>
    reserveOrderCapacity hash host (UInt64.ofNat events.length)

/-- How the calls of a replay end. An exception is caught and counted. -/
def replay (hash : OrderId → UInt64) :
    List (Host × ParsedEvent) → EngineState → List (Outcome StdException ℕ)
  | [], _ => []
  | (host, e) :: events, s =>
    match processEvent hash host (toOrderEvent e) s with
    | (.diverges, _) => [.diverges]
    | (o, s') => o :: replay hash events s'

/-- The nonzero prices of the LIMIT NEW rows. -/
def limitPrices (events : List ParsedEvent) : List UInt64 :=
  ((events.filter fun e => e.kind = .New ∧ e.type = .limit).map ParsedEvent.priceRaw).filter (· ≠ 0)

section Ranges

variable {range : PriceRange} {events : List ParsedEvent} {e : ParsedEvent} {p : UInt64}

theorem mem_limitPrices : p ∈ limitPrices events ↔
    ∃ e ∈ events, e.kind = .New ∧ e.type = .limit ∧ e.priceRaw = p ∧ p ≠ 0 := by
  simp only [limitPrices, List.mem_filter, List.mem_map, decide_eq_true_eq]
  constructor
  · rintro ⟨⟨e, ⟨he, hkind, htype⟩, rfl⟩, hp⟩
    exact ⟨e, he, hkind, htype, rfl, hp⟩
  · rintro ⟨e, he, hkind, htype, rfl, hp⟩
    exact ⟨⟨e, ⟨he, hkind, htype⟩, rfl⟩, hp⟩

/-- `range'` is `range` extended by the listed prices. -/
structure Extends (range range' : PriceRange) (prices : List UInt64) : Prop where
  below : ∀ p ∈ prices, range'.minPriceRaw ≤ p
  above : ∀ p ∈ prices, p ≤ range'.maxPriceRaw
  min_le : range'.minPriceRaw ≤ range.minPriceRaw
  le_max : range.maxPriceRaw ≤ range'.maxPriceRaw
  min_mem : range'.minPriceRaw = range.minPriceRaw ∨ range'.minPriceRaw ∈ prices
  max_mem : range'.maxPriceRaw = range.maxPriceRaw ∨ range'.maxPriceRaw ∈ prices

theorem min_spec (a b : UInt64) : min a b ≤ a ∧ min a b ≤ b ∧ (min a b = a ∨ min a b = b) := by
  change (if a ≤ b then a else b) ≤ a ∧ (if a ≤ b then a else b) ≤ b ∧
    ((if a ≤ b then a else b) = a ∨ (if a ≤ b then a else b) = b)
  by_cases hle : a ≤ b
  · rw [if_pos hle]
    exact ⟨UInt64.le_refl a, hle, .inl rfl⟩
  · rw [if_neg hle]
    exact ⟨UInt64.le_of_lt (UInt64.not_le.mp hle), UInt64.le_refl b, .inr rfl⟩

theorem max_spec (a b : UInt64) : a ≤ max a b ∧ b ≤ max a b ∧ (max a b = a ∨ max a b = b) := by
  change a ≤ (if a ≤ b then b else a) ∧ b ≤ (if a ≤ b then b else a) ∧
    ((if a ≤ b then b else a) = a ∨ (if a ≤ b then b else a) = b)
  by_cases hle : a ≤ b
  · rw [if_pos hle]
    exact ⟨hle, UInt64.le_refl b, .inr rfl⟩
  · rw [if_neg hle]
    exact ⟨UInt64.le_refl a, UInt64.le_of_lt (UInt64.not_le.mp hle), .inl rfl⟩

theorem extends_nil (range : PriceRange) : Extends range range [] :=
  ⟨by simp, by simp, UInt64.le_refl _, UInt64.le_refl _, .inl rfl, .inl rfl⟩

theorem noteRange_nonzero (hp : p ≠ 0) : Extends range (noteRange range p) [p] := by
  obtain ⟨hmin, hbelow, hminEq⟩ := min_spec range.minPriceRaw p
  obtain ⟨hmax, habove, hmaxEq⟩ := max_spec range.maxPriceRaw p
  rw [noteRange, if_neg hp]
  refine ⟨?_, ?_, hmin, hmax, ?_, ?_⟩
  · intro q hq
    rw [List.mem_singleton.mp hq]
    exact hbelow
  · intro q hq
    rw [List.mem_singleton.mp hq]
    exact habove
  · exact hminEq.imp_right List.mem_singleton.mpr
  · exact hmaxEq.imp_right List.mem_singleton.mpr

theorem Extends.trans {range' range'' : PriceRange} {prices prices' : List UInt64}
    (h : Extends range range' prices) (h' : Extends range' range'' prices') :
    Extends range range'' (prices ++ prices') := by
  refine ⟨?_, ?_, UInt64.le_trans h'.min_le h.min_le, UInt64.le_trans h.le_max h'.le_max, ?_, ?_⟩
  · intro p hp
    rcases List.mem_append.mp hp with hp | hp
    · exact UInt64.le_trans h'.min_le (h.below p hp)
    · exact h'.below p hp
  · intro p hp
    rcases List.mem_append.mp hp with hp | hp
    · exact UInt64.le_trans (h.above p hp) h'.le_max
    · exact h'.above p hp
  · rcases h'.min_mem with heq | hmem
    · rw [heq]
      exact h.min_mem.imp_right (List.mem_append_left _)
    · exact .inr (List.mem_append_right _ hmem)
  · rcases h'.max_mem with heq | hmem
    · rw [heq]
      exact h.max_mem.imp_right (List.mem_append_left _)
    · exact .inr (List.mem_append_right _ hmem)

/-- A price of 0 is not noted. -/
theorem noteRange_extends (range : PriceRange) (p : UInt64) :
    Extends range (noteRange range p) ([p].filter (· ≠ 0)) := by
  by_cases hp : p = 0
  · simpa [noteRange, hp] using extends_nil range
  · simpa [hp] using noteRange_nonzero hp

theorem foldl_noteRange_extends (range : PriceRange) (prices : List UInt64) :
    Extends range (prices.foldl noteRange range) (prices.filter (· ≠ 0)) := by
  induction prices generalizing range with
  | nil => exact extends_nil range
  | cons p prices ih =>
    rw [← List.singleton_append, List.filter_append]
    exact (noteRange_extends range p).trans (ih _)

theorem observe_extends (range : PriceRange) (e : ParsedEvent) :
    Extends range (observe range e) (limitPrices [e]) := by
  by_cases hlimit : e.kind = .New ∧ e.type = .limit
  · simpa [limitPrices, observe, hlimit] using noteRange_extends range e.priceRaw
  · simpa [limitPrices, observe, hlimit] using extends_nil range

theorem limitPrices_cons (e : ParsedEvent) (events : List ParsedEvent) :
    limitPrices (e :: events) = limitPrices [e] ++ limitPrices events := by
  rw [limitPrices, limitPrices, limitPrices, ← List.filter_append, ← List.map_append,
    ← List.filter_append]
  rfl

theorem foldl_observe_extends (range : PriceRange) (events : List ParsedEvent) :
    Extends range (events.foldl observe range) (limitPrices events) := by
  induction events generalizing range with
  | nil => exact extends_nil range
  | cons e events ih =>
    rw [limitPrices_cons]
    exact (observe_extends range e).trans (ih _)

/-- The extremes of a nonempty list of prices are listed. -/
theorem Extends.extremes_mem {prices : List UInt64} (h : Extends {} range prices)
    (hsome : prices ≠ []) (hpositive : ∀ p ∈ prices, p ≠ 0) :
    range.minPriceRaw ∈ prices ∧ range.maxPriceRaw ∈ prices := by
  obtain ⟨p, hp⟩ := List.exists_mem_of_ne_nil _ hsome
  constructor
  · rcases h.min_mem with heq | hmem
    · -- No price exceeds the initial minimum.
      have hp' : p = uint64Max := by
        have hle := h.below p hp
        rw [heq] at hle
        refine UInt64.le_antisymm ?_ hle
        rw [UInt64.le_iff_toNat_le]
        exact Nat.le_pred_of_lt p.toNat_lt
      rw [heq]
      exact hp' ▸ hp
    · exact hmem
  · rcases h.max_mem with heq | hmem
    · have hle := h.above p hp
      rw [heq, UInt64.le_iff_toNat_le] at hle
      exact absurd (UInt64.toNat_inj.mp (Nat.le_zero.mp hle)) (hpositive p hp)
    · exact hmem

/-- The minimum is no longer the initial one below a price with room above it. -/
theorem Extends.min_ne {prices : List UInt64} (h : Extends {} range prices) (hp : p ∈ prices)
    (hroom : p.toNat + 1 < 2 ^ 64) : range.minPriceRaw ≠ uint64Max := by
  intro heq
  have hmin := UInt64.le_iff_toNat_le.mp (h.below p hp)
  rw [heq] at hmin
  change 2 ^ 64 - 1 ≤ _ at hmin
  omega

end Ranges

section Arithmetic

variable {tick scaled lo hi lower upper : UInt64}

/-- The number of levels between two ends. -/
theorem levelCount_toNat (hlower : lower ≠ 0) (hle : lower ≤ upper) (tick : UInt64) :
    ((upper - lower) / tick + 1).toNat = (upper.toNat - lower.toNat) / tick.toNat + 1 := by
  have hpos := toNat_pos hlower
  have hlt := upper.toNat_lt
  have hdiv := Nat.div_le_self (upper.toNat - lower.toNat) tick.toNat
  rw [UInt64.toNat_add, UInt64.toNat_div, UInt64.toNat_sub_of_le _ _ hle]
  change (_ + 1) % 2 ^ 64 = _
  rw [Nat.mod_eq_of_lt (by omega)]

/-- The levels between two ends are the prices a whole number of ticks above the lower one. -/
theorem mem_grid_between (htick : tick ≠ 0) (hlower : lower ≠ 0) (hle : lower ≤ upper)
    (p : Price) :
    p ∈ Grid lower tick ((upper - lower) / tick + 1) ↔
      lower.toNat ≤ p.toNat ∧ p.toNat ≤ upper.toNat ∧ tick.toNat ∣ p.toNat - lower.toNat := by
  have hpos := toNat_pos htick
  have hends := UInt64.le_iff_toNat_le.mp hle
  have hlevel : ∀ k, k < ((upper - lower) / tick + 1).toNat ↔
      k * tick.toNat ≤ upper.toNat - lower.toNat := by
    intro k
    rw [levelCount_toNat hlower hle, Nat.lt_succ_iff, Nat.le_div_iff_mul_le hpos]
  constructor
  · rintro ⟨k, hk, hp⟩
    have hk' := (hlevel k).mp hk
    refine ⟨by omega, by omega, k, ?_⟩
    rw [hp, Nat.add_sub_cancel_left, Nat.mul_comm]
  · rintro ⟨hlow, hhigh, k, hk⟩
    rw [Nat.mul_comm] at hk
    exact ⟨k, (hlevel k).mpr (by omega), by omega⟩

theorem topPrice_between (hlower : lower ≠ 0) (hle : lower ≤ upper) (tick : UInt64) :
    topPrice lower tick ((upper - lower) / tick + 1) =
      lower.toNat + (upper.toNat - lower.toNat) / tick.toNat * tick.toNat := by
  rw [topPrice, levelCount_toNat hlower hle, Nat.add_sub_cancel]

theorem headroom_toNat (htick : tick ≠ 0)
    (hroom : (rawHeadroom tick scaled).toNat + tick.toNat < 2 ^ 64) :
    (headroom tick scaled).toNat =
      ((rawHeadroom tick scaled).toNat + tick.toNat - 1) / tick.toNat * tick.toNat := by
  have hpos := toNat_pos htick
  have hsum : (rawHeadroom tick scaled + tick).toNat =
      (rawHeadroom tick scaled).toNat + tick.toNat := by
    rw [UInt64.toNat_add, Nat.mod_eq_of_lt hroom]
  have hone : (1 : UInt64) ≤ rawHeadroom tick scaled + tick := by
    rw [UInt64.le_iff_toNat_le, hsum]
    change 1 ≤ _
    omega
  have hpred : (rawHeadroom tick scaled + tick - 1).toNat =
      (rawHeadroom tick scaled).toNat + tick.toNat - 1 := by
    rw [UInt64.toNat_sub_of_le _ _ hone, hsum]
    rfl
  have hle := Nat.div_mul_le_self ((rawHeadroom tick scaled).toNat + tick.toNat - 1) tick.toNat
  rw [headroom, UInt64.toNat_mul, UInt64.toNat_div, hpred, Nat.mod_eq_of_lt (by omega)]

/-- The headroom is a whole number of ticks. -/
theorem dvd_headroom (htick : tick ≠ 0)
    (hroom : (rawHeadroom tick scaled).toNat + tick.toNat < 2 ^ 64) :
    tick.toNat ∣ (headroom tick scaled).toNat := by
  rw [headroom_toNat htick hroom]
  exact Nat.dvd_mul_left _ _

theorem headroom_le (htick : tick ≠ 0)
    (hroom : (rawHeadroom tick scaled).toNat + tick.toNat < 2 ^ 64) :
    (headroom tick scaled).toNat < (rawHeadroom tick scaled).toNat + tick.toNat := by
  have hpos := toNat_pos htick
  rw [headroom_toNat htick hroom]
  refine (Nat.div_mul_le_self _ _).trans_lt ?_
  omega

/-- The lowest level is a valid price, no higher than the lowest price and in its residue
class. -/
theorem ladderMin_spec (htick : tick ≠ 0)
    (hroom : (rawHeadroom tick scaled).toNat + tick.toNat < 2 ^ 64) (hlo : lo ≠ 0) :
    ladderMin tick scaled lo ≠ 0 ∧ (ladderMin tick scaled lo).toNat ≤ lo.toNat ∧
      (ladderMin tick scaled lo).toNat ≡ lo.toNat [MOD tick.toNat] := by
  have hpos := toNat_pos hlo
  unfold ladderMin
  by_cases habove : lo > headroom tick scaled
  · have hlt := UInt64.lt_iff_toNat_lt.mp habove
    have hsub : (lo - headroom tick scaled).toNat = lo.toNat - (headroom tick scaled).toNat :=
      UInt64.toNat_sub_of_le _ _ (UInt64.le_of_lt habove)
    have hne : lo - headroom tick scaled ≠ 0 := by
      intro heq
      rw [heq] at hsub
      change 0 = _ at hsub
      omega
    simp only [if_pos habove, if_neg hne]
    refine ⟨hne, by omega, ?_⟩
    rw [hsub, Nat.ModEq.comm]
    exact (Nat.modEq_iff_dvd' (Nat.sub_le _ _)).mpr (by
      rw [Nat.sub_sub_self hlt.le]
      exact dvd_headroom htick hroom) |>.symm
  · simp only [if_neg habove]
    by_cases hresidue : lo % tick = 0
    · -- The residue is no price, and the first tick above it is in the same class.
      have hmod : lo.toNat % tick.toNat = 0 := by
        rw [← UInt64.toNat_mod, hresidue]
        rfl
      rw [if_pos hresidue]
      refine ⟨htick, Nat.le_of_dvd hpos (Nat.dvd_of_mod_eq_zero hmod), ?_⟩
      rw [Nat.ModEq, hmod, Nat.mod_self]
    · rw [if_neg hresidue]
      refine ⟨hresidue, ?_, ?_⟩
      · rw [UInt64.toNat_mod]
        exact Nat.mod_le _ _
      · rw [UInt64.toNat_mod]
        exact Nat.mod_modEq _ _

/-- The levels end exactly at the upper end, and every price between the extremes in their
residue class is the price of a level. -/
theorem ladderSize_spec (htick : tick ≠ 0) (hlo : lo ≠ 0) (hle : lo ≤ hi)
    (hmod : lo.toNat ≡ hi.toNat [MOD tick.toNat])
    (hroom : hi.toNat + (rawHeadroom tick scaled).toNat + tick.toNat < 2 ^ 64) :
    (ladderSize tick scaled ⟨lo, hi⟩).ladderMin ≠ 0 ∧
    (ladderSize tick scaled ⟨lo, hi⟩).levelCount ≠ 0 ∧
    topPrice (ladderSize tick scaled ⟨lo, hi⟩).ladderMin tick
        (ladderSize tick scaled ⟨lo, hi⟩).levelCount =
      (ladderSize tick scaled ⟨lo, hi⟩).ladderMax.toNat ∧
    ∀ p : Price, lo ≤ p → p ≤ hi → p.toNat ≡ lo.toNat [MOD tick.toNat] →
      p ∈ Grid (ladderSize tick scaled ⟨lo, hi⟩).ladderMin tick
        (ladderSize tick scaled ⟨lo, hi⟩).levelCount := by
  have hroom' : (rawHeadroom tick scaled).toNat + tick.toNat < 2 ^ 64 := by omega
  have hlohi := UInt64.le_iff_toNat_le.mp hle
  obtain ⟨hne, hmin, hresidue⟩ := ladderMin_spec htick hroom' hlo
  have hhead := headroom_le htick hroom'
  have hmax : (hi + headroom tick scaled).toNat = hi.toNat + (headroom tick scaled).toNat := by
    rw [UInt64.toNat_add, Nat.mod_eq_of_lt (by omega)]
  simp only [ladderSize]
  generalize ladderMin tick scaled lo = lower at hne hmin hresidue
  have hends : lower ≤ hi + headroom tick scaled := by
    rw [UInt64.le_iff_toNat_le, hmax]
    omega
  -- The upper end is a whole number of ticks above the lowest level.
  have hdvd : tick.toNat ∣ (hi + headroom tick scaled).toNat - lower.toNat := by
    refine (Nat.modEq_iff_dvd' (UInt64.le_iff_toNat_le.mp hends)).mp ?_
    calc lower.toNat ≡ hi.toNat [MOD tick.toNat] := hresidue.trans hmod
      _ ≡ (hi + headroom tick scaled).toNat [MOD tick.toNat] :=
        (Nat.modEq_iff_dvd' (hmax ▸ Nat.le_add_right _ _)).mpr (by
          rw [hmax, Nat.add_sub_cancel_left]
          exact dvd_headroom htick hroom')
  refine ⟨hne, ?_, ?_, ?_⟩
  · intro hzero
    have hcount := levelCount_toNat hne hends tick
    rw [hzero] at hcount
    exact Nat.succ_ne_zero _ hcount.symm
  · rw [topPrice_between hne hends, Nat.div_mul_cancel hdvd,
      Nat.add_sub_cancel' (UInt64.le_iff_toNat_le.mp hends)]
  · intro p hlop hphi hpmod
    have hlop' := UInt64.le_iff_toNat_le.mp hlop
    have hphi' := UInt64.le_iff_toNat_le.mp hphi
    rw [mem_grid_between htick hne hends, hmax]
    refine ⟨by omega, by omega, (Nat.modEq_iff_dvd' (by omega)).mp ?_⟩
    exact hresidue.trans hpmod.symm

end Arithmetic

section Replays

variable {hash : OrderId → UInt64} {book : OrderBook} {s : EngineState}

/-- A call does not answer with an error of the ladder when the limit price of its order is on
the grid. -/
theorem processEvent_onGrid {minPrice tick : Price} {levelCount : UInt64} {event : OrderEvent}
    (hs : Sound hash s.orderBook) (host : Host)
    (hgrid : ∀ d, HasGrid (s.orderBook.ladder d) minPrice tick levelCount d)
    (hprice : ∀ order, event = .new order → order.orderType = .limit → order.price ≠ 0 →
      order.price ∈ Grid minPrice tick levelCount) :
    ∀ e, (processEvent hash host event s).1 = .throws e → e ∉ ladderErrors := by
  intro e hthrows
  rcases processEvent_raises hs (Prod.ext hthrows rfl) with
    hordinary | ⟨order, hnew, htype, hne, herror⟩
  · exact not_ladder_of_ordinary hordinary
  · obtain ⟨index, hok⟩ := ((hgrid _).addresses.accepts order.price).mpr
      (hprice order hnew htype hne)
    rw [hok] at herror
    exact absurd herror (by simp)

/-- No call of a replay answers with an error of the ladder when the listed prices are on the
grid. -/
theorem replay_onGrid {minPrice tick : Price} {levelCount : UInt64}
    {events : List (Host × ParsedEvent)} (hs : Sound hash s.orderBook)
    (hgrid : ∀ d, HasGrid (s.orderBook.ladder d) minPrice tick levelCount d)
    (hlisted : ∀ p ∈ limitPrices (events.map Prod.snd), p ∈ Grid minPrice tick levelCount) :
    ∀ e, .throws e ∈ replay hash events s → e ∉ ladderErrors := by
  induction events generalizing s with
  | nil =>
    intro e he
    exact absurd he (by simp [replay])
  | cons he events ih =>
    obtain ⟨host, event⟩ := he
    rw [List.map_cons, limitPrices_cons] at hlisted
    have hsound := sound_processEvent hs host (toOrderEvent event)
    have hsame := grids_event hs host (toOrderEvent event)
    -- The event itself: a limit price of its own is listed.
    have hprice : ∀ order, toOrderEvent event = .new order → order.orderType = .limit →
        order.price ≠ 0 → order.price ∈ Grid minPrice tick levelCount := by
      intro order hnew htype hne
      refine hlisted _ (List.mem_append_left _ (mem_limitPrices.mpr ?_))
      cases hkind : event.kind with
      | New =>
        simp only [toOrderEvent, hkind, OrderEvent.new.injEq] at hnew
        subst hnew
        exact ⟨event, List.mem_singleton_self _, hkind, htype, rfl, hne⟩
      | Cancel => simp [toOrderEvent, hkind] at hnew
      | Reduce => simp [toOrderEvent, hkind] at hnew
    have hfirst := processEvent_onGrid hs host hgrid hprice
    generalize hrun : processEvent hash host (toOrderEvent event) s = result
      at hsound hsame hfirst
    obtain ⟨o, s'⟩ := result
    have hrest := ih hsound (fun d => (hgrid d).same (hsound.synced.configured d) (hsame d))
      fun p hp => hlisted p (List.mem_append_right _ hp)
    intro e he
    cases o with
    | diverges =>
      simp [replay, hrun] at he
    | returns n =>
      simp only [replay, hrun, List.mem_cons, reduceCtorEq, false_or] at he
      exact hrest e he
    | throws e' =>
      simp only [replay, hrun, List.mem_cons, Outcome.throws.injEq] at he
      rcases he with rfl | he
      · exact hfirst _ rfl
      · exact hrest e he

theorem prepare_grids (hs : Sound hash book) (tool : Tool) (host : Host)
    (events : List ParsedEvent) :
    Sound hash (tool.prepare hash host events book).2 ∧
      SameGrids book (tool.prepare hash host events book).2 := by
  cases tool with
  | benchmark_interchange => exact ⟨hs, SameGrids.refl book⟩
  | snapshot_recorder | threaded_replay_benchmark =>
    exact ⟨sound_reserved hs host _, grids_reserved hs host _⟩

/-- Every listed price has a level on both sides, the levels end at the reported upper end, and
no call of a replay answers with an error of the ladder. -/
structure Covers (hash : OrderId → UInt64) (book : OrderBook) (ladderMax : UInt64)
    (prices : List UInt64) : Prop where
  top : ∀ d, (book.ladder d).maxPrice = ladderMax
  levels : ∀ p ∈ prices, ∀ d, ∃ l, (book.ladder d).levelAt p = .ok l
  replays : ∀ (tool : Tool) (host : Host) (events : List (Host × ParsedEvent)) (book' : OrderBook),
    limitPrices (events.map Prod.snd) = prices →
    tool.prepare hash host (events.map Prod.snd) book = (.returns (), book') →
    ∀ counter out, ∀ e, .throws e ∈ replay hash events ⟨counter, book', out⟩ → e ∉ ladderErrors

theorem covers {minPrice tick levelCount ladderMax : UInt64} {memory : Memory}
    {prices : List UInt64} (hmake : OrderBook.make memory minPrice tick levelCount = .ok book)
    (htop : topPrice minPrice tick levelCount = ladderMax.toNat)
    (hlisted : ∀ p ∈ prices, p ∈ Grid minPrice tick levelCount) :
    Covers hash book ladderMax prices := by
  have hgrid := fun d => hasGrid_made ((make_ladders hmake).1 d)
  refine ⟨fun d => UInt64.toNat_inj.mp ((hgrid d).maxPrice.trans htop), ?_, ?_⟩
  · intro p hp d
    obtain ⟨index, hok⟩ := ((hgrid d).addresses.accepts p).mpr (hlisted p hp)
    exact ⟨_, ((hgrid d).addresses.level p index hok).1⟩
  · rintro tool host events book' rfl hprepare counter out
    obtain ⟨hsound, hsame⟩ := prepare_grids (sound_make hmake) tool host (events.map Prod.snd)
    rw [hprepare] at hsound hsame
    exact replay_onGrid (s := ⟨counter, book', out⟩) hsound
      (fun d => (hgrid d).same (hsound.synced.configured d) (hsame d)) hlisted

end Replays

/-- The sizing accepts every file whose prices are congruent modulo the tick, as long as the
upper end has 64 bits and the levels fit in memory. -/
theorem auto_sizing_covers (tick : UInt64) (scale : UInt64 → UInt64) (events : List ParsedEvent)
    (htick : tick ≠ 0) (hsome : limitPrices events ≠ [])
    (hcongruent : ∀ p ∈ limitPrices events, ∀ q ∈ limitPrices events,
      p.toNat ≡ q.toNat [MOD tick.toNat])
    (hroom : (observed events).maxPriceRaw.toNat +
      (rawHeadroom tick (scale (observed events).span)).toNat + tick.toNat < 2 ^ 64) :
    ∃ size, autoSize tick scale events = some size ∧ size.ladderMin ≠ 0 ∧
      (size.levelCount.toNat ≤ maxLevels → ∀ memory, ∃ book,
        OrderBook.make memory size.ladderMin tick size.levelCount = .ok book ∧
        ∀ hash, Covers hash book size.ladderMax (limitPrices events)) := by
  have hrange : Extends {} (observed events) _ := foldl_observe_extends {} events
  have hpositive : ∀ p ∈ limitPrices events, p ≠ 0 := by
    intro p hp
    obtain ⟨_, _, _, _, _, hne⟩ := mem_limitPrices.mp hp
    exact hne
  obtain ⟨hlo, hhi⟩ := hrange.extremes_mem hsome hpositive
  have hle := hrange.below _ hhi
  have hpos := toNat_pos htick
  have hsentinel := hrange.min_ne hhi (by omega)
  obtain ⟨hlower, hcount, htop, hgrid⟩ :=
    ladderSize_spec htick (hpositive _ hlo) hle (hcongruent _ hlo _ hhi) hroom
  refine ⟨ladderSize tick (scale (observed events).span) (observed events), if_neg hsentinel,
    hlower, fun hlevels memory => ?_⟩
  obtain ⟨book, hmake⟩ := make_accepts_book hlevels hlower htick hcount
    (by rw [htop]; exact Nat.le_pred_of_lt (UInt64.toNat_lt _)) memory
  refine ⟨book, hmake, fun hash => covers hmake htop fun p hp => ?_⟩
  exact hgrid p (hrange.below p hp) (hrange.above p hp) (hcongruent p hp _ hlo)

/-- Two prices a tick of 5 apart twice, with a headroom of a fifth of the span. -/
theorem two_prices_covered :
    autoSize 5 (fun span => span / 5) [{ orderId := 1, priceRaw := 100 },
      { orderId := 2, side := .sell, priceRaw := 110 }, { kind := .Cancel, orderId := 1 }] =
        some ⟨90, 120, 7⟩ ∧
    ∀ memory, ∃ book, OrderBook.make memory 90 5 7 = .ok book ∧
      ∀ hash, Covers hash book 120 [100, 110] := by
  have hprices : limitPrices [{ orderId := 1, priceRaw := 100 },
      { orderId := 2, side := .sell, priceRaw := 110 }, { kind := .Cancel, orderId := 1 }] =
      [100, 110] := by decide
  have hcongruent : ∀ p ∈ ([100, 110] : List UInt64), ∀ q ∈ ([100, 110] : List UInt64),
      p.toNat ≡ q.toNat [MOD 5] := by
    intro p hp q hq
    rw [List.mem_pair] at hp hq
    rcases hp with rfl | rfl <;> rcases hq with rfl | rfl <;> decide
  rw [← hprices] at hcongruent ⊢
  obtain ⟨size, hsize, _, hbooks⟩ := auto_sizing_covers 5 (fun span => span / 5) _ (by decide)
    (by decide) hcongruent (by decide)
  have hvalue : some size = some ⟨90, 120, 7⟩ := hsize.symm.trans (by decide)
  obtain rfl := Option.some.inj hvalue
  exact ⟨hsize, hbooks (by decide)⟩

end Leka.LadderSizes
