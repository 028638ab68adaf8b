import Leka.BookGrids

/-!
The addressing of levels by price. On an accepted configuration no step of the arithmetic
wraps, the prices of the grid and the level slots correspond one to one in the direction of
the ladder, and every other price is rejected with the error that tells why. The two ladders
of a book count the same slots from opposite ends.
-/

namespace Leka.LadderAddresses

open Procedures Orders OrderPools PriceLevels PriceLadders PriceLadder OrderBooks MatchingEngines
  RestingOrders BookRuns BookGrids

/-- The prices of a configuration. -/
def Grid (minPrice tickSize : Price) (levelCount : UInt64) : Set Price :=
  {price | ∃ k < levelCount.toNat, price.toNat = minPrice.toNat + k * tickSize.toNat}

/-- The largest price of a configuration, as an integer without bounds. -/
def topPrice (minPrice tickSize : Price) (levelCount : UInt64) : ℕ :=
  minPrice.toNat + (levelCount.toNat - 1) * tickSize.toNat

/-- Each arithmetic step of the constructor and of `indexOf` is exact. -/
structure NoWrap (minPrice tickSize : Price) (levelCount : UInt64) : Prop where
  span : (levelCount - 1).toNat = levelCount.toNat - 1
  room : (uint64Max - minPrice).toNat = 2 ^ 64 - 1 - minPrice.toNat
  spanTicks : ((levelCount - 1) * tickSize).toNat = (levelCount.toNat - 1) * tickSize.toNat
  maxPrice : (minPrice + (levelCount - 1) * tickSize).toNat = topPrice minPrice tickSize levelCount
  ticks : ∀ index < levelCount.toNat,
    (UInt64.ofNat index * tickSize).toNat = index * tickSize.toNat
  ascending : ∀ index < levelCount.toNat,
    (minPrice + UInt64.ofNat index * tickSize).toNat = minPrice.toNat + index * tickSize.toNat
  descending : ∀ index < levelCount.toNat,
    (minPrice + (levelCount - 1) * tickSize - UInt64.ofNat index * tickSize).toNat +
      index * tickSize.toNat = topPrice minPrice tickSize levelCount
  words : (levelCount + 63).toNat = levelCount.toNat + 63
  offsetUp : ∀ price : Price, minPrice ≤ price →
    (price - minPrice).toNat + minPrice.toNat = price.toNat
  offsetDown : ∀ price : Price, price.toNat ≤ topPrice minPrice tickSize levelCount →
    (minPrice + (levelCount - 1) * tickSize - price).toNat + price.toNat =
      topPrice minPrice tickSize levelCount

/-- `indexOf` is a bijection from the grid onto the level slots, in the direction of the
ladder, and tells the prices outside the range from those between two ticks. -/
structure Addresses (ladder : PriceLadder) (minPrice tickSize : Price) (levelCount : UInt64) :
    Prop where
  accepts : ∀ price, (∃ index, ladder.indexOf price = .ok index) ↔
    price ∈ Grid minPrice tickSize levelCount
  lt : ∀ price index, ladder.indexOf price = .ok index → index < levelCount
  injective : ∀ p q index, ladder.indexOf p = .ok index → ladder.indexOf q = .ok index → p = q
  surjective : ∀ index < levelCount, ∃ price, ladder.indexOf price = .ok index
  level : ∀ price index, ladder.indexOf price = .ok index →
    ladder.levelAt price = .ok (ladder.levelPtr index) ∧ (ladder.level index.toNat).price = price
  monotone : ∀ p q i j, ladder.indexOf p = .ok i → ladder.indexOf q = .ok j → p < q →
    if ladder.descending then j < i else i < j
  outOfRange : ∀ price, (∃ what, ladder.indexOf price = .error (.outOfRange what)) ↔
    price < minPrice ∨ topPrice minPrice tickSize levelCount < price.toNat
  invalidArgument : ∀ price, (∃ what, ladder.indexOf price = .error (.invalidArgument what)) ↔
    minPrice ≤ price ∧ price.toNat ≤ topPrice minPrice tickSize levelCount ∧
      price ∉ Grid minPrice tickSize levelCount

/-- The two sides accept a price together, at mirrored slots, or reject it alike. -/
def Mirrored (book : OrderBook) (levelCount : UInt64) : Prop :=
  ∀ price, (∃ i j, book.bids.indexOf price = .ok i ∧ book.asks.indexOf price = .ok j ∧
      i.toNat + j.toNat = levelCount.toNat - 1) ∨
    ∃ e, book.bids.indexOf price = .error e ∧ book.asks.indexOf price = .error e

section Configuration

variable {minPrice tickSize : Price} {levelCount : UInt64}

theorem toNat_pos {a : UInt64} (h : a ≠ 0) : 0 < a.toNat :=
  Nat.pos_of_ne_zero fun hzero => h (UInt64.toNat_inj.mp hzero)

theorem span_toNat (hcount : levelCount ≠ 0) : (levelCount - 1).toNat = levelCount.toNat - 1 := by
  have hpos := toNat_pos hcount
  have hone : (1 : UInt64) ≤ levelCount := by
    rw [UInt64.le_iff_toNat_le]
    exact hpos
  rw [UInt64.toNat_sub_of_le _ _ hone]
  rfl

theorem room_toNat (minPrice : Price) :
    (uint64Max - minPrice).toNat = 2 ^ 64 - 1 - minPrice.toNat := by
  have hlt := minPrice.toNat_lt
  rw [UInt64.toNat_sub_of_le]
  · rfl
  · rw [UInt64.le_iff_toNat_le]
    change minPrice.toNat ≤ 2 ^ 64 - 1
    omega

/-- The division in the range check decides whether the top price has 64 bits. -/
theorem span_overflows_iff (htick : tickSize ≠ 0) (hcount : levelCount ≠ 0) :
    levelCount - 1 > (uint64Max - minPrice) / tickSize ↔
      2 ^ 64 - 1 < topPrice minPrice tickSize levelCount := by
  have hlt := minPrice.toNat_lt
  have hdiv := Nat.div_lt_iff_lt_mul (x := 2 ^ 64 - 1 - minPrice.toNat)
    (y := levelCount.toNat - 1) (toNat_pos htick)
  rw [gt_iff_lt, UInt64.lt_iff_toNat_lt, UInt64.toNat_div, room_toNat, span_toNat hcount, hdiv,
    topPrice]
  omega

theorem ticks_le {index : ℕ} (hindex : index < levelCount.toNat) :
    index * tickSize.toNat ≤ (levelCount.toNat - 1) * tickSize.toNat :=
  Nat.mul_le_mul_right _ (by omega)

theorem noWrap (hcount : levelCount ≠ 0) (hmax : levelCount.toNat ≤ 2 ^ 57)
    (htop : topPrice minPrice tickSize levelCount ≤ 2 ^ 64 - 1) :
    NoWrap minPrice tickSize levelCount := by
  have hspan := span_toNat hcount
  rw [topPrice] at htop
  have hticks : ∀ index < levelCount.toNat,
      (UInt64.ofNat index * tickSize).toNat = index * tickSize.toNat := by
    intro index hindex
    have hle := @ticks_le tickSize levelCount index hindex
    rw [UInt64.toNat_mul, UInt64.toNat_ofNat_of_lt' (by rw [UInt64.size]; omega),
      Nat.mod_eq_of_lt (by omega)]
  have hspanTicks : ((levelCount - 1) * tickSize).toNat =
      (levelCount.toNat - 1) * tickSize.toNat := by
    rw [UInt64.toNat_mul, hspan, Nat.mod_eq_of_lt (by omega)]
  have hmaxPrice : (minPrice + (levelCount - 1) * tickSize).toNat =
      topPrice minPrice tickSize levelCount := by
    rw [UInt64.toNat_add, hspanTicks, topPrice, Nat.mod_eq_of_lt (by omega)]
  refine ⟨hspan, room_toNat minPrice, hspanTicks, hmaxPrice, hticks, ?_, ?_, ?_, ?_, ?_⟩
  · intro index hindex
    have hle := @ticks_le tickSize levelCount index hindex
    rw [UInt64.toNat_add, hticks index hindex, Nat.mod_eq_of_lt (by omega)]
  · intro index hindex
    have hle := @ticks_le tickSize levelCount index hindex
    have hsub : UInt64.ofNat index * tickSize ≤ minPrice + (levelCount - 1) * tickSize := by
      rw [UInt64.le_iff_toNat_le, hticks index hindex, hmaxPrice, topPrice]
      omega
    rw [UInt64.toNat_sub_of_le _ _ hsub, hmaxPrice, hticks index hindex, topPrice]
    omega
  · rw [UInt64.toNat_add]
    change (levelCount.toNat + 63) % 2 ^ 64 = _
    omega
  · intro price hprice
    have hle := UInt64.le_iff_toNat_le.mp hprice
    rw [UInt64.toNat_sub_of_le _ _ hprice]
    omega
  · intro price hprice
    rw [UInt64.toNat_sub_of_le _ _ (by rw [UInt64.le_iff_toNat_le, hmaxPrice]; exact hprice),
      hmaxPrice]
    omega

/-- The constructor refuses exactly the zero arguments and the ranges beyond 64 bits. -/
theorem make_refuses_iff (hmax : levelCount.toNat ≤ 2 ^ 57) (descending : Bool) :
    (∃ what, make minPrice tickSize levelCount descending = .error (.invalidArgument what)) ↔
      minPrice = 0 ∨ tickSize = 0 ∨ levelCount = 0 ∨
        2 ^ 64 - 1 < topPrice minPrice tickSize levelCount := by
  unfold make
  by_cases hmin : minPrice = 0
  · simp [hmin]
  by_cases htick : tickSize = 0
  · simp [hmin, htick]
  by_cases hcount : levelCount = 0
  · simp [hmin, htick, hcount]
  rw [if_neg hmin, if_neg htick, if_neg hcount]
  by_cases hspan : levelCount - 1 > (uint64Max - minPrice) / tickSize
  · have htop := (span_overflows_iff htick hcount).mp hspan
    simp only [hspan, if_true]
    exact ⟨fun _ => .inr (.inr (.inr htop)), fun _ => ⟨_, rfl⟩⟩
  · have htop := fun h => hspan ((span_overflows_iff htick hcount).mpr h)
    have hlevels : ¬ maxLevels < levelCount.toNat := by
      rw [maxLevels]
      omega
    simp only [hspan, hlevels, if_false]
    constructor
    · rintro ⟨what, herror⟩
      exact absurd herror (by simp)
    · rintro (hzero | hzero | hzero | habove)
      · exact absurd hzero hmin
      · exact absurd hzero htick
      · exact absurd hzero hcount
      · exact absurd habove htop

/-- Every other configuration is accepted. -/
theorem make_accepts (hmax : levelCount.toNat ≤ maxLevels) (hmin : minPrice ≠ 0)
    (htick : tickSize ≠ 0) (hcount : levelCount ≠ 0)
    (htop : topPrice minPrice tickSize levelCount ≤ 2 ^ 64 - 1) (descending : Bool) :
    ∃ ladder, make minPrice tickSize levelCount descending = .ok ladder := by
  have hspan : ¬ levelCount - 1 > (uint64Max - minPrice) / tickSize := by
    rw [span_overflows_iff htick hcount]
    omega
  unfold make
  rw [if_neg hmin, if_neg htick, if_neg hcount]
  simp only [hspan, Nat.not_lt.mpr hmax, if_false]
  exact ⟨_, rfl⟩

end Configuration

section Slots

variable {ladder : PriceLadder} {price : Price}

theorem topPrice_eq (h : ladder.Configured) :
    topPrice ladder.minPrice ladder.tickSize ladder.levelCount = ladder.maxPrice.toNat :=
  h.maxPrice_eq.symm

/-- From the other end the slots count down. -/
theorem slotPrice_mirror (h : ladder.Configured) {k : ℕ} (hk : k < ladder.levelCount.toNat) :
    ladder.slotPrice (if ladder.descending then ladder.levelCount.toNat - 1 - k else k) =
      ladder.minPrice.toNat + k * ladder.tickSize.toNat := by
  have hmax := h.maxPrice_eq
  by_cases hd : ladder.descending
  · have hsplit : (ladder.levelCount.toNat - 1 - k) * ladder.tickSize.toNat +
        k * ladder.tickSize.toNat = (ladder.levelCount.toNat - 1) * ladder.tickSize.toNat := by
      rw [← Nat.add_mul, Nat.sub_add_cancel (by omega)]
    rw [if_pos hd, PriceLadder.slotPrice, if_pos hd]
    omega
  · rw [if_neg hd, PriceLadder.slotPrice, if_neg hd]

/-- The grid holds the prices of the slots. -/
theorem mem_grid_iff (h : ladder.Configured) :
    price ∈ Grid ladder.minPrice ladder.tickSize ladder.levelCount ↔
      ∃ i < ladder.levelCount.toNat, price.toNat = ladder.slotPrice i := by
  constructor
  · rintro ⟨k, hk, hprice⟩
    refine ⟨_, ?_, hprice.trans (slotPrice_mirror h hk).symm⟩
    split <;> omega
  · rintro ⟨i, hi, hprice⟩
    by_cases hd : ladder.descending
    · have hmirror := slotPrice_mirror h
        (show ladder.levelCount.toNat - 1 - i < ladder.levelCount.toNat by omega)
      rw [if_pos hd, Nat.sub_sub_self (by omega)] at hmirror
      exact ⟨_, by omega, hprice.trans hmirror⟩
    · rw [PriceLadder.slotPrice, if_neg hd] at hprice
      exact ⟨i, hi, hprice⟩

theorem accepts_iff (h : ladder.Configured) :
    (∃ index, ladder.indexOf price = .ok index) ↔
      price ∈ Grid ladder.minPrice ladder.tickSize ladder.levelCount := by
  rw [mem_grid_iff h]
  constructor
  · rintro ⟨index, hok⟩
    exact ⟨index.toNat, h.indexOf_ok hok⟩
  · rintro ⟨i, hi, hprice⟩
    exact ⟨_, h.indexOf_slotPrice hi hprice⟩

/-- The ways `indexOf` can end. -/
theorem indexOf_cases (ladder : PriceLadder) (price : Price) :
    (price < ladder.minPrice ∨ ladder.maxPrice < price) ∧
      ladder.indexOf price =
        .error (.outOfRange "Price is outside the configured ladder range") ∨
    (ladder.minPrice ≤ price ∧ price ≤ ladder.maxPrice) ∧
      (ladder.indexOf price =
          .error (.invalidArgument "Price does not fall on a configured tick boundary") ∨
        ∃ index, ladder.indexOf price = .ok index) := by
  unfold PriceLadder.indexOf
  by_cases hrange : price > ladder.maxPrice ∨ price < ladder.minPrice
  · rw [if_pos hrange]
    exact .inl ⟨hrange.symm, rfl⟩
  · rw [if_neg hrange]
    obtain ⟨hhigh, hlow⟩ := not_or.mp hrange
    refine .inr ⟨⟨UInt64.not_lt.mp hlow, UInt64.not_lt.mp hhigh⟩, ?_⟩
    generalize (if ladder.descending then ladder.maxPrice - price
      else price - ladder.minPrice) = offset
    by_cases hoffset : offset % ladder.tickSize ≠ 0
    · exact .inl (if_pos hoffset)
    · exact .inr ⟨_, if_neg hoffset⟩

theorem addresses (h : ladder.Configured) :
    Addresses ladder ladder.minPrice ladder.tickSize ladder.levelCount where
  accepts _ := accepts_iff h
  lt _ _ hok := UInt64.lt_iff_toNat_lt.mpr (h.indexOf_ok hok).1
  injective p q index hp hq := by
    have hprice := (h.indexOf_ok hp).2
    have hprice' := (h.indexOf_ok hq).2
    exact UInt64.toNat_inj.mp (hprice.trans hprice'.symm)
  surjective index hindex := by
    have hlt := UInt64.lt_iff_toNat_lt.mp hindex
    refine ⟨(ladder.level index.toNat).price, ?_⟩
    rw [h.indexOf_slotPrice hlt (h.level_price _ hlt), UInt64.ofNat_toNat]
  level price index hok := by
    obtain ⟨hlt, hprice⟩ := h.indexOf_ok hok
    rw [PriceLadder.levelAt, hok]
    exact ⟨rfl, UInt64.toNat_inj.mp ((h.level_price _ hlt).trans hprice.symm)⟩
  monotone p q i j hp hq hlt := by
    obtain ⟨hi, hpi⟩ := h.indexOf_ok hp
    obtain ⟨hj, hqj⟩ := h.indexOf_ok hq
    rw [UInt64.lt_iff_toNat_lt, hpi, hqj] at hlt
    -- Of two slots the later one holds the worse price.
    rcases Nat.lt_trichotomy i.toNat j.toNat with hij | hij | hij
    · have hslots := h.slotPrice_lt hij hj
      split at hslots
      · omega
      · rw [if_neg ‹_›]
        exact UInt64.lt_iff_toNat_lt.mpr hij
    · rw [hij] at hlt
      omega
    · have hslots := h.slotPrice_lt hij hi
      split at hslots
      · rw [if_pos ‹_›]
        exact UInt64.lt_iff_toNat_lt.mpr hij
      · omega
  outOfRange price := by
    rw [topPrice_eq h, ← UInt64.lt_iff_toNat_lt]
    rcases indexOf_cases ladder price with ⟨hout, herror⟩ | ⟨⟨hlow, hhigh⟩, herror | ⟨_, hok⟩⟩
    · exact ⟨fun _ => hout, fun _ => ⟨_, herror⟩⟩
    · rw [herror]
      simp [UInt64.not_lt.mpr hlow, UInt64.not_lt.mpr hhigh]
    · rw [hok]
      simp [UInt64.not_lt.mpr hlow, UInt64.not_lt.mpr hhigh]
  invalidArgument price := by
    rw [topPrice_eq h, ← UInt64.le_iff_toNat_le, ← accepts_iff h]
    rcases indexOf_cases ladder price with ⟨hout, herror⟩ | ⟨⟨hlow, hhigh⟩, herror | ⟨_, hok⟩⟩
    · rw [herror]
      constructor
      · rintro ⟨_, heq⟩
        exact absurd heq (by simp)
      · rintro ⟨hlow, hhigh, _⟩
        exact absurd hout (not_or.mpr ⟨UInt64.not_lt.mpr hlow, UInt64.not_lt.mpr hhigh⟩)
    · rw [herror]
      simp [hlow, hhigh]
    · rw [hok]
      simp

end Slots

section Books

variable {minPrice tickSize : Price} {levelCount : UInt64} {book book' : OrderBook}

/-- Both ladders of a book address the grid, from opposite ends. -/
structure Addressed (book : OrderBook) (minPrice tickSize : Price) (levelCount : UInt64) :
    Prop where
  side : ∀ d, (book.ladder d).descending = d ∧
    Addresses (book.ladder d) minPrice tickSize levelCount
  mirrored : Mirrored book levelCount

/-- A ladder of this configuration. -/
structure HasGrid (ladder : PriceLadder) (minPrice tickSize : Price) (levelCount : UInt64)
    (d : Bool) : Prop where
  configured : ladder.Configured
  minPrice : ladder.minPrice = minPrice
  tickSize : ladder.tickSize = tickSize
  levelCount : ladder.levelCount = levelCount
  descending : ladder.descending = d

theorem hasGrid_made {d : Bool} {ladder : PriceLadder}
    (hmake : make minPrice tickSize levelCount d = .ok ladder) :
    HasGrid ladder minPrice tickSize levelCount d := by
  obtain ⟨_, _, _, _, _, hladder⟩ := make_eq_ok hmake
  refine ⟨(make_spec hmake).1, ?_, ?_, ?_, ?_⟩ <;> rw [hladder]

theorem HasGrid.same {d : Bool} {ladder ladder' : PriceLadder}
    (h : HasGrid ladder minPrice tickSize levelCount d) (hconfigured : ladder'.Configured)
    (hgrid : SameGrid ladder ladder') : HasGrid ladder' minPrice tickSize levelCount d where
  configured := hconfigured
  minPrice := hgrid.minPrice.trans h.minPrice
  tickSize := hgrid.tickSize.trans h.tickSize
  levelCount := hgrid.levelCount.trans h.levelCount
  descending := hgrid.descending.trans h.descending

theorem HasGrid.addresses {d : Bool} {ladder : PriceLadder}
    (h : HasGrid ladder minPrice tickSize levelCount d) :
    Addresses ladder minPrice tickSize levelCount := by
  have haddresses := LadderAddresses.addresses h.configured
  rwa [h.minPrice, h.tickSize, h.levelCount] at haddresses

theorem HasGrid.maxPrice {d : Bool} {ladder : PriceLadder}
    (h : HasGrid ladder minPrice tickSize levelCount d) :
    ladder.maxPrice.toNat = topPrice minPrice tickSize levelCount := by
  rw [h.configured.maxPrice_eq, h.minPrice, h.tickSize, h.levelCount, topPrice]

/-- The slot of the `k`-th price, counted from the end the ladder starts at. -/
theorem HasGrid.indexOf {d : Bool} {ladder : PriceLadder}
    (h : HasGrid ladder minPrice tickSize levelCount d) {price : Price} {k : ℕ}
    (hk : k < levelCount.toNat) (hprice : price.toNat = minPrice.toNat + k * tickSize.toNat) :
    ladder.indexOf price = .ok (UInt64.ofNat (if d then levelCount.toNat - 1 - k else k)) := by
  have hk' : k < ladder.levelCount.toNat := by rw [h.levelCount]; exact hk
  have hmirror := slotPrice_mirror h.configured hk'
  rw [h.minPrice, h.tickSize, ← hprice, h.levelCount, h.descending] at hmirror
  refine h.configured.indexOf_slotPrice ?_ hmirror.symm
  rw [h.levelCount]
  split <;> omega

theorem addressed (h : ∀ d, HasGrid (book.ladder d) minPrice tickSize levelCount d) :
    Addressed book minPrice tickSize levelCount := by
  refine ⟨fun d => ⟨(h d).descending, (h d).addresses⟩, fun price => ?_⟩
  have hbids : HasGrid book.bids minPrice tickSize levelCount true := h true
  have hasks : HasGrid book.asks minPrice tickSize levelCount false := h false
  have hmax : book.bids.maxPrice = book.asks.maxPrice :=
    UInt64.toNat_inj.mp (hbids.maxPrice.trans hasks.maxPrice.symm)
  have hmin : book.bids.minPrice = book.asks.minPrice := hbids.minPrice.trans hasks.minPrice.symm
  by_cases hgrid : price ∈ Grid minPrice tickSize levelCount
  · obtain ⟨k, hk, hprice⟩ := hgrid
    have hlt := levelCount.toNat_lt
    refine .inl ⟨_, _, hbids.indexOf hk hprice, hasks.indexOf hk hprice, ?_⟩
    rw [if_pos rfl, if_neg Bool.false_ne_true,
      UInt64.toNat_ofNat_of_lt' (by rw [UInt64.size]; omega),
      UInt64.toNat_ofNat_of_lt' (by rw [UInt64.size]; omega)]
    omega
  · have hbid := fun index hok => hgrid ((hbids.addresses.accepts price).mp ⟨index, hok⟩)
    have hask := fun index hok => hgrid ((hasks.addresses.accepts price).mp ⟨index, hok⟩)
    rcases indexOf_cases book.bids price with ⟨hout, herror⟩ | ⟨⟨hlow, hhigh⟩, herror | ⟨i, hok⟩⟩
    · rcases indexOf_cases book.asks price with ⟨_, herror'⟩ | ⟨⟨hlow, hhigh⟩, _⟩
      · exact .inr ⟨_, herror, herror'⟩
      · rw [hmin, hmax] at hout
        exact absurd hout (not_or.mpr ⟨UInt64.not_lt.mpr hlow, UInt64.not_lt.mpr hhigh⟩)
    · rcases indexOf_cases book.asks price with ⟨hout, _⟩ | ⟨_, herror' | ⟨j, hok'⟩⟩
      · rw [hmin] at hlow
        rw [hmax] at hhigh
        exact absurd hout (not_or.mpr ⟨UInt64.not_lt.mpr hlow, UInt64.not_lt.mpr hhigh⟩)
      · exact .inr ⟨_, herror, herror'⟩
      · exact absurd hok' (hask j)
    · exact absurd hok (hbid i)

theorem make_accepts_book (hmax : levelCount.toNat ≤ maxLevels) (hmin : minPrice ≠ 0)
    (htick : tickSize ≠ 0) (hcount : levelCount ≠ 0)
    (htop : topPrice minPrice tickSize levelCount ≤ 2 ^ 64 - 1) (memory : Memory) :
    ∃ book, OrderBook.make memory minPrice tickSize levelCount = .ok book := by
  obtain ⟨bids, hbids⟩ := make_accepts hmax hmin htick hcount htop true
  obtain ⟨asks, hasks⟩ := make_accepts hmax hmin htick hcount htop false
  exact ⟨_, by rw [OrderBook.make, hbids, hasks]⟩

/-- The addressing of a book is settled by its construction and no call changes it. -/
theorem hasGrid_reachable {hash : OrderId → UInt64} {s : EngineState} {memory : Memory}
    (hmake : OrderBook.make memory minPrice tickSize levelCount = .ok book)
    (hreachable : Reachable hash AnyCall s) (hgrids : SameGrids book s.orderBook) (d : Bool) :
    HasGrid (s.orderBook.ladder d) minPrice tickSize levelCount d :=
  (hasGrid_made ((make_ladders hmake).1 d)).same
    ((reachable_sound hreachable).synced.configured d) (hgrids d)

end Books

/-- The constructor refuses exactly the zero arguments and the ranges beyond 64 bits; any other
configuration is computed without wrapping, and addresses its grid in every reachable book. -/
theorem ladder_addressing (minPrice tickSize : Price) (levelCount : UInt64)
    (hmax : levelCount.toNat ≤ 2 ^ 57) :
    (∀ d, (∃ what, make minPrice tickSize levelCount d = .error (.invalidArgument what)) ↔
      minPrice = 0 ∨ tickSize = 0 ∨ levelCount = 0 ∨
        2 ^ 64 - 1 < topPrice minPrice tickSize levelCount) ∧
    (¬ (minPrice = 0 ∨ tickSize = 0 ∨ levelCount = 0 ∨
        2 ^ 64 - 1 < topPrice minPrice tickSize levelCount) →
      NoWrap minPrice tickSize levelCount ∧
      ∀ memory, ∃ book, OrderBook.make memory minPrice tickSize levelCount = .ok book ∧
        Addressed book minPrice tickSize levelCount ∧
        ∀ hash s, Reachable hash AnyCall s → SameGrids book s.orderBook →
          Addressed s.orderBook minPrice tickSize levelCount) := by
  refine ⟨make_refuses_iff hmax, fun hvalid => ?_⟩
  obtain ⟨hmin, htick, hcount, htop⟩ : minPrice ≠ 0 ∧ tickSize ≠ 0 ∧ levelCount ≠ 0 ∧
      topPrice minPrice tickSize levelCount ≤ 2 ^ 64 - 1 := by
    simpa only [not_or, Nat.not_lt] using hvalid
  refine ⟨noWrap hcount hmax htop, fun memory => ?_⟩
  have hlevels : levelCount.toNat ≤ maxLevels := by
    rw [maxLevels]
    omega
  obtain ⟨book, hmake⟩ := make_accepts_book hlevels hmin htick hcount htop memory
  refine ⟨book, hmake, addressed fun d => hasGrid_made ((make_ladders hmake).1 d), ?_⟩
  exact fun hash s hreachable hgrids =>
    addressed (hasGrid_reachable hmake hreachable hgrids)

/-- Three levels that end at the largest price. -/
theorem top_levels_addressed : NoWrap 18446744073709551605 5 3 ∧ ∀ memory, ∃ book,
    OrderBook.make memory 18446744073709551605 5 3 = .ok book ∧
      Addressed book 18446744073709551605 5 3 := by
  obtain ⟨_, haccepted⟩ := ladder_addressing 18446744073709551605 5 3 (by decide)
  obtain ⟨hexact, hbooks⟩ := haccepted (by decide)
  refine ⟨hexact, fun memory => ?_⟩
  obtain ⟨book, hmake, haddressed, _⟩ := hbooks memory
  exact ⟨book, hmake, haddressed⟩

end Leka.LadderAddresses
