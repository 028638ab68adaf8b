import Leka.BookRuns
import Mathlib.Order.Nat
import Mathlib.Order.Preorder.Finite
import Mathlib.Order.Interval.Finset.Nat
import Mathlib.Order.OrderIsoNat

/-!
How a reservation ends. The page loop adds a page in every round, and the doubling of the
index capacity ends unless the requested count is so large that the sum in front of the
page division wraps: no page is missing then, and no capacity is enough. A reservation
that returns has room for the orders, up to the rounding of the count to a double.
-/

namespace Leka.ReservationEnds

open Procedures Orders OrderIndexing IndexAsMap OrderPools PoolAsSet SyncedBooks OrderBooks
  RestingOrders MatchingEngines BookRuns

section Rounding

variable {n : UInt64} {j K : ℕ}

/-- The 53 leading bits of a large integer, and the rest that rounding decides by. -/
theorem toDouble_large (hn : 2 ^ 53 ≤ n.toNat) : ∃ e q r, 1 ≤ e ∧ 2 ^ 52 ≤ q ∧ q < 2 ^ 53 ∧
    r < 2 ^ e ∧ n.toNat = q * 2 ^ e + r ∧
    toDouble n =
      (if 2 ^ (e - 1) < r ∨ (r = 2 ^ (e - 1) ∧ q % 2 = 1) then q + 1 else q) * 2 ^ e := by
  have hne : n.toNat ≠ 0 := by omega
  have hlog : 53 ≤ n.toNat.log2 := (Nat.le_log2 hne).mpr hn
  have hlow : 2 ^ 52 * 2 ^ (n.toNat.log2 - 52) ≤ n.toNat := by
    rw [← Nat.pow_add, show 52 + (n.toNat.log2 - 52) = n.toNat.log2 by omega]
    exact Nat.log2_self_le hne
  have hhigh : n.toNat < 2 ^ 53 * 2 ^ (n.toNat.log2 - 52) := by
    rw [← Nat.pow_add, show 53 + (n.toNat.log2 - 52) = n.toNat.log2 + 1 by omega]
    exact Nat.lt_log2_self
  have hpos : 0 < 2 ^ (n.toNat.log2 - 52) := Nat.two_pow_pos _
  refine ⟨n.toNat.log2 - 52, n.toNat / 2 ^ (n.toNat.log2 - 52),
    n.toNat % 2 ^ (n.toNat.log2 - 52), by omega, (Nat.le_div_iff_mul_le hpos).mpr hlow,
    (Nat.div_lt_iff_lt_mul hpos).mpr hhigh, Nat.mod_lt _ hpos, ?_, ?_⟩
  · rw [Nat.mul_comm]
    exact (Nat.div_add_mod _ _).symm
  · rw [toDouble, if_neg (by omega)]

/-- Rounding crosses no power of two. -/
theorem toDouble_le_pow (hn : n.toNat ≤ 2 ^ K) : toDouble n ≤ 2 ^ K := by
  by_cases hsmall : n.toNat < 2 ^ 53
  · rwa [toDouble_of_le hsmall]
  · obtain ⟨e, q, r, _, hq, hq', _, hsplit, hround⟩ := toDouble_large (not_lt.mp hsmall)
    have hpow : 2 ^ (52 + e) ≤ 2 ^ K := by
      calc 2 ^ (52 + e) = 2 ^ 52 * 2 ^ e := Nat.pow_add 2 52 e
        _ ≤ q * 2 ^ e := Nat.mul_le_mul_right _ hq
        _ ≤ 2 ^ K := by omega
    have hK : 52 + e ≤ K := (Nat.pow_le_pow_iff_right (by omega)).mp hpow
    by_cases hlast : K = 52 + e
    · have hexact : n.toNat = 2 ^ K := by
        have hle : 2 ^ 52 * 2 ^ e ≤ q * 2 ^ e := Nat.mul_le_mul_right _ hq
        rw [hlast, Nat.pow_add] at hn ⊢
        omega
      rw [toDouble_pow hexact]
    · have hup :
          (if 2 ^ (e - 1) < r ∨ (r = 2 ^ (e - 1) ∧ q % 2 = 1) then q + 1 else q) ≤ 2 ^ 53 := by
        split_ifs <;> omega
      calc toDouble n ≤ 2 ^ 53 * 2 ^ e := by
            rw [hround]
            exact Nat.mul_le_mul_right _ hup
        _ = 2 ^ (53 + e) := (Nat.pow_add 2 53 e).symm
        _ ≤ 2 ^ K := Nat.pow_le_pow_right (by omega) (by omega)

/-- An integer above a power of two that rounds to no more than it lies just above it. -/
theorem near_pow_of_toDouble_le (hle : toDouble n ≤ 2 ^ j) (hlt : 2 ^ j < n.toNat) :
    53 ≤ j ∧ n.toNat ≤ 2 ^ j + 2 ^ (j - 53) := by
  have hlarge : 2 ^ 53 ≤ n.toNat := by
    by_contra hsmall
    rw [toDouble_of_le (not_le.mp hsmall)] at hle
    omega
  obtain ⟨e, q, r, he, hq, hq', hr, hsplit, hround⟩ := toDouble_large hlarge
  have hj : j < 53 + e := by
    refine (Nat.pow_lt_pow_iff_right (a := 2) (by omega)).mp (Nat.lt_of_lt_of_le hlt ?_)
    have hup : (q + 1) * 2 ^ e ≤ 2 ^ 53 * 2 ^ e := Nat.mul_le_mul_right _ hq'
    rw [Nat.pow_add]
    rw [Nat.add_mul] at hup
    omega
  have hq_le : q * 2 ^ e ≤ toDouble n := by
    rw [hround]
    exact Nat.mul_le_mul_right _ (by split_ifs <;> omega)
  have hj' : 52 + e ≤ j := by
    refine (Nat.pow_le_pow_iff_right (a := 2) (by omega)).mp (Nat.le_trans ?_ (hq_le.trans hle))
    rw [Nat.pow_add]
    exact Nat.mul_le_mul_right _ hq
  have hexp : j = 52 + e := by omega
  have hpos : 0 < 2 ^ e := Nat.two_pow_pos e
  rw [hexp, Nat.pow_add] at hle
  -- the leading bits are those of the power, so the rest was rounded away
  have hlead : q = 2 ^ 52 := le_antisymm (Nat.le_of_mul_le_mul_right (hq_le.trans hle) hpos) hq
  have hdown : r ≤ 2 ^ (e - 1) := by
    by_contra hrest
    rw [hround, if_pos (.inl (not_le.mp hrest)), hlead, Nat.add_mul] at hle
    omega
  refine ⟨by omega, ?_⟩
  rw [hexp, show 52 + e - 53 = e - 1 by omega, Nat.pow_add, hsplit, hlead]
  omega

/-- An integer just above a power of two rounds down to it. -/
theorem toDouble_near_pow (hj : 53 ≤ j) (hlt : 2 ^ j < n.toNat)
    (hle : n.toNat ≤ 2 ^ j + 2 ^ (j - 53)) : toDouble n = 2 ^ j := by
  have hlarge : 2 ^ 53 ≤ n.toNat := (Nat.pow_le_pow_right (by omega) hj).trans hlt.le
  obtain ⟨e, q, r, he, hq, hq', hr, hsplit, hround⟩ := toDouble_large hlarge
  have hsum : 2 ^ (j - 53) ≤ 2 ^ j := Nat.pow_le_pow_right (by omega) (by omega)
  have hexp : 52 + e = j := by
    refine le_antisymm (Nat.lt_succ_iff.mp ?_) (Nat.lt_succ_iff.mp ?_)
    · refine (Nat.pow_lt_pow_iff_right (a := 2) (by omega)).mp ?_
      have hlead : 2 ^ 52 * 2 ^ e ≤ q * 2 ^ e := Nat.mul_le_mul_right _ hq
      have hstrict : 2 ^ (j - 53) < 2 ^ j := Nat.pow_lt_pow_right (by omega) (by omega)
      rw [Nat.pow_add, Nat.pow_succ]
      omega
    · refine (Nat.pow_lt_pow_iff_right (a := 2) (by omega)).mp (Nat.lt_of_lt_of_le hlt ?_)
      have hup : (q + 1) * 2 ^ e ≤ 2 ^ 53 * 2 ^ e := Nat.mul_le_mul_right _ hq'
      rw [show (52 + e).succ = 53 + e by omega, Nat.pow_add]
      rw [Nat.add_mul] at hup
      omega
  subst hexp
  rw [show 52 + e - 53 = e - 1 by omega, Nat.pow_add] at hle
  rw [Nat.pow_add] at hlt
  have hhalf : 2 ^ (e - 1) < 2 ^ e := Nat.pow_lt_pow_right (by omega) (by omega)
  have hlead : q = 2 ^ 52 := by
    refine le_antisymm (Nat.lt_succ_iff.mp ?_) hq
    refine Nat.lt_of_mul_lt_mul_right (a := 2 ^ e) ?_
    rw [Nat.succ_mul]
    omega
  rw [hlead] at hsplit
  rw [hround, hlead, if_neg (by omega), Nat.pow_add]

/-- The conversion to a double loses the excess of the count over a power of two. -/
def RoundsDown (orderCount : UInt64) : Prop :=
  ∃ j, 53 ≤ j ∧ j ≤ 57 ∧ 2 ^ j < orderCount.toNat ∧ orderCount.toNat ≤ 2 ^ j + 2 ^ (j - 53)

end Rounding

section Pages

variable {pool : OrderPool} {live : List OrderPtr} {orderCount : UInt64}

/-- Pages have addresses of their own, so there is an end to them. -/
theorem pages_le (h : PoolOk pool live) : pool.pages.size ≤ 2 ^ 48 := by
  have hinto : ∀ k ∈ Finset.range pool.pages.size,
      (pool.page k).storage.toNat / 65536 ∈ Finset.range (2 ^ 48) := by
    intro k _
    have hlt := (pool.page k).storage.toNat_lt
    rw [Finset.mem_range]
    omega
  have hinj : Set.InjOn (fun k => (pool.page k).storage.toNat / 65536)
      (Finset.range pool.pages.size) := by
    intro k hk l hl heq
    simp only [Finset.coe_range, Set.mem_Iio] at hk hl heq
    obtain ⟨_, hpage⟩ := h.page k hk
    obtain ⟨_, hpage'⟩ := h.page l hl
    have haligned := hpage.aligned
    have haligned' := hpage'.aligned
    have hstorage : (pool.page k).storage = (pool.page l).storage := by
      apply UInt64.toNat_inj.mp
      omega
    have hk' := (h.index _ k).mpr ⟨hk, hstorage⟩
    rw [(h.index _ l).mpr ⟨hl, rfl⟩, Option.some.injEq] at hk'
    exact hk'.symm
  have hcard := Finset.card_le_card_of_injOn
    (fun k => (pool.page k).storage.toNat / 65536) hinto hinj
  simpa only [Finset.card_range] using hcard

theorem pagesFor_eq (orderCount : UInt64) :
    pagesFor orderCount = (orderCount.toNat + 818) % 2 ^ 64 / 819 := by
  have hslots : (UInt64.ofNat SlotsPerPage).toNat = 819 := rfl
  have hlt := orderCount.toNat_lt
  simp only [pagesFor, UInt64.toNat_div, UInt64.toNat_sub, UInt64.toNat_add, UInt64.toNat_one,
    hslots]
  omega

theorem pagesFor_wraps (hn : 2 ^ 64 ≤ orderCount.toNat + 818) : pagesFor orderCount = 0 := by
  have hlt := orderCount.toNat_lt
  rw [pagesFor_eq]
  omega

theorem le_pagesFor (hn : orderCount.toNat + 818 < 2 ^ 64) :
    orderCount.toNat ≤ SlotsPerPage * pagesFor orderCount := by
  rw [pagesFor_eq, Nat.mod_eq_of_lt hn, SlotsPerPage]
  omega

/-- A mapping at a page of the address space, if it fits there. -/
def mappingAt (i : ℕ) : Option Mapping :=
  if h : 0 < i ∧ i + 2 ≤ 2 ^ 48 then
    some {
      address := UInt64.ofNat (i * 65536)
      ne_zero := by
        intro hzero
        have hnat := congrArg UInt64.toNat hzero
        rw [UInt64.toNat_ofNat', Nat.mod_eq_of_lt (by omega), UInt64.toNat_zero] at hnat
        omega
      fits := by
        have hsize : PageSize.toNat = 65536 := rfl
        rw [UInt64.toNat_ofNat', Nat.mod_eq_of_lt (by omega), hsize]
        omega }
  else none

/-- A host that grants everything, with page `k` in the mapping at `place k`. -/
def placingHost (place : ℕ → ℕ) : Host where
  systemPageSize := 4096
  mmap := fun k => mappingAt (place k)
  heap := fun _ => true
  slots := fun _ => true
  buffer := fun _ => true

theorem mappingAt_address {i : ℕ} (hi : 0 < i) (hfits : i + 2 ≤ 2 ^ 48) :
    ∃ mapping, mappingAt i = some mapping ∧ mapping.address.toNat = i * 65536 := by
  refine ⟨_, dif_pos ⟨hi, hfits⟩, ?_⟩
  rw [UInt64.toNat_ofNat', Nat.mod_eq_of_lt (by omega)]

theorem newPage_placed {place : ℕ → ℕ} {k : ℕ} (hplace : 0 < place k)
    (hfits : place k + 2 ≤ 2 ^ 48) : ∃ page, newPage (placingHost place) k = .ok page ∧
      page.storage.toNat = place k * 65536 := by
  obtain ⟨mapping, hmap, haddress⟩ := mappingAt_address hplace hfits
  refine ⟨Page.make mapping, ?_, ?_⟩
  · have hpages : PageSize % (4096 : Int64).toUInt64 = 0 := by decide
    simp [newPage, placingHost, hmap, hpages]
  · have hsize : PageSize.toNat = 65536 := rfl
    have hlt := mapping.address.toNat_lt
    rw [Page.make, alignDown_toNat, UInt64.toNat_sub, UInt64.toNat_add, UInt64.toNat_one, hsize,
      haddress]
    omega

/-- Pages that are placed apart from each other and from the registered ones are created. -/
theorem createPages_placed {place : ℕ → ℕ} (n : ℕ) : ∀ s : PoolState,
    (∀ k, s.pool.pages.size ≤ k → k < s.pool.pages.size + n →
      0 < place k ∧ place k + 2 ≤ 2 ^ 48 ∧
      s.pool.pageIndex (UInt64.ofNat (place k * 65536)) = none ∧
      ∀ l, s.pool.pages.size ≤ l → l < s.pool.pages.size + n → place l = place k → l = k) →
    (createPages (placingHost place) n s).1 = .returns () := by
  induction n with
  | zero => exact fun _ _ => rfl
  | succ n ih =>
    intro s hplaces
    obtain ⟨hplace, hfits, hfresh, hapart⟩ := hplaces s.pool.pages.size le_rfl (by omega)
    obtain ⟨page, hnew, hstorage⟩ := newPage_placed (k := s.pool.pages.size) hplace hfits
    have haddress : page.storage = UInt64.ofNat (place s.pool.pages.size * 65536) := by
      rw [← hstorage, UInt64.ofNat_toNat]
    have hcreate := createPage_run hnew (haddress ▸ hfresh)
    have hsame := samePages_pushed s.pool.pages.size (registered page s.pool)
    have hsize : (pushed s.pool.pages.size (registered page s.pool)).pages.size =
        s.pool.pages.size + 1 := by
      rw [hsame.size]
      exact Array.size_push _
    rw [createPages, Proc.bind_returns _ hcreate]
    apply ih
    simp only [hsize, hsame.pageIndex]
    intro k hk hk'
    obtain ⟨hplace', hfits', hfresh', hapart'⟩ := hplaces k (by omega) (by omega)
    refine ⟨hplace', hfits', ?_, fun l hl hl' => hapart' l (by omega) (by omega)⟩
    -- the page that was just created lies elsewhere
    have hne : UInt64.ofNat (place k * 65536) ≠ page.storage := by
      intro heq
      have hnat := congrArg UInt64.toNat heq
      rw [hstorage, UInt64.toNat_ofNat', Nat.mod_eq_of_lt (by omega)] at hnat
      have hself := hapart k (by omega) (by omega) (by omega)
      omega
    exact (Function.update_of_ne hne _ _).trans hfresh'

/-- Numbers below `N` outside a finite set, each taken once. -/
theorem exists_unused (used : Finset ℕ) {N m : ℕ} (hcard : used.card + m ≤ N) :
    ∃ pick : ℕ → ℕ, ∀ i < m, pick i < N ∧ pick i ∉ used ∧ ∀ l < m, pick l = pick i → l = i := by
  have hroom : m ≤ (Finset.range N \ used).toList.length := by
    have hle := Finset.le_card_sdiff used (Finset.range N)
    rw [Finset.card_range] at hle
    rw [Finset.length_toList]
    omega
  refine ⟨fun i => (Finset.range N \ used).toList.getD i 0, fun i hi => ?_⟩
  have hget : ∀ l, (hl : l < m) → (Finset.range N \ used).toList.getD l 0 =
      (Finset.range N \ used).toList.get ⟨l, by omega⟩ := by
    intro l hl
    exact List.getD_eq_getElem _ _ (by omega)
  have hmem := List.get_mem (Finset.range N \ used).toList ⟨i, by omega⟩
  rw [Finset.mem_toList, Finset.mem_sdiff, Finset.mem_range] at hmem
  simp only [hget i hi]
  refine ⟨hmem.1, hmem.2, fun l hl heq => ?_⟩
  rw [hget l hl] at heq
  exact Fin.mk.inj_iff.mp ((List.nodup_iff_injective_get.mp (Finset.nodup_toList _)) heq)

/-- Some host grants every page that a reservation asks for. -/
theorem exists_granting (h : PoolOk pool live) (memory : Memory)
    (hfit : pagesFor orderCount + 2 ≤ 2 ^ 48) : ∃ place : ℕ → ℕ,
      (OrderPools.reserve (placingHost place) orderCount ⟨pool, memory⟩).1 = .returns () := by
  by_cases hmore : pool.pages.size ≤ pagesFor orderCount
  · -- zero, which is no address, and the places of the pages that there are
    let used : Finset ℕ := insert 0
      ((Finset.range pool.pages.size).image fun k => (pool.page k).storage.toNat / 65536)
    have hused : used.card ≤ pool.pages.size + 1 := by
      refine (Finset.card_insert_le _ _).trans (Nat.succ_le_succ ?_)
      exact Finset.card_image_le.trans (Finset.card_range _).le
    obtain ⟨pick, hpick⟩ := exists_unused used (N := 2 ^ 48 - 1)
      (m := pagesFor orderCount - pool.pages.size) (by omega)
    refine ⟨fun k => pick (k - pool.pages.size), ?_⟩
    refine createPages_placed (pagesFor orderCount - pool.pages.size) ⟨pool, memory⟩ ?_
    intro k hk hk'
    simp only at hk hk' ⊢
    obtain ⟨hlt, hout, hapart⟩ := hpick (k - pool.pages.size) (by omega)
    rw [Finset.mem_insert, not_or] at hout
    refine ⟨by omega, by omega, ?_, ?_⟩
    · rw [Option.eq_none_iff_forall_ne_some]
      intro l hl
      obtain ⟨hlt', hstorage⟩ := (h.index _ l).mp hl
      refine hout.2 (Finset.mem_image.mpr ⟨l, Finset.mem_range.mpr hlt', ?_⟩)
      rw [hstorage, UInt64.toNat_ofNat', Nat.mod_eq_of_lt (by omega)]
      omega
    · intro l hl hl' heq
      have hsame := hapart (l - pool.pages.size) (by omega) heq
      omega
  · refine ⟨fun _ => 0, ?_⟩
    have hnone : pagesFor orderCount - pool.pages.size = 0 := by omega
    change (createPages _ (pagesFor orderCount - pool.pages.size) _).1 = _
    rw [hnone]
    rfl

end Pages

/-- The call throws, or it returns with room for the orders in the pool and in the index. -/
def Reserved (orderCount : UInt64) : Outcome StdException Unit × OrderBook → Prop
  | (.throws _, _) => True
  | (.returns _, book) =>
    orderCount.toNat ≤ SlotsPerPage * book.orderPool.pages.size ∧
      2 * orderCount.toNat ≤ book.orderIndex.slots.size
  | (.diverges, _) => False

theorem reserved_of_throws {orderCount : UInt64} {result : Outcome StdException Unit × OrderBook}
    {e : StdException} (h : result.1 = .throws e) : Reserved orderCount result := by
  obtain ⟨o, book⟩ := result
  simp only at h
  rw [h]
  trivial

theorem not_reserved_of_diverges {orderCount : UInt64}
    {result : Outcome StdException Unit × OrderBook} (h : result.1 = .diverges) :
    ¬ Reserved orderCount result := by
  obtain ⟨o, book⟩ := result
  simp only at h
  rw [h]
  exact id

section Ends

variable {hash : OrderId → UInt64} {book : OrderBook} {s : EngineState} {orderCount : UInt64}

/-- From `2 ^ 63` orders on, no capacity is enough. -/
theorem doubleUntil_large {index : OrderIndex} (hi : IndexOk hash index)
    (hn : 2 ^ 63 ≤ orderCount.toNat) : doubleUntil orderCount 65
      (if index.slots.isEmpty then InitialCapacity else size index.slots) = none := by
  obtain ⟨m, _, hm, hstart⟩ := hi.start
  refine Option.eq_none_iff_forall_ne_some.mpr fun capacity hdouble => ?_
  obtain ⟨k, _, hk, _, henough, _⟩ := doubleUntil_pow 65 _ capacity m hstart (by omega) hdouble
  have hround := lt_two_mul_toDouble (n := orderCount) (by omega)
  have hle : 2 ^ k ≤ 2 ^ 63 := Nat.pow_le_pow_right (by omega) (by omega)
  omega

/-- When the sum wraps the pool is left alone, and the doubling never ends. -/
theorem diverges_of_wraps (hs : Sound hash book) (host : Host)
    (hn : 2 ^ 64 ≤ orderCount.toNat + 818) :
    (reserveOrderCapacity hash host orderCount book).1 = .diverges := by
  have hpool : OrderPools.reserve host orderCount ⟨book.orderPool, book.memory⟩ =
      (.returns (), ⟨book.orderPool, book.memory⟩) := by
    change createPages host (pagesFor orderCount - book.orderPool.pages.size) _ = _
    rw [pagesFor_wraps hn, Nat.zero_sub]
    rfl
  have hindex : OrderIndexing.reserve hash host.slots orderCount book.orderIndex =
      (.diverges, book.orderIndex) := by
    rw [OrderIndexing.reserve, Proc.get_bind_apply,
      doubleUntil_large hs.synced.index (by omega), whileLoop_none,
      Proc.bind_diverges _ (Proc.diverge_apply _)]
  rw [reserveOrderCapacity, Proc.bind_returns _ (onPool_run hpool), onIndex_run hindex]

/-- Below the wrap a reservation ends: it is refused memory, or it returns with the first power
of two that is enough slots for the rounded count. -/
theorem reservation_cases (hs : Sound hash book) (host : Host)
    (hn : orderCount.toNat + 818 < 2 ^ 64) :
    (∃ e, (OrderPools.reserve host orderCount ⟨book.orderPool, book.memory⟩).1 = .throws e ∧
      (reserveOrderCapacity hash host orderCount book).1 = .throws e) ∨
    ∃ k, 2 * toDouble orderCount ≤ 2 ^ k ∧ (k ≤ 4 ∨ 2 ^ (k - 1) < 2 * toDouble orderCount ∨
        book.orderIndex.slots.size = 2 ^ k) ∧
      ((∃ c e, c.toNat = 2 ^ k ∧ Refuses host.slots c ∧
          (reserveOrderCapacity hash host orderCount book).1 = .throws e) ∨
        ∃ book', reserveOrderCapacity hash host orderCount book = (.returns (), book') ∧
          orderCount.toNat ≤ SlotsPerPage * book'.orderPool.pages.size ∧
          book'.orderIndex.slots.size = 2 ^ k ∧ k ≤ 58 ∧
          book.orderIndex.slots.size ≤ 2 ^ k) := by
  obtain ⟨pool, hpool, ⟨e, hreserve, hrun⟩ | ⟨_, hpages, hrun⟩⟩ :=
    reserveOrderCapacity_split hs host orderCount
  · exact .inl ⟨e, by rw [hreserve], by rw [hrun]⟩
  · have hroom : orderCount.toNat ≤ SlotsPerPage * pool.pages.size :=
      (le_pagesFor hn).trans (Nat.mul_le_mul_left _ hpages)
    rcases reserve_cases hs.synced.index host.slots orderCount with ⟨hdouble, _⟩ |
      ⟨k, henough, hfirst, ⟨_, hsize, hends⟩ | ⟨c, hc, _, ⟨hrefuses, e, hends⟩ |
        ⟨_, grown, hends, hsize, hlarger, hok, _⟩⟩⟩
    · -- the pages exist, so there are too few orders for the doubling to wrap
      have hbound : orderCount.toNat ≤ 2 ^ 58 := by
        have hmax := pages_le hpool
        rw [SlotsPerPage] at hroom
        omega
      have hround : 2 * toDouble orderCount ≤ 2 ^ 59 := by
        have hle := toDouble_le_pow hbound
        omega
      obtain ⟨m, _, _, hstart⟩ := hs.synced.index.start
      obtain ⟨capacity, hcapacity⟩ := doubleUntil_terminates (by omega) hround 65 _ m hstart
        (by omega) (by omega) (by omega)
      rw [hdouble] at hcapacity
      simp at hcapacity
    · have hreturns : reserveOrderCapacity hash host orderCount book =
          (.returns (), { book with orderPool := pool }) := by rw [hrun, hends]
      exact .inr ⟨k, henough, hfirst, .inr ⟨_, hreturns, hroom, hsize,
        hs.synced.index.exponent_le hsize, hsize.le⟩⟩
    · refine .inr ⟨k, henough, hfirst, .inl ⟨c, e, hc, hrefuses, ?_⟩⟩
      rw [hrun, hends]
    · have hreturns : reserveOrderCapacity hash host orderCount book =
          (.returns (), { book with
            orderPool := pool
            orderIndex := { book.orderIndex with slots := grown } }) := by rw [hrun, hends]
      exact .inr ⟨k, henough, hfirst, .inr ⟨_, hreturns, hroom, hsize, hok.exponent_le hsize,
        hlarger.le⟩⟩

/-- The one exception to the end of a reservation is the wrap. -/
theorem diverges_iff (hs : Sound hash book) (host : Host) :
    (reserveOrderCapacity hash host orderCount book).1 = .diverges ↔
      2 ^ 64 ≤ orderCount.toNat + 818 := by
  constructor
  · intro hdiverges
    by_contra hfits
    rcases reservation_cases hs host (not_le.mp hfits) with ⟨e, _, hthrows⟩ |
      ⟨_, _, _, ⟨_, e, _, _, hthrows⟩ | ⟨_, hreturns, _⟩⟩
    · simp [hdiverges] at hthrows
    · simp [hdiverges] at hthrows
    · simp [hreturns] at hdiverges
  · exact diverges_of_wraps hs host

/-- The slots that the index settles on hold the orders, unless the count was rounded. -/
theorem slots_enough {k : ℕ} (hk : k ≤ 58) (henough : 2 * toDouble orderCount ≤ 2 ^ k)
    (hrounded : RoundsDown orderCount → 2 * orderCount.toNat ≤ 2 ^ k) :
    2 * orderCount.toNat ≤ 2 ^ k := by
  by_contra hshort
  cases k with
  | zero =>
    have hzero : orderCount.toNat = 0 := by
      by_contra hpos
      have hround := lt_two_mul_toDouble (n := orderCount) (by omega)
      omega
    omega
  | succ j =>
    rw [Nat.pow_succ] at henough hshort
    obtain ⟨hj, hnear⟩ := near_pow_of_toDouble_le (n := orderCount) (j := j) (by omega) (by omega)
    have hle := hrounded ⟨j, hj, by omega, by omega, hnear⟩
    rw [Nat.pow_succ] at hle
    omega

/-- A count that rounds down gets too few slots from a host that refuses nothing. -/
theorem short_of_rounded (hs : Sound hash book) (hrounds : RoundsDown orderCount)
    (hslots : book.orderIndex.slots.size < 2 * orderCount.toNat) :
    ∃ host, ¬ Reserved orderCount (reserveOrderCapacity hash host orderCount book) := by
  obtain ⟨j, hj, hj', hlt, hle⟩ := hrounds
  have hpow : 2 ^ j ≤ 2 ^ 57 := Nat.pow_le_pow_right (by omega) hj'
  have hsmall : 2 ^ (j - 53) ≤ 2 ^ 4 := Nat.pow_le_pow_right (by omega) (by omega)
  have hhalf : 2 ^ (j - 53) < 2 ^ j := Nat.pow_lt_pow_right (by omega) (by omega)
  have hround := toDouble_near_pow hj hlt hle
  have hfits : orderCount.toNat + 818 < 2 ^ 64 := by omega
  have hpages : pagesFor orderCount + 2 ≤ 2 ^ 48 := by
    rw [pagesFor_eq]
    omega
  obtain ⟨place, hgranted⟩ := exists_granting hs.synced.pool book.memory hpages
  refine ⟨placingHost place, ?_⟩
  rcases reservation_cases hs (placingHost place) hfits with ⟨e, hthrows, _⟩ |
    ⟨k, _, hfirst, hends⟩
  · simp [hgranted] at hthrows
  · -- the index stops at twice the power that the count was rounded to
    have hk : k ≤ j + 1 := by
      rcases hfirst with hsmallest | hlarger | hkept
      · omega
      · rw [hround, ← Nat.pow_succ'] at hlarger
        have hexp := (Nat.pow_lt_pow_iff_right (by omega)).mp hlarger
        omega
      · refine Nat.lt_succ_iff.mp ((Nat.pow_lt_pow_iff_right (a := 2) (by omega)).mp ?_)
        rw [← hkept, Nat.pow_succ, Nat.pow_succ]
        omega
    have hstop : 2 ^ k ≤ 2 ^ (j + 1) := Nat.pow_le_pow_right (by omega) hk
    rw [Nat.pow_succ] at hstop
    rcases hends with ⟨c, e, hc, hrefuses, _⟩ | ⟨book', hreturns, _, hsize, _, _⟩
    · rcases hrefuses with hmax | halloc
      · rw [hc, maxSlots] at hmax
        omega
      · simp [placingHost] at halloc
    · rw [hreturns]
      intro hreserved
      have henough := hreserved.2
      omega

/-- A reservation of `orderCount` orders ends as it should on every host unless the page count
wraps, or the count is rounded down and the index is not large enough already. -/
theorem reservation_ends (h : Reachable hash AnyCall s) (orderCount : UInt64) :
    (∀ host, Reserved orderCount (reserveOrderCapacity hash host orderCount s.orderBook)) ↔
      orderCount.toNat + 818 < 2 ^ 64 ∧ (RoundsDown orderCount →
        2 * orderCount.toNat ≤ s.orderBook.orderIndex.slots.size) := by
  have hs := reachable_sound h
  constructor
  · intro hreserved
    constructor
    · by_contra hwraps
      have hdiverges := diverges_of_wraps hs (placingHost id) (not_lt.mp hwraps)
      exact not_reserved_of_diverges hdiverges (hreserved (placingHost id))
    · intro hrounds
      by_contra hslots
      obtain ⟨host, hshort⟩ := short_of_rounded hs hrounds (not_le.mp hslots)
      exact hshort (hreserved host)
  · rintro ⟨hfits, hrounded⟩ host
    rcases reservation_cases hs host hfits with ⟨e, _, hthrows⟩ |
      ⟨k, henough, _, ⟨_, e, _, _, hthrows⟩ | ⟨book, hreturns, hroom, hsize, hk, hkept⟩⟩
    · exact reserved_of_throws hthrows
    · exact reserved_of_throws hthrows
    · rw [hreturns]
      refine ⟨hroom, ?_⟩
      rw [hsize]
      exact slots_enough hk henough fun hrounds => (hrounded hrounds).trans hkept

/-- On an empty book a reservation for a thousand orders is as it should be. -/
theorem thousand_reserved : ∃ s, Reachable id AnyCall s ∧
    ∀ host, Reserved 1000 (reserveOrderCapacity id host 1000 s.orderBook) := by
  obtain ⟨s, h, _⟩ := @exists_reachable id _ _ anyCall_of_removesNone 100 5 8 []
    (fun _ => true) (by decide)
  refine ⟨s, h, (reservation_ends h 1000).mpr ⟨by decide, ?_⟩⟩
  rintro ⟨j, hj, _, hlt, _⟩
  have hle : 2 ^ 53 ≤ 2 ^ j := Nat.pow_le_pow_right (by omega) hj
  have hcount : (1000 : UInt64).toNat = 1000 := rfl
  omega

/-- On an empty book a reservation for every order that can be counted never ends. -/
theorem all_orders_diverge : ∃ s, Reachable id AnyCall s ∧
    s.orderBook.orderPool.pages = #[] ∧ s.orderBook.orderIndex.slots = #[] ∧
    (reserveOrderCapacity id grantingHost 18446744073709551615 s.orderBook).1 = .diverges ∧
    ¬ Reserved 18446744073709551615
      (reserveOrderCapacity id grantingHost 18446744073709551615 s.orderBook) := by
  obtain ⟨s, h, hempty⟩ := @exists_reachable id _ _ anyCall_of_removesNone 100 5 8 []
    (fun s => s.orderBook.orderPool.pages.isEmpty && s.orderBook.orderIndex.slots.isEmpty)
    (by decide)
  rw [Bool.and_eq_true, Array.isEmpty_iff, Array.isEmpty_iff] at hempty
  have hdiverges : (reserveOrderCapacity id grantingHost 18446744073709551615 s.orderBook).1 =
      .diverges := diverges_of_wraps (reachable_sound h) grantingHost (by decide)
  exact ⟨s, h, hempty.1, hempty.2, hdiverges, not_reserved_of_diverges hdiverges⟩

end Ends

end Leka.ReservationEnds
