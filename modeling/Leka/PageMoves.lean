import Leka.PoolAsSet

/-!
What the calls of the pool do page by page. A call adds fresh pages behind those there
are, an allocation takes the first free slot of one page, and a release puts one slot in
front of the chain of its page. Every other slot stays as it is.
-/

namespace Leka.PageMoves

open Procedures Orders LinkedChain OrderPools PoolAsSet

inductive PoolCall where
  | allocate (orderId : OrderId) (price : Price) (originalQuantity remainingQuantity : Quantity)
      (timestamp : Timestamp) (orderSide : OrderSide) (orderType : Orders.OrderType)
      (sequenceNumber : SequenceNumber)
  | reserve (orderCount : UInt64)
  | release (order : OrderPtr)

namespace PoolCall

/-- The address that the call returns, if it returns one. -/
def run (host : Host) : PoolCall → PoolProc (Option OrderPtr)
  | allocate orderId price originalQuantity remainingQuantity timestamp orderSide orderType
      sequenceNumber => do
    let order ← OrderPools.allocate host orderId price originalQuantity remainingQuantity timestamp
      orderSide orderType sequenceNumber
    return some order
  | reserve orderCount => do
    OrderPools.reserve host orderCount
    return none
  | release order => do
    OrderPools.release order
    return none

end PoolCall

/-- The pools met in any run of calls from an empty pool, failing calls included. -/
inductive PoolReachable : PoolState → Prop
  | empty (memory : Memory) : PoolReachable { pool := {}, memory := memory }
  | call {s : PoolState} (h : PoolReachable s) (host : Host) (call : PoolCall) :
      PoolReachable (call.run host s).2

section Growth

variable {host : Host} {pool pool' : OrderPool} {s : PoolState}

/-- The mapping behind page number `k`, had from the operating system. -/
structure Mapped (host : Host) (k : ℕ) (mapping : Mapping) : Prop where
  pageSize_pos : 0 < host.systemPageSize
  pageSize_dvd : PageSize % host.systemPageSize.toUInt64 = 0
  mmap : host.mmap k = some mapping

theorem newPage_mapped {k : ℕ} {page : Page} (h : newPage host k = .ok page) :
    ∃ mapping, Mapped host k mapping ∧ page = Page.make mapping := by
  obtain ⟨mapping, hmake, hmmap, hpos, hdvd⟩ := newPage_ok h
  exact ⟨mapping, ⟨hpos, hdvd, hmmap⟩, hmake⟩

/-- `pool'` has the pages of `pool` with fresh ones behind them. -/
structure Grown (host : Host) (pool pool' : OrderPool) : Prop where
  size_le : pool.pages.size ≤ pool'.pages.size
  old : ∀ k < pool.pages.size, (pool'.page k).detached = (pool.page k).detached
  fresh : ∀ k, pool.pages.size ≤ k → k < pool'.pages.size →
    ∃ mapping, Mapped host k mapping ∧ (pool'.page k).detached = Page.make mapping

theorem grown_refl (host : Host) (pool : OrderPool) : Grown host pool pool :=
  ⟨le_refl _, fun _ _ => rfl, fun _ hge hlt => absurd hlt (by omega)⟩

theorem Grown.trans {pool'' : OrderPool} (h : Grown host pool pool')
    (h' : Grown host pool' pool'') : Grown host pool pool'' := by
  have hle := h.size_le
  have hle' := h'.size_le
  refine ⟨by omega, fun k hk => (h'.old k (by omega)).trans (h.old k hk), ?_⟩
  intro k hge hlt
  by_cases hk : k < pool'.pages.size
  · obtain ⟨mapping, hmapped, hpage⟩ := h.fresh k hge hk
    exact ⟨mapping, hmapped, (h'.old k hk).trans hpage⟩
  · exact h'.fresh k (by omega) hlt

theorem grown_created {page : Page} (hnew : newPage host pool.pages.size = .ok page) :
    Grown host pool (pushed pool.pages.size (registered page pool)) := by
  have hsame := samePages_pushed pool.pages.size (registered page pool)
  have hsize : (registered page pool).pages.size = pool.pages.size + 1 := by simp [registered]
  refine ⟨?_, ?_, ?_⟩
  · rw [hsame.size, hsize]
    omega
  · intro k hk
    rw [hsame.detached, page_registered, if_neg (by omega)]
  · intro k hge hlt
    rw [hsame.size, hsize] at hlt
    have hk : k = pool.pages.size := by omega
    subst k
    obtain ⟨mapping, hmapped, rfl⟩ := newPage_mapped hnew
    refine ⟨mapping, hmapped, ?_⟩
    rw [hsame.detached, page_registered, if_pos rfl]
    rfl

theorem createPage_grown {live : List OrderPtr} (h : PoolOk s.pool live)
    (hgrant : ¬ PageRefused host s.pool) :
    ∃ pool, createPage host s = (.returns s.pool.pages.size, { s with pool := pool }) ∧
      PoolOk pool live ∧ Grown host s.pool pool ∧
      pool.firstPageWithFreeSlot = some s.pool.pages.size := by
  obtain ⟨page, hnew, hfresh⟩ : ∃ page, newPage host s.pool.pages.size = .ok page ∧
      s.pool.pageIndex page.storage = none := by
    simpa [PageRefused] using hgrant
  obtain ⟨pool, hcreate, hok, hfirst, _⟩ := createPage_spec h hgrant
  have hrun := createPage_run hnew hfresh
  rw [hcreate] at hrun
  obtain rfl : pool = pushed s.pool.pages.size (registered page s.pool) := by simpa using hrun
  exact ⟨_, hcreate, hok, grown_created hnew, hfirst⟩

/-- The loop of `reserve` only adds pages, wherever it stops. -/
theorem createPages_grown {live : List OrderPtr} (h : PoolOk s.pool live) (n : ℕ) :
    ∃ o pool, createPages host n s = (o, { s with pool := pool }) ∧ PoolOk pool live ∧
      Grown host s.pool pool := by
  induction n generalizing s with
  | zero => exact ⟨_, s.pool, rfl, h, grown_refl host s.pool⟩
  | succ n ih =>
    by_cases hpage : PageRefused host s.pool
    · obtain ⟨e, hcreate⟩ := createPage_refused hpage
      exact ⟨_, s.pool, Proc.bind_throws _ hcreate, h, grown_refl host s.pool⟩
    · obtain ⟨pool, hcreate, hok, hgrown, _⟩ := createPage_grown h hpage
      obtain ⟨o, pool', hrest, hok', hgrown'⟩ := ih (s := { s with pool := pool }) hok
      exact ⟨o, pool', (Proc.bind_returns _ hcreate).trans hrest, hok', hgrown.trans hgrown'⟩

end Growth

section Slots

variable {pool : OrderPool} {k : ℕ}

/-- An allocation in page `k` takes the first free slot of that page and no other. -/
theorem samePages_allocated (k : ℕ) (pool : OrderPool) :
    (allocated k pool).pages.size = pool.pages.size ∧ ∀ l, ((allocated k pool).page l).detached =
      ((OrderPool.updatePage k (Page.takeSlot (pool.page k).firstFree.toNat) pool).page l).detached
    := by
  simp only [allocated]
  split_ifs
  · have hsame := samePages_dropped k
      (OrderPool.updatePage k (Page.takeSlot (pool.page k).firstFree.toNat) pool)
    exact ⟨hsame.size.trans (size_updatePage _ _ _), hsame.detached⟩
  · exact ⟨size_updatePage _ _ _, fun _ => rfl⟩

/-- A release in page `k` puts slot `i` in front of the chain of that page. -/
theorem samePages_released (k i : ℕ) (pool : OrderPool) :
    (released k i pool).pages.size = pool.pages.size ∧ ∀ l, ((released k i pool).page l).detached =
      ((OrderPool.updatePage k ((fun p : Page => { p with freeCount := p.freeCount + 1 }) ∘
        Page.giveSlot i) pool).page l).detached := by
  have hcount : ∀ p q : Page, p.detached = q.detached →
      Page.detached { p with freeCount := p.freeCount + 1 } =
        Page.detached { q with freeCount := q.freeCount + 1 } := by
    intro p q heq
    obtain ⟨hstorage, hnext, hocc, hfirst, hfree⟩ := detached_fields heq
    simp [Page.detached, hstorage, hnext, hocc, hfirst, hfree]
  have htwice : ∀ l, (OrderPool.updatePage k (fun p => { p with freeCount := p.freeCount + 1 })
      (OrderPool.updatePage k (Page.giveSlot i) pool)).page l = _ :=
    page_updatePage_twice k (Page.giveSlot i) _ pool
  simp only [released]
  split_ifs
  · have hsame := (samePages_pushed k (OrderPool.updatePage k (Page.giveSlot i) pool)).update
      (k := k) hcount
    refine ⟨by simpa using hsame.size, ?_⟩
    intro l
    rw [← htwice]
    exact hsame.detached l
  · refine ⟨by simp, ?_⟩
    intro l
    rw [← htwice]
    rfl

/-- A slot-aligned address inside a page is the address of a slot. -/
theorem slot_of_offset {page : Page} {order : OrderPtr}
    (hbase : page.storage = order &&& ~~~(PageSize - 1))
    (hoffset : (order - page.storage) % orderSize = 0)
    (hindex : ((order - page.storage) / orderSize).toNat < SlotsPerPage) :
    page.slot ((order - page.storage) / orderSize).toNat = order := by
  have hdown := alignDown_toNat order
  rw [← hbase] at hdown
  have hle : page.storage ≤ order := by
    rw [UInt64.le_iff_toNat_le]
    omega
  have hsub := UInt64.toNat_sub_of_le _ _ hle
  have hsize : orderSize.toNat = 80 := rfl
  have hmod : (order - page.storage).toNat % 80 = 0 := by
    rw [← hsize, ← UInt64.toNat_mod, hoffset]
    rfl
  apply UInt64.toNat_inj.mp
  rw [slot_toNat (by omega) hindex, UInt64.toNat_div, hsize]
  rw [UInt64.le_iff_toNat_le] at hle
  omega

end Slots

section Effects

variable {host : Host} {s : PoolState} {live : List OrderPtr} {order : OrderPtr}

/-- No page has a free slot when the list of those that have one is empty. -/
theorem full_of_no_first (h : PoolOk s.pool live) (hfirst : s.pool.firstPageWithFreeSlot = none) :
    ∀ k < s.pool.pages.size, (s.pool.page k).freeCount = 0 := by
  intro k hk
  obtain ⟨ks, hks, hcounts⟩ := h.freePages
  have hempty : ks = [] := by
    rw [hks.first] at hfirst
    cases ks with
    | nil => rfl
    | cons x xs =>
      rw [List.headD_cons] at hfirst
      exact absurd (by simp [hfirst]) hks.not_null
  by_contra hpos
  have hmem := (hcounts k hk).mpr hpos
  rw [hempty] at hmem
  simp at hmem

/-- The address of anything but a live order is turned away by one of the four checks. -/
theorem release_rejected (h : PoolOk s.pool live) (hnot : order ∉ live) :
    ∃ what, release order s = (.throws (.invalidArgument what), s) := by
  by_cases hnull : order = nullptr
  · exact ⟨"Cannot release a null order", by simp only [release, hnull, if_true]; rfl⟩
  simp only [release, hnull, if_false, Proc.get_bind_apply]
  cases hindex : s.pool.pageIndex (order &&& ~~~(PageSize - 1)) with
  | none => exact ⟨_, rfl⟩
  | some k =>
    obtain ⟨hk, hbase⟩ := (h.index _ k).mp hindex
    simp only [Proc.check_ok, Proc.pure_bind_apply, ← hbase]
    by_cases hoffset : (order - (s.pool.page k).storage) % orderSize ≠ 0
    · exact ⟨_, by rw [if_pos hoffset]; rfl⟩
    rw [if_neg hoffset]
    by_cases hslot : ((order - (s.pool.page k).storage) / orderSize).toNat ≥ SlotsPerPage ∨
        (s.pool.page k).occupied ((order - (s.pool.page k).storage) / orderSize).toNat = false
    · exact ⟨_, by rw [if_pos hslot]; rfl⟩
    · -- every check passed, so the address is that of an occupied slot
      exfalso
      simp only [not_or, ge_iff_le, not_le, Bool.not_eq_false] at hslot
      apply hnot
      rw [h.stored]
      exact ⟨k, hk, _, hslot.1, hslot.2,
        slot_of_offset hbase (not_not.mp hoffset) hslot.1⟩

/-- What one call does to the pool and to the addresses of the live orders. -/
inductive Effect (host : Host) (s : PoolState) (live : List OrderPtr) :
    PoolCall → Outcome StdException (Option OrderPtr) × PoolState → List OrderPtr → Prop
  | refused {orderId price originalQuantity remainingQuantity timestamp orderSide orderType
      sequenceNumber} (e : StdException) :
      Effect host s live (.allocate orderId price originalQuantity remainingQuantity timestamp
        orderSide orderType sequenceNumber) (.throws e, s) live
  | allocated {orderId price originalQuantity remainingQuantity timestamp orderSide orderType
      sequenceNumber} {grown : OrderPool} {k : ℕ} (hgrown : Grown host s.pool grown)
      (hfull : grown.pages.size ≠ s.pool.pages.size →
        ∀ l < s.pool.pages.size, (s.pool.page l).freeCount = 0)
      (hok : PoolOk grown live) (hfirst : grown.firstPageWithFreeSlot = some k) :
      Effect host s live (.allocate orderId price originalQuantity remainingQuantity timestamp
          orderSide orderType sequenceNumber)
        (.returns (some ((grown.page k).slot (grown.page k).firstFree.toNat)),
          { pool := allocated k grown
            memory := Function.update s.memory
              ((grown.page k).slot (grown.page k).firstFree.toNat) {
                orderId, price, originalQuantity, remainingQuantity, timestamp, orderSide,
                orderType, sequenceNumber } })
        ((grown.page k).slot (grown.page k).firstFree.toNat :: live)
  | reserved {orderCount : UInt64} {o : Outcome StdException (Option OrderPtr)} {pool : OrderPool}
      (hgrown : Grown host s.pool pool) (hnone : ∀ order, o ≠ .returns (some order)) :
      Effect host s live (.reserve orderCount) (o, { s with pool := pool }) live
  | released {k i : ℕ} (hk : k < s.pool.pages.size) (hi : i < SlotsPerPage)
      (hocc : (s.pool.page k).occupied i = true) :
      Effect host s live (.release ((s.pool.page k).slot i))
        (.returns none, { s with pool := released k i s.pool })
        (live.erase ((s.pool.page k).slot i))
  | rejected {order : OrderPtr} (hnot : order ∉ live) (what : String) :
      Effect host s live (.release order) (.throws (.invalidArgument what), s) live

/-- Giving back a live order puts its slot in front of the chain of its page. -/
theorem release_live (h : PoolOk s.pool live) {k i : ℕ} (hk : k < s.pool.pages.size)
    (hi : i < SlotsPerPage) (hocc : (s.pool.page k).occupied i = true) :
    release ((s.pool.page k).slot i) s = (.returns (), { s with pool := released k i s.pool }) ∧
      PoolOk (released k i s.pool) (live.erase ((s.pool.page k).slot i)) := by
  have hoff : (s.pool.page k).freeCount = 0 → (s.pool.page k).onFreePageList = false := by
    intro hzero
    obtain ⟨ks, hks, hcounts⟩ := h.freePages
    rw [← Bool.not_eq_true, hks.listed, hcounts k hk]
    simpa using hzero
  have hrun := release_run h.toSlotsOk hk hi hocc hoff
  obtain ⟨pool, hspec, hok, _⟩ := release_spec h ((h.stored _).mpr ⟨k, hk, i, hi, hocc, rfl⟩)
  rw [hrun] at hspec
  obtain rfl : released k i s.pool = pool := by simpa using hspec
  exact ⟨hrun, hok⟩

section Allocation

variable (orderId : OrderId) (price : Price)
  (originalQuantity remainingQuantity : Quantity) (timestamp : Timestamp) (orderSide : OrderSide)
  (orderType : Orders.OrderType) (sequenceNumber : SequenceNumber)

/-- An allocation fails without a trace, or takes the first free slot of the first page that
has one, after adding a page when there is none. -/
theorem allocate_cases (host : Host) (h : PoolOk s.pool live) :
    (∃ e, allocate host orderId price originalQuantity remainingQuantity timestamp orderSide
      orderType sequenceNumber s = (.throws e, s)) ∨
    ∃ grown k, Grown host s.pool grown ∧
      (grown.pages.size ≠ s.pool.pages.size →
        ∀ l < s.pool.pages.size, (s.pool.page l).freeCount = 0) ∧
      PoolOk grown live ∧ grown.firstPageWithFreeSlot = some k ∧
      allocate host orderId price originalQuantity remainingQuantity timestamp orderSide orderType
          sequenceNumber s =
        (.returns ((grown.page k).slot (grown.page k).firstFree.toNat),
          { pool := allocated k grown
            memory := Function.update s.memory
              ((grown.page k).slot (grown.page k).firstFree.toNat) {
                orderId, price, originalQuantity, remainingQuantity, timestamp, orderSide,
                orderType, sequenceNumber } }) := by
  simp only [allocate, Proc.get_bind_apply]
  cases hfirst : s.pool.firstPageWithFreeSlot with
  | some k =>
    right
    obtain ⟨hk, hon, _⟩ := h.allocated hfirst
    refine ⟨s.pool, k, grown_refl host s.pool, fun hne => absurd rfl hne, h, hfirst, ?_⟩
    exact allocateIn_run orderId price originalQuantity remainingQuantity timestamp orderSide
      orderType sequenceNumber hk hon
  | none =>
    by_cases hpage : PageRefused host s.pool
    · left
      obtain ⟨e, hcreate⟩ := createPage_refused hpage
      exact ⟨e, Proc.bind_throws _ hcreate⟩
    · right
      obtain ⟨pool, hcreate, hok, hgrown, hfirst'⟩ := createPage_grown h hpage
      obtain ⟨hk, hon, _⟩ := PoolOk.allocated (s := { s with pool := pool }) hok hfirst'
      refine ⟨pool, s.pool.pages.size, hgrown, fun _ => full_of_no_first h hfirst, hok, hfirst', ?_⟩
      exact (Proc.bind_returns _ hcreate).trans (allocateIn_run (s := { s with pool := pool })
        orderId price originalQuantity remainingQuantity timestamp orderSide orderType
        sequenceNumber hk hon)

end Allocation

theorem effect_of_run (host : Host) (h : PoolOk s.pool live) (call : PoolCall) :
    ∃ live', Effect host s live call (call.run host s) live' ∧
      PoolOk (call.run host s).2.pool live' := by
  cases call with
  | allocate orderId price originalQuantity remainingQuantity timestamp orderSide orderType
      sequenceNumber =>
    rcases allocate_cases orderId price originalQuantity remainingQuantity timestamp orderSide
      orderType sequenceNumber host h with ⟨e, hrun⟩ | ⟨grown, k, hgrown, hfull, hok, hfirst, hrun⟩
    · rw [PoolCall.run, Proc.bind_throws _ hrun]
      exact ⟨live, .refused e, h⟩
    · rw [PoolCall.run, Proc.bind_returns _ hrun]
      obtain ⟨_, _, _, _, hok'⟩ := PoolOk.allocated (s := { s with pool := grown }) hok hfirst
      exact ⟨_, .allocated hgrown hfull hok hfirst, hok'⟩
  | reserve orderCount =>
    obtain ⟨o, pool, hrun, hok, hgrown⟩ := @createPages_grown host s live h
      (((orderCount + UInt64.ofNat SlotsPerPage - 1) / UInt64.ofNat SlotsPerPage).toNat -
        s.pool.pages.size)
    have hreserve : OrderPools.reserve host orderCount s = (o, { s with pool := pool }) := hrun
    rw [PoolCall.run]
    cases o with
    | returns =>
      rw [Proc.bind_returns _ hreserve]
      exact ⟨live, .reserved hgrown (by simp), hok⟩
    | throws =>
      rw [Proc.bind_throws _ hreserve]
      exact ⟨live, .reserved hgrown (by simp), hok⟩
    | diverges =>
      rw [Proc.bind_diverges _ hreserve]
      exact ⟨live, .reserved hgrown (by simp), hok⟩
  | release order =>
    rw [PoolCall.run]
    by_cases hmem : order ∈ live
    · obtain ⟨k, hk, i, hi, hocc, rfl⟩ := (h.stored _).mp hmem
      obtain ⟨hrun, hok⟩ := release_live h hk hi hocc
      rw [Proc.bind_returns _ hrun]
      exact ⟨_, .released hk hi hocc, hok⟩
    · obtain ⟨what, hrun⟩ := release_rejected h hmem
      rw [Proc.bind_throws _ hrun]
      exact ⟨live, .rejected hmem what, h⟩

theorem PoolReachable.poolOk (h : PoolReachable s) : ∃ live, PoolOk s.pool live := by
  induction h with
  | empty memory => exact ⟨[], poolOk_empty⟩
  | call _ host call ih =>
    obtain ⟨live, hok⟩ := ih
    obtain ⟨live', _, hok'⟩ := effect_of_run host hok call
    exact ⟨live', hok'⟩

end Effects

section Releases

variable {host : Host} {s t : PoolState} {live live' : List OrderPtr} {base : UInt64}

/-- The call took or gave back a slot of the page at `base`. -/
def Touches (base : UInt64) : PoolCall → Outcome StdException (Option OrderPtr) → Prop
  | .allocate .., .returns (some order) => order &&& ~~~(PageSize - 1) = base
  | .release order, .returns _ => order &&& ~~~(PageSize - 1) = base
  | _, _ => False

/-- The states met from `s` on while no slot of the page at `base` changes hands. -/
inductive Elsewhere (base : UInt64) (s : PoolState) : PoolState → Prop
  | refl : Elsewhere base s s
  | call {t : PoolState} (h : Elsewhere base s t) (host : Host) (call : PoolCall)
      (hoff : ¬ Touches base call (call.run host t).1) : Elsewhere base s (call.run host t).2

/-- The first free slot of the first page on the list. -/
theorem firstFree_lt {pool : OrderPool} {k : ℕ} (h : PoolOk pool live)
    (hfirst : pool.firstPageWithFreeSlot = some k) :
    k < pool.pages.size ∧ (pool.page k).storage.toNat % 65536 = 0 ∧
      (pool.page k).firstFree.toNat < SlotsPerPage := by
  obtain ⟨ks, hks, hcounts⟩ := h.freePages
  have hmem := hks.first_lt hfirst
  have hk := hks.lt hmem
  obtain ⟨free, hpage⟩ := h.page k hk
  obtain ⟨rest, rfl⟩ := hpage.freeCount_pos ((hcounts k hk).mp hmem)
  exact ⟨hk, hpage.aligned, ((hpage.mem _).mp (by simp)).1⟩

/-- A call that touches no slot of a page leaves the page as it is, up to its place on the list
of pages with a free slot. -/
theorem Effect.detached_eq {call : PoolCall}
    {result : Outcome StdException (Option OrderPtr) × PoolState}
    (he : Effect host s live call result live') (h : PoolOk s.pool live) {k : ℕ}
    (hk : k < s.pool.pages.size)
    (hoff : ¬ Touches (s.pool.page k).storage call result.1) :
    k < result.2.pool.pages.size ∧ (result.2.pool.page k).detached = (s.pool.page k).detached := by
  cases he with
  | refused e => exact ⟨hk, rfl⟩
  | rejected hnot what => exact ⟨hk, rfl⟩
  | reserved hgrown _ => exact ⟨lt_of_lt_of_le hk hgrown.size_le, hgrown.old k hk⟩
  | @allocated _ _ _ _ _ _ _ _ grown l hgrown hfull hok hfirst =>
    obtain ⟨hl, haligned, hfree⟩ := firstFree_lt hok hfirst
    have hle := hgrown.size_le
    obtain ⟨hsize, hdetached⟩ := samePages_allocated l grown
    have hne : k ≠ l := by
      rintro rfl
      apply hoff
      simp only [Touches]
      rw [alignDown_slot haligned hfree]
      exact (detached_fields (hgrown.old k hk)).1
    refine ⟨by rw [hsize]; omega, ?_⟩
    rw [hdetached, page_updatePage_ne hne, hgrown.old k hk]
  | @released l i hl hi hocc =>
    obtain ⟨free, hpage⟩ := h.page l hl
    obtain ⟨hsize, hdetached⟩ := samePages_released l i s.pool
    have hne : k ≠ l := by
      rintro rfl
      apply hoff
      simp only [Touches]
      rw [alignDown_slot hpage.aligned hi]
    refine ⟨by rw [hsize]; exact hk, ?_⟩
    rw [hdetached, page_updatePage_ne hne]

/-- Until a slot of the page changes hands, the page stays as it is. -/
theorem Elsewhere.detached_eq (ht : Elsewhere base s t) (h : PoolOk s.pool live) {k : ℕ}
    (hk : k < s.pool.pages.size) (hbase : (s.pool.page k).storage = base) :
    (∃ live', PoolOk t.pool live') ∧ k < t.pool.pages.size ∧
      (t.pool.page k).detached = (s.pool.page k).detached := by
  induction ht with
  | refl => exact ⟨⟨live, h⟩, hk, rfl⟩
  | call _ host call hoff ih =>
    obtain ⟨⟨live', hok⟩, hk', hsame⟩ := ih
    obtain ⟨live'', heffect, hok'⟩ := effect_of_run host hok call
    rw [← hbase, ← (detached_fields hsame).1] at hoff
    obtain ⟨hk'', hsame'⟩ := heffect.detached_eq hok hk' hoff
    exact ⟨⟨live'', hok'⟩, hk'', hsame'.trans hsame⟩

/-- The next allocation from a page takes the slot at the head of its chain. -/
theorem Elsewhere.allocate_eq (ht : Elsewhere base s t) (h : PoolOk s.pool live) {k : ℕ}
    (hk : k < s.pool.pages.size) (hbase : (s.pool.page k).storage = base)
    {orderId : OrderId} {price : Price} {originalQuantity remainingQuantity : Quantity}
    {timestamp : Timestamp} {orderSide : OrderSide} {orderType : Orders.OrderType}
    {sequenceNumber : SequenceNumber} {next : OrderPtr} {t' : PoolState}
    (hrun : allocate host orderId price originalQuantity remainingQuantity timestamp orderSide
      orderType sequenceNumber t = (.returns next, t'))
    (hnext : next &&& ~~~(PageSize - 1) = base) :
    next = (s.pool.page k).slot (s.pool.page k).firstFree.toNat := by
  obtain ⟨⟨live', hok⟩, hk', hsame⟩ := ht.detached_eq h hk hbase
  rcases allocate_cases orderId price originalQuantity remainingQuantity timestamp orderSide
    orderType sequenceNumber host hok with
    ⟨e, hthrow⟩ | ⟨grown, l, hgrown, _, hok', hfirst, hreturn⟩
  · rw [hthrow] at hrun
    simp at hrun
  rw [hreturn] at hrun
  obtain rfl : (grown.page l).slot (grown.page l).firstFree.toNat = next := by
    simpa using congrArg Prod.fst hrun
  obtain ⟨hl, haligned, hfree⟩ := firstFree_lt hok' hfirst
  have hle := hgrown.size_le
  obtain ⟨hstorage, _, _, hfirstFree, _⟩ := detached_fields ((hgrown.old k hk').trans hsame)
  rw [alignDown_slot haligned hfree] at hnext
  have hlk : l = k := by
    have hindex := (hok'.index base l).mpr ⟨hl, hnext⟩
    rw [(hok'.index base k).mpr ⟨by omega, hstorage.trans hbase⟩] at hindex
    exact (Option.some.inj hindex).symm
  subst l
  rw [Page.slot, Page.slot, hstorage, hfirstFree]

/-- `release` takes exactly the addresses of the live orders; the slot given back is the only
one that becomes free and the next one taken from its page, and a refusal changes nothing. -/
theorem release_iff_live (h : PoolReachable s) (order : OrderPtr) :
    ((release order s).1 = .returns () ↔ Live s.pool order) ∧
    (Live s.pool order →
      (∀ other, Live (release order s).2.pool other ↔ Live s.pool other ∧ other ≠ order) ∧
      (release order s).2.pool.pages.size = s.pool.pages.size ∧
      (∀ k, ((release order s).2.pool.page k).storage = (s.pool.page k).storage) ∧
      (release order s).2.memory = s.memory ∧
      ∀ t, Elsewhere (order &&& ~~~(PageSize - 1)) (release order s).2 t →
        ∀ host orderId price originalQuantity remainingQuantity timestamp orderSide orderType
          sequenceNumber next t', allocate host orderId price originalQuantity remainingQuantity
            timestamp orderSide orderType sequenceNumber t = (.returns next, t') →
          next &&& ~~~(PageSize - 1) = order &&& ~~~(PageSize - 1) → next = order) ∧
    (¬ Live s.pool order → ∃ what, release order s = (.throws (.invalidArgument what), s)) := by
  obtain ⟨live, hok⟩ := h.poolOk
  rw [← hok.stored]
  refine ⟨⟨?_, ?_⟩, ?_, release_rejected hok⟩
  · intro hreturns
    by_contra hnot
    obtain ⟨what, hthrows⟩ := release_rejected hok hnot
    rw [hthrows] at hreturns
    simp at hreturns
  · intro hmem
    obtain ⟨k, hk, i, hi, hocc, rfl⟩ := (hok.stored _).mp hmem
    rw [(release_live hok hk hi hocc).1]
  · intro hmem
    obtain ⟨k, hk, i, hi, hocc, rfl⟩ := (hok.stored _).mp hmem
    obtain ⟨hrun, hok'⟩ := release_live hok hk hi hocc
    obtain ⟨free, hpage⟩ := hok.page k hk
    obtain ⟨hsize, hdetached⟩ := samePages_released k i s.pool
    have hstorage : ∀ l, ((released k i s.pool).page l).storage = (s.pool.page l).storage := by
      intro l
      rw [(detached_fields (hdetached l)).1]
      exact updatePage_keeps Page.storage rfl l
    have hfirst : ((released k i s.pool).page k).firstFree.toNat = i := by
      have hslots : SlotsPerPage = 819 := rfl
      rw [(detached_fields (hdetached k)).2.2.2.1, page_updatePage_self hk]
      exact UInt16.toNat_ofNat_of_lt' (by rw [UInt16.size]; omega)
    rw [hrun]
    refine ⟨?_, hsize, hstorage, rfl, ?_⟩
    · intro other
      rw [← hok'.stored, ← hok.stored, hok.nodup.mem_erase_iff, and_comm]
    · intro t ht host orderId price originalQuantity remainingQuantity timestamp orderSide
        orderType sequenceNumber next t' hallocate hnext
      have hbase : ((released k i s.pool).page k).storage =
          (s.pool.page k).slot i &&& ~~~(PageSize - 1) := by
        rw [hstorage, alignDown_slot hpage.aligned hi]
      rw [ht.allocate_eq hok' (by rw [hsize]; exact hk) hbase hallocate hnext, hfirst, Page.slot,
        hstorage, Page.slot]

/-- A host that maps one page, at `PageSize`. -/
def onePageHost : Host where
  systemPageSize := 4096
  mmap := fun pages => if pages = 0 then some ⟨PageSize, by decide, by decide⟩ else none
  heap := fun _ => true
  slots := fun _ => true
  buffer := fun _ => true

def blankOrder : Order := {
  orderId := 0, price := 0, originalQuantity := 0, remainingQuantity := 0, timestamp := 0
  orderSide := .buy, orderType := .limit, sequenceNumber := 0 }

/-- A pool with one live order, in the first slot of its first page. -/
def oneOrderPool : PoolState :=
  ((PoolCall.allocate 1 100 5 5 1 .buy .limit 1).run onePageHost
    { pool := {}, memory := fun _ => blankOrder }).2

theorem release_first_order :
    (release 65536 oneOrderPool).1 = .returns () ∧
      ∃ what, release 65616 oneOrderPool = (.throws (.invalidArgument what), oneOrderPool) := by
  have hreach : PoolReachable oneOrderPool := .call (.empty _) onePageHost _
  constructor
  · apply (release_iff_live hreach 65536).1.mpr
    exact ⟨0, by decide +kernel, 0, by decide, by decide +kernel, by decide +kernel⟩
  · apply (release_iff_live hreach 65616).2.2
    intro hlive
    obtain ⟨k, hk, i, hi, hocc, hslot⟩ := hlive
    have hsize : oneOrderPool.pool.pages.size = 1 := by decide +kernel
    obtain rfl : k = 0 := by omega
    have hfree : ∀ i < SlotsPerPage, (oneOrderPool.pool.page 0).occupied i = true → i = 0 := by
      decide +kernel
    obtain rfl := hfree i hi hocc
    revert hslot
    decide +kernel

end Releases

end Leka.PageMoves
