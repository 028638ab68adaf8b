import Leka.PageMoves
import Mathlib.Data.Finset.Card
import Mathlib.Data.Finset.Prod
import Mathlib.Data.Set.BooleanAlgebra
import Mathlib.Order.CompletePartialOrder
import Mathlib.Order.Interval.Set.Basic

/-!
The memory behind the pages. A page trims a mapping of twice its size down to one aligned
page, so the pages are disjoint aligned ranges and the live orders disjoint ranges inside
them. Along every run each slot is accounted for: it is occupied, or it is met once on the
chain of free slots of its page.
-/

namespace Leka.PageMappings

open Procedures Orders LinkedChain OrderPools PoolAsSet PageMoves

section Trimming

def allocationSize : UInt64 := PageSize * 2

def alignedAddress (mapping : Mapping) : UInt64 :=
  (mapping.address + PageSize - 1) &&& ~~~(PageSize - 1)

def prefixSize (mapping : Mapping) : UInt64 := alignedAddress mapping - mapping.address

def suffixSize (mapping : Mapping) : UInt64 := allocationSize - prefixSize mapping - PageSize

/-- The addresses that `mmap` has mapped. -/
def whole (mapping : Mapping) : Set ℕ :=
  Set.Ico mapping.address.toNat (mapping.address.toNat + allocationSize.toNat)

/-- `munmap` takes whole system pages out of the mapped addresses, and fails when it is not
given the start of one. -/
def munmap (systemPageSize address length : ℕ) (mapped : Set ℕ) : Set ℕ :=
  {a ∈ mapped | ¬ (address % systemPageSize = 0 ∧ address ≤ a ∧
    a < address + (length + systemPageSize - 1) / systemPageSize * systemPageSize)}

/-- The mapping of a page and the size of the system pages it is made of. -/
structure Backing where
  systemPageSize : ℕ
  mapping : Mapping

/-- What the two calls of `munmap` in the constructor of the page leave mapped. -/
def Backing.kept (backing : Backing) : Set ℕ :=
  let unprefixed :=
    if prefixSize backing.mapping ≠ 0 then
      munmap backing.systemPageSize backing.mapping.address.toNat
        (prefixSize backing.mapping).toNat (whole backing.mapping)
    else whole backing.mapping
  if suffixSize backing.mapping ≠ 0 then
    munmap backing.systemPageSize (alignedAddress backing.mapping + PageSize).toNat
      (suffixSize backing.mapping).toNat unprefixed
  else unprefixed

theorem alignedAddress_toNat (mapping : Mapping) :
    (alignedAddress mapping).toNat =
      (mapping.address.toNat + 65535) / 65536 * 65536 := by
  have hfits := mapping.fits
  have hsize : PageSize.toNat = 65536 := rfl
  have hup : (mapping.address + PageSize - 1).toNat = mapping.address.toNat + 65535 := by
    have hsum : (mapping.address + PageSize).toNat = mapping.address.toNat + 65536 := by
      rw [UInt64.toNat_add, hsize]
      exact Nat.mod_eq_of_lt (by omega)
    rw [UInt64.toNat_sub_of_le _ _ (by rw [UInt64.le_iff_toNat_le, hsum, UInt64.toNat_one]; omega),
      hsum, UInt64.toNat_one]
    omega
  rw [alignedAddress, alignDown_toNat, hup]
  omega

theorem prefixSize_toNat (mapping : Mapping) :
    (prefixSize mapping).toNat = (alignedAddress mapping).toNat - mapping.address.toNat := by
  have haligned := alignedAddress_toNat mapping
  exact UInt64.toNat_sub_of_le _ _ (by rw [UInt64.le_iff_toNat_le]; omega)

theorem suffixSize_toNat (mapping : Mapping) :
    (suffixSize mapping).toNat =
      mapping.address.toNat + 65536 - (alignedAddress mapping).toNat := by
  have haligned := alignedAddress_toNat mapping
  have hgap := prefixSize_toNat mapping
  have hall : allocationSize.toNat = 131072 := rfl
  have hsize : PageSize.toNat = 65536 := rfl
  have hfirst : (allocationSize - prefixSize mapping).toNat =
      131072 - ((alignedAddress mapping).toNat - mapping.address.toNat) := by
    rw [UInt64.toNat_sub_of_le _ _ (by rw [UInt64.le_iff_toNat_le]; omega), hall, hgap]
  rw [suffixSize, UInt64.toNat_sub_of_le _ _ (by rw [UInt64.le_iff_toNat_le]; omega), hfirst,
    hsize]
  omega

/-- A range of whole system pages is taken out exactly. -/
theorem mem_munmap {p address length a : ℕ} {mapped : Set ℕ} (hp : 0 < p) (haddress : p ∣ address)
    (hlength : p ∣ length) : a ∈ munmap p address length mapped ↔
      a ∈ mapped ∧ ¬ (address ≤ a ∧ a < address + length) := by
  obtain ⟨q, rfl⟩ := hlength
  have hdiv : (p * q + p - 1) / p = q := by
    rw [Nat.add_sub_assoc (by omega), Nat.mul_add_div hp, Nat.div_eq_of_lt (by omega), Nat.add_zero]
  simp only [munmap, Set.mem_ofPred_eq, hdiv, Nat.mod_eq_zero_of_dvd haddress, true_and,
    Nat.mul_comm q p]

/-- Both ends are whole numbers of system pages, so exactly the aligned page stays mapped. -/
theorem kept_eq (backing : Backing) (hpos : 0 < backing.systemPageSize)
    (hdvd : backing.systemPageSize ∣ 65536)
    (haddress : backing.systemPageSize ∣ backing.mapping.address.toNat) :
    backing.kept = Set.Ico (alignedAddress backing.mapping).toNat
      ((alignedAddress backing.mapping).toNat + PageSize.toNat) := by
  have haligned := alignedAddress_toNat backing.mapping
  have hgap := prefixSize_toNat backing.mapping
  have hsuffix := suffixSize_toNat backing.mapping
  have hfits := backing.mapping.fits
  have hall : allocationSize.toNat = 131072 := rfl
  have hsize : PageSize.toNat = 65536 := rfl
  have hadvd : backing.systemPageSize ∣ (alignedAddress backing.mapping).toNat := by
    rw [haligned]
    exact Dvd.dvd.mul_left hdvd _
  have hpdvd : backing.systemPageSize ∣ (prefixSize backing.mapping).toNat := by
    rw [hgap]
    exact Nat.dvd_sub hadvd haddress
  have hsdvd : backing.systemPageSize ∣ (suffixSize backing.mapping).toNat := by
    rw [hsuffix]
    exact Nat.dvd_sub (Nat.dvd_add haddress hdvd) hadvd
  have hzero : ∀ x : UInt64, x ≠ 0 ↔ x.toNat ≠ 0 := by
    intro x
    rw [ne_eq, ne_eq, ← UInt64.toNat_inj, UInt64.toNat_zero]
  ext a
  have hwhole : a ∈ whole backing.mapping ↔ backing.mapping.address.toNat ≤ a ∧
      a < backing.mapping.address.toNat + 131072 := Iff.rfl
  have hfirst : (a ∈ if prefixSize backing.mapping ≠ 0 then
      munmap backing.systemPageSize backing.mapping.address.toNat
        (prefixSize backing.mapping).toNat (whole backing.mapping)
      else whole backing.mapping) ↔ (alignedAddress backing.mapping).toNat ≤ a ∧
        a < backing.mapping.address.toNat + 131072 := by
    split_ifs with hp
    · rw [mem_munmap hpos haddress hpdvd, hwhole, hgap]
      omega
    · rw [hzero, not_not] at hp
      rw [hwhole]
      omega
  simp only [Backing.kept, Set.mem_Ico]
  by_cases hs : suffixSize backing.mapping ≠ 0
  · rw [if_pos hs]
    have hend : (alignedAddress backing.mapping + PageSize).toNat =
        (alignedAddress backing.mapping).toNat + 65536 := by
      rw [hzero] at hs
      rw [UInt64.toNat_add, hsize]
      exact Nat.mod_eq_of_lt (by omega)
    rw [mem_munmap hpos (by rw [hend]; exact Nat.dvd_add hadvd hdvd) hsdvd, hfirst, hend, hsuffix]
    omega
  · rw [if_neg hs, hfirst]
    rw [hzero, not_not] at hs
    omega

-- from here on only `kept_eq` is used
attribute [irreducible] Backing.kept

/-- The aligned page lies inside its mapping. -/
theorem page_subset_whole (mapping : Mapping) :
    Set.Ico (alignedAddress mapping).toNat ((alignedAddress mapping).toNat + PageSize.toNat) ⊆
      whole mapping := by
  intro a ha
  have haligned := alignedAddress_toNat mapping
  have hall : allocationSize.toNat = 131072 := rfl
  have hsize : PageSize.toNat = 65536 := rfl
  rw [Set.mem_Ico] at ha
  rw [whole, Set.mem_Ico]
  omega

theorem mem_page (mapping : Mapping) : (alignedAddress mapping).toNat ∈
    Set.Ico (alignedAddress mapping).toNat ((alignedAddress mapping).toNat + PageSize.toNat) := by
  have hpos : 0 < PageSize.toNat := by decide
  rw [Set.mem_Ico]
  omega

end Trimming

section Runs

variable {s : PoolState} {backings : List Backing} {host : Host} {live live' : List OrderPtr}

/-- The backing of page number `k`, when the host maps it. -/
def grantedAt (host : Host) (k : ℕ) : Option Backing :=
  (host.mmap k).map fun mapping => ⟨host.systemPageSize.toUInt64.toNat, mapping⟩

/-- The backings of the pages that are numbered from `first` on. -/
def granted (host : Host) (first count : ℕ) : List Backing :=
  (List.range' first count).filterMap (grantedAt host)

/-- What the host maps is a range of whole system pages, disjoint from what is still mapped. -/
structure FreshMappings (host : Host) (backings : List Backing) (first : ℕ) : Prop where
  aligned : ∀ k ≥ first, ∀ b, grantedAt host k = some b →
    b.systemPageSize ∣ b.mapping.address.toNat
  disjoint : ∀ k ≥ first, ∀ b, grantedAt host k = some b → ∀ b' ∈ backings,
    Disjoint (whole b.mapping) b'.kept
  pairwise : ∀ j ≥ first, ∀ k > j, ∀ b b', grantedAt host j = some b →
    grantedAt host k = some b' → Disjoint (whole b'.mapping) b.kept

/-- A run of calls from an empty pool, releases only of live orders, with the backings of the
pages in the order of their creation. -/
inductive PoolRun : PoolState → List Backing → Prop
  | empty (memory : Memory) : PoolRun { pool := {}, memory := memory } []
  | call {s : PoolState} {backings : List Backing} (h : PoolRun s backings) (host : Host)
      (call : PoolCall) (hfresh : FreshMappings host backings s.pool.pages.size)
      (hreleased : ∀ order, call = .release order → (call.run host s).1 = .returns none) :
      PoolRun (call.run host s).2 (backings ++ granted host s.pool.pages.size
        ((call.run host s).2.pool.pages.size - s.pool.pages.size))

theorem PoolRun.reachable (h : PoolRun s backings) : PoolReachable s := by
  induction h with
  | empty memory => exact .empty memory
  | call _ host call _ _ ih => exact ih.call host call

/-- Each page is what is left of its mapping. -/
structure Backed (pool : OrderPool) (backings : List Backing) : Prop where
  length : backings.length = pool.pages.size
  storage : ∀ k b, backings[k]? = some b → (pool.page k).storage = alignedAddress b.mapping
  pos : ∀ b ∈ backings, 0 < b.systemPageSize
  dvd : ∀ b ∈ backings, b.systemPageSize ∣ 65536
  aligned : ∀ b ∈ backings, b.systemPageSize ∣ b.mapping.address.toNat

theorem systemPageSize_of_mapped {k : ℕ} {mapping : Mapping} (h : Mapped host k mapping) :
    0 < host.systemPageSize.toUInt64.toNat ∧ host.systemPageSize.toUInt64.toNat ∣ 65536 := by
  constructor
  · apply Nat.pos_of_ne_zero
    intro hzero
    have hword : host.systemPageSize.toUInt64 = 0 := UInt64.toNat_inj.mp hzero
    have hsigned : host.systemPageSize = 0 := by
      rw [← Int64.toInt64_toUInt64 host.systemPageSize, hword]
      rfl
    have hpos := h.pageSize_pos
    rw [hsigned] at hpos
    exact absurd hpos (by decide)
  · have hmod := congrArg UInt64.toNat h.pageSize_dvd
    rw [UInt64.toNat_mod] at hmod
    exact Nat.dvd_of_mod_eq_zero hmod

theorem granted_get {first n : ℕ}
    (h : ∀ k ≥ first, k < first + n → ∃ b, grantedAt host k = some b) :
    (granted host first n).length = n ∧
      ∀ j < n, (granted host first n)[j]? = grantedAt host (first + j) := by
  induction n generalizing first with
  | zero => exact ⟨rfl, fun j hj => absurd hj (by omega)⟩
  | succ n ih =>
    obtain ⟨b, hb⟩ := h first (le_refl _) (by omega)
    have hlater : ∀ k ≥ first + 1, k < first + 1 + n → ∃ b, grantedAt host k = some b :=
      fun k hge hlt => h k (by omega) (by omega)
    obtain ⟨hlength, hget⟩ := ih hlater
    have hcons : granted host first (n + 1) = b :: granted host (first + 1) n := by
      rw [granted, List.range'_succ, List.filterMap_cons, hb]
      rfl
    rw [hcons]
    refine ⟨by rw [List.length_cons, hlength], ?_⟩
    intro j hj
    cases j with
    | zero => simp [hb]
    | succ j =>
      rw [List.getElem?_cons_succ, hget j (by omega), Nat.add_right_comm]
      rfl

theorem Backed.congr {pool pool' : OrderPool} (h : Backed pool backings)
    (hsize : pool'.pages.size = pool.pages.size)
    (hstorage : ∀ k, (pool'.page k).storage = (pool.page k).storage) : Backed pool' backings where
  length := by rw [h.length, hsize]
  storage k b hb := by rw [hstorage, h.storage k b hb]
  pos := h.pos
  dvd := h.dvd
  aligned := h.aligned

theorem Backed.grown {pool pool' : OrderPool} (h : Backed pool backings)
    (hgrown : Grown host pool pool') (hfresh : FreshMappings host backings pool.pages.size) :
    Backed pool' (backings ++ granted host pool.pages.size
      (pool'.pages.size - pool.pages.size)) := by
  have hle := hgrown.size_le
  have hmapped : ∀ k ≥ pool.pages.size, k < pool.pages.size +
      (pool'.pages.size - pool.pages.size) → ∃ b, grantedAt host k = some b := by
    intro k hge hlt
    obtain ⟨mapping, hmapped, _⟩ := hgrown.fresh k hge (by omega)
    exact ⟨_, by rw [grantedAt, hmapped.mmap]; rfl⟩
  obtain ⟨hlength, hget⟩ := granted_get hmapped
  -- an entry of the new part is the backing of a page that the call created
  have hnew : ∀ j b, (granted host pool.pages.size (pool'.pages.size - pool.pages.size))[j]? =
      some b → ∃ mapping, Mapped host (pool.pages.size + j) mapping ∧
        b = ⟨host.systemPageSize.toUInt64.toNat, mapping⟩ ∧
        (pool'.page (pool.pages.size + j)).storage = alignedAddress mapping := by
    intro j b hb
    have hj := (List.getElem?_eq_some_iff.mp hb).1
    rw [hlength] at hj
    obtain ⟨mapping, hm, hpage⟩ := hgrown.fresh (pool.pages.size + j) (by omega) (by omega)
    rw [hget j hj, grantedAt, hm.mmap] at hb
    refine ⟨mapping, hm, (Option.some.inj hb).symm, ?_⟩
    exact congrArg Page.storage hpage
  have hmem : ∀ b ∈ granted host pool.pages.size (pool'.pages.size - pool.pages.size),
      0 < b.systemPageSize ∧ b.systemPageSize ∣ 65536 ∧
        b.systemPageSize ∣ b.mapping.address.toNat := by
    intro b hb
    obtain ⟨j, hj⟩ := List.getElem?_of_mem hb
    obtain ⟨mapping, hm, rfl, _⟩ := hnew j b hj
    obtain ⟨hpos, hdvd⟩ := systemPageSize_of_mapped hm
    exact ⟨hpos, hdvd, hfresh.aligned (pool.pages.size + j) (Nat.le_add_right _ _) _ (by
      rw [grantedAt, hm.mmap]
      rfl)⟩
  refine ⟨by rw [List.length_append, h.length, hlength]; omega, ?_, ?_, ?_, ?_⟩
  · intro k b hb
    by_cases hk : k < pool.pages.size
    · rw [List.getElem?_append_left (by rw [h.length]; exact hk)] at hb
      rw [(detached_fields (hgrown.old k hk)).1]
      exact h.storage k b hb
    · rw [List.getElem?_append_right (by rw [h.length]; omega), h.length] at hb
      obtain ⟨mapping, _, rfl, hstorage⟩ := hnew _ b hb
      rw [Nat.add_sub_cancel' (by omega)] at hstorage
      exact hstorage
  · intro b hb
    rcases List.mem_append.mp hb with hb | hb
    · exact h.pos b hb
    · exact (hmem b hb).1
  · intro b hb
    rcases List.mem_append.mp hb with hb | hb
    · exact h.dvd b hb
    · exact (hmem b hb).2.1
  · intro b hb
    rcases List.mem_append.mp hb with hb | hb
    · exact h.aligned b hb
    · exact (hmem b hb).2.2

/-- Up to the slots that change hands, a call only adds pages. -/
theorem grown_of_effect {call : PoolCall}
    {result : Outcome StdException (Option OrderPtr) × PoolState}
    (he : Effect host s live call result live') :
    ∃ grown, Grown host s.pool grown ∧ result.2.pool.pages.size = grown.pages.size ∧
      ∀ k, (result.2.pool.page k).storage = (grown.page k).storage := by
  cases he with
  | refused e => exact ⟨s.pool, grown_refl host s.pool, rfl, fun _ => rfl⟩
  | rejected hnot what => exact ⟨s.pool, grown_refl host s.pool, rfl, fun _ => rfl⟩
  | reserved hgrown _ => exact ⟨_, hgrown, rfl, fun _ => rfl⟩
  | @allocated _ _ _ _ _ _ _ _ grown l hgrown hfull hok hfirst =>
    obtain ⟨hsize, hdetached⟩ := samePages_allocated l grown
    refine ⟨grown, hgrown, hsize, ?_⟩
    intro k
    rw [(detached_fields (hdetached k)).1]
    exact updatePage_keeps Page.storage rfl k
  | @released l i hl hi hocc =>
    obtain ⟨hsize, hdetached⟩ := samePages_released l i s.pool
    refine ⟨s.pool, grown_refl host s.pool, hsize, ?_⟩
    intro k
    rw [(detached_fields (hdetached k)).1]
    exact updatePage_keeps Page.storage rfl k

theorem PoolRun.backed (h : PoolRun s backings) : Backed s.pool backings := by
  induction h with
  | empty memory =>
    exact ⟨rfl, fun k b hb => by simp at hb, fun b hb => absurd hb (by simp),
      fun b hb => absurd hb (by simp), fun b hb => absurd hb (by simp)⟩
  | @call s backings hrun host call hfresh _ ih =>
    obtain ⟨live, hok⟩ := hrun.reachable.poolOk
    obtain ⟨live', heffect, _⟩ := effect_of_run host hok call
    obtain ⟨grown, hgrown, hsize, hstorage⟩ := grown_of_effect heffect
    rw [hsize]
    exact (ih.grown hgrown hfresh).congr hsize hstorage

/-- A mapping that is disjoint from the pages there are gives a page of its own, so the pool
never meets an address twice. -/
theorem Backed.not_registered {pool : OrderPool} (h : Backed pool backings) (hok : PoolOk pool live)
    (hfresh : FreshMappings host backings pool.pages.size) {b : Backing}
    (hb : grantedAt host pool.pages.size = some b) :
    pool.pageIndex (Page.make b.mapping).storage = none := by
  rw [← Option.not_isSome_iff_eq_none, Option.isSome_iff_exists]
  rintro ⟨k, hk⟩
  obtain ⟨hlt, hstorage⟩ := (hok.index _ k).mp hk
  obtain ⟨b', hb'⟩ : ∃ b', backings[k]? = some b' := by
    rw [List.getElem?_eq_getElem (by rw [h.length]; exact hlt)]
    exact ⟨_, rfl⟩
  have hmem := List.mem_of_getElem? hb'
  have hkept := kept_eq b' (h.pos b' hmem) (h.dvd b' hmem) (h.aligned b' hmem)
  have haddress : alignedAddress b.mapping = alignedAddress b'.mapping := by
    rw [← h.storage k b' hb', hstorage]
    rfl
  have hin : (alignedAddress b.mapping).toNat ∈ whole b.mapping :=
    page_subset_whole b.mapping (mem_page b.mapping)
  have hin' : (alignedAddress b.mapping).toNat ∈ b'.kept := by
    rw [hkept, haddress]
    exact mem_page b'.mapping
  have hdisjoint := hfresh.disjoint pool.pages.size (le_refl _) b hb b' hmem
  exact Set.disjoint_left.mp hdisjoint hin hin'

end Runs

section Accounts

variable {s : PoolState} {backings : List Backing} {pool : OrderPool} {live : List OrderPtr}

/-- The occupied slots, by page and position. -/
def occupiedSlots (pool : OrderPool) : Finset (ℕ × ℕ) :=
  (Finset.range pool.pages.size ×ˢ Finset.range SlotsPerPage).filter
    fun x => (pool.page x.1).occupied x.2 = true

/-- The bytes of page number `k`. -/
def pageRange (pool : OrderPool) (k : ℕ) : Set ℕ :=
  Set.Ico (pool.page k).storage.toNat ((pool.page k).storage.toNat + PageSize.toNat)

/-- The bytes of the order at an address. -/
def orderRange (order : OrderPtr) : Set ℕ :=
  Set.Ico order.toNat (order.toNat + orderSize.toNat)

/-- Every page is one trimmed mapping, and every slot is occupied or free, once. -/
structure Accounted (pool : OrderPool) (backings : List Backing) : Prop where
  length : backings.length = pool.pages.size
  aligned : ∀ k < pool.pages.size, (pool.page k).storage.toNat % PageSize.toNat = 0
  kept : ∀ k b, backings[k]? = some b → b.kept = pageRange pool k
  inside : ∀ k b, backings[k]? = some b → pageRange pool k ⊆ whole b.mapping
  pages : ∀ k < pool.pages.size, ∀ l < pool.pages.size, k ≠ l →
    Disjoint (pageRange pool k) (pageRange pool l)
  slots : ∀ order, Live pool order → ∃ k < pool.pages.size, orderRange order ⊆ pageRange pool k
  orders : ∀ order other, Live pool order → Live pool other → order ≠ other →
    Disjoint (orderRange order) (orderRange other)
  chain : ∀ k < pool.pages.size, ∃ free,
    Walks (fun i => ((pool.page k).nextFree i).toNat) SlotsPerPage (pool.page k).firstFree.toNat
      free ∧ free.Nodup ∧
    (∀ i, i ∈ free ↔ i < SlotsPerPage ∧ (pool.page k).occupied i = false) ∧
    (pool.page k).freeCount.toNat = free.length
  freePages : ∃ ks, FreePages pool ks ∧
    ∀ k < pool.pages.size, some k ∈ ks ↔ (pool.page k).freeCount ≠ 0
  liveOrderCount : pool.liveOrderCount.toNat = (occupiedSlots pool).card

/-- The live orders are as many as the occupied slots. -/
theorem card_occupiedSlots (h : SlotsOk pool live) : (occupiedSlots pool).card = live.length := by
  rw [← List.toFinset_card_of_nodup h.nodup]
  refine Finset.card_bij (fun x _ => (pool.page x.1).slot x.2) ?_ ?_ ?_
  · intro x hx
    simp only [occupiedSlots, Finset.mem_filter, Finset.mem_product, Finset.mem_range] at hx
    rw [List.mem_toFinset, h.stored]
    exact ⟨x.1, hx.1.1, x.2, hx.1.2, hx.2, rfl⟩
  · intro x hx y hy heq
    simp only [occupiedSlots, Finset.mem_filter, Finset.mem_product, Finset.mem_range] at hx hy
    obtain ⟨hpage, hslot⟩ := h.slot_unique hx.1.1 hy.1.1 hx.1.2 hy.1.2 heq
    exact Prod.ext hpage hslot
  · intro order horder
    rw [List.mem_toFinset, h.stored] at horder
    obtain ⟨k, hk, i, hi, hocc, hslot⟩ := horder
    refine ⟨(k, i), ?_, hslot⟩
    simp only [occupiedSlots, Finset.mem_filter, Finset.mem_product, Finset.mem_range]
    exact ⟨⟨hk, hi⟩, hocc⟩

/-- Aligned ranges of one length are disjoint or equal. -/
theorem disjoint_of_ne {a b n : ℕ} (ha : a % n = 0) (hb : b % n = 0) (hne : a ≠ b) :
    Disjoint (Set.Ico a (a + n)) (Set.Ico b (b + n)) := by
  obtain ⟨i, rfl⟩ := Nat.dvd_of_mod_eq_zero ha
  obtain ⟨j, rfl⟩ := Nat.dvd_of_mod_eq_zero hb
  have hij : i < j ∨ j < i := lt_or_gt_of_ne fun heq => hne (by rw [heq])
  rw [Set.disjoint_left]
  intro x hx hx'
  rw [Set.mem_Ico] at hx hx'
  rcases hij with hlt | hlt
  · have hle := Nat.mul_le_mul_left n (Nat.succ_le_of_lt hlt)
    rw [Nat.mul_succ] at hle
    omega
  · have hle := Nat.mul_le_mul_left n (Nat.succ_le_of_lt hlt)
    rw [Nat.mul_succ] at hle
    omega

theorem pages_disjoint (h : SlotsOk pool live) {k l : ℕ} (hk : k < pool.pages.size)
    (hl : l < pool.pages.size) (hne : k ≠ l) :
    Disjoint (pageRange pool k) (pageRange pool l) := by
  obtain ⟨_, hpk⟩ := h.page k hk
  obtain ⟨_, hpl⟩ := h.page l hl
  refine disjoint_of_ne hpk.aligned hpl.aligned ?_
  intro heq
  have hindex := (h.index _ k).mpr ⟨hk, rfl⟩
  rw [(h.index _ l).mpr ⟨hl, (UInt64.toNat_inj.mp heq).symm⟩] at hindex
  exact hne (Option.some.inj hindex).symm

/-- The slot range of a slot lies in the range of its page. -/
theorem slot_subset {page : Page} {i : ℕ} (haligned : page.storage.toNat % 65536 = 0)
    (hi : i < SlotsPerPage) : orderRange (page.slot i) =
      Set.Ico (page.storage.toNat + i * 80) (page.storage.toNat + i * 80 + 80) ∧
    orderRange (page.slot i) ⊆
      Set.Ico page.storage.toNat (page.storage.toNat + PageSize.toNat) := by
  have hslot := slot_toNat haligned hi
  have hslots : SlotsPerPage = 819 := rfl
  have hsize : orderSize.toNat = 80 := rfl
  have hpage : PageSize.toNat = 65536 := rfl
  have hrange : orderRange (page.slot i) =
      Set.Ico (page.storage.toNat + i * 80) (page.storage.toNat + i * 80 + 80) := by
    rw [orderRange, hslot, hsize]
  refine ⟨hrange, ?_⟩
  rw [hrange]
  intro x hx
  rw [Set.mem_Ico] at hx ⊢
  omega

theorem orders_disjoint (h : SlotsOk pool live) {order other : OrderPtr} (hlive : Live pool order)
    (hlive' : Live pool other) (hne : order ≠ other) :
    Disjoint (orderRange order) (orderRange other) := by
  obtain ⟨k, hk, i, hi, _, rfl⟩ := hlive
  obtain ⟨l, hl, j, hj, _, rfl⟩ := hlive'
  obtain ⟨_, hpk⟩ := h.page k hk
  obtain ⟨_, hpl⟩ := h.page l hl
  obtain ⟨hrange, hsub⟩ := slot_subset hpk.aligned hi
  obtain ⟨hrange', hsub'⟩ := slot_subset hpl.aligned hj
  by_cases hkl : k = l
  · subst l
    have hij : i ≠ j := fun heq => hne (by rw [heq])
    rw [hrange, hrange', Set.disjoint_left]
    intro x hx hx'
    rw [Set.mem_Ico] at hx hx'
    omega
  · exact (pages_disjoint h hk hl hkl).mono hsub hsub'

theorem accounted (hok : PoolOk pool live) (hback : Backed pool backings) :
    Accounted pool backings where
  length := hback.length
  aligned k hk := by
    obtain ⟨_, hpage⟩ := hok.page k hk
    exact hpage.aligned
  kept k b hb := by
    have hmem := List.mem_of_getElem? hb
    rw [kept_eq b (hback.pos b hmem) (hback.dvd b hmem) (hback.aligned b hmem), pageRange,
      hback.storage k b hb]
  inside k b hb := by
    rw [pageRange, hback.storage k b hb]
    exact page_subset_whole b.mapping
  pages k hk l hl hne := pages_disjoint hok.toSlotsOk hk hl hne
  slots order hlive := by
    obtain ⟨k, hk, i, hi, _, rfl⟩ := hlive
    obtain ⟨_, hpage⟩ := hok.page k hk
    exact ⟨k, hk, (slot_subset hpage.aligned hi).2⟩
  orders order other := orders_disjoint hok.toSlotsOk
  chain k hk := by
    obtain ⟨free, hpage⟩ := hok.page k hk
    exact ⟨free, hpage.chain, hpage.nodup, hpage.mem, hpage.count⟩
  freePages := hok.freePages
  liveOrderCount := by rw [hok.count, card_occupiedSlots hok.toSlotsOk]

/-- The live orders after a call, given those before it. -/
def liveAfter : PoolCall → Outcome StdException (Option OrderPtr) → (OrderPtr → Prop) →
    OrderPtr → Prop
  | .allocate .., .returns (some order), live => fun other => other = order ∨ live other
  | .release order, .returns _, live => fun other => live other ∧ other ≠ order
  | _, _, live => live

def isAllocation : PoolCall → Bool
  | .allocate .. => true
  | _ => false

/-- What a call leaves as it was, and which slot it hands out or takes back. -/
structure StepAccounted (s : PoolState) (call : PoolCall)
    (result : Outcome StdException (Option OrderPtr) × PoolState) : Prop where
  storage : ∀ k < s.pool.pages.size, k < result.2.pool.pages.size ∧
    (result.2.pool.page k).storage = (s.pool.page k).storage
  live : ∀ order, Live result.2.pool order ↔ liveAfter call result.1 (Live s.pool) order
  notLive : ∀ order, result.1 = .returns (some order) → ¬ Live s.pool order
  memory : ∀ order, Live s.pool order → result.2.memory order = s.memory order
  created : isAllocation call = true → result.2.pool.pages.size ≠ s.pool.pages.size →
    ∀ k < s.pool.pages.size, (s.pool.page k).freeCount = 0

theorem storage_of_effect {host : Host} {live' : List OrderPtr} {call : PoolCall}
    {result : Outcome StdException (Option OrderPtr) × PoolState}
    (he : Effect host s live call result live') {k : ℕ} (hk : k < s.pool.pages.size) :
    k < result.2.pool.pages.size ∧
      (result.2.pool.page k).storage = (s.pool.page k).storage := by
  obtain ⟨grown, hgrown, hsize, hstorage⟩ := grown_of_effect he
  have hle := hgrown.size_le
  refine ⟨by omega, ?_⟩
  rw [hstorage, (detached_fields (hgrown.old k hk)).1]

/-- Each part of the account, by what the call came to. -/
theorem stepAccounted {host : Host} {live' : List OrderPtr} {call : PoolCall}
    {result : Outcome StdException (Option OrderPtr) × PoolState}
    (he : Effect host s live call result live') (hok : PoolOk s.pool live)
    (hok' : PoolOk result.2.pool live') : StepAccounted s call result := by
  refine ⟨fun k hk => storage_of_effect he hk, ?_, ?_, ?_, ?_⟩
  · intro order
    rw [← hok'.stored]
    cases he with
    | refused e => exact hok.stored order
    | rejected hnot what => exact hok.stored order
    | reserved hgrown _ => exact hok.stored order
    | allocated hgrown hfull hgrownOk hfirst =>
      rw [List.mem_cons, hok.stored]
      rfl
    | released hk hi hocc =>
      rw [hok.nodup.mem_erase_iff, hok.stored, and_comm]
      rfl
  · intro order hreturns
    cases he with
    | refused e => simp at hreturns
    | rejected hnot what => simp at hreturns
    | reserved hgrown hnone => exact absurd hreturns (hnone order)
    | released hk hi hocc => simp at hreturns
    | @allocated _ _ _ _ _ _ _ _ grown l hgrown hfull hgrownOk hfirst =>
      obtain ⟨_, _, hnot, _⟩ := PoolOk.allocated (s := { s with pool := grown }) hgrownOk hfirst
      obtain rfl : (grown.page l).slot (grown.page l).firstFree.toNat = order := by
        simpa using hreturns
      rw [← hok.stored]
      exact hnot
  · intro order hlive
    cases he with
    | refused e => rfl
    | rejected hnot what => rfl
    | reserved hgrown _ => rfl
    | released hk hi hocc => rfl
    | @allocated _ _ _ _ _ _ _ _ grown l hgrown hfull hgrownOk hfirst =>
      obtain ⟨_, _, hnot, _⟩ := PoolOk.allocated (s := { s with pool := grown }) hgrownOk hfirst
      refine Function.update_of_ne ?_ _ _
      rintro rfl
      exact hnot ((hok.stored _).mpr hlive)
  · intro halloc hcreated
    cases he with
    | refused e => exact absurd rfl hcreated
    | rejected hnot what => simp [isAllocation] at halloc
    | reserved hgrown _ => simp [isAllocation] at halloc
    | released hk hi hocc => simp [isAllocation] at halloc
    | @allocated _ _ _ _ _ _ _ _ grown l hgrown hfull hgrownOk hfirst =>
      apply hfull
      intro hsame
      exact hcreated ((samePages_allocated l grown).1.trans hsame)

/-- Over every run of the pool no slot is lost and none is handed out twice. -/
theorem poolRun_accounted (h : PoolRun s backings) :
    Accounted s.pool backings ∧
      ∀ host call, StepAccounted s call (PoolCall.run host call s) := by
  obtain ⟨live, hok⟩ := h.reachable.poolOk
  refine ⟨accounted hok h.backed, ?_⟩
  intro host call
  obtain ⟨live', heffect, hok'⟩ := effect_of_run host hok call
  exact stepAccounted heffect hok hok'

/-- A second order is allocated on the page. -/
def twoOrderPool : PoolState :=
  ((PoolCall.allocate 2 101 7 7 2 .sell .limit 2).run onePageHost oneOrderPool).2

theorem poolRun_accounted_two : (occupiedSlots twoOrderPool.pool).card = 2 ∧
    pageRange twoOrderPool.pool 0 = Set.Ico 65536 131072 ∧
    ∀ host call, StepAccounted twoOrderPool call (PoolCall.run host call twoOrderPool) := by
  have hsize : oneOrderPool.pool.pages.size = 1 := by decide +kernel
  have hgranted : ∀ k b, grantedAt onePageHost k = some b →
      k = 0 ∧ b = ⟨4096, ⟨65536, by decide, by decide⟩⟩ := by
    intro k b hb
    by_cases hk : k = 0
    · subst k
      exact ⟨rfl, (Option.some.inj hb).symm⟩
    · simp [grantedAt, onePageHost, hk] at hb
  have hfresh : FreshMappings onePageHost [] 0 := by
    refine ⟨?_, fun k _ b _ b' hb' => absurd hb' (by simp), ?_⟩
    · intro k _ b hb
      rw [(hgranted k b hb).2]
      exact ⟨16, rfl⟩
    · intro j _ k hk b b' _ hb'
      have hzero := (hgranted k b' hb').1
      omega
  have hrun : PoolRun oneOrderPool (granted onePageHost 0 (oneOrderPool.pool.pages.size - 0)) :=
    .call (.empty _) onePageHost (.allocate 1 100 5 5 1 .buy .limit 1) hfresh (by simp)
  have hnone : ∀ k ≥ 1, ∀ b, grantedAt onePageHost k ≠ some b := by
    intro k hk b hb
    have hzero := (hgranted k b hb).1
    omega
  have hkept : FreshMappings onePageHost
      (granted onePageHost 0 (oneOrderPool.pool.pages.size - 0)) oneOrderPool.pool.pages.size := by
    rw [hsize]
    exact ⟨fun k hk b hb => absurd hb (hnone k hk b), fun k hk b hb => absurd hb (hnone k hk b),
      fun j hj _ _ b _ hb => absurd hb (hnone j hj b)⟩
  have hrun' : PoolRun twoOrderPool _ :=
    .call hrun onePageHost (.allocate 2 101 7 7 2 .sell .limit 2) hkept (by simp)
  obtain ⟨haccounted, hstep⟩ := poolRun_accounted hrun'
  refine ⟨?_, ?_, hstep⟩
  · rw [← haccounted.liveOrderCount]
    decide +kernel
  · have hstorage : (twoOrderPool.pool.page 0).storage = 65536 := by decide +kernel
    rw [pageRange, hstorage]
    rfl

end Accounts

end Leka.PageMappings
