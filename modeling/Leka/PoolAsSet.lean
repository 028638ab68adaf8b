import Leka.OrderPools
import Mathlib.Tactic.SplitIfs

/-!
The pool as a finite set of addresses. Allocation returns an address that was not live
and makes it live, release takes a live address out, and a refused page leaves the pool
as it was. The invariant names the chain of free slots in each page and the list of the
pages that have one.
-/

namespace Leka.PoolAsSet

open Procedures Orders LinkedChain OrderPools

section Addresses

/-- Clearing the low sixteen bits. -/
theorem alignDown_toNat (a : UInt64) :
    (a &&& ~~~(PageSize - 1)).toNat = a.toNat - a.toNat % 65536 := by
  have hmask : (~~~(PageSize - 1)).toNat = (2 ^ 48 - 1) * 2 ^ 16 := by decide
  have hlt := a.toNat_lt
  have hand : a.toNat &&& ((2 ^ 48 - 1) * 2 ^ 16) = 2 ^ 16 * (a.toNat / 2 ^ 16) := by
    apply Nat.eq_of_testBit_eq
    intro i
    rw [Nat.testBit_and, Nat.testBit_mul_two_pow, Nat.testBit_two_pow_mul,
      Nat.testBit_two_pow_sub_one, Nat.testBit_div_two_pow]
    by_cases hi : 16 ≤ i
    · by_cases hhigh : i - 16 < 48
      · simp [hi, hhigh]
      · have hbit : a.toNat.testBit i = false :=
          Nat.testBit_lt_two_pow (Nat.lt_of_lt_of_le hlt
            (Nat.pow_le_pow_right (by omega) (by omega)))
        simp [hi, hbit]
    · simp [hi]
  rw [UInt64.toNat_and, hmask, hand]
  omega

/-- The mapping is rounded up to a page inside it. -/
theorem make_storage (mapping : Mapping) :
    (Page.make mapping).storage.toNat % 65536 = 0 ∧ (Page.make mapping).storage ≠ 0 := by
  have hpos : 0 < mapping.address.toNat := by
    apply Nat.pos_of_ne_zero
    intro hzero
    exact mapping.ne_zero (UInt64.toNat_inj.mp hzero)
  have hfits := mapping.fits
  have hsize : PageSize.toNat = 65536 := rfl
  have hup : (mapping.address + PageSize - 1).toNat = mapping.address.toNat + 65535 := by
    have hsum : (mapping.address + PageSize).toNat = mapping.address.toNat + 65536 := by
      rw [UInt64.toNat_add, hsize]
      exact Nat.mod_eq_of_lt (by omega)
    rw [UInt64.toNat_sub_of_le _ _ (by rw [UInt64.le_iff_toNat_le, hsum, UInt64.toNat_one]; omega),
      hsum, UInt64.toNat_one]
    omega
  have hstorage : (Page.make mapping).storage.toNat = _ := alignDown_toNat _
  rw [hup] at hstorage
  constructor
  · omega
  · intro hzero
    rw [hzero, UInt64.toNat_zero] at hstorage
    omega

end Addresses

section Slots

variable {page page' : Page} {i j : ℕ}

theorem slot_toNat (h : page.storage.toNat % 65536 = 0) (hi : i < SlotsPerPage) :
    (page.slot i).toNat = page.storage.toNat + i * 80 := by
  have hlt := page.storage.toNat_lt
  have hsize : orderSize.toNat = 80 := rfl
  have hslots : SlotsPerPage = 819 := rfl
  have hmul : (UInt64.ofNat i * orderSize).toNat = i * 80 := by
    rw [UInt64.toNat_mul, UInt64.toNat_ofNat_of_lt' (by rw [UInt64.size]; omega), hsize]
    exact Nat.mod_eq_of_lt (by omega)
  rw [Page.slot, UInt64.toNat_add, hmul]
  exact Nat.mod_eq_of_lt (by omega)

theorem alignDown_slot (h : page.storage.toNat % 65536 = 0) (hi : i < SlotsPerPage) :
    page.slot i &&& ~~~(PageSize - 1) = page.storage := by
  have hslots : SlotsPerPage = 819 := rfl
  apply UInt64.toNat_inj.mp
  rw [alignDown_toNat, slot_toNat h hi]
  omega

theorem slot_offset (h : page.storage.toNat % 65536 = 0) (hi : i < SlotsPerPage) :
    (page.slot i - page.storage).toNat = i * 80 := by
  have hslot := slot_toNat h hi
  rw [UInt64.toNat_sub_of_le _ _ (by rw [UInt64.le_iff_toNat_le]; omega), hslot]
  omega

/-- A slot address determines its page and its position in the page. -/
theorem slot_inj (h : page.storage.toNat % 65536 = 0) (h' : page'.storage.toNat % 65536 = 0)
    (hi : i < SlotsPerPage) (hj : j < SlotsPerPage) (heq : page.slot i = page'.slot j) :
    page.storage = page'.storage ∧ i = j := by
  have hstorage : page.storage = page'.storage := by
    rw [← alignDown_slot h hi, heq, alignDown_slot h' hj]
  have hslot := slot_toNat h hi
  rw [heq, slot_toNat h' hj, hstorage] at hslot
  exact ⟨hstorage, by omega⟩

end Slots

/-- The free slots of a page are the listed ones, in the order of the chain. -/
structure PageOk (page : Page) (free : List ℕ) : Prop where
  aligned : page.storage.toNat % 65536 = 0
  ne_zero : page.storage ≠ 0
  chain : Walks (fun i => (page.nextFree i).toNat) SlotsPerPage page.firstFree.toNat free
  nodup : free.Nodup
  mem : ∀ i, i ∈ free ↔ i < SlotsPerPage ∧ page.occupied i = false
  count : page.freeCount.toNat = free.length

theorem walks_range' (step : ℕ → ℕ) (k n : ℕ) (hstep : ∀ i, k ≤ i → i < k + n → step i = i + 1) :
    Walks step (k + n) k (List.range' k n) := by
  induction n generalizing k with
  | zero => exact Walks.stop
  | succ n ih =>
    refine Walks.visit (by omega) ?_
    rw [hstep k (by omega) (by omega)]
    have hrest := ih (k + 1) (fun i hlo hhi => hstep i (by omega) (by omega))
    rwa [Nat.add_right_comm] at hrest

theorem pageOk_make (mapping : Mapping) :
    PageOk (Page.make mapping) (List.range' 0 SlotsPerPage) := by
  have hslots : SlotsPerPage = 819 := rfl
  refine ⟨(make_storage mapping).1, (make_storage mapping).2, ?_, List.nodup_range', ?_, ?_⟩
  · have hchain := walks_range' (fun i => ((Page.make mapping).nextFree i).toNat) 0 SlotsPerPage ?_
    · rwa [Nat.zero_add] at hchain
    · intro i _ hi
      simp only [Page.make]
      split_ifs
      · exact UInt16.toNat_ofNat_of_lt' (by rw [UInt16.size]; omega)
      · rw [UInt16.toNat_ofNat_of_lt' (by rw [UInt16.size]; omega)]
        omega
  · intro i
    simp [List.mem_range', Page.make]
  · rw [List.length_range']
    rfl

namespace PageOk

variable {page : Page} {free : List ℕ} {i : ℕ}

theorem free_length (h : PageOk page free) : free.length ≤ SlotsPerPage := by
  have hsub : free ⊆ List.range SlotsPerPage := by
    intro i hi
    exact List.mem_range.mpr ((h.mem i).mp hi).1
  simpa using (h.nodup.subperm hsub).length_le

theorem freeCount_pos (h : PageOk page free) (hpos : page.freeCount ≠ 0) :
    ∃ rest, free = page.firstFree.toNat :: rest := by
  cases hfree : free with
  | nil =>
    exfalso
    apply hpos
    apply UInt64.toNat_inj.mp
    rw [h.count, hfree]
    rfl
  | cons i rest =>
    have hchain := h.chain
    rw [hfree] at hchain
    generalize page.firstFree.toNat = first at hchain ⊢
    cases hchain with
    | visit => exact ⟨rest, rfl⟩

/-- Taking the first free slot of a page. -/
theorem take {rest : List ℕ} (h : PageOk page (i :: rest)) :
    PageOk { page with
      firstFree := page.nextFree i
      freeCount := page.freeCount - 1
      occupied := Function.update page.occupied i true } rest := by
  obtain ⟨hnot, hnd⟩ := List.nodup_cons.mp h.nodup
  refine ⟨h.aligned, h.ne_zero, ?_, hnd, ?_, ?_⟩
  · have hchain := h.chain
    generalize page.firstFree.toNat = first at hchain
    cases hchain with
    | visit _ hrest => exact hrest
  · intro j
    by_cases hj : j = i
    · subst j
      simp [hnot]
    · have hmem := h.mem j
      simp only [List.mem_cons, hj, false_or] at hmem
      simp only [Function.update_of_ne hj]
      exact hmem
  · have hcount := h.count
    rw [List.length_cons] at hcount
    have hle : (1 : UInt64) ≤ page.freeCount := by
      rw [UInt64.le_iff_toNat_le, UInt64.toNat_one]
      omega
    simp only
    rw [UInt64.toNat_sub_of_le _ _ hle, UInt64.toNat_one]
    omega

/-- Giving an occupied slot back: it becomes the first free slot. -/
theorem give (h : PageOk page free) (hi : i < SlotsPerPage) (hocc : page.occupied i = true) :
    PageOk { page with
      occupied := Function.update page.occupied i false
      nextFree := Function.update page.nextFree i page.firstFree
      firstFree := UInt16.ofNat i
      freeCount := page.freeCount + 1 } (i :: free) := by
  have hnot : i ∉ free := by
    intro hmem
    have hfree := ((h.mem i).mp hmem).2
    rw [hocc] at hfree
    simp at hfree
  have hslots : SlotsPerPage = 819 := rfl
  have hfirst : (UInt16.ofNat i).toNat = i :=
    UInt16.toNat_ofNat_of_lt' (by rw [UInt16.size]; omega)
  refine ⟨h.aligned, h.ne_zero, ?_, List.nodup_cons.mpr ⟨hnot, h.nodup⟩, ?_, ?_⟩
  · simp only [hfirst]
    refine Walks.visit (by omega) ?_
    simp only [Function.update_self]
    refine h.chain.congr ?_
    intro x hx
    have hne : x ≠ i := fun heq => hnot (heq ▸ hx)
    simp only [Function.update_of_ne hne]
  · intro j
    by_cases hj : j = i
    · subst j
      simp [hi]
    · simp only [List.mem_cons, hj, false_or, Function.update_of_ne hj]
      exact h.mem j
  · have hnd : (i :: free).Nodup := List.nodup_cons.mpr ⟨hnot, h.nodup⟩
    have hle := h.free_length
    simp only [List.length_cons]
    rw [UInt64.toNat_add, UInt64.toNat_one, h.count]
    exact Nat.mod_eq_of_lt (by omega)

end PageOk

section Pages

variable {pool : OrderPool} {j k : ℕ} {f : Page → Page}

@[simp] theorem size_updatePage (k : ℕ) (f : Page → Page) (pool : OrderPool) :
    (OrderPool.updatePage k f pool).pages.size = pool.pages.size := by
  simp [OrderPool.updatePage]

theorem page_updatePage_self (hk : k < pool.pages.size) :
    (OrderPool.updatePage k f pool).page k = f (pool.page k) := by
  simp [OrderPool.page, OrderPool.updatePage, hk, Array.getElem_modify]

theorem page_updatePage_ne (hne : j ≠ k) :
    (OrderPool.updatePage k f pool).page j = pool.page j := by
  simp [OrderPool.page, OrderPool.updatePage, Array.getElem?_modify, Ne.symm hne]

theorem page_updatePage_of_size_le (hk : pool.pages.size ≤ k) :
    (OrderPool.updatePage k f pool).page j = pool.page j := by
  by_cases hj : j = k
  · subst j
    simp [OrderPool.page, OrderPool.updatePage, hk]
  · exact page_updatePage_ne hj

/-- A member that the update leaves alone in the updated page is left alone in every page. -/
theorem updatePage_keeps {α : Type} (g : Page → α) (hg : g (f (pool.page k)) = g (pool.page k))
    (j : ℕ) : g ((OrderPool.updatePage k f pool).page j) = g (pool.page j) := by
  by_cases hk : k < pool.pages.size
  · by_cases hj : j = k
    · subst j
      rw [page_updatePage_self hk, hg]
    · rw [page_updatePage_ne hj]
  · rw [page_updatePage_of_size_le (by omega)]

theorem page_of_size_le (hk : pool.pages.size ≤ k) : (pool.page k).onFreePageList = false := by
  simp [OrderPool.page, hk]

end Pages

def nextPage (pool : OrderPool) : Option ℕ → Option ℕ
  | some k => (pool.page k).nextFreePage
  | none => none

def previousPage (pool : OrderPool) : Option ℕ → Option ℕ
  | some k => (pool.page k).previousFreePage
  | none => none

/-- The list of pages with a free slot is `ks`. -/
structure FreePages (pool : OrderPool) (ks : List (Option ℕ)) : Prop where
  linked : Linked (nextPage pool) (previousPage pool) none ks none
  nodup : ks.Nodup
  not_null : none ∉ ks
  first : pool.firstPageWithFreeSlot = ks.headD none
  listed : ∀ k, (pool.page k).onFreePageList = true ↔ some k ∈ ks

theorem FreePages.lt {pool : OrderPool} {ks : List (Option ℕ)} (h : FreePages pool ks) {k : ℕ}
    (hk : some k ∈ ks) : k < pool.pages.size := by
  by_contra hge
  have hon := (h.listed k).mpr hk
  rw [page_of_size_le (by omega)] at hon
  simp at hon

/-- What the procedures of the free page list leave alone. -/
structure SamePages (pool pool' : OrderPool) : Prop where
  size : pool'.pages.size = pool.pages.size
  detached : ∀ k, (pool'.page k).detached = (pool.page k).detached
  pageIndex : pool'.pageIndex = pool.pageIndex
  liveOrderCount : pool'.liveOrderCount = pool.liveOrderCount

/-- The write `page->previousFreePage = previous`, skipped for a null page. -/
def linkPreviousPage (page previous : Option ℕ) (pool : OrderPool) : OrderPool :=
  match page with
  | some k => OrderPool.updatePage k (fun p => { p with previousFreePage := previous }) pool
  | none => pool

/-- The write `page->nextFreePage = next`, or of the head of the list for a null page. -/
def linkNextPage (page next : Option ℕ) (pool : OrderPool) : OrderPool :=
  match page with
  | some k => OrderPool.updatePage k (fun p => { p with nextFreePage := next }) pool
  | none => { pool with firstPageWithFreeSlot := next }

/-- The pool with page `k` in front of the list. -/
def pushed (k : ℕ) (pool : OrderPool) : OrderPool :=
  OrderPool.updatePage k (fun p => { p with onFreePageList := true })
    (linkNextPage none (some k) (linkPreviousPage pool.firstPageWithFreeSlot (some k)
      (OrderPool.updatePage k (fun p =>
        { p with previousFreePage := none, nextFreePage := pool.firstPageWithFreeSlot }) pool)))

/-- The pool with page `k` taken off the list. -/
def dropped (k : ℕ) (pool : OrderPool) : OrderPool :=
  OrderPool.updatePage k Page.detached
    (linkPreviousPage (pool.page k).nextFreePage (pool.page k).previousFreePage
      (linkNextPage (pool.page k).previousFreePage (pool.page k).nextFreePage pool))

section Links

variable {pool : OrderPool} {page y : Option ℕ} (previous next : Option ℕ)

theorem linkPreviousPage_keeps {α : Type} (g : Page → α)
    (hg : ∀ p, g { p with previousFreePage := previous } = g p) (j : ℕ) :
    g ((linkPreviousPage page previous pool).page j) = g (pool.page j) := by
  cases page with
  | none => rfl
  | some k => exact updatePage_keeps g (hg _) j

theorem linkNextPage_keeps {α : Type} (g : Page → α)
    (hg : ∀ p, g { p with nextFreePage := next } = g p) (j : ℕ) :
    g ((linkNextPage page next pool).page j) = g (pool.page j) := by
  cases page with
  | none => rfl
  | some k => exact updatePage_keeps g (hg _) j

theorem previousPage_linkPreviousPage (hpage : ∀ k, page = some k → k < pool.pages.size)
    (hy : y ≠ none) : previousPage (linkPreviousPage page previous pool) y =
      if y = page then previous else previousPage pool y := by
  cases page with
  | none => simp [linkPreviousPage, hy]
  | some k =>
    cases y with
    | none => exact absurd rfl hy
    | some j =>
      by_cases hj : j = k
      · subst j
        simp [linkPreviousPage, previousPage, page_updatePage_self (hpage k rfl)]
      · simp [linkPreviousPage, previousPage, page_updatePage_ne hj, hj]

theorem nextPage_linkNextPage (hpage : ∀ k, page = some k → k < pool.pages.size)
    (hy : y ≠ none) : nextPage (linkNextPage page next pool) y =
      if y = page then next else nextPage pool y := by
  cases page with
  | none =>
    cases y with
    | none => exact absurd rfl hy
    | some j => rfl
  | some k =>
    cases y with
    | none => exact absurd rfl hy
    | some j =>
      by_cases hj : j = k
      · subst j
        simp [linkNextPage, nextPage, page_updatePage_self (hpage k rfl)]
      · simp [linkNextPage, nextPage, page_updatePage_ne hj, hj]

theorem nextPage_linkPreviousPage :
    nextPage (linkPreviousPage page previous pool) y = nextPage pool y := by
  cases y with
  | none => rfl
  | some j => exact linkPreviousPage_keeps previous Page.nextFreePage (fun _ => rfl) j

theorem previousPage_linkNextPage :
    previousPage (linkNextPage page next pool) y = previousPage pool y := by
  cases y with
  | none => rfl
  | some j => exact linkNextPage_keeps next Page.previousFreePage (fun _ => rfl) j

theorem samePages_refl (pool : OrderPool) : SamePages pool pool := ⟨rfl, fun _ => rfl, rfl, rfl⟩

theorem SamePages.trans {a b c : OrderPool} (h : SamePages a b) (h' : SamePages b c) :
    SamePages a c :=
  ⟨h'.size.trans h.size, fun k => (h'.detached k).trans (h.detached k),
    h'.pageIndex.trans h.pageIndex, h'.liveOrderCount.trans h.liveOrderCount⟩

theorem samePages_updatePage {k : ℕ} {f : Page → Page}
    (hf : (f (pool.page k)).detached = (pool.page k).detached) :
    SamePages pool (OrderPool.updatePage k f pool) :=
  ⟨size_updatePage k f pool, updatePage_keeps Page.detached hf, rfl, rfl⟩

theorem samePages_linkPreviousPage : SamePages pool (linkPreviousPage page previous pool) := by
  cases page with
  | none => exact samePages_refl pool
  | some k => exact samePages_updatePage rfl

theorem samePages_linkNextPage : SamePages pool (linkNextPage page next pool) := by
  cases page with
  | none => exact ⟨rfl, fun _ => rfl, rfl, rfl⟩
  | some k => exact samePages_updatePage rfl

theorem samePages_pushed (k : ℕ) (pool : OrderPool) : SamePages pool (pushed k pool) :=
  (samePages_updatePage rfl).trans ((samePages_linkPreviousPage _).trans
    ((samePages_linkNextPage _).trans (samePages_updatePage rfl)))

theorem samePages_dropped (k : ℕ) (pool : OrderPool) : SamePages pool (dropped k pool) :=
  (samePages_linkNextPage _).trans ((samePages_linkPreviousPage _).trans
    (samePages_updatePage rfl))

end Links

theorem addToFreePageList_run {s : PoolState} {k : ℕ}
    (hoff : (s.pool.page k).onFreePageList = false) :
    addToFreePageList k s = (.returns (), { s with pool := pushed k s.pool }) := by
  simp only [addToFreePageList, Proc.get_bind_apply, hoff, Bool.false_eq_true, if_false, updatePool,
    Proc.modify_bind_apply, pushed]
  cases s.pool.firstPageWithFreeSlot <;> rfl

theorem removeFromFreePageList_run {s : PoolState} {k : ℕ}
    (hon : (s.pool.page k).onFreePageList = true) :
    removeFromFreePageList k s = (.returns (), { s with pool := dropped k s.pool }) := by
  simp only [removeFromFreePageList, Proc.get_bind_apply, hon, Bool.not_true, Bool.false_eq_true,
    if_false, updatePool, dropped]
  cases (s.pool.page k).previousFreePage <;> cases (s.pool.page k).nextFreePage <;> rfl

namespace FreePages

variable {pool : OrderPool} {ks ls : List (Option ℕ)} {k : ℕ}

theorem first_lt (h : FreePages pool ks) (hk : pool.firstPageWithFreeSlot = some k) :
    some k ∈ ks := by
  rw [h.first] at hk
  cases ks with
  | nil => simp at hk
  | cons x xs =>
    rw [List.headD_cons] at hk
    simp [hk]

/-- A page linked in front of the list. -/
theorem push (h : FreePages pool ks) (hk : k < pool.pages.size) (hnot : some k ∉ ks) :
    FreePages (pushed k pool) (some k :: ks) := by
  have hfirstLt : ∀ i, pool.firstPageWithFreeSlot = some i → i < pool.pages.size :=
    fun i hi => h.lt (h.first_lt hi)
  have hfirstNe : some k ≠ pool.firstPageWithFreeSlot := fun heq => hnot (h.first_lt heq.symm)
  have hnext : ∀ y, nextPage (pushed k pool) y =
      if y = some k then pool.firstPageWithFreeSlot else nextPage pool y := by
    intro y
    cases y with
    | none => rfl
    | some j =>
      simp only [pushed, nextPage]
      rw [updatePage_keeps Page.nextFreePage (by rfl) j]
      refine (nextPage_linkPreviousPage (y := some j) (some k)).trans ?_
      by_cases hj : j = k
      · subst j
        simp [nextPage, page_updatePage_self hk]
      · simp [nextPage, page_updatePage_ne hj, hj]
  have hprev : ∀ y, y ≠ none → previousPage (pushed k pool) y =
      if y = pool.firstPageWithFreeSlot then some k
      else if y = some k then none else previousPage pool y := by
    intro y hy
    cases y with
    | none => exact absurd rfl hy
    | some j =>
      simp only [pushed, previousPage]
      rw [updatePage_keeps Page.previousFreePage (by rfl) j]
      refine (previousPage_linkNextPage (y := some j) (some k)).trans ?_
      rw [previousPage_linkPreviousPage _ (by simpa using hfirstLt) (by simp)]
      by_cases hj : j = k
      · subst j
        simp [previousPage, page_updatePage_self hk]
      · simp [previousPage, page_updatePage_ne hj, hj]
  refine ⟨?_, List.nodup_cons.mpr ⟨hnot, h.nodup⟩, ?_, rfl, ?_⟩
  · apply h.linked.push h.nodup
    · rw [hnext, if_pos rfl, h.first]
    · rw [hprev _ (by simp), if_neg hfirstNe, if_pos rfl]
    · intro y hy
      have hne : y ≠ some k := fun heq => hnot (heq ▸ hy)
      rw [hnext, if_neg hne]
    · intro y hy
      have hne : y ≠ some k := fun heq => hnot (heq ▸ hy)
      have hnone : y ≠ none := fun heq => h.not_null (heq ▸ hy)
      rw [hprev y hnone, if_neg hne, h.first]
  · simpa using h.not_null
  · intro j
    by_cases hj : j = k
    · subst j
      simp only [pushed, List.mem_cons, true_or, iff_true]
      rw [page_updatePage_self]
      rw [(samePages_linkNextPage _).size, (samePages_linkPreviousPage _).size, size_updatePage]
      exact hk
    · simp only [pushed, List.mem_cons, Option.some.injEq, hj, false_or]
      rw [page_updatePage_ne hj, linkNextPage_keeps _ Page.onFreePageList (fun _ => rfl),
        linkPreviousPage_keeps _ Page.onFreePageList (fun _ => rfl), page_updatePage_ne hj]
      exact h.listed j

/-- A page unlinked from the list, wherever it stands. -/
theorem drop (h : FreePages pool (ks ++ some k :: ls)) : FreePages (dropped k pool) (ks ++ ls) := by
  have hmem : some k ∈ ks ++ some k :: ls := by simp
  have hk := h.lt hmem
  have hsub : ∀ y ∈ ks ++ ls, y ∈ ks ++ some k :: ls := by
    intro y hy
    simp only [List.mem_append, List.mem_cons] at hy ⊢
    tauto
  have hne : ∀ y ∈ ks ++ ls, y ≠ some k := by
    intro y hy heq
    subst y
    exact (List.nodup_cons.mp (List.nodup_middle.mp h.nodup)).1 hy
  have hnone : ∀ y ∈ ks ++ ls, y ≠ none := fun y hy heq => h.not_null (heq ▸ hsub y hy)
  obtain ⟨_, hprevious, hnextLink, _⟩ := linked_append.mp h.linked
  have hprevious' : (pool.page k).previousFreePage = ks.getLastD none := hprevious
  have hnext' : (pool.page k).nextFreePage = ls.headD none := hnextLink
  have hpreviousLt : ∀ i, (pool.page k).previousFreePage = some i → i < pool.pages.size := by
    intro i hi
    have hlast : ks.getLastD none ∈ none :: ks := List.getLastD_mem_cons
    rw [← hprevious', hi] at hlast
    simp only [List.mem_cons, reduceCtorEq, false_or] at hlast
    exact h.lt (by simp [hlast])
  have hnextLt : ∀ i, (pool.page k).nextFreePage = some i → i < pool.pages.size := by
    intro i hi
    rw [hnext'] at hi
    cases ls with
    | nil => simp at hi
    | cons x xs =>
      rw [List.headD_cons] at hi
      exact h.lt (by simp [hi])
  refine ⟨?_, h.nodup.sublist (by simp), fun hmem => hnone _ hmem rfl, ?_, ?_⟩
  · apply h.linked.unlink h.nodup h.not_null
    · intro y hy
      obtain ⟨j, rfl⟩ := Option.ne_none_iff_exists'.mp (hnone y hy)
      have hj : j ≠ k := fun heq => hne _ hy (by rw [heq])
      change ((dropped k pool).page j).nextFreePage = _
      rw [dropped, page_updatePage_ne hj]
      refine (nextPage_linkPreviousPage (y := some j) _).trans ?_
      exact nextPage_linkNextPage _ hpreviousLt (by simp)
    · intro y hy
      obtain ⟨j, rfl⟩ := Option.ne_none_iff_exists'.mp (hnone y hy)
      have hj : j ≠ k := fun heq => hne _ hy (by rw [heq])
      change ((dropped k pool).page j).previousFreePage = _
      rw [dropped, page_updatePage_ne hj]
      refine (previousPage_linkPreviousPage (y := some j) _ ?_ (by simp)).trans ?_
      · rw [(samePages_linkNextPage _).size]
        exact hnextLt
      · rw [previousPage_linkNextPage]
        rfl
  · have hfirst : (dropped k pool).firstPageWithFreeSlot =
        if (pool.page k).previousFreePage = none then (pool.page k).nextFreePage
        else pool.firstPageWithFreeSlot := by
      unfold dropped
      cases (pool.page k).previousFreePage <;> cases (pool.page k).nextFreePage <;> rfl
    rw [hfirst, hprevious', hnext', h.first, headD_append, headD_append]
    cases ks with
    | nil => simp
    | cons x xs =>
      have hlast : xs.getLastD x ∈ x :: xs := List.getLastD_mem_cons
      rw [List.getLastD_cons, if_neg (hnone _ (List.mem_append_left _ hlast))]
      rfl
  · intro j
    by_cases hj : j = k
    · subst j
      have hnot : some k ∉ ks ++ ls := fun hmem => hne _ hmem rfl
      simp only [hnot, iff_false, Bool.not_eq_true, dropped]
      rw [page_updatePage_self]
      · rfl
      · rw [(samePages_linkPreviousPage _).size, (samePages_linkNextPage _).size]
        exact hk
    · simp only [dropped]
      rw [page_updatePage_ne hj, linkPreviousPage_keeps _ Page.onFreePageList (fun _ => rfl),
        linkNextPage_keeps _ Page.onFreePageList (fun _ => rfl), h.listed j]
      simp [hj]

end FreePages

/-- The slot at an address is occupied. -/
def Live (pool : OrderPool) (order : OrderPtr) : Prop :=
  ∃ k < pool.pages.size, ∃ i < SlotsPerPage,
    (pool.page k).occupied i = true ∧ (pool.page k).slot i = order

/-- The pages are in order and the occupied slots are those of `live`. -/
structure SlotsOk (pool : OrderPool) (live : List OrderPtr) : Prop where
  page : ∀ k < pool.pages.size, ∃ free, PageOk (pool.page k) free
  index : ∀ base k, pool.pageIndex base = some k ↔
    k < pool.pages.size ∧ (pool.page k).storage = base
  stored : ∀ order, order ∈ live ↔ Live pool order
  nodup : live.Nodup

/-- The pool stores exactly the orders of `live`. -/
structure PoolOk (pool : OrderPool) (live : List OrderPtr) : Prop extends SlotsOk pool live where
  freePages : ∃ ks, FreePages pool ks ∧
    ∀ k < pool.pages.size, some k ∈ ks ↔ (pool.page k).freeCount ≠ 0
  count : pool.liveOrderCount.toNat = live.length

theorem poolOk_empty : PoolOk {} [] where
  page k hk := by simp at hk
  index base k := by simp
  freePages := ⟨[], ⟨trivial, List.nodup_nil, by simp, rfl, fun k => by
    simp [@page_of_size_le {} k (by simp)]⟩, fun k hk => by simp at hk⟩
  stored order := by simp [Live]
  nodup := List.nodup_nil
  count := rfl

theorem detached_fields {page page' : Page} (heq : page'.detached = page.detached) :
    page'.storage = page.storage ∧ page'.nextFree = page.nextFree ∧
      page'.occupied = page.occupied ∧ page'.firstFree = page.firstFree ∧
      page'.freeCount = page.freeCount := by
  simp only [Page.detached, Page.mk.injEq, and_true] at heq
  exact heq

theorem PageOk.of_detached {page page' : Page} {free : List ℕ} (h : PageOk page free)
    (heq : page'.detached = page.detached) : PageOk page' free := by
  obtain ⟨hstorage, hnext, hocc, hfirst, hcount⟩ := detached_fields heq
  exact ⟨by rw [hstorage]; exact h.aligned, by rw [hstorage]; exact h.ne_zero,
    by rw [hnext, hfirst]; exact h.chain, h.nodup, by rw [hocc]; exact h.mem,
    by rw [hcount]; exact h.count⟩

namespace SlotsOk

variable {pool pool' : OrderPool} {live : List OrderPtr}

theorem slot_ne_null (h : SlotsOk pool live) {k i : ℕ} (hk : k < pool.pages.size)
    (hi : i < SlotsPerPage) : (pool.page k).slot i ≠ nullptr := by
  obtain ⟨free, hpage⟩ := h.page k hk
  intro heq
  have hslot := slot_toNat hpage.aligned hi
  rw [heq] at hslot
  apply hpage.ne_zero
  apply UInt64.toNat_inj.mp
  have hnull : nullptr.toNat = 0 := rfl
  rw [UInt64.toNat_zero]
  omega

theorem null_not_mem (h : SlotsOk pool live) : nullptr ∉ live := by
  intro hmem
  obtain ⟨k, hk, i, hi, _, hslot⟩ := (h.stored _).mp hmem
  exact h.slot_ne_null hk hi hslot

/-- Two slots at one address are one slot. -/
theorem slot_unique (h : SlotsOk pool live) {k l i j : ℕ} (hk : k < pool.pages.size)
    (hl : l < pool.pages.size) (hi : i < SlotsPerPage) (hj : j < SlotsPerPage)
    (heq : (pool.page k).slot i = (pool.page l).slot j) : k = l ∧ i = j := by
  obtain ⟨_, hpk⟩ := h.page k hk
  obtain ⟨_, hpl⟩ := h.page l hl
  obtain ⟨hstorage, hij⟩ := slot_inj hpk.aligned hpl.aligned hi hj heq
  have hindex := (h.index _ k).mpr ⟨hk, hstorage⟩
  rw [(h.index _ l).mpr ⟨hl, rfl⟩] at hindex
  exact ⟨(Option.some.inj hindex).symm, hij⟩

/-- Pages are compared up to their place in the free page list. -/
theorem same (h : SlotsOk pool live) (hs : SamePages pool pool') : SlotsOk pool' live := by
  have hstorage : ∀ k, (pool'.page k).storage = (pool.page k).storage :=
    fun k => (detached_fields (hs.detached k)).1
  have hocc : ∀ k, (pool'.page k).occupied = (pool.page k).occupied :=
    fun k => (detached_fields (hs.detached k)).2.2.1
  refine ⟨?_, ?_, ?_, h.nodup⟩
  · intro k hk
    rw [hs.size] at hk
    obtain ⟨free, hpage⟩ := h.page k hk
    exact ⟨free, hpage.of_detached (hs.detached k)⟩
  · intro base k
    rw [hs.pageIndex, hs.size, hstorage, h.index]
  · intro order
    rw [h.stored]
    simp only [Live, Page.slot, hs.size, hstorage, hocc]

theorem page_take_occupied {k i j l : ℕ} {f : Page → Page} {b : Bool} (hk : k < pool.pages.size)
    (hf : ∀ p, (f p).occupied = Function.update p.occupied i b) :
    ((OrderPool.updatePage k f pool).page l).occupied j =
      if l = k ∧ j = i then b else (pool.page l).occupied j := by
  by_cases hl : l = k
  · subst l
    rw [page_updatePage_self hk, hf]
    by_cases hj : j = i
    · subst j
      simp
    · simp [hj]
  · rw [page_updatePage_ne hl]
    simp [hl]

/-- A slot that changes hands: the pages stay in order and every slot keeps its address. -/
theorem update {k i : ℕ} {f : Page → Page} {b : Bool} {free : List ℕ} {live' : List OrderPtr}
    (h : SlotsOk pool live) (hk : k < pool.pages.size) (hi : i < SlotsPerPage)
    (hpage : PageOk (f (pool.page k)) free) (hstorage : ∀ p, (f p).storage = p.storage)
    (hf : ∀ p, (f p).occupied = Function.update p.occupied i b) (hnd : live'.Nodup)
    (hlive : ∀ order, order ∈ live' ↔ (b = true ∧ order = (pool.page k).slot i) ∨
      (order ≠ (pool.page k).slot i ∧ order ∈ live)) :
    SlotsOk (OrderPool.updatePage k f pool) live' := by
  have hstorage' : ∀ l, ((OrderPool.updatePage k f pool).page l).storage =
      (pool.page l).storage := updatePage_keeps Page.storage (hstorage _)
  have hslot : ∀ l j, ((OrderPool.updatePage k f pool).page l).slot j = (pool.page l).slot j := by
    intro l j
    rw [Page.slot, Page.slot, hstorage' l]
  refine ⟨?_, ?_, ?_, hnd⟩
  · intro l hl
    rw [size_updatePage] at hl
    by_cases hlk : l = k
    · subst l
      rw [page_updatePage_self hk]
      exact ⟨free, hpage⟩
    · rw [page_updatePage_ne hlk]
      exact h.page l hl
  · intro base l
    rw [size_updatePage, hstorage']
    exact h.index base l
  · intro order
    rw [hlive, h.stored]
    constructor
    · intro hcase
      rcases hcase with ⟨hb, horder⟩ | ⟨hne, l, hl, j, hj, hocc, hslot'⟩
      · refine ⟨k, by simpa using hk, i, hi, ?_, by rw [hslot, horder]⟩
        rw [page_take_occupied hk hf, if_pos ⟨rfl, rfl⟩, hb]
      · refine ⟨l, by simpa using hl, j, hj, ?_, by rw [hslot, hslot']⟩
        rw [page_take_occupied hk hf, if_neg, hocc]
        intro heq
        rw [heq.1, heq.2] at hslot'
        exact hne hslot'.symm
    · intro hcase
      obtain ⟨l, hl, j, hj, hocc, hslot'⟩ := hcase
      rw [size_updatePage] at hl
      rw [hslot] at hslot'
      rw [page_take_occupied hk hf] at hocc
      by_cases heq : l = k ∧ j = i
      · rw [if_pos heq] at hocc
        left
        rw [← hslot', heq.1, heq.2]
        exact ⟨hocc, rfl⟩
      · rw [if_neg heq] at hocc
        right
        refine ⟨?_, l, hl, j, hj, hocc, hslot'⟩
        intro horder
        rw [← hslot'] at horder
        exact heq (h.slot_unique hl hk hj hi horder)

end SlotsOk

theorem FreePages.congr {pool pool' : OrderPool} {ks : List (Option ℕ)} (h : FreePages pool ks)
    (hfirst : pool'.firstPageWithFreeSlot = pool.firstPageWithFreeSlot)
    (hnext : ∀ k, (pool'.page k).nextFreePage = (pool.page k).nextFreePage)
    (hprevious : ∀ k, (pool'.page k).previousFreePage = (pool.page k).previousFreePage)
    (hon : ∀ k, (pool'.page k).onFreePageList = (pool.page k).onFreePageList) :
    FreePages pool' ks where
  linked := by
    refine h.linked.congr ?_ ?_
    · intro y _
      cases y with
      | none => rfl
      | some k => exact hnext k
    · intro y _
      cases y with
      | none => rfl
      | some k => exact hprevious k
  nodup := h.nodup
  not_null := h.not_null
  first := by rw [hfirst, h.first]
  listed k := by rw [hon, h.listed]

namespace PoolOk

variable {pool : OrderPool} {live : List OrderPtr}

/-- The counter stands apart from the slots and the list of pages. -/
theorem counted {ks : List (Option ℕ)} {count : UInt64} (hslots : SlotsOk pool live)
    (hks : FreePages pool ks)
    (hcounts : ∀ k < pool.pages.size, some k ∈ ks ↔ (pool.page k).freeCount ≠ 0)
    (hcount : count.toNat = live.length) :
    PoolOk { pool with liveOrderCount := count } live where
  page := hslots.page
  index := hslots.index
  stored := hslots.stored
  nodup := hslots.nodup
  freePages := ⟨ks, hks.congr rfl (fun _ => rfl) (fun _ => rfl) (fun _ => rfl), hcounts⟩
  count := hcount

/-- A different enumeration of the same orders. -/
theorem perm (h : PoolOk pool live) {live' : List OrderPtr} (hperm : live.Perm live') :
    PoolOk pool live' where
  __ := h
  stored order := by rw [← hperm.mem_iff, h.stored]
  nodup := hperm.nodup_iff.mp h.nodup
  count := by rw [h.count, hperm.length_eq]

end PoolOk

section Creation

variable {host : Host} {s : PoolState} {live : List OrderPtr} {page : Page}

/-- No page can be had: it cannot be made, or its address is registered already. -/
def PageRefused (host : Host) (pool : OrderPool) : Prop :=
  ∀ page, newPage host pool.pages.size = .ok page → (pool.pageIndex page.storage).isSome = true

/-- The pool with a new page at its end, not yet on the free page list. -/
def registered (page : Page) (pool : OrderPool) : OrderPool :=
  { pool with
    pages := pool.pages.push page
    pageIndex := Function.update pool.pageIndex page.storage (some pool.pages.size) }

/-- A new page is made in a mapping of the operating system, whose pages it consists of. -/
theorem newPage_ok {count : ℕ} (h : newPage host count = .ok page) :
    ∃ mapping, page = Page.make mapping ∧ host.mmap count = some mapping ∧
      0 < host.systemPageSize ∧ PageSize % host.systemPageSize.toUInt64 = 0 := by
  unfold newPage at h
  split_ifs at h with _ hsize
  rw [not_or, not_not] at hsize
  cases hmap : host.mmap count with
  | none => simp [hmap] at h
  | some mapping =>
    rw [hmap] at h
    exact ⟨mapping, (Except.ok.inj h).symm, rfl, Int64.not_le.mp hsize.1, hsize.2⟩

/-- A refused page leaves the pool as it was. -/
theorem createPage_refused (h : PageRefused host s.pool) :
    ∃ e, createPage host s = (.throws e, s) := by
  cases hnew : newPage host s.pool.pages.size with
  | error e =>
    exact ⟨e, by simp only [createPage, Proc.get_bind_apply, hnew, Proc.check_error,
      Proc.throw_bind_apply]⟩
  | ok page =>
    have hsome := h page hnew
    exact ⟨_, by
      simp only [createPage, Proc.get_bind_apply, hnew, Proc.check_ok, Proc.pure_bind_apply,
        updatePool, Proc.modify_bind_apply, hsome, if_true, Array.pop_push]
      rfl⟩

theorem page_registered (page : Page) (pool : OrderPool) (k : ℕ) :
    (registered page pool).page k = if k = pool.pages.size then page else pool.page k := by
  by_cases hk : k = pool.pages.size
  · subst k
    simp [OrderPool.page, registered]
  · simp [OrderPool.page, registered, Array.getElem?_push, hk]

theorem createPage_run (hnew : newPage host s.pool.pages.size = .ok page)
    (hfresh : s.pool.pageIndex page.storage = none) :
    createPage host s = (.returns s.pool.pages.size,
      { s with pool := pushed s.pool.pages.size (registered page s.pool) }) := by
  obtain ⟨mapping, hmake, -⟩ := newPage_ok hnew
  have hoff : ((registered page s.pool).page s.pool.pages.size).onFreePageList = false := by
    rw [page_registered, if_pos rfl, hmake]
    rfl
  simp only [createPage, Proc.get_bind_apply, hnew, Proc.check_ok, Proc.pure_bind_apply,
    updatePool, Proc.modify_bind_apply, hfresh, Option.isSome_none, Bool.false_eq_true, if_false]
  exact Proc.bind_returns _ (addToFreePageList_run (s := { s with pool := registered page s.pool })
    hoff)

theorem SlotsOk.registered (h : SlotsOk s.pool live) (mapping : Mapping)
    (hfresh : s.pool.pageIndex (Page.make mapping).storage = none) :
    SlotsOk (registered (Page.make mapping) s.pool) live := by
  have hsize : (PoolAsSet.registered (Page.make mapping) s.pool).pages.size =
      s.pool.pages.size + 1 := by simp [PoolAsSet.registered]
  have hold : ∀ k < s.pool.pages.size,
      (PoolAsSet.registered (Page.make mapping) s.pool).page k = s.pool.page k := by
    intro k hk
    rw [page_registered, if_neg (by omega)]
  have hnew : (PoolAsSet.registered (Page.make mapping) s.pool).page s.pool.pages.size =
      Page.make mapping := by rw [page_registered, if_pos rfl]
  refine ⟨?_, ?_, ?_, h.nodup⟩
  · intro k hk
    by_cases hlast : k = s.pool.pages.size
    · subst k
      rw [hnew]
      exact ⟨_, pageOk_make mapping⟩
    · rw [hold k (by omega)]
      exact h.page k (by omega)
  · intro base k
    by_cases hbase : base = (Page.make mapping).storage
    · subst base
      have hindex : (PoolAsSet.registered (Page.make mapping) s.pool).pageIndex
          (Page.make mapping).storage = some s.pool.pages.size := Function.update_self _ _ _
      rw [hindex, Option.some.injEq, hsize]
      constructor
      · intro hk
        subst k
        exact ⟨by omega, by rw [hnew]⟩
      · intro hk
        obtain ⟨hlt, hstorage⟩ := hk
        by_contra hne
        rw [hold k (by omega)] at hstorage
        have hindex := (h.index _ k).mpr ⟨by omega, hstorage⟩
        rw [hfresh] at hindex
        simp at hindex
    · have hindex : (PoolAsSet.registered (Page.make mapping) s.pool).pageIndex base =
          s.pool.pageIndex base := Function.update_of_ne hbase _ _
      rw [hindex, h.index, hsize]
      constructor
      · intro hk
        exact ⟨by omega, by rw [hold k hk.1, hk.2]⟩
      · intro hk
        have hne : k ≠ s.pool.pages.size := by
          intro heq
          rw [heq, hnew] at hk
          exact hbase hk.2.symm
        have hlt : k < s.pool.pages.size := by omega
        rw [hold k hlt] at hk
        exact ⟨hlt, hk.2⟩
  · intro order
    rw [h.stored]
    constructor
    · intro hlive
      obtain ⟨k, hk, i, hi, hocc, hslot⟩ := hlive
      exact ⟨k, by omega, i, hi, by rw [hold k hk, hocc], by rw [hold k hk, hslot]⟩
    · intro hlive
      obtain ⟨k, hk, i, hi, hocc, hslot⟩ := hlive
      by_cases hlast : k = s.pool.pages.size
      · subst k
        rw [hnew] at hocc
        simp [Page.make] at hocc
      · have hlt : k < s.pool.pages.size := by omega
        rw [hold k hlt] at hocc hslot
        exact ⟨k, hlt, i, hi, hocc, hslot⟩

/-- A created page is empty and first in line for the next allocation. -/
theorem createPage_spec (h : PoolOk s.pool live) (hgrant : ¬ PageRefused host s.pool) :
    ∃ pool, createPage host s = (.returns s.pool.pages.size, { s with pool := pool }) ∧
      PoolOk pool live ∧ pool.firstPageWithFreeSlot = some s.pool.pages.size ∧
      pool.pages.size = s.pool.pages.size + 1 := by
  simp only [PageRefused, not_forall, Bool.not_eq_true, Option.isSome_eq_false_iff,
    Option.isNone_iff_eq_none] at hgrant
  obtain ⟨page, hnew, hfresh⟩ := hgrant
  obtain ⟨mapping, rfl, -⟩ := newPage_ok hnew
  obtain ⟨ks, hks, hcounts⟩ := h.freePages
  have hslots := h.toSlotsOk.registered mapping hfresh
  have hsize : (registered (Page.make mapping) s.pool).pages.size = s.pool.pages.size + 1 := by
    simp [registered]
  have hks' : FreePages (registered (Page.make mapping) s.pool) ks := by
    have hdefault : ∀ k, k = s.pool.pages.size → (s.pool.page k).nextFreePage = none ∧
        (s.pool.page k).previousFreePage = none ∧ (s.pool.page k).onFreePageList = false := by
      intro k hk
      simp [OrderPool.page, hk]
    refine hks.congr rfl ?_ ?_ ?_ <;>
    · intro k
      rw [page_registered]
      split_ifs with hk
      · simp [hdefault k hk, Page.make]
      · rfl
  have hnot : some s.pool.pages.size ∉ ks := fun hmem => by
    have hlt := hks.lt hmem
    omega
  have hsame := samePages_pushed s.pool.pages.size (registered (Page.make mapping) s.pool)
  have hpushed := hks'.push (by omega) hnot
  refine ⟨_, createPage_run hnew hfresh, ⟨hslots.same hsame, ⟨_, hpushed, ?_⟩, ?_⟩, ?_, ?_⟩
  · intro k hk
    rw [hsame.size] at hk
    have hcount := (detached_fields (hsame.detached k)).2.2.2.2
    rw [hcount, page_registered]
    by_cases hlast : k = s.pool.pages.size
    · subst k
      have hfull : (Page.make mapping).freeCount ≠ 0 := by
        change UInt64.ofNat SlotsPerPage ≠ 0
        decide
      simp [hfull]
    · simp only [List.mem_cons, Option.some.injEq, hlast, false_or, if_false]
      exact hcounts k (by omega)
  · rw [hsame.liveOrderCount]
    exact h.count
  · exact hpushed.first
  · rw [hsame.size, hsize]

end Creation

section Allocation

variable {s : PoolState} {live : List OrderPtr}

/-- The pool after an allocation in page `k`. -/
def allocated (k : ℕ) (pool : OrderPool) : OrderPool :=
  let taken := OrderPool.updatePage k (Page.takeSlot (pool.page k).firstFree.toNat) pool
  let relisted := if (taken.page k).freeCount = 0 then dropped k taken else taken
  { relisted with liveOrderCount := relisted.liveOrderCount + 1 }

variable (orderId : OrderId) (price : Price)
  (originalQuantity remainingQuantity : Quantity) (timestamp : Timestamp) (orderSide : OrderSide)
  (orderType : Orders.OrderType) (sequenceNumber : SequenceNumber)

theorem allocateIn_run {k : ℕ} (hk : k < s.pool.pages.size)
    (hon : (s.pool.page k).onFreePageList = true) :
    allocateIn orderId price originalQuantity remainingQuantity timestamp orderSide orderType
        sequenceNumber k s =
      (.returns ((s.pool.page k).slot (s.pool.page k).firstFree.toNat),
        { pool := allocated k s.pool
          memory := Function.update s.memory
            ((s.pool.page k).slot (s.pool.page k).firstFree.toNat) {
              orderId, price, originalQuantity, remainingQuantity, timestamp, orderSide, orderType,
              sequenceNumber } }) := by
  have hon' : ((OrderPool.updatePage k (Page.takeSlot (s.pool.page k).firstFree.toNat)
      s.pool).page k).onFreePageList = true := by
    rw [page_updatePage_self hk]
    exact hon
  simp only [allocateIn, Proc.get_bind_apply, Proc.modify_bind_apply, updatePool]
  by_cases hfull : ((OrderPool.updatePage k (Page.takeSlot (s.pool.page k).firstFree.toNat)
      s.pool).page k).freeCount = 0
  · rw [if_pos hfull, Proc.bind_returns _ (removeFromFreePageList_run hon')]
    simp only [allocated, if_pos hfull]
    rfl
  · rw [if_neg hfull]
    simp only [allocated, if_neg hfull]
    rfl

/-- Taking the first free slot of the first page on the list makes one more slot live. -/
theorem PoolOk.allocated (h : PoolOk s.pool live) {k : ℕ}
    (hfirst : s.pool.firstPageWithFreeSlot = some k) :
    k < s.pool.pages.size ∧ (s.pool.page k).onFreePageList = true ∧
      (s.pool.page k).slot (s.pool.page k).firstFree.toNat ∉ live ∧
      (s.pool.page k).slot (s.pool.page k).firstFree.toNat ≠ nullptr ∧
      PoolOk (allocated k s.pool)
        ((s.pool.page k).slot (s.pool.page k).firstFree.toNat :: live) := by
  obtain ⟨ks, hks, hcounts⟩ := h.freePages
  have hmem := hks.first_lt hfirst
  have hk := hks.lt hmem
  obtain ⟨free, hpage⟩ := h.page k hk
  obtain ⟨rest, hfree⟩ := hpage.freeCount_pos ((hcounts k hk).mp hmem)
  rw [hfree] at hpage
  have hin := (hpage.mem (s.pool.page k).firstFree.toNat).mp (by simp)
  have hnot : (s.pool.page k).slot (s.pool.page k).firstFree.toNat ∉ live := by
    rw [h.stored]
    intro hlive
    obtain ⟨l, hl, j, hj, hocc, hslot⟩ := hlive
    obtain ⟨hlk, hji⟩ := h.slot_unique hl hk hj hin.1 hslot
    rw [hlk, hji, hin.2] at hocc
    simp at hocc
  have hnull := h.slot_ne_null hk hin.1
  refine ⟨hk, (hks.listed k).mpr hmem, hnot, hnull, ?_⟩
  have hnd : ((s.pool.page k).slot (s.pool.page k).firstFree.toNat :: live).Nodup :=
    List.nodup_cons.mpr ⟨hnot, h.nodup⟩
  have htaken : SlotsOk (OrderPool.updatePage k (Page.takeSlot (s.pool.page k).firstFree.toNat)
      s.pool) ((s.pool.page k).slot (s.pool.page k).firstFree.toNat :: live) := by
    refine h.toSlotsOk.update (b := true) hk hin.1 hpage.take (fun _ => rfl) (fun _ => rfl) hnd ?_
    intro order
    rw [List.mem_cons]
    by_cases horder : order = (s.pool.page k).slot (s.pool.page k).firstFree.toNat <;>
      simp [horder]
  have hlist : FreePages (OrderPool.updatePage k
      (Page.takeSlot (s.pool.page k).firstFree.toNat) s.pool) ks :=
    hks.congr rfl (updatePage_keeps _ rfl) (updatePage_keeps _ rfl) (updatePage_keeps _ rfl)
  have hcount : (s.pool.liveOrderCount + 1).toNat = live.length + 1 := by
    have hlt := length_lt_of_nodup hnd
      (List.not_mem_cons_of_ne_of_not_mem (Ne.symm hnull) h.null_not_mem)
    rw [List.length_cons] at hlt
    rw [UInt64.toNat_add, UInt64.toNat_one, h.count]
    exact Nat.mod_eq_of_lt hlt
  unfold PoolAsSet.allocated
  by_cases hfull : ((OrderPool.updatePage k (Page.takeSlot (s.pool.page k).firstFree.toNat)
      s.pool).page k).freeCount = 0
  · -- the page is full now and leaves the list, at whose head it stands
    simp only [hfull, if_true]
    have hsame := samePages_dropped k (OrderPool.updatePage k
      (Page.takeSlot (s.pool.page k).firstFree.toNat) s.pool)
    obtain ⟨ls, rfl⟩ : ∃ ls, ks = some k :: ls := by
      have hhead := hks.first
      rw [hfirst] at hhead
      cases ks with
      | nil => simp at hhead
      | cons x xs => exact ⟨xs, by rw [List.headD_cons] at hhead; rw [hhead]⟩
    have hdrop := @FreePages.drop _ [] _ _ hlist
    have hcount' : ((dropped k (OrderPool.updatePage k
        (Page.takeSlot (s.pool.page k).firstFree.toNat) s.pool)).liveOrderCount + 1).toNat =
        live.length + 1 := by
      rw [hsame.liveOrderCount]
      exact hcount
    refine PoolOk.counted (htaken.same hsame) hdrop ?_ hcount'
    intro l hl
    rw [hsame.size, size_updatePage] at hl
    rw [List.nil_append, (detached_fields (hsame.detached l)).2.2.2.2]
    by_cases hlk : l = k
    · subst l
      simp only [hfull, not_true, iff_false, ne_eq]
      exact (List.nodup_cons.mp hks.nodup).1
    · rw [page_updatePage_ne hlk, ← hcounts l hl]
      simp [hlk]
  · simp only [if_neg hfull]
    refine PoolOk.counted htaken hlist ?_ hcount
    intro l hl
    rw [size_updatePage] at hl
    by_cases hlk : l = k
    · subst l
      simp only [ne_eq, hfull, not_false_eq_true, iff_true]
      exact hmem
    · rw [page_updatePage_ne hlk]
      exact hcounts l hl

/-- Allocation is refused only when there is no free slot and no page can be had. -/
def AllocationRefused (host : Host) (pool : OrderPool) : Prop :=
  pool.firstPageWithFreeSlot = none ∧ PageRefused host pool

theorem allocate_spec (host : Host) (h : PoolOk s.pool live) :
    (AllocationRefused host s.pool ∧ ∃ e, allocate host orderId price originalQuantity
      remainingQuantity timestamp orderSide orderType sequenceNumber s = (.throws e, s)) ∨
    (¬ AllocationRefused host s.pool ∧ ∃ order pool, order ∉ live ∧ order ≠ nullptr ∧
      PoolOk pool (order :: live) ∧
      allocate host orderId price originalQuantity remainingQuantity timestamp orderSide orderType
          sequenceNumber s =
        (.returns order, { pool := pool, memory := Function.update s.memory order {
          orderId, price, originalQuantity, remainingQuantity, timestamp, orderSide, orderType,
          sequenceNumber } })) := by
  simp only [allocate, Proc.get_bind_apply]
  cases hfirst : s.pool.firstPageWithFreeSlot with
  | some k =>
    obtain ⟨hk, hon, hnot, hnull, hok⟩ := h.allocated hfirst
    right
    refine ⟨?_, _, _, hnot, hnull, hok, ?_⟩
    · intro hrefused
      have hnone := hrefused.1
      rw [hfirst] at hnone
      simp at hnone
    exact allocateIn_run orderId price originalQuantity remainingQuantity timestamp orderSide
      orderType sequenceNumber hk hon
  | none =>
    by_cases hpage : PageRefused host s.pool
    · left
      obtain ⟨e, hcreate⟩ := createPage_refused hpage
      exact ⟨⟨hfirst, hpage⟩, e, Proc.bind_throws _ hcreate⟩
    · right
      obtain ⟨pool, hcreate, hok, hfirst', _⟩ := createPage_spec h hpage
      obtain ⟨hk, hon, hnot, hnull, hok'⟩ :=
        PoolOk.allocated (s := { s with pool := pool }) hok hfirst'
      refine ⟨fun hrefused => hpage hrefused.2, _, _, hnot, hnull, hok', ?_⟩
      exact (Proc.bind_returns _ hcreate).trans (allocateIn_run (s := { s with pool := pool })
        orderId price originalQuantity remainingQuantity timestamp orderSide orderType
        sequenceNumber hk hon)

end Allocation

section Release

variable {s : PoolState} {live : List OrderPtr} {order : OrderPtr}

/-- The pool after slot `i` of page `k` has been given back. -/
def released (k i : ℕ) (pool : OrderPool) : OrderPool :=
  let given := OrderPool.updatePage k (Page.giveSlot i) pool
  let relisted := if (given.page k).freeCount = 0 then pushed k given else given
  let counted := OrderPool.updatePage k (fun p => { p with freeCount := p.freeCount + 1 }) relisted
  { counted with liveOrderCount := counted.liveOrderCount - 1 }

theorem release_run {k i : ℕ} (hslots : SlotsOk s.pool live) (hk : k < s.pool.pages.size)
    (hi : i < SlotsPerPage) (hocc : (s.pool.page k).occupied i = true)
    (hlist : (s.pool.page k).freeCount = 0 → (s.pool.page k).onFreePageList = false) :
    release ((s.pool.page k).slot i) s = (.returns (), { s with pool := released k i s.pool }) := by
  obtain ⟨free, hpage⟩ := hslots.page k hk
  have hnull := hslots.slot_ne_null hk hi
  have hindex : s.pool.pageIndex ((s.pool.page k).slot i &&& ~~~(PageSize - 1)) = some k := by
    rw [alignDown_slot hpage.aligned hi]
    exact (hslots.index _ k).mpr ⟨hk, rfl⟩
  have hoffset := slot_offset hpage.aligned hi
  have hsize : orderSize.toNat = 80 := rfl
  have haligned : ((s.pool.page k).slot i - ((s.pool.page k).slot i &&& ~~~(PageSize - 1))) %
      orderSize = 0 := by
    rw [alignDown_slot hpage.aligned hi]
    apply UInt64.toNat_inj.mp
    rw [UInt64.toNat_mod, hoffset, hsize, Nat.mul_mod_left]
    rfl
  have hslot : (((s.pool.page k).slot i - ((s.pool.page k).slot i &&& ~~~(PageSize - 1))) /
      orderSize).toNat = i := by
    rw [alignDown_slot hpage.aligned hi, UInt64.toNat_div, hoffset, hsize]
    omega
  have hvalid : ¬ (i ≥ SlotsPerPage ∨ (s.pool.page k).occupied i = false) := by
    rw [hocc]
    simpa using hi
  simp only [release, hnull, if_false, Proc.get_bind_apply, hindex, Proc.check_ok,
    Proc.pure_bind_apply, haligned, hslot, hvalid, updatePool, Proc.modify_bind_apply, ne_eq,
    not_true]
  by_cases hfull : ((OrderPool.updatePage k (Page.giveSlot i) s.pool).page k).freeCount = 0
  · have hcount : (s.pool.page k).freeCount = 0 := by
      rw [page_updatePage_self hk] at hfull
      exact hfull
    have hoff : ((OrderPool.updatePage k (Page.giveSlot i) s.pool).page k).onFreePageList =
        false := by
      rw [page_updatePage_self hk]
      exact hlist hcount
    rw [if_pos hfull, Proc.bind_returns _ (addToFreePageList_run
      (s := { s with pool := OrderPool.updatePage k (Page.giveSlot i) s.pool }) hoff)]
    simp only [released, if_pos hfull]
    rfl
  · rw [if_neg hfull]
    simp only [released, if_neg hfull]
    rfl

theorem SamePages.update {a b : OrderPool} (h : SamePages a b) {k : ℕ} {f : Page → Page}
    (hf : ∀ p q : Page, p.detached = q.detached → (f p).detached = (f q).detached) :
    SamePages (OrderPool.updatePage k f a) (OrderPool.updatePage k f b) := by
  refine ⟨by simp [h.size], ?_, h.pageIndex, h.liveOrderCount⟩
  intro j
  by_cases hk : k < a.pages.size
  · by_cases hj : j = k
    · subst j
      rw [page_updatePage_self hk, page_updatePage_self (by rw [h.size]; exact hk)]
      exact hf _ _ (h.detached k)
    · rw [page_updatePage_ne hj, page_updatePage_ne hj, h.detached]
  · rw [page_updatePage_of_size_le (by rw [h.size]; omega),
      page_updatePage_of_size_le (by omega), h.detached]

theorem page_updatePage_twice (k : ℕ) (f g : Page → Page) (pool : OrderPool) (j : ℕ) :
    (OrderPool.updatePage k g (OrderPool.updatePage k f pool)).page j =
      (OrderPool.updatePage k (g ∘ f) pool).page j := by
  by_cases hk : k < pool.pages.size
  · by_cases hj : j = k
    · subst j
      rw [page_updatePage_self (by simpa using hk), page_updatePage_self hk,
        page_updatePage_self hk]
      rfl
    · simp only [page_updatePage_ne hj]
  · rw [page_updatePage_of_size_le (by simpa using hk), page_updatePage_of_size_le (by omega),
      page_updatePage_of_size_le (by omega)]

/-- A live slot given back is live no more, and the pool has a page with a free slot. -/
theorem release_spec (h : PoolOk s.pool live) (hmem : order ∈ live) :
    ∃ pool, release order s = (.returns (), { s with pool := pool }) ∧
      PoolOk pool (live.erase order) ∧ pool.firstPageWithFreeSlot ≠ none ∧
      pool.pages.size = s.pool.pages.size ∧ pool.pageIndex = s.pool.pageIndex := by
  obtain ⟨k, hk, i, hi, hocc, rfl⟩ := (h.stored _).mp hmem
  obtain ⟨ks, hks, hcounts⟩ := h.freePages
  obtain ⟨free, hpage⟩ := h.page k hk
  have hoff : (s.pool.page k).freeCount = 0 → (s.pool.page k).onFreePageList = false := by
    intro hzero
    rw [← Bool.not_eq_true, hks.listed, hcounts k hk]
    simpa using hzero
  refine ⟨_, release_run h.toSlotsOk hk hi hocc hoff, ?_⟩
  have hgive := hpage.give hi hocc
  have hnd : (live.erase ((s.pool.page k).slot i)).Nodup := h.nodup.erase _
  have hslots : SlotsOk (OrderPool.updatePage k
      ((fun p : Page => { p with freeCount := p.freeCount + 1 }) ∘ Page.giveSlot i) s.pool)
      (live.erase ((s.pool.page k).slot i)) := by
    refine h.toSlotsOk.update (b := false) hk hi hgive (fun _ => rfl) (fun _ => rfl) hnd ?_
    intro other
    rw [h.nodup.mem_erase_iff]
    simp
  have hlist : FreePages (OrderPool.updatePage k (Page.giveSlot i) s.pool) ks :=
    hks.congr rfl (updatePage_keeps _ rfl) (updatePage_keeps _ rfl) (updatePage_keeps _ rfl)
  have hcountK : ((OrderPool.updatePage k (Page.giveSlot i) s.pool).page k).freeCount =
      (s.pool.page k).freeCount := by
    rw [page_updatePage_self hk]
    rfl
  -- the list of pages with a free slot, once page `k` is on it
  obtain ⟨relisted, hrelisted, hsame, ks', hks', hmem', hothers⟩ :
      ∃ relisted, (if ((OrderPool.updatePage k (Page.giveSlot i) s.pool).page k).freeCount = 0 then
        pushed k (OrderPool.updatePage k (Page.giveSlot i) s.pool)
        else OrderPool.updatePage k (Page.giveSlot i) s.pool) = relisted ∧
      SamePages (OrderPool.updatePage k (Page.giveSlot i) s.pool) relisted ∧
      ∃ ks', FreePages relisted ks' ∧ some k ∈ ks' ∧
        ∀ l, l ≠ k → (some l ∈ ks' ↔ some l ∈ ks) := by
    by_cases hfull : (s.pool.page k).freeCount = 0
    · have hnot : some k ∉ ks := by
        rw [hcounts k hk]
        simpa using hfull
      refine ⟨_, if_pos (by rw [hcountK, hfull]), samePages_pushed _ _, some k :: ks,
        hlist.push (by simpa using hk) hnot, by simp, ?_⟩
      intro l hl
      simp [hl]
    · exact ⟨_, if_neg (by rw [hcountK]; exact hfull), samePages_refl _, ks, hlist,
        (hcounts k hk).mpr hfull, fun _ _ => Iff.rfl⟩
  have hsize : relisted.pages.size = s.pool.pages.size := by
    rw [hsame.size, size_updatePage]
  simp only [released, hrelisted]
  have hfinal := hsame.update (k := k)
    (f := fun p => { p with freeCount := p.freeCount + 1 }) (by
      intro p q heq
      obtain ⟨hstorage, hnext, hocc', hfirst, hcount⟩ := detached_fields heq
      simp [Page.detached, hstorage, hnext, hocc', hfirst, hcount])
  have htwice : SamePages (OrderPool.updatePage k
      ((fun p : Page => { p with freeCount := p.freeCount + 1 }) ∘ Page.giveSlot i) s.pool)
      (OrderPool.updatePage k (fun p => { p with freeCount := p.freeCount + 1 })
        (OrderPool.updatePage k (Page.giveSlot i) s.pool)) :=
    ⟨by simp, fun j => by rw [page_updatePage_twice], rfl, rfl⟩
  have hslots' := hslots.same (htwice.trans hfinal)
  have hks'' : FreePages (OrderPool.updatePage k
      (fun p => { p with freeCount := p.freeCount + 1 }) relisted) ks' :=
    hks'.congr rfl (updatePage_keeps _ rfl) (updatePage_keeps _ rfl) (updatePage_keeps _ rfl)
  refine ⟨PoolOk.counted hslots' hks'' ?_ ?_, ?_, ?_, ?_⟩
  · intro l hl
    rw [size_updatePage, hsize] at hl
    by_cases hlk : l = k
    · subst l
      obtain ⟨free', hfree'⟩ := hslots'.page k (by simpa [hsize] using hk)
      obtain ⟨_, _, _, _, hcount⟩ := detached_fields ((htwice.trans hfinal).detached k)
      have hnonzero : ((OrderPool.updatePage k (fun p => { p with freeCount := p.freeCount + 1 })
          relisted).page k).freeCount ≠ 0 := by
        rw [hcount, page_updatePage_self hk]
        intro hzero
        have hlen := hgive.count
        simp only [Function.comp_apply, Page.giveSlot] at hzero
        rw [hzero] at hlen
        simp at hlen
      simp [hmem', hnonzero]
    · rw [page_updatePage_ne hlk, hothers l hlk, hcounts l hl,
        (detached_fields (hsame.detached l)).2.2.2.2, page_updatePage_ne hlk]
  · have hpos := List.length_pos_of_mem hmem
    have hle : (1 : UInt64) ≤ s.pool.liveOrderCount := by
      rw [UInt64.le_iff_toNat_le, h.count, UInt64.toNat_one]
      omega
    change (relisted.liveOrderCount - 1).toNat = _
    rw [hsame.liveOrderCount]
    change (s.pool.liveOrderCount - 1).toNat = _
    rw [UInt64.toNat_sub_of_le _ _ hle, h.count, UInt64.toNat_one, List.length_erase_of_mem hmem]
  · change relisted.firstPageWithFreeSlot ≠ none
    rw [hks'.first]
    cases ks' with
    | nil => simp at hmem'
    | cons x xs =>
      rw [List.headD_cons]
      intro hnone
      exact hks'.not_null (by simp [hnone])
  · simp [hsize]
  · exact hsame.pageIndex

end Release

section Reserve

variable {host : Host} {s : PoolState} {live : List OrderPtr}

/-- Creating pages ahead of time changes no live slot. -/
theorem createPages_spec (h : PoolOk s.pool live) (n : ℕ) :
    ∃ o pool, createPages host n s = (o, { s with pool := pool }) ∧ PoolOk pool live ∧
      o ≠ .diverges ∧ (o = .returns () → pool.pages.size = s.pool.pages.size + n) := by
  induction n generalizing s with
  | zero => exact ⟨_, s.pool, rfl, h, by simp, fun _ => rfl⟩
  | succ n ih =>
    by_cases hpage : PageRefused host s.pool
    · obtain ⟨e, hcreate⟩ := createPage_refused hpage
      exact ⟨_, s.pool, Proc.bind_throws _ hcreate, h, by simp, by simp⟩
    · obtain ⟨pool, hcreate, hok, _, hsize⟩ := createPage_spec h hpage
      obtain ⟨o, pool', hrun, hok', ho, hsize'⟩ := ih (s := { s with pool := pool }) hok
      refine ⟨o, pool', (Proc.bind_returns _ hcreate).trans hrun, hok', ho, fun hreturns => ?_⟩
      have htotal : pool'.pages.size = pool.pages.size + n := hsize' hreturns
      omega

/-- The number of pages that a reservation asks for; the sum wraps. -/
def pagesFor (orderCount : UInt64) : ℕ :=
  ((orderCount + UInt64.ofNat SlotsPerPage - 1) / UInt64.ofNat SlotsPerPage).toNat

theorem reserve_spec (h : PoolOk s.pool live) (orderCount : UInt64) :
    ∃ o pool, reserve host orderCount s = (o, { s with pool := pool }) ∧ PoolOk pool live ∧
      o ≠ .diverges ∧ (o = .returns () → pagesFor orderCount ≤ pool.pages.size) := by
  obtain ⟨o, pool, hrun, hok, hends, hsize⟩ :=
    @createPages_spec host s live h (pagesFor orderCount - s.pool.pages.size)
  refine ⟨o, pool, hrun, hok, hends, fun hreturns => ?_⟩
  have htotal := hsize hreturns
  omega

end Reserve

end Leka.PoolAsSet
