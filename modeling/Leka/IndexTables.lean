import Leka.OrderIndexing
import Leka.ProbeTable
import Mathlib.Data.Nat.Bitwise

/-!
The slot vector of the order index, read as a probe table. The masked index arithmetic
of the source walks the ring of slots, a probe ends at its key or at an empty slot, a
rehash copies exactly the entries there are, and a backward shift loses none.
-/

namespace Leka.IndexTables

open Procedures Orders OrderIndexing ProbeTable

/-- The home slot of an id in a table of `n` slots. -/
def home (hash : OrderId → UInt64) (n : ℕ) (id : OrderId) : ℕ := (hash id).toNat % n

def Slot.entry (slot : Slot) : Option (OrderId × OrderPtr) :=
  if slot.value = nullptr then none else some (slot.key, slot.value)

/-- The slot vector as a probe table. -/
def view (slots : Slots) (i : ℕ) : Option (OrderId × OrderPtr) := Slot.entry (slots.getD i {})

section Slots

variable {slots : Slots} {m : ℕ} {hash : OrderId → UInt64}

theorem view_slotAt (index : UInt64) :
    view slots index.toNat = Slot.entry (slotAt slots index) := rfl

theorem view_eq_none {index : UInt64} :
    view slots index.toNat = none ↔ (slotAt slots index).value = nullptr := by
  rw [view_slotAt, Slot.entry]
  split_ifs with hnull <;> simp [hnull]

theorem view_eq_some {index : UInt64} {key : OrderId} {value : OrderPtr}
    (h : view slots index.toNat = some (key, value)) :
    slotAt slots index = ⟨key, value⟩ ∧ value ≠ nullptr := by
  rw [view_slotAt, Slot.entry] at h
  split_ifs at h with hnull
  simp only [Option.some.injEq, Prod.mk.injEq] at h
  obtain ⟨rfl, rfl⟩ := h
  exact ⟨rfl, hnull⟩

theorem view_of_value_ne {index : UInt64} (h : (slotAt slots index).value ≠ nullptr) :
    view slots index.toNat = some ((slotAt slots index).key, (slotAt slots index).value) := by
  rw [view_slotAt, Slot.entry, if_neg h]

theorem view_set {i : ℕ} (hi : i < slots.size) (slot : Slot) :
    view (slots.setIfInBounds i slot) = Function.update (view slots) i (Slot.entry slot) := by
  funext j
  by_cases hji : j = i
  · subst j
    simp [view, hi]
  · rw [Function.update_of_ne hji]
    simp [view, Array.getElem?_setIfInBounds_ne (Ne.symm hji)]

theorem view_replicate (n i : ℕ) : view (Array.replicate n {}) i = none := by
  have hslot : (Array.replicate n ({} : Slot)).getD i {} = {} := by
    by_cases hi : i < n <;> simp [hi]
  rw [view, hslot]
  rfl

theorem size_toNat (hsize : slots.size = 2 ^ m) (hm : m < 64) :
    (size slots).toNat = 2 ^ m := by
  have hlt : 2 ^ m < 2 ^ 64 := Nat.pow_lt_pow_right (by omega) hm
  rw [size, hsize]
  exact UInt64.toNat_ofNat_of_lt' (by simpa [UInt64.size] using hlt)

/-- Masking with a power of two less one is the remainder. -/
theorem mask_toNat (hsize : slots.size = 2 ^ m) (hm : m < 64) (x : UInt64) :
    (x &&& (size slots - 1)).toNat = x.toNat % slots.size := by
  have hone : 1 ≤ 2 ^ m := Nat.one_le_two_pow
  have hs := size_toNat hsize hm
  have hle : (1 : UInt64) ≤ size slots := by
    rw [UInt64.le_iff_toNat_le, hs]
    exact hone
  rw [UInt64.toNat_and, UInt64.toNat_sub_of_le _ _ hle, hs, hsize, UInt64.toNat_one]
  exact Nat.and_two_pow_sub_one_eq_mod _ _

theorem indexFor_toNat (hsize : slots.size = 2 ^ m) (hm : m < 64) (id : OrderId) :
    (indexFor hash id (size slots)).toNat = home hash slots.size id :=
  mask_toNat hsize hm _

theorem nextIndex_toNat (hsize : slots.size = 2 ^ m) (hm : m < 64) {index : UInt64}
    (hi : index.toNat < slots.size) :
    (nextIndex slots index).toNat = after slots.size index.toNat := by
  have hdvd : 2 ^ m ∣ 2 ^ 64 := Nat.pow_dvd_pow 2 (by omega)
  rw [nextIndex, mask_toNat hsize hm, UInt64.toNat_add, UInt64.toNat_one, hsize,
    Nat.mod_mod_of_dvd _ hdvd]
  rw [hsize] at hi
  unfold after
  split_ifs with hlast
  · rw [hlast, Nat.mod_self]
  · exact Nat.mod_eq_of_lt (by omega)

theorem home_lt (hsize : slots.size = 2 ^ m) (id : OrderId) :
    home hash slots.size id < slots.size :=
  Nat.mod_lt _ (by rw [hsize]; exact Nat.two_pow_pos m)

/-- The cyclic test of the source compares distances from the hole. -/
theorem inCyclicRange_iff {n : ℕ} {k i j : UInt64} (hk : k.toNat < n) (hi : i.toNat < n)
    (hj : j.toNat < n) :
    inCyclicRange k i j = true ↔
      0 < gap n i.toNat k.toNat ∧ gap n i.toNat k.toNat ≤ gap n i.toNat j.toNat := by
  simp only [inCyclicRange, UInt64.le_iff_toNat_le, UInt64.lt_iff_toNat_lt, gt_iff_lt, gap,
    apply_ite (· = true), Bool.and_eq_true, Bool.or_eq_true, decide_eq_true_eq]
  split_ifs <;> omega

end Slots

section Probing

variable {slots : Slots} {m : ℕ} {hash : OrderId → UInt64} {id : OrderId}
  {leave : Slot → Bool}

/-- A probe ends at the slot of its key or at the first empty slot. -/
theorem probe_loop (hsize : slots.size = 2 ^ m) (hm : m < 64)
    (hleave : ∀ i key value, view slots i = some (key, value) →
      (leave ⟨key, value⟩ = true ↔ key = id)) {stop : ℕ} (hstop : stop < slots.size)
    (hempty : view slots stop = none) :
    ∀ (fuel : ℕ) (index : UInt64), index.toNat < slots.size →
      Passed slots.size (home hash slots.size) (view slots) id index.toNat →
      gap slots.size (home hash slots.size id) index.toNat ≤
        gap slots.size (home hash slots.size id) stop →
      gap slots.size (home hash slots.size id) stop <
        gap slots.size (home hash slots.size id) index.toNat + fuel →
      ∃ r, probe slots leave fuel index = some r ∧ r.toNat < slots.size ∧
        Passed slots.size (home hash slots.size) (view slots) id r.toNat ∧
        (view slots r.toNat = none ∨ ∃ value, view slots r.toNat = some (id, value)) := by
  have hhome : ∀ k, home hash slots.size k < slots.size := home_lt hsize
  intro fuel
  induction fuel with
  | zero =>
    intro index _ _ hle hfuel
    omega
  | succ fuel ih =>
    intro index hi hpassed hle hfuel
    unfold probe
    by_cases hnull : (slotAt slots index).value = nullptr
    · rw [if_pos hnull]
      exact ⟨index, rfl, hi, hpassed, Or.inl (view_eq_none.mpr hnull)⟩
    · have hfull := view_of_value_ne hnull
      have hkey := hleave _ _ _ hfull
      rw [if_neg hnull]
      by_cases hmatch : (slotAt slots index).key = id
      · rw [if_pos (hkey.mpr hmatch)]
        exact ⟨index, rfl, hi, hpassed, Or.inr ⟨_, by rw [← hmatch]; exact hfull⟩⟩
      · rw [if_neg (fun hl => hmatch (hkey.mp hl))]
        have hne : index.toNat ≠ stop := by
          intro heq
          rw [heq, hempty] at hfull
          simp at hfull
        have hlt : gap slots.size (home hash slots.size id) index.toNat <
            gap slots.size (home hash slots.size id) stop := by
          rcases Nat.lt_or_eq_of_le hle with hlt | heq
          · exact hlt
          · exact absurd (gap_inj (hhome id) hi hstop heq) hne
        have hwrap := after_ne (hhome id) hstop hlt
        have hnext := nextIndex_toNat hsize hm hi
        have hstep := gap_after (hhome id) hwrap
        apply ih
        · rw [hnext]
          exact after_lt hi
        · rw [hnext]
          exact hpassed.step hhome hi hwrap ⟨_, _, hfull, hmatch⟩
        · rw [hnext, hstep]
          omega
        · rw [hnext, hstep]
          omega

theorem probe_spec (hash : OrderId → UInt64) (id : OrderId) (leave : Slot → Bool)
    (hsize : slots.size = 2 ^ m) (hm : m < 64)
    (hleave : ∀ i key value, view slots i = some (key, value) →
      (leave ⟨key, value⟩ = true ↔ key = id))
    (hload : load slots.size (view slots) < slots.size) :
    ∃ r, probe slots leave slots.size (indexFor hash id (size slots)) = some r ∧
      r.toNat < slots.size ∧
      Passed slots.size (home hash slots.size) (view slots) id r.toNat ∧
      (view slots r.toNat = none ∨ ∃ value, view slots r.toNat = some (id, value)) := by
  obtain ⟨stop, hstop, hempty⟩ := exists_empty hload
  have hindex : (indexFor hash id (size slots)).toNat = home hash slots.size id :=
    indexFor_toNat hsize hm id
  apply probe_loop hsize hm hleave hstop hempty
  · rw [hindex]
    exact home_lt hsize id
  · rw [hindex]
    exact passed_home id
  · rw [hindex, gap_self]
    omega
  · rw [hindex, gap_self, Nat.zero_add]
    exact gap_lt hstop

end Probing

section Rehashing

variable {m : ℕ} {hash : OrderId → UInt64}

def EntryIn (l : List Slot) (id : OrderId) (order : OrderPtr) : Prop :=
  ∃ slot ∈ l, Slot.entry slot = some (id, order)

/-- No id is stored by two slots of the list. -/
def DistinctIds (l : List Slot) : Prop :=
  l.Pairwise fun a b => ∀ id v w, Slot.entry a = some (id, v) → Slot.entry b ≠ some (id, w)

theorem holds_iff_entryIn (slots : Slots) (id : OrderId) (order : OrderPtr) :
    Holds slots.size (view slots) id order ↔ EntryIn slots.toList id order := by
  constructor
  · intro h
    obtain ⟨i, hi, hentry⟩ := h
    refine ⟨slots[i], by simp, ?_⟩
    simpa [view, hi] using hentry
  · intro h
    obtain ⟨slot, hmem, hentry⟩ := h
    obtain ⟨i, hi, hslot⟩ := Array.mem_iff_getElem.mp (Array.mem_toList_iff.mp hmem)
    refine ⟨i, hi, ?_⟩
    rw [view, Array.getD_eq_getD_getElem?, Array.getElem?_eq_getElem hi, hslot]
    exact hentry

theorem Sound.distinctIds {home : OrderId → ℕ} {slots : Slots}
    (hs : Sound slots.size home (view slots)) : DistinctIds slots.toList := by
  apply List.pairwise_iff_getElem.mpr
  intro i j hi hj hlt id v w hv hw
  have hview : ∀ k (hk : k < slots.toList.length), view slots k = Slot.entry slots.toList[k] := by
    intro k hk
    have hk' : k < slots.size := by simpa using hk
    simp [view, hk']
  rw [← hview i hi] at hv
  rw [← hview j hj] at hw
  have heq := hs.unique i j id v w (by simpa using hi) (by simpa using hj) hv hw
  omega

/-- Copying slots of distinct ids into a table with room adds exactly their entries. -/
theorem rehash_spec (hash : OrderId → UInt64) (hm : m < 64) (rest : List Slot) : ∀ (grown : Slots),
    grown.size = 2 ^ m → Sound grown.size (home hash grown.size) (view grown) →
    load grown.size (view grown) + rest.length < grown.size → DistinctIds rest →
    (∀ id v w, EntryIn rest id v → ¬ Holds grown.size (view grown) id w) →
    ∃ grown', rehash hash grown rest = some grown' ∧ grown'.size = 2 ^ m ∧
      Sound grown'.size (home hash grown'.size) (view grown') ∧
      ∀ id v, Holds grown'.size (view grown') id v ↔
        Holds grown.size (view grown) id v ∨ EntryIn rest id v := by
  induction rest with
  | nil =>
    intro grown hsize hs _ _ _
    exact ⟨grown, rfl, hsize, hs, by simp [EntryIn]⟩
  | cons slot rest ih =>
    intro grown hsize hs hload hdistinct habsent
    obtain ⟨hfirst, hdistinct'⟩ := List.pairwise_cons.mp hdistinct
    simp only [List.length_cons] at hload
    unfold rehash
    by_cases hnull : slot.value = nullptr
    · have hentry : Slot.entry slot = none := by rw [Slot.entry, if_pos hnull]
      rw [if_pos hnull]
      obtain ⟨grown', hrun, hsize', hs', hholds⟩ := ih grown hsize hs (by omega) hdistinct'
        (fun id v w h => habsent id v w
          (by obtain ⟨s, hmem, he⟩ := h; exact ⟨s, by simp [hmem], he⟩))
      refine ⟨grown', hrun, hsize', hs', ?_⟩
      intro id v
      rw [hholds]
      simp [EntryIn, hentry]
    · have hentry : Slot.entry slot = some (slot.key, slot.value) := by
        rw [Slot.entry, if_neg hnull]
      have hnew : ∀ w, ¬ Holds grown.size (view grown) slot.key w :=
        fun w => habsent slot.key slot.value w ⟨slot, by simp, hentry⟩
      have hleave : ∀ i key value, view grown i = some (key, value) →
          ((fun _ : Slot => false) ⟨key, value⟩ = true ↔ key = slot.key) := by
        intro i key value hview
        have hi : i < grown.size := by
          by_contra hge
          simp [view, Slot.entry, Array.getElem?_eq_none (Nat.le_of_not_lt hge)] at hview
        simp only [Bool.false_eq_true, false_iff]
        intro heq
        exact hnew value ⟨i, hi, by rw [← heq]; exact hview⟩
      obtain ⟨r, hprobe, hr, hpassed, hempty | ⟨v, hv⟩⟩ :=
        probe_spec hash slot.key (fun _ => false) hsize hm hleave (by omega)
      · rw [if_neg hnull, hprobe]
        have hview := view_set hr slot
        rw [hentry] at hview
        have hsize' : (grown.setIfInBounds r.toNat slot).size = grown.size := by simp
        have hholds' : ∀ id v, Holds grown.size (view (grown.setIfInBounds r.toNat slot)) id v ↔
            (id = slot.key ∧ v = slot.value) ∨ Holds grown.size (view grown) id v := by
          intro id v
          rw [hview]
          exact holds_insert hr hempty
        have hs' := hs.insert (home_lt hsize) hr hpassed hempty slot.value
        have hload' := load_fill hr hempty (slot.key, slot.value)
        rw [← hview] at hs' hload'
        obtain ⟨grown', hrun, hsize'', hs'', hholds⟩ := ih (grown.setIfInBounds r.toNat slot)
          (hsize'.trans hsize) (by rwa [hsize']) (by rw [hsize']; omega) hdistinct' (by
            intro id v w hin hheld
            rw [hsize', hholds'] at hheld
            obtain ⟨s, hmem, he⟩ := hin
            rcases hheld with ⟨rfl, _⟩ | hheld
            · exact hfirst s hmem slot.key slot.value v hentry he
            · exact habsent id v w ⟨s, by simp [hmem], he⟩ hheld)
        refine ⟨grown', hrun, hsize'', hs'', ?_⟩
        intro id v
        rw [hholds, hsize', hholds']
        simp only [EntryIn, List.mem_cons, exists_eq_or_imp, hentry, Option.some.injEq,
          Prod.mk.injEq]
        constructor
        · rintro ((⟨rfl, rfl⟩ | h) | h)
          · exact Or.inr (Or.inl ⟨rfl, rfl⟩)
          · exact Or.inl h
          · exact Or.inr (Or.inr h)
        · rintro (h | ⟨rfl, rfl⟩ | h)
          · exact Or.inl (Or.inr h)
          · exact Or.inl (Or.inl ⟨rfl, rfl⟩)
          · exact Or.inr h
      · exact absurd ⟨r.toNat, hr, hv⟩ (hnew v)

end Rehashing

section Shifting

variable {m n stop : ℕ} {hash : OrderId → UInt64}

/-- The backward-shift loop reaches the next empty slot and leaves a sound table with the
same entries. -/
theorem shiftBack_spec (hash : OrderId → UInt64) (hsize : n = 2 ^ m) (hm : 4 ≤ m ∧ m < 64) :
    ∀ (fuel : ℕ) (vacated scan : UInt64) (slots : Slots), slots.size = n →
      vacated.toNat < n → scan.toNat < n →
      ProbeTable.Shifting n (home hash n) (view slots) vacated.toNat scan.toNat →
      Stop n (view slots) vacated.toNat scan.toNat stop →
      gap n scan.toNat stop < fuel →
      ∃ slots', shiftBack hash fuel vacated scan slots = some slots' ∧ slots'.size = n ∧
        Sound n (home hash n) (view slots') ∧ load n (view slots') = load n (view slots) ∧
        ∀ id v, Holds n (view slots') id v ↔ Holds n (view slots) id v := by
  have hn : 1 < n := by
    rw [hsize]
    exact Nat.one_lt_two_pow (by omega)
  have hhome : ∀ k, home hash n k < n := fun k => Nat.mod_lt _ (by omega)
  intro fuel
  induction fuel with
  | zero =>
    intro _ _ _ _ _ _ _ _ hfuel
    omega
  | succ fuel ih =>
    intro vacated scan slots hslots hv hscan hshift hstop hfuel
    have hsize' : slots.size = 2 ^ m := hslots.trans hsize
    unfold shiftBack
    by_cases hnull : (slotAt slots scan).value = nullptr
    · rw [if_pos hnull]
      exact ⟨slots, rfl, hslots, hshift.finish hhome hv hscan (view_eq_none.mpr hnull), rfl,
        fun _ _ => Iff.rfl⟩
    · rw [if_neg hnull]
      have hfull := view_of_value_ne hnull
      have hne : view slots scan.toNat ≠ none := by simp [hfull]
      have hnext : (nextIndex slots scan).toNat = after n scan.toNat := by
        rw [nextIndex_toNat hsize' hm.2 (by omega), hslots]
      have hnat : (indexFor hash (slotAt slots scan).key (size slots)).toNat =
          home hash n (slotAt slots scan).key := by
        rw [indexFor_toNat hsize' hm.2, hslots]
      have hrange := inCyclicRange_iff (n := n) (k := indexFor hash (slotAt slots scan).key
        (size slots)) (by rw [hnat]; exact hhome _) hv hscan
      rw [hnat] at hrange
      have hless := hstop.remaining_lt hscan hne
      by_cases hin : inCyclicRange (indexFor hash (slotAt slots scan).key (size slots))
          vacated scan = true
      · simp only [hin, Bool.not_true, Bool.false_eq_true, if_false]
        apply ih vacated (nextIndex slots scan) slots hslots hv
        · rw [hnext]
          exact after_lt hscan
        · rw [hnext]
          exact hshift.keep hhome hv hscan (hstop.after_ne hv hscan hne) hfull (hrange.mp hin)
        · rw [hnext]
          exact hstop.keep hv hscan hne
        · rw [hnext]
          omega
      · have hout := fun h => hin (hrange.mpr h)
        simp only [Bool.not_eq_true] at hin
        simp only [hin, Bool.not_false, if_true]
        have hview : view ((slots.setIfInBounds vacated.toNat (slotAt slots scan)).setIfInBounds
            scan.toNat {}) = Function.update (Function.update (view slots) vacated.toNat
              (some ((slotAt slots scan).key, (slotAt slots scan).value))) scan.toNat none := by
          rw [view_set (by simp; omega), view_set (by omega), ← view_slotAt, hfull]
          rfl
        obtain ⟨slots', hrun, hsize'', hs', hload, hholds⟩ := ih scan (nextIndex slots scan)
          ((slots.setIfInBounds vacated.toNat (slotAt slots scan)).setIfInBounds scan.toNat {})
          (by simp [hslots]) hscan (by rw [hnext]; exact after_lt hscan)
          (by rw [hview, hnext]; exact hshift.move hhome hv hscan hn hfull hout)
          (by rw [hview, hnext]; exact hstop.move hscan hn hne _) (by rw [hnext]; omega)
        refine ⟨slots', hrun, hsize'', hs', ?_, ?_⟩
        · rw [hload, hview, ← hfull]
          exact load_move hv hscan hshift.hole hne
        · intro id v
          rw [hholds, hview]
          exact holds_move hv hscan hshift.hole hfull

end Shifting

end Leka.IndexTables
