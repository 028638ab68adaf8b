import Leka.IndexTables

/-!
The order index as a finite map. Every operation keeps the slot vector a sound probe
table with a slot to spare, so that each loop ends, and acts on the entries held as the
corresponding operation of a partial map.
-/

namespace Leka.IndexAsMap

open Procedures Orders OrderIndexing ProbeTable IndexTables

section Doubles

variable {n : UInt64} {m : ℕ}

theorem toDouble_of_le (hn : n.toNat < 2 ^ 53) : toDouble n = n.toNat := by
  rw [toDouble, if_pos hn]

/-- Powers of two are doubles. -/
theorem toDouble_pow (hn : n.toNat = 2 ^ m) : toDouble n = 2 ^ m := by
  unfold toDouble
  split_ifs with hlt
  · exact hn
  · have hm : 53 ≤ m := by
      by_contra hge
      exact hlt (by rw [hn]; exact Nat.pow_lt_pow_right (by omega) (by omega))
    have hsplit : 2 ^ m = 2 ^ 52 * 2 ^ (m - 52) := by
      rw [← Nat.pow_add]
      congr 1
      omega
    have hpos : 0 < 2 ^ (m - 52) := Nat.two_pow_pos _
    have hhalf : 0 < 2 ^ (m - 52 - 1) := Nat.two_pow_pos _
    simp only [hn, Nat.log2_two_pow]
    rw [hsplit, Nat.mul_mod_left, Nat.mul_div_cancel _ hpos, if_neg (by omega)]

/-- Rounding never reaches half of the integer. -/
theorem lt_two_mul_toDouble (hn : 0 < n.toNat) : n.toNat < 2 * toDouble n := by
  unfold toDouble
  split_ifs with hlt
  · omega
  · have hne : n.toNat ≠ 0 := by omega
    have hlog : 2 ^ n.toNat.log2 ≤ n.toNat := Nat.log2_self_le hne
    have hle : 2 ^ (n.toNat.log2 - 52) ≤ n.toNat :=
      Nat.le_trans (Nat.pow_le_pow_right (by omega) (by omega)) hlog
    have hpos : 0 < 2 ^ (n.toNat.log2 - 52) := Nat.two_pow_pos _
    have hq : 1 ≤ n.toNat / 2 ^ (n.toNat.log2 - 52) := (Nat.one_le_div_iff hpos).mpr hle
    have hdiv := Nat.div_add_mod n.toNat (2 ^ (n.toNat.log2 - 52))
    have hmod := Nat.mod_lt n.toNat hpos
    have hmul : 2 ^ (n.toNat.log2 - 52) ≤
        n.toNat / 2 ^ (n.toNat.log2 - 52) * 2 ^ (n.toNat.log2 - 52) :=
      Nat.le_mul_of_pos_left _ hq
    rw [Nat.mul_comm] at hdiv
    simp only
    split_ifs
    · rw [Nat.add_mul]
      omega
    · omega

end Doubles

/-- The state of an index whose operations behave as those of a finite map. -/
structure IndexOk (hash : OrderId → UInt64) (index : OrderIndex) : Prop where
  shape : index.slots.size = 0 ∨ ∃ m, 4 ≤ m ∧ m ≤ 58 ∧ index.slots.size = 2 ^ m
  sound : Sound index.slots.size (home hash index.slots.size) (view index.slots)
  count : index.count.toNat = load index.slots.size (view index.slots)
  spare : index.slots.size ≠ 0 → load index.slots.size (view index.slots) < index.slots.size

/-- The index maps `id` to `order`. -/
def Maps (index : OrderIndex) (id : OrderId) (order : OrderPtr) : Prop :=
  Holds index.slots.size (view index.slots) id order

theorem indexOk_empty (hash : OrderId → UInt64) : IndexOk hash {} where
  shape := Or.inl rfl
  sound := ⟨fun _ _ _ hi => by simp at hi, fun _ _ _ _ _ hi => by simp at hi⟩
  count := rfl
  spare h := absurd rfl h

theorem not_maps_empty (id : OrderId) (order : OrderPtr) : ¬ Maps {} id order := by
  intro h
  obtain ⟨i, hi, _⟩ := h
  simp at hi

section Operations

variable {hash : OrderId → UInt64} {index index' : OrderIndex}

theorem Maps.ne_null {id : OrderId} {order : OrderPtr} (h : Maps index id order) :
    order ≠ nullptr := by
  obtain ⟨i, _, hentry⟩ := h
  intro hnull
  unfold view at hentry
  generalize index.slots.getD i {} = slot at hentry
  unfold Slot.entry at hentry
  split_ifs at hentry with hvalue
  simp only [Option.some.injEq, Prod.mk.injEq] at hentry
  exact hvalue (hentry.2.trans hnull)

theorem IndexOk.functional (hi : IndexOk hash index) {id : OrderId} {v w : OrderPtr}
    (hv : Maps index id v) (hw : Maps index id w) : v = w :=
  hi.sound.functional hv hw

/-- `size()` counts the ids that are mapped. -/
theorem IndexOk.ncard_ids (hi : IndexOk hash index) :
    {id | ∃ order, Maps index id order}.ncard = index.count.toNat := by
  rw [hi.count]
  exact ncard_keys hi.sound

theorem IndexOk.pow (hi : IndexOk hash index) (hne : index.slots ≠ #[]) :
    ∃ m, 4 ≤ m ∧ m ≤ 58 ∧ index.slots.size = 2 ^ m := by
  rcases hi.shape with hzero | hpow
  · exact absurd (Array.size_eq_zero_iff.mp hzero) hne
  · exact hpow

theorem IndexOk.exponent_le (hi : IndexOk hash index) {k : ℕ}
    (hsize : index.slots.size = 2 ^ k) : k ≤ 58 := by
  rcases hi.shape with hzero | ⟨m, _, hm, hsize'⟩
  · have hpos := Nat.two_pow_pos k
    omega
  · rw [hsize] at hsize'
    exact (Nat.pow_right_injective le_rfl hsize').trans_le hm

/-- Where a lookup ends: at the entry of `id`, or at an empty slot when there is none. -/
theorem IndexOk.probe_id (hi : IndexOk hash index) (hne : index.slots ≠ #[]) (id : OrderId) :
    ∃ r, probe index.slots (fun slot => slot.key = id) index.slots.size
        (indexFor hash id (size index.slots)) = some r ∧ r.toNat < index.slots.size ∧
      Passed index.slots.size (home hash index.slots.size) (view index.slots) id r.toNat ∧
      ((view index.slots r.toNat = none ∧ ∀ order, ¬ Maps index id order) ∨
        ∃ order, view index.slots r.toNat = some (id, order) ∧ Maps index id order) := by
  obtain ⟨m, hm, hm', hsize⟩ := hi.pow hne
  have hpos : index.slots.size ≠ 0 := by
    rw [hsize]
    exact Nat.ne_of_gt (Nat.two_pow_pos m)
  obtain ⟨r, hprobe, hr, hpassed, hempty | ⟨order, horder⟩⟩ :=
    probe_spec hash id (fun slot => slot.key = id) hsize (by omega) (by simp) (hi.spare hpos)
  · exact ⟨r, hprobe, hr, hpassed,
      Or.inl ⟨hempty, hi.sound.absent (home_lt hsize) hr hpassed hempty⟩⟩
  · exact ⟨r, hprobe, hr, hpassed, Or.inr ⟨order, horder, r.toNat, hr, horder⟩⟩

theorem ne_npos {r : UInt64} (hi : IndexOk hash index) (hr : r.toNat < index.slots.size) :
    r ≠ npos := by
  intro heq
  rw [heq] at hr
  rcases hi.shape with hzero | ⟨m, _, hm, hsize⟩
  · omega
  · have hle : 2 ^ m ≤ 2 ^ 58 := Nat.pow_le_pow_right (by omega) hm
    have hnpos : npos.toNat = 2 ^ 64 - 1 := rfl
    omega

/-- Lookup returns the mapped pointer, and null for an id that is not mapped. -/
theorem findOrder_spec (hi : IndexOk hash index) (id : OrderId) :
    ∃ found, findOrder hash id index = (.returns found, index) ∧
      ((found = nullptr ∧ ∀ order, ¬ Maps index id order) ∨ Maps index id found) := by
  by_cases hempty : index.slots = #[]
  · refine ⟨nullptr, by simp [findOrder, findSlot, hempty], Or.inl ⟨rfl, ?_⟩⟩
    intro order h
    obtain ⟨i, hi', _⟩ := h
    simp [hempty] at hi'
  · obtain ⟨r, hprobe, hr, _, hcase⟩ := hi.probe_id hempty id
    have hrun : findOrder hash id index = (.returns (slotAt index.slots r).value, index) := by
      simp [findOrder, findSlot, hempty, hprobe, ne_npos hi hr]
    refine ⟨_, hrun, ?_⟩
    rcases hcase with ⟨hnone, habsent⟩ | ⟨order, hview, hmaps⟩
    · exact Or.inl ⟨view_eq_none.mp hnone, habsent⟩
    · rw [(view_eq_some hview).1]
      exact Or.inr hmaps

/-- A table with the same entries, in a vector with room to spare, is again in order. -/
theorem IndexOk.with_slots (hi : IndexOk hash index) {slots : Slots} {m : ℕ} (hm : 4 ≤ m)
    (hm' : m ≤ 58) (hsize : slots.size = 2 ^ m)
    (hs : Sound slots.size (home hash slots.size) (view slots))
    (hholds : ∀ id v, Holds slots.size (view slots) id v ↔ Maps index id v)
    (hspare : load index.slots.size (view index.slots) < slots.size) :
    IndexOk hash { index with slots := slots } := by
  have hload : load slots.size (view slots) = load index.slots.size (view index.slots) := by
    rw [← ncard_keys hs, ← ncard_keys hi.sound]
    congr 1
    ext id
    exact exists_congr (fun v => hholds id v)
  exact ⟨Or.inr ⟨m, hm, hm', hsize⟩, hs, by rw [hload]; exact hi.count,
    fun _ => by rw [hload]; exact hspare⟩

/-- The number of slots the next insertion asks the allocator for, if any. -/
def growthRequest (index : OrderIndex) : Option UInt64 :=
  if index.slots.isEmpty then some InitialCapacity
  else if overLoaded (index.count + 1) (size index.slots) then some (size index.slots * 2)
  else none

/-- The vector implementation or the allocator does not grant `capacity` slots. -/
def Refuses (alloc : ℕ → Bool) (capacity : UInt64) : Prop :=
  maxSlots < capacity.toNat ∨ alloc capacity.toNat = false

theorem newSlots_eq (alloc : ℕ → Bool) (capacity : UInt64) (s : σ) :
    (¬ Refuses alloc capacity ∧ newSlots alloc capacity s =
        (.returns (Array.replicate capacity.toNat {}), s)) ∨
      (Refuses alloc capacity ∧ ∃ e, newSlots alloc capacity s = (.throws e, s)) := by
  unfold newSlots Refuses
  by_cases hmax : maxSlots < capacity.toNat
  · right
    exact ⟨Or.inl hmax, _, by simp [hmax]; rfl⟩
  · by_cases hgrant : alloc capacity.toNat
    · left
      exact ⟨by simp [hmax, hgrant], by simp [hmax, hgrant]⟩
    · right
      simp only [Bool.not_eq_true] at hgrant
      exact ⟨Or.inr hgrant, _, by simp [hmax, hgrant]; rfl⟩

theorem load_replicate (n : ℕ) : load n (view (Array.replicate n {})) = 0 := by
  simp [load, view_replicate]

theorem sound_replicate (n : ℕ) (home : OrderId → ℕ) :
    Sound n home (view (Array.replicate n {})) :=
  ⟨fun i _ _ _ h => by simp [view_replicate] at h, fun i _ _ _ _ _ _ h => by
    simp [view_replicate] at h⟩

/-- Rehashing into any larger table of a power of two keeps every entry. -/
theorem IndexOk.rehash_larger (hi : IndexOk hash index) {m : ℕ} (hm : 4 ≤ m) (hm' : m ≤ 58)
    (hlarger : index.slots.size < 2 ^ m) :
    ∃ grown, rehash hash (Array.replicate (2 ^ m) {}) index.slots.toList = some grown ∧
      grown.size = 2 ^ m ∧ IndexOk hash { index with slots := grown } ∧
      ∀ id v, Maps { index with slots := grown } id v ↔ Maps index id v := by
  have hrep : (Array.replicate (2 ^ m) ({} : Slot)).size = 2 ^ m := by simp
  obtain ⟨grown, hrun, hsize, hs, hholds⟩ := rehash_spec hash (m := m) (by omega)
    index.slots.toList (Array.replicate (2 ^ m) {}) hrep
    (by rw [hrep]; exact sound_replicate _ _)
    (by rw [hrep, load_replicate]; simpa using hlarger) (Sound.distinctIds hi.sound)
    (by
      intro id v w _ h
      obtain ⟨i, _, hview⟩ := h
      simp [view_replicate] at hview)
  have hsame : ∀ id v, Holds grown.size (view grown) id v ↔ Maps index id v := by
    intro id v
    rw [hholds, hrep, Maps, holds_iff_entryIn index.slots]
    constructor
    · intro h
      rcases h with ⟨i, _, hview⟩ | h
      · simp [view_replicate] at hview
      · exact h
    · exact Or.inr
  refine ⟨grown, hrun, hsize, hi.with_slots hm hm' hsize hs hsame ?_, hsame⟩
  have hle := load_le index.slots.size (view index.slots)
  omega

theorem size_mul_two {m : ℕ} (hsize : index.slots.size = 2 ^ m) (hm : m ≤ 58) :
    (size index.slots * 2).toNat = 2 ^ (m + 1) := by
  have hlt : 2 ^ (m + 1) < 2 ^ 64 := Nat.pow_lt_pow_right (by omega) (by omega)
  rw [UInt64.toNat_mul, size_toNat hsize (by omega), Nat.pow_succ]
  exact Nat.mod_eq_of_lt (by simpa [Nat.pow_succ] using hlt)

/-- Growth keeps every entry and leaves a slot to spare after one more insertion. -/
theorem growIfNeeded_spec (hi : IndexOk hash index) (alloc : ℕ → Bool) :
    (∃ c, growthRequest index = some c ∧ Refuses alloc c ∧
      ∃ e, growIfNeeded hash alloc index = (.throws e, index)) ∨
    ((∀ c, growthRequest index = some c → ¬ Refuses alloc c) ∧
      ∃ slots, growIfNeeded hash alloc index = (.returns (), { index with slots := slots }) ∧
        slots ≠ #[] ∧ IndexOk hash { index with slots := slots } ∧
        load slots.size (view slots) + 1 < slots.size ∧
        ∀ id v, Maps { index with slots := slots } id v ↔ Maps index id v) := by
  by_cases hempty : index.slots = #[]
  · have hrequest : growthRequest index = some InitialCapacity := by
      simp [growthRequest, hempty]
    rcases newSlots_eq alloc InitialCapacity index with ⟨hgrant, hnew⟩ | ⟨hrefuse, e, hnew⟩
    · right
      refine ⟨by simpa [hrequest] using hgrant, Array.replicate 16 {}, ?_, by simp, ?_⟩
      · simp only [growIfNeeded, Proc.get_bind_apply, hempty, Array.isEmpty_empty, if_true]
        rw [Proc.bind_returns _ hnew]
        rfl
      · have hcount : index.count.toNat = 0 := by
          rw [hi.count, hempty]
          rfl
        have hok : IndexOk hash { index with slots := Array.replicate 16 {} } := by
          refine ⟨Or.inr ⟨4, by omega, by omega, by simp⟩, by simpa using sound_replicate 16 _,
            ?_, ?_⟩
          · simp [hcount, load_replicate]
          · simp [load_replicate]
        refine ⟨hok, by simp [load_replicate], ?_⟩
        intro id v
        constructor
        · intro h
          obtain ⟨i, _, hview⟩ := h
          simp [view_replicate] at hview
        · intro h
          obtain ⟨i, hlt, _⟩ := h
          simp [hempty] at hlt
    · left
      refine ⟨InitialCapacity, hrequest, hrefuse, e, ?_⟩
      simp only [growIfNeeded, Proc.get_bind_apply, hempty, Array.isEmpty_empty, if_true]
      exact Proc.bind_throws _ hnew
  · obtain ⟨m, hm, hm', hsize⟩ := hi.pow hempty
    have hsizeNat := size_toNat hsize (by omega)
    have hpos : 0 < 2 ^ m := Nat.two_pow_pos m
    have hspare := hi.spare (by omega)
    by_cases hover : overLoaded (index.count + 1) (size index.slots) = true
    · have hrequest : growthRequest index = some (size index.slots * 2) := by
        simp [growthRequest, hempty, hover]
      rcases newSlots_eq alloc (size index.slots * 2) index with
        ⟨hgrant, hnew⟩ | ⟨hrefuse, e, hnew⟩
      · have hcap := size_mul_two hsize hm'
        rw [hcap] at hnew
        have hmax : m + 1 ≤ 58 := by
          by_contra hgt
          apply hgrant
          left
          have hm58 : m + 1 = 59 := by omega
          rw [hcap, hm58, maxSlots]
          omega
        obtain ⟨grown, hrun, hgrown, hok, hmaps⟩ :=
          hi.rehash_larger (m := m + 1) (by omega) hmax (by rw [hsize, Nat.pow_succ]; omega)
        right
        refine ⟨by simpa [hrequest] using hgrant, grown, ?_, ?_, hok, ?_, hmaps⟩
        · simp only [growIfNeeded, Proc.get_bind_apply, Array.isEmpty_iff, hempty, hover,
            Bool.not_true, Bool.false_eq_true, if_false]
          rw [Proc.bind_returns _ hnew, hrun]
          rfl
        · intro heq
          rw [heq] at hgrown
          have hpos' := Nat.two_pow_pos (m + 1)
          simp only [Array.size_empty] at hgrown
          omega
        · have hcount : index.count.toNat = load grown.size (view grown) := hok.count
          rw [← hcount, hi.count, hgrown, Nat.pow_succ]
          omega
      · left
        refine ⟨_, hrequest, hrefuse, e, ?_⟩
        simp only [growIfNeeded, Proc.get_bind_apply, Array.isEmpty_iff, hempty, hover,
          Bool.not_true, Bool.false_eq_true, if_false]
        exact Proc.bind_throws _ hnew
    · rw [Bool.not_eq_true] at hover
      have hrequest : growthRequest index = none := by simp [growthRequest, hempty, hover]
      right
      refine ⟨by simp [hrequest], index.slots, ?_, hempty, hi, ?_, fun _ _ => Iff.rfl⟩
      · simp [growIfNeeded, hempty, hover]
      · -- the load test passed for one more entry, and rounding loses less than half
        have hle : 2 ^ m ≤ 2 ^ 58 := Nat.pow_le_pow_right (by omega) hm'
        have hcount : (index.count + 1).toNat = index.count.toNat + 1 := by
          rw [UInt64.toNat_add, UInt64.toNat_one, hi.count]
          exact Nat.mod_eq_of_lt (by omega)
        have hfit : 2 * toDouble (index.count + 1) ≤ 2 ^ m := by
          rw [overLoaded, toDouble_pow hsizeNat, decide_eq_false_iff_not] at hover
          omega
        have hround := lt_two_mul_toDouble (n := index.count + 1) (by omega)
        rw [hcount, hi.count] at hround
        omega

/-- Insertion: null and mapped ids are refused, and otherwise exactly one entry is added. -/
theorem addOrder_spec (hi : IndexOk hash index) (alloc : ℕ → Bool) {order : OrderPtr}
    {key : OrderId} (hrun : addOrder hash alloc order key index = (o, index')) :
    IndexOk hash index' ∧
    ((order = nullptr ∧ o = .throws (.invalidArgument "Cannot add a null order") ∧
        index' = index) ∨
      (order ≠ nullptr ∧ (∃ c, growthRequest index = some c ∧ Refuses alloc c) ∧
        (∃ e, o = .throws e) ∧ index' = index) ∨
      (order ≠ nullptr ∧ (∀ c, growthRequest index = some c → ¬ Refuses alloc c) ∧
        (∃ v, Maps index key v) ∧
        o = .throws (.logicError "Order with the same OrderId already exists in the index") ∧
        ∀ id v, Maps index' id v ↔ Maps index id v) ∨
      (order ≠ nullptr ∧ (∀ c, growthRequest index = some c → ¬ Refuses alloc c) ∧
        (∀ v, ¬ Maps index key v) ∧ o = .returns () ∧
        ∀ id v, Maps index' id v ↔ (id = key ∧ v = order) ∨ Maps index id v)) := by
  by_cases hnull : order = nullptr
  · simp only [addOrder, hnull, if_true, Proc.throw_bind_apply, Prod.mk.injEq] at hrun
    obtain ⟨rfl, rfl⟩ := hrun
    exact ⟨hi, Or.inl ⟨hnull, rfl, rfl⟩⟩
  · simp only [addOrder, hnull, if_false] at hrun
    rcases growIfNeeded_spec hi alloc with
      ⟨c, hc, hrefuse, e, hgrow⟩ | ⟨hgrant, slots, hgrow, hne, hok, hroom, hmaps⟩
    · rw [Proc.bind_throws _ hgrow, Prod.mk.injEq] at hrun
      obtain ⟨rfl, rfl⟩ := hrun
      exact ⟨hi, Or.inr (Or.inl ⟨hnull, ⟨c, hc, hrefuse⟩, ⟨e, rfl⟩, rfl⟩)⟩
    · rw [Proc.bind_returns _ hgrow, Proc.get_bind_apply] at hrun
      obtain ⟨r, hprobe, hr, hpassed, hcase⟩ := hok.probe_id hne key
      simp only at hprobe hr hpassed hcase
      simp only [hprobe, whileLoop_some, Proc.pure_bind_apply] at hrun
      rcases hcase with ⟨hnone, habsent⟩ | ⟨v, hview, hmapped⟩
      · rw [if_neg (by simpa using view_eq_none.mp hnone), Proc.modify_apply,
          Prod.mk.injEq] at hrun
        obtain ⟨rfl, rfl⟩ := hrun
        have hview' := view_set hr ⟨key, order⟩
        rw [Slot.entry, if_neg (by simpa using hnull)] at hview'
        have hsize' : (slots.setIfInBounds r.toNat ⟨key, order⟩).size = slots.size := by simp
        have hshape := hok.shape
        obtain ⟨m, hm, hm', hsize⟩ := hok.pow hne
        have hle : 2 ^ m ≤ 2 ^ 58 := Nat.pow_le_pow_right (by omega) hm'
        simp only at hsize
        refine ⟨⟨?_, ?_, ?_, ?_⟩, Or.inr (Or.inr (Or.inr ⟨hnull, hgrant, ?_, rfl, ?_⟩))⟩
        · simpa using hshape
        · simp only [hsize', hview']
          exact hok.sound.insert (home_lt hsize) hr hpassed hnone order
        · simp only [hsize', hview', load_fill hr hnone]
          have hcount := hok.count
          simp only at hcount
          rw [UInt64.toNat_add, UInt64.toNat_one, hcount]
          exact Nat.mod_eq_of_lt (by omega)
        · simp only [hsize', hview', load_fill hr hnone]
          intro _
          exact hroom
        · intro v hv
          exact habsent v ((hmaps key v).mpr hv)
        · intro id v
          simp only [Maps, hsize', hview']
          rw [holds_insert hr hnone]
          exact or_congr Iff.rfl (hmaps id v)
      · obtain ⟨hslot, hv⟩ := view_eq_some hview
        rw [if_pos (by rw [hslot]; exact hv), Proc.throw_bind_apply, Prod.mk.injEq] at hrun
        obtain ⟨rfl, rfl⟩ := hrun
        exact ⟨hok, Or.inr (Or.inr (Or.inl
          ⟨hnull, hgrant, ⟨v, (hmaps key v).mp hmapped⟩, rfl, hmaps⟩))⟩

/-- Removal: exactly the entry that maps the order's id to the order is dropped. -/
theorem removeOrder_spec (hi : IndexOk hash index) {order : OrderPtr} {key : OrderId}
    (hrun : removeOrder hash order key index = (o, index')) :
    IndexOk hash index' ∧
    ((order = nullptr ∧ o = .throws (.invalidArgument "Cannot remove a null order") ∧
        index' = index) ∨
      (order ≠ nullptr ∧ (∀ v, ¬ Maps index key v) ∧
        o = .throws (.logicError "Order not found in the index") ∧ index' = index) ∨
      (order ≠ nullptr ∧ (∃ v, Maps index key v ∧ v ≠ order) ∧
        o = .throws (.logicError "Order pointer does not match indexed order") ∧
        index' = index) ∨
      (Maps index key order ∧ o = .returns () ∧ index'.slots.size = index.slots.size ∧
        index'.count = index.count - 1 ∧
        ∀ id v, Maps index' id v ↔ id ≠ key ∧ Maps index id v)) := by
  by_cases hnull : order = nullptr
  · simp only [removeOrder, hnull, if_true, Proc.throw_bind_apply, Prod.mk.injEq] at hrun
    obtain ⟨rfl, rfl⟩ := hrun
    exact ⟨hi, Or.inl ⟨hnull, rfl, rfl⟩⟩
  · simp only [removeOrder, hnull, if_false, Proc.get_bind_apply] at hrun
    by_cases hempty : index.slots = #[]
    · simp only [findSlot, hempty, Array.isEmpty_empty, if_true, whileLoop_some,
        Proc.pure_bind_apply, true_or, Proc.throw_bind_apply, Prod.mk.injEq] at hrun
      obtain ⟨rfl, rfl⟩ := hrun
      refine ⟨hi, Or.inr (Or.inl ⟨hnull, ?_, rfl, rfl⟩)⟩
      intro v h
      obtain ⟨i, hlt, _⟩ := h
      simp [hempty] at hlt
    · obtain ⟨r, hprobe, hr, hpassed, hcase⟩ := hi.probe_id hempty key
      have hnpos := ne_npos hi hr
      simp only [findSlot, Array.isEmpty_iff, hempty, if_false, hprobe, whileLoop_some,
        Proc.pure_bind_apply, hnpos, false_or] at hrun
      rcases hcase with ⟨hnone, habsent⟩ | ⟨v, hview, hmapped⟩
      · rw [if_pos (view_eq_none.mp hnone), Proc.throw_bind_apply, Prod.mk.injEq] at hrun
        obtain ⟨rfl, rfl⟩ := hrun
        exact ⟨hi, Or.inr (Or.inl ⟨hnull, habsent, rfl, rfl⟩)⟩
      · obtain ⟨hslot, hv⟩ := view_eq_some hview
        rw [if_neg (by rw [hslot]; exact hv), hslot] at hrun
        by_cases hother : v ≠ order
        · rw [if_pos hother, Proc.throw_bind_apply, Prod.mk.injEq] at hrun
          obtain ⟨rfl, rfl⟩ := hrun
          exact ⟨hi, Or.inr (Or.inr (Or.inl ⟨hnull, ⟨v, hmapped, hother⟩, rfl, rfl⟩))⟩
        · rw [if_neg hother] at hrun
          simp only [ne_eq, not_not] at hother
          subst v
          obtain ⟨m, hm, hm', hsize⟩ := hi.pow hempty
          have hn : 1 < index.slots.size := by
            rw [hsize]
            exact Nat.one_lt_two_pow (by omega)
          have hcleared : (index.slots.setIfInBounds r.toNat {}).size = index.slots.size := by
            simp
          have hview' : view (index.slots.setIfInBounds r.toNat {}) =
              Function.update (view index.slots) r.toNat none := view_set hr {}
          have hfull : view index.slots r.toNat ≠ none := by simp [hview]
          have hload := load_clear hr hfull
          obtain ⟨stop, hstop, hstopEmpty⟩ := exists_empty (hi.spare (by omega))
          have hstopNe : stop ≠ r.toNat := by
            intro heq
            rw [heq] at hstopEmpty
            exact hfull hstopEmpty
          have hnext : (nextIndex (index.slots.setIfInBounds r.toNat {}) r).toNat =
              after index.slots.size r.toNat := by
            rw [nextIndex_toNat (hcleared.trans hsize) (by omega) (by rw [hcleared]; exact hr),
              hcleared]
          obtain ⟨slots, hshift, hsize', hs', hload', hholds⟩ :=
            shiftBack_spec hash (n := index.slots.size) hsize ⟨hm, by omega⟩ index.slots.size r
            (nextIndex (index.slots.setIfInBounds r.toNat {}) r)
            (index.slots.setIfInBounds r.toNat {}) hcleared hr
            (by rw [hnext]; exact after_lt hr)
            (by rw [hview', hnext]; exact hi.sound.clear hr hn)
            (by
              rw [hview', hnext]
              exact ⟨hstop, by rw [Function.update_of_ne hstopNe, hstopEmpty], hstopNe,
                by rw [gap_after_self hn]; exact gap_pos hr (Ne.symm hstopNe)⟩)
            (gap_lt hstop)
          rw [hcleared, hshift, whileLoop_some, Proc.pure_bind_apply, Proc.modify_apply,
            Prod.mk.injEq] at hrun
          obtain ⟨rfl, rfl⟩ := hrun
          have hmaps : ∀ id w, Holds index.slots.size (view slots) id w ↔
              id ≠ key ∧ Maps index id w := by
            intro id w
            rw [hholds, hview']
            exact holds_clear hi.sound hr hview
          have hloadPred : load index.slots.size (view slots) + 1 =
              load index.slots.size (view index.slots) := by
            rw [hload', hview', hload]
          have hcount := hi.count
          have hspare := hi.spare (by omega)
          refine ⟨⟨?_, ?_, ?_, ?_⟩, Or.inr (Or.inr (Or.inr ⟨hmapped, rfl, hsize', rfl, ?_⟩))⟩
          · exact Or.inr ⟨m, hm, hm', hsize'.trans hsize⟩
          · simpa only [hsize'] using hs'
          · have hle : (1 : UInt64) ≤ index.count := by
              rw [UInt64.le_iff_toNat_le, UInt64.toNat_one]
              omega
            simp only [hsize']
            rw [UInt64.toNat_sub_of_le _ _ hle, UInt64.toNat_one]
            omega
          · intro _
            simp only [hsize']
            omega
          · intro id w
            simp only [Maps, hsize']
            exact hmaps id w

theorem doubleUntil_zero {orderCount : UInt64} (hn : 0 < orderCount.toNat) (fuel : ℕ) :
    doubleUntil orderCount fuel 0 = none := by
  have hover : overLoaded orderCount 0 = true := by
    have hround := lt_two_mul_toDouble hn
    simp only [overLoaded, decide_eq_true_eq]
    rw [toDouble_of_le (n := 0) (by simp)]
    simp only [UInt64.toNat_zero]
    omega
  induction fuel with
  | zero => rfl
  | succ fuel ih =>
    unfold doubleUntil
    rw [if_pos hover, UInt64.zero_mul, ih]

theorem mul_two_toNat {capacity : UInt64} {m : ℕ} (hc : capacity.toNat = 2 ^ m) (hm : m < 63) :
    (capacity * 2).toNat = 2 ^ (m + 1) := by
  have hlt : 2 ^ (m + 1) < 2 ^ 64 := Nat.pow_lt_pow_right (by omega) (by omega)
  rw [UInt64.toNat_mul, hc, Nat.pow_succ]
  exact Nat.mod_eq_of_lt (by simpa [Nat.pow_succ] using hlt)

/-- A capacity that the doubling loop settles on is the first power of two that is large
enough, from the one it started from on. -/
theorem doubleUntil_pow {orderCount : UInt64} (fuel : ℕ) :
    ∀ (capacity capacity' : UInt64) (m : ℕ), capacity.toNat = 2 ^ m → m < 64 →
      doubleUntil orderCount fuel capacity = some capacity' →
      ∃ k, m ≤ k ∧ k < 64 ∧ capacity'.toNat = 2 ^ k ∧ 2 * toDouble orderCount ≤ 2 ^ k ∧
        (k = m ∨ 2 ^ (k - 1) < 2 * toDouble orderCount) := by
  induction fuel with
  | zero =>
    intro _ _ _ _ _ h
    simp [doubleUntil] at h
  | succ fuel ih =>
    intro capacity capacity' m hc hm h
    unfold doubleUntil at h
    split_ifs at h with hover
    · rw [overLoaded, toDouble_pow hc, decide_eq_true_eq] at hover
      by_cases hlast : m < 63
      · obtain ⟨k, hk, hk', hcap, henough, hfirst⟩ :=
          ih _ capacity' _ (mul_two_toNat hc hlast) (by omega) h
        refine ⟨k, by omega, hk', hcap, henough, .inr ?_⟩
        rcases hfirst with rfl | hlt
        · exact hover
        · exact hlt
      · -- doubling 2 ^ 63 wraps to zero, which is never enough
        have hm63 : m = 63 := by omega
        have hzero : capacity * 2 = 0 := by
          apply UInt64.toNat_inj.mp
          rw [UInt64.toNat_mul, hc, hm63]
          rfl
        have hpos : 0 < orderCount.toNat := by
          by_contra hle
          have hcount : orderCount = 0 := by
            apply UInt64.toNat_inj.mp
            rw [UInt64.toNat_zero]
            omega
          rw [hcount, toDouble_of_le (n := 0) (by simp)] at hover
          simp at hover
        rw [hzero, doubleUntil_zero hpos] at h
        simp at h
    · rw [overLoaded, toDouble_pow hc, decide_eq_true_eq, not_lt] at hover
      simp only [Option.some.injEq] at h
      exact ⟨m, le_rfl, hm, by rw [← h]; exact hc, hover, .inl rfl⟩

/-- The doubling loop ends when some power of two below the wrap is large enough. -/
theorem doubleUntil_terminates {orderCount : UInt64} {K : ℕ} (hK : K < 64)
    (hn : 2 * toDouble orderCount ≤ 2 ^ K) (fuel : ℕ) :
    ∀ (capacity : UInt64) (m : ℕ), capacity.toNat = 2 ^ m → m < 64 → 0 < fuel →
      (m ≤ K → K < m + fuel) → ∃ capacity', doubleUntil orderCount fuel capacity =
        some capacity' := by
  induction fuel with
  | zero =>
    intro _ _ _ _ hfuel
    omega
  | succ fuel ih =>
    intro capacity m hc hm _ hroom
    unfold doubleUntil
    split_ifs with hover
    · have hlt : m < K := by
        by_contra hge
        have hle : 2 ^ K ≤ 2 ^ m := Nat.pow_le_pow_right (by omega) (by omega)
        rw [overLoaded, toDouble_pow hc, decide_eq_true_eq] at hover
        omega
      have hfuel := hroom (by omega)
      exact ih _ _ (mul_two_toNat hc (by omega)) (by omega) (by omega) (by omega)
    · exact ⟨capacity, rfl⟩

/-- Integers up to `2 ^ 53` are doubles. -/
theorem toDouble_small {n : UInt64} (hn : n.toNat ≤ 2 ^ 53) : toDouble n = n.toNat := by
  rcases Nat.lt_or_eq_of_le hn with hlt | heq
  · exact toDouble_of_le hlt
  · rw [toDouble_pow heq, heq]

/-- The number of slots that reserving for `orderCount` orders asks for, if any. -/
def reserveRequest (index : OrderIndex) (orderCount : UInt64) : Option UInt64 :=
  match doubleUntil orderCount 65
    (if index.slots.isEmpty then InitialCapacity else size index.slots) with
  | none => none
  | some capacity =>
    if !index.slots.isEmpty && capacity ≤ size index.slots then none else some capacity

/-- The capacity that the doubling starts from. -/
theorem IndexOk.start (hi : IndexOk hash index) : ∃ m, 4 ≤ m ∧ m ≤ 58 ∧
    (if index.slots.isEmpty then InitialCapacity else size index.slots).toNat = 2 ^ m := by
  by_cases hempty : index.slots = #[]
  · exact ⟨4, le_rfl, by omega, by simp [hempty]; rfl⟩
  · obtain ⟨m, hm, hm', hsize⟩ := hi.pow hempty
    exact ⟨m, hm, hm', by simpa [hempty] using size_toNat hsize (by omega)⟩

/-- The ways in which reserving can end: the doubling goes on for ever, the table is large
enough, memory is refused, or the entries are copied into a larger table. -/
theorem reserve_cases (hi : IndexOk hash index) (alloc : ℕ → Bool) (orderCount : UInt64) :
    (doubleUntil orderCount 65
        (if index.slots.isEmpty then InitialCapacity else size index.slots) = none ∧
      reserve hash alloc orderCount index = (.diverges, index)) ∨
    ∃ k, 2 * toDouble orderCount ≤ 2 ^ k ∧ (k ≤ 4 ∨ 2 ^ (k - 1) < 2 * toDouble orderCount ∨
        index.slots.size = 2 ^ k) ∧
      ((reserveRequest index orderCount = none ∧ index.slots.size = 2 ^ k ∧
          reserve hash alloc orderCount index = (.returns (), index)) ∨
        ∃ c : UInt64, c.toNat = 2 ^ k ∧ reserveRequest index orderCount = some c ∧
          ((Refuses alloc c ∧ ∃ e, reserve hash alloc orderCount index = (.throws e, index)) ∨
            (¬ Refuses alloc c ∧ ∃ grown, reserve hash alloc orderCount index =
                (.returns (), { index with slots := grown }) ∧ grown.size = 2 ^ k ∧
              index.slots.size < 2 ^ k ∧ IndexOk hash { index with slots := grown } ∧
              ∀ id v, Maps { index with slots := grown } id v ↔ Maps index id v))) := by
  obtain ⟨m, hm, hm', hstart⟩ := hi.start
  simp only [reserve, Proc.get_bind_apply]
  cases hdouble : doubleUntil orderCount 65
      (if index.slots.isEmpty then InitialCapacity else size index.slots) with
  | none =>
    rw [whileLoop_none, Proc.bind_diverges _ (Proc.diverge_apply _)]
    exact .inl ⟨rfl, rfl⟩
  | some capacity =>
    obtain ⟨k, hk, hk', hcap, henough, hfirst⟩ :=
      doubleUntil_pow 65 _ capacity m hstart (by omega) hdouble
    have hsizes : index.slots ≠ #[] →
        index.slots.size = 2 ^ m ∧ (size index.slots).toNat = 2 ^ m := by
      intro hempty
      obtain ⟨j, hj, hj', hsize⟩ := hi.pow hempty
      have hsame := size_toNat hsize (by omega)
      simp only [Array.isEmpty_iff, hempty, if_false] at hstart
      exact ⟨hsize.trans (hsame.symm.trans hstart), hstart⟩
    have hminimal : k ≤ 4 ∨ 2 ^ (k - 1) < 2 * toDouble orderCount ∨ index.slots.size = 2 ^ k := by
      rcases hfirst with rfl | hlt
      · by_cases hempty : index.slots = #[]
        · rw [hempty] at hstart
          have hfour : (2 : ℕ) ^ 4 = 2 ^ k := hstart
          exact .inl (Nat.pow_right_injective le_rfl hfour).ge
        · exact .inr (.inr (hsizes hempty).1)
      · exact .inr (.inl hlt)
    refine .inr ⟨k, henough, hminimal, ?_⟩
    rw [whileLoop_some, Proc.pure_bind_apply]
    by_cases hkeep : (!index.slots.isEmpty && capacity ≤ size index.slots) = true
    · have hrequest : reserveRequest index orderCount = none := by
        simp only [reserveRequest, hdouble, if_pos hkeep]
      rw [if_pos hkeep, Proc.pure_apply]
      simp only [Bool.and_eq_true, Bool.not_eq_true', decide_eq_true_eq] at hkeep
      obtain ⟨hempty, hle⟩ := hkeep
      have hne : index.slots ≠ #[] := by
        intro heq
        rw [heq] at hempty
        simp at hempty
      obtain ⟨hsize, hsize'⟩ := hsizes hne
      rw [UInt64.le_iff_toNat_le, hcap, hsize'] at hle
      have heq : k = m := le_antisymm ((Nat.pow_le_pow_iff_right (by omega)).mp hle) hk
      exact .inl ⟨hrequest, by rw [hsize, heq], rfl⟩
    · have hrequest : reserveRequest index orderCount = some capacity := by
        simp only [reserveRequest, hdouble, if_neg hkeep]
      rw [if_neg hkeep]
      refine .inr ⟨capacity, hcap, hrequest, ?_⟩
      rcases newSlots_eq alloc capacity index with ⟨hgrant, hnew⟩ | ⟨hrefuse, e, hnew⟩
      · have hk58 : k ≤ 58 := by
          by_contra hgt
          apply hgrant
          left
          have hle : 2 ^ 59 ≤ 2 ^ k := Nat.pow_le_pow_right (by omega) (by omega)
          rw [hcap, maxSlots]
          omega
        have hlarger : index.slots.size < 2 ^ k := by
          by_cases hempty : index.slots = #[]
          · rw [hempty]
            exact Nat.two_pow_pos k
          · obtain ⟨hsize, hsize'⟩ := hsizes hempty
            simpa [hempty, UInt64.lt_iff_toNat_lt, hcap, hsize', hsize] using hkeep
        obtain ⟨grown, hrehash, hsize, hok, hmaps⟩ :=
          hi.rehash_larger (Nat.le_trans hm hk) hk58 hlarger
        rw [Proc.bind_returns _ hnew, hcap, hrehash, whileLoop_some, Proc.pure_bind_apply,
          Proc.modify_apply]
        exact .inr ⟨hgrant, grown, rfl, hsize, hlarger, hok, hmaps⟩
      · rw [Proc.bind_throws _ hnew]
        exact .inl ⟨hrefuse, e, rfl⟩

/-- Reserving changes no entry; it throws exactly when it is refused memory. -/
theorem reserve_spec (hi : IndexOk hash index) (alloc : ℕ → Bool) {orderCount : UInt64}
    (hrun : reserve hash alloc orderCount index = (o, index')) :
    IndexOk hash index' ∧ (∀ id v, Maps index' id v ↔ Maps index id v) ∧
      index'.count = index.count ∧
      ((∃ e, o = .throws e) ↔
        ∃ c, reserveRequest index orderCount = some c ∧ Refuses alloc c) ∧
      (orderCount.toNat ≤ 2 ^ 53 → o ≠ .diverges) := by
  rcases reserve_cases hi alloc orderCount with ⟨hdouble, hends⟩ |
    ⟨k, _, _, ⟨hrequest, _, hends⟩ | ⟨c, hc, hrequest, ⟨hrefuse, e, hends⟩ |
      ⟨hgrant, grown, hends, _, _, hok, hmaps⟩⟩⟩
  · obtain ⟨rfl, rfl⟩ : o = .diverges ∧ index' = index := Prod.ext_iff.mp (hrun.symm.trans hends)
    have hrequest : reserveRequest index' orderCount = none := by
      simp only [reserveRequest, hdouble]
    refine ⟨hi, fun _ _ => Iff.rfl, rfl, by simp [hrequest], fun hn => ?_⟩
    obtain ⟨m, _, _, hstart⟩ := hi.start
    have henough : 2 * toDouble orderCount ≤ 2 ^ 54 := by
      rw [toDouble_small hn]
      omega
    obtain ⟨c, hc⟩ := doubleUntil_terminates (by omega) henough 65 _ m hstart (by omega) (by omega)
      (by omega)
    rw [hdouble] at hc
    simp at hc
  · obtain ⟨rfl, rfl⟩ : o = .returns () ∧ index' = index := Prod.ext_iff.mp (hrun.symm.trans hends)
    exact ⟨hi, fun _ _ => Iff.rfl, rfl, by simp [hrequest], by simp⟩
  · obtain ⟨rfl, rfl⟩ : o = .throws e ∧ index' = index := Prod.ext_iff.mp (hrun.symm.trans hends)
    exact ⟨hi, fun _ _ => Iff.rfl, rfl, by simp [hrequest, hrefuse], by simp⟩
  · obtain ⟨rfl, rfl⟩ : o = .returns () ∧ index' = _ := Prod.ext_iff.mp (hrun.symm.trans hends)
    exact ⟨hok, hmaps, rfl, by simp [hrequest, hgrant], by simp⟩

end Operations

inductive IndexCall where
  | addOrder (order : OrderPtr) (id : OrderId)
  | removeOrder (order : OrderPtr) (id : OrderId)
  | findOrder (id : OrderId)
  | reserve (orderCount : UInt64)

/-- Runs one call; only a lookup returns a pointer. -/
def IndexCall.run (hash : OrderId → UInt64) (alloc : ℕ → Bool) :
    IndexCall → Proc StdException OrderIndex OrderPtr
  | .addOrder order id => do
    OrderIndexing.addOrder hash alloc order id
    return nullptr
  | .removeOrder order id => do
    OrderIndexing.removeOrder hash order id
    return nullptr
  | .findOrder id => OrderIndexing.findOrder hash id
  | .reserve orderCount => do
    OrderIndexing.reserve hash alloc orderCount
    return nullptr

/-- Reserve arguments stay within the integers that doubles represent exactly. -/
def IndexCall.Small : IndexCall → Prop
  | .reserve orderCount => orderCount.toNat ≤ 2 ^ 53
  | _ => True

/-- What a call does to a mathematical partial map: a returning insertion maps its id, a
returning removal unmaps it, and nothing else changes anything. -/
def IndexCall.onMap (m : OrderId → Option OrderPtr) :
    IndexCall → Outcome StdException OrderPtr → OrderId → Option OrderPtr
  | .addOrder order id, .returns _ => Function.update m id (some order)
  | .removeOrder _ id, .returns _ => Function.update m id none
  | _, _ => m

/-- The pairs of an index and a partial map that finite call sequences reach from the
empty index and the empty map. Each call has an allocator of its own. -/
inductive IndexRun (hash : OrderId → UInt64) : OrderIndex → (OrderId → Option OrderPtr) → Prop
  | empty : IndexRun hash {} (fun _ => none)
  | call {index : OrderIndex} {m : OrderId → Option OrderPtr} (alloc : ℕ → Bool)
      (c : IndexCall) (hc : c.Small) (h : IndexRun hash index m) :
      IndexRun hash (c.run hash alloc index).2 (c.onMap m (c.run hash alloc index).1)

/-- The index is in order and its entries are those of the map. -/
structure Agrees (hash : OrderId → UInt64) (index : OrderIndex)
    (m : OrderId → Option OrderPtr) : Prop where
  ok : IndexOk hash index
  maps : ∀ id order, Maps index id order ↔ m id = some order

/-- The call asks for memory that it is refused. -/
def IndexCall.OutOfMemory (alloc : ℕ → Bool) (index : OrderIndex) : IndexCall → Prop
  | .addOrder order _ =>
    order ≠ nullptr ∧ ∃ capacity, growthRequest index = some capacity ∧ Refuses alloc capacity
  | .reserve orderCount =>
    ∃ capacity, reserveRequest index orderCount = some capacity ∧ Refuses alloc capacity
  | _ => False

/-- When the finite map rejects a call. -/
def IndexCall.Rejected (m : OrderId → Option OrderPtr) : IndexCall → Prop
  | .addOrder order id => order = nullptr ∨ m id ≠ none
  | .removeOrder order id => order = nullptr ∨ m id ≠ some order
  | _ => False

section Calls

variable {hash : OrderId → UInt64} {index : OrderIndex} {m : OrderId → Option OrderPtr}

theorem Agrees.lookup (h : Agrees hash index m) (id : OrderId) :
    OrderIndexing.findOrder hash id index = (.returns ((m id).getD nullptr), index) := by
  obtain ⟨found, hrun, hfound⟩ := findOrder_spec h.ok id
  rw [hrun]
  rcases hfound with ⟨rfl, habsent⟩ | hmaps
  · cases hm : m id with
    | none => rfl
    | some order => exact absurd ((h.maps id order).mpr hm) (habsent order)
  · rw [(h.maps id found).mp hmaps]
    rfl

theorem Agrees.size (h : Agrees hash index m) :
    {id | m id ≠ none}.ncard = index.count.toNat := by
  rw [← h.ok.ncard_ids]
  congr 1
  ext id
  simp only [Set.mem_ofPred_eq, h.maps, Option.ne_none_iff_exists']

/-- Adding one entry to the index adds it to the map. -/
theorem Agrees.add (h : Agrees hash index m) {index' : OrderIndex} {id : OrderId}
    {order : OrderPtr} (hok : IndexOk hash index') (hnew : m id = none)
    (hmaps : ∀ id' v, Maps index' id' v ↔ (id' = id ∧ v = order) ∨ Maps index id' v) :
    Agrees hash index' (Function.update m id (some order)) where
  ok := hok
  maps id' v := by
    rw [hmaps, h.maps]
    by_cases heq : id' = id
    · subst id'
      simp [hnew, eq_comm]
    · simp [heq]

theorem Agrees.remove (h : Agrees hash index m) {index' : OrderIndex} {id : OrderId}
    (hok : IndexOk hash index')
    (hmaps : ∀ id' v, Maps index' id' v ↔ id' ≠ id ∧ Maps index id' v) :
    Agrees hash index' (Function.update m id none) where
  ok := hok
  maps id' v := by
    rw [hmaps, h.maps]
    by_cases heq : id' = id
    · subst id'
      simp
    · simp [heq]

theorem Agrees.same (h : Agrees hash index m) {index' : OrderIndex}
    (hok : IndexOk hash index') (hmaps : ∀ id v, Maps index' id v ↔ Maps index id v) :
    Agrees hash index' m where
  ok := hok
  maps id v := (hmaps id v).trans (h.maps id v)

/-- What one call does, whatever the table looks like. -/
theorem Agrees.call (h : Agrees hash index m) (alloc : ℕ → Bool) (c : IndexCall)
    (hc : c.Small) :
    Agrees hash (c.run hash alloc index).2 (c.onMap m (c.run hash alloc index).1) ∧
      (c.run hash alloc index).1 ≠ .diverges ∧
      ((∃ e, (c.run hash alloc index).1 = .throws e) ↔
        c.Rejected m ∨ c.OutOfMemory alloc index) := by
  cases c with
  | addOrder order id =>
    obtain ⟨o, index', hrun⟩ : ∃ o index', OrderIndexing.addOrder hash alloc order id index =
      (o, index') := ⟨_, _, rfl⟩
    have hmapped : (∃ v, Maps index id v) ↔ m id ≠ none := by
      simp only [h.maps, Option.ne_none_iff_exists']
    obtain ⟨hok, hcase⟩ := addOrder_spec h.ok alloc hrun
    rcases hcase with ⟨hnull, rfl, rfl⟩ | ⟨hne, hrefuse, ⟨e, rfl⟩, rfl⟩ |
      ⟨hne, hgrant, hdup, rfl, hmaps⟩ | ⟨hne, hgrant, hnew, rfl, hmaps⟩
    · simp only [IndexCall.run, Proc.bind_throws _ hrun, IndexCall.onMap]
      exact ⟨h, by simp, by simp [IndexCall.Rejected, hnull]⟩
    · simp only [IndexCall.run, Proc.bind_throws _ hrun, IndexCall.onMap]
      exact ⟨h, by simp, by simp [IndexCall.OutOfMemory, hne, hrefuse]⟩
    · simp only [IndexCall.run, Proc.bind_throws _ hrun, IndexCall.onMap]
      exact ⟨h.same hok hmaps, by simp, by simp [IndexCall.Rejected, hmapped.mp hdup]⟩
    · have hnone : m id = none := by
        by_contra hsome
        obtain ⟨v, hv⟩ := hmapped.mpr hsome
        exact hnew v hv
      simp only [IndexCall.run, Proc.bind_returns _ hrun, Proc.pure_apply, IndexCall.onMap]
      refine ⟨h.add hok hnone hmaps, by simp, ?_⟩
      simp only [IndexCall.Rejected, IndexCall.OutOfMemory, hne, hnone]
      simpa [hne] using hgrant
  | removeOrder order id =>
    obtain ⟨o, index', hrun⟩ : ∃ o index', OrderIndexing.removeOrder hash order id index =
      (o, index') := ⟨_, _, rfl⟩
    obtain ⟨hok, hcase⟩ := removeOrder_spec h.ok hrun
    rcases hcase with ⟨hnull, rfl, rfl⟩ | ⟨_, habsent, rfl, rfl⟩ |
      ⟨_, ⟨v, hv, hother⟩, rfl, rfl⟩ | ⟨hmapped, rfl, _, _, hmaps⟩
    · simp only [IndexCall.run, Proc.bind_throws _ hrun, IndexCall.onMap]
      exact ⟨h, by simp, by simp [IndexCall.Rejected, hnull]⟩
    · simp only [IndexCall.run, Proc.bind_throws _ hrun, IndexCall.onMap]
      have hne : m id ≠ some order := fun heq => habsent order ((h.maps id order).mpr heq)
      exact ⟨h, by simp, by simp [IndexCall.Rejected, hne]⟩
    · simp only [IndexCall.run, Proc.bind_throws _ hrun, IndexCall.onMap]
      have hv' := (h.maps id v).mp hv
      exact ⟨h, by simp, by simp [IndexCall.Rejected, hv', hother]⟩
    · simp only [IndexCall.run, Proc.bind_returns _ hrun, Proc.pure_apply, IndexCall.onMap]
      refine ⟨h.remove hok hmaps, by simp, ?_⟩
      simp [IndexCall.Rejected, IndexCall.OutOfMemory, (h.maps id order).mp hmapped,
        hmapped.ne_null]
  | findOrder id =>
    have hrun := h.lookup id
    simp only [IndexCall.run, hrun, IndexCall.onMap]
    exact ⟨h, by simp, by simp [IndexCall.Rejected, IndexCall.OutOfMemory]⟩
  | reserve orderCount =>
    obtain ⟨o, index', hrun⟩ : ∃ o index', OrderIndexing.reserve hash alloc orderCount index =
      (o, index') := ⟨_, _, rfl⟩
    obtain ⟨hok, hmaps, _, hthrows, hends⟩ := reserve_spec h.ok alloc hrun
    have hne := hends hc
    cases o with
    | returns value =>
      simp only [IndexCall.run, Proc.bind_returns _ hrun, Proc.pure_apply, IndexCall.onMap]
      refine ⟨h.same hok hmaps, by simp, ?_⟩
      simp only [IndexCall.Rejected, IndexCall.OutOfMemory, ← hthrows]
      simp
    | throws e =>
      simp only [IndexCall.run, Proc.bind_throws _ hrun, IndexCall.onMap]
      refine ⟨h.same hok hmaps, by simp, ?_⟩
      simp only [IndexCall.Rejected, IndexCall.OutOfMemory, ← hthrows]
      simp
    | diverges => exact absurd rfl hne

theorem IndexRun.agrees (h : IndexRun hash index m) : Agrees hash index m := by
  induction h with
  | empty => exact ⟨indexOk_empty hash, fun id order => by simp [not_maps_empty]⟩
  | call alloc c hc _ ih => exact (ih.call alloc c hc).1

/-- The index is a finite map: after any calls every lookup returns what the partial map
holds, the size is the number of ids mapped, and one more call of any kind terminates,
throws exactly when the map rejects it or memory is refused, and changes the index as it
changes the map. -/
theorem orderIndex_is_finite_map (h : IndexRun hash index m) :
    (∀ id, OrderIndexing.findOrder hash id index = (.returns ((m id).getD nullptr), index)) ∧
    {id | m id ≠ none}.ncard = index.count.toNat ∧
    ∀ (alloc : ℕ → Bool) (c : IndexCall), c.Small →
      (c.run hash alloc index).1 ≠ .diverges ∧
      ((∃ e, (c.run hash alloc index).1 = .throws e) ↔
        c.Rejected m ∨ c.OutOfMemory alloc index) ∧
      ∀ id, OrderIndexing.findOrder hash id (c.run hash alloc index).2 =
        (.returns ((c.onMap m (c.run hash alloc index).1 id).getD nullptr),
          (c.run hash alloc index).2) := by
  have hagrees := h.agrees
  refine ⟨hagrees.lookup, hagrees.size, ?_⟩
  intro alloc c hc
  obtain ⟨hnext, hends, hthrows⟩ := hagrees.call alloc c hc
  exact ⟨hends, hthrows, hnext.lookup⟩

/-- An index that holds order 80 under id 7. All ids hash to one slot. -/
def oneAdd : OrderIndex := ((IndexCall.addOrder 80 7).run (fun _ => 0) (fun _ => true) {}).2

/-- The index with order 88 under id 9. -/
def twoAdds : OrderIndex := ((IndexCall.addOrder 88 9).run (fun _ => 0) (fun _ => true) oneAdd).2

/-- Both orders are found behind each other. -/
theorem orderIndex_is_finite_map_after_two_adds :
    OrderIndexing.findOrder (fun _ => 0) 7 twoAdds = (.returns 80, twoAdds) ∧
      OrderIndexing.findOrder (fun _ => 0) 9 twoAdds = (.returns 88, twoAdds) := by
  have hrun := IndexRun.call (fun _ => true) (.addOrder 88 9) trivial
    (IndexRun.call (fun _ => true) (.addOrder 80 7) trivial (@IndexRun.empty fun _ => 0))
  have hlookup := (orderIndex_is_finite_map hrun).1
  exact ⟨hlookup 7, hlookup 9⟩

end Calls

end Leka.IndexAsMap
