import Leka.PriceLevels

/-!
Any number of levels that share one memory of orders, under any sequence of `addOrder` and
`removeOrder` calls. What the levels are for is a list of orders for each level: an
accepted addition appends, an accepted removal erases, and a refused call does neither.
The links inside the orders show those lists after every sequence of calls.
-/

namespace Leka.LevelLists

open Procedures Orders LinkedChain PriceLevels

/-- Levels at their addresses, and the memory that holds the orders of all of them. -/
@[ext] structure Levels where
  levels : LevelPtr → PriceLevel
  memory : Memory

inductive Call where
  | addOrder (this : LevelPtr) (order : OrderPtr)
  | removeOrder (this : LevelPtr) (order : OrderPtr)

namespace Levels

/-- One level with the memory, which is what its procedures read and write. -/
def select (s : Levels) (this : LevelPtr) : LevelState := ⟨s.levels this, s.memory⟩

def store (this : LevelPtr) (t : LevelState) (s : Levels) : Levels where
  levels := Function.update s.levels this t.level
  memory := t.memory

theorem store_levels (s : Levels) (this : LevelPtr) (t : LevelState) (other : LevelPtr) :
    (s.store this t).levels other = if other = this then t.level else s.levels other :=
  Function.update_apply _ _ _ _

theorem store_select (s : Levels) (this : LevelPtr) : s.store this (s.select this) = s :=
  Levels.ext (Function.update_eq_self _ _) rfl

end Levels

def Call.run : Call → Proc StdException Levels Unit
  | .addOrder this order =>
    Proc.zoom (fun s => s.select this) (Levels.store this) (PriceLevels.addOrder this order)
  | .removeOrder this order =>
    Proc.zoom (fun s => s.select this) (Levels.store this) (PriceLevels.removeOrder this order)

/-- The state after the calls, whichever of them throw. -/
def runAll (s : Levels) : List Call → Levels
  | [] => s
  | call :: calls => runAll (call.run s).2 calls

section Lists

/-- The orders of each level, first in first. -/
abbrev Lists := LevelPtr → List OrderPtr

variable (start : Levels) (lists : Lists)

/-- The remaining quantities of the listed orders, added without wrapping. -/
def total (orders : List OrderPtr) : ℕ :=
  (orders.map fun order => (start.memory order).remainingQuantity.toNat).sum

/-- The calls that throw. -/
def Refused : Call → Prop
  | .addOrder this order =>
    order = nullptr ∨ (start.memory order).price ≠ (start.levels this).price ∨
      (∃ other, order ∈ lists other) ∨ (start.memory order).remainingQuantity = 0 ∨
      2 ^ 64 ≤ total start (lists this) + (start.memory order).remainingQuantity.toNat
  | .removeOrder this order => order = nullptr ∨ order ∉ lists this

/-- What an accepted call does to the lists. -/
def accepted : Call → Lists
  | .addOrder this order => Function.update lists this (lists this ++ [order])
  | .removeOrder this order => Function.update lists this ((lists this).erase order)

open Classical in
/-- The lists after the calls. -/
noncomputable def listsAfter : Lists → List Call → Lists
  | lists, [] => lists
  | lists, call :: calls =>
    listsAfter (if Refused start lists call then lists else accepted lists call) calls

end Lists

/-- Levels without orders, and orders that are on no level. -/
structure Fresh (start : Levels) : Prop where
  empty : ∀ this, start.levels this = { price := (start.levels this).price }
  free : ∀ order ≠ nullptr, (start.memory order).priceLevel = none

/-- The levels show the lists: followed from either end, counted, summed up and asked for
the level of an order. -/
structure Shows (start s : Levels) (lists : Lists) : Prop where
  forward : ∀ this, Walks (nextOf s.memory) nullptr (s.levels this).headOrder (lists this)
  backward : ∀ this,
    Walks (previousOf s.memory) nullptr (s.levels this).tailOrder (lists this).reverse
  count : ∀ this, (s.levels this).count.toNat = (lists this).length
  totalQuantity : ∀ this, (s.levels this).totalQuantity.toNat = total start (lists this)
  owner : ∀ order ≠ nullptr, ∀ this,
    (s.memory order).priceLevel = some this ↔ order ∈ lists this

/-- The invariant of a run: every level represents its list, a listed order is on the list
of its own level only, and no call changes what an order or a level is worth. -/
structure Holds (start s : Levels) (lists : Lists) : Prop where
  represents : ∀ this, Represents this (s.select this) (lists this)
  totalQuantity : ∀ this, (s.levels this).totalQuantity.toNat = total start (lists this)
  listed : ∀ order ≠ nullptr, ∀ this,
    (s.memory order).priceLevel = some this → order ∈ lists this
  detached : ∀ order, (s.memory order).detached = (start.memory order).detached
  price : ∀ this, (s.levels this).price = (start.levels this).price

section Invariant

variable {start s : Levels} {lists : Lists} {this : LevelPtr} {order : OrderPtr}

theorem total_append (orders : List OrderPtr) (order : OrderPtr) :
    total start (orders ++ [order]) =
      total start orders + (start.memory order).remainingQuantity.toNat := by
  simp [total]

theorem total_middle (front back : List OrderPtr) (order : OrderPtr) :
    total start (front ++ order :: back) =
      total start (front ++ back) + (start.memory order).remainingQuantity.toNat := by
  simp only [total, List.map_append, List.map_cons, List.sum_append, List.sum_cons]
  omega

/-- Fresh levels hold empty lists. -/
theorem Fresh.holds (h : Fresh start) : Holds start start fun _ => [] where
  represents this := by
    have hempty := h.empty this
    refine represents_nil this ?_ ?_ ?_ <;> simp only [Levels.select] <;> rw [hempty]
  totalQuantity this := by
    rw [h.empty this]
    rfl
  listed order hnull this howner := by
    rw [h.free order hnull] at howner
    simp at howner
  detached _ := rfl
  price _ := rfl

theorem Holds.shows (h : Holds start s lists) : Shows start s lists where
  forward this := by
    have hrep := h.represents this
    have hhead : (s.levels this).headOrder = (lists this).headD nullptr := hrep.head
    rw [hhead]
    exact hrep.linked.walks hrep.not_null
  backward this := by
    have hrep := h.represents this
    have htail : (s.levels this).tailOrder = (lists this).getLastD nullptr := hrep.tail
    rw [htail]
    exact hrep.linked.walks_back hrep.not_null
  count this := (h.represents this).count
  totalQuantity := h.totalQuantity
  owner order hnull this :=
    ⟨h.listed order hnull this, fun hmem => (h.represents this).owner order hmem⟩

theorem Holds.remaining (h : Holds start s lists) (order : OrderPtr) :
    (s.memory order).remainingQuantity = (start.memory order).remainingQuantity := by
  have hkept := congrArg Order.remainingQuantity (h.detached order)
  exact hkept

theorem Holds.orderPrice (h : Holds start s lists) (order : OrderPtr) :
    (s.memory order).price = (start.memory order).price := by
  have hkept := congrArg Order.price (h.detached order)
  exact hkept

/-- The checks of `addOrder` are the ones that the lists ask for. -/
theorem Holds.admits_iff (h : Holds start s lists) :
    Admits (s.select this) order ↔ ¬ Refused start lists (.addOrder this order) := by
  have htotal := h.totalQuantity this
  have hfits := fits_iff (s.memory order).remainingQuantity (s.levels this).totalQuantity
  rw [htotal, h.remaining] at hfits
  simp only [Refused, not_or, not_exists, not_le, ne_eq, not_not]
  constructor
  · intro ha
    refine ⟨ha.ne_null, ?_, ?_, ?_, ?_⟩
    · have hprice : (s.memory order).price = (s.levels this).price := ha.price
      rwa [h.orderPrice, h.price] at hprice
    · intro other hmem
      have howner : (s.memory order).priceLevel = some other := (h.represents other).owner _ hmem
      have hfree : (s.memory order).priceLevel = none := ha.free
      rw [hfree] at howner
      simp at howner
    · have hremaining : (s.memory order).remainingQuantity ≠ 0 := ha.remaining
      rwa [h.remaining] at hremaining
    · have hle : (s.memory order).remainingQuantity ≤
          uint64Max - (s.levels this).totalQuantity := ha.fits
      rw [h.remaining] at hle
      exact hfits.mp hle
  · rintro ⟨hnull, hprice, hnot, hremaining, hlt⟩
    refine ⟨hnull, ?_, ?_, ?_, ?_⟩
    · change (s.memory order).price = (s.levels this).price
      rw [h.orderPrice, h.price, hprice]
    · change (s.memory order).priceLevel = none
      cases howner : (s.memory order).priceLevel with
      | none => rfl
      | some other => exact absurd (h.listed order hnull other howner) (hnot other)
    · change (s.memory order).remainingQuantity ≠ 0
      rwa [h.remaining]
    · change (s.memory order).remainingQuantity ≤ uint64Max - (s.levels this).totalQuantity
      rw [h.remaining]
      exact hfits.mpr hlt

/-- The lists of two levels have no order in common. -/
theorem Holds.apart (h : Holds start s lists) {other : LevelPtr} (hne : other ≠ this)
    {y : OrderPtr} (hy : y ∈ lists other) : y ∉ lists this := by
  intro hmem
  have howner : (s.memory y).priceLevel = some this := (h.represents this).owner y hmem
  have hother : (s.memory y).priceLevel = some other := (h.represents other).owner y hy
  rw [hother] at howner
  exact hne (Option.some.inj howner)

/-- A list that a procedure on another level does not touch. -/
theorem Holds.elsewhere (h : Holds start s lists) {other : LevelPtr} (hne : other ≠ this)
    {t : LevelState} (hsame : ∀ y ∈ lists other, t.memory y = s.memory y) :
    Represents other ((s.store this t).select other) (lists other) := by
  apply (h.represents other).frame
  · change Function.update s.levels this t.level other = s.levels other
    exact Function.update_of_ne hne _ _
  · intro y hy
    have heq : ((s.store this t).select other).memory y = (s.select other).memory y := hsame y hy
    rw [heq]
    exact ⟨rfl, rfl, rfl, rfl⟩

end Invariant

section Steps

variable {start s : Levels} {lists : Lists} {this : LevelPtr} {order : OrderPtr}

/-- An accepted addition appends to the list of its level. -/
theorem Holds.append (h : Holds start s lists)
    (hok : ¬ Refused start lists (.addOrder this order)) :
    ∃ s', (Call.addOrder this order).run s = (.returns (), s') ∧
      Holds start s' (accepted lists (.addOrder this order)) := by
  have ha : Admits (s.select this) order := h.admits_iff.mpr hok
  have hrep := h.represents this
  have hnot : order ∉ lists this := hrep.free_not_mem ha.free
  have hrun := @addOrder_of_admits this _ _ ha (hrep.tail_ne ha.ne_null hnot)
  have huntouched : ∀ y, y ∉ lists this → y ≠ order →
      (appended this order (s.select this)).memory y = s.memory y :=
    fun y hy hne => hrep.appended_untouched hy hne
  refine ⟨s.store this (appended this order (s.select this)), ?_, ?_, ?_, ?_, ?_, ?_⟩
  · simp only [Call.run, Proc.zoom, hrun]
  · intro other
    by_cases hother : other = this
    · subst other
      have hnew := hrep.append ha
      simpa [accepted, Levels.store, Levels.select] using hnew
    · simp only [accepted, Function.update_of_ne hother]
      refine h.elsewhere hother fun y hy => huntouched y (h.apart hother hy) ?_
      rintro rfl
      have howner : (s.memory y).priceLevel = some other := (h.represents other).owner y hy
      have hfree : (s.memory y).priceLevel = none := ha.free
      rw [hfree] at howner
      simp at howner
  · intro other
    rw [Levels.store_levels]
    by_cases hother : other = this
    · subst other
      have hfits := (fits_iff _ _).mp ha.fits
      have htotal := h.totalQuantity this
      have hremaining := congrArg UInt64.toNat (h.remaining order)
      rw [if_pos rfl, accepted, Function.update_self, total_append, ← htotal, ← hremaining]
      change ((s.levels this).totalQuantity + (s.memory order).remainingQuantity).toNat = _
      rw [UInt64.toNat_add]
      exact Nat.mod_eq_of_lt hfits
    · rw [if_neg hother, accepted, Function.update_of_ne hother]
      exact h.totalQuantity other
  · intro y hy other howner
    by_cases hyo : y = order
    · subst y
      have hthis : ((appended this order (s.select this)).memory order).priceLevel = some this := by
        simp [appended]
      obtain rfl : this = other := Option.some.inj (hthis.symm.trans howner)
      simp [accepted]
    · have hsame : ((appended this order (s.select this)).memory y).priceLevel =
          (s.memory y).priceLevel := by
        have hmem : (appended this order (s.select this)).memory y =
            linkNext s.memory (s.levels this).tailOrder order y := Function.update_of_ne hyo _ _
        rw [hmem, (linkNext_others _ _ _ _).2.1]
      have hlisted := h.listed y hy other (hsame.symm.trans howner)
      by_cases hother : other = this
      · subst other
        simp [accepted, hlisted]
      · simpa [accepted, Function.update_of_ne hother] using hlisted
  · intro y
    exact (appended_detached this order y (s.select this)).trans (h.detached y)
  · intro other
    rw [Levels.store_levels]
    split_ifs with hother
    · subst other
      exact h.price this
    · exact h.price other

/-- An accepted removal erases from the list of its level. -/
theorem Holds.erase (h : Holds start s lists)
    (hok : ¬ Refused start lists (.removeOrder this order)) :
    ∃ s', (Call.removeOrder this order).run s = (.returns (), s') ∧
      Holds start s' (accepted lists (.removeOrder this order)) := by
  simp only [Refused, not_or, not_not] at hok
  obtain ⟨hnull, hmem⟩ := hok
  obtain ⟨front, back, hsplit⟩ := List.append_of_mem hmem
  have hrep := h.represents this
  rw [hsplit] at hrep
  have hrun := hrep.removeOrder_run
  have herase : (lists this).erase order = front ++ back := by
    have hnot : order ∉ front := by
      intro hfront
      exact (List.nodup_append.mp hrep.nodup).2.2 order hfront order (by simp) rfl
    rw [hsplit, List.erase_append_right _ hnot, List.erase_cons_head]
  refine ⟨s.store this (unlinked order (s.select this)), ?_, ?_, ?_, ?_, ?_, ?_⟩
  · simp only [Call.run, Proc.zoom, hrun]
  · intro other
    by_cases hother : other = this
    · subst other
      have hnew := hrep.unlink
      simpa [accepted, herase, Levels.store, Levels.select] using hnew
    · simp only [accepted, Function.update_of_ne hother]
      refine h.elsewhere hother fun y hy => ?_
      have hnot := h.apart hother hy
      rw [hsplit] at hnot
      refine hrep.unlinked_untouched hnot ?_
      rintro rfl
      exact (h.represents other).not_null hy
  · intro other
    rw [Levels.store_levels]
    by_cases hother : other = this
    · subst other
      have htotal := h.totalQuantity this
      have hremaining := congrArg UInt64.toNat (h.remaining order)
      rw [hsplit, total_middle, ← hremaining] at htotal
      rw [if_pos rfl, accepted, Function.update_self, herase]
      change ((s.levels this).totalQuantity - (s.memory order).remainingQuantity).toNat = _
      rw [UInt64.toNat_sub_of_le _ _ (UInt64.le_iff_toNat_le.mpr (by omega))]
      omega
    · rw [if_neg hother, accepted, Function.update_of_ne hother]
      exact h.totalQuantity other
  · intro y hy other howner
    by_cases hyo : y = order
    · subst y
      have hnone : ((unlinked order (s.select this)).memory order).priceLevel = none := by
        simp [unlinked, Order.detached]
      have hsome : ((unlinked order (s.select this)).memory order).priceLevel = some other := howner
      rw [hnone] at hsome
      simp at hsome
    · have hsame : ((unlinked order (s.select this)).memory y).priceLevel =
          (s.memory y).priceLevel := by
        rw [Represents.unlinked_memory hyo, (linkPrevious_others _ _ _ _).2.1,
          (linkNext_others _ _ _ _).2.1]
        rfl
      have hlisted := h.listed y hy other (hsame.symm.trans howner)
      by_cases hother : other = this
      · subst other
        rw [hsplit] at hlisted
        simp only [accepted, Function.update_self, herase, List.mem_append, List.mem_cons] at *
        tauto
      · simpa [accepted, Function.update_of_ne hother] using hlisted
  · intro y
    exact (unlinked_detached order y (s.select this)).trans (h.detached y)
  · intro other
    rw [Levels.store_levels]
    split_ifs with hother
    · subst other
      exact h.price this
    · exact h.price other

/-- A refused call throws and leaves every level and every order as it was. -/
theorem Holds.refused (h : Holds start s lists) {call : Call} (hno : Refused start lists call) :
    ∃ e, call.run s = (.throws e, s) := by
  cases call with
  | addOrder this order =>
    have hnot : ¬ Admits (s.select this) order := fun ha => h.admits_iff.mp ha hno
    obtain ⟨e, hrun⟩ := @addOrder_of_not_admits this _ _ hnot
    exact ⟨e, by simp only [Call.run, Proc.zoom, hrun, Levels.store_select]⟩
  | removeOrder this order =>
    have hnot : order = nullptr ∨ ((s.select this).memory order).priceLevel ≠ some this := by
      rcases hno with hnull | hmem
      · exact Or.inl hnull
      · by_cases hnull : order = nullptr
        · exact Or.inl hnull
        · exact Or.inr fun howner => hmem (h.listed order hnull this howner)
    refine ⟨.invalidArgument "Order does not belong to this price level", ?_⟩
    simp only [Call.run, Proc.zoom, removeOrder_of_not_member hnot, Levels.store_select]

theorem Holds.accepted (h : Holds start s lists) {call : Call}
    (hok : ¬ Refused start lists call) :
    ∃ s', call.run s = (.returns (), s') ∧ Holds start s' (accepted lists call) := by
  cases call with
  | addOrder this order => exact h.append hok
  | removeOrder this order => exact h.erase hok

end Steps

section Runs

variable {start s : Levels} {lists : Lists}

/-- Calls keep the levels and the lists together. -/
theorem Holds.runAll (h : Holds start s lists) (calls : List Call) :
    Holds start (runAll s calls) (listsAfter start lists calls) := by
  induction calls generalizing s lists with
  | nil => exact h
  | cons call calls ih =>
    simp only [LevelLists.runAll, listsAfter]
    by_cases hno : Refused start lists call
    · obtain ⟨e, hrun⟩ := h.refused hno
      rw [hrun, if_pos hno]
      exact ih h
    · obtain ⟨s', hrun, h'⟩ := h.accepted hno
      rw [hrun, if_neg hno]
      exact ih h'

/-- After every sequence of calls the levels show the lists, and the next call throws
exactly when it is refused, without a trace, and else does to them what it does to the
lists. -/
theorem levels_are_lists (hfresh : Fresh start) (calls : List Call) :
    Shows start (LevelLists.runAll start calls) (listsAfter start (fun _ => []) calls) ∧
    ∀ call : Call,
      (Refused start (listsAfter start (fun _ => []) calls) call →
        ∃ e, call.run (LevelLists.runAll start calls) =
          (.throws e, LevelLists.runAll start calls)) ∧
      (¬ Refused start (listsAfter start (fun _ => []) calls) call →
        ∃ s', call.run (LevelLists.runAll start calls) = (.returns (), s') ∧
          Shows start s' (accepted (listsAfter start (fun _ => []) calls) call)) := by
  have h := hfresh.holds.runAll calls
  refine ⟨h.shows, ?_⟩
  intro call
  refine ⟨h.refused, ?_⟩
  intro hok
  obtain ⟨s', hrun, h'⟩ := h.accepted hok
  exact ⟨s', hrun, h'.shows⟩

end Runs

/-- Levels without orders, and at every address an order of the same price. -/
def freshLevels : Levels where
  levels _ := { price := 100 }
  memory _ := {
    orderId := 1, price := 100, originalQuantity := 5, remainingQuantity := 5, timestamp := 1
    orderSide := .buy, orderType := .limit, sequenceNumber := 1 }

/-- Two orders join a bid level. -/
def twoJoins : List Call := [.addOrder ⟨true, 0⟩ 8, .addOrder ⟨true, 0⟩ 16]

/-- The level shows both, and none of them can join another level. -/
theorem levels_are_lists_two_joins :
    ((runAll freshLevels twoJoins).levels ⟨true, 0⟩).totalQuantity = 10 ∧
    ∃ e, (Call.addOrder ⟨false, 0⟩ 16).run (runAll freshLevels twoJoins) =
      (.throws e, runAll freshLevels twoJoins) := by
  have hfresh : Fresh freshLevels := ⟨fun _ => rfl, fun _ _ => rfl⟩
  have hfirst : ¬ Refused freshLevels (fun _ => []) (.addOrder ⟨true, 0⟩ 8) := by
    simp [Refused, freshLevels, total, nullptr]
  have hsecond : ¬ Refused freshLevels (accepted (fun _ => []) (.addOrder ⟨true, 0⟩ 8))
      (.addOrder ⟨true, 0⟩ 16) := by
    have hlisted : ∀ other, 16 ∉ accepted (fun _ => []) (.addOrder ⟨true, 0⟩ 8) other := by
      intro other
      by_cases hat : other = ⟨true, 0⟩
      · simp [accepted, hat]
      · simp [accepted, Function.update_of_ne hat]
    rintro (hnull | hprice | ⟨other, hmem⟩ | hzero | hfull)
    · exact absurd hnull (by decide)
    · exact hprice rfl
    · exact hlisted other hmem
    · exact absurd hzero (by decide)
    · simp [accepted, total, freshLevels] at hfull
  have hlists : listsAfter freshLevels (fun _ => []) twoJoins ⟨true, 0⟩ = [8, 16] := by
    rw [twoJoins, listsAfter, listsAfter, listsAfter, if_neg hfirst, if_neg hsecond]
    simp [accepted]
  obtain ⟨hshows, hnext⟩ := levels_are_lists hfresh twoJoins
  refine ⟨?_, (hnext (.addOrder ⟨false, 0⟩ 16)).1 ?_⟩
  · have htotal := hshows.totalQuantity ⟨true, 0⟩
    rw [hlists] at htotal
    exact UInt64.toNat_inj.mp htotal
  · exact Or.inr (Or.inr (Or.inl ⟨⟨true, 0⟩, by simp [hlists]⟩))

end Leka.LevelLists
