import Leka.LinkedChain
import Leka.Orders

/-!
The FIFO of resting orders at one price. The links live inside the orders, so the
procedures of a level run on the level together with the memory that holds the orders.
A level represents a list when its head, tail and count and the links of the listed
orders agree with it; appending and unlinking are the two operations on that list.
-/

namespace Leka.PriceLevels

open Procedures Orders LinkedChain

structure PriceLevel where
  price : Price
  headOrder : OrderPtr := nullptr
  tailOrder : OrderPtr := nullptr
  count : UInt64 := 0
  totalQuantity : Quantity := 0
deriving DecidableEq

@[ext] structure LevelState where
  level : PriceLevel
  memory : Memory

def PriceLevel.isEmpty (level : PriceLevel) : Bool := level.count == 0

abbrev LevelProc := Proc StdException LevelState

def updateOrder (order : OrderPtr) (f : Order → Order) : LevelProc Unit :=
  Proc.modify fun s => { s with memory := Function.update s.memory order (f (s.memory order)) }

def setNextOrder (order next : OrderPtr) : LevelProc Unit :=
  updateOrder order fun o => { o with nextOrder := next }

def setPreviousOrder (order previous : OrderPtr) : LevelProc Unit :=
  updateOrder order fun o => { o with previousOrder := previous }

def setPriceLevel (order : OrderPtr) (level : Option LevelPtr) : LevelProc Unit :=
  updateOrder order fun o => { o with priceLevel := level }

def updateLevel (f : PriceLevel → PriceLevel) : LevelProc Unit :=
  Proc.modify fun s => { s with level := f s.level }

/-- `this` is the address of the level that the procedure runs on. -/
def addOrder (this : LevelPtr) (order : OrderPtr) : LevelProc Unit := do
  if order = nullptr then
    throw (.invalidArgument "Cannot add a null order")
  let s ← Proc.get
  if (s.memory order).price ≠ s.level.price then
    throw (.invalidArgument "Order price does not match price level")
  if (s.memory order).priceLevel ≠ none then
    throw (.invalidArgument "Order already belongs to a price level")
  if (s.memory order).isFullyFilled then
    throw (.invalidArgument "Cannot add a fully filled order")
  if (s.memory order).remainingQuantity > uint64Max - s.level.totalQuantity then
    throw (.overflowError "Price level quantity overflow")
  setPreviousOrder order s.level.tailOrder
  setNextOrder order nullptr
  if s.level.tailOrder ≠ nullptr then
    setNextOrder s.level.tailOrder order
  else
    updateLevel fun level => { level with headOrder := order }
  updateLevel fun level => { level with
    tailOrder := order
    count := level.count + 1
    totalQuantity := level.totalQuantity + (s.memory order).remainingQuantity }
  setPriceLevel order (some this)

def removeOrder (this : LevelPtr) (order : OrderPtr) : LevelProc Unit := do
  let s ← Proc.get
  if order = nullptr ∨ (s.memory order).priceLevel ≠ some this then
    throw (.invalidArgument "Order does not belong to this price level")
  let previousOrder := (s.memory order).previousOrder
  let nextOrder := (s.memory order).nextOrder
  if previousOrder ≠ nullptr then
    setNextOrder previousOrder nextOrder
  else
    updateLevel fun level => { level with headOrder := nextOrder }
  if nextOrder ≠ nullptr then
    setPreviousOrder nextOrder previousOrder
  else
    updateLevel fun level => { level with tailOrder := previousOrder }
  updateLevel fun level => { level with
    totalQuantity := level.totalQuantity - (s.memory order).remainingQuantity
    count := level.count - 1 }
  setPreviousOrder order nullptr
  setNextOrder order nullptr
  setPriceLevel order none

def reduceTotalQuantity (quantity : Quantity) : LevelProc Unit := do
  let s ← Proc.get
  if quantity > s.level.totalQuantity then
    throw (.invalidArgument "Cannot reduce price level quantity below zero")
  updateLevel fun level => { level with totalQuantity := level.totalQuantity - quantity }

/-- What `addOrder` checks before it writes anything. -/
structure Admits (s : LevelState) (order : OrderPtr) : Prop where
  ne_null : order ≠ nullptr
  price : (s.memory order).price = s.level.price
  free : (s.memory order).priceLevel = none
  remaining : (s.memory order).remainingQuantity ≠ 0
  fits : (s.memory order).remainingQuantity ≤ uint64Max - s.level.totalQuantity

/-- The overflow check of `addOrder`, without wrapping. -/
theorem fits_iff (quantity total : Quantity) :
    quantity ≤ uint64Max - total ↔ total.toNat + quantity.toNat < 2 ^ 64 := by
  have hmax : uint64Max.toNat = 2 ^ 64 - 1 := rfl
  have hlt := total.toNat_lt
  rw [UInt64.le_iff_toNat_le,
    UInt64.toNat_sub_of_le _ _ (by rw [UInt64.le_iff_toNat_le, hmax]; omega), hmax]
  omega

/-- The write `order->setNextOrder(next)`, skipped for a null order. -/
def linkNext (memory : Memory) (order next : OrderPtr) : Memory :=
  if order ≠ nullptr then
    Function.update memory order { memory order with nextOrder := next }
  else memory

/-- The write `order->setPreviousOrder(previous)`, skipped for a null order. -/
def linkPrevious (memory : Memory) (order previous : OrderPtr) : Memory :=
  if order ≠ nullptr then
    Function.update memory order { memory order with previousOrder := previous }
  else memory

/-- The state after appending `order`. -/
def appended (this : LevelPtr) (order : OrderPtr) (s : LevelState) : LevelState where
  level := { s.level with
    headOrder := if s.level.tailOrder ≠ nullptr then s.level.headOrder else order
    tailOrder := order
    count := s.level.count + 1
    totalQuantity := s.level.totalQuantity + (s.memory order).remainingQuantity }
  memory := Function.update (linkNext s.memory s.level.tailOrder order) order
    { s.memory order with
      previousOrder := s.level.tailOrder, nextOrder := nullptr, priceLevel := some this }

/-- The state after unlinking `order`. -/
def unlinked (order : OrderPtr) (s : LevelState) : LevelState where
  level := { s.level with
    headOrder := if (s.memory order).previousOrder ≠ nullptr then s.level.headOrder
      else (s.memory order).nextOrder
    tailOrder := if (s.memory order).nextOrder ≠ nullptr then s.level.tailOrder
      else (s.memory order).previousOrder
    count := s.level.count - 1
    totalQuantity := s.level.totalQuantity - (s.memory order).remainingQuantity }
  memory := Function.update
    (linkPrevious (linkNext s.memory (s.memory order).previousOrder (s.memory order).nextOrder)
      (s.memory order).nextOrder (s.memory order).previousOrder)
    order (s.memory order).detached

section Links

variable {memory : Memory} {order next previous y : OrderPtr}

theorem linkNext_of_ne (hne : y ≠ order) : linkNext memory order next y = memory y := by
  unfold linkNext
  split_ifs
  · exact Function.update_of_ne hne _ _
  · rfl

theorem linkPrevious_of_ne (hne : y ≠ order) :
    linkPrevious memory order previous y = memory y := by
  unfold linkPrevious
  split_ifs
  · exact Function.update_of_ne hne _ _
  · rfl

theorem linkNext_nextOrder (hy : y ≠ nullptr) :
    (linkNext memory order next y).nextOrder =
      if y = order then next else (memory y).nextOrder := by
  by_cases hyo : y = order
  · subst y
    simp [linkNext, hy]
  · rw [linkNext_of_ne hyo, if_neg hyo]

theorem linkPrevious_previousOrder (hy : y ≠ nullptr) :
    (linkPrevious memory order previous y).previousOrder =
      if y = order then previous else (memory y).previousOrder := by
  by_cases hyo : y = order
  · subst y
    simp [linkPrevious, hy]
  · rw [linkPrevious_of_ne hyo, if_neg hyo]

/-- A link write changes no other member. -/
theorem linkNext_others (memory : Memory) (order next y : OrderPtr) :
    (linkNext memory order next y).previousOrder = (memory y).previousOrder ∧
      (linkNext memory order next y).priceLevel = (memory y).priceLevel ∧
      (linkNext memory order next y).detached = (memory y).detached := by
  by_cases hyo : y = order
  · subst y
    unfold linkNext
    split_ifs <;> simp [Order.detached]
  · simp [linkNext_of_ne hyo]

theorem linkPrevious_others (memory : Memory) (order previous y : OrderPtr) :
    (linkPrevious memory order previous y).nextOrder = (memory y).nextOrder ∧
      (linkPrevious memory order previous y).priceLevel = (memory y).priceLevel ∧
      (linkPrevious memory order previous y).detached = (memory y).detached := by
  by_cases hyo : y = order
  · subst y
    unfold linkPrevious
    split_ifs <;> simp [Order.detached]
  · simp [linkPrevious_of_ne hyo]

end Links

section Runs

variable {this : LevelPtr} {order : OrderPtr} {s : LevelState}

theorem addOrder_of_admits (h : Admits s order) (htail : s.level.tailOrder ≠ order) :
    addOrder this order s = (.returns (), appended this order s) := by
  have hfill : (s.memory order).isFullyFilled = false := by
    simpa [Order.isFullyFilled] using h.remaining
  have hfits : ¬ (s.memory order).remainingQuantity > uint64Max - s.level.totalQuantity := by
    simpa using h.fits
  simp only [addOrder, h.ne_null, if_false, Proc.get_bind_apply, h.price, ne_eq, not_true,
    h.free, hfill, Bool.false_eq_true, hfits]
  by_cases hnull : s.level.tailOrder = nullptr
  · simp only [hnull, not_true, if_false, setPreviousOrder, setNextOrder, updateOrder,
      updateLevel, setPriceLevel, Proc.modify_bind_apply, Proc.modify_apply]
    refine congrArg _ (LevelState.ext (by simp [appended, hnull]) ?_)
    simp [appended, linkNext, hnull]
  · simp only [hnull, not_false_eq_true, if_true, setPreviousOrder, setNextOrder, updateOrder,
      updateLevel, setPriceLevel, Proc.modify_bind_apply, Proc.modify_apply]
    refine congrArg _ (LevelState.ext (by simp [appended, hnull]) ?_)
    simp only [appended, linkNext, hnull, ne_eq, not_false_eq_true, if_true,
      Function.update_self, Function.update_idem, Function.update_of_ne htail,
      Function.update_of_ne (Ne.symm htail)]
    rw [Function.update_comm htail, Function.update_idem, Function.update_comm (Ne.symm htail)]

/-- A rejected order leaves the level and the orders as they were. -/
theorem addOrder_of_not_admits (h : ¬ Admits s order) :
    ∃ e, addOrder this order s = (.throws e, s) := by
  unfold addOrder
  by_cases hnull : order = nullptr
  · exact ⟨_, by simp [hnull]; rfl⟩
  by_cases hprice : (s.memory order).price = s.level.price
  · by_cases hfree : (s.memory order).priceLevel = none
    · by_cases hfill : (s.memory order).isFullyFilled = true
      · exact ⟨_, by simp [hnull, hprice, hfree, hfill]; rfl⟩
      · have hfits : (s.memory order).remainingQuantity > uint64Max - s.level.totalQuantity := by
          by_contra hle
          refine h ⟨hnull, hprice, hfree, ?_, by simpa using hle⟩
          simpa [Order.isFullyFilled] using hfill
        exact ⟨_, by simp [hnull, hprice, hfree, hfill, hfits]; rfl⟩
    · exact ⟨_, by simp [hnull, hprice, hfree]; rfl⟩
  · exact ⟨_, by simp [hnull, hprice]; rfl⟩

theorem addOrder_overflow (hnull : order ≠ nullptr)
    (hprice : (s.memory order).price = s.level.price)
    (hfree : (s.memory order).priceLevel = none) (hfill : (s.memory order).remainingQuantity ≠ 0)
    (hfits : uint64Max - s.level.totalQuantity < (s.memory order).remainingQuantity) :
    addOrder this order s = (.throws (.overflowError "Price level quantity overflow"), s) := by
  have hfill' : (s.memory order).isFullyFilled = false := by
    simpa [Order.isFullyFilled] using hfill
  simp [addOrder, hnull, hprice, hfree, hfill', hfits]

theorem removeOrder_of_member (hnull : order ≠ nullptr)
    (howner : (s.memory order).priceLevel = some this)
    (hprev : (s.memory order).previousOrder ≠ order)
    (hnext : (s.memory order).nextOrder ≠ order) :
    removeOrder this order s = (.returns (), unlinked order s) := by
  simp only [removeOrder, Proc.get_bind_apply, hnull, howner, ne_eq, not_true, or_false,
    if_false]
  by_cases hp : (s.memory order).previousOrder = nullptr <;>
    by_cases hn : (s.memory order).nextOrder = nullptr
  all_goals
    simp only [hp, hn, not_true, not_false_eq_true, if_false, if_true, setPreviousOrder,
      setNextOrder, updateOrder, updateLevel, setPriceLevel, Proc.modify_bind_apply,
      Proc.modify_apply]
    refine congrArg _ (LevelState.ext (by simp [unlinked, hp, hn]) ?_)
    simp [unlinked, linkNext, linkPrevious, hp, hn, Order.detached, Ne.symm hprev, Ne.symm hnext]

theorem removeOrder_of_not_member
    (h : order = nullptr ∨ (s.memory order).priceLevel ≠ some this) :
    removeOrder this order s =
      (.throws (.invalidArgument "Order does not belong to this price level"), s) := by
  simp only [removeOrder, Proc.get_bind_apply, if_pos h, Proc.throw_bind_apply]

end Runs

section Frames

variable {this : LevelPtr} {order y : OrderPtr} {s : LevelState}

/-- Appending changes nothing of an order but its place in a level. -/
theorem appended_detached (this : LevelPtr) (order y : OrderPtr) (s : LevelState) :
    ((appended this order s).memory y).detached = (s.memory y).detached := by
  by_cases hy : y = order
  · subst y
    simp [appended, Order.detached]
  · have hmem : (appended this order s).memory y = linkNext s.memory s.level.tailOrder order y :=
      Function.update_of_ne hy _ _
    rw [hmem, (linkNext_others _ _ _ _).2.2]

/-- Unlinking changes nothing of an order but its place in a level. -/
theorem unlinked_detached (order y : OrderPtr) (s : LevelState) :
    ((unlinked order s).memory y).detached = (s.memory y).detached := by
  by_cases hy : y = order
  · subst y
    simp [unlinked, Order.detached]
  · have hmem : (unlinked order s).memory y = linkPrevious
        (linkNext s.memory (s.memory order).previousOrder (s.memory order).nextOrder)
        (s.memory order).nextOrder (s.memory order).previousOrder y :=
      Function.update_of_ne hy _ _
    rw [hmem, (linkPrevious_others _ _ _ _).2.2, (linkNext_others _ _ _ _).2.2]

end Frames

def nextOf (memory : Memory) (order : OrderPtr) : OrderPtr := (memory order).nextOrder

def previousOf (memory : Memory) (order : OrderPtr) : OrderPtr := (memory order).previousOrder

/-- The level at `this` holds exactly the orders of `xs`, first in first. -/
structure Represents (this : LevelPtr) (s : LevelState) (xs : List OrderPtr) : Prop where
  linked : Linked (nextOf s.memory) (previousOf s.memory) nullptr xs nullptr
  nodup : xs.Nodup
  not_null : nullptr ∉ xs
  head : s.level.headOrder = xs.headD nullptr
  tail : s.level.tailOrder = xs.getLastD nullptr
  count : s.level.count.toNat = xs.length
  owner : ∀ x ∈ xs, (s.memory x).priceLevel = some this
  price : ∀ x ∈ xs, (s.memory x).price = s.level.price

theorem represents_nil (this : LevelPtr) {s : LevelState} (hhead : s.level.headOrder = nullptr)
    (htail : s.level.tailOrder = nullptr) (hcount : s.level.count = 0) :
    Represents this s [] where
  linked := trivial
  nodup := List.nodup_nil
  not_null := by simp
  head := hhead
  tail := htail
  count := by simp [hcount]
  owner := by simp
  price := by simp

namespace Represents

variable {this : LevelPtr} {s : LevelState} {xs ys : List OrderPtr} {order : OrderPtr}

theorem isEmpty_iff (h : Represents this s xs) : s.level.isEmpty = true ↔ xs = [] := by
  rw [PriceLevel.isEmpty, beq_iff_eq, ← UInt64.toNat_inj, h.count]
  simp

theorem tail_mem (h : Represents this s xs) (hne : s.level.tailOrder ≠ nullptr) :
    s.level.tailOrder ∈ xs := by
  have hmem : xs.getLastD nullptr ∈ nullptr :: xs := List.getLastD_mem_cons
  rw [← h.tail] at hmem
  exact (List.mem_cons.mp hmem).resolve_left hne

/-- Memory that agrees on the links, the owner and the price of the listed orders. -/
theorem frame (h : Represents this s xs) {s' : LevelState} (hlevel : s'.level = s.level)
    (hmem : ∀ x ∈ xs, (s'.memory x).nextOrder = (s.memory x).nextOrder ∧
      (s'.memory x).previousOrder = (s.memory x).previousOrder ∧
      (s'.memory x).priceLevel = (s.memory x).priceLevel ∧
      (s'.memory x).price = (s.memory x).price) : Represents this s' xs where
  linked := h.linked.congr (fun x hx => (hmem x hx).1) (fun x hx => (hmem x hx).2.1)
  nodup := h.nodup
  not_null := h.not_null
  head := by rw [hlevel, h.head]
  tail := by rw [hlevel, h.tail]
  count := by rw [hlevel, h.count]
  owner x hx := by rw [(hmem x hx).2.2.1, h.owner x hx]
  price x hx := by rw [(hmem x hx).2.2.2, h.price x hx, hlevel]

theorem free_not_mem (h : Represents this s xs) (hfree : (s.memory order).priceLevel = none) :
    order ∉ xs := by
  intro hmem
  rw [h.owner order hmem] at hfree
  simp at hfree

theorem tail_ne (h : Represents this s xs) (hnull : order ≠ nullptr) (hnot : order ∉ xs) :
    s.level.tailOrder ≠ order := by
  intro heq
  by_cases htail : s.level.tailOrder = nullptr
  · exact hnull (heq.symm.trans htail)
  · exact hnot (heq ▸ h.tail_mem htail)

/-- Appending: the order goes behind the tail. -/
theorem append (h : Represents this s xs) (ha : Admits s order) :
    Represents this (appended this order s) (xs ++ [order]) := by
  have hnot := h.free_not_mem ha.free
  have hne : ∀ y ∈ xs, y ≠ order := fun y hy heq => hnot (heq ▸ hy)
  have hy0 : ∀ y ∈ xs, y ≠ nullptr := fun y hy heq => h.not_null (heq ▸ hy)
  have hnd : (xs ++ [order]).Nodup := by
    rw [List.nodup_append]
    refine ⟨h.nodup, by simp, ?_⟩
    intro a ha b hb
    rw [List.mem_singleton.mp hb]
    exact hne a ha
  have hnull : nullptr ∉ xs ++ [order] := by
    simp only [List.mem_append, List.mem_singleton, not_or]
    exact ⟨h.not_null, Ne.symm ha.ne_null⟩
  have hmem : ∀ y ∈ xs, (appended this order s).memory y =
      linkNext s.memory s.level.tailOrder order y :=
    fun y hy => Function.update_of_ne (hne y hy) _ _
  refine ⟨?_, hnd, hnull, ?_, ?_, ?_, ?_, ?_⟩
  · apply h.linked.append h.nodup
    · simp [nextOf, appended]
    · simp [previousOf, appended, h.tail]
    · intro y hy
      rw [nextOf, hmem y hy, linkNext_nextOrder (hy0 y hy), h.tail]
      rfl
    · intro y hy
      rw [previousOf, hmem y hy, (linkNext_others _ _ _ _).1]
      rfl
  · rw [headD_append]
    cases xs with
    | nil =>
      have htail : s.level.tailOrder = nullptr := h.tail
      simp [appended, htail]
    | cons x xs =>
      have htail : s.level.tailOrder ≠ nullptr := by
        rw [h.tail, List.getLastD_cons]
        intro heq
        have hlast : xs.getLastD x ∈ x :: xs := List.getLastD_mem_cons
        exact h.not_null (heq ▸ hlast)
      simp [appended, htail, h.head]
  · simp [appended]
  · have hlt := length_lt_of_nodup hnd hnull
    simp only [List.length_append, List.length_cons, List.length_nil] at hlt ⊢
    simp only [appended]
    rw [UInt64.toNat_add, UInt64.toNat_one, h.count]
    exact Nat.mod_eq_of_lt (by omega)
  · intro y hy
    rcases List.mem_append.mp hy with hy | hy
    · rw [hmem y hy, (linkNext_others _ _ _ _).2.1]
      exact h.owner y hy
    · rw [List.mem_singleton.mp hy]
      simp [appended]
  · intro y hy
    rcases List.mem_append.mp hy with hy | hy
    · have hval := congrArg Order.price (linkNext_others s.memory s.level.tailOrder order y).2.2
      rw [hmem y hy]
      exact hval.trans (h.price y hy)
    · rw [List.mem_singleton.mp hy]
      simpa [appended] using ha.price

theorem unlinked_memory {y : OrderPtr} (hy : y ≠ order) :
    (unlinked order s).memory y = linkPrevious
      (linkNext s.memory (s.memory order).previousOrder (s.memory order).nextOrder)
      (s.memory order).nextOrder (s.memory order).previousOrder y :=
  Function.update_of_ne hy _ _

section Unlinking

variable (h : Represents this s (xs ++ order :: ys))
include h

theorem neighbours : (s.memory order).previousOrder = xs.getLastD nullptr ∧
    (s.memory order).nextOrder = ys.headD nullptr := by
  obtain ⟨_, hprev, hnext, _⟩ := linked_append.mp h.linked
  exact ⟨hprev, hnext⟩

theorem order_ne_null : order ≠ nullptr := by
  intro heq
  exact h.not_null (by simp [heq])

theorem previous_ne : (s.memory order).previousOrder ≠ order := by
  rw [h.neighbours.1]
  intro heq
  have hmem : xs.getLastD nullptr ∈ nullptr :: xs := List.getLastD_mem_cons
  rw [heq] at hmem
  rcases List.mem_cons.mp hmem with hnull | hmem
  · exact h.order_ne_null hnull
  · exact (List.nodup_append.mp h.nodup).2.2 order hmem order (by simp) rfl

theorem next_ne : (s.memory order).nextOrder ≠ order := by
  rw [h.neighbours.2]
  intro heq
  cases ys with
  | nil => exact h.order_ne_null heq.symm
  | cons y ys =>
    have hnd := (List.nodup_append.mp h.nodup).2.1
    simp only [List.headD_cons] at heq
    subst y
    simp at hnd

theorem removeOrder_run :
    removeOrder this order s = (.returns (), unlinked order s) :=
  removeOrder_of_member h.order_ne_null (h.owner order (by simp)) h.previous_ne h.next_ne

/-- Unlinking: the order leaves the list, wherever it stands. -/
theorem unlink : Represents this (unlinked order s) (xs ++ ys) := by
  have hsub : ∀ y ∈ xs ++ ys, y ∈ xs ++ order :: ys := by
    intro y hy
    simp only [List.mem_append, List.mem_cons] at hy ⊢
    tauto
  have hnd : (xs ++ ys).Nodup := h.nodup.sublist (by simp)
  have hy0 : ∀ y ∈ xs ++ ys, y ≠ nullptr := fun y hy heq => h.not_null (heq ▸ hsub y hy)
  have hne : ∀ y ∈ xs ++ ys, y ≠ order := by
    intro y hy heq
    subst y
    have hmid := (List.nodup_middle.mp h.nodup)
    exact (List.nodup_cons.mp hmid).1 hy
  have hothers : ∀ y ∈ xs ++ ys,
      ((unlinked order s).memory y).priceLevel = (s.memory y).priceLevel ∧
        ((unlinked order s).memory y).detached = (s.memory y).detached := by
    intro y hy
    rw [unlinked_memory (hne y hy), (linkPrevious_others _ _ _ _).2.1,
      (linkPrevious_others _ _ _ _).2.2, (linkNext_others _ _ _ _).2.1,
      (linkNext_others _ _ _ _).2.2]
    exact ⟨rfl, rfl⟩
  refine ⟨?_, hnd, fun hmem => hy0 _ hmem rfl, ?_, ?_, ?_, ?_, ?_⟩
  · apply h.linked.unlink h.nodup h.not_null
    · intro y hy
      rw [nextOf, unlinked_memory (hne y hy), (linkPrevious_others _ _ _ _).1,
        linkNext_nextOrder (hy0 y hy)]
      rfl
    · intro y hy
      rw [previousOf, unlinked_memory (hne y hy), linkPrevious_previousOrder (hy0 y hy),
        (linkNext_others _ _ _ _).1]
      rfl
  · simp only [unlinked, h.neighbours.1, h.neighbours.2, h.head, headD_append]
    cases xs with
    | nil => simp
    | cons x xs =>
      have hlast : xs.getLastD x ∈ x :: xs := List.getLastD_mem_cons
      have hne0 : xs.getLastD x ≠ nullptr := hy0 _ (List.mem_append_left _ hlast)
      rw [List.getLastD_cons, if_pos hne0]
      rfl
  · simp only [unlinked, h.neighbours.1, h.neighbours.2, h.tail, getLastD_append,
      List.getLastD_cons]
    cases ys with
    | nil => simp
    | cons y ys =>
      have hne0 : y ≠ nullptr := hy0 _ (by simp)
      rw [List.headD_cons, if_pos hne0, List.getLastD_cons, List.getLastD_cons]
  · have hlen : s.level.count.toNat = (xs ++ ys).length + 1 := by
      rw [h.count]
      simp
      omega
    have hle : (1 : UInt64) ≤ s.level.count := by
      rw [UInt64.le_iff_toNat_le, UInt64.toNat_one]
      omega
    simp only [unlinked]
    rw [UInt64.toNat_sub_of_le _ _ hle, UInt64.toNat_one]
    omega
  · intro y hy
    rw [(hothers y hy).1]
    exact h.owner y (hsub y hy)
  · intro y hy
    exact (congrArg Order.price (hothers y hy).2).trans (h.price y (hsub y hy))

end Unlinking

/-- Appending writes no order outside the level. -/
theorem appended_untouched (h : Represents this s xs) {y : OrderPtr} (hy : y ∉ xs)
    (hne : y ≠ order) : (appended this order s).memory y = s.memory y := by
  have hmem : (appended this order s).memory y = linkNext s.memory s.level.tailOrder order y :=
    Function.update_of_ne hne _ _
  rw [hmem]
  by_cases htail : s.level.tailOrder = nullptr
  · simp [linkNext, htail]
  · exact linkNext_of_ne fun heq => hy (heq ▸ h.tail_mem htail)

/-- Unlinking writes no order outside the level. -/
theorem unlinked_untouched (h : Represents this s (xs ++ order :: ys)) {y : OrderPtr}
    (hy : y ∉ xs ++ order :: ys) (hnull : y ≠ nullptr) :
    (unlinked order s).memory y = s.memory y := by
  have hne : y ≠ order := fun heq => hy (by simp [heq])
  obtain ⟨hprevious, hnext⟩ := h.neighbours
  rw [unlinked_memory hne, linkPrevious_of_ne, linkNext_of_ne]
  · rw [hprevious]
    intro heq
    have hlast : xs.getLastD nullptr ∈ nullptr :: xs := List.getLastD_mem_cons
    rw [← heq] at hlast
    rcases List.mem_cons.mp hlast with hy0 | hmem
    · exact hnull hy0
    · exact hy (by simp [hmem])
  · rw [hnext]
    intro heq
    cases ys with
    | nil => exact hnull heq
    | cons z zs => exact hy (by simp [heq])

end Represents

end Leka.PriceLevels
