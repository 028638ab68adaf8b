import Leka.FailedInsertions

/-!
What is seen of a book besides its free memory: the queue of every level, the members of
the resting orders and the aggregates. A change that acts on each resting order by itself,
removing it or setting its remaining quantity, determines the whole view after it, because
the excess of every aggregate stays. Such changes compose.
-/

namespace Leka.BookViews

open Procedures Orders PriceLevels PriceLadders OrderBooks Buckets SyncedBooks BookRemovals
  BookInsertions ReferenceMatchers RestingOrders FailedInsertions

/-- What becomes of the order with an id and a remaining quantity: it is removed, or its
remaining quantity is set. -/
abbrev Change := OrderId → Quantity → Option Quantity

/-- The change of one resting order. -/
def Change.at (change : Change) (order : Order) : Option Quantity :=
  change order.orderId order.remainingQuantity

/-- Nothing happens to any order. -/
def Change.none : Change := fun _ remaining => some remaining

/-- The second change is made after the first. -/
def Change.andThen (change change' : Change) : Change :=
  fun id remaining => (change id remaining).bind (change' id)

/-- The view of the second book is that of the first with the change made to every order. -/
structure Changed (hash : OrderId → UInt64) (change : Change) (book book' : OrderBook) : Prop where
  sound : Sound hash book'
  grid : ∀ d, PriceLadder.SameGrid (book.ladder d) (book'.ladder d)
  queue : ∀ l, fifo book' l = (fifo book l).filter fun p => (change.at (book.memory p)).isSome
  orders : ∀ l, ∀ p ∈ fifo book l, ∀ quantity,
    change.at (book.memory p) = some quantity →
    (book'.memory p).detached = { (book.memory p).detached with remainingQuantity := quantity }
  excess_eq : ∀ l, excess book' l = excess book l

section Views

variable {hash : OrderId → UInt64} {book book' book'' : OrderBook} {change change' : Change}
  {l : LevelPtr} {p : OrderPtr}

/-- A queue is what rests on its side at its price. -/
theorem queue_of_price {queues : Queues} (h : LevelsOk book queues)
    (hl : l.index < (book.ladder l.descending).levelCount.toNat) :
    (sideOrders book queues l.descending).filter (fun q =>
      (book.memory q).price.toNat = (book.ladder l.descending).slotPrice l.index) = queues l := by
  have hother : ∀ i < (book.ladder l.descending).levelCount.toNat, i ≠ l.index →
      ∀ q ∈ queues ⟨l.descending, i⟩, ¬ (book.memory q).price.toNat =
        (book.ladder l.descending).slotPrice l.index := by
    intro i hi hne q hq heq
    rw [price_toNat h hq] at heq
    exact hne ((h.configured l.descending).slotPrice_inj hi hl heq)
  rw [sideOrders_split hl, List.filter_append, List.filter_append]
  have hfront : (gather l.index fun i => queues ⟨l.descending, i⟩).filter (fun q =>
      (book.memory q).price.toNat = (book.ladder l.descending).slotPrice l.index) = [] := by
    rw [List.filter_eq_nil_iff]
    intro q hq
    obtain ⟨i, hi, hq⟩ := mem_gather.mp hq
    simpa using hother i (hi.trans hl) hi.ne q hq
  have hback : (gatherAfter (book.ladder l.descending).levelCount.toNat l.index
      fun i => queues ⟨l.descending, i⟩).filter (fun q =>
        (book.memory q).price.toNat = (book.ladder l.descending).slotPrice l.index) = [] := by
    rw [List.filter_eq_nil_iff]
    intro q hq
    obtain ⟨i, hi, hlt, hq⟩ := mem_gatherAfter.mp hq
    simpa using hother i hlt hi.ne' q hq
  have hown : (queues l).filter (fun q => (book.memory q).price.toNat =
      (book.ladder l.descending).slotPrice l.index) = queues l := by
    rw [List.filter_eq_self]
    intro q hq
    simpa using price_toNat h hq
  rw [hfront, hback, hown, List.nil_append, List.append_nil]

theorem sameGrid_symm {ladder ladder' : PriceLadder} (h : PriceLadder.SameGrid ladder ladder') :
    PriceLadder.SameGrid ladder' ladder :=
  ⟨h.minPrice.symm, h.tickSize.symm, h.maxPrice.symm, h.levelCount.symm, h.descending.symm⟩

/-- A sum over orders with the same members, and the excess, give the same aggregate. -/
theorem total_of_excess (h : LevelsOk book (fifo book)) (h' : LevelsOk book' (fifo book'))
    (hfifo : fifo book' l = fifo book l)
    (horders : SameOrders book.memory book'.memory (fifo book l))
    (hexcess : excess book' l = excess book l) :
    (book'.level l).totalQuantity = (book.level l).totalQuantity := by
  apply UInt64.toNat_inj.mp
  rw [total_eq h', total_eq h, hfifo, hexcess, remainingSum_congr horders]

/-- Books with one view differ in free memory only. -/
theorem restored_of_view (hs : Sound hash book) (hs' : Sound hash book')
    (hgrid : ∀ d, PriceLadder.SameGrid (book.ladder d) (book'.ladder d))
    (hfifo : ∀ l, fifo book' l = fifo book l)
    (horders : ∀ l, SameOrders book.memory book'.memory (fifo book l))
    (hexcess : ∀ l, excess book' l = excess book l) : Restored hash book book' := by
  apply restored_of_rejected hs.synced
  have hqueues : fifo book' = fifo book := funext hfifo
  refine ⟨hqueues ▸ hs'.synced, hgrid, fun l => horders l, ?_⟩
  intro l
  exact total_of_excess hs.synced.toLevelsOk hs'.synced.toLevelsOk (hfifo l) (horders l) (hexcess l)

/-- The members that a change does not touch. -/
theorem Changed.fields (h : Changed hash change book book') (hp : p ∈ fifo book l)
    {quantity : Quantity} (hchange : change.at (book.memory p) = some quantity) :
    (book'.memory p).orderId = (book.memory p).orderId ∧
      (book'.memory p).remainingQuantity = quantity := by
  have horder := h.orders l p hp quantity hchange
  have hid : (book'.memory p).detached.orderId = (book.memory p).detached.orderId := by
    rw [horder]
  have hremaining : (book'.memory p).detached.remainingQuantity = quantity := by
    rw [horder]
  exact ⟨hid, hremaining⟩

/-- A change that changes nothing that rests. -/
theorem changed_same (hs : Sound hash book) {change : Change}
    (hsame : ∀ l, ∀ p ∈ fifo book l,
      change.at (book.memory p) = some (book.memory p).remainingQuantity) :
    Changed hash change book book where
  sound := hs
  grid := fun d => .refl _
  queue := by
    intro l
    symm
    rw [List.filter_eq_self]
    intro p hp
    rw [hsame l p hp]
    rfl
  orders := by
    intro l p hp quantity hquantity
    rw [hsame l p hp] at hquantity
    obtain rfl : (book.memory p).remainingQuantity = quantity := Option.some.inj hquantity
    rfl
  excess_eq := fun _ => rfl

theorem Changed.refl (hs : Sound hash book) : Changed hash Change.none book book :=
  changed_same hs fun _ _ _ => rfl

theorem Changed.mem (h : Changed hash change book book') : p ∈ fifo book' l ↔
    p ∈ fifo book l ∧ ∃ quantity, change.at (book.memory p) = some quantity := by
  rw [h.queue, List.mem_filter, Option.isSome_iff_exists]

theorem Changed.trans (h : Changed hash change book book')
    (h' : Changed hash change' book' book'') :
    Changed hash (change.andThen change') book book'' := by
  have hstep : ∀ l, ∀ p ∈ fifo book l, ∀ quantity,
      change.at (book.memory p) = some quantity →
      (change.andThen change').at (book.memory p) = change'.at (book'.memory p) := by
    intro l p hp quantity hquantity
    obtain ⟨hid, hremaining⟩ := h.fields hp hquantity
    rw [Change.at, Change.andThen, Change.at, hid, hremaining]
    rw [Change.at] at hquantity
    rw [hquantity, Option.bind_some]
  have hgone : ∀ p, change.at (book.memory p) = Option.none →
      (change.andThen change').at (book.memory p) = Option.none := by
    intro p hnone
    rw [Change.at] at hnone
    rw [Change.at, Change.andThen, hnone, Option.bind_none]
  refine ⟨h'.sound, fun d => (h.grid d).trans (h'.grid d), ?_, ?_, ?_⟩
  · intro l
    rw [h'.queue, h.queue, List.filter_filter]
    apply List.filter_congr
    intro p hp
    cases hchange : change.at (book.memory p) with
    | none => rw [hgone p hchange, Option.isSome_none, Bool.and_false]
    | some quantity => rw [hstep l p hp quantity hchange, Option.isSome_some, Bool.and_true]
  · intro l p hp quantity hquantity
    cases hchange : change.at (book.memory p) with
    | none =>
      rw [hgone p hchange] at hquantity
      cases hquantity
    | some left =>
      rw [hstep l p hp left hchange] at hquantity
      rw [h'.orders l p (h.mem.mpr ⟨hp, left, hchange⟩) quantity hquantity,
        h.orders l p hp left hchange]
  · intro l
    rw [h'.excess_eq, h.excess_eq]

/-- A change determines the view after it. -/
theorem Changed.unique (h : Changed hash change book book') (h' : Changed hash change book book'') :
    Restored hash book' book'' ∧ fifo book'' = fifo book' := by
  have hfifo : ∀ l, fifo book'' l = fifo book' l := by
    intro l
    rw [h'.queue, h.queue]
  refine ⟨restored_of_view h.sound h'.sound
    (fun d => (sameGrid_symm (h.grid d)).trans (h'.grid d)) hfifo ?_ ?_, funext hfifo⟩
  · intro l p hp
    obtain ⟨hp, quantity, hquantity⟩ := h.mem.mp hp
    rw [h'.orders l p hp quantity hquantity, h.orders l p hp quantity hquantity]
  · intro l
    rw [h'.excess_eq, h.excess_eq]

end Views

end Leka.BookViews
