import Leka.BookInsertions
import Leka.ReferenceMatchers

/-!
The resting orders of a book, read off the book alone: a level's queue is the walk from its
head, and a side lists the queues from the best index on. When the parts of the book agree
these are the queues of the invariant, each side is sorted by price, and every procedure of
the book has a plain effect on the two lists.
-/

namespace Leka.RestingOrders

open Procedures Orders LinkedChain PriceLevels PriceLadders WordBits OrderBooks Buckets
  SyncedBooks BookRemovals BookInsertions ReferenceMatchers

/-- The orders linked in a level, from its head on. -/
def fifo (book : OrderBook) (l : LevelPtr) : List OrderPtr :=
  walk (nextOf book.memory) (book.level l).headOrder (book.level l).count.toNat

/-- What is seen of a resting order. -/
def restingOf (order : Order) : Resting where
  orderId := order.orderId
  price := order.price.toNat
  originalQuantity := order.originalQuantity.toNat
  remainingQuantity := order.remainingQuantity.toNat
  timestamp := order.timestamp
  sequenceNumber := order.sequenceNumber.toNat

/-- One side of the book, best price first and first in first at one price. -/
def resting (book : OrderBook) (isBid : Bool) : List Resting :=
  (sideOrders book (fifo book) isBid).map fun p => restingOf (book.memory p)

/-- Every aggregate is the sum of what rests in its level. -/
def ExactTotals (book : OrderBook) : Prop :=
  ∀ l, (book.level l).totalQuantity.toNat = remainingSum book.memory (fifo book l)

/-- What the aggregate of a level counts beyond what rests there. -/
def excess (book : OrderBook) (l : LevelPtr) : ℕ :=
  (book.level l).totalQuantity.toNat - remainingSum book.memory (fifo book l)

/-- The parts of the book agree, and every resting order has something left. -/
structure Sound (hash : OrderId → UInt64) (book : OrderBook) : Prop where
  synced : Synced hash book (fifo book)
  positive : Positive book (fifo book)

section Queues

variable {hash : OrderId → UInt64} {book book' : OrderBook} {queues : Queues} {l : LevelPtr}
  {p q : OrderPtr} {d : Bool}

theorem restingOf_of_detached {order order' : Order} (h : order'.detached = order.detached) :
    restingOf order' = restingOf order := by
  obtain ⟨hid, hprice, horiginal, hremaining, htime, _, _, hseq⟩ := detached_fields h
  simp only [restingOf, hid, hprice, horiginal, hremaining, htime, hseq]

/-- The walks find the queues. -/
theorem fifo_eq (h : LevelsOk book queues) : fifo book = queues := by
  funext l
  have hrep := h.represents l
  rw [fifo, hrep.head, hrep.count]
  exact hrep.linked.walk_eq

theorem sound_of_synced (h : Synced hash book queues) (hpos : Positive book queues) :
    Sound hash book := by
  have hqueues := fifo_eq h.toLevelsOk
  exact ⟨by rw [hqueues]; exact h, by rw [hqueues]; exact hpos⟩

theorem resting_eq (h : LevelsOk book queues) (d : Bool) :
    resting book d = (sideOrders book queues d).map fun p => restingOf (book.memory p) := by
  rw [resting, fifo_eq h]

/-- The orders of a level carry its price. -/
theorem price_toNat (h : LevelsOk book queues) (hp : p ∈ queues l) :
    (book.memory p).price.toNat = (book.ladder l.descending).slotPrice l.index := by
  rw [(h.represents l).price p hp]
  exact (h.configured l.descending).level_price l.index (h.queue_lt hp)

/-- Prices are better at smaller indices. -/
theorem noWorse_slotPrice (h : LevelsOk book queues) (d : Bool) {i j : ℕ}
    (hj : j < (book.ladder d).levelCount.toNat) (hij : i ≤ j) :
    noWorse d ((book.ladder d).slotPrice i) ((book.ladder d).slotPrice j) = true ∧
      (i ≠ j → noWorse d ((book.ladder d).slotPrice j) ((book.ladder d).slotPrice i) = false) := by
  rcases Nat.eq_or_lt_of_le hij with rfl | hlt
  · exact ⟨noWorse_refl _ _, fun hne => absurd rfl hne⟩
  · have hprices := (h.configured d).slotPrice_lt hlt hj
    rw [h.descending] at hprices
    cases d with
    | true =>
      simp only [if_true] at hprices
      simp only [noWorse, if_true, decide_eq_true_eq, decide_eq_false_iff_not]
      omega
    | false =>
      simp only [Bool.false_eq_true, if_false] at hprices
      simp only [noWorse, Bool.false_eq_true, if_false, decide_eq_true_eq, decide_eq_false_iff_not]
      omega

/-- A relation between resting orders of a side that holds within a level and from better
prices to worse ones. -/
theorem pairwise_sideOrders (h : LevelsOk book queues) (d : Bool) {R : OrderPtr → OrderPtr → Prop}
    (hin : ∀ l, l.descending = d → (queues l).Pairwise R)
    (hacross : ∀ l m, l.descending = d → m.descending = d → ∀ p ∈ queues l, ∀ q ∈ queues m,
      noWorse d (book.memory q).price.toNat (book.memory p).price.toNat = false → R p q) :
    (sideOrders book queues d).Pairwise R := by
  apply pairwise_gather
  · intro i _
    exact hin ⟨d, i⟩ rfl
  · intro i j hij hj p hp q hq
    refine hacross ⟨d, i⟩ ⟨d, j⟩ rfl rfl p hp q hq ?_
    rw [price_toNat h hp, price_toNat h hq]
    exact (noWorse_slotPrice h d hj hij.le).2 (by omega)

/-- Each side is sorted by price. -/
theorem sorted_sideOrders (h : LevelsOk book queues) (d : Bool) :
    (sideOrders book queues d).Pairwise fun p q =>
      noWorse d (book.memory p).price.toNat (book.memory q).price.toNat = true := by
  apply pairwise_sideOrders h
  · intro l hl
    apply List.pairwise_of_forall_mem_list
    intro p hp q hq
    rw [price_toNat h hp, price_toNat h hq]
    exact noWorse_refl _ _
  · intro l m _ _ p _ q _ hworse
    rcases noWorse_total d (book.memory p).price.toNat (book.memory q).price.toNat with hp | hq
    · exact hp
    · rw [hq] at hworse
      simp at hworse

/-- The best level of a side is where its first order rests. -/
theorem best_cases (h : LevelsOk book queues) (d : Bool) :
    ((book.ladder d).best = none ∧ sideOrders book queues d = []) ∨
      ∃ l p xs, l.descending = d ∧ (book.ladder d).best = some l ∧ queues l = p :: xs ∧
        sideOrders book queues d = p :: (xs ++
          gatherAfter (book.ladder d).levelCount.toNat l.index fun i => queues ⟨d, i⟩) := by
  rcases (h.marked d).best_cases (h.configured d) with ⟨hnone, hclear⟩ | ⟨i, hbest, hlt, hleast⟩
  · left
    refine ⟨hnone, gather_eq_nil.mpr ?_⟩
    intro i _
    have hbit := h.bits ⟨d, i⟩
    rw [hclear] at hbit
    simpa using hbit.symm
  · right
    have hset := h.bits ⟨d, i⟩
    rw [hleast.set] at hset
    obtain ⟨p, xs, hqueue⟩ := List.exists_cons_of_ne_nil (of_decide_eq_true hset.symm)
    refine ⟨⟨d, i⟩, p, xs, rfl, by rw [hbest, h.descending], hqueue, ?_⟩
    have hfront : gather i (fun j => queues ⟨d, j⟩) = [] := by
      rw [gather_eq_nil]
      intro j hj
      have hbit := h.bits ⟨d, j⟩
      rw [hleast.least j (Nat.zero_le _) hj] at hbit
      simpa using hbit.symm
    have hsplit := @sideOrders_split book queues ⟨d, i⟩ hlt
    rw [hfront, hqueue] at hsplit
    simpa using hsplit

theorem nodup_sideOrders (h : Synced hash book queues) (d : Bool) :
    (sideOrders book queues d).Nodup := by
  have hnd := h.pool.nodup
  rw [restingOrders, List.nodup_append] at hnd
  cases d with
  | true => exact hnd.1
  | false => exact hnd.2.1

/-- A side whose orders keep their places and their members. -/
theorem resting_frame (h : LevelsOk book queues) {queues' : Queues} (h' : LevelsOk book' queues')
    (hside : sideOrders book' queues' d = sideOrders book queues d)
    (horders : ∀ q ∈ sideOrders book queues d,
      (book'.memory q).detached = (book.memory q).detached) :
    resting book' d = resting book d := by
  rw [resting_eq h', resting_eq h, hside]
  apply List.map_congr_left
  intro q hq
  exact restingOf_of_detached (horders q hq)

/-- An aggregate is what rests in the level and its excess. -/
theorem total_eq (h : LevelsOk book (fifo book)) (l : LevelPtr) :
    (book.level l).totalQuantity.toNat = remainingSum book.memory (fifo book l) + excess book l :=
  (Nat.add_sub_cancel' (h.covered l)).symm

theorem exact_of_excess (h : LevelsOk book (fifo book)) (hnone : ∀ l, excess book l = 0) :
    ExactTotals book := by
  intro l
  rw [total_eq h l, hnone l, Nat.add_zero]

theorem excess_of_exact (hexact : ExactTotals book) (l : LevelPtr) : excess book l = 0 :=
  Nat.sub_eq_zero_of_le (le_of_eq (hexact l))

end Queues

section Effects

variable {hash : OrderId → UInt64} {book book' : OrderBook} {queues : Queues} {l : LevelPtr}
  {p : OrderPtr} {order : Order} {quantity total : Quantity}

theorem positive_rejected (hpos : Positive book queues)
    (hr : Rejected hash book book' queues) : Positive book' queues := by
  intro m q hq
  rw [(detached_fields (hr.orders m q hq)).2.2.2.1]
  exact hpos m q hq

theorem resting_rejected (h : LevelsOk book queues) (hr : Rejected hash book book' queues)
    (d : Bool) : resting book' d = resting book d := by
  refine resting_frame h hr.synced.toLevelsOk (sideOrders_grid hr.grid queues d) ?_
  intro q hq
  obtain ⟨i, hq⟩ := (h.mem_sideOrders d).mp hq
  exact hr.orders _ q hq

theorem sideOrders_removed (h : LevelsOk book queues) (hp : p ∈ queues l)
    (hgrid : ∀ d, PriceLadder.SameGrid (book.ladder d) (book'.ladder d)) (d : Bool) :
    sideOrders book' (Function.update queues l ((queues l).erase p)) d =
      (sideOrders book queues d).erase p := by
  have hlt := h.queue_lt hp
  rw [sideOrders_grid hgrid]
  by_cases hd : d = l.descending
  · subst d
    have hfront : p ∉ gather l.index fun i => queues ⟨l.descending, i⟩ := by
      rw [mem_gather]
      intro hmem
      obtain ⟨i, hi, hmem⟩ := hmem
      have heq := congrArg LevelPtr.index (h.level_unique hmem hp)
      simp only at heq
      omega
    rw [sideOrders_update_self hlt, sideOrders_split hlt, List.erase_append_right _ hfront,
      List.erase_append_left _ hp]
  · have hnot : p ∉ sideOrders book queues d := by
      rw [h.mem_sideOrders]
      intro hmem
      obtain ⟨i, hmem⟩ := hmem
      exact hd (congrArg LevelPtr.descending (h.level_unique hmem hp))
    rw [sideOrders_update_ne hd, List.erase_of_not_mem hnot]

theorem positive_removed (h : LevelsOk book queues) (hp : p ∈ queues l)
    (hpos : ∀ m, ∀ q ∈ queues m, q ≠ p → (book.memory q).remainingQuantity ≠ 0)
    (hr : Removed hash book book' queues l p) :
    Positive book' (Function.update queues l ((queues l).erase p)) := by
  intro m q hq
  obtain ⟨hne, m', hq'⟩ := (mem_update_erase h hp).mp ⟨m, hq⟩
  rw [(detached_fields (hr.orders q)).2.2.2.1]
  exact hpos m' q hq' hne

/-- Removal takes the one order with the id out of its side. -/
theorem resting_removed (h : Synced hash book queues) (hp : p ∈ queues l)
    (hr : Removed hash book book' queues l p) (d : Bool) :
    resting book' d =
      (resting book d).filter fun order => order.orderId ≠ (book.memory p).orderId := by
  rw [resting_eq hr.synced.toLevelsOk, resting_eq h.toLevelsOk,
    sideOrders_removed h.toLevelsOk hp hr.grid, (nodup_sideOrders h d).erase_eq_filter,
    List.filter_map]
  have hfilter : (sideOrders book queues d).filter (fun q => q != p) =
      (sideOrders book queues d).filter ((fun order : Resting =>
        decide (order.orderId ≠ (book.memory p).orderId)) ∘
          fun q => restingOf (book.memory q)) := by
    apply List.filter_congr
    intro q hq
    obtain ⟨i, hq⟩ := (h.mem_sideOrders d).mp hq
    have hid : (book.memory q).orderId = (book.memory p).orderId ↔ q = p := by
      constructor
      · exact h.id_unique hq hp
      · intro heq
        rw [heq]
    simp [restingOf, hid, bne]
    grind
  rw [hfilter]
  apply List.map_congr_left
  intro q _
  exact restingOf_of_detached (hr.orders q)

theorem positive_resized (hpos : Positive book queues) (hquantity : quantity ≠ 0) :
    Positive (withTotal (withRemaining book p quantity) l total) queues := by
  intro m q hq
  rw [(withTotal_frame _ l total).1]
  by_cases hqp : q = p
  · rw [hqp, withRemaining_self]
    exact hquantity
  · rw [withRemaining_ne hqp]
    exact hpos m q hq

/-- A resized order keeps its place. -/
theorem resting_resized
    (h' : LevelsOk (withTotal (withRemaining book p quantity) l total) queues) (d : Bool) :
    resting (withTotal (withRemaining book p quantity) l total) d =
      (sideOrders book queues d).map fun q =>
        if q = p then (restingOf (book.memory q)).withRemaining quantity.toNat
        else restingOf (book.memory q) := by
  have hside : sideOrders (withTotal (withRemaining book p quantity) l total) queues d =
      sideOrders book queues d := by
    rw [sideOrders, sideOrders]
    congr 2
    cases d <;> cases hl : l.descending <;>
      simp [withTotal, OrderBook.setLevel, OrderBook.setLadder, OrderBook.ladder, hl,
        PriceLadder.setLevel, withRemaining]
  rw [resting_eq h', hside]
  apply List.map_congr_left
  intro q _
  rw [(withTotal_frame _ l total).1]
  by_cases hqp : q = p
  · rw [if_pos hqp, hqp, withRemaining_self]
    rfl
  · rw [if_neg hqp, withRemaining_ne hqp]

/-- An order and the aggregate of its level shrink by the same amount. -/
theorem excess_resized (hs : Synced hash book (fifo book)) (hp : p ∈ fifo book l)
    (hle : quantity ≤ (book.memory p).remainingQuantity) (m : LevelPtr) :
    excess (withTotal (withRemaining book p quantity) l
      ((book.level l).totalQuantity - ((book.memory p).remainingQuantity - quantity))) m =
      excess book m := by
  have h := hs.toLevelsOk
  have hr := relevelled_withTotal
    ((book.level l).totalQuantity - ((book.memory p).remainingQuantity - quantity))
    (synced_shrink hs hle).toLevelsOk hp
  rw [excess, excess, fifo_eq (synced_resize hs hp hle).toLevelsOk,
    (withTotal_frame (withRemaining book p quantity) l _).1]
  by_cases hm : m = l
  · subst m
    have hsum := remainingSum_withRemaining book quantity (h.represents l).nodup hp
    have hcovered := h.covered l
    have hremaining := remainingOf_le_total h hp
    have hnat := UInt64.le_iff_toNat_le.mp hle
    have hdiff := UInt64.toNat_sub_of_le _ _ hle
    rw [remainingOf] at hsum hremaining
    rw [hr.level_self]
    change ((book.level l).totalQuantity - _).toNat - _ = _
    rw [UInt64.toNat_sub_of_le _ _ (by rw [UInt64.le_iff_toNat_le]; omega)]
    omega
  · rw [hr.level_ne m hm]
    have hsum : remainingSum (withRemaining book p quantity).memory (fifo book m) =
        remainingSum book.memory (fifo book m) := by
      apply remainingSum_congr
      intro q hq
      rw [withRemaining_ne]
      intro heq
      exact hm (h.level_unique hq (heq ▸ hp))
    rw [hsum]
    rfl

theorem exact_resized (hs : Synced hash book (fifo book)) (hp : p ∈ fifo book l)
    (hle : quantity ≤ (book.memory p).remainingQuantity) (hexact : ExactTotals book) :
    ExactTotals (withTotal (withRemaining book p quantity) l
      ((book.level l).totalQuantity - ((book.memory p).remainingQuantity - quantity))) := by
  have hlevels := (synced_resize hs hp hle).toLevelsOk
  apply exact_of_excess (fifo_eq hlevels ▸ hlevels)
  intro m
  rw [excess_resized hs hp hle]
  exact excess_of_exact hexact m

theorem excess_removed (h : LevelsOk book (fifo book)) (hp : p ∈ fifo book l)
    (hr : Removed hash book book' (fifo book) l p) (m : LevelPtr) :
    excess book' m = excess book m := by
  have hsame : ∀ qs, remainingSum book'.memory qs = remainingSum book.memory qs :=
    fun qs => remainingSum_congr fun q _ => hr.orders q
  rw [excess, excess, fifo_eq hr.synced.toLevelsOk, hsame]
  by_cases hm : m = l
  · subst m
    have hsum := @remainingSum_erase book.memory _ _ hp
    have hremaining := remainingOf_le_total h hp
    rw [remainingOf] at hsum hremaining
    rw [Function.update_self, hr.total,
      UInt64.toNat_sub_of_le _ _ (by rw [UInt64.le_iff_toNat_le]; exact hremaining)]
    omega
  · rw [Function.update_of_ne hm, hr.level_ne m hm]

theorem exact_removed (h : LevelsOk book (fifo book)) (hp : p ∈ fifo book l)
    (hr : Removed hash book book' (fifo book) l p) (hexact : ExactTotals book) :
    ExactTotals book' := by
  have hlevels := hr.synced.toLevelsOk
  apply exact_of_excess (fifo_eq hlevels ▸ hlevels)
  intro m
  rw [excess_removed h hp hr]
  exact excess_of_exact hexact m

/-- In terms of ids. -/
theorem resting_resizedId (h : Synced hash book queues) (hp : p ∈ queues l)
    (h' : LevelsOk (withTotal (withRemaining book p quantity) l total) queues) (d : Bool) :
    resting (withTotal (withRemaining book p quantity) l total) d =
      (resting book d).map (resizeId (book.memory p).orderId quantity.toNat) := by
  rw [resting_resized h', resting_eq h.toLevelsOk, List.map_map]
  apply List.map_congr_left
  intro q hq
  obtain ⟨i, hq⟩ := (h.mem_sideOrders d).mp hq
  by_cases hqp : q = p
  · have hid : (restingOf (book.memory p)).orderId = (book.memory p).orderId := rfl
    rw [if_pos hqp, hqp, Function.comp_apply, resizeId, if_pos hid]
  · have hid : (restingOf (book.memory q)).orderId ≠ (book.memory p).orderId :=
      fun heq => hqp (h.id_unique hq hp heq)
    rw [if_neg hqp, Function.comp_apply, resizeId, if_neg hid]

theorem positive_inserted (hpos : Positive book queues) (hremaining : order.remainingQuantity ≠ 0)
    (hi : Inserted hash book book' queues l p order) :
    Positive book' (Function.update queues l (queues l ++ [p])) := by
  have hold : ∀ m, ∀ q ∈ queues m, (book'.memory q).remainingQuantity ≠ 0 := by
    intro m q hq
    rw [(detached_fields (hi.orders m q hq)).2.2.2.1]
    exact hpos m q hq
  intro m q hq
  by_cases hm : m = l
  · subst m
    rw [Function.update_self, List.mem_append, List.mem_singleton] at hq
    rcases hq with hq | rfl
    · exact hold l q hq
    · rw [(detached_fields hi.placed).2.2.2.1]
      exact hremaining
  · rw [Function.update_of_ne hm] at hq
    exact hold m q hq

theorem resting_inserted_ne (h : LevelsOk book queues)
    (hi : Inserted hash book book' queues l p order) {d : Bool} (hd : d ≠ order.isBuy) :
    resting book' d = resting book d := by
  refine resting_frame h hi.synced.toLevelsOk ?_ ?_
  · rw [sideOrders_grid hi.grid, sideOrders_update_ne (by rw [hi.side]; exact hd)]
  · intro q hq
    obtain ⟨i, hq⟩ := (h.mem_sideOrders d).mp hq
    exact hi.orders _ q hq

/-- The side around the end of a level's queue: in front are the orders at least as good as
the level, behind it the others. -/
theorem sideOrders_around (h : LevelsOk book queues)
    (hlt : l.index < (book.ladder l.descending).levelCount.toNat) :
    ∃ front back, sideOrders book queues l.descending = front ++ back ∧
      (∀ p, sideOrders book (Function.update queues l (queues l ++ [p])) l.descending =
        front ++ p :: back) ∧
      (∀ q ∈ front, noWorse l.descending (book.memory q).price.toNat
        ((book.ladder l.descending).slotPrice l.index) = true) ∧
      ∀ q ∈ back, noWorse l.descending (book.memory q).price.toNat
        ((book.ladder l.descending).slotPrice l.index) = false := by
  refine ⟨gather l.index (fun i => queues ⟨l.descending, i⟩) ++ queues l,
    gatherAfter (book.ladder l.descending).levelCount.toNat l.index
      fun i => queues ⟨l.descending, i⟩, ?_, ?_, ?_, ?_⟩
  · rw [sideOrders_split hlt, List.append_assoc]
  · intro p
    rw [sideOrders_update_self hlt, List.append_assoc, List.append_assoc, List.singleton_append]
  · intro q hq
    rcases List.mem_append.mp hq with hq | hq
    · obtain ⟨i, hi, hq⟩ := mem_gather.mp hq
      rw [price_toNat h hq]
      exact (noWorse_slotPrice h _ hlt hi.le).1
    · rw [price_toNat h hq]
      exact noWorse_refl _ _
  · intro q hq
    obtain ⟨i, hi, hin, hq⟩ := mem_gatherAfter.mp hq
    rw [price_toNat h hq]
    exact (noWorse_slotPrice h _ hin hi.le).2 (by omega)

theorem excess_rejected (hr : Rejected hash book book' (fifo book)) (m : LevelPtr) :
    excess book' m = excess book m := by
  rw [excess, excess, fifo_eq hr.synced.toLevelsOk, hr.total,
    remainingSum_congr fun q hq => hr.orders m q hq]

theorem exact_rejected (hr : Rejected hash book book' (fifo book)) (hexact : ExactTotals book) :
    ExactTotals book' := by
  have hlevels := hr.synced.toLevelsOk
  apply exact_of_excess (fifo_eq hlevels ▸ hlevels)
  intro m
  rw [excess_rejected hr]
  exact excess_of_exact hexact m

/-- An inserted order is added to the aggregate of its level. -/
theorem excess_inserted (hi : Inserted hash book book' (fifo book) l p order)
    (hfits : order.remainingQuantity ≤ uint64Max - (book.level l).totalQuantity) (m : LevelPtr) :
    excess book' m = excess book m := by
  have hold : remainingSum book'.memory (fifo book m) = remainingSum book.memory (fifo book m) :=
    remainingSum_congr fun q hq => hi.orders m q hq
  rw [excess, excess, fifo_eq hi.synced.toLevelsOk]
  by_cases hm : m = l
  · subst m
    have hplaced : remainingOf book'.memory p = order.remainingQuantity.toNat := by
      rw [remainingOf, (detached_fields hi.placed).2.2.2.1]
    rw [Function.update_self, remainingSum_append, hold, remainingSum_cons, hplaced, hi.total,
      UInt64.toNat_add, Nat.mod_eq_of_lt ((fits_iff _ _).mp hfits)]
    exact Nat.add_sub_add_right _ _ _
  · rw [Function.update_of_ne hm, hi.total_ne m hm, hold]

theorem exact_inserted (hi : Inserted hash book book' (fifo book) l p order)
    (hfits : order.remainingQuantity ≤ uint64Max - (book.level l).totalQuantity)
    (hexact : ExactTotals book) : ExactTotals book' := by
  have hlevels := hi.synced.toLevelsOk
  apply exact_of_excess (fifo_eq hlevels ▸ hlevels)
  intro m
  rw [excess_inserted hi hfits]
  exact excess_of_exact hexact m

/-- An inserted order goes behind the orders that are at least as good. -/
theorem resting_inserted (h : LevelsOk book queues)
    (hi : Inserted hash book book' queues l p order) :
    resting book' order.isBuy =
      enqueue order.isBuy (restingOf order) (resting book order.isBuy) := by
  obtain ⟨front, back, hsplit, hadded, hfront, hback⟩ := sideOrders_around h hi.lt
  have hmap : ∀ qs : List OrderPtr, (∀ q ∈ qs, q ∈ sideOrders book queues l.descending) →
      qs.map (fun q => restingOf (book'.memory q)) = qs.map fun q => restingOf (book.memory q) := by
    intro qs hqs
    apply List.map_congr_left
    intro q hq
    obtain ⟨i, hq⟩ := (h.mem_sideOrders _).mp (hqs q hq)
    exact restingOf_of_detached (hi.orders _ q hq)
  have hprice : (restingOf order).price = (book.ladder l.descending).slotPrice l.index := hi.price
  rw [resting_eq hi.synced.toLevelsOk, resting_eq h, ← hi.side, sideOrders_grid hi.grid, hadded,
    hsplit, List.map_append, List.map_append, List.map_cons, restingOf_of_detached hi.placed,
    hmap front fun q hq => by rw [hsplit]; exact List.mem_append_left _ hq,
    hmap back fun q hq => by rw [hsplit]; exact List.mem_append_right _ hq]
  rw [enqueue, insertBehind_append]
  · intro r hr
    obtain ⟨q, hq, rfl⟩ := List.mem_map.mp hr
    rw [hprice]
    exact hfront q hq
  · intro r hr
    obtain ⟨q, hq, rfl⟩ := List.mem_map.mp hr
    rw [hprice]
    exact hback q hq

end Effects

end Leka.RestingOrders
