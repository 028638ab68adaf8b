import Leka.SyncedBooks
import Mathlib.Algebra.Order.BigOperators.Group.List

/-!
Removal, cancellation and reduction of resting orders. Each procedure is shown to return
on a book whose parts agree, and its effect is stated on the queues: which order leaves
which queue, what happens to the aggregate of its level, and that nothing else changes.
-/

namespace Leka.BookRemovals

open Procedures Orders IndexAsMap PoolAsSet PriceLevels PriceLadders WordBits OrderBooks Buckets
  SyncedBooks

section Unlinking

variable {book : OrderBook} {queues : Queues} {l : LevelPtr} {p : OrderPtr}

/-- The ladders after `p` has left the queue at `l`. -/
abbrev Unlinked (book book' : OrderBook) (queues : Queues) (l : LevelPtr) (p : OrderPtr) : Prop :=
  Requeued book book' queues l ((queues l).erase p)
    ((book.level l).totalQuantity - (book.memory p).remainingQuantity)

theorem erase_middle {xs ys : List OrderPtr} (hnd : (xs ++ p :: ys).Nodup) :
    (xs ++ p :: ys).erase p = xs ++ ys := by
  have hnot : p ∉ xs := by
    intro hmem
    exact (List.nodup_append.mp hnd).2.2 p hmem p (by simp) rfl
  rw [List.erase_append_right _ hnot, List.erase_cons_head]

theorem remainingOf_le_total (h : LevelsOk book queues) (hp : p ∈ queues l) :
    remainingOf book.memory p ≤ (book.level l).totalQuantity.toNat := by
  have hcovered := h.covered l
  rw [remainingSum_erase hp] at hcovered
  omega

/-- Unlinking `p` and then writing the marks leaves the ladders in order. -/
theorem unlinked_of_relevelled (h : LevelsOk book queues) (hp : p ∈ queues l)
    {book' : OrderBook}
    (hr : Relevelled book book' l (unlinked p ⟨book.level l, book.memory⟩).level
      (decide ((queues l).erase p ≠ [])))
    (hmemory : book'.memory = (unlinked p ⟨book.level l, book.memory⟩).memory)
    (hpool : book'.orderPool = book.orderPool) (hindex : book'.orderIndex = book.orderIndex) :
    Unlinked book book' queues l p := by
  have horders : ∀ q, (book'.memory q).detached = (book.memory q).detached := by
    intro q
    rw [hmemory]
    exact unlinked_detached p q _
  obtain ⟨xs, ys, hqueue⟩ := List.append_of_mem hp
  have hrep := h.represents l
  rw [hqueue] at hrep
  have herase : (queues l).erase p = xs ++ ys := by
    rw [hqueue]
    exact erase_middle hrep.nodup
  have huntouched : ∀ m, m ≠ l → ∀ q ∈ queues m, book'.memory q = book.memory q := by
    intro m hm q hq
    rw [hmemory]
    refine hrep.unlinked_untouched ?_ (h.ne_null hq)
    rw [← hqueue]
    exact fun hql => hm (h.level_unique hq hql)
  have hsub : ∀ q ∈ (queues l).erase p, q ∈ queues l := fun q hq => List.mem_of_mem_erase hq
  have htotal : (unlinked p ⟨book.level l, book.memory⟩).level.totalQuantity.toNat =
      (book.level l).totalQuantity.toNat - remainingOf book.memory p :=
    UInt64.toNat_sub_of_le _ _ (UInt64.le_iff_toNat_le.mpr (remainingOf_le_total h hp))
  refine ⟨h.update hr ?_ huntouched ?_ ?_, hr.grid, horders, ?_, hr.level_ne, huntouched, hpool,
    hindex⟩
  · rw [herase, hmemory]
    exact hrep.unlink
  · intro q hq
    exact (h.rests l q (hsub q hq)).of_detached (horders q)
  · have hcovered := h.covered l
    rw [remainingSum_erase hp] at hcovered
    rw [remainingSum_congr (fun q _ => horders q), htotal]
    omega
  · rw [hr.level_self]
    rfl

/-- The common part of every removal: the order is unlinked, and the level is marked empty
if it is. -/
theorem unlink_run (h : LevelsOk book queues) (hp : p ∈ queues l) :
    ∃ book₁, onLevel l (PriceLevels.removeOrder l p) book = (.returns (), book₁) ∧
      (∀ q, (book₁.memory q).detached = (book.memory q).detached) ∧
      (((book₁.level l).isEmpty = true ∧ ∃ book₂,
          onLadder l.descending (markEmpty (book.memory p).price) book₁ = (.returns (), book₂) ∧
          Unlinked book book₂ queues l p) ∨
        ((book₁.level l).isEmpty = false ∧ Unlinked book book₁ queues l p)) := by
  obtain ⟨xs, ys, hqueue⟩ := List.append_of_mem hp
  have hrep := h.represents l
  rw [hqueue] at hrep
  have herase : (queues l).erase p = xs ++ ys := by
    rw [hqueue]
    exact erase_middle hrep.nodup
  have hlt := h.queue_lt hp
  have hset := relevelled_setLevel (unlinked p ⟨book.level l, book.memory⟩).level h.configured
    h.marked hlt rfl
  rw [h.bits l, decide_eq_true (List.ne_nil_of_mem hp)] at hset
  have hempty := hrep.unlink.isEmpty_iff
  obtain ⟨_, hpool, hindex⟩ := setLadder_frame book
    ((book.ladder l.descending).setLevel l.index (unlinked p ⟨book.level l, book.memory⟩).level)
    l.descending
  refine ⟨_, onLevel_run hrep.removeOrder_run, ?_⟩
  -- the write of the memory touches no ladder
  have hset₁ : Relevelled book
      { book.setLevel l (unlinked p ⟨book.level l, book.memory⟩).level with
        memory := (unlinked p ⟨book.level l, book.memory⟩).memory } l
      (unlinked p ⟨book.level l, book.memory⟩).level true :=
    ⟨hset.configured, hset.marked, hset.grid, hset.level_self, hset.level_ne, hset.bit_self,
      hset.bit_ne⟩
  generalize hbook₁ : ({ book.setLevel l (unlinked p ⟨book.level l, book.memory⟩).level with
    memory := (unlinked p ⟨book.level l, book.memory⟩).memory } : OrderBook) = book₁ at *
  have hmemory : book₁.memory = (unlinked p ⟨book.level l, book.memory⟩).memory := by
    rw [← hbook₁]
  have hpool₁ : book₁.orderPool = book.orderPool := by
    rw [← hbook₁]
    exact hpool
  have hindex₁ : book₁.orderIndex = book.orderIndex := by
    rw [← hbook₁]
    exact hindex
  have horders : ∀ q, (book₁.memory q).detached = (book.memory q).detached := by
    intro q
    rw [hmemory]
    exact unlinked_detached p q _
  refine ⟨horders, ?_⟩
  rw [hset₁.level_self]
  by_cases hnil : xs ++ ys = []
  · left
    have hprice : (book₁.ladder l.descending).indexOf (book.memory p).price =
        .ok (UInt64.ofNat l.index) := by
      rw [(hset₁.grid _).indexOf_eq]
      exact h.indexOf_price hp
    obtain ⟨hm, hp', hi⟩ := setLadder_frame book₁
      ((book₁.ladder l.descending).emptiedAt (UInt64.ofNat l.index)) l.descending
    refine ⟨hempty.mpr hnil, _, onLadder_run (PriceLadder.markEmpty_run hprice), ?_⟩
    refine unlinked_of_relevelled h hp ?_ (hm.trans hmemory) (hp'.trans hpool₁) (hi.trans hindex₁)
    rw [herase, hnil]
    exact hset₁.emptied (h.ofNat_index hp) (by rw [(hset₁.grid _).levelCount]; exact hlt)
  · right
    refine ⟨?_, unlinked_of_relevelled h hp ?_ hmemory hpool₁ hindex₁⟩
    · rw [← Bool.not_eq_true]
      exact fun htrue => hnil (hempty.mp htrue)
    · rw [herase, decide_eq_true hnil]
      exact hset₁

end Unlinking

/-- The book after `p` has left the queue at `l`, the index and the pool. -/
structure Removed (hash : OrderId → UInt64) (book book' : OrderBook) (queues : Queues)
    (l : LevelPtr) (p : OrderPtr) : Prop where
  synced : Synced hash book' (Function.update queues l ((queues l).erase p))
  grid : ∀ d, PriceLadder.SameGrid (book.ladder d) (book'.ladder d)
  orders : ∀ q, (book'.memory q).detached = (book.memory q).detached
  total : (book'.level l).totalQuantity =
    (book.level l).totalQuantity - (book.memory p).remainingQuantity
  level_ne : ∀ m, m ≠ l → book'.level m = book.level m
  untouched : ∀ m, m ≠ l → ∀ q ∈ queues m, book'.memory q = book.memory q
  capacity : book'.orderIndex.slots.size = book.orderIndex.slots.size
  count : book'.orderIndex.count = book.orderIndex.count - 1
  freed : book'.orderPool.firstPageWithFreeSlot ≠ none
  pages : book'.orderPool.pages.size = book.orderPool.pages.size
  pageIndex : book'.orderPool.pageIndex = book.orderPool.pageIndex

section Removal

variable {hash : OrderId → UInt64} {book : OrderBook} {queues : Queues} {l m : LevelPtr}
  {p q : OrderPtr}

theorem mem_update_erase (h : LevelsOk book queues) (hp : p ∈ queues l) :
    (∃ m, q ∈ Function.update queues l ((queues l).erase p) m) ↔
      q ≠ p ∧ ∃ m, q ∈ queues m := by
  have hnd := (h.represents l).nodup
  constructor
  · intro hmem
    obtain ⟨m, hq⟩ := hmem
    by_cases hm : m = l
    · subst m
      rw [Function.update_self, hnd.mem_erase_iff] at hq
      exact ⟨hq.1, l, hq.2⟩
    · rw [Function.update_of_ne hm] at hq
      refine ⟨?_, m, hq⟩
      intro heq
      subst q
      exact hm (h.level_unique hq hp)
  · intro hmem
    obtain ⟨hne, m, hq⟩ := hmem
    by_cases hm : m = l
    · subst m
      exact ⟨l, by rw [Function.update_self, hnd.mem_erase_iff]; exact ⟨hne, hq⟩⟩
    · exact ⟨m, by rw [Function.update_of_ne hm]; exact hq⟩

/-- Taking an order out of the book takes it out of the list of all orders. -/
theorem restingOrders_erase (h : LevelsOk book queues) (hp : p ∈ queues l) :
    ((restingOrders book queues).erase p).Perm
      (restingOrders book (Function.update queues l ((queues l).erase p))) := by
  have hperm := restingOrders_perm_cons queues (h.queue_lt hp) (List.perm_cons_erase hp)
  rw [Function.update_eq_self] at hperm
  have herase := hperm.erase p
  rwa [List.erase_cons_head] at herase

/-- Removing a resting order returns, and takes it out of every structure. -/
theorem removeOrder_run (h : Synced hash book queues) (hp : p ∈ queues l) :
    ∃ book', OrderBooks.removeOrder hash p book = (.returns (), book') ∧
      Removed hash book book' queues l p := by
  have hfind : onIndex (OrderIndexing.findOrder hash (book.memory p).orderId) book =
      (.returns p, book) := h.findOrder_self hp
  have howner : (book.memory p).priceLevel = some l := (h.represents l).owner p hp
  obtain ⟨book₁, hunlink, horders, hmark⟩ := unlink_run h.toLevelsOk hp
  have hid : (book₁.memory p).orderId = (book.memory p).orderId := (detached_fields (horders p)).1
  obtain ⟨book₂, hrun, hlinks⟩ : ∃ book₂, OrderBooks.removeOrder hash p book =
      (do
        onIndex (OrderIndexing.removeOrder hash p (book.memory p).orderId)
        onPool (OrderPools.release p) : BookProc Unit) book₂ ∧ Unlinked book book₂ queues l p := by
    simp only [OrderBooks.removeOrder, h.ne_null hp, if_false, Proc.get_bind_apply]
    rw [Proc.bind_returns _ hfind]
    simp only [ne_eq, not_true, if_false, howner, Proc.check_ok, Proc.pure_bind_apply]
    rw [Proc.bind_returns _ hunlink, Proc.get_bind_apply, (h.rests l p hp).isBuy, hid]
    rcases hmark with ⟨hempty, book₂, hrun, hlinks⟩ | ⟨hempty, hlinks⟩
    · rw [if_pos hempty, Proc.bind_returns _ hrun]
      exact ⟨book₂, rfl, hlinks⟩
    · rw [if_neg (by rw [hempty]; simp)]
      exact ⟨book₁, rfl, hlinks⟩
  have hmaps : Maps book.orderIndex (book.memory p).orderId p :=
    (h.indexed _ p).mpr ⟨⟨l, hp⟩, rfl⟩
  obtain ⟨index, hindexRun, hindexOk, hcapacity, hcount, hindexed⟩ : ∃ index,
      OrderIndexing.removeOrder hash p (book.memory p).orderId book.orderIndex =
        (.returns (), index) ∧ IndexOk hash index ∧
      index.slots.size = book.orderIndex.slots.size ∧ index.count = book.orderIndex.count - 1 ∧
      ∀ id q, Maps index id q ↔ id ≠ (book.memory p).orderId ∧ Maps book.orderIndex id q := by
    generalize hrem : OrderIndexing.removeOrder hash p (book.memory p).orderId book.orderIndex =
      result
    obtain ⟨o, index⟩ := result
    obtain ⟨hok, ⟨hnull, _⟩ | ⟨_, habsent, _⟩ | ⟨_, ⟨q, hq, hne⟩, _⟩ |
      ⟨_, rfl, hcapacity, hcount, hindexed⟩⟩ := removeOrder_spec h.index hrem
    · exact absurd hnull (h.ne_null hp)
    · exact absurd hmaps (habsent p)
    · exact absurd (h.index.functional hq hmaps) hne
    · exact ⟨index, rfl, hok, hcapacity, hcount, hindexed⟩
  have hmem : p ∈ restingOrders book queues := h.mem_restingOrders.mpr ⟨l, hp⟩
  obtain ⟨pool, hrelease, hpoolOk, hfreed, hpages, hpageIndex⟩ :=
    release_spec (s := ⟨book₂.orderPool, book₂.memory⟩) (by rw [hlinks.pool]; exact h.pool) hmem
  have hindexRun' : onIndex (OrderIndexing.removeOrder hash p (book.memory p).orderId) book₂ =
      (.returns (), { book₂ with orderIndex := index }) :=
    onIndex_run (by rw [hlinks.index]; exact hindexRun)
  refine ⟨{ book₂ with orderIndex := index, orderPool := pool }, ?_, ?_⟩
  · rw [hrun, Proc.bind_returns _ hindexRun']
    exact onPool_run (s := ⟨pool, book₂.memory⟩) hrelease
  · have hperm := hpoolOk.perm (restingOrders_erase h.toLevelsOk hp)
    rw [← restingOrders_grid hlinks.grid] at hperm
    refine ⟨⟨?_, hindexOk, ?_, hperm⟩, hlinks.grid, hlinks.orders, hlinks.total, hlinks.level_ne,
      hlinks.untouched, hcapacity, hcount, hfreed, ?_, ?_⟩
    · have hlevels := hlinks.levels
      exact ⟨hlevels.configured, hlevels.descending, hlevels.marked, hlevels.represents,
        hlevels.bits, hlevels.rests, hlevels.covered⟩
    · intro id q
      have hidq : (book₂.memory q).orderId = (book.memory q).orderId :=
        (detached_fields (hlinks.orders q)).1
      rw [hindexed, h.indexed, mem_update_erase h.toLevelsOk hp]
      change _ ↔ _ ∧ (book₂.memory q).orderId = id
      rw [hidq]
      constructor
      · intro hq
        obtain ⟨hne, hq, rfl⟩ := hq
        exact ⟨⟨fun heq => hne (by rw [heq]), hq⟩, rfl⟩
      · intro hq
        obtain ⟨⟨hne, m, hq⟩, rfl⟩ := hq
        exact ⟨fun heq => hne (h.id_unique hq hp heq), ⟨m, hq⟩, rfl⟩
    · rw [hpages, hlinks.pool]
    · rw [hpageIndex, hlinks.pool]

end Removal

/-- The book with the remaining quantity of one order rewritten. -/
def withRemaining (book : OrderBook) (p : OrderPtr) (quantity : Quantity) : OrderBook :=
  { book with
    memory := Function.update book.memory p
      { book.memory p with remainingQuantity := quantity } }

/-- The book with the aggregate of one level rewritten. -/
def withTotal (book : OrderBook) (l : LevelPtr) (quantity : Quantity) : OrderBook :=
  book.setLevel l { book.level l with totalQuantity := quantity }

section Resizing

variable {hash : OrderId → UInt64} {book : OrderBook} {queues : Queues} {l : LevelPtr}
  {p q : OrderPtr} {quantity : Quantity}

theorem withRemaining_self (book : OrderBook) (p : OrderPtr) (quantity : Quantity) :
    (withRemaining book p quantity).memory p =
      { book.memory p with remainingQuantity := quantity } := Function.update_self _ _ _

theorem withRemaining_ne (hne : q ≠ p) :
    (withRemaining book p quantity).memory q = book.memory q := Function.update_of_ne hne _ _

/-- Every member but the remaining quantity is as before. -/
theorem withRemaining_keeps {α : Type} (g : Order → α)
    (hg : ∀ order, g { order with remainingQuantity := quantity } = g order) (q : OrderPtr) :
    g ((withRemaining book p quantity).memory q) = g (book.memory q) := by
  by_cases hq : q = p
  · subst q
    rw [withRemaining_self, hg]
  · rw [withRemaining_ne hq]

theorem restsIn_shrink {order : Order} (h : RestsIn order l)
    (hle : quantity ≤ order.remainingQuantity) :
    RestsIn { order with remainingQuantity := quantity } l where
  side := h.side
  limit := h.limit
  valid := by
    have hvalid := h.valid
    simp only [Order.isValid, Order.isBuy, Order.isSell, Order.isLimit, Order.isMarket,
      Bool.and_eq_true, decide_eq_true_eq] at hvalid ⊢
    obtain ⟨⟨⟨⟨⟨⟨⟨hid, horiginal⟩, hremaining⟩, htime⟩, hseq⟩, hside⟩, htype⟩, hprice⟩ := hvalid
    refine ⟨⟨⟨⟨⟨⟨⟨hid, horiginal⟩, ?_⟩, htime⟩, hseq⟩, hside⟩, htype⟩, hprice⟩
    exact UInt64.le_trans hle hremaining

theorem remainingSum_shrink (hle : quantity ≤ (book.memory p).remainingQuantity)
    (orders : List OrderPtr) :
    remainingSum (withRemaining book p quantity).memory orders ≤
      remainingSum book.memory orders := by
  apply List.sum_le_sum
  intro q _
  by_cases hq : q = p
  · subst q
    rw [remainingOf, withRemaining_self]
    exact UInt64.le_iff_toNat_le.mp hle
  · rw [remainingOf, withRemaining_ne hq, remainingOf]

/-- Lowering the remaining quantity of an order leaves the queues as they are. -/
theorem synced_shrink (h : Synced hash book queues)
    (hle : quantity ≤ (book.memory p).remainingQuantity) :
    Synced hash (withRemaining book p quantity) queues where
  configured := h.configured
  descending := h.descending
  marked := h.marked
  represents m := by
    refine (h.represents m).frame rfl ?_
    intro y _
    exact ⟨withRemaining_keeps Order.nextOrder (fun _ => rfl) y,
      withRemaining_keeps Order.previousOrder (fun _ => rfl) y,
      withRemaining_keeps Order.priceLevel (fun _ => rfl) y,
      withRemaining_keeps Order.price (fun _ => rfl) y⟩
  bits := h.bits
  rests m y hy := by
    by_cases hyp : y = p
    · subst y
      rw [withRemaining_self]
      exact restsIn_shrink (h.rests m p hy) hle
    · rw [withRemaining_ne hyp]
      exact h.rests m y hy
  covered m := Nat.le_trans (remainingSum_shrink hle _) (h.covered m)
  index := h.index
  indexed id y := by
    have hid : ((withRemaining book p quantity).memory y).orderId = (book.memory y).orderId :=
      withRemaining_keeps Order.orderId (fun _ => rfl) y
    rw [hid]
    exact h.indexed id y
  pool := h.pool

theorem withTotal_frame (book : OrderBook) (l : LevelPtr) (quantity : Quantity) :
    (withTotal book l quantity).memory = book.memory ∧
      (withTotal book l quantity).orderPool = book.orderPool ∧
      (withTotal book l quantity).orderIndex = book.orderIndex := setLadder_frame _ _ _

theorem relevelled_withTotal (quantity : Quantity) (h : LevelsOk book queues) (hp : p ∈ queues l) :
    Relevelled book (withTotal book l quantity) l
      { book.level l with totalQuantity := quantity } (decide (queues l ≠ [])) := by
  rw [← h.bits l]
  exact relevelled_setLevel _ h.configured h.marked (h.queue_lt hp) rfl

/-- Any aggregate that still covers the queue will do. -/
theorem synced_retotal (h : Synced hash book queues) (hp : p ∈ queues l)
    (hcovered : remainingSum book.memory (queues l) ≤ quantity.toNat) :
    Synced hash (withTotal book l quantity) queues := by
  obtain ⟨hmemory, hpool, hindex⟩ := withTotal_frame book l quantity
  have hr := relevelled_withTotal quantity h.toLevelsOk hp
  have hrep := h.represents l
  have hlevels := h.toLevelsOk.update hr
    (by
      rw [hmemory]
      exact ⟨hrep.linked, hrep.nodup, hrep.not_null, hrep.head, hrep.tail, hrep.count, hrep.owner,
        hrep.price⟩)
    (by
      intro m _ y _
      rw [hmemory])
    (by
      rw [hmemory]
      exact h.rests l)
    (by
      rw [hmemory]
      exact hcovered)
  rw [Function.update_eq_self] at hlevels
  refine ⟨hlevels, ?_, ?_, ?_⟩
  · rw [hindex]
    exact h.index
  · rw [hindex, hmemory]
    exact h.indexed
  · rw [hpool, restingOrders_grid hr.grid]
    exact h.pool

theorem remainingSum_withRemaining (book : OrderBook) (quantity : Quantity)
    {orders : List OrderPtr} (hnd : orders.Nodup)
    (hp : p ∈ orders) :
    remainingSum (withRemaining book p quantity).memory orders + remainingOf book.memory p =
      remainingSum book.memory orders + quantity.toNat := by
  have hrest : remainingSum (withRemaining book p quantity).memory (orders.erase p) =
      remainingSum book.memory (orders.erase p) := by
    apply remainingSum_congr
    intro q hq
    rw [withRemaining_ne (hnd.mem_erase_iff.mp hq).1]
  rw [remainingSum_erase hp, remainingSum_erase hp, hrest, remainingOf, withRemaining_self]
  simp only
  omega

theorem reduceTotal_run (hle : quantity ≤ (book.level l).totalQuantity) :
    onLevel l (reduceTotalQuantity quantity) book =
      (.returns (), withTotal book l ((book.level l).totalQuantity - quantity)) := by
  have hrun : reduceTotalQuantity quantity ⟨book.level l, book.memory⟩ = (.returns (),
      ⟨{ book.level l with totalQuantity := (book.level l).totalQuantity - quantity },
        book.memory⟩) := by
    simp only [reduceTotalQuantity, Proc.get_bind_apply, gt_iff_lt, UInt64.not_lt.mpr hle, if_false,
      updateLevel, Proc.modify_apply]
  rw [onLevel_run hrun]
  obtain ⟨hmemory, _, _⟩ := withTotal_frame book l ((book.level l).totalQuantity - quantity)
  refine congrArg (Prod.mk _) ?_
  rw [← hmemory]
  rfl

/-- An order shrunk in place, together with the aggregate of its level. -/
theorem synced_resize (h : Synced hash book queues) (hp : p ∈ queues l)
    (hle : quantity ≤ (book.memory p).remainingQuantity) :
    Synced hash (withTotal (withRemaining book p quantity) l
      ((book.level l).totalQuantity - ((book.memory p).remainingQuantity - quantity))) queues := by
  have hcovered := h.covered l
  have hsum := remainingSum_withRemaining book quantity (h.represents l).nodup hp
  have hremaining := remainingOf_le_total h.toLevelsOk hp
  have hle' := UInt64.le_iff_toNat_le.mp hle
  have hdiff := UInt64.toNat_sub_of_le _ _ hle
  rw [remainingOf] at hsum hremaining
  refine synced_retotal (synced_shrink h hle) hp ?_
  rw [UInt64.toNat_sub_of_le _ _ (by rw [UInt64.le_iff_toNat_le, hdiff]; omega), hdiff]
  omega

end Resizing

section Requests

variable {hash : OrderId → UInt64} {book : OrderBook} {queues : Queues}

/-- Cancellation removes the order with the id, if there is one. -/
theorem cancelOrder_run (h : Synced hash book queues) (id : OrderId) :
    ((∀ l, ∀ p ∈ queues l, (book.memory p).orderId ≠ id) ∧
        cancelOrder hash id book = (.returns false, book)) ∨
      ∃ l p book', p ∈ queues l ∧ (book.memory p).orderId = id ∧
        cancelOrder hash id book = (.returns true, book') ∧
        Removed hash book book' queues l p := by
  obtain ⟨found, hfind, hcase⟩ := h.findOrder_run id
  have hfind' : onIndex (OrderIndexing.findOrder hash id) book = (.returns found, book) := hfind
  simp only [cancelOrder]
  rw [Proc.bind_returns _ hfind']
  rcases hcase with ⟨hnull, habsent⟩ | ⟨l, hp, hid⟩
  · left
    refine ⟨habsent, ?_⟩
    rw [if_pos hnull]
    rfl
  · right
    obtain ⟨book', hrun, hremoved⟩ := removeOrder_run h hp
    refine ⟨l, found, book', hp, hid, ?_, hremoved⟩
    rw [if_neg (h.ne_null hp), Proc.bind_returns _ hrun]
    rfl

/-- Reduction shrinks the order with the id in place, if there is one. -/
theorem reduceOrder_run (h : Synced hash book queues) (id : OrderId) (quantity : Quantity) :
    ((∀ l, ∀ p ∈ queues l, (book.memory p).orderId ≠ id) ∧
        reduceOrder hash id quantity book = (.returns false, book)) ∨
      ∃ l p, p ∈ queues l ∧ (book.memory p).orderId = id ∧
        (((quantity = 0 ∨ quantity > (book.memory p).remainingQuantity) ∧
            reduceOrder hash id quantity book = (.throws (.invalidArgument
              "Reduction requires a nonzero quantity no greater than the remaining quantity"),
              book)) ∨
          (quantity ≠ 0 ∧ quantity = (book.memory p).remainingQuantity ∧
            reduceOrder hash id quantity book = (.returns true, book)) ∨
          (quantity ≠ 0 ∧ quantity < (book.memory p).remainingQuantity ∧
            reduceOrder hash id quantity book = (.returns true,
              withTotal (withRemaining book p quantity) l ((book.level l).totalQuantity -
                ((book.memory p).remainingQuantity - quantity))))) := by
  obtain ⟨found, hfind, hcase⟩ := h.findOrder_run id
  have hfind' : onIndex (OrderIndexing.findOrder hash id) book = (.returns found, book) := hfind
  simp only [reduceOrder]
  rw [Proc.bind_returns _ hfind']
  rcases hcase with ⟨hnull, habsent⟩ | ⟨l, hp, hid⟩
  · left
    refine ⟨habsent, ?_⟩
    rw [if_pos hnull]
    rfl
  · right
    refine ⟨l, found, hp, hid, ?_⟩
    rw [if_neg (h.ne_null hp), Proc.get_bind_apply]
    by_cases hinvalid : quantity = 0 ∨ quantity > (book.memory found).remainingQuantity
    · left
      refine ⟨hinvalid, ?_⟩
      rw [if_pos hinvalid, Proc.throw_bind_apply]
    · rw [if_neg hinvalid]
      rw [not_or, gt_iff_lt, UInt64.not_lt] at hinvalid
      obtain ⟨hzero, hle⟩ := hinvalid
      right
      by_cases hsame : quantity = (book.memory found).remainingQuantity
      · left
        refine ⟨hzero, hsame, ?_⟩
        rw [if_pos hsame]
        rfl
      · right
        refine ⟨hzero, UInt64.lt_of_le_of_ne hle hsame, ?_⟩
        rw [if_neg hsame]
        have horiginal : quantity ≤ (book.memory found).originalQuantity := by
          have hvalid := (h.rests l found hp).valid
          simp only [Order.isValid, Bool.and_eq_true, decide_eq_true_eq] at hvalid
          exact UInt64.le_trans hle hvalid.1.1.1.1.1.2
        have hset : onOrder found (Order.setRemainingQuantity quantity) book =
            (.returns (), withRemaining book found quantity) := by
          apply onOrder_run
          simp [Order.setRemainingQuantity, Quantity.isValid, hzero, horiginal]
        have howner : (book.memory found).priceLevel = some l := (h.represents l).owner found hp
        have hremaining := remainingOf_le_total h.toLevelsOk hp
        have hdiff : (book.memory found).remainingQuantity - quantity ≤
            ((withRemaining book found quantity).level l).totalQuantity := by
          rw [UInt64.le_iff_toNat_le, UInt64.toNat_sub_of_le _ _ hle]
          exact Nat.le_trans (Nat.sub_le _ _) hremaining
        rw [Proc.bind_returns _ hset, howner, deref_some, Proc.pure_bind_apply,
          Proc.bind_returns _ (reduceTotal_run hdiff)]
        rfl

end Requests

end Leka.BookRemovals
