import Leka.BookRemovals

/-!
Insertion of a resting order and its rollback. The order is accepted exactly when every
check passes and the pool and the index get the memory they ask for; it then stands last
in the queue of its price. In every other case the handler takes the order out of all the
structures it had reached, and the queues are as they were.
-/

namespace Leka.BookInsertions

open Procedures Orders IndexAsMap OrderPools PoolAsSet PriceLevels PriceLadders WordBits OrderBooks
  SyncedBooks BookRemovals

section Linking

variable {book : OrderBook} {queues : Queues} {l : LevelPtr} {p : OrderPtr}

/-- The ladders after `p` has joined the queue at `l`. -/
abbrev LinkedLast (book book' : OrderBook) (queues : Queues) (l : LevelPtr) (p : OrderPtr) :
    Prop :=
  Requeued book book' queues l (queues l ++ [p])
    ((book.level l).totalQuantity + (book.memory p).remainingQuantity)

theorem linked_of_relevelled (h : LevelsOk book queues)
    (hadmits : Admits ⟨book.level l, book.memory⟩ p) (hrests : RestsIn (book.memory p) l)
    (hfresh : ∀ m, p ∉ queues m) {book' : OrderBook}
    (hr : Relevelled book book' l (appended l p ⟨book.level l, book.memory⟩).level true)
    (hmemory : book'.memory = (appended l p ⟨book.level l, book.memory⟩).memory)
    (hpool : book'.orderPool = book.orderPool) (hindex : book'.orderIndex = book.orderIndex) :
    LinkedLast book book' queues l p := by
  have horders : ∀ q, (book'.memory q).detached = (book.memory q).detached := by
    intro q
    rw [hmemory]
    exact appended_detached l p q _
  have huntouched : ∀ m, m ≠ l → ∀ q ∈ queues m, book'.memory q = book.memory q := by
    intro m hm q hq
    rw [hmemory]
    exact (h.represents l).appended_untouched (fun hql => hm (h.level_unique hq hql))
      (fun heq => hfresh m (heq ▸ hq))
  have hr' : Relevelled book book' l (appended l p ⟨book.level l, book.memory⟩).level
      (decide (queues l ++ [p] ≠ [])) := by simpa using hr
  have htotal : (appended l p ⟨book.level l, book.memory⟩).level.totalQuantity.toNat =
      (book.level l).totalQuantity.toNat + remainingOf book.memory p := by
    change ((book.level l).totalQuantity + (book.memory p).remainingQuantity).toNat = _
    rw [UInt64.toNat_add, remainingOf]
    exact Nat.mod_eq_of_lt ((fits_iff _ _).mp hadmits.fits)
  refine ⟨h.update hr' ?_ huntouched ?_ ?_, hr.grid, horders, ?_, hr.level_ne, huntouched, hpool,
    hindex⟩
  · rw [hmemory]
    exact (h.represents l).append hadmits
  · intro q hq
    rcases List.mem_append.mp hq with hq | hq
    · exact (h.rests l q hq).of_detached (horders q)
    · rw [List.mem_singleton.mp hq]
      exact hrests.of_detached (horders p)
  · have hcovered := h.covered l
    rw [remainingSum_congr (fun q _ => horders q), remainingSum_append, remainingSum_cons, htotal]
    simp only [remainingSum, List.map_nil, List.sum_nil] at hcovered ⊢
    omega
  · rw [hr.level_self]
    rfl

/-- Linking an admitted order and marking its level if it was empty. -/
theorem link_run (h : LevelsOk book queues) (hadmits : Admits ⟨book.level l, book.memory⟩ p)
    (hrests : RestsIn (book.memory p) l) (hfresh : ∀ m, p ∉ queues m)
    (hlt : l.index < (book.ladder l.descending).levelCount.toNat) {index : UInt64}
    (hindex : index.toNat = l.index)
    (hprice : (book.ladder l.descending).indexOf (book.memory p).price = .ok index) :
    ∃ book₁, onLevel l (PriceLevels.addOrder l p) book = (.returns (), book₁) ∧
      (((book.level l).isEmpty = true ∧ ∃ book₂,
          onLadder l.descending (markOccupied (book.memory p).price) book₁ =
            (.returns (), book₂) ∧ LinkedLast book book₂ queues l p) ∨
        ((book.level l).isEmpty = false ∧ LinkedLast book book₁ queues l p)) := by
  have hrun := @addOrder_of_admits l _ _ hadmits
    ((h.represents l).tail_ne hadmits.ne_null (hfresh l))
  have hset := relevelled_setLevel (appended l p ⟨book.level l, book.memory⟩).level h.configured
    h.marked hlt rfl
  rw [h.bits l] at hset
  obtain ⟨_, hpool, hindex'⟩ := setLadder_frame book
    ((book.ladder l.descending).setLevel l.index (appended l p ⟨book.level l, book.memory⟩).level)
    l.descending
  refine ⟨_, onLevel_run hrun, ?_⟩
  -- the write of the memory touches no ladder
  have hset₁ : Relevelled book
      { book.setLevel l (appended l p ⟨book.level l, book.memory⟩).level with
        memory := (appended l p ⟨book.level l, book.memory⟩).memory } l
      (appended l p ⟨book.level l, book.memory⟩).level (decide (queues l ≠ [])) :=
    ⟨hset.configured, hset.marked, hset.grid, hset.level_self, hset.level_ne, hset.bit_self,
      hset.bit_ne⟩
  generalize hbook₁ : ({ book.setLevel l (appended l p ⟨book.level l, book.memory⟩).level with
    memory := (appended l p ⟨book.level l, book.memory⟩).memory } : OrderBook) = book₁ at *
  have hmemory : book₁.memory = (appended l p ⟨book.level l, book.memory⟩).memory := by
    rw [← hbook₁]
  have hpool₁ : book₁.orderPool = book.orderPool := by
    rw [← hbook₁]
    exact hpool
  have hindex₁ : book₁.orderIndex = book.orderIndex := by
    rw [← hbook₁]
    exact hindex'
  have hempty := (h.represents l).isEmpty_iff
  by_cases hnil : queues l = []
  · left
    rw [hnil] at hset₁
    have hprice₁ : (book₁.ladder l.descending).indexOf (book.memory p).price = .ok index := by
      rw [(hset₁.grid _).indexOf_eq]
      exact hprice
    obtain ⟨hm, hp', hi⟩ := setLadder_frame book₁
      ((book₁.ladder l.descending).occupiedAt index) l.descending
    refine ⟨hempty.mpr hnil, _, onLadder_run (PriceLadder.markOccupied_run hprice₁), ?_⟩
    refine linked_of_relevelled h hadmits hrests hfresh ?_ (hm.trans hmemory) (hp'.trans hpool₁)
      (hi.trans hindex₁)
    exact Relevelled.occupied hindex (by rw [(hset₁.grid _).levelCount]; exact hlt)
      (by simpa using hset₁)
  · right
    refine ⟨?_, linked_of_relevelled h hadmits hrests hfresh ?_ hmemory hpool₁ hindex₁⟩
    · rw [← Bool.not_eq_true]
      exact fun htrue => hnil (hempty.mp htrue)
    · simpa [hnil] using hset₁

end Linking

/-- Insertion of the order with the given members. -/
def insertOrder (hash : OrderId → UInt64) (host : Host) (order : Order) : BookProc OrderPtr :=
  addOrderWithQuantities hash host order.orderId order.price order.originalQuantity
    order.remainingQuantity order.timestamp order.orderSide order.orderType order.sequenceNumber

/-- What an insertion checks, and what it asks the host for. -/
structure Insertable (host : Host) (book : OrderBook) (queues : Queues) (order : Order) :
    Prop where
  limit : order.orderType = .limit
  original : order.originalQuantity ≠ 0
  remaining : order.remainingQuantity ≠ 0
  le : order.remainingQuantity ≤ order.originalQuantity
  memory : ¬ AllocationRefused host book.orderPool
  valid : order.isValid = true
  price : ∃ index, (book.ladder order.isBuy).indexOf order.price = .ok index
  fits : ∀ index, (book.ladder order.isBuy).indexOf order.price = .ok index →
    order.remainingQuantity ≤
      uint64Max - (book.level ⟨order.isBuy, index.toNat⟩).totalQuantity
  slots : ∀ c, growthRequest book.orderIndex = some c → ¬ Refuses host.slots c
  absent : ∀ l, ∀ q ∈ queues l, (book.memory q).orderId ≠ order.orderId

/-- The order can rest in the book, if the host grants the memory for it. -/
structure Placeable (book : OrderBook) (order : Order) : Prop where
  limit : order.orderType = .limit
  original : order.originalQuantity ≠ 0
  remaining : order.remainingQuantity ≠ 0
  le : order.remainingQuantity ≤ order.originalQuantity
  valid : order.isValid = true
  price : ∃ index, (book.ladder order.isBuy).indexOf order.price = .ok index
  fits : ∀ index, (book.ladder order.isBuy).indexOf order.price = .ok index →
    order.remainingQuantity ≤
      uint64Max - (book.level ⟨order.isBuy, index.toNat⟩).totalQuantity

theorem Insertable.placeable {host : Host} {book : OrderBook} {queues : Queues} {order : Order}
    (h : Insertable host book queues order) : Placeable book order :=
  ⟨h.limit, h.original, h.remaining, h.le, h.valid, h.price, h.fits⟩

/-- The book after `order` has been stored at `p`, last in the queue at `l`. -/
structure Inserted (hash : OrderId → UInt64) (book book' : OrderBook) (queues : Queues)
    (l : LevelPtr) (p : OrderPtr) (order : Order) : Prop where
  synced : Synced hash book' (Function.update queues l (queues l ++ [p]))
  fresh : ∀ m, p ∉ queues m
  side : l.descending = order.isBuy
  lt : l.index < (book.ladder l.descending).levelCount.toNat
  price : order.price.toNat = (book.ladder l.descending).slotPrice l.index
  grid : ∀ d, PriceLadder.SameGrid (book.ladder d) (book'.ladder d)
  orders : ∀ m, ∀ q ∈ queues m, (book'.memory q).detached = (book.memory q).detached
  placed : (book'.memory p).detached = order.detached
  total : (book'.level l).totalQuantity =
    (book.level l).totalQuantity + order.remainingQuantity
  total_ne : ∀ m, m ≠ l → (book'.level m).totalQuantity = (book.level m).totalQuantity

/-- The book after a failed insertion: only pool pages and index slots may have been added. -/
structure Rejected (hash : OrderId → UInt64) (book book' : OrderBook) (queues : Queues) :
    Prop where
  synced : Synced hash book' queues
  grid : ∀ d, PriceLadder.SameGrid (book.ladder d) (book'.ladder d)
  orders : ∀ m, ∀ q ∈ queues m, (book'.memory q).detached = (book.memory q).detached
  total : ∀ l, (book'.level l).totalQuantity = (book.level l).totalQuantity

/-- The book while `order` sits in the pool at `p` and is linked nowhere. -/
structure Pending (hash : OrderId → UInt64) (book book' : OrderBook) (queues : Queues)
    (p : OrderPtr) (order : Order) : Prop where
  levels : LevelsOk book' queues
  grid : ∀ d, PriceLadder.SameGrid (book.ladder d) (book'.ladder d)
  orders : ∀ m, ∀ q ∈ queues m, (book'.memory q).detached = (book.memory q).detached
  placed : (book'.memory p).detached = order.detached
  ne_null : p ≠ nullptr
  fresh : ∀ m, p ∉ queues m
  total : ∀ l, (book'.level l).totalQuantity = (book.level l).totalQuantity
  index : IndexOk hash book'.orderIndex
  indexed : ∀ id q, Maps book'.orderIndex id q ↔ Maps book.orderIndex id q
  pool : PoolOk book'.orderPool (p :: restingOrders book queues)

/-- A pending order in the state right after its allocation. -/
structure Allocated (hash : OrderId → UInt64) (book book' : OrderBook) (queues : Queues)
    (p : OrderPtr) (order : Order) : Prop extends Pending hash book book' queues p order where
  stored : book'.memory p = order.detached
  level : ∀ l, book'.level l = book.level l
  orderIndex : book'.orderIndex = book.orderIndex

section Rollback

variable {hash : OrderId → UInt64} {book book' : OrderBook} {queues : Queues} {p : OrderPtr}
  {order : Order}

/-- A pending order is released, and nothing of it is left. -/
theorem Pending.release (h : Synced hash book queues)
    (hpending : Pending hash book book' queues p order) :
    ∃ book'', onPool (OrderPools.release p) book' = (.returns (), book'') ∧
      Rejected hash book book'' queues := by
  obtain ⟨pool, hrun, hpool, _⟩ := release_spec (s := ⟨book'.orderPool, book'.memory⟩)
    hpending.pool (List.mem_cons_self ..)
  rw [List.erase_cons_head, ← restingOrders_grid hpending.grid] at hpool
  have hlevels := hpending.levels
  refine ⟨_, onPool_run hrun, ⟨⟨?_, hpending.index, ?_, hpool⟩, hpending.grid, hpending.orders,
    hpending.total⟩⟩
  · exact ⟨hlevels.configured, hlevels.descending, hlevels.marked, hlevels.represents,
      hlevels.bits, hlevels.rests, hlevels.covered⟩
  · intro id q
    rw [hpending.indexed, h.indexed]
    apply and_congr_right
    intro hq
    obtain ⟨m, hq⟩ := hq
    have hid : (book'.memory q).orderId = (book.memory q).orderId :=
      (SyncedBooks.detached_fields (hpending.orders m q hq)).1
    exact Eq.congr_left hid.symm

/-- The handler before the order has been linked. -/
theorem rollback_pending (h : Synced hash book queues)
    (hpending : Pending hash book book' queues p order) (e : StdException) {s : Insertion}
    (hbook : s.book = book') (hadded : s.addedToLevel = false) :
    ∃ s', rollback p e s = (.throws e, s') ∧ Rejected hash book s'.book queues := by
  obtain ⟨book'', hrun, hrejected⟩ := hpending.release h
  subst book'
  refine ⟨{ s with book := book'' }, ?_, hrejected⟩
  simp only [rollback, Proc.get_bind_apply, hadded, Bool.false_eq_true, if_false]
  rw [Proc.bind_returns _ (onBook_run hrun), Proc.throw_apply, hadded]

/-- The handler after the order has been linked: unlinking makes it pending again. -/
theorem rollback_linked (h : Synced hash book queues)
    (hpending : Pending hash book book' queues p order) {l : LevelPtr} {linked : OrderBook}
    (hlink : LinkedLast book' linked queues l p) {s : Insertion}
    (hindex : IndexOk hash s.book.orderIndex)
    (hindexed : ∀ id q, Maps s.book.orderIndex id q ↔ Maps book.orderIndex id q)
    (hbook : s.book = { linked with orderIndex := s.book.orderIndex })
    (hadded : s.addedToLevel = true) (hlevel : s.level = some l)
    (hladder : s.ladder = l.descending) (e : StdException) :
    ∃ s', rollback p e s = (.throws e, s') ∧ Rejected hash book s'.book queues := by
  have hlevels : LevelsOk s.book (Function.update queues l (queues l ++ [p])) := by
    rw [hbook]
    have hlinked := hlink.levels
    exact ⟨hlinked.configured, hlinked.descending, hlinked.marked, hlinked.represents,
      hlinked.bits, hlinked.rests, hlinked.covered⟩
  have hmem : p ∈ Function.update queues l (queues l ++ [p]) l := by simp
  obtain ⟨book₁, hunlink, horders, hmark⟩ := unlink_run hlevels hmem
  have hmemory : s.book.memory = linked.memory := by rw [hbook]
  have hladders : ∀ d, s.book.ladder d = linked.ladder d := by
    intro d
    rw [hbook]
    rfl
  have htotals : ∀ m, s.book.level m = linked.level m := by
    intro m
    rw [hbook]
    rfl
  have hpoolEq : s.book.orderPool = linked.orderPool := by rw [hbook]
  obtain ⟨s', hrun, hunlinked⟩ : ∃ s', rollback p e s =
      (do
        onBook (onPool (OrderPools.release p))
        throw e : InsertionProc Unit) s' ∧
      Unlinked s.book s'.book (Function.update queues l (queues l ++ [p])) l p := by
    simp only [rollback, Proc.get_bind_apply, hadded, if_true, hlevel, deref_some,
      Proc.pure_bind_apply]
    rw [Proc.bind_returns _ (onBook_run hunlink)]
    simp only [Proc.get_bind_apply]
    rcases hmark with ⟨hempty, book₂, hrun, hlinks⟩ | ⟨hempty, hlinks⟩
    · have hprice : (book₁.memory p).price = (s.book.memory p).price :=
        (SyncedBooks.detached_fields (horders p)).2.1
      rw [← hprice] at hrun
      rw [if_pos hempty, Proc.bind_returns _ (onBook_run (by rw [hladder]; exact hrun))]
      exact ⟨_, rfl, hlinks⟩
    · rw [if_neg (by rw [hempty]; simp)]
      exact ⟨_, rfl, hlinks⟩
  have hqueues : Function.update (Function.update queues l (queues l ++ [p])) l
      ((Function.update queues l (queues l ++ [p]) l).erase p) = queues := by
    rw [Function.update_self, List.erase_append_right _ (hpending.fresh l), List.erase_cons_head,
      List.append_nil, Function.update_idem, Function.update_eq_self]
  have hlevels' := hunlinked.levels
  rw [hqueues] at hlevels'
  have horders' : ∀ q, (s'.book.memory q).detached = (book'.memory q).detached := by
    intro q
    rw [hunlinked.orders, hmemory, hlink.orders]
  have hpending' : Pending hash book s'.book queues p order := by
    refine ⟨hlevels', ?_, ?_, ?_, hpending.ne_null, hpending.fresh, ?_, ?_, ?_, ?_⟩
    · intro d
      have hgrid := hunlinked.grid d
      rw [hladders] at hgrid
      exact ((hpending.grid d).trans (hlink.grid d)).trans hgrid
    · intro m q hq
      rw [horders', hpending.orders m q hq]
    · rw [horders', hpending.placed]
    · intro m
      by_cases hm : m = l
      · subst m
        have hremaining : (linked.memory p).remainingQuantity =
            (book'.memory p).remainingQuantity :=
          (SyncedBooks.detached_fields (hlink.orders p)).2.2.2.1
        rw [hunlinked.total, htotals, hmemory, hlink.total, hremaining, UInt64.add_sub_cancel,
          hpending.total]
      · rw [hunlinked.level_ne m hm, htotals, hlink.level_ne m hm, hpending.total]
    · rw [hunlinked.index]
      exact hindex
    · rw [hunlinked.index]
      exact hindexed
    · rw [hunlinked.pool, hpoolEq, hlink.pool]
      exact hpending.pool
  obtain ⟨book'', hrelease, hrejected⟩ := hpending'.release h
  refine ⟨{ s' with book := book'' }, ?_, hrejected⟩
  rw [hrun, Proc.bind_returns _ (onBook_run hrelease), Proc.throw_apply]

end Rollback

section Attempt

variable {hash : OrderId → UInt64} {host : Host} {book book' : OrderBook} {queues : Queues}
  {p : OrderPtr} {order : Order}

/-- The book after a successful allocation. -/
theorem allocated (h : Synced hash book queues) {pool : OrderPool}
    (hfresh : p ∉ restingOrders book queues) (hnull : p ≠ nullptr)
    (hpool : PoolOk pool (p :: restingOrders book queues)) :
    Allocated hash book { book with
      orderPool := pool, memory := Function.update book.memory p order.detached } queues p
      order := by
  have hnot : ∀ m, p ∉ queues m := fun m hmem => hfresh (h.mem_restingOrders.mpr ⟨m, hmem⟩)
  have hmemory : ∀ m, ∀ q ∈ queues m,
      Function.update book.memory p order.detached q = book.memory q := by
    intro m q hq
    exact Function.update_of_ne (fun heq => hnot m (by rw [← heq]; exact hq)) _ _
  refine ⟨⟨h.toLevelsOk.frame rfl rfl hmemory, fun d => PriceLadder.SameGrid.refl _, ?_, ?_, hnull,
    hnot, fun _ => rfl, h.index, fun _ _ => Iff.rfl, hpool⟩, ?_, fun _ => rfl, rfl⟩
  · intro m q hq
    exact congrArg Order.detached (hmemory m q hq)
  · simp [Order.detached]
  · exact Function.update_self _ _ _

/-- A valid limit order rests on the side it names. -/
theorem restsIn_of_valid {order : Order} {l : LevelPtr} (hvalid : order.isValid = true)
    (hlimit : order.orderType = .limit) (hside : l.descending = order.isBuy) :
    RestsIn order.detached l where
  side := by
    change order.orderSide = _
    rw [hside]
    simp only [Order.isValid, Bool.and_eq_true, Bool.or_eq_true] at hvalid
    rcases hvalid.1.1.2 with hbuy | hsell
    · rw [hbuy]
      simpa [Order.isBuy] using hbuy
    · have hsell' : order.orderSide = .sell := by simpa [Order.isSell] using hsell
      simp [Order.isBuy, hsell']
  limit := hlimit
  valid := by
    have heq : order.detached.isValid = order.isValid := isValid_of_detached rfl
    rw [heq, hvalid]

/-- A pending order that has been linked and indexed is in the book. -/
theorem inserted_of_linked (h : Synced hash book queues)
    (hpending : Pending hash book book' queues p order) {l : LevelPtr} {linked : OrderBook}
    (hlink : LinkedLast book' linked queues l p) {index : OrderIndexing.OrderIndex}
    (hindex : IndexOk hash index)
    (hmaps : ∀ id q, Maps index id q ↔ (id = order.orderId ∧ q = p) ∨ Maps book.orderIndex id q)
    (hside : l.descending = order.isBuy)
    (hlt : l.index < (book.ladder l.descending).levelCount.toNat)
    (hprice : order.price.toNat = (book.ladder l.descending).slotPrice l.index) :
    Inserted hash book { linked with orderIndex := index } queues l p order := by
  have hgrid : ∀ d, PriceLadder.SameGrid (book.ladder d) (linked.ladder d) :=
    fun d => (hpending.grid d).trans (hlink.grid d)
  have horders : ∀ m, ∀ q ∈ queues m, (linked.memory q).detached = (book.memory q).detached := by
    intro m q hq
    rw [hlink.orders, hpending.orders m q hq]
  have hplaced : (linked.memory p).detached = order.detached := by
    rw [hlink.orders, hpending.placed]
  have hmem : ∀ q, (∃ m, q ∈ Function.update queues l (queues l ++ [p]) m) ↔
      q = p ∨ ∃ m, q ∈ queues m := by
    intro q
    constructor
    · intro hq
      obtain ⟨m, hq⟩ := hq
      by_cases hm : m = l
      · subst m
        rw [Function.update_self, List.mem_append, List.mem_singleton] at hq
        exact hq.symm.imp_right fun hq => ⟨l, hq⟩
      · rw [Function.update_of_ne hm] at hq
        exact Or.inr ⟨m, hq⟩
    · intro hq
      rcases hq with rfl | ⟨m, hq⟩
      · exact ⟨l, by simp⟩
      · by_cases hm : m = l
        · subst m
          exact ⟨l, by simp [hq]⟩
        · exact ⟨m, by rw [Function.update_of_ne hm]; exact hq⟩
  have hlevels := hlink.levels
  refine ⟨⟨?_, hindex, ?_, ?_⟩, hpending.fresh, hside, hlt, hprice, hgrid, horders, hplaced, ?_, ?_⟩
  · exact ⟨hlevels.configured, hlevels.descending, hlevels.marked, hlevels.represents,
      hlevels.bits, hlevels.rests, hlevels.covered⟩
  · intro id q
    change _ ↔ _ ∧ (linked.memory q).orderId = id
    rw [hmaps, h.indexed, hmem]
    have hidp : (linked.memory p).orderId = order.orderId :=
      (SyncedBooks.detached_fields hplaced).1
    have hidq : (∃ m, q ∈ queues m) → (linked.memory q).orderId = (book.memory q).orderId := by
      intro hq
      obtain ⟨m, hq⟩ := hq
      exact (SyncedBooks.detached_fields (horders m q hq)).1
    constructor
    · intro hq
      rcases hq with ⟨rfl, rfl⟩ | ⟨hq, rfl⟩
      · exact ⟨Or.inl rfl, hidp⟩
      · exact ⟨Or.inr hq, hidq hq⟩
    · intro hq
      obtain ⟨rfl | hq, rfl⟩ := hq
      · exact Or.inl ⟨hidp, rfl⟩
      · exact Or.inr ⟨hq, (hidq hq).symm⟩
  · have hperm : (restingOrders book (Function.update queues l (queues l ++ [p]))).Perm
        (p :: restingOrders book (Function.update queues l (queues l))) :=
      restingOrders_perm_cons queues hlt (List.perm_append_singleton p (queues l))
    rw [Function.update_eq_self] at hperm
    have hpool : PoolOk linked.orderPool (p :: restingOrders book queues) := by
      rw [hlink.pool]
      exact hpending.pool
    have hresting := hpool.perm hperm.symm
    rw [← restingOrders_grid hgrid] at hresting
    exact hresting
  · change (linked.level l).totalQuantity = _
    have hremaining : (book'.memory p).remainingQuantity = order.remainingQuantity :=
      (SyncedBooks.detached_fields hpending.placed).2.2.2.1
    rw [hlink.total, hpending.total, hremaining]
  · intro m hm
    change (linked.level m).totalQuantity = _
    rw [hlink.level_ne m hm, hpending.total]

/-- The attempt throws, and its handler leaves nothing of it behind. -/
def Fails (hash : OrderId → UInt64) (host : Host) (book book' : OrderBook) (queues : Queues)
    (p : OrderPtr) : Prop :=
  ∃ e s s', attempt hash host p { book := book' } = (.throws e, s) ∧
    rollback p e s = (.throws e, s') ∧ Rejected hash book s'.book queues

theorem Allocated.member {α : Type} (hallocated : Allocated hash book book' queues p order)
    (g : Order → α) (hg : g order.detached = g order) : g (book'.memory p) = g order := by
  rw [hallocated.stored, hg]

/-- The price of an allocated order is the price of its level. -/
theorem level_price (h : Synced hash book queues)
    (hallocated : Allocated hash book book' queues p order) {index : UInt64}
    (hprice : (book.ladder order.isBuy).indexOf order.price = .ok index) :
    (book'.memory p).price = (book'.level ⟨order.isBuy, index.toNat⟩).price := by
  obtain ⟨hlt, hslot⟩ := (h.configured order.isBuy).indexOf_ok hprice
  apply UInt64.toNat_inj.mp
  rw [hallocated.member Order.price rfl, hallocated.level]
  exact hslot.trans ((h.configured order.isBuy).level_price index.toNat hlt).symm

theorem attempt_invalid_run (hallocated : Allocated hash book book' queues p order)
    (hinvalid : order.isValid = false) : attempt hash host p { book := book' } =
      (.throws (.invalidArgument "Cannot add an invalid order"), { book := book' }) := by
  have hvalid : (book'.memory p).isValid = order.isValid :=
    hallocated.member Order.isValid (isValid_of_detached rfl)
  simp [attempt, hvalid, hinvalid]

theorem attempt_invalid (h : Synced hash book queues)
    (hallocated : Allocated hash book book' queues p order) (hinvalid : order.isValid = false) :
    Fails hash host book book' queues p := by
  obtain ⟨s', hroll, hrejected⟩ := rollback_pending h hallocated.toPending
    (.invalidArgument "Cannot add an invalid order") (s := { book := book' }) rfl rfl
  exact ⟨_, _, s', attempt_invalid_run hallocated hinvalid, hroll, hrejected⟩

section Valid

variable (h : Synced hash book queues) (hallocated : Allocated hash book book' queues p order)
  (hvalid : order.isValid = true)
include hallocated hvalid

/-- The attempt up to the lookup of the level. -/
theorem attempt_valid : attempt hash host p { book := book' } = (do
    let level ← Proc.check ((book'.ladder order.isBuy).levelAt order.price)
    Proc.modify fun s => { s with level := some level }
    onBook (onLevel level (PriceLevels.addOrder level p))
    Proc.modify fun s => { s with addedToLevel := true }
    if (book'.level level).isEmpty then
      onBook (onLadder order.isBuy (markOccupied order.price))
    onBook (onIndex (OrderIndexing.addOrder hash host.slots p order.orderId)) :
      InsertionProc Unit) { book := book', ladder := order.isBuy } := by
  have hvalid' := hallocated.member Order.isValid (isValid_of_detached rfl)
  have hbuy := hallocated.member Order.isBuy rfl
  have hprice := hallocated.member Order.price rfl
  have hid := hallocated.member Order.orderId rfl
  rw [hvalid] at hvalid'
  simp only [attempt, Proc.get_bind_apply, hvalid', Bool.not_true, Bool.false_eq_true, if_false,
    Proc.modify_bind_apply, hbuy, hprice, hid]

theorem attempt_offGrid_run {e : StdException}
    (hprice : (book.ladder order.isBuy).indexOf order.price = .error e) :
    attempt hash host p { book := book' } =
      (.throws e, { book := book', ladder := order.isBuy }) := by
  rw [attempt_valid hallocated hvalid, PriceLadder.levelAt, (hallocated.grid _).indexOf_eq, hprice]
  rfl

include h in
theorem attempt_offGrid {e : StdException}
    (hprice : (book.ladder order.isBuy).indexOf order.price = .error e) :
    Fails hash host book book' queues p := by
  obtain ⟨s', hroll, hrejected⟩ := rollback_pending h hallocated.toPending e
    (s := { book := book', ladder := order.isBuy }) rfl rfl
  exact ⟨_, _, s', attempt_offGrid_run hallocated hvalid hprice, hroll, hrejected⟩

variable {index : UInt64}
  (hprice : (book.ladder order.isBuy).indexOf order.price = .ok index)
include hprice

/-- The attempt on the level it has found. -/
theorem attempt_onGrid : attempt hash host p { book := book' } = (do
    onBook (onLevel ⟨order.isBuy, index.toNat⟩
      (PriceLevels.addOrder ⟨order.isBuy, index.toNat⟩ p))
    Proc.modify fun s => { s with addedToLevel := true }
    if (book'.level ⟨order.isBuy, index.toNat⟩).isEmpty then
      onBook (onLadder order.isBuy (markOccupied order.price))
    onBook (onIndex (OrderIndexing.addOrder hash host.slots p order.orderId)) :
      InsertionProc Unit) ⟨book', false, order.isBuy, some ⟨order.isBuy, index.toNat⟩⟩ := by
  have hlevel : (book'.ladder order.isBuy).levelAt order.price =
      .ok ⟨order.isBuy, index.toNat⟩ := by
    rw [PriceLadder.levelAt, (hallocated.grid _).indexOf_eq, hprice]
    simp only [Except.map, PriceLadder.levelPtr, hallocated.levels.descending]
  rw [attempt_valid hallocated hvalid, hlevel]
  rfl

include h

variable (hremaining : order.remainingQuantity ≠ 0)
include hremaining

theorem attempt_overflow_run (hfits : ¬ order.remainingQuantity ≤
      uint64Max - (book.level ⟨order.isBuy, index.toNat⟩).totalQuantity) :
    attempt hash host p { book := book' } =
      (.throws (.overflowError "Price level quantity overflow"),
        ⟨book', false, order.isBuy, some ⟨order.isBuy, index.toNat⟩⟩) := by
  have hremaining' := hallocated.member Order.remainingQuantity rfl
  have hfree : (book'.memory p).priceLevel = none := by
    rw [hallocated.stored]
    rfl
  have hoverflow : onLevel ⟨order.isBuy, index.toNat⟩
      (PriceLevels.addOrder ⟨order.isBuy, index.toNat⟩ p) book' =
        (.throws (.overflowError "Price level quantity overflow"), book') := by
    rw [onLevel_run (PriceLevels.addOrder_overflow hallocated.ne_null
      (level_price h hallocated hprice) hfree
      (by rw [hremaining']; exact hremaining)
      (by rw [hremaining', hallocated.level]; exact UInt64.not_le.mp hfits))]
    rw [setLevel_self]
  rw [attempt_onGrid hallocated hvalid hprice]
  exact Proc.bind_throws _ (onBook_run hoverflow)

theorem attempt_overflow (hfits : ¬ order.remainingQuantity ≤
      uint64Max - (book.level ⟨order.isBuy, index.toNat⟩).totalQuantity) :
    Fails hash host book book' queues p := by
  obtain ⟨s', hroll, hrejected⟩ := rollback_pending h hallocated.toPending
    (.overflowError "Price level quantity overflow")
    (s := ⟨book', false, order.isBuy, some ⟨order.isBuy, index.toNat⟩⟩) rfl rfl
  exact ⟨_, _, s', attempt_overflow_run h hallocated hvalid hprice hremaining hfits, hroll,
    hrejected⟩

variable (hlimit : order.orderType = .limit) (hfits : order.remainingQuantity ≤
    uint64Max - (book.level ⟨order.isBuy, index.toNat⟩).totalQuantity)
include hlimit hfits

/-- The attempt up to the index: the order is linked and its level marked, whatever the host. -/
theorem attempt_linked : ∃ linked, (∀ host, attempt hash host p { book := book' } =
      onBook (onIndex (OrderIndexing.addOrder hash host.slots p order.orderId))
        ⟨linked, true, order.isBuy, some ⟨order.isBuy, index.toNat⟩⟩) ∧
    LinkedLast book' linked queues ⟨order.isBuy, index.toNat⟩ p := by
  obtain ⟨hlt, _⟩ := (h.configured order.isBuy).indexOf_ok hprice
  have hprice' := hallocated.member Order.price rfl
  have hremaining' := hallocated.member Order.remainingQuantity rfl
  have hfree : (book'.memory p).priceLevel = none := by
    rw [hallocated.stored]
    rfl
  have hadmits : Admits ⟨book'.level ⟨order.isBuy, index.toNat⟩, book'.memory⟩ p :=
    ⟨hallocated.ne_null, level_price h hallocated hprice, hfree,
      by rw [hremaining']; exact hremaining,
      by rw [hremaining', hallocated.level]; exact hfits⟩
  have hrests : RestsIn (book'.memory p) ⟨order.isBuy, index.toNat⟩ := by
    rw [hallocated.stored]
    exact restsIn_of_valid hvalid hlimit rfl
  obtain ⟨book₁, hlinkRun, hmark⟩ := link_run hallocated.levels hadmits hrests hallocated.fresh
    (by rw [(hallocated.grid _).levelCount]; exact hlt) rfl
    (by rw [hprice', (hallocated.grid _).indexOf_eq]; exact hprice)
  rcases hmark with ⟨hempty, book₂, hmarkRun, hlink⟩ | ⟨hempty, hlink⟩
  · rw [hprice'] at hmarkRun
    refine ⟨book₂, fun host => ?_, hlink⟩
    rw [attempt_onGrid hallocated hvalid hprice, Proc.bind_returns _ (onBook_run hlinkRun),
      Proc.modify_bind_apply, if_pos hempty, Proc.bind_returns _ (onBook_run hmarkRun)]
  · refine ⟨book₁, fun host => ?_, hlink⟩
    rw [attempt_onGrid hallocated hvalid hprice, Proc.bind_returns _ (onBook_run hlinkRun),
      Proc.modify_bind_apply, if_neg (by rw [hempty]; simp)]

/-- What the index says about a linked order decides the attempt. -/
theorem attempt_indexed :
    (((∀ c, growthRequest book.orderIndex = some c → ¬ Refuses host.slots c) ∧
        ∀ l, ∀ q ∈ queues l, (book.memory q).orderId ≠ order.orderId) ∧ ∃ s,
      attempt hash host p { book := book' } = (.returns (), s) ∧
      Inserted hash book s.book queues ⟨order.isBuy, index.toNat⟩ p order) ∨
    (¬ ((∀ c, growthRequest book.orderIndex = some c → ¬ Refuses host.slots c) ∧
        ∀ l, ∀ q ∈ queues l, (book.memory q).orderId ≠ order.orderId) ∧
      Fails hash host book book' queues p) := by
  obtain ⟨linked, hattempt, hlink⟩ := @attempt_linked hash book book' queues p order
    h hallocated hvalid index hprice hremaining hlimit hfits
  have hrun := hattempt host
  have hlinkedIndex : linked.orderIndex = book.orderIndex := by
    rw [hlink.index, hallocated.orderIndex]
  have hids : (∃ v, Maps book.orderIndex order.orderId v) ↔
      ∃ l, ∃ q ∈ queues l, (book.memory q).orderId = order.orderId := by
    simp only [h.indexed]
    constructor
    · intro hv
      obtain ⟨q, ⟨l, hq⟩, heq⟩ := hv
      exact ⟨l, q, hq, heq⟩
    · intro hv
      obtain ⟨l, q, hq, heq⟩ := hv
      exact ⟨q, ⟨l, hq⟩, heq⟩
  generalize hadd : OrderIndexing.addOrder hash host.slots p order.orderId book.orderIndex =
    result
  obtain ⟨o, index'⟩ := result
  have hadd' : onBook (onIndex (OrderIndexing.addOrder hash host.slots p order.orderId))
      ⟨linked, true, order.isBuy, some ⟨order.isBuy, index.toNat⟩⟩ =
      (o, ⟨{ linked with orderIndex := index' }, true, order.isBuy,
        some ⟨order.isBuy, index.toNat⟩⟩) := by
    apply onBook_run
    apply onIndex_run
    rw [hlinkedIndex]
    exact hadd
  rw [hadd'] at hrun
  -- whatever the index objects to, the handler takes the order back out
  have hundo : ∀ e, o = .throws e → IndexOk hash index' →
      (∀ id q, Maps index' id q ↔ Maps book.orderIndex id q) →
      Fails hash host book book' queues p := by
    intro e ho hok hmaps
    obtain ⟨s', hroll, hrejected⟩ :=
      rollback_linked h hallocated.toPending hlink (s := ⟨{ linked with orderIndex := index' },
        true, order.isBuy, some ⟨order.isBuy, index.toNat⟩⟩) hok hmaps rfl rfl rfl rfl e
    exact ⟨e, _, s', by rw [hrun, ho], hroll, hrejected⟩
  obtain ⟨hok, ⟨hnull, _⟩ | ⟨_, ⟨c, hc, hrefuse⟩, ⟨e, he⟩, hsame⟩ | ⟨_, _, hmapped, he, hmaps⟩ |
    ⟨_, hgrant, habsent, ho, hmaps⟩⟩ := addOrder_spec h.index host.slots hadd
  · exact absurd hnull hallocated.ne_null
  · right
    refine ⟨fun hi => hi.1 c hc hrefuse, hundo e he hok ?_⟩
    intro id q
    rw [hsame]
  · right
    refine ⟨?_, hundo _ he hok hmaps⟩
    intro hi
    obtain ⟨l, q, hq, heq⟩ := hids.mp hmapped
    exact hi.2 l q hq heq
  · left
    obtain ⟨hlt, hslot⟩ := (h.configured order.isBuy).indexOf_ok hprice
    refine ⟨⟨hgrant, ?_⟩, _, by rw [hrun, ho], ?_⟩
    · intro l q hq heq
      obtain ⟨v, hv⟩ := hids.mpr ⟨l, q, hq, heq⟩
      exact habsent v hv
    · exact inserted_of_linked h hallocated.toPending hlink hok hmaps rfl hlt hslot

end Valid

end Attempt

section Insertion

variable {hash : OrderId → UInt64} {book : OrderBook} {queues : Queues}

theorem Rejected.refl (h : Synced hash book queues) : Rejected hash book book queues :=
  ⟨h, fun _ => PriceLadder.SameGrid.refl _, fun _ _ _ => rfl, fun _ => rfl⟩

/-- The transaction on a fresh order. -/
theorem transaction_run (h : Synced hash book queues) (host : Host) {book' : OrderBook}
    {p : OrderPtr} {order : Order} (hallocated : Allocated hash book book' queues p order)
    (hlimit : order.orderType = .limit) (horiginal : order.originalQuantity ≠ 0)
    (hremaining : order.remainingQuantity ≠ 0)
    (hle : order.remainingQuantity ≤ order.originalQuantity)
    (hmemory : ¬ AllocationRefused host book.orderPool) :
    (Insertable host book queues order ∧ ∃ s l,
        attempt hash host p { book := book' } = (.returns (), s) ∧
        Inserted hash book s.book queues l p order) ∨
      (¬ Insertable host book queues order ∧ Fails hash host book book' queues p) := by
  by_cases hvalid : order.isValid = true
  swap
  · right
    exact ⟨fun hi => hvalid hi.valid,
      attempt_invalid h hallocated (Bool.eq_false_iff.mpr hvalid)⟩
  cases hprice : (book.ladder order.isBuy).indexOf order.price with
  | error e =>
    right
    refine ⟨?_, attempt_offGrid h hallocated hvalid hprice⟩
    intro hi
    obtain ⟨index, hok⟩ := hi.price
    rw [hprice] at hok
    simp at hok
  | ok index =>
    by_cases hfits : order.remainingQuantity ≤
        uint64Max - (book.level ⟨order.isBuy, index.toNat⟩).totalQuantity
    swap
    · right
      exact ⟨fun hi => hfits (hi.fits index hprice),
        attempt_overflow h hallocated hvalid hprice hremaining hfits⟩
    rcases @attempt_indexed hash host book book' queues p order h hallocated hvalid index hprice
        hremaining hlimit hfits with
      ⟨⟨hgrant, habsent⟩, s, hrun, hinserted⟩ | ⟨hrefused, hfails⟩
    · left
      refine ⟨⟨hlimit, horiginal, hremaining, hle, hmemory, hvalid, ⟨index, hprice⟩, ?_, hgrant,
        habsent⟩, s, _, hrun, hinserted⟩
      intro index₂ hprice₂
      rw [hprice] at hprice₂
      rw [← Except.ok.inj hprice₂]
      exact hfits
    · right
      exact ⟨fun hi => hrefused ⟨hi.slots, hi.absent⟩, hfails⟩

/-- An insertion fails one of its own checks, or goes on to allocate. -/
theorem insertOrder_cases (hash : OrderId → UInt64) (book : OrderBook) (host : Host)
    (order : Order) :
    (insertOrder hash host order book = (.throws
        (.invalidArgument "OrderBook accepts resting limit orders only"), book) ∧
      order.orderType ≠ .limit) ∨
    (insertOrder hash host order book = (.throws
        (.invalidArgument "Invalid original or remaining quantity"), book) ∧
      ¬ (order.originalQuantity ≠ 0 ∧ order.remainingQuantity ≠ 0 ∧
        order.remainingQuantity ≤ order.originalQuantity)) ∨
    (insertOrder hash host order book = (do
        let p ← onPool (allocate host order.orderId order.price order.originalQuantity
          order.remainingQuantity order.timestamp order.orderSide order.orderType
          order.sequenceNumber)
        withLocals (tryCatch (attempt hash host p) (rollback p))
        return p : BookProc OrderPtr) book ∧ order.orderType = .limit ∧
      order.originalQuantity ≠ 0 ∧ order.remainingQuantity ≠ 0 ∧
      order.remainingQuantity ≤ order.originalQuantity) := by
  unfold insertOrder addOrderWithQuantities
  by_cases hlimit : order.orderType = .limit
  swap
  · left
    exact ⟨by rw [if_pos hlimit, Proc.throw_bind_apply], hlimit⟩
  rw [if_neg (not_not.mpr hlimit)]
  right
  by_cases hquantities : (!Quantity.isValid order.originalQuantity ||
      !Quantity.isValid order.remainingQuantity ||
      order.remainingQuantity > order.originalQuantity) = true
  · left
    refine ⟨by simp only [hquantities, if_true, Proc.throw_bind_apply], ?_⟩
    intro hi
    have hle := UInt64.not_lt.mpr hi.2.2
    simp [Quantity.isValid, hi.1, hi.2.1, hle] at hquantities
  · right
    rw [if_neg hquantities]
    exact ⟨rfl, hlimit, by simpa [Quantity.isValid, and_assoc] using hquantities⟩

/-- The allocation of an order fails without a trace or leaves the order pending. -/
theorem allocate_order (h : Synced hash book queues) (host : Host) (order : Order) :
    (AllocationRefused host book.orderPool ∧ ∃ e,
      onPool (allocate host order.orderId order.price order.originalQuantity
        order.remainingQuantity order.timestamp order.orderSide order.orderType
        order.sequenceNumber) book = (.throws e, book)) ∨
    (¬ AllocationRefused host book.orderPool ∧ ∃ p book',
      onPool (allocate host order.orderId order.price order.originalQuantity
        order.remainingQuantity order.timestamp order.orderSide order.orderType
        order.sequenceNumber) book = (.returns p, book') ∧
      Allocated hash book book' queues p order) := by
  rcases allocate_spec (s := ⟨book.orderPool, book.memory⟩) order.orderId order.price
      order.originalQuantity order.remainingQuantity order.timestamp order.orderSide order.orderType
      order.sequenceNumber host h.pool with
    ⟨hrefused, e, hrun⟩ | ⟨hgranted, p, pool, hfresh, hnull, hpool, hrun⟩
  · exact Or.inl ⟨hrefused, e, onPool_run hrun⟩
  · exact Or.inr ⟨hgranted, p, _, onPool_run hrun, allocated h hfresh hnull hpool⟩

/-- Insertion stores the order exactly when it is insertable, and otherwise throws and leaves
the resting orders as they were. -/
theorem insertOrder_run (h : Synced hash book queues) (host : Host) (order : Order) :
    (Insertable host book queues order ∧ ∃ book' l p,
        insertOrder hash host order book = (.returns p, book') ∧
        Inserted hash book book' queues l p order) ∨
      (¬ Insertable host book queues order ∧ ∃ e book',
        insertOrder hash host order book = (.throws e, book') ∧
        Rejected hash book book' queues) := by
  rcases insertOrder_cases hash book host order with ⟨hrun, hlimit⟩ | ⟨hrun, hbounds⟩ |
    ⟨hrun, hlimit, horiginal, hremaining, hle⟩
  · right
    exact ⟨fun hi => hlimit hi.limit, _, book, hrun, Rejected.refl h⟩
  · right
    exact ⟨fun hi => hbounds ⟨hi.original, hi.remaining, hi.le⟩, _, book, hrun, Rejected.refl h⟩
  rw [hrun]
  rcases allocate_order h host order with
    ⟨hrefused, e, hallocate⟩ | ⟨hgranted, p, book', hallocate, hallocated⟩
  · right
    exact ⟨fun hi => hi.memory hrefused, e, book, Proc.bind_throws _ hallocate, Rejected.refl h⟩
  rw [Proc.bind_returns _ hallocate]
  rcases transaction_run h host hallocated hlimit horiginal hremaining hle hgranted with
    ⟨hinsertable, s, l, hattempt, hinserted⟩ | ⟨hnot, e, s, s', hattempt, hroll, hrejected⟩
  · left
    refine ⟨hinsertable, s.book, l, p, ?_, hinserted⟩
    exact Proc.bind_returns _ (withLocals_run (Proc.handle_returns _ hattempt))
  · right
    refine ⟨hnot, e, s'.book, ?_, hrejected⟩
    exact Proc.bind_throws _ (withLocals_run ((Proc.handle_throws _ hattempt).trans hroll))

/-- An insertion that returns has stored the order. -/
theorem insertOrder_returns (h : Synced hash book queues) {host : Host} {order : Order}
    {p : OrderPtr} {book' : OrderBook}
    (hrun : insertOrder hash host order book = (.returns p, book')) :
    Insertable host book queues order ∧ ∃ l q, Inserted hash book book' queues l q order := by
  rcases insertOrder_run h host order with
    ⟨hinsertable, t, l, q, hreturns, hinserted⟩ | ⟨_, e, t, hthrows, _⟩
  · rw [hrun] at hreturns
    obtain ⟨_, rfl⟩ := Prod.mk.inj hreturns
    exact ⟨hinsertable, l, q, hinserted⟩
  · rw [hrun] at hthrows
    simp at hthrows

/-- The level that takes the order has room for its quantity. -/
theorem Insertable.fits_level {host : Host} {order : Order} (hi : Insertable host book queues order)
    (h : LevelsOk book queues) {book' : OrderBook} {l : LevelPtr} {p : OrderPtr}
    (hinserted : Inserted hash book book' queues l p order) :
    order.remainingQuantity ≤ uint64Max - (book.level l).totalQuantity := by
  obtain ⟨d, i⟩ := l
  have hside : d = order.isBuy := hinserted.side
  subst hside
  have hlt : i < (book.ladder order.isBuy).levelCount.toNat := hinserted.lt
  have hcount := (book.ladder order.isBuy).levelCount.toNat_lt
  have hfits := hi.fits _ ((h.configured order.isBuy).indexOf_slotPrice hlt hinserted.price)
  rwa [UInt64.toNat_ofNat_of_lt' (by rw [UInt64.size]; omega)] at hfits

end Insertion

end Leka.BookInsertions
