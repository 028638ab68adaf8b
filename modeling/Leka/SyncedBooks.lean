import Leka.Buckets
import Leka.IndexAsMap
import Leka.OrderBooks
import Leka.PoolAsSet

/-!
The invariant that ties the parts of a book together. Every level represents a queue of
orders; the orders in the queues are exactly the live slots of the pool and the pointers
of the index, each under its own id; the occupancy bits mark the queues that are not
empty. A level's aggregate covers what rests in it.
-/

namespace Leka.SyncedBooks

open Procedures Orders IndexAsMap PoolAsSet PriceLevels PriceLadders WordBits OrderBooks Buckets

/-- The orders of every level, first in first. -/
abbrev Queues := LevelPtr → List OrderPtr

/-- The resting orders of one side, level by level from the best index. -/
def sideOrders (book : OrderBook) (queues : Queues) (descending : Bool) : List OrderPtr :=
  gather (book.ladder descending).levelCount.toNat fun i => queues ⟨descending, i⟩

def restingOrders (book : OrderBook) (queues : Queues) : List OrderPtr :=
  sideOrders book queues true ++ sideOrders book queues false

def remainingOf (memory : Memory) (order : OrderPtr) : ℕ := (memory order).remainingQuantity.toNat

/-- The sum of the remaining quantities of the listed orders. -/
def remainingSum (memory : Memory) (orders : List OrderPtr) : ℕ :=
  (orders.map (remainingOf memory)).sum

/-- What every order in the level at `level` satisfies. -/
structure RestsIn (order : Order) (level : LevelPtr) : Prop where
  side : order.orderSide = if level.descending then .buy else .sell
  limit : order.orderType = .limit
  valid : order.isValid = true

/-- The two ladders hold the queues. -/
structure LevelsOk (book : OrderBook) (queues : Queues) : Prop where
  configured : ∀ d, (book.ladder d).Configured
  descending : ∀ d, (book.ladder d).descending = d
  marked : ∀ d, (book.ladder d).Marked
  represents : ∀ l, Represents l ⟨book.level l, book.memory⟩ (queues l)
  bits : ∀ l : LevelPtr, bitAt (book.ladder l.descending).words l.index = decide (queues l ≠ [])
  rests : ∀ l, ∀ p ∈ queues l, RestsIn (book.memory p) l
  covered : ∀ l, remainingSum book.memory (queues l) ≤ (book.level l).totalQuantity.toNat

/-- The parts of the book agree on which orders rest where. -/
structure Synced (hash : OrderId → UInt64) (book : OrderBook) (queues : Queues) : Prop extends
    LevelsOk book queues where
  index : IndexOk hash book.orderIndex
  indexed : ∀ id p, Maps book.orderIndex id p ↔
    (∃ l, p ∈ queues l) ∧ (book.memory p).orderId = id
  pool : PoolOk book.orderPool (restingOrders book queues)

/-- Every resting order has something left to execute. Inside the matching loop this fails
for the order that is being filled. -/
def Positive (book : OrderBook) (queues : Queues) : Prop :=
  ∀ l, ∀ p ∈ queues l, (book.memory p).remainingQuantity ≠ 0

/-- Nothing of an order changed but its place in a level. -/
def SameOrders (memory memory' : Memory) (orders : List OrderPtr) : Prop :=
  ∀ p ∈ orders, (memory' p).detached = (memory p).detached

section Ladders

variable (book : OrderBook) (ladder : PriceLadder) (value : PriceLevel) {d e : Bool}
  {l m : LevelPtr}

theorem ladder_setLadder_self (d : Bool) : (book.setLadder d ladder).ladder d = ladder := by
  cases d <;> rfl

theorem ladder_setLadder_ne (h : e ≠ d) : (book.setLadder d ladder).ladder e = book.ladder e := by
  cases d <;> cases e <;> simp_all [OrderBook.setLadder, OrderBook.ladder]

theorem setLadder_self (d : Bool) : book.setLadder d (book.ladder d) = book := by
  cases d <;> rfl

theorem setLevel_self (l : LevelPtr) : book.setLevel l (book.level l) = book := by
  have hlevels : (book.ladder l.descending).setLevel l.index (book.level l) =
      book.ladder l.descending := by
    have harray : (book.ladder l.descending).levels.setIfInBounds l.index (book.level l) =
        (book.ladder l.descending).levels := by
      apply Array.ext
      · simp
      · intro i hi _
        by_cases heq : l.index = i
        · subst i
          simp only [Array.size_setIfInBounds] at hi
          simp [OrderBook.level, PriceLadder.level, hi]
        · exact Array.getElem_setIfInBounds_ne _ heq
    rw [PriceLadder.setLevel, harray]
  rw [OrderBook.setLevel, hlevels, setLadder_self]

theorem setLadder_frame (d : Bool) : (book.setLadder d ladder).memory = book.memory ∧
    (book.setLadder d ladder).orderPool = book.orderPool ∧
    (book.setLadder d ladder).orderIndex = book.orderIndex := by
  cases d <;> exact ⟨rfl, rfl, rfl⟩

end Ladders

section Detached

variable {order order' : Order}

theorem detached_fields (h : order'.detached = order.detached) :
    order'.orderId = order.orderId ∧ order'.price = order.price ∧
      order'.originalQuantity = order.originalQuantity ∧
      order'.remainingQuantity = order.remainingQuantity ∧
      order'.timestamp = order.timestamp ∧ order'.orderSide = order.orderSide ∧
      order'.orderType = order.orderType ∧ order'.sequenceNumber = order.sequenceNumber := by
  simp only [Order.detached, Order.mk.injEq, and_true] at h
  exact h

theorem isValid_of_detached (h : order'.detached = order.detached) :
    order'.isValid = order.isValid := by
  obtain ⟨hid, hprice, horiginal, hremaining, htime, hside, htype, hseq⟩ := detached_fields h
  simp only [Order.isValid, Order.isBuy, Order.isSell, Order.isLimit, Order.isMarket, hid, hprice,
    horiginal, hremaining, htime, hside, htype, hseq]

theorem RestsIn.of_detached {level : LevelPtr} (hrests : RestsIn order level)
    (h : order'.detached = order.detached) : RestsIn order' level where
  side := by rw [(detached_fields h).2.2.2.2.2.1, hrests.side]
  limit := by rw [(detached_fields h).2.2.2.2.2.2.1, hrests.limit]
  valid := by rw [isValid_of_detached h, hrests.valid]

theorem RestsIn.isBuy {level : LevelPtr} (hrests : RestsIn order level) :
    order.isBuy = level.descending := by
  rw [Order.isBuy, hrests.side]
  cases level.descending <;> simp

theorem remainingSum_congr {memory memory' : Memory} {orders : List OrderPtr}
    (h : SameOrders memory memory' orders) :
    remainingSum memory' orders = remainingSum memory orders := by
  unfold remainingSum
  congr 1
  apply List.map_congr_left
  intro p hp
  rw [remainingOf, (detached_fields (h p hp)).2.2.2.1, remainingOf]

theorem remainingSum_append (memory : Memory) (xs ys : List OrderPtr) :
    remainingSum memory (xs ++ ys) = remainingSum memory xs + remainingSum memory ys := by
  simp [remainingSum]

theorem remainingSum_cons (memory : Memory) (p : OrderPtr) (ys : List OrderPtr) :
    remainingSum memory (p :: ys) = remainingOf memory p + remainingSum memory ys := by
  simp [remainingSum]

theorem remainingSum_erase {memory : Memory} {p : OrderPtr} {xs : List OrderPtr} (hp : p ∈ xs) :
    remainingSum memory xs = remainingOf memory p + remainingSum memory (xs.erase p) := by
  have hperm := (List.perm_cons_erase hp).map (remainingOf memory)
  simpa [remainingSum] using hperm.sum_eq

end Detached

namespace LevelsOk

variable {book : OrderBook} {queues : Queues} {l m : LevelPtr} {p : OrderPtr}

/-- The same ladders, and memory that agrees on the resting orders. -/
theorem frame (h : LevelsOk book queues) {book' : OrderBook} (hbids : book'.bids = book.bids)
    (hasks : book'.asks = book.asks)
    (hmemory : ∀ m, ∀ q ∈ queues m, book'.memory q = book.memory q) : LevelsOk book' queues := by
  have hladder : ∀ d, book'.ladder d = book.ladder d := by
    intro d
    rw [OrderBook.ladder, OrderBook.ladder, hbids, hasks]
  have hlevel : ∀ l, book'.level l = book.level l := by
    intro l
    rw [OrderBook.level, OrderBook.level, hladder]
  refine ⟨?_, ?_, ?_, ?_, ?_, ?_, ?_⟩
  · intro d
    rw [hladder]
    exact h.configured d
  · intro d
    rw [hladder]
    exact h.descending d
  · intro d
    rw [hladder]
    exact h.marked d
  · intro l
    refine (h.represents l).frame (hlevel l) ?_
    intro q hq
    simp only [hmemory l q hq, and_self]
  · intro l
    rw [hladder]
    exact h.bits l
  · intro l q hq
    rw [hmemory l q hq]
    exact h.rests l q hq
  · intro l
    rw [hlevel, remainingSum_congr fun q hq => by rw [hmemory l q hq]]
    exact h.covered l

theorem index_lt (h : LevelsOk book queues) (hne : queues l ≠ []) :
    l.index < (book.ladder l.descending).levelCount.toNat :=
  (h.marked l.descending).lt_of_set (by simpa [h.bits] using hne)

theorem queue_lt (h : LevelsOk book queues) (hp : p ∈ queues l) :
    l.index < (book.ladder l.descending).levelCount.toNat :=
  h.index_lt (List.ne_nil_of_mem hp)

theorem ne_null (h : LevelsOk book queues) (hp : p ∈ queues l) : p ≠ nullptr :=
  fun heq => (h.represents l).not_null (heq ▸ hp)

/-- An order is linked in one level only. -/
theorem level_unique (h : LevelsOk book queues) (hl : p ∈ queues l) (hm : p ∈ queues m) :
    l = m := by
  have howner := (h.represents l).owner p hl
  rw [(h.represents m).owner p hm] at howner
  exact (Option.some.inj howner).symm

theorem mem_sideOrders (h : LevelsOk book queues) (d : Bool) :
    p ∈ sideOrders book queues d ↔ ∃ i, p ∈ queues ⟨d, i⟩ := by
  simp only [sideOrders, mem_gather]
  constructor
  · intro hp
    obtain ⟨i, _, hmem⟩ := hp
    exact ⟨i, hmem⟩
  · intro hp
    obtain ⟨i, hmem⟩ := hp
    exact ⟨i, h.queue_lt hmem, hmem⟩

theorem mem_restingOrders (h : LevelsOk book queues) :
    p ∈ restingOrders book queues ↔ ∃ l, p ∈ queues l := by
  simp only [restingOrders, List.mem_append, h.mem_sideOrders]
  constructor
  · intro hp
    rcases hp with ⟨i, hmem⟩ | ⟨i, hmem⟩
    · exact ⟨_, hmem⟩
    · exact ⟨_, hmem⟩
  · intro hp
    obtain ⟨⟨d, i⟩, hmem⟩ := hp
    cases d with
    | true => exact Or.inl ⟨i, hmem⟩
    | false => exact Or.inr ⟨i, hmem⟩

/-- The ladder finds the slot of a resting order's price. -/
theorem indexOf_price (h : LevelsOk book queues) (hp : p ∈ queues l) :
    (book.ladder l.descending).indexOf (book.memory p).price =
      .ok (UInt64.ofNat l.index) := by
  apply (h.configured l.descending).indexOf_slotPrice (h.queue_lt hp)
  rw [(h.represents l).price p hp]
  exact (h.configured l.descending).level_price l.index (h.queue_lt hp)

theorem ofNat_index (h : LevelsOk book queues) (hp : p ∈ queues l) :
    (UInt64.ofNat l.index).toNat = l.index := by
  have hlt := h.queue_lt hp
  have hcount := (book.ladder l.descending).levelCount.toNat_lt
  exact UInt64.toNat_ofNat_of_lt' (by rw [UInt64.size]; omega)

end LevelsOk

namespace Synced

variable {hash : OrderId → UInt64} {book : OrderBook} {queues : Queues} {l m : LevelPtr}
  {p : OrderPtr}

/-- An id names one resting order. -/
theorem id_unique (h : Synced hash book queues) {q : OrderPtr} (hp : p ∈ queues l)
    (hq : q ∈ queues m) (hid : (book.memory p).orderId = (book.memory q).orderId) : p = q :=
  h.index.functional ((h.indexed _ p).mpr ⟨⟨l, hp⟩, hid⟩) ((h.indexed _ q).mpr ⟨⟨m, hq⟩, rfl⟩)

/-- A lookup returns the resting order with the id, or null when there is none. -/
theorem findOrder_run (h : Synced hash book queues) (id : OrderId) :
    ∃ found, findOrder hash id book = (.returns found, book) ∧
      ((found = nullptr ∧ ∀ l, ∀ p ∈ queues l, (book.memory p).orderId ≠ id) ∨
        ∃ l, found ∈ queues l ∧ (book.memory found).orderId = id) := by
  obtain ⟨found, hrun, hcase⟩ := findOrder_spec h.index id
  refine ⟨found, onIndex_run hrun, ?_⟩
  rcases hcase with ⟨hnull, habsent⟩ | hmaps
  · left
    refine ⟨hnull, ?_⟩
    intro l p hp hid
    exact habsent p ((h.indexed id p).mpr ⟨⟨l, hp⟩, hid⟩)
  · right
    obtain ⟨⟨l, hp⟩, hid⟩ := (h.indexed id found).mp hmaps
    exact ⟨l, hp, hid⟩

theorem findOrder_self (h : Synced hash book queues) (hp : p ∈ queues l) :
    findOrder hash (book.memory p).orderId book = (.returns p, book) := by
  obtain ⟨found, hrun, ⟨_, habsent⟩ | ⟨m, hfound, hid⟩⟩ := h.findOrder_run (book.memory p).orderId
  · exact absurd rfl (habsent l p hp)
  · rw [hrun, h.id_unique hfound hp hid]

end Synced

section Levels

variable {book book' : OrderBook} {l m : LevelPtr} {value : PriceLevel} {b : Bool}

/-- One level slot and its occupancy bit have been written. -/
structure Relevelled (book book' : OrderBook) (l : LevelPtr) (value : PriceLevel) (b : Bool) :
    Prop where
  configured : ∀ d, (book'.ladder d).Configured
  marked : ∀ d, (book'.ladder d).Marked
  grid : ∀ d, PriceLadder.SameGrid (book.ladder d) (book'.ladder d)
  level_self : book'.level l = value
  level_ne : ∀ m, m ≠ l → book'.level m = book.level m
  bit_self : bitAt (book'.ladder l.descending).words l.index = b
  bit_ne : ∀ m : LevelPtr, m ≠ l → bitAt (book'.ladder m.descending).words m.index =
    bitAt (book.ladder m.descending).words m.index

theorem levelPtr_ne (h : m ≠ l) (hside : m.descending = l.descending) : m.index ≠ l.index := by
  intro hindex
  apply h
  cases m
  cases l
  simp_all

/-- Writing a level slot. -/
theorem relevelled_setLevel (value : PriceLevel) (hconf : ∀ d, (book.ladder d).Configured)
    (hmarked : ∀ d, (book.ladder d).Marked)
    (hl : l.index < (book.ladder l.descending).levelCount.toNat)
    (hprice : value.price = (book.level l).price) :
    Relevelled book (book.setLevel l value) l value
      (bitAt (book.ladder l.descending).words l.index) := by
  have hself : (book.setLevel l value).ladder l.descending =
      (book.ladder l.descending).setLevel l.index value := ladder_setLadder_self _ _ _
  have hne : ∀ d, d ≠ l.descending → (book.setLevel l value).ladder d = book.ladder d :=
    fun d hd => ladder_setLadder_ne _ _ hd
  have hsize : l.index < (book.ladder l.descending).levels.size := by
    rw [(hconf _).levels_size]
    exact hl
  refine ⟨?_, ?_, ?_, ?_, ?_, ?_, ?_⟩
  · intro d
    by_cases hd : d = l.descending
    · subst d
      rw [hself]
      exact (hconf _).setLevel hprice
    · rw [hne d hd]
      exact hconf d
  · intro d
    by_cases hd : d = l.descending
    · subst d
      rw [hself]
      exact (hmarked _).setLevel
    · rw [hne d hd]
      exact hmarked d
  · intro d
    by_cases hd : d = l.descending
    · subst d
      rw [hself]
      exact PriceLadder.SameGrid.setLevel _ _ _
    · rw [hne d hd]
      exact PriceLadder.SameGrid.refl _
  · rw [OrderBook.level, hself]
    exact PriceLadder.level_setLevel_self hsize
  · intro m hm
    by_cases hd : m.descending = l.descending
    · rw [OrderBook.level, OrderBook.level, hd, hself]
      exact PriceLadder.level_setLevel_ne (levelPtr_ne hm hd)
    · rw [OrderBook.level, hne _ hd]
      rfl
  · rw [hself]
    rfl
  · intro m _
    by_cases hd : m.descending = l.descending
    · rw [hd, hself]
      rfl
    · rw [hne _ hd]

/-- Rewriting the marks of one ladder. -/
theorem Relevelled.remark (h : Relevelled book book' l value b) {ladder : PriceLadder} {b' : Bool}
    (hconf : ladder.Configured) (hmarked : ladder.Marked)
    (hgrid : PriceLadder.SameGrid (book'.ladder l.descending) ladder)
    (hlevels : ladder.levels = (book'.ladder l.descending).levels)
    (hself : bitAt ladder.words l.index = b')
    (hne : ∀ i, i ≠ l.index → bitAt ladder.words i =
      bitAt (book'.ladder l.descending).words i) :
    Relevelled book (book'.setLadder l.descending ladder) l value b' := by
  have hladder := ladder_setLadder_self book' ladder l.descending
  have hother : ∀ d, d ≠ l.descending →
      (book'.setLadder l.descending ladder).ladder d = book'.ladder d :=
    fun d hd => ladder_setLadder_ne _ _ hd
  have hlevel : ∀ i, ladder.level i = (book'.ladder l.descending).level i := by
    intro i
    simp only [PriceLadder.level, hlevels]
  refine ⟨?_, ?_, ?_, ?_, ?_, ?_, ?_⟩
  · intro d
    by_cases hd : d = l.descending
    · subst d
      rw [hladder]
      exact hconf
    · rw [hother d hd]
      exact h.configured d
  · intro d
    by_cases hd : d = l.descending
    · subst d
      rw [hladder]
      exact hmarked
    · rw [hother d hd]
      exact h.marked d
  · intro d
    by_cases hd : d = l.descending
    · subst d
      rw [hladder]
      exact (h.grid _).trans hgrid
    · rw [hother d hd]
      exact h.grid d
  · rw [OrderBook.level, hladder, hlevel]
    exact h.level_self
  · intro m hm
    by_cases hd : m.descending = l.descending
    · rw [OrderBook.level, hd, hladder, hlevel, ← hd]
      exact h.level_ne m hm
    · rw [OrderBook.level, hother _ hd]
      exact h.level_ne m hm
  · rw [hladder]
    exact hself
  · intro m hm
    by_cases hd : m.descending = l.descending
    · rw [hd, hladder, hne _ (levelPtr_ne hm hd), ← hd]
      exact h.bit_ne m hm
    · rw [hother _ hd]
      exact h.bit_ne m hm

variable {index : UInt64} (hindex : index.toNat = l.index)
  (hlt : l.index < (book'.ladder l.descending).levelCount.toNat)
include hindex hlt

theorem Relevelled.occupied (h : Relevelled book book' l value false) :
    Relevelled book (book'.setLadder l.descending
      ((book'.ladder l.descending).occupiedAt index)) l value true := by
  have hconf := h.configured l.descending
  have hbits := PriceLadder.bitAt_occupiedAt hconf.words_size (hindex ▸ hlt)
  refine h.remark (hconf.occupiedAt index)
    ((h.marked _).occupiedAt hconf (by rw [hindex]; exact hlt) (by rw [hindex]; exact h.bit_self))
    (PriceLadder.SameGrid.occupiedAt _ _) rfl ?_ ?_
  · simp [hbits, hindex]
  · intro i hi
    simp [hbits, hindex, hi]

theorem Relevelled.emptied (h : Relevelled book book' l value true) :
    Relevelled book (book'.setLadder l.descending
      ((book'.ladder l.descending).emptiedAt index)) l value false := by
  have hconf := h.configured l.descending
  have hbits := PriceLadder.bitAt_emptiedAt hconf.words_size (hindex ▸ hlt)
  refine h.remark (hconf.emptiedAt index) ((h.marked _).emptiedAt hconf (by rw [hindex]; exact hlt)
    (by rw [hindex]; exact h.bit_self)) (PriceLadder.SameGrid.emptiedAt _ _) rfl ?_ ?_
  · simp [hbits, hindex]
  · intro i hi
    simp [hbits, hindex, hi]

end Levels

section Queues

variable {book book' : OrderBook} {queues : Queues} {l : LevelPtr} {xs : List OrderPtr}

theorem bucket_update (queues : Queues) (l : LevelPtr) (xs : List OrderPtr) :
    (fun i => Function.update queues l xs ⟨l.descending, i⟩) =
      Function.update (fun i => queues ⟨l.descending, i⟩) l.index xs := by
  funext i
  by_cases hi : i = l.index
  · subst i
    simp
  · have hne : (⟨l.descending, i⟩ : LevelPtr) ≠ l := fun heq => hi (congrArg LevelPtr.index heq)
    rw [Function.update_of_ne hne, Function.update_of_ne hi]

/-- The orders of the side in front of a level's queue, and those behind it. -/
theorem sideOrders_update_self (hl : l.index < (book.ladder l.descending).levelCount.toNat)
    (xs : List OrderPtr) : sideOrders book (Function.update queues l xs) l.descending =
      gather l.index (fun i => queues ⟨l.descending, i⟩) ++
        (xs ++ gatherAfter (book.ladder l.descending).levelCount.toNat l.index
          fun i => queues ⟨l.descending, i⟩) := by
  rw [sideOrders, bucket_update, gather_update hl]

theorem sideOrders_split (hl : l.index < (book.ladder l.descending).levelCount.toNat) :
    sideOrders book queues l.descending =
      gather l.index (fun i => queues ⟨l.descending, i⟩) ++
        (queues l ++ gatherAfter (book.ladder l.descending).levelCount.toNat l.index
          fun i => queues ⟨l.descending, i⟩) := by
  rw [← sideOrders_update_self hl, Function.update_eq_self]

theorem sideOrders_update_ne {d : Bool} (hd : d ≠ l.descending) (xs : List OrderPtr) :
    sideOrders book (Function.update queues l xs) d = sideOrders book queues d := by
  apply gather_congr
  intro i _
  exact Function.update_of_ne (fun heq => hd (congrArg LevelPtr.descending heq)) _ _

theorem sideOrders_grid (hgrid : ∀ d, PriceLadder.SameGrid (book.ladder d) (book'.ladder d))
    (queues : Queues) (d : Bool) : sideOrders book' queues d = sideOrders book queues d := by
  rw [sideOrders, sideOrders, (hgrid d).levelCount]

theorem restingOrders_grid (hgrid : ∀ d, PriceLadder.SameGrid (book.ladder d) (book'.ladder d))
    (queues : Queues) : restingOrders book' queues = restingOrders book queues := by
  rw [restingOrders, restingOrders, sideOrders_grid hgrid, sideOrders_grid hgrid]

/-- A queue that is rearranged and gets `p` in addition. -/
theorem restingOrders_perm_cons (queues : Queues) {p : OrderPtr} {ys : List OrderPtr}
    (hl : l.index < (book.ladder l.descending).levelCount.toNat) (hperm : xs.Perm (p :: ys)) :
    (restingOrders book (Function.update queues l xs)).Perm
      (p :: restingOrders book (Function.update queues l ys)) := by
  have hside : (sideOrders book (Function.update queues l xs) l.descending).Perm
      (p :: sideOrders book (Function.update queues l ys) l.descending) := by
    rw [sideOrders_update_self hl, sideOrders_update_self hl]
    refine ((hperm.append_right _).append_left _).trans ?_
    exact List.perm_middle
  unfold restingOrders
  cases hd : l.descending with
  | true =>
    rw [hd] at hside
    rw [sideOrders_update_ne (d := false) (by simp [hd]),
      sideOrders_update_ne (d := false) (by simp [hd])]
    exact hside.append_right _
  | false =>
    rw [hd] at hside
    rw [sideOrders_update_ne (d := true) (by simp [hd]),
      sideOrders_update_ne (d := true) (by simp [hd])]
    exact (hside.append_left _).trans List.perm_middle

end Queues

/-- The ladders after the queue at `l` has become `xs` and its aggregate `total`. -/
structure Requeued (book book' : OrderBook) (queues : Queues) (l : LevelPtr) (xs : List OrderPtr)
    (total : Quantity) : Prop where
  levels : LevelsOk book' (Function.update queues l xs)
  grid : ∀ d, PriceLadder.SameGrid (book.ladder d) (book'.ladder d)
  orders : ∀ q, (book'.memory q).detached = (book.memory q).detached
  total : (book'.level l).totalQuantity = total
  level_ne : ∀ m, m ≠ l → book'.level m = book.level m
  untouched : ∀ m, m ≠ l → ∀ q ∈ queues m, book'.memory q = book.memory q
  pool : book'.orderPool = book.orderPool
  index : book'.orderIndex = book.orderIndex

/-- The queues after one of them has changed. -/
theorem LevelsOk.update {book book' : OrderBook} {queues : Queues} {l : LevelPtr}
    {value : PriceLevel} {xs : List OrderPtr} (h : LevelsOk book queues)
    (hr : Relevelled book book' l value (decide (xs ≠ [])))
    (hrep : Represents l ⟨value, book'.memory⟩ xs)
    (hsame : ∀ m, m ≠ l → ∀ y ∈ queues m, book'.memory y = book.memory y)
    (hrests : ∀ y ∈ xs, RestsIn (book'.memory y) l)
    (hcovered : remainingSum book'.memory xs ≤ value.totalQuantity.toNat) :
    LevelsOk book' (Function.update queues l xs) where
  configured := hr.configured
  descending d := by rw [(hr.grid d).descending, h.descending]
  marked := hr.marked
  represents m := by
    by_cases hm : m = l
    · subst m
      rw [Function.update_self, hr.level_self]
      exact hrep
    · rw [Function.update_of_ne hm]
      refine (h.represents m).frame (hr.level_ne m hm) ?_
      intro y hy
      simp only [hsame m hm y hy, and_self]
  bits m := by
    by_cases hm : m = l
    · subst m
      rw [Function.update_self, hr.bit_self]
    · rw [Function.update_of_ne hm, hr.bit_ne m hm]
      exact h.bits m
  rests m p hp := by
    by_cases hm : m = l
    · subst m
      rw [Function.update_self] at hp
      exact hrests p hp
    · rw [Function.update_of_ne hm] at hp
      rw [hsame m hm p hp]
      exact h.rests m p hp
  covered m := by
    by_cases hm : m = l
    · subst m
      rw [Function.update_self, hr.level_self]
      exact hcovered
    · rw [Function.update_of_ne hm, hr.level_ne m hm]
      have hcongr : remainingSum book'.memory (queues m) = remainingSum book.memory (queues m) :=
        remainingSum_congr fun y hy => by rw [hsame m hm y hy]
      rw [hcongr]
      exact h.covered m

end Leka.SyncedBooks
