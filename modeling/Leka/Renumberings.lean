import Leka.EventOutcomes
import Leka.TwinRuns

/-!
Books that differ in sequence numbers only. No procedure of the book or the engine reads the
number of an order but for the test that it is not zero, so what happens in one such book
happens in the other, and the numbers of the live orders stay in the same correspondence.
-/

namespace Leka.Renumberings

open Procedures Orders OrderPools PoolAsSet PriceLevels PriceLadders OrderBooks MatchingEngines
  TwinRuns

/-- The same order under another number. The number of a live order has been given out, and is
mapped by `f`. -/
structure AlikeOrder (f : ℕ → ℕ) (bound : ℕ) (live : Prop) (order order' : Order) : Prop where
  fields : order' = { order with sequenceNumber := order'.sequenceNumber }
  zero : order'.sequenceNumber = 0 ↔ order.sequenceNumber = 0
  number : live → order'.sequenceNumber.toNat = f order.sequenceNumber.toNat ∧
    order.sequenceNumber.toNat ≤ bound

def Alike (f : ℕ → ℕ) (bound : ℕ) (live : OrderPtr → Prop) (memory memory' : Memory) : Prop :=
  ∀ q, AlikeOrder f bound (live q) (memory q) (memory' q)

/-- The memory with every order under the number that `numbers` gives it. -/
def renumber (numbers : OrderPtr → SequenceNumber) (memory : Memory) : Memory :=
  fun q => { memory q with sequenceNumber := numbers q }

def AlikeLevel (f : ℕ → ℕ) (bound : ℕ) (live : OrderPtr → Prop) (s t : LevelState) : Prop :=
  t.level = s.level ∧ Alike f bound live s.memory t.memory

def AlikePool (f : ℕ → ℕ) (bound : ℕ) (s t : PoolState) : Prop :=
  t.pool = s.pool ∧ Alike f bound (Live s.pool) s.memory t.memory

def AlikeBook (f : ℕ → ℕ) (bound : ℕ) (book book' : OrderBook) : Prop :=
  book' = { book with memory := book'.memory } ∧
    Alike f bound (Live book.orderPool) book.memory book'.memory

def AlikeInsertion (f : ℕ → ℕ) (bound : ℕ) (s t : Insertion) : Prop :=
  t = { s with book := t.book } ∧ AlikeBook f bound s.book t.book

/-- The counters are apart as well, at `a` and at `b`. -/
def AlikeEngine (f : ℕ → ℕ) (bound : ℕ) (a b : UInt64) (s t : EngineState) : Prop :=
  s.currentSequence = a ∧ t.currentSequence = b ∧ t.out = s.out ∧
    AlikeBook f bound s.orderBook t.orderBook

section Memories

variable {f : ℕ → ℕ} {bound : ℕ} {live : OrderPtr → Prop} {memory memory' : Memory}
  {order order' : Order}

theorem Alike.exists_renumber (h : Alike f bound live memory memory') :
    ∃ numbers, memory' = renumber numbers memory := by
  refine ⟨fun q => (memory' q).sequenceNumber, ?_⟩
  funext q
  exact (h q).fields

/-- Both numbers of an order are zero or neither is, so the order is valid in both books. -/
theorem AlikeOrder.isValid_eq {p : Prop} (h : AlikeOrder f bound p order order') :
    order'.isValid = order.isValid := by
  have hnumber : SequenceNumber.isValid order'.sequenceNumber =
      SequenceNumber.isValid order.sequenceNumber := by
    simp only [SequenceNumber.isValid, bne, h.zero, Bool.beq_eq_decide_eq]
  rw [h.fields]
  simp only [Order.isValid, Order.isBuy, Order.isSell, Order.isLimit, Order.isMarket, hnumber]

theorem Alike.update (h : Alike f bound live memory memory') (q : OrderPtr)
    (horder : AlikeOrder f bound (live q) order order') :
    Alike f bound live (Function.update memory q order) (Function.update memory' q order') := by
  intro r
  by_cases hr : r = q
  · subst r
    rw [Function.update_self, Function.update_self]
    exact horder
  · rw [Function.update_of_ne hr, Function.update_of_ne hr]
    exact h r

/-- A write that neither reads nor writes the number. -/
theorem AlikeOrder.write {p : Prop} (h : AlikeOrder f bound p order order') {u : Order → Order}
    (hu : ∀ order n, u { order with sequenceNumber := n } = { u order with sequenceNumber := n }) :
    AlikeOrder f bound p (u order) (u order') := by
  have hkeeps : ∀ order : Order, (u order).sequenceNumber = order.sequenceNumber := by
    intro order
    have hsame : u order = { u order with sequenceNumber := order.sequenceNumber } :=
      hu order order.sequenceNumber
    rw [hsame]
  refine ⟨?_, ?_, ?_⟩
  · rw [hkeeps]
    conv_lhs => rw [h.fields, hu]
  · rw [hkeeps, hkeeps]
    exact h.zero
  · rw [hkeeps, hkeeps]
    exact h.number

theorem Alike.mono (h : Alike f bound live memory memory') {live' : OrderPtr → Prop}
    (himp : ∀ q, live' q → live q) : Alike f bound live' memory memory' :=
  fun q => ⟨(h q).fields, (h q).zero, fun hq => (h q).number (himp q hq)⟩

/-- A correspondence that is extended to new numbers stays one. -/
theorem Alike.extend (h : Alike f bound live memory memory') {f' : ℕ → ℕ} {bound' : ℕ}
    (hagree : ∀ n ≤ bound, f' n = f n) (hle : bound ≤ bound') :
    Alike f' bound' live memory memory' := by
  intro q
  refine ⟨(h q).fields, (h q).zero, ?_⟩
  intro hq
  obtain ⟨hnumber, hbound⟩ := (h q).number hq
  exact ⟨by rw [hagree _ hbound, hnumber], hbound.trans hle⟩

end Memories

section Levels

variable {f : ℕ → ℕ} {bound : ℕ} {live : OrderPtr → Prop}

/-- What a level reads of the orders are not their numbers. -/
theorem respects_level_get {α : Type} {k : LevelState → LevelProc α}
    (hreads : ∀ level memory numbers, k ⟨level, renumber numbers memory⟩ = k ⟨level, memory⟩)
    (hk : ∀ s, Respects (AlikeLevel f bound live) (k s)) :
    Respects (AlikeLevel f bound live) (Proc.get >>= k) := by
  refine respects_get ?_ hk
  intro s t h
  obtain ⟨numbers, hmemory⟩ := h.2.exists_renumber
  have ht : t = ⟨s.level, renumber numbers s.memory⟩ := LevelState.ext h.1 hmemory
  rw [ht]
  exact hreads s.level s.memory numbers

theorem respects_updateOrder (q : OrderPtr) {u : Order → Order}
    (hu : ∀ order n, u { order with sequenceNumber := n } = { u order with sequenceNumber := n }) :
    Respects (AlikeLevel f bound live) (updateOrder q u) :=
  relates_modify fun _ _ h => ⟨h.1, h.2.update q ((h.2 q).write hu)⟩

theorem respects_updateLevel (u : PriceLevel → PriceLevel) :
    Respects (AlikeLevel f bound live) (updateLevel u) :=
  relates_modify fun _ _ h => ⟨congrArg u h.1, h.2⟩

theorem respects_addToLevel (l : LevelPtr) (p : OrderPtr) :
    Respects (AlikeLevel f bound live) (PriceLevels.addOrder l p) := by
  refine .guard (respects_level_get (fun _ _ _ => rfl) fun s => ?_)
  refine .guard (.guard (.guard (.guard ?_)))
  refine .bind (respects_updateOrder _ fun _ _ => rfl) fun _ =>
    .bind (respects_updateOrder _ fun _ _ => rfl) fun _ => ?_
  have htail : Respects (AlikeLevel f bound live) (do
      updateLevel fun level => { level with
        tailOrder := p
        count := level.count + 1
        totalQuantity := level.totalQuantity + (s.memory p).remainingQuantity }
      setPriceLevel p (some l)) :=
    .bind (respects_updateLevel _) fun _ => respects_updateOrder _ fun _ _ => rfl
  exact .ite (.bind (respects_updateOrder _ fun _ _ => rfl) fun _ => htail)
    (.bind (respects_updateLevel _) fun _ => htail)

theorem respects_removeFromLevel (l : LevelPtr) (p : OrderPtr) :
    Respects (AlikeLevel f bound live) (PriceLevels.removeOrder l p) := by
  refine respects_level_get (fun _ _ _ => rfl) fun s => .guard ?_
  have hlast : Respects (AlikeLevel f bound live) (do
      updateLevel fun level => { level with
        totalQuantity := level.totalQuantity - (s.memory p).remainingQuantity
        count := level.count - 1 }
      setPreviousOrder p nullptr
      setNextOrder p nullptr
      setPriceLevel p none) :=
    .bind (respects_updateLevel _) fun _ => .bind (respects_updateOrder _ fun _ _ => rfl) fun _ =>
      .bind (respects_updateOrder _ fun _ _ => rfl) fun _ => respects_updateOrder _ fun _ _ => rfl
  have hnext : Respects (AlikeLevel f bound live) (do
      if (s.memory p).nextOrder ≠ nullptr then
        setPreviousOrder (s.memory p).nextOrder (s.memory p).previousOrder
      else
        updateLevel fun level => { level with tailOrder := (s.memory p).previousOrder }
      updateLevel fun level => { level with
        totalQuantity := level.totalQuantity - (s.memory p).remainingQuantity
        count := level.count - 1 }
      setPreviousOrder p nullptr
      setNextOrder p nullptr
      setPriceLevel p none) :=
    .ite (.bind (respects_updateOrder _ fun _ _ => rfl) fun _ => hlast)
      (.bind (respects_updateLevel _) fun _ => hlast)
  exact .ite (.bind (respects_updateOrder _ fun _ _ => rfl) fun _ => hnext)
    (.bind (respects_updateLevel _) fun _ => hnext)

theorem respects_reduceTotalQuantity (quantity : Quantity) :
    Respects (AlikeLevel f bound live) (reduceTotalQuantity quantity) :=
  respects_level_get (fun _ _ _ => rfl) fun _ => .guard (respects_updateLevel _)

end Levels

section Pools

variable {f : ℕ → ℕ} {bound : ℕ} {host : Host}

theorem live_updatePage {pool : OrderPool} {k : ℕ} {g : Page → Page}
    (hstorage : ∀ page, (g page).storage = page.storage)
    (hoccupied : ∀ page, (g page).occupied = page.occupied) {q : OrderPtr}
    (hlive : Live (OrderPool.updatePage k g pool) q) : Live pool q := by
  obtain ⟨j, hj, i, hi, hocc, rfl⟩ := hlive
  rw [OrderPool.updatePage, Array.size_modify] at hj
  rw [updatePage_keeps Page.occupied (hoccupied _)] at hocc
  refine ⟨j, hj, i, hi, hocc, ?_⟩
  rw [Page.slot, Page.slot, updatePage_keeps Page.storage (hstorage _)]

theorem respects_pool_get {α : Type} {k : PoolState → PoolProc α}
    (hreads : ∀ pool memory memory', k ⟨pool, memory'⟩ = k ⟨pool, memory⟩)
    (hk : ∀ s, Respects (AlikePool f bound) (k s)) :
    Respects (AlikePool f bound) (Proc.get >>= k) := by
  refine respects_get ?_ hk
  intro s t h
  have ht : t = ⟨s.pool, t.memory⟩ := by rw [← h.1]
  rw [ht]
  exact hreads s.pool s.memory t.memory

theorem respects_updatePool {u : OrderPool → OrderPool}
    (hu : ∀ pool q, Live (u pool) q → Live pool q) :
    Respects (AlikePool f bound) (updatePool u) :=
  relates_modify fun s _ h => ⟨congrArg u h.1, h.2.mono (hu s.pool)⟩

theorem respects_updatePage (k : ℕ) {g : Page → Page}
    (hstorage : ∀ page, (g page).storage = page.storage)
    (hoccupied : ∀ page, (g page).occupied = page.occupied) :
    Respects (AlikePool f bound) (updatePool (OrderPool.updatePage k g)) :=
  respects_updatePool fun _ _ => live_updatePage hstorage hoccupied

theorem respects_addToFreePageList (page : ℕ) :
    Respects (AlikePool f bound) (addToFreePageList page) := by
  refine respects_pool_get (fun _ _ _ => rfl) fun s => ?_
  have hlast : Respects (AlikePool f bound) (do
      updatePool fun pool => { pool with firstPageWithFreeSlot := some page }
      updatePool (OrderPool.updatePage page fun p => { p with onFreePageList := true })) :=
    .bind (respects_updatePool fun _ _ hlive => hlive) fun _ =>
      respects_updatePage _ (fun _ => rfl) fun _ => rfl
  refine .ite (relates_pure _) ?_
  refine .bind (respects_updatePage _ (fun _ => rfl) fun _ => rfl) fun _ => ?_
  cases s.pool.firstPageWithFreeSlot with
  | some first => exact .bind (respects_updatePage _ (fun _ => rfl) fun _ => rfl) fun _ => hlast
  | none => exact hlast

theorem respects_removeFromFreePageList (page : ℕ) :
    Respects (AlikePool f bound) (removeFromFreePageList page) := by
  refine respects_pool_get (fun _ _ _ => rfl) fun s => .ite (relates_pure _) ?_
  have hfirst : ∀ next, Respects (AlikePool f bound)
      (updatePool fun pool => { pool with firstPageWithFreeSlot := next }) :=
    fun _ => respects_updatePool fun _ _ hlive => hlive
  dsimp only
  generalize (s.pool.page page).previousFreePage = previousFreePage
  generalize (s.pool.page page).nextFreePage = nextFreePage
  cases previousFreePage with
  | some previous =>
    refine .bind (respects_updatePage _ (fun _ => rfl) fun _ => rfl) fun _ => ?_
    cases nextFreePage with
    | some next =>
      exact .bind (respects_updatePage _ (fun _ => rfl) fun _ => rfl) fun _ =>
        respects_updatePage _ (fun _ => rfl) fun _ => rfl
    | none => exact respects_updatePage _ (fun _ => rfl) fun _ => rfl
  | none =>
    refine .bind (hfirst _) fun _ => ?_
    cases nextFreePage with
    | some next =>
      exact .bind (respects_updatePage _ (fun _ => rfl) fun _ => rfl) fun _ =>
        respects_updatePage _ (fun _ => rfl) fun _ => rfl
    | none => exact respects_updatePage _ (fun _ => rfl) fun _ => rfl

/-- A new page has no occupied slot. -/
theorem live_push {pool : OrderPool} {mapping : Mapping} {q : OrderPtr}
    (hlive : Live { pool with pages := pool.pages.push (Page.make mapping) } q) :
    Live pool q := by
  obtain ⟨j, hj, i, hi, hocc, rfl⟩ := hlive
  rw [Array.size_push] at hj
  have hpage : ∀ j < pool.pages.size,
      OrderPool.page { pool with pages := pool.pages.push (Page.make mapping) } j =
        pool.page j := by
    intro j hj
    simp [OrderPool.page, Array.getElem?_push, Nat.ne_of_lt hj]
  by_cases hlast : j < pool.pages.size
  · rw [hpage j hlast] at hocc ⊢
    exact ⟨j, hlast, i, hi, hocc, rfl⟩
  · obtain rfl : j = pool.pages.size := by omega
    simp [OrderPool.page, Page.make] at hocc

theorem live_pop {pool : OrderPool} {q : OrderPtr}
    (hlive : Live { pool with pages := pool.pages.pop } q) : Live pool q := by
  obtain ⟨j, hj, i, hi, hocc, rfl⟩ := hlive
  rw [Array.size_pop] at hj
  have hpage : OrderPool.page { pool with pages := pool.pages.pop } j = pool.page j := by
    have hlt : j < pool.pages.size := by omega
    simp [OrderPool.page, hj, hlt]
  rw [hpage] at hocc ⊢
  exact ⟨j, by omega, i, hi, hocc, rfl⟩

theorem respects_createPage : Respects (AlikePool f bound) (createPage host) := by
  refine respects_pool_get (fun _ _ _ => rfl) fun s => .check_bind fun page hpage => ?_
  obtain ⟨mapping, rfl, -⟩ := newPage_ok hpage
  refine .bind (respects_updatePool fun _ _ => live_push) fun _ => .ite ?_ ?_
  · exact .bind (respects_updatePool fun _ _ => live_pop) fun _ => fun _ _ h => ⟨rfl, h⟩
  · exact .bind (respects_updatePool fun _ _ hlive => hlive) fun _ =>
      .bind (respects_addToFreePageList _) fun _ => relates_pure _

/-- Writing slot `i` of a page makes no other slot live. -/
theorem live_updateSlot {pool : OrderPool} {k i : ℕ} {g : Page → Page}
    (hstorage : ∀ page, (g page).storage = page.storage)
    (hoccupied : ∀ page i', i' ≠ i → (g page).occupied i' = page.occupied i') {q : OrderPtr}
    (hlive : Live (OrderPool.updatePage k g pool) q) :
    Live pool q ∨ q = (pool.page k).slot i ∧ (g (pool.page k)).occupied i = true := by
  obtain ⟨j, hj, i', hi', hocc, rfl⟩ := hlive
  have hslot : ((OrderPool.updatePage k g pool).page j).slot i' = (pool.page j).slot i' := by
    rw [Page.slot, Page.slot, updatePage_keeps Page.storage (hstorage _)]
  rw [OrderPool.updatePage, Array.size_modify] at hj
  rw [hslot]
  by_cases hjk : j = k
  · subst j
    rw [page_updatePage_self hj] at hocc
    by_cases hi : i' = i
    · subst i'
      exact Or.inr ⟨rfl, hocc⟩
    · rw [hoccupied _ _ hi] at hocc
      exact Or.inl ⟨k, hj, i', hi', hocc, rfl⟩
  · rw [page_updatePage_ne hjk] at hocc
    exact Or.inl ⟨j, hj, i', hi', hocc, rfl⟩

theorem live_takeSlot {pool : OrderPool} {k i : ℕ} {q : OrderPtr}
    (hlive : Live (OrderPool.updatePage k (Page.takeSlot i) pool) q) :
    Live pool q ∨ q = (pool.page k).slot i :=
  (live_updateSlot (g := Page.takeSlot i) (fun _ => rfl)
    (fun _ _ hi => Function.update_of_ne hi _ _) hlive).imp_right And.left

theorem live_giveSlot {pool : OrderPool} {k i : ℕ} {q : OrderPtr}
    (hlive : Live (OrderPool.updatePage k (Page.giveSlot i) pool) q) : Live pool q := by
  rcases live_updateSlot (g := Page.giveSlot i) (fun _ => rfl)
      (fun _ _ hi => Function.update_of_ne hi _ _) hlive with hlive | ⟨_, hocc⟩
  · exact hlive
  · simp [Page.giveSlot] at hocc

theorem respects_release (p : OrderPtr) : Respects (AlikePool f bound) (release p) := by
  refine .guard (respects_pool_get (fun _ _ _ => rfl) fun s => .check_bind fun page _ => ?_)
  refine .guard (.guard (.bind (respects_updatePool fun _ _ => live_giveSlot) fun _ => ?_))
  have hlast : Respects (AlikePool f bound) (do
      updatePool (OrderPool.updatePage page fun p => { p with freeCount := p.freeCount + 1 })
      updatePool fun pool => { pool with liveOrderCount := pool.liveOrderCount - 1 }) :=
    .bind (respects_updatePage _ (fun _ => rfl) fun _ => rfl) fun _ =>
      respects_updatePool fun _ _ hlive => hlive
  refine respects_pool_get (fun _ _ _ => rfl) fun s => .ite ?_ hlast
  exact .bind (respects_addToFreePageList _) fun _ => hlast

section Allocation

variable (orderId : OrderId) (price : Price) (originalQuantity remainingQuantity : Quantity)
  (timestamp : Timestamp) (orderSide : OrderSide) (orderType : Orders.OrderType)
  {n n' : SequenceNumber}

/-- The one procedure that gives an order its number. -/
theorem relates_allocateIn (hzero : n' = 0 ↔ n = 0) (hnumber : n'.toNat = f n.toNat)
    (hbound : n.toNat ≤ bound) (page : ℕ) :
    Relates (AlikePool f bound)
      (allocateIn orderId price originalQuantity remainingQuantity timestamp orderSide orderType n
        page)
      (allocateIn orderId price originalQuantity remainingQuantity timestamp orderSide orderType n'
        page) := by
  intro s t h
  obtain ⟨hpool, hmemory⟩ := h
  obtain ⟨_, memory⟩ := s
  obtain ⟨pool, memory'⟩ := t
  dsimp only at hpool hmemory
  subst hpool
  have hlast : ∀ order : OrderPtr, Respects (AlikePool f bound) (do
      updatePool fun pool => { pool with liveOrderCount := pool.liveOrderCount + 1 }
      return order : PoolProc OrderPtr) :=
    fun _ => .bind (respects_updatePool fun _ _ hlive => hlive) fun _ => relates_pure _
  simp only [allocateIn, updatePool, Proc.get_bind_apply, Proc.modify_bind_apply]
  generalize (pool.page page).firstFree.toNat = i
  have hstart : AlikePool f bound
      ⟨OrderPool.updatePage page (Page.takeSlot i) pool,
        Function.update memory ((pool.page page).slot i) {
          orderId, price, originalQuantity, remainingQuantity, timestamp, orderSide, orderType
          sequenceNumber := n }⟩
      ⟨OrderPool.updatePage page (Page.takeSlot i) pool,
        Function.update memory' ((pool.page page).slot i) {
          orderId, price, originalQuantity, remainingQuantity, timestamp, orderSide, orderType
          sequenceNumber := n' }⟩ := by
    refine ⟨rfl, ?_⟩
    intro q
    dsimp only
    by_cases hq : q = (pool.page page).slot i
    · subst q
      rw [Function.update_self, Function.update_self]
      exact ⟨rfl, hzero, fun _ => ⟨hnumber, hbound⟩⟩
    · rw [Function.update_of_ne hq, Function.update_of_ne hq]
      have horder := hmemory q
      refine ⟨horder.fields, horder.zero, fun hlive => horder.number ?_⟩
      exact (live_takeSlot hlive).resolve_right hq
  have hrest : Respects (AlikePool f bound) (do
      if ((OrderPool.updatePage page (Page.takeSlot i) pool).page page).freeCount = 0 then
        removeFromFreePageList page
      updatePool fun pool => { pool with liveOrderCount := pool.liveOrderCount + 1 }
      return (pool.page page).slot i : PoolProc OrderPtr) :=
    .ite (.bind (respects_removeFromFreePageList _) fun _ => hlast _) (hlast _)
  exact hrest _ _ hstart

theorem relates_allocate (hzero : n' = 0 ↔ n = 0) (hnumber : n'.toNat = f n.toNat)
    (hbound : n.toNat ≤ bound) :
    Relates (AlikePool f bound)
      (allocate host orderId price originalQuantity remainingQuantity timestamp orderSide orderType
        n)
      (allocate host orderId price originalQuantity remainingQuantity timestamp orderSide orderType
        n') := by
  have hin := relates_allocateIn orderId price originalQuantity remainingQuantity timestamp
    orderSide orderType hzero hnumber hbound
  intro s t h
  simp only [allocate, Proc.get_bind_apply, h.1]
  cases s.pool.firstPageWithFreeSlot with
  | some page => exact hin page s t h
  | none => exact Relates.bind respects_createPage hin s t h

end Allocation

end Pools

section Books

variable {f : ℕ → ℕ} {bound : ℕ} {α : Type} {hash : OrderId → UInt64} {host : Host}

theorem AlikeBook.eq_renumber {book book' : OrderBook} (h : AlikeBook f bound book book') :
    ∃ numbers, book' = { book with memory := renumber numbers book.memory } := by
  obtain ⟨numbers, hmemory⟩ := h.2.exists_renumber
  exact ⟨numbers, by rw [h.1, hmemory]⟩

theorem respects_book_get {k : OrderBook → BookProc α}
    (hreads : ∀ book numbers, k { book with memory := renumber numbers book.memory } = k book)
    (hk : ∀ book, Respects (AlikeBook f bound) (k book)) :
    Respects (AlikeBook f bound) (Proc.get >>= k) := by
  refine respects_get ?_ hk
  intro book book' h
  obtain ⟨numbers, hbook⟩ := h.eq_renumber
  rw [hbook]
  exact hreads book numbers

theorem relates_onPool {x y : PoolProc α} (h : Relates (AlikePool f bound) x y) :
    Relates (AlikeBook f bound) (onPool x) (onPool y) := by
  refine .zoom fun book book' hbook => ⟨AlikePool f bound, ?_, h, ?_⟩
  · exact ⟨by rw [hbook.1], hbook.2⟩
  · intro s t hst
    refine ⟨?_, hst.2⟩
    rw [hbook.1, hst.1]

theorem respects_onIndex (x : Proc StdException OrderIndexing.OrderIndex α) :
    Respects (AlikeBook f bound) (onIndex x) := by
  refine .zoom fun book book' hbook => ⟨Eq, by rw [hbook.1], relates_eq x, ?_⟩
  rintro index _ rfl
  exact ⟨by rw [hbook.1], hbook.2⟩

theorem AlikeBook.setLadder {book book' : OrderBook} (h : AlikeBook f bound book book') (d : Bool)
    (ladder : PriceLadder) :
    AlikeBook f bound (book.setLadder d ladder) (book'.setLadder d ladder) := by
  obtain ⟨heq, hmemory⟩ := h
  rw [heq]
  cases d with
  | true => exact ⟨rfl, hmemory⟩
  | false => exact ⟨rfl, hmemory⟩

theorem AlikeBook.ladder_eq {book book' : OrderBook} (h : AlikeBook f bound book book') (d : Bool) :
    book'.ladder d = book.ladder d := by
  rw [h.1]
  rfl

theorem respects_onLadder (d : Bool) (x : LadderProc α) :
    Respects (AlikeBook f bound) (onLadder d x) := by
  refine .zoom fun book book' hbook => ⟨Eq, (hbook.ladder_eq d).symm, relates_eq x, ?_⟩
  rintro ladder _ rfl
  exact hbook.setLadder d ladder

theorem respects_onLevel (l : LevelPtr) {x : LevelProc α}
    (hx : ∀ live, Respects (AlikeLevel f bound live) x) :
    Respects (AlikeBook f bound) (onLevel l x) := by
  refine .zoom fun book book' hbook => ⟨AlikeLevel f bound (Live book.orderPool), ?_, hx _, ?_⟩
  · exact ⟨congrArg (PriceLadder.level · l.index) (hbook.ladder_eq l.descending), hbook.2⟩
  · intro s t hst
    have hset := hbook.setLadder l.descending
      ((book.ladder l.descending).setLevel l.index s.level)
    have hpool : (book.setLevel l s.level).orderPool = book.orderPool :=
      (SyncedBooks.setLadder_frame _ _ _).2.1
    refine ⟨?_, ?_⟩
    · rw [hst.1, OrderBook.setLevel, hbook.ladder_eq, hset.1]
      rfl
    · dsimp only
      rw [hpool]
      exact hst.2

theorem respects_onOrder (q : OrderPtr) {x : Proc StdException Order α}
    (hx : ∀ live : Prop, Respects (AlikeOrder f bound live) x) :
    Respects (AlikeBook f bound) (onOrder q x) := by
  refine .zoom fun book book' hbook =>
    ⟨AlikeOrder f bound (Live book.orderPool q), hbook.2 q, hx _, ?_⟩
  intro order order' horder
  exact ⟨by rw [hbook.1], hbook.2.update q horder⟩

theorem respects_deref {σ : Type} {R : σ → σ → Prop} (pointer : Option α) :
    Respects R (deref pointer : Proc StdException σ α) := by
  cases pointer with
  | some a => exact relates_pure a
  | none => exact relates_diverge

theorem respects_writeOrder {live : Prop} {u : Order → Order}
    (hu : ∀ order n, u { order with sequenceNumber := n } = { u order with sequenceNumber := n }) :
    Respects (AlikeOrder f bound live) (Proc.modify u : Proc StdException Order Unit) :=
  relates_modify fun _ _ h => h.write hu

theorem respects_reduceRemaining {live : Prop} (quantity : Quantity) :
    Respects (AlikeOrder f bound live) (Order.reduceRemainingQuantity quantity) := by
  refine respects_get ?_ fun _ => .guard (respects_writeOrder fun _ _ => rfl)
  intro order order' h
  rw [h.fields]

theorem respects_setRemaining {live : Prop} (quantity : Quantity) :
    Respects (AlikeOrder f bound live) (Order.setRemainingQuantity quantity) := by
  refine respects_get ?_ fun _ => .guard (.guard (respects_writeOrder fun _ _ => rfl))
  intro order order' h
  rw [h.fields]

theorem respects_removeOrder (p : OrderPtr) :
    Respects (AlikeBook f bound) (OrderBooks.removeOrder hash p) := by
  refine .guard (respects_book_get (fun _ _ => rfl) fun book => ?_)
  refine .bind (respects_onIndex _) fun _ => ?_
  refine .guard (.check_bind fun l _ => .bind (respects_onLevel _ fun _ =>
    respects_removeFromLevel _ _) fun _ => respects_book_get (fun _ _ => rfl) fun _ => ?_)
  have hlast : ∀ id, Respects (AlikeBook f bound) (do
      onIndex (OrderIndexing.removeOrder hash p id)
      onPool (release p) : BookProc Unit) :=
    fun _ => .bind (respects_onIndex _) fun _ => relates_onPool (respects_release _)
  exact .ite (.bind (respects_onLadder _ _) fun _ => hlast _) (hlast _)

theorem respects_cancelOrder (id : OrderId) :
    Respects (AlikeBook f bound) (OrderBooks.cancelOrder hash id) :=
  .bind (respects_onIndex _) fun _ => .ite (relates_pure _)
    (.bind (respects_removeOrder _) fun _ => relates_pure _)

theorem respects_reduceOrder (id : OrderId) (quantity : Quantity) :
    Respects (AlikeBook f bound) (OrderBooks.reduceOrder hash id quantity) := by
  refine .bind (respects_onIndex _) fun p => .ite (relates_pure _) ?_
  refine respects_book_get (fun _ _ => rfl) fun book => .guard (.ite (relates_pure _) ?_)
  exact .bind (respects_onOrder _ fun _ => respects_setRemaining _) fun _ =>
    .bind (respects_deref _) fun _ =>
      .bind (respects_onLevel _ fun _ => respects_reduceTotalQuantity _) fun _ => relates_pure _

end Books

section Insertions

variable {f : ℕ → ℕ} {bound : ℕ} {α : Type} {hash : OrderId → UInt64} {host : Host}

theorem AlikeInsertion.eq_renumber {s t : Insertion} (h : AlikeInsertion f bound s t) :
    ∃ numbers, t = { s with
      book := { s.book with memory := renumber numbers s.book.memory } } := by
  obtain ⟨numbers, hbook⟩ := h.2.eq_renumber
  exact ⟨numbers, by rw [h.1, hbook]⟩

theorem respects_insertion_get {k : Insertion → InsertionProc α}
    (hreads : ∀ s numbers, k { s with
      book := { s.book with memory := renumber numbers s.book.memory } } = k s)
    (hk : ∀ s, Respects (AlikeInsertion f bound) (k s)) :
    Respects (AlikeInsertion f bound) (Proc.get >>= k) := by
  refine respects_get ?_ hk
  intro s t h
  obtain ⟨numbers, ht⟩ := h.eq_renumber
  rw [ht]
  exact hreads s numbers

theorem respects_insertion_onBook {x : BookProc α} (h : Respects (AlikeBook f bound) x) :
    Respects (AlikeInsertion f bound) (OrderBooks.onBook x) := by
  refine .zoom fun s t hst => ⟨AlikeBook f bound, hst.2, h, ?_⟩
  intro book book' hbook
  exact ⟨by rw [hst.1], hbook⟩

/-- A write of the local variables. -/
theorem respects_locals {u : Insertion → Insertion}
    (hu : ∀ s book, u { s with book := book } = { u s with book := book }) :
    Respects (AlikeInsertion f bound) (Proc.modify u : InsertionProc Unit) := by
  refine relates_modify fun s t h => ?_
  have hkeeps : ∀ s : Insertion, (u s).book = s.book := by
    intro s
    have hsame : u s = { u s with book := s.book } := hu s s.book
    rw [hsame]
  refine ⟨?_, ?_⟩
  · rw [hkeeps, h.1, hu]
  · rw [hkeeps, hkeeps]
    exact h.2

/-- The number of the order is tested here, and only for zero. -/
theorem respects_attempt (p : OrderPtr) :
    Respects (AlikeInsertion f bound) (attempt hash host p) := by
  have hindex : ∀ id, Respects (AlikeInsertion f bound)
      (OrderBooks.onBook (onIndex (OrderIndexing.addOrder hash host.slots p id))) :=
    fun _ => respects_insertion_onBook (respects_onIndex _)
  refine respects_get ?_ fun s => .guard (.bind (respects_locals fun _ _ => rfl) fun _ =>
    .check_bind fun l _ => .bind (respects_locals fun _ _ => rfl) fun _ =>
    .bind (respects_insertion_onBook (respects_onLevel _ fun _ => respects_addToLevel _ _)) fun _ =>
    .bind (respects_locals fun _ _ => rfl) fun _ => .ite (.bind (respects_insertion_onBook
      (respects_onLadder _ _)) fun _ => hindex _) (hindex _))
  intro s t h
  have hvalid : (t.book.memory p).isValid = (s.book.memory p).isValid := (h.2.2 p).isValid_eq
  obtain ⟨numbers, ht⟩ := h.eq_renumber
  dsimp only
  rw [hvalid, ht]
  rfl

theorem respects_rollback (p : OrderPtr) (e : StdException) :
    Respects (AlikeInsertion f bound) (rollback p e) := by
  have hlast : Respects (AlikeInsertion f bound) (do
      OrderBooks.onBook (onPool (release p))
      throw e : InsertionProc Unit) :=
    .bind (respects_insertion_onBook (relates_onPool (respects_release _))) fun _ =>
      relates_throw _
  refine respects_insertion_get (fun _ _ => rfl) fun s => .ite (.bind (respects_deref _) fun l =>
    .bind (respects_insertion_onBook (respects_onLevel _ fun _ => respects_removeFromLevel _ _))
      fun _ => ?_) hlast
  exact respects_insertion_get (fun _ _ => rfl) fun _ => .ite
    (.bind (respects_insertion_onBook (respects_onLadder _ _)) fun _ => hlast) hlast

variable (hash host) (orderId : OrderId) (price : Price)
  (originalQuantity remainingQuantity : Quantity) (timestamp : Timestamp) (orderSide : OrderSide)
  (orderType : Orders.OrderType) {n n' : SequenceNumber}

theorem relates_addOrderWithQuantities (hzero : n' = 0 ↔ n = 0) (hnumber : n'.toNat = f n.toNat)
    (hbound : n.toNat ≤ bound) :
    Relates (AlikeBook f bound)
      (addOrderWithQuantities hash host orderId price originalQuantity remainingQuantity timestamp
        orderSide orderType n)
      (addOrderWithQuantities hash host orderId price originalQuantity remainingQuantity timestamp
        orderSide orderType n') := by
  refine .guard (.guard (.bind (relates_onPool (relates_allocate _ _ _ _ _ _ _ hzero hnumber
    hbound)) fun p => .bind (.zoom fun book book' hbook => ⟨AlikeInsertion f bound, ⟨rfl, hbook⟩,
      .handle (respects_attempt p) fun e => respects_rollback p e, fun _ _ h => h.2⟩)
    fun _ => relates_pure _))

end Insertions

section Matching

variable {f : ℕ → ℕ} {bound : ℕ} {a b : UInt64} {α : Type} {hash : OrderId → UInt64} {host : Host}

/-- The matching reads the book and the buffer. -/
theorem respects_engine_get {k : EngineState → EngineProc α}
    (hreads : ∀ s numbers counter, k ⟨counter,
      { s.orderBook with memory := renumber numbers s.orderBook.memory }, s.out⟩ = k s)
    (hk : ∀ s, Respects (AlikeEngine f bound a b) (k s)) :
    Respects (AlikeEngine f bound a b) (Proc.get >>= k) := by
  refine respects_get ?_ hk
  intro s t h
  obtain ⟨_, _, hout, hbook⟩ := h
  obtain ⟨numbers, hbook⟩ := hbook.eq_renumber
  have ht : t = ⟨t.currentSequence,
      { s.orderBook with memory := renumber numbers s.orderBook.memory }, s.out⟩ := by
    rw [← hbook, ← hout]
  rw [ht]
  exact hreads s numbers _

theorem relates_onBook {x y : BookProc α} (h : Relates (AlikeBook f bound) x y) :
    Relates (AlikeEngine f bound a b) (MatchingEngines.onBook x) (MatchingEngines.onBook y) := by
  refine .zoom fun s t hst => ⟨AlikeBook f bound, hst.2.2.2, h, ?_⟩
  intro book book' hbook
  exact ⟨hst.1, hst.2.1, hst.2.2.1, hbook⟩

theorem respects_out {u : List Execution → List Execution} :
    Respects (AlikeEngine f bound a b)
      (Proc.modify fun s => { s with out := u s.out } : EngineProc Unit) :=
  relates_modify fun _ _ h => ⟨h.1, h.2.1, congrArg u h.2.2.1, h.2.2.2⟩

theorem respects_emplaceBack (execution : Execution) :
    Respects (AlikeEngine f bound a b) (emplaceBack host execution) :=
  respects_engine_get (fun _ _ _ => rfl) fun _ =>
    .guard (respects_out (u := (· ++ [execution])))

theorem respects_matchRound (order : NewOrder) (remaining : UInt64) :
    Respects (AlikeEngine f bound a b) (matchRound hash host order remaining) := by
  refine .ite (relates_pure _) (respects_engine_get (fun _ _ _ => rfl) fun s => ?_)
  dsimp only
  split
  · exact relates_pure _
  · refine .ite (relates_pure _) (.guard ?_)
    refine .bind (respects_emplaceBack _) fun _ => ?_
    refine .bind (relates_onBook (respects_onOrder _ fun _ => respects_reduceRemaining _)) fun _ =>
      respects_engine_get (fun _ _ _ => rfl) fun _ => ?_
    exact .ite (.bind (relates_onBook (respects_removeOrder _)) fun _ => relates_pure _)
      (.bind (relates_onBook (respects_onLevel _ fun _ => respects_reduceTotalQuantity _)) fun _ =>
        relates_pure _)

theorem respects_matchLoop (order : NewOrder) (fuel : ℕ) (remaining : UInt64) :
    Respects (AlikeEngine f bound a b) (matchLoop hash host order fuel remaining) := by
  induction fuel generalizing remaining with
  | zero => exact relates_diverge
  | succ fuel ih =>
    refine .bind (respects_matchRound _ _) fun left => ?_
    cases left with
    | none => exact relates_pure _
    | some left => exact ih left

/-- What follows once the order has its number. -/
def matchNumbered (hash : OrderId → UInt64) (host : Host) (order : NewOrder)
    (sequenceNumber : SequenceNumber) : EngineProc Unit := do
  let s ← Proc.get
  let remaining ← matchLoop hash host order (s.orderBook.orderPool.liveOrderCount.toNat + 1)
    order.quantity
  if remaining > 0 ∧ order.orderType = .limit then
    let _ ← MatchingEngines.onBook (addRestingRemainder hash host order.orderId order.price
      order.quantity remaining order.timestamp order.orderSide .limit sequenceNumber)
    return ()
  return ()

theorem relates_matchNumbered (order : NewOrder) {n n' : SequenceNumber} (hzero : n' = 0 ↔ n = 0)
    (hnumber : n'.toNat = f n.toNat) (hbound : n.toNat ≤ bound) :
    Relates (AlikeEngine f bound a b) (matchNumbered hash host order n)
      (matchNumbered hash host order n') := by
  have hrest : ∀ fuel, Relates (AlikeEngine f bound a b)
      (do
        let remaining ← matchLoop hash host order fuel order.quantity
        if remaining > 0 ∧ order.orderType = .limit then
          let _ ← MatchingEngines.onBook (addRestingRemainder hash host order.orderId order.price
            order.quantity remaining order.timestamp order.orderSide .limit n)
          return ()
        return () : EngineProc Unit)
      (do
        let remaining ← matchLoop hash host order fuel order.quantity
        if remaining > 0 ∧ order.orderType = .limit then
          let _ ← MatchingEngines.onBook (addRestingRemainder hash host order.orderId order.price
            order.quantity remaining order.timestamp order.orderSide .limit n')
          return ()
        return () : EngineProc Unit) :=
    fun _ => .bind (respects_matchLoop _ _ _) fun remaining => .ite (.bind (relates_onBook
      (relates_addOrderWithQuantities _ _ _ _ _ _ _ _ _ hzero hnumber hbound)) fun _ =>
        relates_pure _) (relates_pure _)
  intro s t h
  simp only [matchNumbered, Proc.get_bind_apply]
  have hpool : t.orderBook.orderPool = s.orderBook.orderPool := by rw [h.2.2.2.1]
  rw [hpool]
  exact hrest _ s t h

end Matching

end Leka.Renumberings
