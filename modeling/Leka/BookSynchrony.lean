import Leka.BookRuns

/-!
The synchrony of the book's structures, in their own terms: the slots of the pool, the
pointers in the index and the orders linked in the levels are the same, each order is where
its side and price put it, and the links, counts, bits and cached best indices agree. It
holds in every state that any calls can reach.
-/

namespace Leka.BookSynchrony

open Procedures Orders LinkedChain OrderIndexing IndexTables IndexAsMap OrderPools PoolAsSet
  PriceLevels PriceLadders WordBits OrderBooks MatchingEngines SyncedBooks RestingOrders BookRuns

/-- The pointer is stored in some slot of the index. -/
def Stored (index : OrderIndex) (order : OrderPtr) : Prop :=
  order ≠ nullptr ∧ ∃ i < index.slots.size, (index.slots.getD i {}).value = order

/-- The order is linked in some level. -/
def LinkedSomewhere (book : OrderBook) (order : OrderPtr) : Prop := ∃ l, order ∈ fifo book l

structure Synchronised (hash : OrderId → UInt64) (book : OrderBook) : Prop where
  live_iff : ∀ order, Live book.orderPool order ↔ LinkedSomewhere book order
  stored_iff : ∀ order, Stored book.orderIndex order ↔ LinkedSomewhere book order
  found_iff : ∀ l, ∀ order ∈ fifo book l, ∀ id,
    findOrder hash id book = (.returns order, book) ↔ id = (book.memory order).orderId
  once : ∀ l, (fifo book l).Nodup
  one_level : ∀ l m order, order ∈ fifo book l → order ∈ fifo book m → l = m
  side : ∀ l, ∀ order ∈ fifo book l,
    (book.memory order).orderSide = if l.descending then .buy else .sell
  price : ∀ l, ∀ order ∈ fifo book l, (book.memory order).price = (book.level l).price ∧
    (book.ladder l.descending).levelAt (book.memory order).price = .ok l
  priceLevel : ∀ l, ∀ order ∈ fifo book l, (book.memory order).priceLevel = some l
  forward : ∀ l, Walks (nextOf book.memory) nullptr (book.level l).headOrder (fifo book l)
  backward : ∀ l,
    Walks (previousOf book.memory) nullptr (book.level l).tailOrder (fifo book l).reverse
  length : ∀ l, (fifo book l).length = (book.level l).count.toNat
  bits : ∀ l : LevelPtr,
    bitAt (book.ladder l.descending).words l.index = true ↔ (book.level l).count ≠ 0
  occupied : ∀ d, (book.ladder d).occupied.toNat =
    ((Finset.range (book.ladder d).levelCount.toNat).filter fun i =>
      bitAt (book.ladder d).words i).card
  beyond : ∀ d i, (book.ladder d).levelCount.toNat ≤ i → bitAt (book.ladder d).words i = false
  bestIndex : ∀ d,
    ((book.ladder d).bestIndex = PriceLadders.npos ∧ ∀ i, bitAt (book.ladder d).words i = false) ∨
      LeastFrom (bitAt (book.ladder d).words) 0 (book.ladder d).bestIndex.toNat
  limit : ∀ l, ∀ order ∈ fifo book l, (book.memory order).orderType = .limit
  remaining : ∀ l, ∀ order ∈ fifo book l, 0 < (book.memory order).remainingQuantity ∧
    (book.memory order).remainingQuantity ≤ (book.memory order).originalQuantity

section Stored

variable {hash : OrderId → UInt64} {index : OrderIndex} {order : OrderPtr}

theorem stored_iff_maps : Stored index order ↔ ∃ id, Maps index id order := by
  constructor
  · intro h
    obtain ⟨hnull, i, hi, hvalue⟩ := h
    refine ⟨(index.slots.getD i {}).key, i, hi, ?_⟩
    rw [view, Slot.entry, hvalue, if_neg hnull]
  · intro h
    obtain ⟨id, i, hi, hview⟩ := h
    rw [view, Slot.entry] at hview
    by_cases hnull : (index.slots.getD i {}).value = nullptr
    · rw [if_pos hnull] at hview
      simp at hview
    rw [if_neg hnull, Option.some.injEq, Prod.mk.injEq] at hview
    exact ⟨by rw [← hview.2]; exact hnull, i, hi, hview.2⟩

end Stored

theorem sound_synchronised {hash : OrderId → UInt64} {book : OrderBook} (hs : Sound hash book) :
    Synchronised hash book where
  live_iff order := by
    rw [← hs.synced.pool.stored order]
    exact hs.synced.toLevelsOk.mem_restingOrders
  stored_iff order := by
    rw [stored_iff_maps]
    simp only [hs.synced.indexed, exists_and_left, exists_eq', and_true]
    exact Iff.rfl
  found_iff l order horder id := by
    constructor
    · intro hfound
      obtain ⟨found, hrun, hcase⟩ := hs.synced.findOrder_run id
      rw [hrun] at hfound
      simp only [Prod.mk.injEq, Outcome.returns.injEq, and_true] at hfound
      subst found
      rcases hcase with ⟨hnull, _⟩ | ⟨m, _, hid⟩
      · exact absurd hnull (hs.synced.ne_null horder)
      · exact hid.symm
    · intro hid
      subst id
      exact hs.synced.findOrder_self horder
  once l := (hs.synced.represents l).nodup
  one_level l m order hl hm := hs.synced.level_unique hl hm
  side l order horder := (hs.synced.rests l order horder).side
  price l order horder := by
    refine ⟨(hs.synced.represents l).price order horder, ?_⟩
    rw [PriceLadder.levelAt, hs.synced.indexOf_price horder]
    simp only [Except.map, PriceLadder.levelPtr, hs.synced.descending, hs.synced.ofNat_index horder]
  priceLevel l order horder := (hs.synced.represents l).owner order horder
  forward l := by
    rw [(hs.synced.represents l).head]
    exact (hs.synced.represents l).linked.walks (hs.synced.represents l).not_null
  backward l := by
    rw [(hs.synced.represents l).tail]
    exact (hs.synced.represents l).linked.walks_back (hs.synced.represents l).not_null
  length l := (hs.synced.represents l).count.symm
  bits l := by
    rw [hs.synced.bits l, decide_eq_true_eq, ne_eq, ne_eq, ← UInt64.toNat_inj,
      (hs.synced.represents l).count]
    exact not_congr List.length_eq_zero_iff.symm
  occupied d := (hs.synced.marked d).occupied
  beyond d := (hs.synced.marked d).high
  bestIndex d := (hs.synced.marked d).best
  limit l order horder := (hs.synced.rests l order horder).limit
  remaining l order horder := by
    have hvalid := (hs.synced.rests l order horder).valid
    simp only [Order.isValid, Bool.and_eq_true, decide_eq_true_eq] at hvalid
    refine ⟨?_, hvalid.1.1.1.1.1.2⟩
    rw [UInt64.lt_iff_toNat_lt]
    apply Nat.pos_of_ne_zero
    intro hzero
    exact hs.positive l order horder (UInt64.toNat_inj.mp hzero)

/-- The four structures are synchronised in every reachable state, after calls that throw as
after calls that return. -/
theorem reachable_synchronised {hash : OrderId → UInt64} {s : EngineState}
    (h : Reachable hash AnyCall s) : Synchronised hash s.orderBook :=
  sound_synchronised (reachable_sound h)

/-- The second insertion repeats an id and is rolled back. -/
theorem synchronised_after_rollback : ∃ s : EngineState,
    s.orderBook.asks.occupied = 1 ∧ Synchronised id s.orderBook := by
  obtain ⟨s, hs, hp⟩ := @exists_reachable id _ _ anyCall_of_removesNone 100 1 2
    [.addOrder grantingHost 1 100 10 5 .sell .limit 1,
      .addOrder grantingHost 1 101 10 5 .sell .limit 2]
    (fun s => s.orderBook.asks.occupied = 1) (by decide +kernel)
  exact ⟨s, of_decide_eq_true hp, reachable_synchronised hs⟩

end Leka.BookSynchrony
