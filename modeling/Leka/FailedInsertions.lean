import Leka.BookRuns

/-!
An insertion that throws leaves the book as it found it. The queues determine every other
part of a book but the free memory: the levels, the links of the orders, the bits with
their counter and the cached best index, what the index answers and which slots of the
pool are occupied. The queues come back from a rollback, and so does everything else.
-/

namespace Leka.FailedInsertions

open Procedures Orders LinkedChain IndexAsMap OrderPools PoolAsSet PriceLevels PriceLadders
  WordBits OrderBooks MatchingEngines SyncedBooks BookInsertions RestingOrders EventOutcomes
  BookRuns

section Chains

variable {P : Type*} {next prev next' prev' : P → P} {left right : P} {xs : List P}

/-- Two chains through the same nodes have the same links. -/
theorem links_unique (h : Linked next prev left xs right) (h' : Linked next' prev' left xs right) :
    ∀ x ∈ xs, next' x = next x ∧ prev' x = prev x := by
  induction xs generalizing left with
  | nil => simp
  | cons y ys ih =>
    obtain ⟨hprev, hnext, hrest⟩ := h
    obtain ⟨hprev', hnext', hrest'⟩ := h'
    intro x hx
    rcases List.mem_cons.mp hx with rfl | hx
    · exact ⟨hnext'.trans hnext.symm, hprev'.trans hprev.symm⟩
    · exact ih hrest hrest' x hx

end Chains

section Words

variable {ws ws' : Words}

theorem word_ext {v w : UInt64} (h : ∀ i, bit v i = bit w i) : v = w := by
  apply UInt64.toBitVec_inj.mp
  apply BitVec.eq_of_getLsbD_eq
  intro i _
  exact h i

/-- Words of one length with the same bits are the same words. -/
theorem words_ext (hsize : ws'.size = ws.size) (h : ∀ i, bitAt ws' i = bitAt ws i) :
    ws' = ws := by
  apply Array.ext hsize
  intro w hw hw'
  have hword : word ws' w = word ws w := by
    apply word_ext
    intro b
    by_cases hb : b < 64
    · rw [← bitAt_word hb, ← bitAt_word hb, h]
    · rw [bit_of_le (by omega), bit_of_le (by omega)]
  simpa [word, hw, hw'] using hword

end Words

section Ladders

variable {ladder ladder' : PriceLadder}

/-- The bits determine the cached best index. -/
theorem bestIndex_unique (hm : ladder.Marked) (hm' : ladder'.Marked)
    (hbits : ∀ i, bitAt ladder'.words i = bitAt ladder.words i) :
    ladder'.bestIndex = ladder.bestIndex := by
  have hwords : bitAt ladder'.words = bitAt ladder.words := funext hbits
  have hbest := hm.best
  have hbest' := hm'.best
  rw [hwords] at hbest'
  rcases hbest with ⟨hnone, hclear⟩ | hleast
  · rcases hbest' with ⟨hnone', _⟩ | hleast'
    · rw [hnone', hnone]
    · have hset := hleast'.set
      rw [hclear] at hset
      simp at hset
  · rcases hbest' with ⟨_, hclear'⟩ | hleast'
    · have hset := hleast.set
      rw [hclear'] at hset
      simp at hset
    · exact UInt64.toNat_inj.mp (hleast'.unique hleast)

/-- The grid and the bits of a ladder determine everything but its levels. -/
theorem ladder_of_bits (hconf : ladder.Configured) (hconf' : ladder'.Configured)
    (hm : ladder.Marked) (hm' : ladder'.Marked) (hgrid : PriceLadder.SameGrid ladder ladder')
    (hbits : ∀ i, bitAt ladder'.words i = bitAt ladder.words i) :
    ladder' = { ladder with levels := ladder'.levels } := by
  have hcount := hgrid.levelCount
  have hwords : ladder'.words = ladder.words :=
    words_ext (by rw [hconf'.words_size, hconf.words_size, hcount]) hbits
  have hoccupied : ladder'.occupied = ladder.occupied := by
    apply UInt64.toNat_inj.mp
    rw [hm'.occupied, hm.occupied, hcount, hwords]
  have hbest := bestIndex_unique hm hm' hbits
  obtain ⟨hmin, htick, hmax, _, hdescending⟩ := hgrid
  cases ladder
  cases ladder'
  simp_all

/-- A ladder is its grid, its levels and its bits. -/
theorem ladder_ext (hconf : ladder.Configured) (hconf' : ladder'.Configured)
    (hm : ladder.Marked) (hm' : ladder'.Marked) (hgrid : PriceLadder.SameGrid ladder ladder')
    (hbits : ∀ i, bitAt ladder'.words i = bitAt ladder.words i)
    (hlevels : ∀ i, ladder'.level i = ladder.level i) : ladder' = ladder := by
  have hlevels' : ladder'.levels = ladder.levels := by
    apply Array.ext
    · rw [hconf'.levels_size, hconf.levels_size, hgrid.levelCount]
    · intro i hi hi'
      have hlevel := hlevels i
      simpa [PriceLadder.level, hi, hi'] using hlevel
  rw [ladder_of_bits hconf hconf' hm hm' hgrid hbits, hlevels']

end Ladders

section Books

variable {hash : OrderId → UInt64} {book book' : OrderBook} {queues : Queues} {l : LevelPtr}

/-- What a failed insertion gives back. -/
structure Restored (hash : OrderId → UInt64) (book book' : OrderBook) : Prop where
  orders : ∀ p, Live book.orderPool p → book'.memory p = book.memory p
  ladders : ∀ d, book'.ladder d = book.ladder d
  found : ∀ id, (OrderIndexing.findOrder hash id book'.orderIndex).1 =
    (OrderIndexing.findOrder hash id book.orderIndex).1
  liveOrderCount : book'.orderPool.liveOrderCount = book.orderPool.liveOrderCount
  live : ∀ p, Live book'.orderPool p ↔ Live book.orderPool p

/-- The queue of a level determines the level but for its price and its total. -/
theorem level_unique (h : Represents l ⟨book.level l, book.memory⟩ (queues l))
    (h' : Represents l ⟨book'.level l, book'.memory⟩ (queues l))
    (hprice : (book'.level l).price = (book.level l).price)
    (htotal : (book'.level l).totalQuantity = (book.level l).totalQuantity) :
    book'.level l = book.level l := by
  have hhead : (book'.level l).headOrder = (book.level l).headOrder := h'.head.trans h.head.symm
  have htail : (book'.level l).tailOrder = (book.level l).tailOrder := h'.tail.trans h.tail.symm
  have hcount : (book'.level l).count = (book.level l).count := by
    apply UInt64.toNat_inj.mp
    exact h'.count.trans h.count.symm
  generalize book'.level l = a at *
  generalize book.level l = b at *
  cases a
  cases b
  simp_all

/-- The queue of a level determines the links of its orders. -/
theorem order_unique (h : Represents l ⟨book.level l, book.memory⟩ (queues l))
    (h' : Represents l ⟨book'.level l, book'.memory⟩ (queues l)) {p : OrderPtr}
    (hp : p ∈ queues l) (hsame : (book'.memory p).detached = (book.memory p).detached) :
    book'.memory p = book.memory p := by
  obtain ⟨hnext, hprevious⟩ := links_unique h.linked h'.linked p hp
  have howner : (book'.memory p).priceLevel = (book.memory p).priceLevel :=
    (h'.owner p hp).trans (h.owner p hp).symm
  change (book'.memory p).nextOrder = (book.memory p).nextOrder at hnext
  change (book'.memory p).previousOrder = (book.memory p).previousOrder at hprevious
  have hfields := SyncedBooks.detached_fields hsame
  generalize book'.memory p = a at *
  generalize book.memory p = b at *
  cases a
  cases b
  simp_all

/-- The price of a level slot is given by the grid. -/
theorem level_price_eq {queues' : Queues} (h : LevelsOk book queues) (h' : LevelsOk book' queues')
    (hgrid : ∀ d, PriceLadder.SameGrid (book.ladder d) (book'.ladder d)) (l : LevelPtr) :
    (book'.level l).price = (book.level l).price := by
  by_cases hl : l.index < (book.ladder l.descending).levelCount.toNat
  · apply UInt64.toNat_inj.mp
    have hprice' := (h'.configured l.descending).level_price l.index (by
      rw [(hgrid l.descending).levelCount]
      exact hl)
    exact hprice'.trans (((hgrid l.descending).slotPrice_eq l.index).trans
      ((h.configured l.descending).level_price l.index hl).symm)
  · have hout : ∀ (b : OrderBook) (queues : Queues), LevelsOk b queues →
        (b.ladder l.descending).levelCount = (book.ladder l.descending).levelCount →
        (b.level l).price = 0 := by
      intro b queues hb hcount
      rw [OrderBook.level, PriceLadder.level, Array.getD_eq_getD_getElem?,
        Array.getElem?_eq_none (by
          rw [(hb.configured _).levels_size, hcount]
          omega)]
      rfl
    rw [hout book' queues' h' (hgrid l.descending).levelCount, hout book queues h rfl]

/-- The queues and the aggregates of a side determine its ladder. -/
theorem ladder_of_queues {queues' : Queues} (h : LevelsOk book queues)
    (h' : LevelsOk book' queues')
    (hgrid : ∀ d, PriceLadder.SameGrid (book.ladder d) (book'.ladder d)) {d : Bool}
    (hqueues : ∀ i, queues' ⟨d, i⟩ = queues ⟨d, i⟩)
    (htotal : ∀ i, (book'.level ⟨d, i⟩).totalQuantity = (book.level ⟨d, i⟩).totalQuantity) :
    book'.ladder d = book.ladder d := by
  refine ladder_ext (h.configured d) (h'.configured d) (h.marked d) (h'.marked d) (hgrid d) ?_ ?_
  · intro i
    have hbit := h'.bits ⟨d, i⟩
    rw [hqueues i, ← h.bits ⟨d, i⟩] at hbit
    exact hbit
  · intro i
    exact level_unique (h.represents ⟨d, i⟩) (hqueues i ▸ h'.represents ⟨d, i⟩)
      (level_price_eq h h' hgrid ⟨d, i⟩) (htotal i)

/-- The entries of an index determine its answers. -/
theorem found_of_maps {index index' : OrderIndexing.OrderIndex} (h : IndexOk hash index)
    (h' : IndexOk hash index') {id : OrderId}
    (hmaps : ∀ p, Maps index' id p ↔ Maps index id p) :
    (OrderIndexing.findOrder hash id index').1 = (OrderIndexing.findOrder hash id index).1 := by
  obtain ⟨found, hrun, hcase⟩ := findOrder_spec h id
  obtain ⟨found', hrun', hcase'⟩ := findOrder_spec h' id
  simp only [hmaps] at hcase'
  rw [hrun, hrun']
  rcases hcase with ⟨hnull, habsent⟩ | hfound
  · rcases hcase' with ⟨hnull', _⟩ | hfound'
    · rw [hnull, hnull']
    · exact absurd hfound' (habsent found')
  · rcases hcase' with ⟨_, habsent'⟩ | hfound'
    · exact absurd hfound (habsent' found)
    · rw [h.functional hfound hfound']

theorem restored_of_rejected (h : Synced hash book queues)
    (hr : Rejected hash book book' queues) : Restored hash book book' := by
  have hsynced := hr.synced
  have hlive : ∀ p, Live book'.orderPool p ↔ ∃ l, p ∈ queues l := by
    intro p
    rw [← hsynced.pool.stored, hsynced.mem_restingOrders]
  have hlive' : ∀ p, Live book.orderPool p ↔ ∃ l, p ∈ queues l := by
    intro p
    rw [← h.pool.stored, h.mem_restingOrders]
  have horders : ∀ m, ∀ p ∈ queues m, book'.memory p = book.memory p := by
    intro m p hp
    exact order_unique (h.represents m) (hsynced.represents m) hp (hr.orders m p hp)
  refine ⟨?_, ?_, ?_, ?_, fun p => (hlive p).trans (hlive' p).symm⟩
  · intro p hp
    obtain ⟨m, hp⟩ := (hlive' p).mp hp
    exact horders m p hp
  · exact fun d => ladder_of_queues h.toLevelsOk hsynced.toLevelsOk hr.grid (fun _ => rfl)
      fun i => hr.total ⟨d, i⟩
  · intro id
    apply found_of_maps h.index hsynced.index
    intro p
    rw [hsynced.indexed, h.indexed]
    apply and_congr_right
    intro hp
    obtain ⟨m, hp⟩ := hp
    rw [horders m p hp]
  · apply UInt64.toNat_inj.mp
    rw [hsynced.pool.count, h.pool.count, restingOrders_grid hr.grid]

/-- An insertion that throws was rolled back. -/
theorem insertOrder_restores (hs : Sound hash book) {host : Host} {order : Order}
    {e : StdException} (hthrows : insertOrder hash host order book = (.throws e, book')) :
    Restored hash book book' := by
  rcases insertOrder_run hs.synced host order with
    ⟨_, book'', l, p, hrun, _⟩ | ⟨_, e', book'', hrun, hrejected⟩
  · rw [hthrows] at hrun
    simp at hrun
  · rw [hthrows] at hrun
    obtain rfl : book' = book'' := congrArg Prod.snd hrun
    exact restored_of_rejected hs.synced hrejected

/-- Insertion is all or nothing in every reachable book. -/
theorem failed_insertion_restores {s : EngineState} (h : Reachable hash AnyCall s) (host : Host)
    (orderId : OrderId) (price : Price) (originalQuantity remainingQuantity : Quantity)
    (timestamp : Timestamp) (orderSide : OrderSide) (orderType : Orders.OrderType)
    (sequenceNumber : SequenceNumber) (e : StdException) (book' : OrderBook) :
    (OrderBooks.addOrder hash host orderId price originalQuantity timestamp orderSide orderType
        sequenceNumber s.orderBook = (.throws e, book') → Restored hash s.orderBook book') ∧
    (addRestingRemainder hash host orderId price originalQuantity remainingQuantity timestamp
        orderSide orderType sequenceNumber s.orderBook = (.throws e, book') →
      Restored hash s.orderBook book') := by
  constructor
  · intro hthrows
    have hinsert : insertOrder hash host {
        orderId, price, timestamp, orderSide, orderType, sequenceNumber
        originalQuantity := originalQuantity
        remainingQuantity := originalQuantity } s.orderBook = (.throws e, book') := hthrows
    exact insertOrder_restores (reachable_sound h) hinsert
  · intro hthrows
    have hinsert : insertOrder hash host {
        orderId, price, originalQuantity, remainingQuantity, timestamp, orderSide, orderType
        sequenceNumber := sequenceNumber } s.orderBook = (.throws e, book') := hthrows
    exact insertOrder_restores (reachable_sound h) hinsert

def threw {ε α : Type} : Outcome ε α → Bool
  | .throws _ => true
  | .returns _ | .diverges => false

/-- The order has an id that rests already, at a price that would have been the new best. -/
theorem second_insertion_restores : ∃ (s : EngineState) (e : StdException) (book' : OrderBook),
    OrderBooks.addOrder id grantingHost 1 100 5 2 .sell .limit 2 s.orderBook = (.throws e, book') ∧
      Restored id s.orderBook book' := by
  obtain ⟨s, hs, hp⟩ := @exists_reachable id _ _ anyCall_of_removesNone 100 1 2
    [.addOrder grantingHost 1 101 10 5 .sell .limit 1]
    (fun s => threw (OrderBooks.addOrder id grantingHost 1 100 5 2 .sell .limit 2 s.orderBook).1)
    (by decide +kernel)
  generalize hrun :
    OrderBooks.addOrder id grantingHost 1 100 5 2 .sell .limit 2 s.orderBook = result at hp
  obtain ⟨o, book'⟩ := result
  cases o with
  | throws e =>
    exact ⟨s, e, book', hrun,
      (failed_insertion_restores hs grantingHost 1 100 5 5 2 .sell .limit 2 e book').1 hrun⟩
  | returns _ => cases hp
  | diverges => cases hp

end Books

end Leka.FailedInsertions
