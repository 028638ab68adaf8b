import Leka.BookViews

/-!
Cancellations and reductions in any order. Each acts on the resting order with its id, if
there is one, and answers by the quantity left under that id. Events with distinct ids do
not see each other, so a list of them gives the same answers and the same book in every
order; each structure on the way may look different.
-/

namespace Leka.UpkeepOrders

open Procedures Orders OrderPools PriceLevels PriceLadders OrderBooks MatchingEngines SyncedBooks
  BookRemovals RestingOrders EventOutcomes BookRuns FailedInsertions BookViews

/-- The events that maintain resting orders. -/
inductive Upkeep where
  | cancel (order : CancelOrder)
  | reduce (reduction : ReduceOrder)
deriving DecidableEq

def Upkeep.event : Upkeep → OrderEvent
  | .cancel order => .cancel order
  | .reduce reduction => .reduce reduction

def Upkeep.orderId : Upkeep → OrderId
  | .cancel order => order.orderId
  | .reduce reduction => reduction.orderId

/-- What the event does to a resting order. A reduction that is refused does nothing. -/
def Upkeep.change : Upkeep → Change
  | .cancel order => fun id remaining => if id = order.orderId then none else some remaining
  | .reduce reduction => fun id remaining =>
    if id = reduction.orderId ∧ reduction.newQuantity ≠ 0 ∧ reduction.newQuantity ≤ remaining then
      some reduction.newQuantity
    else some remaining

/-- The answer to the event when `found` is the quantity left under its id. -/
def Upkeep.answer : Upkeep → Option Quantity → Outcome StdException ℕ
  | .cancel order, _ =>
    if order.orderId = 0 then .throws (.invalidArgument "Invalid cancel order ID") else .returns 0
  | .reduce reduction, found =>
    if reduction.orderId = 0 then .throws (.invalidArgument "Invalid reduce order ID")
    else match found with
      | none => .returns 0
      | some remaining =>
        if reduction.newQuantity = 0 ∨ reduction.newQuantity > remaining then
          .throws (.invalidArgument
            "Reduction requires a nonzero quantity no greater than the remaining quantity")
        else .returns 0

/-- `found` is the remaining quantity of the resting order with the id, if there is one. -/
def Finds (book : OrderBook) (id : OrderId) (found : Option Quantity) : Prop :=
  ∀ remaining, found = some remaining ↔ ∃ l, ∃ p ∈ fifo book l,
    (book.memory p).orderId = id ∧ (book.memory p).remainingQuantity = remaining

section Changes

variable {hash : OrderId → UInt64} {book book' : OrderBook} {u : Upkeep} {l : LevelPtr}
  {p : OrderPtr} {id : OrderId} {quantity : Quantity}

theorem Upkeep.change_ne (u : Upkeep) (hne : id ≠ u.orderId) (remaining : Quantity) :
    u.change id remaining = some remaining := by
  cases u with
  | cancel order => exact if_neg hne
  | reduce reduction => exact if_neg fun h => hne h.1

theorem cancel_at (order : CancelOrder) (resting : Order) :
    (Upkeep.cancel order).change.at resting =
      if resting.orderId = order.orderId then none else some resting.remainingQuantity := rfl

theorem reduce_at (reduction : ReduceOrder) (resting : Order) :
    (Upkeep.reduce reduction).change.at resting =
      if resting.orderId = reduction.orderId ∧ reduction.newQuantity ≠ 0 ∧
          reduction.newQuantity ≤ resting.remainingQuantity then some reduction.newQuantity
      else some resting.remainingQuantity := rfl

theorem finds_none (habsent : ∀ l, ∀ p ∈ fifo book l, (book.memory p).orderId ≠ id) :
    Finds book id none := by
  intro remaining
  constructor
  · intro heq
    cases heq
  · rintro ⟨l, p, hp, hid, _⟩
    exact absurd hid (habsent l p hp)

theorem finds_some (hs : Sound hash book) (hp : p ∈ fifo book l)
    (hid : (book.memory p).orderId = id) :
    Finds book id (some (book.memory p).remainingQuantity) := by
  intro remaining
  constructor
  · intro heq
    exact ⟨l, p, hp, hid, Option.some.inj heq⟩
  · rintro ⟨m, q, hq, hid', hremaining⟩
    rw [← hremaining, hs.synced.id_unique hq hp (hid'.trans hid.symm)]

theorem exists_finds (hs : Sound hash book) (id : OrderId) : ∃ found, Finds book id found := by
  by_cases hrests : ∃ l, ∃ p ∈ fifo book l, (book.memory p).orderId = id
  · obtain ⟨l, p, hp, hid⟩ := hrests
    exact ⟨_, finds_some hs hp hid⟩
  · exact ⟨none, finds_none fun l p hp hid => hrests ⟨l, p, hp, hid⟩⟩

theorem Finds.unique {found found' : Option Quantity} (h : Finds book id found)
    (h' : Finds book id found') : found' = found := by
  apply Option.ext
  intro remaining
  exact (h' remaining).trans (h remaining).symm

/-- A change that leaves an id alone leaves what is found under it. -/
theorem Finds.changed {change : Change} {found : Option Quantity} (h : Finds book id found)
    (hc : Changed hash change book book')
    (hid : ∀ remaining, change id remaining = some remaining) : Finds book' id found := by
  intro remaining
  rw [h remaining]
  constructor
  · rintro ⟨l, p, hp, rfl, rfl⟩
    have hsame : change.at (book.memory p) = some (book.memory p).remainingQuantity := hid _
    obtain ⟨hid', hremaining⟩ := hc.fields hp hsame
    exact ⟨l, p, hc.mem.mpr ⟨hp, _, hsame⟩, hid', hremaining⟩
  · rintro ⟨l, p, hp, hid', hremaining⟩
    obtain ⟨hp, left, hleft⟩ := hc.mem.mp hp
    obtain ⟨hsame, hequal⟩ := hc.fields hp hleft
    rw [hsame] at hid'
    rw [Change.at, hid', hid] at hleft
    exact ⟨l, p, hp, hid', (Option.some.inj hleft).trans (hequal.symm.trans hremaining)⟩

theorem changed_cancelled (hs : Sound hash book) {order : CancelOrder} (hp : p ∈ fifo book l)
    (hid : (book.memory p).orderId = order.orderId)
    (hremoved : Removed hash book book' (fifo book) l p) :
    Changed hash (Upkeep.cancel order).change book book' where
  sound := sound_removed hs hp hremoved
  grid := hremoved.grid
  queue := by
    have hnamed : ∀ m, ∀ q ∈ fifo book m,
        ((Upkeep.cancel order).change.at (book.memory q)).isSome = (q != p) := by
      intro m q hq
      by_cases hqp : q = p
      · subst q
        rw [cancel_at, if_pos hid, Option.isSome_none, bne_self_eq_false]
      · have hne : (book.memory q).orderId ≠ order.orderId :=
          fun heq => hqp (hs.synced.id_unique hq hp (heq.trans hid.symm))
        rw [cancel_at, if_neg hne, Option.isSome_some]
        exact (bne_iff_ne.mpr hqp).symm
    intro m
    rw [fifo_eq hremoved.synced.toLevelsOk, List.filter_congr (hnamed m)]
    by_cases hm : m = l
    · subst m
      rw [Function.update_self]
      exact (hs.synced.represents l).nodup.erase_eq_filter p
    · rw [Function.update_of_ne hm]
      symm
      rw [List.filter_eq_self]
      intro q hq
      apply bne_iff_ne.mpr
      rintro rfl
      exact hm (hs.synced.level_unique hq hp)
  orders := by
    intro m q _ quantity hquantity
    rw [cancel_at] at hquantity
    by_cases hne : (book.memory q).orderId = order.orderId
    · rw [if_pos hne] at hquantity
      cases hquantity
    · rw [if_neg hne] at hquantity
      rw [hremoved.orders q, ← Option.some.inj hquantity]
      rfl
  excess_eq := excess_removed hs.synced.toLevelsOk hp hremoved

theorem changed_reduced (hs : Sound hash book) {reduction : ReduceOrder} (hp : p ∈ fifo book l)
    (hid : (book.memory p).orderId = reduction.orderId) (hpositive : reduction.newQuantity ≠ 0)
    (hle : reduction.newQuantity ≤ (book.memory p).remainingQuantity) :
    Changed hash (Upkeep.reduce reduction).change book
      (withTotal (withRemaining book p reduction.newQuantity) l ((book.level l).totalQuantity -
        ((book.memory p).remainingQuantity - reduction.newQuantity))) := by
  have hsynced := synced_resize hs.synced hp hle
  have hr := relevelled_withTotal ((book.level l).totalQuantity -
    ((book.memory p).remainingQuantity - reduction.newQuantity))
    (synced_shrink hs.synced hle).toLevelsOk hp
  refine ⟨sound_resized hs hp hpositive hle, hr.grid, ?_, ?_,
    excess_resized hs.synced hp hle⟩
  · intro m
    rw [fifo_eq hsynced.toLevelsOk]
    symm
    rw [List.filter_eq_self]
    intro q _
    rw [reduce_at]
    split <;> rfl
  · intro m q hq quantity hquantity
    rw [(withTotal_frame (withRemaining book p reduction.newQuantity) l _).1]
    rw [reduce_at] at hquantity
    by_cases hqp : q = p
    · subst q
      rw [if_pos ⟨hid, hpositive, hle⟩] at hquantity
      rw [withRemaining_self, Option.some.inj hquantity]
      rfl
    · have hne : (book.memory q).orderId ≠ reduction.orderId :=
        fun heq => hqp (hs.synced.id_unique hq hp (heq.trans hid.symm))
      rw [if_neg fun h => hne h.1] at hquantity
      rw [withRemaining_ne hqp, ← Option.some.inj hquantity]
      rfl

end Changes

section Runs

variable {hash : OrderId → UInt64} {s : EngineState}

theorem orderId_ne_zero {order : Order} (hvalid : order.isValid = true) : order.orderId ≠ 0 := by
  intro hzero
  simp [Order.isValid, OrderId.isValid, hzero] at hvalid

/-- One event: its answer is that for what rests under its id, and the view changes by it. -/
theorem upkeep_step (hs : Sound hash s.orderBook) (host : Host) (u : Upkeep) :
    (∃ found, Finds s.orderBook u.orderId found ∧
        (processEvent hash host u.event s).1 = u.answer found) ∧
      Changed hash u.change s.orderBook (processEvent hash host u.event s).2.orderBook := by
  have hends := processEvent_ends hs host u.event
  generalize processEvent hash host u.event s = result at hends
  have hvalid : ∀ l, ∀ p ∈ fifo s.orderBook l, (s.orderBook.memory p).orderId ≠ 0 :=
    fun l p hp => orderId_ne_zero (hs.synced.rests l p hp).valid
  cases u with
  | cancel order =>
    cases hends with
    | cancelInvalid hid =>
      obtain ⟨found, hfound⟩ := exists_finds hs order.orderId
      refine ⟨⟨found, hfound, ?_⟩, changed_same hs ?_⟩
      · exact (if_pos hid).symm
      · intro l p hp
        rw [cancel_at, if_neg (hid ▸ hvalid l p hp)]
    | cancelAbsent hid habsent =>
      refine ⟨⟨none, finds_none habsent, ?_⟩, changed_same hs ?_⟩
      · exact (if_neg hid).symm
      · intro l p hp
        rw [cancel_at, if_neg (habsent l p hp)]
    | cancelled hid hp horder hremoved =>
      refine ⟨⟨_, finds_some hs hp horder, ?_⟩, changed_cancelled hs hp horder hremoved⟩
      exact (if_neg hid).symm
  | reduce reduction =>
    cases hends with
    | reduceInvalid hid =>
      obtain ⟨found, hfound⟩ := exists_finds hs reduction.orderId
      refine ⟨⟨found, hfound, ?_⟩, changed_same hs ?_⟩
      · exact (if_pos hid).symm
      · intro l p hp
        rw [reduce_at, if_neg fun h => hvalid l p hp (h.1.trans hid)]
    | reduceAbsent hid habsent =>
      refine ⟨⟨none, finds_none habsent, ?_⟩, changed_same hs ?_⟩
      · exact (if_neg hid).symm
      · intro l p hp
        rw [reduce_at, if_neg fun h => habsent l p hp h.1]
    | reduceRefused hid hp horder hquantity =>
      refine ⟨⟨_, finds_some hs hp horder, ?_⟩, changed_same hs ?_⟩
      · rw [Upkeep.answer, if_neg hid]
        exact (if_pos hquantity).symm
      · intro m q hq
        rw [reduce_at, if_neg]
        rintro ⟨hid', hpositive, hle⟩
        obtain rfl := hs.synced.id_unique hq hp (hid'.trans horder.symm)
        rcases hquantity with hzero | hmore
        · exact hpositive hzero
        · exact UInt64.not_le.mpr hmore hle
    | reduceSame hid hp horder hquantity =>
      refine ⟨⟨_, finds_some hs hp horder, ?_⟩, changed_same hs ?_⟩
      · rw [Upkeep.answer, if_neg hid]
        refine (if_neg ?_).symm
        rw [hquantity, not_or]
        exact ⟨hs.positive _ _ hp, UInt64.lt_irrefl _⟩
      · intro m q hq
        rw [reduce_at]
        by_cases hnamed : (s.orderBook.memory q).orderId = reduction.orderId
        · obtain rfl := hs.synced.id_unique hq hp (hnamed.trans horder.symm)
          rw [hquantity, ite_self]
        · rw [if_neg fun h => hnamed h.1]
    | reduced hid hp horder hpositive hquantity =>
      refine ⟨⟨_, finds_some hs hp horder, ?_⟩,
        changed_reduced hs hp horder hpositive (UInt64.le_of_lt hquantity)⟩
      rw [Upkeep.answer, if_neg hid]
      refine (if_neg ?_).symm
      rw [not_or]
      exact ⟨hpositive, UInt64.not_lt.mpr (UInt64.le_of_lt hquantity)⟩

/-- Processes the events in turn, each with a host of its own, and pairs each with its answer.
An exception leaves the engine ready for the next event. -/
def runUpkeep (hash : OrderId → UInt64) :
    List (Host × Upkeep) → EngineState → List (Upkeep × Outcome StdException ℕ) × EngineState
  | [], s => ([], s)
  | (host, u) :: us, s =>
    let ended := processEvent hash host u.event s
    let rest := runUpkeep hash us ended.2
    ((u, ended.1) :: rest.1, rest.2)

/-- The changes of the events one after the other. -/
def changes : List Upkeep → Change
  | [] => Change.none
  | u :: us => u.change.andThen (changes us)

theorem runUpkeep_changed (hs : Sound hash s.orderBook) (us : List (Host × Upkeep)) :
    Changed hash (changes (us.map Prod.snd)) s.orderBook (runUpkeep hash us s).2.orderBook := by
  induction us generalizing s with
  | nil => exact .refl hs
  | cons hu us ih =>
    have hstep := (upkeep_step hs hu.1 hu.2).2
    exact hstep.trans (ih hstep.sound)

/-- Events with distinct ids answer by what rests at the start. -/
theorem runUpkeep_answers (hs : Sound hash s.orderBook) {us : List (Host × Upkeep)}
    (hdistinct : (us.map fun hu => hu.2.orderId).Nodup) {found : OrderId → Option Quantity}
    (hfound : ∀ hu ∈ us, Finds s.orderBook hu.2.orderId (found hu.2.orderId)) :
    (runUpkeep hash us s).1 = us.map fun hu => (hu.2, hu.2.answer (found hu.2.orderId)) := by
  induction us generalizing s with
  | nil => rfl
  | cons hu us ih =>
    obtain ⟨⟨found', hfound', hanswer⟩, hchanged⟩ := upkeep_step hs hu.1 hu.2
    rw [List.map_cons, List.nodup_cons] at hdistinct
    obtain ⟨hnew, hdistinct⟩ := hdistinct
    have hrest := ih hchanged.sound hdistinct (by
      intro hv hmem
      apply (hfound hv (List.mem_cons_of_mem _ hmem)).changed hchanged
      apply hu.2.change_ne
      intro heq
      exact hnew (List.mem_map.mpr ⟨hv, hmem, heq⟩))
    have hhead : (processEvent hash hu.1 hu.2.event s).1 = hu.2.answer (found hu.2.orderId) := by
      rw [hanswer, (hfound hu List.mem_cons_self).unique hfound']
    rw [List.map_cons, ← hrest, ← hhead]
    rfl

end Runs

section Permutations

variable {us us' : List Upkeep} {id : OrderId}

theorem changes_of_absent (habsent : ∀ u ∈ us, u.orderId ≠ id) (remaining : Quantity) :
    changes us id remaining = some remaining := by
  induction us with
  | nil => rfl
  | cons u us ih =>
    rw [changes, Change.andThen, u.change_ne (habsent u List.mem_cons_self).symm, Option.bind_some]
    exact ih fun v hv => habsent v (List.mem_cons_of_mem _ hv)

/-- Of events with distinct ids one acts on an order. -/
theorem changes_of_mem (hdistinct : (us.map Upkeep.orderId).Nodup) {u : Upkeep} (hu : u ∈ us)
    (remaining : Quantity) : changes us u.orderId remaining = u.change u.orderId remaining := by
  induction us with
  | nil => cases hu
  | cons v us ih =>
    rw [List.map_cons, List.nodup_cons] at hdistinct
    obtain ⟨hnew, hdistinct⟩ := hdistinct
    rw [changes, Change.andThen]
    rcases List.mem_cons.mp hu with rfl | hmem
    · have habsent : ∀ w ∈ us, w.orderId ≠ u.orderId := by
        intro w hw heq
        exact hnew (heq ▸ List.mem_map_of_mem hw)
      have hkeep : changes us u.orderId = some := funext (changes_of_absent habsent)
      rw [hkeep, Option.bind_fun_some]
    · have hne : u.orderId ≠ v.orderId := by
        intro heq
        exact hnew (heq ▸ List.mem_map_of_mem hmem)
      rw [v.change_ne hne, Option.bind_some]
      exact ih hdistinct hmem

theorem changes_perm (hdistinct : (us.map Upkeep.orderId).Nodup) (hperm : us'.Perm us) :
    changes us' = changes us := by
  have hdistinct' : (us'.map Upkeep.orderId).Nodup := (hperm.map _).nodup_iff.mpr hdistinct
  funext id remaining
  by_cases hnamed : ∃ u ∈ us, u.orderId = id
  · obtain ⟨u, hu, rfl⟩ := hnamed
    rw [changes_of_mem hdistinct hu, changes_of_mem hdistinct' (hperm.mem_iff.mpr hu)]
  · have habsent : ∀ u ∈ us, u.orderId ≠ id := fun u hu heq => hnamed ⟨u, hu, heq⟩
    rw [changes_of_absent habsent,
      changes_of_absent fun u hu => habsent u (hperm.mem_iff.mp hu)]

end Permutations

section Commutation

variable {hash : OrderId → UInt64} {s : EngineState}

/-- Cancellations and reductions of distinct ids can be permuted: each gets the same answer,
and the books agree in all but free memory. -/
theorem upkeep_permutes (h : Reachable hash AnyCall s) {us us' : List (Host × Upkeep)}
    (hdistinct : (us.map fun hu => hu.2.orderId).Nodup)
    (hperm : (us'.map Prod.snd).Perm (us.map Prod.snd)) :
    (runUpkeep hash us' s).1.Perm (runUpkeep hash us s).1 ∧
      Restored hash (runUpkeep hash us s).2.orderBook (runUpkeep hash us' s).2.orderBook ∧
      fifo (runUpkeep hash us' s).2.orderBook = fifo (runUpkeep hash us s).2.orderBook := by
  have hs := reachable_sound h
  choose found hfound using exists_finds hs
  have hids : us.map (fun hu => hu.2.orderId) = (us.map Prod.snd).map Upkeep.orderId := by
    rw [List.map_map]
    rfl
  have hids' : us'.map (fun hu => hu.2.orderId) = (us'.map Prod.snd).map Upkeep.orderId := by
    rw [List.map_map]
    rfl
  have hdistinct' : (us'.map fun hu => hu.2.orderId).Nodup := by
    rw [hids']
    rw [hids] at hdistinct
    exact (hperm.map _).nodup_iff.mpr hdistinct
  constructor
  · rw [runUpkeep_answers hs hdistinct fun hu _ => hfound _,
      runUpkeep_answers hs hdistinct' fun hu _ => hfound _]
    have hanswers : ∀ vs : List (Host × Upkeep),
        vs.map (fun hu => (hu.2, hu.2.answer (found hu.2.orderId))) =
          (vs.map Prod.snd).map fun u => (u, u.answer (found u.orderId)) := by
      intro vs
      rw [List.map_map]
      rfl
    rw [hanswers, hanswers]
    exact hperm.map _
  · have hchanged := runUpkeep_changed hs us
    have hchanged' := runUpkeep_changed hs us'
    rw [changes_perm (hids ▸ hdistinct) hperm] at hchanged'
    exact hchanged.unique hchanged'

/-- Two orders of one queue: the first is cancelled, and the reduction of the second asks for
too much. -/
theorem neighbours_permute : ∃ s : EngineState,
    (runUpkeep id [(grantingHost, .reduce ⟨2, 6⟩), (grantingHost, .cancel ⟨1⟩)] s).1.Perm
        (runUpkeep id [(grantingHost, .cancel ⟨1⟩), (grantingHost, .reduce ⟨2, 6⟩)] s).1 ∧
      (fifo s.orderBook ⟨false, 1⟩).length = 2 := by
  obtain ⟨s, hs, hp⟩ := @exists_reachable id _ _ anyCall_of_removesNone 100 1 2
    [.addOrder grantingHost 1 101 10 5 .sell .limit 1,
      .addOrder grantingHost 2 101 5 6 .sell .limit 2]
    (fun s => (fifo s.orderBook ⟨false, 1⟩).length == 2) (by decide +kernel)
  have hpermuted := @upkeep_permutes id s hs
    [(grantingHost, .cancel ⟨1⟩), (grantingHost, .reduce ⟨2, 6⟩)]
    [(grantingHost, .reduce ⟨2, 6⟩), (grantingHost, .cancel ⟨1⟩)] (by decide)
    (List.Perm.swap _ _ _)
  exact ⟨s, hpermuted.1, by simpa using hp⟩

end Commutation

end Leka.UpkeepOrders
