import Leka.MarketRuns
import Leka.ReplayLadders
import Leka.VenueSessions

/-!
The replay of a session of a price-time venue. Row by row the engine displays what the venue
does: a quote is one event or two, and the executions of a moment are one order, which takes
them in front of the first row of the moment. Nothing is said behind a refusal of memory.
-/

namespace Leka.VenueReplays

open Procedures Orders OrderBooks MatchingEngines SyncedBooks RestingOrders BookRuns Sweeps
  MatcherRefinement Numerals CsvReaders ItchReplays ReplayTraces ExecutionGroups AggressorOrders
  ReplayLadders LadderAddresses Observations Markets MarketReadings MarketRefinement MarketRuns
  Venues VenueSessions
open ReferenceMatchers hiding submit cancel reduce

section Rules

variable {α β : Type} {x : ReplayProc α} {s : Replay} {Good : α → Replay → Prop}

/-- No call is forgotten. -/
def Appends (x : ReplayProc α) : Prop := ∀ s, s.submissions <+: (x s).2.submissions

/-- A call has been refused memory. -/
def Refused (s : Replay) : Prop := ∃ sub ∈ s.submissions, RefusesMemory sub.outcome

/-- The procedure returns in a good state, unless a call is refused memory. -/
def Leads (x : ReplayProc α) (s : Replay) (Good : α → Replay → Prop) : Prop :=
  Refused (x s).2 ∨ ∃ a s', x s = (.returns a, s') ∧ Good a s'

theorem appends_pure (a : α) : Appends (pure a : ReplayProc α) := fun _ => List.prefix_rfl

theorem appends_get : Appends (Proc.get : ReplayProc Replay) := fun _ => List.prefix_rfl

theorem appends_modify {g : Replay → Replay} (hg : ∀ s, (g s).submissions = s.submissions) :
    Appends (Proc.modify g) := fun s => by
  rw [Proc.modify_apply, hg]

theorem Appends.bind (hx : Appends x) {g : α → ReplayProc β} (hg : ∀ a, Appends (g a)) :
    Appends (x >>= g) := by
  intro s
  have hfirst := hx s
  rw [Proc.bind_apply]
  generalize x s = result at hfirst ⊢
  obtain ⟨o, s'⟩ := result
  cases o with
  | returns a => exact hfirst.trans (hg a s')
  | throws | diverges => exact hfirst

theorem Appends.ite {c : Prop} [Decidable c] {y : ReplayProc α} (hx : Appends x)
    (hy : Appends y) : Appends (if c then x else y) := by
  split
  · exact hx
  · exact hy

theorem Appends.caught {x : ReplayProc Unit} (hx : Appends x) :
    Appends (tryCatch x fun _ => pure ()) := by
  intro s
  have hfirst := hx s
  change _ <+: (Proc.handle x _ s).2.submissions
  unfold Proc.handle
  generalize x s = result at hfirst ⊢
  obtain ⟨o, s'⟩ := result
  cases o with
  | returns | throws | diverges => exact hfirst

theorem appends_submit (hash : OrderId → UInt64) (hosts : ℕ → OrderPools.Host) (index : ℕ)
    (f : Row) (label : Label) (event : OrderEvent) :
    Appends (submit hash hosts index f label event) := by
  intro s
  unfold submit
  generalize processEvent hash (hosts s.submissions.length) event s.engine = result
  exact List.prefix_append _ _

theorem appends_book (x : BookProc α) : Appends (onEngineBook x) := by
  intro s
  unfold onEngineBook Proc.zoom
  generalize MatchingEngines.onBook x s.engine = result
  exact List.prefix_rfl

theorem refused_of_appends (hx : Appends x) (h : Refused s) : Refused (x s).2 := by
  obtain ⟨sub, hsub, hrefuses⟩ := h
  exact ⟨sub, (hx s).subset hsub, hrefuses⟩

theorem Leads.of_run {a : α} {s' : Replay} (hrun : x s = (.returns a, s')) {g : α → ReplayProc β}
    {Good' : β → Replay → Prop} (h : Leads (g a) s' Good') : Leads (x >>= g) s Good' := by
  unfold Leads at h ⊢
  rwa [Proc.bind_returns _ hrun]

theorem leads_pure {a : α} (h : Good a s) : Leads (pure a) s Good := .inr ⟨a, s, rfl, h⟩

theorem Leads.weaken {Good' : α → Replay → Prop} (h : Leads x s Good)
    (hgood : ∀ a s', Good a s' → Good' a s') : Leads x s Good' :=
  h.imp_right fun ⟨a, s', hrun, ha⟩ => ⟨a, s', hrun, hgood a s' ha⟩

theorem Leads.bind (hx : Leads x s Good) {g : α → ReplayProc β} (happends : ∀ a, Appends (g a))
    {Good' : β → Replay → Prop} (hg : ∀ a s', Good a s' → Leads (g a) s' Good') :
    Leads (x >>= g) s Good' := by
  rcases hx with hrefused | ⟨a, s', hrun, ha⟩
  · left
    rw [Proc.bind_apply]
    generalize x s = result at hrefused
    obtain ⟨o, s'⟩ := result
    cases o with
    | returns a => exact refused_of_appends (happends a) hrefused
    | throws | diverges => exact hrefused
  · exact .of_run hrun (hg a s' ha)

theorem Leads.caught {x : ReplayProc Unit} {Good : Unit → Replay → Prop} (hx : Leads x s Good) :
    Leads (tryCatch x fun _ => pure ()) s Good := by
  rcases hx with hrefused | ⟨a, s', hrun, ha⟩
  · left
    change Refused (Proc.handle x _ s).2
    unfold Proc.handle
    generalize x s = result at hrefused ⊢
    obtain ⟨o, s'⟩ := result
    cases o with
    | returns | throws | diverges => exact hrefused
  · exact .inr ⟨a, s', Proc.handle_returns _ hrun, ha⟩

end Rules

section Steps

/-- The replay displays the venue. `news` bounds the sequence numbers that have been given out,
and `added` what is shown at a price. -/
structure InStep (hash : OrderId → UInt64) (prices : Set UInt64) (s : Replay) (venue : Venue)
    (news added : ℕ) : Prop where
  sound : Sound hash s.engine.orderBook
  displayed : displayed (marketOf s.engine) = venue
  lastSequence : (marketOf s.engine).book.lastSequence ≤ news
  shown : ∀ d price, (marketOf s.engine).shown d price ≤ added
  grid : ∀ d, ∀ p ∈ prices, ((marketOf s.engine).grid d).check p.toNat = .ok ()
  returned : ∀ sub ∈ s.submissions, ∃ n, sub.outcome = .returns n

/-- The pending aggressors and their identifiers are as before. -/
structure Kept (s s' : Replay) : Prop where
  pending : s'.aggressorsByTs = s.aggressorsByTs
  counter : s'.syntheticIdCounter = s.syntheticIdCounter

theorem Kept.refl (s : Replay) : Kept s s := ⟨rfl, rfl⟩

theorem Kept.trans {s s' s'' : Replay} (h : Kept s s') (h' : Kept s' s'') : Kept s s'' :=
  ⟨h'.pending.trans h.pending, h'.counter.trans h.counter⟩

variable {hash : OrderId → UInt64} {hosts : ℕ → OrderPools.Host} {prices : Set UInt64}
  {s : Replay} {venue venue' : Venue} {news added : ℕ} {index : ℕ} {f : Row}

theorem InStep.mono (h : InStep hash prices s venue news added) {news' added' : ℕ}
    (hnews : news ≤ news') (hadded : added ≤ added') :
    InStep hash prices s venue news' added' :=
  { h with
    lastSequence := h.lastSequence.trans hnews
    shown := fun d price => (h.shown d price).trans hadded }

/-- An event that the market accepts. -/
theorem InStep.submits (h : InStep hash prices s venue news added) (label : Label)
    {event : OrderEvent} {trades : List Trade} {market' : Market} {k amount : ℕ}
    (hanswer : (marketOf s.engine).answer event = { trades, market := market' })
    (hbecomes : Becomes (marketOf s.engine) market' venue' k amount) :
    Leads (submit hash hosts index f label event) s fun _ s' =>
      InStep hash prices s' venue' (news + k) (added + amount) ∧ Kept s s' := by
  have hsound := sound_processEvent h.sound (hosts s.submissions.length) event
  have hgives := processEvent_gives h.sound (hosts s.submissions.length) event
  rw [hanswer] at hgives
  unfold Leads submit
  generalize processEvent hash (hosts s.submissions.length) event s.engine = result at hsound hgives
  obtain ⟨o, engine⟩ := result
  rcases hgives with hrefused | ⟨houtcome, -, hmarket⟩
  · exact .inl ⟨⟨index, f, label, event, o⟩, by simp, hrefused⟩
  · right
    obtain rfl : o = .returns trades.length := houtcome
    have hmarket' : marketOf engine = market' := hmarket
    refine ⟨(), _, rfl, ⟨hsound, ?_, ?_, ?_, ?_, ?_⟩, rfl, rfl⟩
    · rw [← hbecomes.displayed, ← hmarket']
    · rw [hmarket', hbecomes.lastSequence]
      exact Nat.add_le_add_right h.lastSequence _
    · intro d price
      rw [hmarket']
      exact (hbecomes.shown d price).trans (Nat.add_le_add_right (h.shown d price) _)
    · intro d p hp
      rw [hmarket', hbecomes.grid]
      exact h.grid d p hp
    · exact List.forall_mem_append.mpr ⟨h.returned, by simp⟩

/-- The market takes a limit order with a new id. -/
theorem InStep.checks (h : InStep hash prices s venue news added) {order : NewOrder}
    (hlimit : order.orderType = .limit) (hside : order.orderSide = .buy ∨ order.orderSide = .sell)
    (hid : order.orderId ≠ 0) (hquantity : order.quantity ≠ 0) (htimestamp : order.timestamp ≠ 0)
    (hprice : order.price ≠ 0) (hfresh : ∀ d, ∀ x ∈ venue d, x.orderId ≠ order.orderId)
    (hnews : news < 2 ^ 64 - 1) : (marketOf s.engine).checkOrder order = .ok () := by
  have hvalid : validate order = .ok () := by
    have hlisted : ¬ (order.orderSide ≠ .buy ∧ order.orderSide ≠ .sell) := by tauto
    simp [validate, hlimit, hlisted, OrderId.isValid, Quantity.isValid, Timestamp.isValid,
      Price.isValid, hid, hquantity, htimestamp, hprice]
  have habsent : ¬ ∃ other ∈ (marketOf s.engine).resting, other.orderId = order.orderId := by
    rintro ⟨other, hother, hsame⟩
    have hlisted : ∀ d, other ∈ (marketOf s.engine).book.side d → False := fun d hmem =>
      hfresh d (listingOf other) (h.displayed ▸ List.mem_map_of_mem hmem) hsame
    rcases List.mem_append.mp hother with hbid | hask
    · exact hlisted true hbid
    · exact hlisted false hask
  have hlast : (marketOf s.engine).book.lastSequence ≠ 2 ^ 64 - 1 :=
    Nat.ne_of_lt (h.lastSequence.trans_lt hnews)
  rw [Market.checkOrder, hvalid]
  simp only [if_neg habsent, if_neg hlast]

/-- A displayed order is one of the book. -/
theorem InStep.order_of_mem (h : InStep hash prices s venue news added) {d : Bool} {x : Listing}
    (hx : x ∈ venue d) : ∃ i, ∃ p ∈ fifo s.engine.orderBook ⟨d, i⟩,
      x = listingOf (restingOf (s.engine.orderBook.memory p)) := by
  rw [← h.displayed] at hx
  obtain ⟨order, horder, rfl⟩ := List.mem_map.mp hx
  change order ∈ (bookOf s.engine).side d at horder
  rw [side_bookOf] at horder
  obtain ⟨p, hp, rfl⟩ := List.mem_map.mp horder
  obtain ⟨i, hp⟩ := (h.sound.synced.toLevelsOk.mem_sideOrders d).mp hp
  exact ⟨i, p, hp, rfl⟩

/-- The lookup of a displayed order finds it. -/
theorem InStep.finds (h : InStep hash prices s venue news added) {d : Bool} {x : Listing}
    (hx : x ∈ venue d) : ∃ p, p ≠ nullptr ∧
      onEngineBook (findOrder hash x.orderId) s = (.returns p, s) ∧
      (s.engine.orderBook.memory p).remainingQuantity.toNat = x.shares ∧
      (s.engine.orderBook.memory p).orderSide = (if d then .buy else .sell) ∧
      ∀ d', ∀ y ∈ venue d', y.orderId = x.orderId → y.shares = x.shares := by
  obtain ⟨i, p, hp, rfl⟩ := h.order_of_mem hx
  have hlevels := h.sound.synced.toLevelsOk
  have hrun := h.sound.synced.findOrder_self hp
  refine ⟨p, hlevels.ne_null hp, ?_, rfl, (hlevels.rests ⟨d, i⟩ p hp).side, ?_⟩
  · simp only [onEngineBook, MatchingEngines.onBook, Proc.zoom, listingOf, restingOf, hrun]
  · intro d' y hy hsame
    obtain ⟨j, q, hq, rfl⟩ := h.order_of_mem hy
    rw [h.sound.synced.id_unique hq hp hsame]

/-- An order that the venue displays is displayed by the replay. -/
theorem InStep.joins (h : InStep hash prices s venue news added) {d : Bool} {ref : OrderId}
    (hjoins : Joins venue d ref f) (hpriced : priceOf f ∈ prices) (htimestamp : timestampOf f ≠ 0)
    (hnews : news < 2 ^ 64 - 1) (hadded : added + (sharesOf f).toNat < 2 ^ 64) {side : OrderSide}
    (hside : side = if d then .buy else .sell) (label : Label) :
    Leads (submit hash hosts index f label (.new (newOrderOf f ref (timestampOf f) side))) s
      fun _ s' => InStep hash prices s' (enter venue d (listingAt ref f)) (news + 1)
        (added + (sharesOf f).toNat) ∧ Kept s s' := by
  have hbid : isBid (newOrderOf f ref (timestampOf f) side) = d := by
    rw [hside]
    cases d <;> rfl
  have hcheck := @InStep.checks _ _ _ _ _ _ h (newOrderOf f ref (timestampOf f) side) rfl
    (by rw [newOrderOf, hside]; cases d <;> simp) hjoins.ref_ne hjoins.shares htimestamp
    hjoins.price hjoins.fresh hnews
  have hshown := h.shown d (priceOf f).toNat
  obtain ⟨market', hanswer, hbecomes⟩ := submit_enters hcheck rfl hjoins.shares
    (by rw [h.displayed, hbid]; exact hjoins.uncrossed)
    (by rw [hbid]; exact h.grid d _ hpriced)
    (by
      rw [hbid]
      change (marketOf s.engine).shown d (priceOf f).toNat + (sharesOf f).toNat ≤ _
      omega)
  rw [h.displayed, hbid] at hbecomes
  exact h.submits label hanswer hbecomes

theorem InStep.cancels (h : InStep hash prices s venue news added) {id : OrderId} (hid : id ≠ 0)
    (label : Label) : Leads (submit hash hosts index f label (.cancel ⟨id⟩)) s fun _ s' =>
      InStep hash prices s' (withdraw venue id) news added ∧ Kept s s' := by
  obtain ⟨market', hanswer, hbecomes⟩ := @cancel_withdraws (marketOf s.engine) ⟨id⟩ hid
  have hanswer' : (marketOf s.engine).answer (.cancel ⟨id⟩) = { market := market' } := hanswer
  rw [h.displayed] at hbecomes
  exact h.submits label hanswer' hbecomes

/-- A row that is no execution: its events leave the replay displaying what the venue does. -/
theorem InStep.message (h : InStep hash prices s venue news added) (htells : Tells venue f venue')
    {msg : UInt8} (hmsg : msgOf f = some msg)
    (hrefs : ∀ d, ∀ x ∈ venue d, x.orderId ≠ 0)
    (hpriced : addedRef f ≠ none → priceOf f ≠ 0 → priceOf f ∈ prices)
    (htimestamp : timestampOf f ≠ 0) (hnews : news < 2 ^ 64 - 1)
    (hadded : added + addedShares f < 2 ^ 64) :
    Leads (replayMessage hash hosts index f (timestampOf f) msg) s fun _ s' =>
      InStep hash prices s' venue' (news + 1) (added + addedShares f) ∧ Kept s s' := by
  cases htells with
  | @adds d hmsg' hside hjoins =>
    have hadds : msg = ascii 'A' ∨ msg = ascii 'F' := by
      simpa only [hmsg, Option.some.injEq] using hmsg'
    have href : addedRef f = some (refOf f) := by simp only [addedRef, hmsg, if_pos hadds]
    have hshares : addedShares f = (sharesOf f).toNat := by
      rw [addedShares, href, if_neg (by simp)]
    have hd : (if (field f .Side).head? = some (ascii 'B') then OrderSide.buy else .sell) =
        if d then .buy else .sell := by
      rw [hside]
      cases d <;> rfl
    rw [hshares] at hadded ⊢
    unfold replayMessage
    rw [if_pos hadds]
    exact h.joins hjoins (hpriced (by simp [href]) hjoins.price) htimestamp hnews hadded hd .NEW
  | @deletes d x hmsg' hx hid =>
    obtain rfl : msg = ascii 'D' := Option.some.inj (hmsg.symm.trans hmsg')
    unfold replayMessage
    rw [if_neg (by decide), if_pos rfl]
    refine (h.cancels (hid ▸ hrefs d x hx) .CANCEL).weaken fun _ s' hs' => ?_
    exact ⟨hs'.1.mono (Nat.le_succ _) (Nat.le_add_right _ _), hs'.2⟩
  | @reduces d x hmsg' hx hid hlt =>
    obtain rfl : msg = ascii 'X' := Option.some.inj (hmsg.symm.trans hmsg')
    obtain ⟨p, hp, hrun, hremaining, -, hsame⟩ := h.finds hx
    rw [hid] at hrun hsame
    have hless : sharesOf f < (s.engine.orderBook.memory p).remainingQuantity := by
      rw [UInt64.lt_iff_toNat_lt, hremaining]
      exact hlt
    have hleft : ((s.engine.orderBook.memory p).remainingQuantity - sharesOf f).toNat =
        x.shares - (sharesOf f).toNat := by
      rw [UInt64.toNat_sub_of_le _ _ (UInt64.le_of_lt hless), hremaining]
    obtain ⟨market', hanswer, hbecomes⟩ := @reduce_reduces (marketOf s.engine)
      ⟨refOf f, (s.engine.orderBook.memory p).remainingQuantity - sharesOf f⟩ (sharesOf f).toNat
      (hid ▸ hrefs d x hx)
      (by
        intro hzero
        have hnone : ((s.engine.orderBook.memory p).remainingQuantity - sharesOf f).toNat = 0 :=
          congrArg UInt64.toNat hzero
        omega)
      (by
        intro d' y hy hyid
        rw [h.displayed] at hy
        have hy' := hsame d' y hy hyid
        change y.shares = ((s.engine.orderBook.memory p).remainingQuantity - sharesOf f).toNat + _
        omega)
    have hanswer' : (marketOf s.engine).answer (.reduce ⟨refOf f,
        (s.engine.orderBook.memory p).remainingQuantity - sharesOf f⟩) = { market := market' } :=
      hanswer
    rw [h.displayed] at hbecomes
    unfold replayMessage
    rw [if_neg (by decide), if_neg (by decide), if_pos rfl]
    refine .of_run hrun ?_
    rw [if_pos hp]
    refine .of_run (Proc.get_apply s) ?_
    rw [if_pos hless]
    refine (h.submits .REDUCE hanswer' hbecomes).weaken fun _ s' hs' => ?_
    exact ⟨hs'.1.mono (Nat.le_succ _) (Nat.le_add_right _ _), hs'.2⟩
  | @replaces d x hmsg' hx hid hjoins =>
    obtain rfl : msg = ascii 'U' := Option.some.inj (hmsg.symm.trans hmsg')
    have href : addedRef f = some (newRefOf f) := by
      simp only [addedRef, hmsg]
      rfl
    have hshares : addedShares f = (sharesOf f).toNat := by
      rw [addedShares, href, if_neg (by simp)]
    obtain ⟨p, hp, hrun, -, hside, -⟩ := h.finds hx
    rw [hid] at hrun
    rw [hshares] at hadded ⊢
    unfold replayMessage
    rw [if_neg (by decide), if_neg (by decide), if_neg (by decide), if_pos rfl]
    refine .of_run hrun ?_
    rw [if_pos hp]
    refine .of_run (Proc.get_apply s) ?_
    refine (h.cancels (hid ▸ hrefs d x hx) .CANCEL).bind (fun _ => appends_submit _ _ _ _ _ _) ?_
    intro _ s₁ hs₁
    refine (hs₁.1.joins hjoins (hpriced (by simp [href]) hjoins.price) htimestamp hnews hadded
      hside .NEW).weaken fun _ s' hs' => ?_
    exact ⟨hs'.1, hs₁.2.trans hs'.2⟩
  | other hmsg' =>
    have hnot := hmsg' msg hmsg
    simp only [eventMessages, List.mem_cons, List.not_mem_nil, or_false, not_or] at hnot
    obtain ⟨hA, hF, hD, hX, hU, -, -⟩ := hnot
    unfold replayMessage
    rw [if_neg (by tauto), if_neg hD, if_neg hX, if_neg hU]
    exact leads_pure ⟨h.mono (Nat.le_succ _) (Nat.le_add_right _ _), .refl s⟩

/-- An execution has no event of its own. -/
theorem replayMessage_executed {msg : UInt8} (hmsg : msg = ascii 'E' ∨ msg = ascii 'C')
    (timestamp : Timestamp) : replayMessage hash hosts index f timestamp msg = pure () := by
  unfold replayMessage
  rcases hmsg with rfl | rfl
  · rw [if_neg (by decide), if_neg (by decide), if_neg (by decide), if_neg (by decide)]
  · rw [if_neg (by decide), if_neg (by decide), if_neg (by decide), if_neg (by decide)]

end Steps

section Rows

variable {hash : OrderId → UInt64} {hosts : ℕ → OrderPools.Host} {prices : Set UInt64}
  {s : Replay} {venue venue' : Venue} {news added : ℕ} {index : ℕ} {f : Row} {rows : List Row}

theorem appends_inject (timestamp : Timestamp) (aggs : List AggressorEvent) :
    Appends (inject hash hosts index f timestamp aggs) := by
  induction aggs with
  | nil => exact appends_pure ()
  | cons agg aggs ih =>
    refine appends_get.bind fun s => Appends.bind (appends_modify ?_) fun _ => ?_
    · exact fun _ => rfl
    · exact (appends_submit _ _ _ _ _ _).caught.bind fun _ => ih

theorem appends_message (timestamp : Timestamp) (msg : UInt8) :
    Appends (replayMessage hash hosts index f timestamp msg) := by
  unfold replayMessage
  refine .ite (appends_submit _ _ _ _ _ _) (.ite (appends_submit _ _ _ _ _ _) (.ite ?_ (.ite ?_
    (appends_pure ()))))
  · refine (appends_book _).bind fun existing => .ite (appends_get.bind fun s => ?_)
      (appends_pure ())
    exact .ite (appends_submit _ _ _ _ _ _) (appends_submit _ _ _ _ _ _)
  · refine (appends_book _).bind fun existing => .ite (appends_get.bind fun s => ?_)
      (appends_pure ())
    exact (appends_submit _ _ _ _ _ _).bind fun _ => appends_submit _ _ _ _ _ _

theorem appends_row (f : Row) : Appends (replayRow hash hosts index f) := by
  unfold replayRow
  cases msgOf f with
  | none => exact appends_pure ()
  | some msg =>
    refine appends_get.bind fun s => (appends_inject _ _).bind fun _ => ?_
    refine Appends.bind (appends_modify ?_) fun _ => (appends_message _ _).caught
    exact fun _ => rfl

theorem appends_rows (index : ℕ) (rows : List Row) :
    Appends (replayRows hash hosts index rows) := by
  induction rows generalizing index with
  | nil => exact appends_pure ()
  | cons f rows ih => exact (appends_row f).bind fun _ => ih (index + 1)

/-- An identifier of an aggressor is not a reference. -/
theorem synthetic_fresh (hrefs : Referenced venue) {counter : UInt64}
    (hcounter : counter.toNat < 2 ^ 63) :
    SyntheticIdBase + counter ≠ 0 ∧ ∀ d, ∀ x ∈ venue d, x.orderId ≠ SyntheticIdBase + counter := by
  have hbase : SyntheticIdBase.toNat = 2 ^ 62 := rfl
  have hsum : (SyntheticIdBase + counter).toNat = 2 ^ 62 + counter.toNat := by
    rw [UInt64.toNat_add, hbase, Nat.mod_eq_of_lt (by omega)]
  constructor
  · intro hzero
    rw [hzero] at hsum
    change 0 = _ at hsum
    omega
  · intro d x hx heq
    have hlt := UInt64.lt_iff_toNat_lt.mp (hrefs d x hx).2
    rw [heq, hsum, hbase] at hlt
    omega

/-- The aggressor of a moment takes what the venue has executed. -/
theorem InStep.injects (h : InStep hash prices s venue news added) {d : Bool}
    {uses : List (Listing × ℕ)} {left : List Listing} {aggs : List AggressorEvent}
    (hdue : Due d uses aggs)
    (huses : Uses Listing.shares Listing.withShares (venue d) uses left)
    (hrefs : Referenced venue) (htimestamp : timestampOf f ≠ 0) (hnews : news < 2 ^ 64 - 1)
    (hcounter : s.syntheticIdCounter.toNat < 2 ^ 63) :
    Leads (inject hash hosts index f (timestampOf f) aggs) s fun _ s' =>
      InStep hash prices s' (Function.update venue d left) (news + 1) added ∧
        s'.aggressorsByTs = s.aggressorsByTs ∧
        s'.syntheticIdCounter.toNat ≤ s.syntheticIdCounter.toNat + aggs.length := by
  cases hdue with
  | none hnil =>
    subst hnil
    rw [huses.eq_of_nil, Function.update_eq_self]
    exact leads_pure ⟨h.mono (Nat.le_succ _) le_rfl, rfl, le_rfl⟩
  | @one agg hne hside hquantity hprice hmeets =>
    obtain ⟨hid, hfresh⟩ := synthetic_fresh hrefs hcounter
    let order := aggressorOrder (SyntheticIdBase + s.syntheticIdCounter) (timestampOf f) agg
    have hbid : isBid order = !d := by
      change decide (agg.side = .buy) = !d
      rw [hside]
      cases d <;> rfl
    have hpositive : order.quantity ≠ 0 := by
      intro hzero
      rw [show agg.quantity = 0 from hzero] at hquantity
      exact huses.sum_pos hne hquantity.symm
    let s₁ : Replay := { s with syntheticIdCounter := s.syntheticIdCounter + 1 }
    have h₁ : InStep hash prices s₁ venue news added := { h with }
    have hlisted : order.orderSide = .buy ∨ order.orderSide = .sell := by
      change agg.side = _ ∨ agg.side = _
      rw [hside]
      cases d <;> simp
    have hcheck : (marketOf s₁.engine).checkOrder order = .ok () :=
      h₁.checks rfl hlisted hid hpositive htimestamp hprice hfresh hnews
    have huses' : Uses Listing.shares Listing.withShares
        (Venues.displayed (marketOf s₁.engine) (!isBid order)) uses left := by
      rw [h₁.displayed, hbid, Bool.not_not]
      exact huses
    obtain ⟨market', trades, hanswer, hbecomes⟩ := submit_takes hcheck huses' hquantity
      fun use huse => by rw [hbid]; exact hmeets use huse
    have hanswer' : (marketOf s₁.engine).answer (.new order) = { trades, market := market' } :=
      hanswer
    rw [h₁.displayed, hbid, Bool.not_not] at hbecomes
    have hadvanced : s₁.syntheticIdCounter.toNat ≤ s.syntheticIdCounter.toNat + 1 := by
      change (s.syntheticIdCounter + 1).toNat ≤ _
      rw [UInt64.toNat_add]
      exact Nat.mod_le _ _
    refine .of_run (Proc.get_apply s) (.of_run (Proc.modify_apply s _) ?_)
    refine Leads.bind (h₁.submits .AGGR hanswer' hbecomes).caught (fun _ => appends_inject _ []) ?_
    rintro _ s' ⟨hs', hkept⟩
    exact leads_pure ⟨hs', hkept.pending, hkept.counter ▸ hadvanced⟩

/-- A row with a message type: the aggressors of its time, and then its own events. -/
theorem leads_row {msg : UInt8} (hmsg : msgOf f = some msg) {Good Good' : Replay → Prop}
    (hinject : Leads (inject hash hosts index f (timestampOf f) (s.aggressorsByTs (tsOf f))) s
      fun _ s' => Good { s' with aggressorsByTs := Function.update s'.aggressorsByTs (tsOf f) [] })
    (hmessage : ∀ s', Good s' → Leads (replayMessage hash hosts index f (timestampOf f) msg) s'
      fun _ s'' => Good' s'') :
    Leads (replayRow hash hosts index f) s fun _ s' => Good' s' := by
  unfold replayRow
  rw [hmsg]
  refine .of_run (Proc.get_apply s) (hinject.bind (fun _ => ?_) fun _ s' hs' => ?_)
  · refine Appends.bind (appends_modify ?_) fun _ => (appends_message _ _).caught
    exact fun _ => rfl
  · exact .of_run (Proc.modify_apply s' _) (hmessage _ hs').caught

/-- What a row does to the venue when its executions have been taken already. -/
inductive Effect (venue : Venue) (f : Row) : Venue → Prop
  | tells {venue' : Venue} (htells : Tells venue f venue') : Effect venue f venue'
  | executes (hmsg : msgOf f = some (ascii 'E') ∨ msgOf f = some (ascii 'C')) :
      Effect venue f venue

inductive Effects : Venue → List Row → Venue → Prop
  | nil {venue : Venue} : Effects venue [] venue
  | cons {venue venue' venue'' : Venue} {f : Row} {rows : List Row} (hfirst : Effect venue f venue')
      (hrest : Effects venue' rows venue'') : Effects venue (f :: rows) venue''

/-- The row has a timestamp, and an order of it a price of the ladder. -/
structure Fine (prices : Set UInt64) (f : Row) : Prop where
  timestamp : timestampOf f ≠ 0
  priced : addedRef f ≠ none → priceOf f ≠ 0 → priceOf f ∈ prices

/-- The events of a row. -/
theorem InStep.effect (h : InStep hash prices s venue news added) (heffect : Effect venue f venue')
    {msg : UInt8} (hmsg : msgOf f = some msg) (hrefs : Referenced venue) (hfine : Fine prices f)
    (hnews : news < 2 ^ 64 - 1) (hadded : added + addedShares f < 2 ^ 64) :
    Leads (replayMessage hash hosts index f (timestampOf f) msg) s fun _ s' =>
      InStep hash prices s' venue' (news + 1) (added + addedShares f) ∧ Kept s s' := by
  cases heffect with
  | tells htells =>
    exact h.message htells hmsg (fun d x hx => (hrefs d x hx).1) hfine.priced hfine.timestamp hnews
      hadded
  | executes hexecuted =>
    rw [hmsg, Option.some.injEq, Option.some.injEq] at hexecuted
    rw [replayMessage_executed hexecuted]
    exact leads_pure ⟨h.mono (Nat.le_succ _) (Nat.le_add_right _ _), .refl s⟩

/-- A row without pending aggressors. -/
theorem InStep.quietRow (h : InStep hash prices s venue news added)
    (heffect : Effect venue f venue') (hpending : s.aggressorsByTs (tsOf f) = [])
    (hrefs : Referenced venue) (hfine : Fine prices f) (hnews : news < 2 ^ 64 - 1)
    (hadded : added + addedShares f < 2 ^ 64) :
    Leads (replayRow hash hosts index f) s fun _ s' =>
      InStep hash prices s' venue' (news + 1) (added + addedShares f) ∧ Kept s s' := by
  cases hmsg : msgOf f with
  | none =>
    have hsame : venue' = venue := by
      cases heffect with
      | executes => rfl
      | tells htells =>
        cases htells with
        | other => rfl
        | adds hmsg' _ _ => simp [hmsg] at hmsg'
        | deletes hmsg' _ _ | reduces hmsg' _ _ _ | replaces hmsg' _ _ _ => simp [hmsg] at hmsg'
    rw [replayRow, hmsg, hsame]
    exact leads_pure ⟨h.mono (Nat.le_succ _) (Nat.le_add_right _ _), .refl s⟩
  | some msg =>
    have hsame : ({ s with aggressorsByTs := Function.update s.aggressorsByTs (tsOf f) [] } :
        Replay) = s := by
      rw [← hpending, Function.update_eq_self]
    refine @leads_row hash hosts s index f msg hmsg (fun s' => s' = s) _ ?_ ?_
    · rw [hpending]
      exact leads_pure hsame
    · rintro s' rfl
      exact h.effect heffect hmsg hrefs hfine hnews hadded

theorem replayRows_cons {Good : Replay → Prop} {Good' : Unit → Replay → Prop}
    (hfirst : Leads (replayRow hash hosts index f) s fun _ s' => Good s')
    (hrest : ∀ s', Good s' → Leads (replayRows hash hosts (index + 1) rows) s' Good') :
    Leads (replayRows hash hosts index (f :: rows)) s Good' :=
  hfirst.bind (fun _ => appends_rows _ _) fun _ s' hs' => hrest s' hs'

/-- Rows without pending aggressors. -/
theorem InStep.effects (heffects : Effects venue rows venue')
    (h : InStep hash prices s venue news added)
    (hpending : ∀ f ∈ rows, s.aggressorsByTs (tsOf f) = []) (hrefs : Referenced venue)
    (hfine : ∀ f ∈ rows, Fine prices f) (hnews : news + rows.length < 2 ^ 64)
    (hadded : added + (rows.map addedShares).sum < 2 ^ 64) :
    Leads (replayRows hash hosts index rows) s fun _ s' =>
      InStep hash prices s' venue' (news + rows.length) (added + (rows.map addedShares).sum) ∧
        Kept s s' := by
  induction heffects generalizing s news added index with
  | nil => exact leads_pure ⟨h, .refl s⟩
  | @cons venue venue₁ venue' f rows hfirst _ ih =>
    obtain ⟨hpending₁, hpendings⟩ := List.forall_mem_cons.mp hpending
    obtain ⟨hfine₁, hfines⟩ := List.forall_mem_cons.mp hfine
    rw [List.length_cons] at hnews ⊢
    rw [List.map_cons, List.sum_cons] at hadded ⊢
    have hrefs₁ : Referenced venue₁ := by
      cases hfirst with
      | tells htells => exact hrefs.tells htells
      | executes => exact hrefs
    refine replayRows_cons (h.quietRow hfirst hpending₁ hrefs hfine₁ (by omega) (by omega)) ?_
    rintro s₁ ⟨hs₁, hkept⟩
    refine (ih hs₁ ?_ hrefs₁ hfines (by omega) (by omega)).weaken fun _ s' hs' => ?_
    · intro f hf
      rw [hkept.pending]
      exact hpendings f hf
    · exact ⟨hs'.1.mono (by omega) (by omega), hkept.trans hs'.2⟩

theorem effects_append {rows' : List Row} {venue'' : Venue} (h : Effects venue rows venue')
    (h' : Effects venue' rows' venue'') : Effects venue (rows ++ rows') venue'' := by
  induction h with
  | nil => exact h'
  | cons hfirst _ ih => exact .cons hfirst (ih h')

theorem effects_told (h : Told venue rows venue') : Effects venue rows venue' := by
  induction h with
  | nil => exact .nil
  | cons hfirst _ ih => exact .cons (.tells hfirst) ih

theorem effects_executed {uses : List (Listing × ℕ)} (h : List.Forall₂ Reports rows uses) :
    Effects venue rows venue := by
  induction h with
  | nil => exact .nil
  | cons hfirst _ ih => exact .cons (.executes (hfirst.msg.imp_right And.left)) ih

/-- The rows of a moment: the first executed one submits the aggressor that is due. -/
theorem InStep.moment {ts : UInt64} {executed quotes : List Row} {d : Bool}
    {uses : List (Listing × ℕ)} {left : List Listing}
    (h : InStep hash prices s venue news added)
    (hdue : Due d uses (s.aggressorsByTs ts)) (hexecuted : List.Forall₂ Reports executed uses)
    (huses : Uses Listing.shares Listing.withShares (venue d) uses left)
    (hquotes : Told (Function.update venue d left) quotes venue')
    (htime : ∀ f ∈ executed ++ quotes, tsOf f = ts) (hrefs : Referenced venue)
    (hfine : ∀ f ∈ executed ++ quotes, Fine prices f)
    (hnews : news + (executed ++ quotes).length < 2 ^ 64)
    (hadded : added + ((executed ++ quotes).map addedShares).sum < 2 ^ 64)
    (hcounter : s.syntheticIdCounter.toNat < 2 ^ 63) :
    Leads (replayRows hash hosts index (executed ++ quotes)) s fun _ s' =>
      InStep hash prices s' venue' (news + (executed ++ quotes).length)
        (added + ((executed ++ quotes).map addedShares).sum) ∧
      s'.aggressorsByTs = Function.update s.aggressorsByTs ts [] ∧
      s'.syntheticIdCounter.toNat ≤ s.syntheticIdCounter.toNat + (executed ++ quotes).length := by
  have hrefs' : Referenced (Function.update venue d left) := by
    intro side y hy
    rw [Function.update_apply] at hy
    split_ifs at hy with hd
    · subst hd
      have hpicture := ((huses.picture (g := fun z => z.orderId) fun _ _ => rfl).1).subset
        (List.mem_map_of_mem hy)
      obtain ⟨x, hx, heq⟩ := List.mem_map.mp hpicture
      rw [← heq]
      exact hrefs side x hx
    · exact hrefs side y hy
  cases hdue' : s.aggressorsByTs ts with
  | nil =>
    rw [hdue'] at hdue
    cases hdue with
    | none hnil =>
      subst hnil
      have heffects := effects_append (effects_executed hexecuted) (effects_told hquotes)
      rw [huses.eq_of_nil, Function.update_eq_self] at heffects
      refine (InStep.effects heffects h ?_ hrefs hfine hnews hadded).weaken fun _ s' hs' => ?_
      · intro f hf
        rw [htime f hf, hdue']
      · refine ⟨hs'.1, ?_, hs'.2.counter ▸ Nat.le_add_right _ _⟩
        rw [hs'.2.pending, ← hdue', Function.update_eq_self]
  | cons agg aggs =>
    have hone : aggs = [] ∧ uses ≠ [] := by
      rw [hdue'] at hdue
      cases hdue with
      | one hne => exact ⟨rfl, hne⟩
    obtain ⟨rfl, hne⟩ := hone
    cases hexecuted with
    | nil => exact absurd rfl hne
    | @cons f use fs uses hfirst hrest =>
      obtain ⟨hts, htimes⟩ := List.forall_mem_cons.mp htime
      obtain ⟨hfine₁, hfines⟩ := List.forall_mem_cons.mp hfine
      rw [List.cons_append, List.length_cons] at hnews ⊢
      rw [List.cons_append, List.map_cons, List.sum_cons] at hadded
      rw [List.map_cons, List.sum_cons]
      have hmsg := hfirst.msg.imp_right And.left
      obtain ⟨msg, hsome⟩ : ∃ msg, msgOf f = some msg := by
        rcases hmsg with hmsg | hmsg <;> exact ⟨_, hmsg⟩
      rw [hsome, Option.some.injEq, Option.some.injEq] at hmsg
      rw [← hts] at hdue hdue' ⊢
      let Good : Replay → Prop := fun s' =>
        InStep hash prices s' (Function.update venue d left) (news + 1) added ∧
          s'.aggressorsByTs = Function.update s.aggressorsByTs (tsOf f) [] ∧
          s'.syntheticIdCounter.toNat ≤ s.syntheticIdCounter.toNat + 1
      have hrow : Leads (replayRow hash hosts index f) s fun _ s' => Good s' := by
        refine @leads_row hash hosts s index f msg hsome Good _ ?_ fun s' hs' => ?_
        · refine (h.injects hdue huses hrefs hfine₁.timestamp (by omega) hcounter).weaken ?_
          rintro _ s' ⟨hs', hpending, hcounter'⟩
          rw [hdue'] at hcounter'
          exact ⟨{ hs' with }, congrArg (Function.update · (tsOf f) []) hpending, hcounter'⟩
        · rw [replayMessage_executed hmsg]
          exact leads_pure hs'
      refine replayRows_cons hrow ?_
      rintro s₁ ⟨hs₁, hpending₁, hcounter₁⟩
      have heffects := effects_append (effects_executed hrest) (effects_told hquotes)
      refine (InStep.effects heffects hs₁ ?_ hrefs' hfines (by omega) (by omega)).weaken
        fun _ s' hs' => ?_
      · intro g hg
        rw [hpending₁, htimes g hg, ← hts, Function.update_self]
      · refine ⟨hs'.1.mono (by omega) (by omega), hs'.2.pending.trans hpending₁, ?_⟩
        rw [hs'.2.counter]
        omega

end Rows

section Sessions

variable {hash : OrderId → UInt64} {hosts : ℕ → OrderPools.Host} {prices : Set UInt64}
  {s : Replay} {venue venue' : Venue} {news added : ℕ} {index : ℕ} {visited : List Entry}

theorem replayRows_append (rows rows' : List Row) (index : ℕ) (s : Replay) :
    replayRows hash hosts index (rows ++ rows') s =
      (replayRows hash hosts index rows >>= fun _ =>
        replayRows hash hosts (index + rows.length) rows') s := by
  induction rows generalizing index s with
  | nil => rfl
  | cons f rows ih =>
    have hlength : index + (f :: rows).length = index + 1 + rows.length := by
      rw [List.length_cons]
      omega
    change (replayRow hash hosts index f >>= fun _ =>
      replayRows hash hosts (index + 1) (rows ++ rows')) s = ((replayRow hash hosts index f >>=
        fun _ => replayRows hash hosts (index + 1) rows) >>= _) s
    rw [hlength, Proc.bind_apply, Proc.bind_apply, Proc.bind_apply]
    generalize replayRow hash hosts index f s = result
    obtain ⟨o, s'⟩ := result
    cases o with
    | returns => exact ih (index + 1) s'
    | throws | diverges => rfl

/-- The moments of a session, behind the rows in front of it. -/
theorem InStep.session {front back : List Row} {moments : List Moment}
    (hsession : Session venue moments venue') (h : InStep hash prices s venue news added)
    (hknown : Known front venue) (hshares : ∀ d, sharesIn venue d ≤ added)
    (hlisted : SidesListed (front ++ rowsOf moments ++ back))
    (htimes : ∀ f ∈ front ++ rowsOf moments ++ back, (tsOf f).toNat < 2 ^ 63)
    (hvisited : visited.Perm (passOne (front ++ rowsOf moments ++ back)).aggregates.entries)
    (hapart : (moments.map Moment.ts).Nodup)
    (hfront : ∀ m ∈ moments, ∀ f ∈ front, tsOf f ≠ m.ts)
    (hback : ∀ m ∈ moments, ∀ f ∈ back, tsOf f ≠ m.ts)
    (hpending : ∀ m ∈ moments, s.aggressorsByTs m.ts = regroup visited m.ts)
    (hpriced : ∀ f ∈ rowsOf moments, addedRef f ≠ none → priceOf f ≠ 0 → priceOf f ∈ prices)
    (hnews : news + (rowsOf moments).length < 2 ^ 64)
    (hadded : added + ((rowsOf moments).map addedShares).sum < 2 ^ 64)
    (hcounter : s.syntheticIdCounter.toNat + (rowsOf moments).length < 2 ^ 63) :
    Leads (replayRows hash hosts index (rowsOf moments)) s fun _ s' =>
      InStep hash prices s' venue' (news + (rowsOf moments).length)
        (added + ((rowsOf moments).map addedShares).sum) := by
  induction hsession generalizing s front news added index with
  | nil => exact leads_pure h
  | @cons venue venue₁ venue' m moments hfirst hrest ih =>
    obtain ⟨ts, executed, quotes⟩ := m
    have hrowtime := hrest.time
    cases hfirst with
    | @intro d uses left _ hexecuted huses hquotes htime =>
      obtain ⟨hnotin, hapart'⟩ := List.nodup_cons.mp hapart
      obtain ⟨hfront₁, hfronts⟩ := List.forall_mem_cons.mp hfront
      obtain ⟨hback₁, hbacks⟩ := List.forall_mem_cons.mp hback
      obtain ⟨hpending₁, hpendings⟩ := List.forall_mem_cons.mp hpending
      dsimp only [Moment.rows] at hnotin hfront₁ hback₁ hpending₁ hexecuted hquotes htime
      have hts : ∀ f ∈ executed ++ quotes, tsOf f = ts := fun f hf => (htime f hf).1
      rw [rowsOf_cons] at hlisted htimes hvisited hpriced hnews hadded hcounter ⊢
      dsimp only at hlisted htimes hvisited hpriced hnews hadded hcounter ⊢
      rw [List.length_append] at hnews hcounter ⊢
      rw [List.map_append, List.sum_append] at hadded ⊢
      obtain ⟨hpriced₁, hpriceds⟩ := List.forall_mem_append.mp hpriced
      -- what the first pass has collected for the moment
      obtain ⟨hgroup, hknown₁⟩ := hknown.executed rfl huses hexecuted fun f hf =>
        hts f (List.mem_append_left _ hf)
      obtain ⟨hnone, hknown₂⟩ := hknown₁.told hquotes
      have hall : executionsFrom front (executed ++ quotes) = executionsFrom front executed := by
        rw [executionsFrom_concat, hnone, List.append_nil]
      rw [← hall] at hgroup
      have hsum := sum_uses huses
      have hside := hshares d
      unfold sharesIn at hside
      have hlater : ∀ f ∈ rowsOf moments ++ back, tsOf f ≠ ts := by
        refine List.forall_mem_append.mpr ⟨fun f hf heq => ?_, hback₁⟩
        obtain ⟨⟨m', hm', hts'⟩, -⟩ := hrowtime f hf
        exact hnotin (List.mem_map.mpr ⟨m', hm', hts'.symm.trans heq⟩)
      have hsplit : front ++ (executed ++ quotes ++ rowsOf moments) ++ back =
          front ++ (executed ++ quotes) ++ (rowsOf moments ++ back) := by
        simp only [List.append_assoc]
      have hsplit' : front ++ (executed ++ quotes ++ rowsOf moments) ++ back =
          front ++ (executed ++ quotes) ++ rowsOf moments ++ back := by
        simp only [List.append_assoc]
      have hdue : Due d uses (s.aggressorsByTs ts) := by
        rw [hpending₁]
        refine due_moment (hsplit ▸ hlisted) (hsplit ▸ htimes) (hsplit ▸ hvisited) hfront₁ hlater
          hgroup (by omega) fun use huse => ?_
        have hpicture := (huses.picture (g := fun z => z.price) fun _ _ => rfl).2 use huse
        obtain ⟨x, hx, heq⟩ := List.mem_map.mp hpicture
        rw [← heq]
        exact hknown.priced d x hx
      have hmoment := @InStep.moment hash hosts prices s venue venue₁ news added index ts executed
        quotes d uses left h hdue hexecuted huses hquotes hts hknown.ref
        (fun f hf => ⟨(htime f hf).2, hpriced₁ f hf⟩) (by omega) (by omega) (by omega)
      unfold Leads
      rw [replayRows_append]
      refine hmoment.bind (fun _ => appends_rows _ _) ?_
      rintro _ s₁ ⟨hs₁, hpending', hcounter'⟩
      have hknown' : Known (front ++ (executed ++ quotes)) venue₁ := by
        rwa [← List.append_assoc]
      have hshares' : ∀ side, sharesIn venue₁ side ≤
          added + ((executed ++ quotes).map addedShares).sum := by
        intro side
        have htold := sharesIn_told hquotes side
        have hused := sharesIn_executed huses side
        have hle := hshares side
        rw [List.map_append, List.sum_append]
        omega
      refine (ih hs₁ hknown' hshares' (hsplit' ▸ hlisted) (hsplit' ▸ htimes) (hsplit' ▸ hvisited)
        hapart' (fun m' hm' => List.forall_mem_append.mpr ⟨hfronts m' hm', fun f hf heq => ?_⟩)
        hbacks (fun m' hm' => ?_) hpriceds (by omega) (by omega) (by omega)).weaken
        fun _ s' hs' => hs'.mono (by omega) (by omega)
      · rw [hts f hf] at heq
        exact hnotin (List.mem_map.mpr ⟨m', hm', heq.symm⟩)
      · have hne : m'.ts ≠ ts := fun heq => hnotin (List.mem_map.mpr ⟨m', hm', heq⟩)
        rw [hpending', Function.update_of_ne hne]
        exact hpendings m' hm'

end Sessions

section Sessions

variable {setting : Setting} {text : Text} {book : OrderBook}

/-- The prices of a file are prices of the ladder when the headroom is a whole number of ticks. -/
theorem noted_onGrid (htick : setting.tick ≠ 0)
    (hmultiples : ∀ p ∈ noted (dataRows text), setting.tick.toNat ∣ p.toNat)
    (hwhole : setting.tick.toNat ∣ (scaledSpan setting text).toNat)
    (hroom : (passOne (dataRows text)).range.maxPriceRaw.toNat + (scaledSpan setting text).toNat +
      setting.tick.toNat < 2 ^ 64) {p : UInt64} (hp : p ∈ noted (dataRows text)) :
    p ∈ Grid (sizeOf setting text).ladderMin setting.tick (sizeOf setting text).levelCount := by
  have hrange := range_extends (dataRows text)
  obtain ⟨hlo, hhi⟩ := hrange.extremes_mem (List.ne_nil_of_mem hp) fun q hq => noted_ne hq
  obtain ⟨-, -, -, hgrid⟩ :=
    ladderSize_spec htick (noted_ne hlo) (hrange.below _ hhi) (hmultiples _ hlo) hroom
  exact (hgrid p (hrange.below p hp) (hrange.above p hp) (hmultiples p hp)).mpr (.inr hwhole)

/-- The second pass starts with an empty market. -/
theorem openBook_market {scan : Scan}
    (hopen : openBook setting scan = (.returns (), some book)) : ∃ size : LadderSizes.LadderSize,
      marketOf ⟨setting.currentSequence, book, []⟩ =
        newMarket size.ladderMin setting.tick size.levelCount setting.currentSequence := by
  obtain ⟨made, hmake, hreserve⟩ := openBook_made hopen
  exact ⟨_, marketOf_reserved hmake hreserve _⟩

/-- The second pass starts with what a venue displays before its first message. -/
theorem inStep_opened
    (hopen : openBook setting (passOne (dataRows text)) = (.returns (), some book))
    (hlisted : ∀ p ∈ noted (dataRows text),
      p ∈ Grid (sizeOf setting text).ladderMin setting.tick (sizeOf setting text).levelCount)
    (visited : List Entry) :
    InStep setting.hash {p | p ∈ noted (dataRows text)}
      { aggressorsByTs := regroup visited, engine := ⟨setting.currentSequence, book, []⟩ }
      (fun _ => []) setting.currentSequence.toNat 0 := by
  obtain ⟨size, hmarket⟩ := openBook_market hopen
  have hsides : ∀ d, (marketOf ⟨setting.currentSequence, book, []⟩).book.side d = [] := by
    intro d
    rw [hmarket]
    cases d <;> rfl
  refine ⟨openBook_sound hopen, ?_, le_rfl, fun d price => ?_, fun d p hp => ?_, by simp⟩
  · funext d
    rw [displayed, hsides]
    rfl
  · have hnone : (marketOf ⟨setting.currentSequence, book, []⟩).surplus d price = 0 := by
      rw [hmarket]
      rfl
    unfold Market.shown
    rw [hsides]
    exact Nat.le_of_eq hnone
  · have hgrid := openBook_grid hopen d
    obtain ⟨index, hindex⟩ := (hgrid.addresses.accepts p).mpr (hlisted p hp)
    change (gridOf (book.ladder d)).check p.toNat = .ok ()
    rw [check_gridOf hgrid.configured, hindex]
    rfl

/-- The second pass over the first rows of a file, with the aggressors of the whole file. -/
def passBehind (setting : Setting) (text : Text) (book : OrderBook) (rows : List Row) :
    Outcome StdException Unit × Replay :=
  passTwo setting.hash setting.hosts (setting.visit (passOne (dataRows text)).aggregates.entries)
    rows setting.currentSequence book

/-- When no host refuses memory, the tool replays a session of a price-time venue without a failing
event, and behind every moment its book displays what the venue displays. The ladder has whole
ticks and fits in the word, and no counter wraps. -/
theorem replay_displays (hvisit : ∀ entries, (setting.visit entries).Perm entries)
    {moments : List Moment} (hrows : dataRows text = rowsOf moments) {venue : Venue}
    (hsession : Session (fun _ => []) moments venue) (hapart : (moments.map Moment.ts).Nodup)
    (htimes : ∀ f ∈ dataRows text, (tsOf f).toNat < 2 ^ 63) (htick : setting.tick ≠ 0)
    (hmultiples : ∀ p ∈ noted (dataRows text), setting.tick.toNat ∣ p.toNat)
    (hwhole : setting.tick.toNat ∣ (scaledSpan setting text).toNat)
    (hroom : (passOne (dataRows text)).range.maxPriceRaw.toNat + (scaledSpan setting text).toNat +
      setting.tick.toNat < 2 ^ 64)
    (hcounter : setting.currentSequence.toNat + (dataRows text).length < 2 ^ 63)
    (hshares : ((dataRows text).map addedShares).sum < 2 ^ 64)
    {o : Outcome StdException Unit} {s : Replay} (hrun : itchReplay setting text = .replayed o s)
    (hmemory : ∀ sub ∈ s.submissions, ¬ RefusesMemory sub.outcome) :
    ∃ book, openBook setting (passOne (dataRows text)) = (.returns (), some book) ∧
      passBehind setting text book (dataRows text) = (o, s) ∧
      ∀ before after venue', moments = before ++ after → Session (fun _ => []) before venue' →
        ∃ s', passBehind setting text book (rowsOf before) = (.returns (), s') ∧
          (∀ sub ∈ s'.submissions, ∃ n, sub.outcome = .returns n) ∧
          displayed (marketOf s'.engine) = venue' := by
  obtain ⟨book, hopen, hpass⟩ := itchReplay_replayed hrun
  refine ⟨book, hopen, hpass, fun before after venue' hsplit hbefore => ?_⟩
  subst hsplit
  have hrows' : dataRows text = [] ++ rowsOf before ++ rowsOf after := by
    rw [hrows, List.nil_append]
    exact List.flatMap_append
  have hstart := inStep_opened hopen (fun p hp => noted_onGrid htick hmultiples hwhole hroom hp)
    (setting.visit (passOne (dataRows text)).aggregates.entries)
  have hlength : (rowsOf before).length ≤ (dataRows text).length := by
    rw [hrows', List.nil_append, List.length_append]
    exact Nat.le_add_right _ _
  have hsum : ((rowsOf before).map addedShares).sum ≤ ((dataRows text).map addedShares).sum := by
    rw [hrows', List.nil_append, List.map_append, List.sum_append]
    exact Nat.le_add_right _ _
  rw [List.map_append, List.nodup_append] at hapart
  obtain ⟨hapart₁, -, hacross⟩ := hapart
  obtain ⟨_, -, hafter⟩ := hsession.split
  have hback : ∀ m ∈ before, ∀ f ∈ rowsOf after, tsOf f ≠ m.ts := by
    intro m hm f hf heq
    obtain ⟨⟨m', hm', hts⟩, -⟩ := hafter.time f hf
    exact hacross m.ts (List.mem_map_of_mem hm) m'.ts (List.mem_map_of_mem hm') (heq.symm.trans hts)
  have hpriced : ∀ f ∈ rowsOf before, addedRef f ≠ none → priceOf f ≠ 0 →
      priceOf f ∈ {p | p ∈ noted (dataRows text)} := by
    intro f hf hadded hprice
    obtain ⟨ref, href⟩ := Option.ne_none_iff_exists'.mp hadded
    have hmem : f ∈ dataRows text := by
      rw [hrows']
      exact List.mem_append_left _ (List.mem_append_right _ hf)
    exact (mem_noted (priceOf_mem hmem href {})).resolve_left hprice
  let start : Replay := {
    aggressorsByTs := regroup (setting.visit (passOne (dataRows text)).aggregates.entries)
    engine := ⟨setting.currentSequence, book, []⟩ }
  have hknown : Known [] (fun _ => []) := ⟨by simp, by simp, fun _ => by simp, by simp⟩
  have hleads : Leads (replayRows setting.hash setting.hosts 0 (rowsOf before)) start fun _ s' =>
      InStep setting.hash {p | p ∈ noted (dataRows text)} s' venue'
        (setting.currentSequence.toNat + (rowsOf before).length)
        (0 + ((rowsOf before).map addedShares).sum) :=
    InStep.session hbefore hstart hknown (by simp [sharesIn]) (hrows' ▸ hrows ▸ hsession.listed)
      (hrows' ▸ htimes) (hrows' ▸ hvisit _) hapart₁ (by simp) hback (fun _ _ => rfl) hpriced
      (by omega) (by omega) (by change 0 + _ < _; omega)
  rcases hleads with hrefused | ⟨_, s', hrun', hs'⟩
  · -- the rows behind do not take a refusal back
    have hnever : Leads (replayRows setting.hash setting.hosts 0 (rowsOf before) >>= fun _ =>
        replayRows setting.hash setting.hosts (0 + (rowsOf before).length) (rowsOf after)) start
          fun _ _ => False :=
      Leads.bind (.inl hrefused : Leads _ _ fun _ _ => False) (fun _ => appends_rows _ _)
        fun _ _ h => h.elim
    have hwhole' : replayRows setting.hash setting.hosts 0 (rowsOf before ++ rowsOf after) start =
        (o, s) := by
      change replayRows setting.hash setting.hosts 0 (dataRows text) start = (o, s) at hpass
      rwa [show dataRows text = rowsOf before ++ rowsOf after from hrows'] at hpass
    unfold Leads at hnever
    rw [← replayRows_append, hwhole'] at hnever
    rcases hnever with ⟨sub, hsub, hrefuses⟩ | ⟨_, _, _, hfalse⟩
    · exact absurd hrefuses (hmemory sub hsub)
    · exact hfalse.elim
  · exact ⟨s', hrun', hs'.returned, hs'.displayed⟩

/-- Two offers; a buyer of 16 takes one and part of the other; a bid, a partial cancellation, and
a bid in the place of the first one. -/
def dayText : Text := fileOf [",1,,,A,,,1,S,10,0.0100,,,,", ",2,,,A,,,2,S,10,0.0110,,,,",
  ",3,,,E,,,1,,10,,,,,", ",3,,,E,,,2,,6,,,,,", ",3,,,A,,,3,B,5,0.0090,,,,",
  ",4,,,X,,,2,,1,,,,,", ",5,,,U,,,3,,7,0.0095,4,,,"]

def rowFrom (ts msg ref side shares price newRef : String) : Row :=
  ["", ts, "", "", msg, "", "", ref, side, shares, price, newRef, "", "", ""].map ofString

def dayMoments : List Moment := [
  ⟨1, [], [rowFrom "1" "A" "1" "S" "10" "0.0100" ""]⟩,
  ⟨2, [], [rowFrom "2" "A" "2" "S" "10" "0.0110" ""]⟩,
  ⟨3, [rowFrom "3" "E" "1" "" "10" "" "", rowFrom "3" "E" "2" "" "6" "" ""],
    [rowFrom "3" "A" "3" "B" "5" "0.0090" ""]⟩,
  ⟨4, [], [rowFrom "4" "X" "2" "" "1" "" ""]⟩,
  ⟨5, [], [rowFrom "5" "U" "3" "" "7" "0.0095" "4"]⟩]

def sides (bids asks : List Listing) : Venue := fun isBid => if isBid then bids else asks

/-- A moment with one quote. -/
theorem happens_quote {venue told venue' : Venue} {f : Row} {ts : UInt64}
    (htells : Tells venue f told) (htold : told = venue') (hts : tsOf f = ts)
    (htimestamp : timestampOf f ≠ 0) : Happens venue ⟨ts, [], [f]⟩ venue' := by
  subst htold
  refine .intro (d := false) .nil .nil ?_ (by simpa [Moment.rows] using ⟨hts, htimestamp⟩)
  rw [Function.update_eq_self]
  exact .cons htells .nil

theorem session_day :
    Session (fun _ => []) dayMoments (sides [⟨4, 95, 7⟩] [⟨2, 110, 3⟩]) := by
  have hfirst : Happens (fun _ => []) dayMoments[0] (sides [] [⟨1, 100, 10⟩]) := by
    refine happens_quote (.adds (d := false) (.inl ?_) ?_ ⟨?_, ?_, ?_, ?_, ?_, ?_⟩) ?_ ?_ ?_
    all_goals decide +kernel
  have hsecond : Happens (sides [] [⟨1, 100, 10⟩]) dayMoments[1]
      (sides [] [⟨1, 100, 10⟩, ⟨2, 110, 10⟩]) := by
    refine happens_quote (.adds (d := false) (.inl ?_) ?_ ⟨?_, ?_, ?_, ?_, ?_, ?_⟩) ?_ ?_ ?_
    all_goals decide +kernel
  have hthird : Happens (sides [] [⟨1, 100, 10⟩, ⟨2, 110, 10⟩]) dayMoments[2]
      (sides [⟨3, 90, 5⟩] [⟨2, 110, 4⟩]) := by
    have huses : Uses Listing.shares Listing.withShares [⟨1, 100, 10⟩, ⟨2, 110, 10⟩]
        [(⟨1, 100, 10⟩, 10), (⟨2, 110, 10⟩, 6)] [⟨2, 110, 4⟩] :=
      .cons (by decide) (by decide) (.cons (by decide) (by decide) .nil)
    have hquote : Tells (sides [] [⟨2, 110, 4⟩]) (rowFrom "3" "A" "3" "B" "5" "0.0090" "")
        (enter (sides [] [⟨2, 110, 4⟩]) true ⟨3, 90, 5⟩) := by
      refine .adds (d := true) (.inl ?_) ?_ ⟨?_, ?_, ?_, ?_, ?_, ?_⟩
      all_goals decide +kernel
    refine .intro (d := false)
      (.cons ⟨.inl ?_, ?_, ?_⟩ (.cons ⟨.inl ?_, ?_, ?_⟩ .nil)) huses ?_ ?_
    case refine_7 =>
      rw [show Function.update (sides [] [⟨1, 100, 10⟩, ⟨2, 110, 10⟩]) false [⟨2, 110, 4⟩] =
          sides [] [⟨2, 110, 4⟩] by decide +kernel,
        show sides [⟨3, 90, 5⟩] [⟨2, 110, 4⟩] =
          enter (sides [] [⟨2, 110, 4⟩]) true ⟨3, 90, 5⟩ by decide +kernel]
      exact .cons hquote .nil
    all_goals decide +kernel
  have hfourth : Happens (sides [⟨3, 90, 5⟩] [⟨2, 110, 4⟩]) dayMoments[3]
      (sides [⟨3, 90, 5⟩] [⟨2, 110, 3⟩]) := by
    refine happens_quote (.reduces (d := false) (x := ⟨2, 110, 4⟩) ?_ ?_ ?_ ?_) ?_ ?_ ?_
    all_goals decide +kernel
  have hfifth : Happens (sides [⟨3, 90, 5⟩] [⟨2, 110, 3⟩]) dayMoments[4]
      (sides [⟨4, 95, 7⟩] [⟨2, 110, 3⟩]) := by
    refine happens_quote (.replaces (d := true) (x := ⟨3, 90, 5⟩) ?_ ?_ ?_ ⟨?_, ?_, ?_, ?_, ?_, ?_⟩)
      ?_ ?_ ?_
    all_goals decide +kernel
  exact .cons hfirst (.cons hsecond (.cons hthird (.cons hfourth (.cons hfifth .nil))))

theorem replay_displays_day : ∃ s, itchReplay (fiveTick fun _ => 0) dayText =
    .replayed (.returns ()) s ∧
      displayed (marketOf s.engine) = sides [⟨4, 95, 7⟩] [⟨2, 110, 3⟩] := by
  have hvisit : ∀ entries, ((fiveTick fun _ => 0).visit entries).Perm entries :=
    fun entries => entries.reverse_perm
  have hrows : dataRows dayText = rowsOf dayMoments := by decide +kernel
  have hreached : (itchReplay (fiveTick fun _ => 0) dayText).submissions.isEmpty = false := by
    simp only [itchReplay, hrows]
    decide +kernel
  have hmemory : ∀ sub ∈ (itchReplay (fiveTick fun _ => 0) dayText).submissions,
      ¬ RefusesMemory sub.outcome := by
    simp only [itchReplay, hrows]
    decide +kernel
  have hnoted : noted (rowsOf dayMoments) = [100, 110, 100, 110, 90, 95] := by decide +kernel
  have hmultiples : ∀ p ∈ noted (dataRows dayText), 5 ∣ p.toNat := by
    rw [hrows, hnoted]
    intro p hp
    simp only [List.mem_cons, List.not_mem_nil, or_false] at hp
    rcases hp with rfl | rfl | rfl | rfl | rfl | rfl <;> decide
  have htimes : ∀ f ∈ dataRows dayText, (tsOf f).toNat < 2 ^ 63 := by
    rw [hrows]
    decide +kernel
  cases hrun : itchReplay (fiveTick fun _ => 0) dayText with
  | noPricedRows | stopped =>
    rw [hrun] at hreached
    cases hreached
  | replayed o s =>
    rw [hrun] at hmemory
    obtain ⟨book, -, hpass, hbefore⟩ := replay_displays hvisit hrows session_day
      (by decide +kernel) htimes (by decide) hmultiples
      (by simp only [scaledSpan, hrows]; decide +kernel)
      (by simp only [scaledSpan, hrows]; decide +kernel) (by rw [hrows]; decide +kernel)
      (by rw [hrows]; decide +kernel) hrun hmemory
    obtain ⟨s', hpass', -, hdisplayed⟩ :=
      hbefore dayMoments [] _ (List.append_nil _).symm session_day
    rw [hrows, hpass'] at hpass
    cases hpass
    exact ⟨s, rfl, hdisplayed⟩

end Sessions

end Leka.VenueReplays
