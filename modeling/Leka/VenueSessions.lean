import Leka.AggressorOrders
import Leka.Venues

/-!
The rows of a price-time venue. A row tells of an order that is added, deleted, reduced or
replaced, or of an execution of the first order of a side. The rows come in moments: those of
one time, executions first, since the aggressor that caused them is not told of. The first pass
knows the side and the price of every displayed order, so its group of a moment is what was
executed in it.
-/

namespace Leka.VenueSessions

open Orders Buckets Sweeps ReferenceMatchers Numerals CsvReaders ItchReplays ReplayTraces
  ExecutionGroups AggressorOrders Venues

/-- The side field of an order. -/
def letter (isBid : Bool) : UInt8 := if isBid then ascii 'B' else ascii 'S'

/-- The order that a row adds or replaces another by. -/
def listingAt (ref : OrderId) (f : Row) : Listing where
  orderId := ref
  price := (priceOf f).toNat
  shares := (sharesOf f).toNat

/-- The venue can display the order: its reference is new, and it meets no displayed order. -/
structure Joins (venue : Venue) (d : Bool) (ref : OrderId) (f : Row) : Prop where
  ref_ne : ref ≠ 0
  ref_lt : ref < SyntheticIdBase
  fresh : ∀ side, ∀ x ∈ venue side, x.orderId ≠ ref
  shares : sharesOf f ≠ 0
  price : priceOf f ≠ 0
  uncrossed : ∀ x ∈ venue (!d), noWorse d (priceOf f).toNat x.price = false

/-- The messages that change what a venue displays. -/
def eventMessages : List UInt8 :=
  [ascii 'A', ascii 'F', ascii 'D', ascii 'X', ascii 'U', ascii 'E', ascii 'C']

/-- A row that is no execution, and the venue behind it. -/
inductive Tells (venue : Venue) (f : Row) : Venue → Prop
  | adds {d : Bool} (hmsg : msgOf f = some (ascii 'A') ∨ msgOf f = some (ascii 'F'))
      (hside : (field f .Side).head? = some (letter d)) (hjoins : Joins venue d (refOf f) f) :
      Tells venue f (enter venue d (listingAt (refOf f) f))
  | deletes {d : Bool} {x : Listing} (hmsg : msgOf f = some (ascii 'D')) (hx : x ∈ venue d)
      (hid : x.orderId = refOf f) : Tells venue f (withdraw venue (refOf f))
  | reduces {d : Bool} {x : Listing} (hmsg : msgOf f = some (ascii 'X')) (hx : x ∈ venue d)
      (hid : x.orderId = refOf f) (hlt : (sharesOf f).toNat < x.shares) :
      Tells venue f (reduceBy venue (refOf f) (sharesOf f).toNat)
  | replaces {d : Bool} {x : Listing} (hmsg : msgOf f = some (ascii 'U')) (hx : x ∈ venue d)
      (hid : x.orderId = refOf f) (hjoins : Joins (withdraw venue (refOf f)) d (newRefOf f) f) :
      Tells venue f (enter (withdraw venue (refOf f)) d (listingAt (newRefOf f) f))
  | other (hmsg : ∀ msg ∈ msgOf f, msg ∉ eventMessages) : Tells venue f venue

/-- A row that tells of an execution. One with a price of its own has that of the order. -/
structure Reports (f : Row) (use : Listing × ℕ) : Prop where
  msg : msgOf f = some (ascii 'E') ∨
    msgOf f = some (ascii 'C') ∧ (priceOf f).toNat = use.1.price
  ref : refOf f = use.1.orderId
  shares : (sharesOf f).toNat = use.2

/-- The rows of one time. -/
structure Moment where
  ts : UInt64
  executed : List Row
  quotes : List Row

def Moment.rows (m : Moment) : List Row := m.executed ++ m.quotes

def rowsOf (moments : List Moment) : List Row := moments.flatMap Moment.rows

inductive Told : Venue → List Row → Venue → Prop
  | nil {venue : Venue} : Told venue [] venue
  | cons {venue venue' venue'' : Venue} {f : Row} {rows : List Row} (hfirst : Tells venue f venue')
      (hrest : Told venue' rows venue'') : Told venue (f :: rows) venue''

/-- Executions of the first order of one side, and then other rows. -/
inductive Happens (venue : Venue) (m : Moment) : Venue → Prop
  | intro {d : Bool} {uses : List (Listing × ℕ)} {left : List Listing} {venue' : Venue}
      (hexecuted : List.Forall₂ Reports m.executed uses)
      (huses : Uses Listing.shares Listing.withShares (venue d) uses left)
      (hquotes : Told (Function.update venue d left) m.quotes venue')
      (htime : ∀ f ∈ m.rows, tsOf f = m.ts ∧ timestampOf f ≠ 0) : Happens venue m venue'

inductive Session : Venue → List Moment → Venue → Prop
  | nil {venue : Venue} : Session venue [] venue
  | cons {venue venue' venue'' : Venue} {m : Moment} {moments : List Moment}
      (hfirst : Happens venue m venue') (hrest : Session venue' moments venue'') :
      Session venue (m :: moments) venue''

/-- The references are those of orders, and not the identifiers of aggressors. -/
def Referenced (venue : Venue) : Prop :=
  ∀ d, ∀ x ∈ venue d, x.orderId ≠ 0 ∧ x.orderId < SyntheticIdBase

/-- The first pass knows the displayed orders. -/
structure Known (front : List Row) (venue : Venue) : Prop where
  side : ∀ d, ∀ x ∈ venue d, (passOne front).refSide x.orderId = some (letter d)
  price : ∀ d, ∀ x ∈ venue d, (lastPrice front x.orderId).toNat = x.price
  ref : Referenced venue
  priced : ∀ d, ∀ x ∈ venue d, x.price ≠ 0

section Knowledge

variable {front : List Row} {venue venue' : Venue} {f : Row}

/-- What a row that adds no order leaves known. -/
theorem Known.keeps (h : Known front venue) (hadded : addedRef f = none)
    (hside : ∀ d, ∀ x ∈ venue d, (scanRow (passOne front) f).refSide x.orderId =
      (passOne front).refSide x.orderId) : Known (front ++ [f]) venue where
  side d x hx := by rw [passOne_append, hside d x hx, h.side d x hx]
  price d x hx := by
    rw [lastPrice_append, hadded, if_neg (by simp)]
    exact h.price d x hx
  ref := h.ref
  priced := h.priced

theorem Known.subset (h : Known front venue)
    (hsub : ∀ d, ∀ y ∈ venue' d, ∃ x ∈ venue d, y.orderId = x.orderId ∧ y.price = x.price) :
    Known front venue' where
  side d y hy := by
    obtain ⟨x, hx, hid, -⟩ := hsub d y hy
    rw [hid, h.side d x hx]
  price d y hy := by
    obtain ⟨x, hx, hid, hprice⟩ := hsub d y hy
    rw [hid, hprice, h.price d x hx]
  ref d y hy := by
    obtain ⟨x, hx, hid, -⟩ := hsub d y hy
    rw [hid]
    exact h.ref d x hx
  priced d y hy := by
    obtain ⟨x, hx, -, hprice⟩ := hsub d y hy
    rw [hprice]
    exact h.priced d x hx

theorem scanRow_msg {msg : UInt8} (hmsg : msgOf f = some msg) (scan : Scan) :
    scanRow scan f = scanMessage { scan with rowCount := scan.rowCount + 1 } f msg := by
  simp only [scanRow, hmsg]

theorem mem_withdraw {id : OrderId} {d : Bool} {x : Listing} :
    x ∈ withdraw venue id d ↔ x ∈ venue d ∧ x.orderId ≠ id := by
  rw [withdraw, List.mem_filter, decide_eq_true_iff]

theorem mem_enter {isBid d : Bool} {x y : Listing} :
    y ∈ enter venue isBid x d ↔ d = isBid ∧ y = x ∨ y ∈ venue d := by
  rw [enter, Function.update_apply]
  split_ifs with hd
  · subst hd
    rw [mem_insertBehind, and_iff_right rfl]
  · simp [hd]

theorem Referenced.tells (h : Referenced venue) (htells : Tells venue f venue') :
    Referenced venue' := by
  have hwithdrawn : ∀ id, Referenced (withdraw venue id) :=
    fun id d x hx => h d x (mem_withdraw.mp hx).1
  cases htells with
  | adds _ _ hjoins =>
    intro d y hy
    rcases mem_enter.mp hy with ⟨rfl, rfl⟩ | hy
    · exact ⟨hjoins.ref_ne, hjoins.ref_lt⟩
    · exact h d y hy
  | deletes => exact hwithdrawn _
  | reduces =>
    intro d y hy
    obtain ⟨x, hx, rfl⟩ := List.mem_map.mp hy
    split_ifs <;> exact h d x hx
  | replaces _ _ _ hjoins =>
    intro d y hy
    rcases mem_enter.mp hy with ⟨rfl, rfl⟩ | hy
    · exact ⟨hjoins.ref_ne, hjoins.ref_lt⟩
    · exact hwithdrawn _ d y hy
  | other => exact h

/-- A row that adds an order makes it known. -/
theorem Known.joins (h : Known front venue) {d : Bool} {ref : OrderId}
    (hjoins : Joins venue d ref f) (hadded : addedRef f = some ref)
    (hside : (scanRow (passOne front) f).refSide ref = some (letter d))
    (hothers : ∀ side, ∀ x ∈ venue side, (scanRow (passOne front) f).refSide x.orderId =
      (passOne front).refSide x.orderId) :
    Known (front ++ [f]) (enter venue d (listingAt ref f)) where
  side side y hy := by
    rw [passOne_append]
    rcases mem_enter.mp hy with ⟨rfl, rfl⟩ | hy
    · exact hside
    · rw [hothers side y hy, h.side side y hy]
  price side y hy := by
    rw [lastPrice_append, hadded]
    rcases mem_enter.mp hy with ⟨rfl, rfl⟩ | hy
    · exact congrArg UInt64.toNat (if_pos rfl)
    · rw [if_neg fun heq => hjoins.fresh side y hy (Option.some.inj heq).symm]
      exact h.price side y hy
  ref side y hy := by
    rcases mem_enter.mp hy with ⟨rfl, rfl⟩ | hy
    · exact ⟨hjoins.ref_ne, hjoins.ref_lt⟩
    · exact h.ref side y hy
  priced side y hy := by
    rcases mem_enter.mp hy with ⟨rfl, rfl⟩ | hy
    · exact fun heq => hjoins.price (UInt64.toNat_inj.mp heq)
    · exact h.priced side y hy

/-- The side that the first pass reads off a row. -/
theorem sideOf_letter {d : Bool} (hside : (field f .Side).head? = some (letter d)) :
    sideOf f = letter d := by
  rw [sideOf, List.headD_eq_head?_getD, hside, Option.getD_some]

theorem Known.withdrawn (h : Known front venue) (id : OrderId) : Known front (withdraw venue id) :=
  h.subset fun _ y hy => ⟨y, (mem_withdraw.mp hy).1, rfl, rfl⟩

/-- A row that is no execution tells of none, and what it leaves is known. -/
theorem Known.tells (h : Known front venue) (htells : Tells venue f venue') :
    executionAt front f = none ∧ Known (front ++ [f]) venue' := by
  have hnone : executedSide (passOne front) f = none → executionAt front f = none := by
    intro hside
    rw [executionAt, hside, Option.map_none]
  cases htells with
  | @adds d hmsg hside hjoins =>
    have hadded : addedRef f = some (refOf f) := by
      rcases hmsg with hmsg | hmsg <;> simp only [addedRef, hmsg] <;> rfl
    have hscan : (scanRow (passOne front) f).refSide =
        Function.update (passOne front).refSide (refOf f) (some (sideOf f)) := by
      rcases hmsg with hmsg | hmsg <;> rw [scanRow_msg hmsg] <;> rfl
    refine ⟨hnone ?_, h.joins hjoins hadded ?_ fun side x hx => ?_⟩
    · rcases hmsg with hmsg | hmsg <;> simp only [executedSide, hmsg] <;> rfl
    · rw [hscan, Function.update_self, sideOf_letter hside]
    · rw [hscan, Function.update_of_ne (hjoins.fresh side x hx)]
  | deletes hmsg _ _ =>
    refine ⟨hnone (by simp only [executedSide, hmsg]; rfl), (h.withdrawn _).keeps ?_ ?_⟩
    · simp only [addedRef, hmsg]
      rfl
    · intro d x hx
      rw [scanRow_msg hmsg]
      exact Function.update_of_ne (mem_withdraw.mp hx).2 _ _
  | @reduces d x hmsg _ _ _ =>
    refine ⟨hnone (by simp only [executedSide, hmsg]; rfl), (h.subset ?_).keeps ?_ ?_⟩
    · intro d y hy
      obtain ⟨x, hx, rfl⟩ := List.mem_map.mp hy
      refine ⟨x, hx, ?_⟩
      split_ifs <;> exact ⟨rfl, rfl⟩
    · simp only [addedRef, hmsg]
      rfl
    · intro d x _
      rw [scanRow_msg hmsg]
      rfl
  | @replaces d x hmsg hx hid hjoins =>
    have hscan : (scanRow (passOne front) f).refSide =
        Function.update (Function.update (passOne front).refSide (refOf f) none) (newRefOf f)
          (some (((passOne front).refSide (refOf f)).getD (ascii 'B'))) := by
      rw [scanRow_msg hmsg]
      rfl
    refine ⟨hnone (by simp only [executedSide, hmsg]; rfl),
      (h.withdrawn _).joins hjoins ?_ ?_ fun side y hy => ?_⟩
    · simp only [addedRef, hmsg]
      rfl
    · rw [hscan, Function.update_self, ← hid, h.side d x hx, Option.getD_some]
    · rw [hscan, Function.update_of_ne (hjoins.fresh side y hy),
        Function.update_of_ne (mem_withdraw.mp hy).2]
  | other hmsg =>
    have hscan : (scanRow (passOne front) f).refSide = (passOne front).refSide ∧
        addedRef f = none ∧ executedSide (passOne front) f = none := by
      cases hsome : msgOf f with
      | none => simp [scanRow, addedRef, executedSide, hsome]
      | some msg =>
        have hnot := hmsg msg hsome
        simp only [eventMessages, List.mem_cons, List.not_mem_nil, or_false, not_or] at hnot
        obtain ⟨hA, hF, hD, hX, hU, hE, hC⟩ := hnot
        rw [scanRow_msg hsome]
        simp [scanMessage, addedRef, executedSide, hsome, hA, hF, hD, hU, hE, hC]
    obtain ⟨hside, hadded, hexecuted⟩ := hscan
    exact ⟨hnone hexecuted, h.keeps hadded fun d x _ => congrFun hside _⟩

/-- An execution of a displayed order is that of its side and its price. -/
theorem Known.reports (h : Known front venue) {d : Bool} {use : Listing × ℕ}
    (hmem : use.1 ∈ venue d) (hreports : Reports f use) :
    Known (front ++ [f]) venue ∧ ∃ x, executionAt front f = some x ∧ x.ts = tsOf f ∧
      x.restingSide = letter d ∧ x.shares.toNat = use.2 ∧ x.price.toNat = use.1.price := by
  obtain ⟨hmsg, href, hshares⟩ := hreports
  have hmsg' : msgOf f = some (ascii 'E') ∨ msgOf f = some (ascii 'C') := hmsg.imp_right And.left
  have hside : executedSide (passOne front) f = some (letter d) := by
    rw [executedSide, if_pos hmsg', href]
    exact h.side d _ hmem
  refine ⟨h.keeps ?_ fun side x _ => ?_, _, by rw [executionAt, hside]; rfl, rfl, rfl, hshares, ?_⟩
  · rcases hmsg' with hmsg | hmsg <;> simp only [addedRef, hmsg] <;> rfl
  · have hstep := scanRow_step (passOne front) f
    generalize scanRow (passOne front) f = after at hstep
    cases hstep with
    | ignored | executed => rfl
    | added _ _ hexecuted | replaced _ hexecuted | deleted _ hexecuted =>
      rw [hside] at hexecuted
      cases hexecuted
  · dsimp only
    rcases hmsg with hmsg | ⟨hmsg, hprice⟩
    · rw [hmsg, if_neg (by decide), href]
      exact h.price d _ hmem
    · rw [if_pos hmsg]
      exact hprice

/-- The executions of a moment, one for each use. -/
structure Executed (ts : UInt64) (d : Bool) (uses : List (Listing × ℕ))
    (xs : List RestingExecution) : Prop where
  group : ∀ x ∈ xs, x.ts = ts ∧ x.restingSide = letter d
  shares : xs.map (fun x => x.shares.toNat) = uses.map Prod.snd
  price : xs.map (fun x => x.price.toNat) = uses.map fun use => use.1.price

theorem Known.executed {ts : UInt64} {d : Bool} {rows : List Row} {uses : List (Listing × ℕ)}
    {queue left : List Listing} (h : Known front venue) (hqueue : venue d = queue)
    (huses : Uses Listing.shares Listing.withShares queue uses left)
    (hrows : List.Forall₂ Reports rows uses) (htime : ∀ f ∈ rows, tsOf f = ts) :
    Executed ts d uses (executionsFrom front rows) ∧
      Known (front ++ rows) (Function.update venue d left) := by
  induction huses generalizing front venue rows with
  | nil =>
    cases hrows
    rw [← hqueue, Function.update_eq_self, List.append_nil]
    exact ⟨⟨by simp [executionsFrom], rfl, rfl⟩, h⟩
  | @cons x amount xs ys uses _ _ _ ih =>
    cases hrows with
    | @cons f _ rows _ hfirst hrest =>
      obtain ⟨hts, htimes⟩ := List.forall_mem_cons.mp htime
      have hmem : x ∈ venue d := hqueue ▸ List.mem_cons_self
      obtain ⟨hknown, y, hy, hyts, hyside, hyshares, hyprice⟩ := h.reports hmem hfirst
      -- the rest of the moment executes what the first row has left of the side
      have hused : Known (front ++ [f]) (Function.update venue d
          (useFront Listing.shares Listing.withShares amount (x :: xs))) := by
        refine hknown.subset fun side z hz => ?_
        rw [Function.update_apply] at hz
        split_ifs at hz with hd
        · subst hd
          have hpicture := (@useFront_sublist _ Listing.shares Listing.withShares _
            (fun z => (z.orderId, z.price)) (fun _ _ => rfl) amount (x :: xs)).subset
              (List.mem_map_of_mem hz)
          obtain ⟨w, hw, heq⟩ := List.mem_map.mp hpicture
          exact ⟨w, hqueue ▸ hw, (congrArg Prod.fst heq).symm, (congrArg Prod.snd heq).symm⟩
        · exact ⟨z, hz, rfl, rfl⟩
      obtain ⟨hexecuted, hleft⟩ := ih hused (Function.update_self ..) hrest htimes
      rw [executionsFrom, hy, Option.toList_some, List.singleton_append]
      rw [Function.update_idem, List.append_assoc, List.singleton_append] at hleft
      refine ⟨⟨List.forall_mem_cons.mpr ⟨⟨hyts.trans hts, hyside⟩, hexecuted.group⟩, ?_, ?_⟩, hleft⟩
      · rw [List.map_cons, List.map_cons, hyshares, hexecuted.shares]
      · rw [List.map_cons, List.map_cons, hyprice, hexecuted.price]

theorem Known.told {rows : List Row} (h : Known front venue) (htold : Told venue rows venue') :
    executionsFrom front rows = [] ∧ Known (front ++ rows) venue' := by
  induction htold generalizing front with
  | nil => exact ⟨rfl, by rwa [List.append_nil]⟩
  | cons hfirst _ ih =>
    obtain ⟨hnone, hknown⟩ := h.tells hfirst
    obtain ⟨hrest, hknown'⟩ := ih hknown
    rw [List.append_assoc, List.singleton_append] at hknown'
    exact ⟨by rw [executionsFrom, hnone, hrest]; rfl, hknown'⟩

end Knowledge

section Groups

variable {front rows back : List Row} {ts : UInt64} {d : Bool} {uses : List (Listing × ℕ)}

theorem executionsFrom_concat (front rows back : List Row) :
    executionsFrom front (rows ++ back) =
      executionsFrom front rows ++ executionsFrom (front ++ rows) back := by
  induction rows generalizing front with
  | nil => rw [List.nil_append, executionsFrom, List.nil_append, List.append_nil]
  | cons f rows ih =>
    rw [List.cons_append, executionsFrom, ih, executionsFrom, List.append_assoc, List.append_assoc,
      List.singleton_append]

theorem time_of_execution {x : RestingExecution} (hx : x ∈ executionsFrom front rows) :
    ∃ f ∈ rows, tsOf f = x.ts := by
  induction rows generalizing front with
  | nil => simp [executionsFrom] at hx
  | cons f rows ih =>
    rcases List.mem_append.mp hx with hx | hx
    · rw [Option.mem_toList, executionAt, Option.map_eq_some_iff] at hx
      obtain ⟨_, _, rfl⟩ := hx
      exact ⟨f, List.mem_cons_self, rfl⟩
    · obtain ⟨g, hg, hts⟩ := ih hx
      exact ⟨g, List.mem_cons_of_mem _ hg, hts⟩

/-- The group of a time is what its rows tell of. -/
theorem group_moment (hfront : ∀ f ∈ front, tsOf f ≠ ts) (hback : ∀ f ∈ back, tsOf f ≠ ts)
    (hexecuted : ∀ x ∈ executionsFrom front rows, x.ts = ts ∧ x.restingSide = letter d)
    (restingSide : UInt8) :
    group (front ++ rows ++ back) ts restingSide =
      if restingSide = letter d then executionsFrom front rows else [] := by
  have hothers : ∀ {start others : List Row}, (∀ f ∈ others, tsOf f ≠ ts) →
      (executionsFrom start others).filter
        (fun x => x.ts = ts ∧ x.restingSide = restingSide) = [] := by
    intro start others hne
    refine List.filter_eq_nil_iff.mpr fun x hx hgroup => ?_
    obtain ⟨f, hf, hts⟩ := time_of_execution hx
    exact hne f hf (hts.trans (of_decide_eq_true hgroup).1)
  have hsplit : executions (front ++ rows ++ back) = executionsFrom [] front ++
      (executionsFrom front rows ++ executionsFrom (front ++ rows) back) := by
    rw [executions, List.append_assoc, executionsFrom_concat, executionsFrom_concat,
      List.nil_append]
  rw [group, hsplit, List.filter_append, List.filter_append, hothers hfront, hothers hback,
    List.nil_append, List.append_nil]
  split_ifs with hside
  · refine List.filter_eq_self.mpr fun x hx => decide_eq_true ?_
    rw [hside]
    exact hexecuted x hx
  · refine List.filter_eq_nil_iff.mpr fun x hx hgroup => hside ?_
    rw [← (of_decide_eq_true hgroup).2]
    exact (hexecuted x hx).2

/-- The aggressors that are pending for a moment: none, or one that takes what was executed. -/
inductive Due (d : Bool) (uses : List (Listing × ℕ)) : List AggressorEvent → Prop
  | none (huses : uses = []) : Due d uses []
  | one {agg : AggressorEvent} (hne : uses ≠ []) (hside : agg.side = if d then .sell else .buy)
      (hquantity : agg.quantity.toNat = (uses.map Prod.snd).sum) (hprice : agg.priceRaw ≠ 0)
      (hmeets : ∀ use ∈ uses, noWorse (!d) agg.priceRaw.toNat use.1.price = true) :
      Due d uses [agg]

theorem opposite_letter (d : Bool) : opposite (letter d) = if d then .sell else .buy := by
  cases d <;> decide

theorem letter_listed (d : Bool) : letter d = ascii 'B' ∨ letter d = ascii 'S' := by
  cases d
  · exact .inr rfl
  · exact .inl rfl

/-- A limit at the worst price meets every executed order. -/
theorem meets_worst {prices : List UInt64} {p q : UInt64} (h : Worst (letter d) prices p)
    (hq : q ∈ prices) : noWorse (!d) p.toNat q.toNat = true := by
  have hle := h.2 q hq
  cases d with
  | true =>
    rw [if_neg (by decide)] at hle
    exact noWorse_ask.mpr (UInt64.le_iff_toNat_le.mp hle)
  | false =>
    rw [if_pos (by decide)] at hle
    exact noWorse_bid.mpr (UInt64.le_iff_toNat_le.mp hle)

/-- What the table of groups holds for the time of a moment. -/
theorem due_moment {visited : List Entry} (hlisted : SidesListed (front ++ rows ++ back))
    (htimes : ∀ f ∈ front ++ rows ++ back, (tsOf f).toNat < 2 ^ 63)
    (hvisited : visited.Perm (passOne (front ++ rows ++ back)).aggregates.entries)
    (hfront : ∀ f ∈ front, tsOf f ≠ ts) (hback : ∀ f ∈ back, tsOf f ≠ ts)
    (hexecuted : Executed ts d uses (executionsFrom front rows))
    (hsum : (uses.map Prod.snd).sum < 2 ^ 64) (hpriced : ∀ use ∈ uses, use.1.price ≠ 0) :
    Due d uses (regroup visited ts) := by
  have hgroup := group_moment hfront hback hexecuted.group
  have hentry : ∀ e ∈ visited, e.1 / 2 = ts → executionsFrom front rows ≠ [] ∧
      e = ⟨keyOf ts (letter d), summed (executionsFrom front rows)⟩ := by
    intro e he hts
    obtain ⟨ts', side, hne, rfl⟩ := (mem_entries hlisted htimes).mp (hvisited.mem_iff.mp he)
    obtain ⟨hlt, -, -⟩ := listed_of_group hlisted htimes hne
    rw [keyOf_half hlt] at hts
    subst hts
    rw [hgroup] at hne ⊢
    split_ifs at hne ⊢ with hside
    · exact ⟨hne, by rw [hside]⟩
    · exact absurd rfl hne
  have hlength : (executionsFrom front rows).length = uses.length := by
    have hmapped := congrArg List.length hexecuted.shares
    rwa [List.length_map, List.length_map] at hmapped
  rw [regroup_apply]
  by_cases hnone : executionsFrom front rows = []
  · have huses : uses = [] := List.length_eq_zero_iff.mp (by rw [← hlength, hnone]; rfl)
    have hfilter : visited.filter (fun e => e.1 / 2 = ts) = [] :=
      List.filter_eq_nil_iff.mpr fun e he hts => (hentry e he (of_decide_eq_true hts)).1 hnone
    rw [hfilter]
    exact .none huses
  · have huses : uses ≠ [] := fun huses => hnone (List.length_eq_zero_iff.mp (by
      rw [hlength, huses]
      rfl))
    let entry : Entry := ⟨keyOf ts (letter d), summed (executionsFrom front rows)⟩
    have hown : group (front ++ rows ++ back) ts (letter d) = executionsFrom front rows := by
      rw [hgroup, if_pos rfl]
    have hne : group (front ++ rows ++ back) ts (letter d) ≠ [] := by rwa [hown]
    have hmem : entry ∈ visited :=
      hvisited.mem_iff.mpr ((mem_entries hlisted htimes).mpr ⟨ts, letter d, hne, by rw [hown]⟩)
    have hhalf : entry.1 / 2 = ts := keyOf_half (listed_of_group hlisted htimes hne).1 _
    have hnodup : visited.Nodup := hvisited.nodup_iff.mpr
      (List.NodupKeys.nodup (passOne (front ++ rows ++ back)).aggregates.nodupKeys)
    have hfilter : (visited.filter fun e => e.1 / 2 = ts) = visited.filter fun e => e = entry := by
      refine List.filter_congr fun e he => decide_eq_decide.mpr ?_
      exact ⟨fun hts => (hentry e he hts).2, fun heq => heq ▸ hhalf⟩
    rw [hfilter, List.filter_eq, List.count_eq_one_of_mem hnodup hmem]
    obtain ⟨-, hside, hworst⟩ := summed_spec hnone fun x hx => (hexecuted.group x hx).2
    refine .one huses ?_ ?_ ?_ fun use huse => ?_
    · change (if (summed (executionsFrom front rows)).restingSide = ascii 'S' then
        OrderSide.buy else .sell) = _
      rw [hside, ← opposite_letter]
      rfl
    · refine (summed_quantity _).trans ?_
      rw [hexecuted.shares, Nat.mod_eq_of_lt hsum]
    · obtain ⟨x, hx, heq⟩ := List.mem_map.mp hworst.1
      have hprice : x.price.toNat ∈ uses.map fun use => use.1.price :=
        hexecuted.price ▸ List.mem_map_of_mem hx
      obtain ⟨use, huse, hsame⟩ := List.mem_map.mp hprice
      intro hzero
      refine hpriced use huse (hsame.trans ?_)
      rw [heq, show (summed (executionsFrom front rows)).priceExtreme = 0 from hzero]
      rfl
    · have hprice : use.1.price ∈ (executionsFrom front rows).map fun x => x.price.toNat :=
        hexecuted.price ▸ List.mem_map_of_mem huse
      obtain ⟨x, hx, heq⟩ := List.mem_map.mp hprice
      rw [← heq]
      exact meets_worst hworst (List.mem_map_of_mem hx)

end Groups

section Shares

variable {venue venue' : Venue} {f : Row}

/-- The shares of the order that a row adds. -/
def addedShares (f : Row) : ℕ := if addedRef f = none then 0 else (sharesOf f).toNat

def sharesIn (venue : Venue) (d : Bool) : ℕ := ((venue d).map Listing.shares).sum

theorem sharesIn_enter (isBid d : Bool) (x : Listing) :
    sharesIn (enter venue isBid x) d ≤ sharesIn venue d + x.shares := by
  unfold sharesIn enter
  rw [Function.update_apply]
  split_ifs with hd
  · subst hd
    have hperm : (insertBehind (fun other => noWorse d other.price x.price) x (venue d)).Perm
        (x :: venue d) := by
      refine List.perm_middle.trans ?_
      rw [List.takeWhile_append_dropWhile]
    rw [(hperm.map _).sum_eq, List.map_cons, List.sum_cons, Nat.add_comm]
  · exact Nat.le_add_right _ _

theorem sharesIn_withdraw (id : OrderId) (d : Bool) :
    sharesIn (withdraw venue id) d ≤ sharesIn venue d :=
  (List.filter_sublist.map _).sum_le_sum fun _ _ => Nat.zero_le _

/-- Only added orders add shares. -/
theorem sharesIn_tells (htells : Tells venue f venue') (d : Bool) :
    sharesIn venue' d ≤ sharesIn venue d + addedShares f := by
  have hadds : ∀ {ref : OrderId}, addedRef f = some ref → addedShares f = (sharesOf f).toNat := by
    intro ref hadded
    rw [addedShares, hadded, if_neg (by simp)]
  cases htells with
  | adds hmsg _ _ =>
    have hadded : addedRef f = some (refOf f) := by
      rcases hmsg with hmsg | hmsg <;> simp only [addedRef, hmsg] <;> rfl
    rw [hadds hadded]
    exact sharesIn_enter _ _ _
  | deletes => exact Nat.le_add_right_of_le (sharesIn_withdraw _ _)
  | reduces =>
    refine Nat.le_add_right_of_le ?_
    rw [sharesIn, reduceBy, List.map_map]
    refine List.sum_le_sum fun x _ => ?_
    rw [Function.comp_apply]
    split_ifs
    · exact Nat.sub_le _ _
    · exact le_rfl
  | replaces hmsg _ _ _ =>
    have hadded : addedRef f = some (newRefOf f) := by
      simp only [addedRef, hmsg]
      rfl
    rw [hadds hadded]
    exact (sharesIn_enter _ _ _).trans (Nat.add_le_add_right (sharesIn_withdraw _ _) _)
  | other => exact Nat.le_add_right _ _

/-- Executed shares are no longer in the queue. -/
theorem sum_uses {queue left : List Listing} {uses : List (Listing × ℕ)}
    (h : Uses Listing.shares Listing.withShares queue uses left) :
    (left.map Listing.shares).sum + (uses.map Prod.snd).sum = (queue.map Listing.shares).sum := by
  induction h with
  | nil => rfl
  | @cons x amount xs ys uses _ hle _ ih =>
    have hfront : ((useFront Listing.shares Listing.withShares amount (x :: xs)).map
        Listing.shares).sum + amount = x.shares + (xs.map Listing.shares).sum := by
      rw [useFront]
      split_ifs with hlt
      · rw [List.map_cons, List.sum_cons]
        change x.shares - amount + _ + amount = _
        omega
      · obtain rfl : amount = x.shares := le_antisymm hle (Nat.not_lt.mp hlt)
        exact Nat.add_comm _ _
    rw [List.map_cons, List.sum_cons, List.map_cons, List.sum_cons]
    omega

theorem sharesIn_told {rows : List Row} (htold : Told venue rows venue') (d : Bool) :
    sharesIn venue' d ≤ sharesIn venue d + (rows.map addedShares).sum := by
  induction htold with
  | nil => exact le_rfl
  | cons hfirst _ ih =>
    have hstep := sharesIn_tells hfirst d
    rw [List.map_cons, List.sum_cons]
    omega

theorem sharesIn_executed {d : Bool} {uses : List (Listing × ℕ)} {left : List Listing}
    (huses : Uses Listing.shares Listing.withShares (venue d) uses left) (side : Bool) :
    sharesIn (Function.update venue d left) side ≤ sharesIn venue side := by
  have hsum := sum_uses huses
  unfold sharesIn
  rw [Function.update_apply]
  split_ifs with hd
  · subst hd
    omega
  · exact le_rfl

end Shares

section Sessions

variable {venue venue' : Venue} {m : Moment} {moments : List Moment}

theorem rowsOf_cons (m : Moment) (moments : List Moment) :
    rowsOf (m :: moments) = m.executed ++ m.quotes ++ rowsOf moments := List.flatMap_cons

theorem Told.listed {rows : List Row} (htold : Told venue rows venue') : SidesListed rows := by
  induction htold with
  | nil => exact fun f hf => absurd hf List.not_mem_nil
  | cons hfirst _ ih =>
    refine List.forall_mem_cons.mpr ⟨fun hmsg => ?_, ih⟩
    cases hfirst with
    | @adds d _ hside _ =>
      rw [sideOf_letter hside]
      exact letter_listed d
    | deletes hmsg' | reduces hmsg' | replaces hmsg' =>
      rw [hmsg'] at hmsg
      exact absurd hmsg (by decide)
    | other hnot =>
      rcases hmsg with hmsg | hmsg
      · exact absurd (by simp [eventMessages]) (hnot _ hmsg)
      · exact absurd (by simp [eventMessages]) (hnot _ hmsg)

theorem Happens.listed (h : Happens venue m venue') : SidesListed m.rows := by
  cases h with
  | intro hexecuted _ hquotes _ =>
    refine List.forall_mem_append.mpr ⟨fun f hf hmsg => ?_, hquotes.listed⟩
    obtain ⟨i, hi, rfl⟩ := List.getElem_of_mem hf
    have hreports := (List.forall₂_iff_get.mp hexecuted).2 i hi
      (hexecuted.length_eq ▸ hi)
    rw [List.get_eq_getElem] at hreports
    rcases hreports.msg with hmsg' | ⟨hmsg', -⟩
    · rw [hmsg'] at hmsg
      exact absurd hmsg (by decide)
    · rw [hmsg'] at hmsg
      exact absurd hmsg (by decide)

theorem Session.listed (h : Session venue moments venue') : SidesListed (rowsOf moments) := by
  induction h with
  | nil => exact fun f hf => absurd hf List.not_mem_nil
  | cons hfirst _ ih => exact List.forall_mem_append.mpr ⟨hfirst.listed, ih⟩

theorem Session.split {before after : List Moment} (h : Session venue (before ++ after) venue') :
    ∃ between, Session venue before between ∧ Session between after venue' := by
  induction before generalizing venue with
  | nil => exact ⟨venue, .nil, h⟩
  | cons m before ih =>
    cases h with
    | cons hfirst hrest =>
      obtain ⟨between, hbefore, hafter⟩ := ih hrest
      exact ⟨between, .cons hfirst hbefore, hafter⟩

/-- A row has the time of its moment, and a timestamp. -/
theorem Session.time (h : Session venue moments venue') :
    ∀ f ∈ rowsOf moments, (∃ m ∈ moments, tsOf f = m.ts) ∧ timestampOf f ≠ 0 := by
  induction h with
  | nil => exact fun f hf => absurd hf List.not_mem_nil
  | @cons _ _ _ m moments hfirst _ ih =>
    refine List.forall_mem_append.mpr ⟨fun f hf => ?_, fun f hf => ?_⟩
    · cases hfirst with
      | intro _ _ _ htime =>
        exact ⟨⟨m, List.mem_cons_self, (htime f hf).1⟩, (htime f hf).2⟩
    · obtain ⟨⟨m', hm', hts⟩, htimestamp⟩ := ih f hf
      exact ⟨⟨m', List.mem_cons_of_mem _ hm', hts⟩, htimestamp⟩

end Sessions

end Leka.VenueSessions
