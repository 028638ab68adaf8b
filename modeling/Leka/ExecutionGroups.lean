import Leka.ItchReplays

/-!
What the first pass of the replay collects. An execution counts when its order is in the table
of the pass, and its price is its own or that of the order's last addition or replacement. The
table of groups holds, for each time and resting side with such an execution, the sum of the
shares and the worst price, and nothing else.
-/

namespace Leka.ExecutionGroups

open Numerals CsvReaders LadderSizes ItchReplays

/-- An execution of a resting order. -/
structure RestingExecution where
  ts : UInt64
  restingSide : UInt8
  shares : UInt64
  price : UInt64
  deriving DecidableEq

/-- The order that a row adds, alone or in the place of another. -/
def addedRef (f : Row) : Option UInt64 :=
  match msgOf f with
  | none => none
  | some msg =>
    if msg = ascii 'A' ∨ msg = ascii 'F' then some (refOf f)
    else if msg = ascii 'U' then some (newRefOf f)
    else none

/-- The side of the order that a row executes, when it is in the table. -/
def executedSide (scan : Scan) (f : Row) : Option UInt8 :=
  if msgOf f = some (ascii 'E') ∨ msgOf f = some (ascii 'C') then scan.refSide (refOf f) else none

/-- The price that an order was last added with or replaced to. -/
def lastPrice (front : List Row) (ref : UInt64) : UInt64 :=
  ((front.reverse.find? fun f => addedRef f = some ref).map priceOf).getD 0

/-- The execution that a row tells of, behind the rows in front of it. -/
def executionAt (front : List Row) (f : Row) : Option RestingExecution :=
  (executedSide (passOne front) f).map fun restingSide => {
    ts := tsOf f
    restingSide
    shares := sharesOf f
    price := if msgOf f = some (ascii 'C') then priceOf f else lastPrice front (refOf f) }

def executionsFrom : List Row → List Row → List RestingExecution
  | _, [] => []
  | front, f :: rows => (executionAt front f).toList ++ executionsFrom (front ++ [f]) rows

/-- The executions of resting orders that the rows tell of. -/
def executions (rows : List Row) : List RestingExecution := executionsFrom [] rows

/-- The executions of one time and one resting side. -/
def group (rows : List Row) (ts : UInt64) (restingSide : UInt8) : List RestingExecution :=
  (executions rows).filter fun x => x.ts = ts ∧ x.restingSide = restingSide

/-- The side fields of added orders are B or S; a blank one counts as B. -/
def SidesListed (rows : List Row) : Prop :=
  ∀ f ∈ rows, msgOf f = some (ascii 'A') ∨ msgOf f = some (ascii 'F') →
    sideOf f = ascii 'B' ∨ sideOf f = ascii 'S'

/-- The highest of the prices that buyers paid, or the lowest that sellers accepted. -/
def Worst (restingSide : UInt8) (prices : List UInt64) (p : UInt64) : Prop :=
  p ∈ prices ∧ ∀ q ∈ prices, if restingSide = ascii 'S' then q ≤ p else p ≤ q

section Steps

/-- What a row does to the scan. -/
inductive ScanStep (scan : Scan) (f : Row) : Scan → Prop
  | ignored (hadded : addedRef f = none) (hexecuted : executedSide scan f = none) :
      ScanStep scan f { scan with rowCount := scan.rowCount + 1 }
  | added (hmsg : msgOf f = some (ascii 'A') ∨ msgOf f = some (ascii 'F'))
      (hadded : addedRef f = some (refOf f)) (hexecuted : executedSide scan f = none) :
      ScanStep scan f { scan with
        rowCount := scan.rowCount + 1
        refSide := Function.update scan.refSide (refOf f) (some (sideOf f))
        refPrice := Function.update scan.refPrice (refOf f) (some (priceOf f))
        range := noteRange scan.range (priceOf f) }
  | replaced (hadded : addedRef f = some (newRefOf f)) (hexecuted : executedSide scan f = none) :
      ScanStep scan f { scan with
        rowCount := scan.rowCount + 1
        refSide := Function.update (Function.update scan.refSide (refOf f) none) (newRefOf f)
          (some ((scan.refSide (refOf f)).getD (ascii 'B')))
        refPrice := Function.update (Function.update scan.refPrice (refOf f) none) (newRefOf f)
          (some (priceOf f))
        range := noteRange scan.range (priceOf f) }
  | deleted (hadded : addedRef f = none) (hexecuted : executedSide scan f = none) :
      ScanStep scan f { scan with
        rowCount := scan.rowCount + 1
        refSide := Function.update scan.refSide (refOf f) none
        refPrice := Function.update scan.refPrice (refOf f) none }
  | executed {restingSide : UInt8} {agg : Aggregate} (hadded : addedRef f = none)
      (hexecuted : executedSide scan f = some restingSide)
      (hagg : agg = ((scan.aggregates.lookup (keyOf (tsOf f) restingSide)).getD {}).add restingSide
        (if msgOf f = some (ascii 'C') then priceOf f else (scan.refPrice (refOf f)).getD 0)
        (sharesOf f)) :
      ScanStep scan f { scan with
        rowCount := scan.rowCount + 1
        aggregates := scan.aggregates.insert (keyOf (tsOf f) restingSide) agg
        range := noteRange scan.range agg.priceExtreme }

/-- Each row takes one of the five steps. -/
theorem scanRow_step (scan : Scan) (f : Row) : ScanStep scan f (scanRow scan f) := by
  unfold scanRow
  cases hmsg : msgOf f with
  | none => exact .ignored (by simp [addedRef, hmsg]) (by simp [executedSide, hmsg])
  | some msg =>
    simp only [scanMessage]
    by_cases hadd : msg = ascii 'A' ∨ msg = ascii 'F'
    · rw [if_pos hadd]
      refine .added ?_ (by simp [addedRef, hmsg, hadd]) ?_
      · simpa [hmsg] using hadd
      · rcases hadd with rfl | rfl <;> simp only [executedSide, hmsg] <;> rfl
    rw [if_neg hadd]
    by_cases hreplace : msg = ascii 'U'
    · subst hreplace
      exact .replaced (by simp only [addedRef, hmsg]; rfl) (by simp only [executedSide, hmsg]; rfl)
    rw [if_neg hreplace]
    by_cases hdelete : msg = ascii 'D'
    · subst hdelete
      exact .deleted (by simp only [addedRef, hmsg]; rfl) (by simp only [executedSide, hmsg]; rfl)
    rw [if_neg hdelete]
    have hadded : addedRef f = none := by simp [addedRef, hmsg, hadd, hreplace]
    by_cases hexecute : msg = ascii 'E' ∨ msg = ascii 'C'
    · rw [if_pos hexecute]
      have hside : executedSide { scan with rowCount := scan.rowCount + 1 } f =
          scan.refSide (refOf f) := by
        simp [executedSide, hmsg, hexecute]
      cases hfound : scan.refSide (refOf f) with
      | none => exact .ignored hadded (hside.trans hfound)
      | some restingSide =>
        refine .executed hadded (hside.trans hfound) ?_
        simp [hmsg]
    · rw [if_neg hexecute]
      exact .ignored hadded (by simp [executedSide, hmsg, hexecute])

theorem passOne_append (front : List Row) (f : Row) :
    passOne (front ++ [f]) = scanRow (passOne front) f := by
  rw [passOne, List.foldl_append]
  rfl

theorem lastPrice_append (front : List Row) (f : Row) (ref : UInt64) :
    lastPrice (front ++ [f]) ref =
      if addedRef f = some ref then priceOf f else lastPrice front ref := by
  rw [lastPrice, List.reverse_append, List.reverse_singleton, List.singleton_append,
    List.find?_cons]
  split_ifs with hadded
  · simp [hadded]
  · simp [hadded, lastPrice]

/-- The table of prices knows the orders that the table of sides knows, with their last price. -/
theorem refPrice_eq (front : List Row) {ref : UInt64} {side : UInt8}
    (hside : (passOne front).refSide ref = some side) :
    (passOne front).refPrice ref = some (lastPrice front ref) := by
  induction front using List.reverseRecOn generalizing side with
  | nil => simp [passOne] at hside
  | append_singleton front f ih =>
    rw [passOne_append] at hside ⊢
    rw [lastPrice_append]
    have hstep := scanRow_step (passOne front) f
    generalize scanRow (passOne front) f = after at hside hstep
    cases hstep with
    | ignored hadded _ =>
      rw [hadded, if_neg (by simp)]
      exact ih hside
    | added _ hadded _ =>
      simp only [Function.update_apply, hadded, Option.some.injEq] at hside ⊢
      by_cases href : ref = refOf f
      · simp [href]
      · rw [if_neg href] at hside ⊢
        rw [if_neg (Ne.symm href)]
        exact ih hside
    | replaced hadded _ =>
      simp only [Function.update_apply, hadded, Option.some.injEq] at hside ⊢
      by_cases hnew : ref = newRefOf f
      · simp [hnew]
      · rw [if_neg hnew] at hside ⊢
        rw [if_neg (Ne.symm hnew)]
        by_cases hold : ref = refOf f
        · rw [if_pos hold] at hside
          simp at hside
        · rw [if_neg hold] at hside ⊢
          exact ih hside
    | deleted hadded _ =>
      simp only [Function.update_apply, hadded] at hside ⊢
      by_cases hold : ref = refOf f
      · rw [if_pos hold] at hside
        simp at hside
      · rw [if_neg hold] at hside ⊢
        rw [if_neg (by simp)]
        exact ih hside
    | executed hadded _ _ =>
      rw [hadded, if_neg (by simp)]
      exact ih hside

/-- The sides in the table are B and S. -/
theorem refSide_listed {front : List Row} (hlisted : SidesListed front) {ref : UInt64}
    {side : UInt8} (hside : (passOne front).refSide ref = some side) :
    side = ascii 'B' ∨ side = ascii 'S' := by
  induction front using List.reverseRecOn generalizing ref side with
  | nil => simp [passOne] at hside
  | append_singleton front f ih =>
    have hlisted' : SidesListed front := fun g hg => hlisted g (List.mem_append_left _ hg)
    rw [passOne_append] at hside
    have hstep := scanRow_step (passOne front) f
    generalize scanRow (passOne front) f = after at hside hstep
    cases hstep with
    | ignored | executed => exact ih hlisted' hside
    | added hmsg _ _ =>
      simp only [Function.update_apply] at hside
      split_ifs at hside with href
      · rw [← Option.some.inj hside]
        exact hlisted f (by simp) hmsg
      · exact ih hlisted' hside
    | replaced _ _ =>
      simp only [Function.update_apply] at hside
      split_ifs at hside with hnew hold
      · cases hfound : (passOne front).refSide (refOf f) with
        | none =>
          rw [hfound, Option.getD_none] at hside
          exact Or.inl (Option.some.inj hside).symm
        | some old =>
          rw [hfound, Option.getD_some] at hside
          rw [← Option.some.inj hside]
          exact ih hlisted' hfound
      · exact ih hlisted' hside
    | deleted _ _ =>
      simp only [Function.update_apply] at hside
      split_ifs at hside with href
      exact ih hlisted' hside

/-- The executions behind the rows in front. -/
theorem executionsFrom_append (front rows : List Row) (f : Row) :
    executionsFrom front (rows ++ [f]) =
      executionsFrom front rows ++ (executionAt (front ++ rows) f).toList := by
  induction rows generalizing front with
  | nil => simp [executionsFrom]
  | cons g rows ih =>
    rw [List.cons_append, executionsFrom, ih, executionsFrom, List.append_assoc, List.append_assoc,
      List.singleton_append]

theorem executions_append (rows : List Row) (f : Row) :
    executions (rows ++ [f]) = executions rows ++ (executionAt rows f).toList := by
  rw [executions, executionsFrom_append, List.nil_append]
  rfl

/-- An execution stands in a row with a message type, at its time. -/
theorem carries_of_mem {rows : List Row} {x : RestingExecution} (hx : x ∈ executions rows) :
    ∃ f ∈ rows, msgOf f ≠ none ∧ tsOf f = x.ts := by
  induction rows using List.reverseRecOn with
  | nil => simp [executions, executionsFrom] at hx
  | append_singleton rows f ih =>
    rw [executions_append, List.mem_append] at hx
    rcases hx with hx | hx
    · obtain ⟨g, hg, hcarries⟩ := ih hx
      exact ⟨g, List.mem_append_left _ hg, hcarries⟩
    · refine ⟨f, by simp, ?_⟩
      rw [Option.mem_toList, executionAt, Option.map_eq_some_iff] at hx
      obtain ⟨side, hside, rfl⟩ := hx
      refine ⟨?_, rfl⟩
      intro hmsg
      simp [executedSide, hmsg] at hside

theorem listed_of_mem {rows : List Row} (hlisted : SidesListed rows) {x : RestingExecution}
    (hx : x ∈ executions rows) : x.restingSide = ascii 'B' ∨ x.restingSide = ascii 'S' := by
  induction rows using List.reverseRecOn with
  | nil => simp [executions, executionsFrom] at hx
  | append_singleton rows f ih =>
    have hlisted' : SidesListed rows := fun g hg => hlisted g (List.mem_append_left _ hg)
    rw [executions_append, List.mem_append] at hx
    rcases hx with hx | hx
    · exact ih hlisted' hx
    · rw [Option.mem_toList, executionAt, Option.map_eq_some_iff] at hx
      obtain ⟨side, hside, rfl⟩ := hx
      rw [executedSide] at hside
      split_ifs at hside
      exact refSide_listed hlisted' hside

end Steps

section Tables

/-- One more execution of a group. -/
def merge (agg : Aggregate) (x : RestingExecution) : Aggregate :=
  agg.add x.restingSide x.price x.shares

/-- One more execution in the table of groups. -/
def record (table : Aggregates) (x : RestingExecution) : Aggregates :=
  table.insert (keyOf x.ts x.restingSide)
    (merge ((table.lookup (keyOf x.ts x.restingSide)).getD {}) x)

/-- The table of the scan is the record of the executions. -/
theorem aggregates_eq (rows : List Row) :
    (passOne rows).aggregates = (executions rows).foldl record ∅ := by
  induction rows using List.reverseRecOn with
  | nil => rfl
  | append_singleton rows f ih =>
    rw [passOne_append, executions_append, List.foldl_append, ← ih]
    have hstep := scanRow_step (passOne rows) f
    generalize scanRow (passOne rows) f = after at hstep
    cases hstep with
    | ignored _ hexecuted | added _ _ hexecuted | replaced _ hexecuted | deleted _ hexecuted =>
      rw [executionAt, hexecuted]
      rfl
    | @executed restingSide _ _ hexecuted hagg =>
      rw [executionAt, hexecuted, hagg]
      have hside : (passOne rows).refSide (refOf f) = some restingSide := by
        rw [executedSide] at hexecuted
        split_ifs at hexecuted
        exact hexecuted
      rw [refPrice_eq rows hside]
      rfl

theorem mem_foldl_record (xs : List RestingExecution) (table : Aggregates) (key : UInt64) :
    key ∈ xs.foldl record table ↔ key ∈ table ∨ ∃ x ∈ xs, keyOf x.ts x.restingSide = key := by
  induction xs generalizing table with
  | nil => simp
  | cons x xs ih =>
    rw [List.foldl_cons, ih, record, AList.mem_insert]
    simp only [List.exists_mem_cons_iff]
    tauto

/-- The entry of a key is the merger of the executions with that key. -/
theorem lookup_foldl_record (xs : List RestingExecution) (table : Aggregates) (key : UInt64) :
    ((xs.foldl record table).lookup key).getD {} =
      (xs.filter fun x => keyOf x.ts x.restingSide = key).foldl merge
        ((table.lookup key).getD {}) := by
  induction xs generalizing table with
  | nil => rfl
  | cons x xs ih =>
    rw [List.foldl_cons, ih, record]
    by_cases hkey : keyOf x.ts x.restingSide = key
    · subst hkey
      rw [List.filter_cons_of_pos (by simp), List.foldl_cons, AList.lookup_insert, Option.getD_some]
    · rw [List.filter_cons_of_neg (by simpa using hkey), AList.lookup_insert_ne (Ne.symm hkey)]

/-- The entry of a group. -/
def summed (xs : List RestingExecution) : Aggregate := xs.foldl merge {}

theorem keyOf_toNat {ts : UInt64} (hts : ts.toNat < 2 ^ 63) (restingSide : UInt8) :
    (keyOf ts restingSide).toNat = ts.toNat * 2 + if restingSide = ascii 'S' then 1 else 0 := by
  unfold keyOf
  have hbit : (if restingSide = ascii 'S' then (1 : UInt64) else 0).toNat =
      if restingSide = ascii 'S' then 1 else 0 := by
    split_ifs <;> rfl
  rw [UInt64.toNat_add, UInt64.toNat_mul, hbit]
  change (ts.toNat * 2 % 2 ^ 64 + _) % 2 ^ 64 = _
  split_ifs <;> omega

/-- The time of a key. -/
theorem keyOf_half {ts : UInt64} (hts : ts.toNat < 2 ^ 63) (restingSide : UInt8) :
    keyOf ts restingSide / 2 = ts := by
  apply UInt64.toNat_inj.mp
  rw [UInt64.toNat_div, keyOf_toNat hts]
  change (_ + _) / 2 = _
  split_ifs <;> omega

/-- Different groups have different keys. -/
theorem keyOf_inj {ts ts' : UInt64} {side side' : UInt8} (hts : ts.toNat < 2 ^ 63)
    (hts' : ts'.toNat < 2 ^ 63) (hside : side = ascii 'B' ∨ side = ascii 'S')
    (hside' : side' = ascii 'B' ∨ side' = ascii 'S') :
    keyOf ts side = keyOf ts' side' ↔ ts = ts' ∧ side = side' := by
  constructor
  · intro heq
    have htime : ts = ts' := by rw [← keyOf_half hts side, heq, keyOf_half hts']
    refine ⟨htime, ?_⟩
    have hnat := congrArg UInt64.toNat heq
    rw [keyOf_toNat hts, keyOf_toNat hts', htime] at hnat
    have hne : ascii 'B' ≠ ascii 'S' := by decide
    rcases hside with rfl | rfl <;> rcases hside' with rfl | rfl
    · rfl
    · simp [hne] at hnat
    · simp [hne] at hnat
    · rfl
  · rintro ⟨rfl, rfl⟩
    rfl

variable {rows : List Row}

theorem time_of_mem (htimes : ∀ f ∈ rows, (tsOf f).toNat < 2 ^ 63) {x : RestingExecution}
    (hx : x ∈ executions rows) : x.ts.toNat < 2 ^ 63 := by
  obtain ⟨f, hf, -, hts⟩ := carries_of_mem hx
  exact hts ▸ htimes f hf

/-- The executions with the key of one are those of its group. -/
theorem filter_key (hlisted : SidesListed rows) (htimes : ∀ f ∈ rows, (tsOf f).toNat < 2 ^ 63)
    {x : RestingExecution} (hx : x ∈ executions rows) :
    ((executions rows).filter fun y => keyOf y.ts y.restingSide = keyOf x.ts x.restingSide) =
      group rows x.ts x.restingSide := by
  refine List.filter_congr fun y hy => ?_
  rw [decide_eq_decide]
  exact keyOf_inj (time_of_mem htimes hy) (time_of_mem htimes hx) (listed_of_mem hlisted hy)
    (listed_of_mem hlisted hx)

/-- The entry of an execution is that of its group. -/
theorem lookup_group (hlisted : SidesListed rows) (htimes : ∀ f ∈ rows, (tsOf f).toNat < 2 ^ 63)
    {x : RestingExecution} (hx : x ∈ executions rows) :
    (passOne rows).aggregates.lookup (keyOf x.ts x.restingSide) =
      some (summed (group rows x.ts x.restingSide)) := by
  have hmem : keyOf x.ts x.restingSide ∈ (passOne rows).aggregates := by
    rw [aggregates_eq, mem_foldl_record]
    exact .inr ⟨x, hx, rfl⟩
  obtain ⟨agg, hagg⟩ := Option.isSome_iff_exists.mp (AList.lookup_isSome.mpr hmem)
  have hmerged := lookup_foldl_record (executions rows) ∅ (keyOf x.ts x.restingSide)
  rw [← aggregates_eq, hagg, filter_key hlisted htimes hx, AList.lookup_empty, Option.getD_some,
    Option.getD_none] at hmerged
  rw [hagg, hmerged]
  rfl

/-- The entries of the table are the groups that are not empty. -/
theorem mem_entries (hlisted : SidesListed rows) (htimes : ∀ f ∈ rows, (tsOf f).toNat < 2 ^ 63)
    {entry : Entry} :
    entry ∈ (passOne rows).aggregates.entries ↔ ∃ ts restingSide, group rows ts restingSide ≠ [] ∧
      entry = ⟨keyOf ts restingSide, summed (group rows ts restingSide)⟩ := by
  obtain ⟨key, agg⟩ := entry
  constructor
  · intro hentry
    have hfound := AList.mem_lookup_iff.mpr hentry
    have hmem : key ∈ (passOne rows).aggregates :=
      AList.lookup_isSome.mp (Option.isSome_iff_exists.mpr ⟨agg, hfound⟩)
    rw [aggregates_eq, mem_foldl_record] at hmem
    obtain hmem | ⟨x, hx, rfl⟩ := hmem
    · exact absurd hmem (AList.notMem_empty _)
    · refine ⟨x.ts, x.restingSide, ?_, ?_⟩
      · exact List.ne_nil_of_mem (List.mem_filter.mpr ⟨hx, by simp⟩)
      · rw [Option.mem_def, lookup_group hlisted htimes hx, Option.some.injEq] at hfound
        rw [hfound]
  · rintro ⟨ts, restingSide, hne, heq⟩
    obtain ⟨x, hx⟩ := List.exists_mem_of_ne_nil _ hne
    obtain ⟨hexecuted, hgroup⟩ := List.mem_filter.mp hx
    obtain ⟨rfl, rfl⟩ := of_decide_eq_true hgroup
    rw [heq]
    exact AList.mem_lookup_iff.mp (lookup_group hlisted htimes hexecuted)

/-- A started group keeps the worst of its prices. -/
theorem worst_add {agg : Aggregate} (hstarted : agg.started = true) {restingSide : UInt8}
    {prices : List UInt64} (h : Worst restingSide prices agg.priceExtreme) (price qty : UInt64) :
    Worst restingSide (prices ++ [price]) (agg.add restingSide price qty).priceExtreme := by
  obtain ⟨hmem, hworst⟩ := h
  simp only [Aggregate.add, hstarted, Bool.not_true, Bool.false_eq_true, if_false]
  by_cases hsell : restingSide = ascii 'S'
  · obtain ⟨hleft, hright, hpick⟩ := max_spec agg.priceExtreme price
    simp only [if_pos hsell] at hworst
    simp only [Worst, if_pos hsell, List.mem_append, List.mem_singleton]
    refine ⟨hpick.imp_left fun heq => by rwa [heq], ?_⟩
    rintro q (hq | rfl)
    · exact UInt64.le_trans (hworst q hq) hleft
    · exact hright
  · obtain ⟨hleft, hright, hpick⟩ := min_spec agg.priceExtreme price
    simp only [if_neg hsell] at hworst
    simp only [Worst, if_neg hsell, List.mem_append, List.mem_singleton]
    refine ⟨hpick.imp_left fun heq => by rwa [heq], ?_⟩
    rintro q (hq | rfl)
    · exact UInt64.le_trans hleft (hworst q hq)
    · exact hright

/-- What the entry of a group holds. -/
theorem summed_spec {xs : List RestingExecution} {restingSide : UInt8} (hne : xs ≠ [])
    (hside : ∀ x ∈ xs, x.restingSide = restingSide) :
    (summed xs).started = true ∧ (summed xs).restingSide = restingSide ∧
      Worst restingSide (xs.map RestingExecution.price) (summed xs).priceExtreme := by
  induction xs using List.reverseRecOn with
  | nil => exact absurd rfl hne
  | append_singleton xs x ih =>
    have hx : x.restingSide = restingSide := hside x (by simp)
    have hlast : summed (xs ++ [x]) = (summed xs).add restingSide x.price x.shares := by
      rw [summed, List.foldl_append, ← hx]
      rfl
    rw [hlast, List.map_append, List.map_singleton]
    by_cases hxs : xs = []
    · subst hxs
      refine ⟨rfl, rfl, by simp [Aggregate.add, summed], ?_⟩
      simp [Aggregate.add, summed]
    · obtain ⟨hstarted, hresting, hworst⟩ :=
        ih hxs fun y hy => hside y (List.mem_append_left _ hy)
      refine ⟨?_, ?_, worst_add hstarted hworst _ _⟩
      · unfold Aggregate.add
        split_ifs
        · rfl
        · exact hstarted
        · exact hstarted
      · unfold Aggregate.add
        split_ifs
        · rfl
        · exact hresting
        · exact hresting

theorem summed_quantity (xs : List RestingExecution) :
    (summed xs).quantity.toNat = (xs.map fun x => x.shares.toNat).sum % 2 ^ 64 := by
  induction xs using List.reverseRecOn with
  | nil => rfl
  | append_singleton xs x ih =>
    rw [summed, List.foldl_append, List.foldl_cons, List.foldl_nil]
    have hadded : (merge (summed xs) x).quantity = (summed xs).quantity + x.shares := by
      unfold merge Aggregate.add
      split_ifs <;> rfl
    change (merge (summed xs) x).quantity.toNat = _
    rw [hadded, UInt64.toNat_add, ih, List.map_append, List.sum_append, List.map_singleton,
      List.sum_singleton, Nat.mod_add_mod]

end Tables

end Leka.ExecutionGroups
