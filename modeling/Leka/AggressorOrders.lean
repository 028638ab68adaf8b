import Leka.ReplayTraces
import Leka.ExecutionGroups

/-!
The aggressors of the replay. Every group of executions with one time and one resting side is
submitted once, as an order on the other side for the volume of the group at its worst price,
and nothing else is: no executed volume is lost or submitted twice. The orders of a time go in
front of every other call for a row with that time.
-/

namespace Leka.AggressorOrders

open Procedures Orders OrderBooks MatchingEngines RestingOrders BookRuns Numerals CsvReaders
  LadderSizes ItchReplays ReplayTraces ExecutionGroups

/-- The side of the aggressor of resting orders. -/
def opposite (restingSide : UInt8) : OrderSide := if restingSide = ascii 'S' then .buy else .sell

def orderSideOf (sub : Submission) : Option OrderSide :=
  match sub.event with
  | .new order => some order.orderSide
  | _ => none

/-- The calls that submit an aggressor with a given time and side. -/
def submitted (ts : UInt64) (side : OrderSide) (subs : List Submission) : List Submission :=
  (syntheticAt ts subs).filter fun sub => orderSideOf sub = some side

/-- The order stands for the executions: their volume, at the worst of their prices. -/
structure StandsFor (restingSide : UInt8) (xs : List RestingExecution) (order : NewOrder) :
    Prop where
  orderType : order.orderType = .limit
  orderSide : order.orderSide = opposite restingSide
  quantity : order.quantity.toNat = (xs.map fun x => x.shares.toNat).sum
  price : Worst restingSide (xs.map RestingExecution.price) order.price

/-- The call is made for the first row that has a message type and carries the time. -/
structure AtFirst (rows : List Row) (ts : UInt64) (sub : Submission) : Prop where
  row : rows[sub.index]? = some sub.fields
  carries : Carries ts sub.fields
  first : ∀ j < sub.index, ∀ f, rows[j]? = some f → ¬ Carries ts f

section Regrouped

variable {rows : List Row} {ts : UInt64} {restingSide : UInt8}

theorem opposite_inj {side side' : UInt8} (hside : side = ascii 'B' ∨ side = ascii 'S')
    (hside' : side' = ascii 'B' ∨ side' = ascii 'S') :
    opposite side = opposite side' ↔ side = side' := by
  have hne : ascii 'B' ≠ ascii 'S' := by decide
  rcases hside with rfl | rfl <;> rcases hside' with rfl | rfl <;> simp [opposite, hne, hne.symm]

/-- A group that is not empty has a time of a row and a listed side. -/
theorem listed_of_group (hlisted : SidesListed rows)
    (htimes : ∀ f ∈ rows, (tsOf f).toNat < 2 ^ 63) (hne : group rows ts restingSide ≠ []) :
    ts.toNat < 2 ^ 63 ∧ (restingSide = ascii 'B' ∨ restingSide = ascii 'S') ∧
      ∃ f ∈ rows, Carries ts f := by
  obtain ⟨x, hx⟩ := List.exists_mem_of_ne_nil _ hne
  obtain ⟨hexecuted, hgroup⟩ := List.mem_filter.mp hx
  obtain ⟨rfl, rfl⟩ := of_decide_eq_true hgroup
  obtain ⟨f, hf, hmsg, hts⟩ := carries_of_mem hexecuted
  exact ⟨hts ▸ htimes f hf, listed_of_mem hlisted hexecuted, f, hf, hmsg, hts⟩

theorem side_of_group (ts : UInt64) (restingSide : UInt8) :
    ∀ x ∈ group rows ts restingSide, x.restingSide = restingSide :=
  fun _ hx => (of_decide_eq_true (List.mem_filter.mp hx).2).2

/-- The event of the entry of a group. -/
theorem aggressorOf_summed (hne : group rows ts restingSide ≠ []) :
    (aggressorOf (summed (group rows ts restingSide))).side = opposite restingSide := by
  obtain ⟨-, hside, -⟩ := summed_spec hne (side_of_group ts restingSide)
  rw [aggressorOf, hside]
  rfl

/-- The pending aggressors of a group are one, whatever the order in which the table is
visited. -/
theorem regroup_group (hlisted : SidesListed rows)
    (htimes : ∀ f ∈ rows, (tsOf f).toNat < 2 ^ 63) {visited : List Entry}
    (hvisited : visited.Perm (passOne rows).aggregates.entries)
    (hne : group rows ts restingSide ≠ []) :
    (regroup visited ts).filter (fun agg => agg.side = opposite restingSide) =
      [aggressorOf (summed (group rows ts restingSide))] := by
  obtain ⟨hts, hside, -⟩ := listed_of_group hlisted htimes hne
  let entry : Entry := ⟨keyOf ts restingSide, summed (group rows ts restingSide)⟩
  have hentries : ∀ e ∈ visited, (e.1 / 2 = ts ∧ (aggressorOf e.2).side = opposite restingSide) ↔
      e = entry := by
    intro e he
    obtain ⟨ts', side', hne', rfl⟩ := (mem_entries hlisted htimes).mp (hvisited.mem_iff.mp he)
    obtain ⟨hts', hside', -⟩ := listed_of_group hlisted htimes hne'
    rw [keyOf_half hts', aggressorOf_summed hne', opposite_inj hside' hside]
    constructor
    · rintro ⟨rfl, rfl⟩
      rfl
    · intro heq
      exact (keyOf_inj hts' hts hside' hside).mp (congrArg Sigma.fst heq)
  have hmem : entry ∈ visited :=
    hvisited.mem_iff.mpr ((mem_entries hlisted htimes).mpr ⟨ts, restingSide, hne, rfl⟩)
  have hnodup : visited.Nodup :=
    hvisited.nodup_iff.mpr (List.NodupKeys.nodup (passOne rows).aggregates.nodupKeys)
  rw [regroup_apply, List.filter_map, List.filter_filter]
  have hfilter : (visited.filter fun e : Entry =>
      ((fun agg => decide (agg.side = opposite restingSide)) ∘ fun e => aggressorOf e.2) e &&
        decide (e.1 / 2 = ts)) = visited.filter fun e => e = entry := by
    refine List.filter_congr fun e he => ?_
    rw [Bool.and_comm, Function.comp_apply, ← Bool.decide_and, decide_eq_decide]
    exact hentries e he
  rw [hfilter, List.filter_eq, List.count_eq_one_of_mem hnodup hmem]
  rfl

end Regrouped

section Passes

variable {rows : List Row} {visited : List Entry} {subs : List Submission}

/-- The calls on a sound book keep it sound. -/
theorem plays_sound (hash : OrderId → UInt64) :
    Plays hash (fun s => Sound hash s.orderBook) Set.univ fun _ => True where
  sound _ hs := hs
  step host event _ hs _ := ⟨sound_processEvent hs host event, trivial⟩

/-- The table has at most one entry for each 64-bit key. -/
theorem entries_length (table : Aggregates) : table.entries.length ≤ 2 ^ 64 := by
  have hnodup : (table.keys.map UInt64.toNat).Nodup :=
    List.Nodup.map (fun _ _ => UInt64.toNat_inj.mp) table.keys_nodup
  have hsub : table.keys.map UInt64.toNat ⊆ List.range (2 ^ 64) := by
    intro n hn
    obtain ⟨key, -, rfl⟩ := List.mem_map.mp hn
    exact List.mem_range.mpr key.toNat_lt
  have hlength := (hnodup.subperm hsub).length_le
  rwa [List.length_map, List.length_range, AList.keys, List.keys, List.length_map] at hlength

theorem exists_of_forall₂ {α β : Type} {R : α → β → Prop} {xs : List α} {ys : List β}
    (h : List.Forall₂ R xs ys) {y : β} (hy : y ∈ ys) : ∃ x ∈ xs, R x y := by
  induction h with
  | nil => simp at hy
  | cons hfirst _ ih =>
    rcases List.mem_cons.mp hy with rfl | hy
    · exact ⟨_, List.mem_cons_self, hfirst⟩
    · obtain ⟨x, hx, hR⟩ := ih hy
      exact ⟨x, List.mem_cons_of_mem _ hx, hR⟩

/-- The rows up to the first one that carries a time. -/
theorem first_carrying {ts : UInt64} (hsome : ∃ f ∈ rows, Carries ts f) :
    ∃ front f back, rows = front ++ f :: back ∧ (∀ g ∈ front, ¬ Carries ts g) ∧ Carries ts f := by
  have hfind : ∃ f, rows.find? (fun f => msgOf f ≠ none ∧ tsOf f = ts) = some f := by
    obtain ⟨f, hf, hcarries⟩ := hsome
    exact Option.isSome_iff_exists.mp
      (List.find?_isSome.mpr ⟨f, hf, by simpa [Carries] using hcarries⟩)
  obtain ⟨f, hf⟩ := hfind
  obtain ⟨hcarries, front, back, hrows, hfront⟩ := List.find?_eq_some_iff_append.mp hf
  refine ⟨front, f, back, hrows, fun g hg => ?_, by simpa [Carries] using hcarries⟩
  simpa [Carries, imp_iff_not_or] using hfront g hg

/-- A group is submitted once, at the first row that carries its time. -/
theorem submitted_group (hlisted : SidesListed rows)
    (htimes : ∀ f ∈ rows, (tsOf f).toNat < 2 ^ 63) {ts : UInt64} {restingSide : UInt8}
    (hsum : ((group rows ts restingSide).map fun x => x.shares.toNat).sum < 2 ^ 64)
    (hvisited : visited.Perm (passOne rows).aggregates.entries)
    (htraces : Traces (regroup visited) 0 0 rows subs) (hne : group rows ts restingSide ≠ []) :
    ∃ sub order, submitted ts (opposite restingSide) subs = [sub] ∧ sub.event = .new order ∧
      StandsFor restingSide (group rows ts restingSide) order ∧ AtFirst rows ts sub := by
  obtain ⟨-, -, hcarried⟩ := listed_of_group hlisted htimes hne
  obtain ⟨front, f, back, rfl, hfront, hf⟩ := first_carrying hcarried
  have hcalls := htraces.at_first hfront hf
  rw [Nat.zero_add] at hcalls
  have hsides := List.rel_filter (p := fun agg => decide (agg.side = opposite restingSide))
    (q := fun sub => decide (orderSideOf sub = some (opposite restingSide))) ?_ hcalls
  · rw [regroup_group hlisted htimes hvisited hne] at hsides
    obtain ⟨sub, _, ⟨counter, hsub⟩, hnil, hsubs⟩ := List.forall₂_cons_left_iff.mp hsides
    rw [List.forall₂_nil_left_iff.mp hnil] at hsubs
    obtain ⟨-, -, hworst⟩ := summed_spec hne (side_of_group ts restingSide)
    refine ⟨sub, _, hsubs, hsub.event, ⟨rfl, aggressorOf_summed hne, ?_, hworst⟩, ?_⟩
    · exact (summed_quantity _).trans (Nat.mod_eq_of_lt hsum)
    · refine ⟨?_, hsub.fields ▸ hf, ?_⟩
      · rw [hsub.index, hsub.fields]
        simp
      · intro j hj g hg
        rw [hsub.index] at hj
        rw [List.getElem?_append_left hj] at hg
        exact hfront g (List.mem_of_getElem? hg)
  · rintro agg sub ⟨counter, hsub⟩
    simp [orderSideOf, hsub.event, aggressorOrder]

/-- What is submitted as an aggressor stands for a group. -/
theorem group_of_submitted (hlisted : SidesListed rows)
    (htimes : ∀ f ∈ rows, (tsOf f).toNat < 2 ^ 63)
    (hvisited : visited.Perm (passOne rows).aggregates.entries)
    (htraces : Traces (regroup visited) 0 0 rows subs) {sub : Submission}
    (hsub : sub ∈ synthetic subs) :
    ∃ restingSide, group rows (tsOf sub.fields) restingSide ≠ [] ∧
      orderSideOf sub = some (opposite restingSide) := by
  obtain ⟨hmem, hlabel⟩ := List.mem_filter.mp hsub
  obtain ⟨hrow, hmsg⟩ := htraces.fields sub hmem
  obtain ⟨front, f, back, rfl, hfront, hf⟩ := first_carrying ⟨_, hrow, hmsg, rfl⟩
  have hcalls := htraces.at_first hfront hf
  have hat : sub ∈ syntheticAt (tsOf sub.fields) subs :=
    List.mem_filter.mpr ⟨hmem, by simpa using hlabel⟩
  obtain ⟨agg, hagg, counter, hinjects⟩ := exists_of_forall₂ hcalls hat
  rw [regroup_apply] at hagg
  obtain ⟨entry, hentry, rfl⟩ := List.mem_map.mp hagg
  obtain ⟨hentry, hhalf⟩ := List.mem_filter.mp hentry
  obtain ⟨ts, restingSide, hne, rfl⟩ :=
    (mem_entries hlisted htimes).mp (hvisited.mem_iff.mp hentry)
  have hts : ts = tsOf sub.fields := by
    rw [← of_decide_eq_true hhalf, keyOf_half (listed_of_group hlisted htimes hne).1]
  subst hts
  refine ⟨restingSide, hne, ?_⟩
  rw [orderSideOf, hinjects.event]
  exact congrArg some (aggressorOf_summed hne)

/-- The second pass ends normally. For each group of executions with one time and one resting
side it submits exactly one aggressor: on the other side, for the shares of the group, at its
worst price, at the first row that carries the time. It submits no other aggressor, no two with
one identifier, and none behind another call for a row with its time. -/
theorem aggressors_exact (setting : Setting) (text : Text)
    (hvisit : ∀ entries, (setting.visit entries).Perm entries)
    (hlisted : SidesListed (dataRows text))
    (htimes : ∀ f ∈ dataRows text, (tsOf f).toNat < 2 ^ 63)
    (hsums : ∀ ts restingSide,
      ((group (dataRows text) ts restingSide).map fun x => x.shares.toNat).sum < 2 ^ 64)
    {o : Outcome StdException Unit} {s : Replay}
    (hrun : itchReplay setting text = .replayed o s) :
    o = .returns () ∧
      (∀ ts restingSide, group (dataRows text) ts restingSide ≠ [] →
        ∃ sub order, submitted ts (opposite restingSide) s.submissions = [sub] ∧
          sub.event = .new order ∧
          StandsFor restingSide (group (dataRows text) ts restingSide) order ∧
          AtFirst (dataRows text) ts sub) ∧
      (∀ sub ∈ synthetic s.submissions, ∃ restingSide,
        group (dataRows text) (tsOf sub.fields) restingSide ≠ [] ∧
          orderSideOf sub = some (opposite restingSide)) ∧
      ((synthetic s.submissions).map orderIdOf).Nodup ∧
      s.submissions.Pairwise fun a b => b.label = .AGGR → tsOf a.fields = tsOf b.fields →
        a.label = .AGGR := by
  obtain ⟨book, hopen, hpass⟩ := itchReplay_replayed hrun
  have hvisited := hvisit (passOne (dataRows text)).aggregates.entries
  have hinv : Sound setting.hash
      (⟨setting.currentSequence, book, []⟩ : EngineState).orderBook := openBook_sound hopen
  obtain ⟨s', hrun', -, htraces⟩ := passTwo_traces (plays_sound setting.hash) setting.hosts hinv
    (fun _ _ _ _ _ => Set.mem_univ _) (fun _ _ => Set.mem_univ _)
  obtain ⟨rfl, rfl⟩ := Prod.ext_iff.mp (hrun'.symm.trans hpass)
  refine ⟨rfl, ?_, ?_, ?_, htraces.before⟩
  · intro ts restingSide hne
    exact submitted_group hlisted htimes (hsums ts restingSide) hvisited htraces hne
  · intro sub hsub
    exact group_of_submitted hlisted htimes hvisited htraces hsub
  · rw [htraces.ids]
    refine idsFrom_nodup 0 ((htraces.length_le).trans ?_)
    rw [hvisited.length_eq]
    exact entries_length _

/-- No group has more shares than all executions together. -/
theorem group_sums {rows : List Row}
    (h : ((executions rows).map fun x => x.shares.toNat).sum < 2 ^ 64) (ts : UInt64)
    (restingSide : UInt8) :
    ((group rows ts restingSide).map fun x => x.shares.toNat).sum < 2 ^ 64 :=
  ((List.filter_sublist.map _).sum_le_sum fun _ _ => Nat.zero_le _).trans_lt h

/-- Two sell orders are executed at one time, with a row of another time in between. -/
def interleaved : Text := fileOf ["0,1,0,,A,,,1,S,10,0.0100,,,,", "1,2,0,,A,,,2,S,10,0.0110,,,,",
  "2,3,0,,E,,,1,,4,,,,,", "3,4,0,,A,,,3,B,5,0.0090,,,,", "4,3,0,,E,,,2,,6,,,,,"]

/-- The two executions are submitted as one buy order for 10 at the higher price. -/
theorem aggressors_exact_interleaved : ∃ s, itchReplay (fiveTick fun _ => 0) interleaved =
      .replayed (.returns ()) s ∧
    ∃ sub order, submitted 3 .buy s.submissions = [sub] ∧ sub.event = .new order ∧
      order.quantity = 10 ∧ order.price = 110 ∧ AtFirst (dataRows interleaved) 3 sub := by
  have hreached : (itchReplay (fiveTick fun _ => 0) interleaved).submissions.isEmpty = false := by
    decide +kernel
  have hlisted : SidesListed (dataRows interleaved) := by
    unfold SidesListed
    decide +kernel
  have htimes : ∀ f ∈ dataRows interleaved, (tsOf f).toNat < 2 ^ 63 := by decide +kernel
  have hexecutions : executions (dataRows interleaved) =
      [⟨3, ascii 'S', 4, 100⟩, ⟨3, ascii 'S', 6, 110⟩] := by decide +kernel
  have hsums := @group_sums (dataRows interleaved) (by rw [hexecutions]; decide)
  have hgroup : group (dataRows interleaved) 3 (ascii 'S') =
      [⟨3, ascii 'S', 4, 100⟩, ⟨3, ascii 'S', 6, 110⟩] := by
    rw [group, hexecutions]
    decide
  cases hrun : itchReplay (fiveTick fun _ => 0) interleaved with
  | noPricedRows | stopped =>
    rw [hrun] at hreached
    cases hreached
  | replayed o s =>
    obtain ⟨rfl, hsubmitted, -⟩ := aggressors_exact (fiveTick fun _ => 0) interleaved
      (fun entries => entries.reverse_perm) hlisted htimes hsums hrun
    obtain ⟨sub, order, hsubs, hevent, hstands, hfirst⟩ :=
      hsubmitted 3 (ascii 'S') (by simp [hgroup])
    rw [hgroup] at hstands
    refine ⟨s, rfl, sub, order, hsubs, hevent, UInt64.toNat_inj.mp hstands.quantity, ?_, hfirst⟩
    have hworst := hstands.price
    simp only [Worst, List.map_cons, List.map_nil, List.mem_cons, List.not_mem_nil, or_false,
      if_true] at hworst
    obtain ⟨heq | heq, hle⟩ := hworst
    · exact absurd (hle 110 (by simp)) (by rw [heq]; decide)
    · exact heq

/-- A sell order without a price is executed. -/
def unpriced : Text := fileOf ["0,1,0,,A,,,1,S,10,,,,,", "1,2,0,,E,,,1,,4,,,,,"]

/-- The tool ends behind the first pass, and the execution gets no aggressor. -/
theorem unpriced_aggressor_lost :
    SidesListed (dataRows unpriced) ∧ (∀ f ∈ dataRows unpriced, (tsOf f).toNat < 2 ^ 63) ∧
      (∀ ts restingSide,
        ((group (dataRows unpriced) ts restingSide).map fun x => x.shares.toNat).sum < 2 ^ 64) ∧
      group (dataRows unpriced) 2 (ascii 'S') = [⟨2, ascii 'S', 4, 0⟩] ∧
      itchReplay (fiveTick fun _ => 0) unpriced = .noPricedRows ∧
      submitted 2 .buy (itchReplay (fiveTick fun _ => 0) unpriced).submissions = [] := by
  have hlisted : SidesListed (dataRows unpriced) := by
    unfold SidesListed
    decide +kernel
  have hexecutions : executions (dataRows unpriced) = [⟨2, ascii 'S', 4, 0⟩] := by decide +kernel
  have hsums := @group_sums (dataRows unpriced) (by rw [hexecutions]; decide)
  have hgroup : group (dataRows unpriced) 2 (ascii 'S') = [⟨2, ascii 'S', 4, 0⟩] := by
    rw [group, hexecutions]
    decide
  have hrange : (passOne (dataRows unpriced)).range.minPriceRaw = uint64Max := by decide +kernel
  have hrun : itchReplay (fiveTick fun _ => 0) unpriced = .noPricedRows := if_pos hrange
  refine ⟨hlisted, by decide +kernel, hsums, hgroup, hrun, ?_⟩
  rw [hrun]
  rfl

end Passes

end Leka.AggressorOrders
