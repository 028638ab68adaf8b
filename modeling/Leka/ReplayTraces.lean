import Leka.ItchReplays

/-!
What the second pass submits. The calls of a row are the aggressors due at its time and then
the events of the row itself; the aggressors of a time are due once, at the first row with a
message type that carries it. The trace is a relation between the pending aggressors, the rows
and the calls, and every run of the pass has one.
-/

namespace Leka.ReplayTraces

open Procedures Orders OrderPools OrderBooks MatchingEngines SyncedBooks RestingOrders
  MatchingRounds EventOutcomes BookRuns Numerals CsvReaders ItchReplays

/-- The row has a message type and carries the time. -/
def Carries (ts : UInt64) (f : Row) : Prop := msgOf f ≠ none ∧ tsOf f = ts

/-- The call submits the order of an aggressor for a row. -/
structure Injects (index : ℕ) (f : Row) (counter : UInt64) (agg : AggressorEvent)
    (sub : Submission) : Prop where
  index : sub.index = index
  fields : sub.fields = f
  label : sub.label = .AGGR
  event : sub.event = .new (aggressorOrder (SyntheticIdBase + counter) (timestampOf f) agg)

/-- The calls submit the orders of the aggressors in turn, with running identifiers. -/
inductive Injected (index : ℕ) (f : Row) :
    UInt64 → List AggressorEvent → List Submission → Prop
  | nil {counter : UInt64} : Injected index f counter [] []
  | cons {counter : UInt64} {agg : AggressorEvent} {sub : Submission}
      {aggs : List AggressorEvent} {subs : List Submission}
      (hfirst : Injects index f counter agg sub)
      (hrest : Injected index f (counter + 1) aggs subs) :
      Injected index f counter (agg :: aggs) (sub :: subs)

/-- A call for a row that submits no aggressor. -/
structure Proper (index : ℕ) (f : Row) (sub : Submission) : Prop where
  index : sub.index = index
  fields : sub.fields = f
  label : sub.label ≠ .AGGR

/-- The calls of the rows from an index on. -/
inductive Traces : (UInt64 → List AggressorEvent) → UInt64 → ℕ → List Row → List Submission → Prop
  | done {pending : UInt64 → List AggressorEvent} {counter : UInt64} {index : ℕ} :
      Traces pending counter index [] []
  | skip {pending : UInt64 → List AggressorEvent} {counter : UInt64} {index : ℕ} {f : Row}
      {rows : List Row} {subs : List Submission} (hmsg : msgOf f = none)
      (hrest : Traces pending counter (index + 1) rows subs) :
      Traces pending counter index (f :: rows) subs
  | row {pending : UInt64 → List AggressorEvent} {counter : UInt64} {index : ℕ} {f : Row}
      {rows : List Row} {due own subs : List Submission} (hmsg : msgOf f ≠ none)
      (hdue : Injected index f counter (pending (tsOf f)) due)
      (hown : ∀ sub ∈ own, Proper index f sub)
      (hrest : Traces (Function.update pending (tsOf f) [])
        (counter + UInt64.ofNat (pending (tsOf f)).length) (index + 1) rows subs) :
      Traces pending counter index (f :: rows) (due ++ own ++ subs)

section Calls

variable {hash : OrderId → UInt64} {s : EngineState}

/-- A call on a sound book ends. -/
theorem processEvent_ends_ne (hs : Sound hash s.orderBook) (host : Host) (event : OrderEvent) :
    (processEvent hash host event s).1 ≠ .diverges := by
  have hends := processEvent_ends hs host event
  generalize processEvent hash host event s = result at hends
  cases hends with
  | new hends => cases hends <;> simp [Outcome.map]
  | cancelInvalid | cancelAbsent | cancelled | reduceInvalid | reduceAbsent | reduceRefused
  | reduceSame | reduced => simp

/-- An invariant of the engine under orders with prices from a set, and what every call then
ends in. -/
structure Plays (hash : OrderId → UInt64) (Inv : EngineState → Prop) (prices : Set UInt64)
    (Ok : Outcome StdException ℕ → Prop) : Prop where
  sound : ∀ s, Inv s → Sound hash s.orderBook
  step : ∀ host event s, Inv s → (∀ order, event = .new order → order.price ∈ prices) →
    Inv (processEvent hash host event s).2 ∧ Ok (processEvent hash host event s).1

end Calls

section Passes

variable {hash : OrderId → UInt64} {hosts : ℕ → Host} {Inv : EngineState → Prop}
  {prices : Set UInt64} {Ok : Outcome StdException ℕ → Prop}

/-- Calls have been added that end well, and the pending aggressors are the same. -/
structure Added (Inv : EngineState → Prop) (Ok : Outcome StdException ℕ → Prop) (s s' : Replay)
    (subs : List Submission) : Prop where
  submissions : s'.submissions = s.submissions ++ subs
  inv : Inv s'.engine
  ok : ∀ sub ∈ subs, Ok sub.outcome
  pending : s'.aggressorsByTs = s.aggressorsByTs

theorem added_nil {s : Replay} (h : Inv s.engine) : Added Inv Ok s s [] :=
  ⟨(List.append_nil _).symm, h, by simp, rfl⟩

theorem Added.trans {s s' s'' : Replay} {subs subs' : List Submission}
    (h : Added Inv Ok s s' subs) (h' : Added Inv Ok s' s'' subs') :
    Added Inv Ok s s'' (subs ++ subs') where
  submissions := by rw [h'.submissions, h.submissions, List.append_assoc]
  inv := h'.inv
  ok := List.forall_mem_append.mpr ⟨h.ok, h'.ok⟩
  pending := h'.pending.trans h.pending

/-- One call. -/
theorem submit_added (hosts : ℕ → Host) (h : Plays hash Inv prices Ok) (index : ℕ) (f : Row)
    (label : Label) {event : OrderEvent}
    (hevent : ∀ order, event = .new order → order.price ∈ prices) {s : Replay} (hs : Inv s.engine) :
    ∃ o s' sub, submit hash hosts index f label event s = (o, s') ∧ o ≠ .diverges ∧
      Added Inv Ok s s' [sub] ∧ s'.syntheticIdCounter = s.syntheticIdCounter ∧
      sub.index = index ∧ sub.fields = f ∧ sub.label = label ∧ sub.event = event := by
  have hne := processEvent_ends_ne (h.sound _ hs) (hosts s.submissions.length) event
  obtain ⟨hinv, hok⟩ := h.step (hosts s.submissions.length) event s.engine hs hevent
  unfold submit
  generalize processEvent hash (hosts s.submissions.length) event s.engine = result at hne hinv hok
  obtain ⟨o, engine⟩ := result
  refine ⟨_, _, ⟨index, f, label, event, o⟩, rfl, ?_, ⟨rfl, hinv, ?_, rfl⟩, rfl, rfl, rfl, rfl, rfl⟩
  · cases o with
    | diverges => exact absurd rfl hne
    | returns | throws => simp [Outcome.map]
  · intro sub hsub
    rw [List.mem_singleton.mp hsub]
    exact hok

/-- A procedure that submits calls for a row, none of them an aggressor's. -/
def Acts (Inv : EngineState → Prop) (Ok : Outcome StdException ℕ → Prop) (index : ℕ) (f : Row)
    {α : Type} (x : ReplayProc α) : Prop :=
  ∀ s : Replay, Inv s.engine → ∃ o s' subs, x s = (o, s') ∧ o ≠ .diverges ∧
    Added Inv Ok s s' subs ∧ s'.syntheticIdCounter = s.syntheticIdCounter ∧
    ∀ sub ∈ subs, Proper index f sub

section Rules

variable {index : ℕ} {f : Row} {α β : Type} {x : ReplayProc α}

theorem acts_pure (a : α) : Acts Inv Ok index f (pure a : ReplayProc α) :=
  fun s hs => ⟨.returns a, s, [], rfl, by simp, added_nil hs, rfl, by simp⟩

theorem acts_get : Acts Inv Ok index f (Proc.get : ReplayProc Replay) :=
  fun s hs => ⟨.returns s, s, [], rfl, by simp, added_nil hs, rfl, by simp⟩

theorem Acts.bind (hx : Acts Inv Ok index f x) {g : α → ReplayProc β}
    (hg : ∀ a, Acts Inv Ok index f (g a)) : Acts Inv Ok index f (x >>= g) := by
  intro s hs
  obtain ⟨o, s', subs, hrun, hne, hadded, hcounter, hproper⟩ := hx s hs
  cases o with
  | returns a =>
    obtain ⟨o', s'', subs', hrun', hne', hadded', hcounter', hproper'⟩ := hg a s' hadded.inv
    exact ⟨o', s'', subs ++ subs', (Proc.bind_returns g hrun).trans hrun', hne',
      hadded.trans hadded', hcounter'.trans hcounter,
      List.forall_mem_append.mpr ⟨hproper, hproper'⟩⟩
  | throws e =>
    exact ⟨.throws e, s', subs, Proc.bind_throws g hrun, by simp, hadded, hcounter, hproper⟩
  | diverges => exact absurd rfl hne

theorem Acts.ite {c : Prop} [Decidable c] {y : ReplayProc α} (hx : Acts Inv Ok index f x)
    (hy : Acts Inv Ok index f y) : Acts Inv Ok index f (if c then x else y) := by
  split
  · exact hx
  · exact hy

theorem acts_submit (h : Plays hash Inv prices Ok) {label : Label} (hlabel : label ≠ .AGGR)
    {event : OrderEvent} (hevent : ∀ order, event = .new order → order.price ∈ prices) :
    Acts Inv Ok index f (submit hash hosts index f label event) := by
  intro s hs
  obtain ⟨o, s', sub, hrun, hne, hadded, hcounter, hindex, hfields, hsub, -⟩ :=
    submit_added hosts h index f label hevent hs
  refine ⟨o, s', [sub], hrun, hne, hadded, hcounter, ?_⟩
  intro sub' hmem
  rw [List.mem_singleton.mp hmem]
  exact ⟨hindex, hfields, hsub ▸ hlabel⟩

theorem acts_find (h : Plays hash Inv prices Ok) (id : OrderId) :
    Acts Inv Ok index f (onEngineBook (findOrder hash id)) := by
  intro s hs
  obtain ⟨found, hrun, -⟩ := (h.sound _ hs).synced.findOrder_run id
  have hengine : onEngineBook (findOrder hash id) s = (.returns found, s) := by
    simp only [onEngineBook, MatchingEngines.onBook, Proc.zoom, hrun]
  exact ⟨.returns found, s, [], hengine, by simp, added_nil hs, rfl, by simp⟩

end Rules

/-- The price of the new order of a row is in the set. -/
def Priced (prices : Set UInt64) (f : Row) : Prop :=
  ∀ msg, msgOf f = some msg → msg = ascii 'A' ∨ msg = ascii 'F' ∨ msg = ascii 'U' →
    priceOf f ∈ prices

section Rows

variable {f : Row} {rows : List Row}

/-- The events of a row. -/
theorem acts_message (hosts : ℕ → Host) (h : Plays hash Inv prices Ok) (index : ℕ)
    (hpriced : Priced prices f) (timestamp : Timestamp) {msg : UInt8} (hmsg : msgOf f = some msg) :
    Acts Inv Ok index f (replayMessage hash hosts index f timestamp msg) := by
  have hcancel : ∀ cancel : CancelOrder, ∀ order, OrderEvent.cancel cancel = .new order →
      order.price ∈ prices := nofun
  have hreduce : ∀ reduction : ReduceOrder, ∀ order, OrderEvent.reduce reduction = .new order →
      order.price ∈ prices := nofun
  have hnew : msg = ascii 'A' ∨ msg = ascii 'F' ∨ msg = ascii 'U' → ∀ id side, ∀ order,
      OrderEvent.new (newOrderOf f id timestamp side) = .new order → order.price ∈ prices := by
    intro htype id side order heq
    rw [← OrderEvent.new.inj heq]
    exact hpriced msg hmsg htype
  unfold replayMessage
  by_cases hadd : msg = ascii 'A' ∨ msg = ascii 'F'
  · rw [if_pos hadd]
    exact acts_submit h (by simp) (hnew (by tauto) _ _)
  rw [if_neg hadd]
  by_cases hdelete : msg = ascii 'D'
  · rw [if_pos hdelete]
    exact acts_submit h (by simp) (hcancel _)
  rw [if_neg hdelete]
  by_cases hpartial : msg = ascii 'X'
  · rw [if_pos hpartial]
    refine (acts_find h _).bind fun existing => Acts.ite (acts_get.bind fun s => ?_) (acts_pure _)
    exact Acts.ite (acts_submit h (by simp) (hreduce _)) (acts_submit h (by simp) (hcancel _))
  rw [if_neg hpartial]
  by_cases hreplace : msg = ascii 'U'
  · rw [if_pos hreplace]
    refine (acts_find h _).bind fun existing => Acts.ite (acts_get.bind fun s => ?_) (acts_pure _)
    refine (acts_submit h (by simp) (hcancel _)).bind fun _ => ?_
    exact acts_submit h (by simp) (hnew (by tauto) _ _)
  rw [if_neg hreplace]
  exact acts_pure _

/-- A handler that ignores the exception makes a procedure end normally. -/
theorem caught_run {s s' : Replay} {x : ReplayProc Unit} {o : Outcome StdException Unit}
    (hrun : x s = (o, s')) (hne : o ≠ .diverges) :
    (tryCatch x fun _ => pure () : ReplayProc Unit) s = (.returns (), s') := by
  cases o with
  | returns => exact Proc.handle_returns _ hrun
  | throws e => exact Proc.handle_throws e hrun
  | diverges => exact absurd rfl hne

/-- The aggressors of a time are submitted one after the other. -/
theorem inject_run (hosts : ℕ → Host) (h : Plays hash Inv prices Ok) (index : ℕ) (f : Row)
    (aggs : List AggressorEvent) (hprices : ∀ agg ∈ aggs, agg.priceRaw ∈ prices) {s : Replay}
    (hs : Inv s.engine) :
    ∃ s' subs, inject hash hosts index f (timestampOf f) aggs s = (.returns (), s') ∧
      Added Inv Ok s s' subs ∧
      s'.syntheticIdCounter = s.syntheticIdCounter + UInt64.ofNat aggs.length ∧
      Injected index f s.syntheticIdCounter aggs subs := by
  induction aggs generalizing s with
  | nil => exact ⟨s, [], rfl, added_nil hs, (UInt64.add_zero _).symm, .nil⟩
  | cons agg aggs ih =>
    obtain ⟨hfirst, hothers⟩ := List.forall_mem_cons.mp hprices
    have hevent : ∀ order, OrderEvent.new (aggressorOrder
        (SyntheticIdBase + s.syntheticIdCounter) (timestampOf f) agg) = .new order →
        order.price ∈ prices := by
      intro order heq
      rw [← OrderEvent.new.inj heq]
      exact hfirst
    have hs₁ : Inv ({ s with syntheticIdCounter := s.syntheticIdCounter + 1 } : Replay).engine := hs
    obtain ⟨o, s', sub, hrun, hne, hadded, hcounter, hindex, hfields, hlabel, hsub⟩ :=
      submit_added hosts h index f .AGGR hevent hs₁
    obtain ⟨s'', subs, hrun', hadded', hcounter', hinjected⟩ := ih hothers hadded.inv
    have hstart : Added Inv Ok s s' [sub] := ⟨hadded.submissions, hadded.inv, hadded.ok,
      hadded.pending⟩
    rw [hcounter] at hcounter' hinjected
    refine ⟨s'', sub :: subs, ?_, hstart.trans hadded', ?_, ?_⟩
    · rw [inject, Proc.get_bind_apply, Proc.modify_bind_apply]
      exact (Proc.bind_returns _ (caught_run hrun hne)).trans hrun'
    · rw [hcounter', List.length_cons, UInt64.add_assoc, UInt64.ofNat_add, UInt64.add_comm 1]
      rfl
    · exact .cons ⟨hindex, hfields, hlabel, hsub⟩ hinjected

/-- A row with a message type: the aggressors that are due, and then its own events. -/
theorem replayRow_run (hosts : ℕ → Host) (h : Plays hash Inv prices Ok) (index : ℕ)
    (hmsg : msgOf f ≠ none) (hpriced : Priced prices f) {s : Replay} (hs : Inv s.engine)
    (hpending : ∀ ts, ∀ agg ∈ s.aggressorsByTs ts, agg.priceRaw ∈ prices) :
    ∃ s' due own, replayRow hash hosts index f s = (.returns (), s') ∧
      s'.submissions = s.submissions ++ (due ++ own) ∧ Inv s'.engine ∧
      (∀ sub ∈ due ++ own, Ok sub.outcome) ∧
      s'.aggressorsByTs = Function.update s.aggressorsByTs (tsOf f) [] ∧
      s'.syntheticIdCounter =
        s.syntheticIdCounter + UInt64.ofNat (s.aggressorsByTs (tsOf f)).length ∧
      Injected index f s.syntheticIdCounter (s.aggressorsByTs (tsOf f)) due ∧
      ∀ sub ∈ own, Proper index f sub := by
  obtain ⟨msg, hsome⟩ := Option.ne_none_iff_exists'.mp hmsg
  obtain ⟨s₁, due, hinject, hdue, hcounter, hinjected⟩ :=
    inject_run hosts h index f (s.aggressorsByTs (tsOf f)) (hpending _) hs
  have hs₂ : Inv ({ s₁ with
      aggressorsByTs := Function.update s₁.aggressorsByTs (tsOf f) [] } : Replay).engine := hdue.inv
  obtain ⟨o, s', own, hrun, hne, hown, hcounter', hproper⟩ :=
    acts_message hosts h index hpriced (timestampOf f) hsome _ hs₂
  refine ⟨s', due, own, ?_, ?_, hown.inv, List.forall_mem_append.mpr ⟨hdue.ok, hown.ok⟩, ?_,
    hcounter'.trans hcounter, hinjected, hproper⟩
  · simp only [replayRow, hsome, Proc.get_bind_apply]
    rw [Proc.bind_returns _ hinject, Proc.modify_bind_apply]
    exact caught_run hrun hne
  · rw [hown.submissions, ← List.append_assoc, ← hdue.submissions]
  · rw [hown.pending, ← hdue.pending]

/-- The pass ends normally, and its calls are a trace of the rows. -/
theorem replayRows_traces (hosts : ℕ → Host) (h : Plays hash Inv prices Ok) (index : ℕ)
    (hpriced : ∀ f ∈ rows, Priced prices f) {s : Replay} (hs : Inv s.engine)
    (hpending : ∀ ts, ∀ agg ∈ s.aggressorsByTs ts, agg.priceRaw ∈ prices) :
    ∃ s' subs, replayRows hash hosts index rows s = (.returns (), s') ∧
      s'.submissions = s.submissions ++ subs ∧ (∀ sub ∈ subs, Ok sub.outcome) ∧
      Traces s.aggressorsByTs s.syntheticIdCounter index rows subs := by
  induction rows generalizing index s with
  | nil => exact ⟨s, [], rfl, (List.append_nil _).symm, by simp, .done⟩
  | cons f rows ih =>
    obtain ⟨hfirst, hothers⟩ := List.forall_mem_cons.mp hpriced
    by_cases hmsg : msgOf f = none
    · obtain ⟨s', subs, hrun, hsubs, hok, htraces⟩ := ih (index + 1) hothers hs hpending
      have hrow : replayRow hash hosts index f s = (.returns (), s) := by
        simp only [replayRow, hmsg, Proc.pure_apply]
      exact ⟨s', subs, (Proc.bind_returns _ hrow).trans hrun, hsubs, hok, .skip hmsg htraces⟩
    · obtain ⟨s₁, due, own, hrow, hadded, hinv, hok, hupdated, hcounter, hinjected, hproper⟩ :=
        replayRow_run hosts h index hmsg hfirst hs hpending
      have hpending₁ : ∀ ts, ∀ agg ∈ s₁.aggressorsByTs ts, agg.priceRaw ∈ prices := by
        intro ts agg hagg
        rw [hupdated, Function.update_apply] at hagg
        split_ifs at hagg
        · simp at hagg
        · exact hpending ts agg hagg
      obtain ⟨s', subs, hrun, hsubs, hok', htraces⟩ := ih (index + 1) hothers hinv hpending₁
      rw [hupdated, hcounter] at htraces
      refine ⟨s', due ++ own ++ subs, (Proc.bind_returns _ hrow).trans hrun, ?_,
        List.forall_mem_append.mpr ⟨hok, hok'⟩, .row hmsg hinjected hproper htraces⟩
      rw [hsubs, hadded, List.append_assoc]

end Rows

end Passes

/-- The calls that submit an aggressor, and those of them that a row with a given time makes. -/
def synthetic (subs : List Submission) : List Submission :=
  subs.filter fun sub => sub.label = .AGGR

def syntheticAt (ts : UInt64) (subs : List Submission) : List Submission :=
  subs.filter fun sub => sub.label = .AGGR ∧ tsOf sub.fields = ts

def orderIdOf (sub : Submission) : OrderId :=
  match sub.event with
  | .new order => order.orderId
  | _ => 0

section Traces

variable {pending : UInt64 → List AggressorEvent} {counter ts : UInt64} {index : ℕ} {f : Row}
  {rows : List Row} {subs due own : List Submission} {aggs : List AggressorEvent}

theorem Injected.mem (h : Injected index f counter aggs due) :
    ∀ sub ∈ due, sub.index = index ∧ sub.fields = f ∧ sub.label = .AGGR := by
  induction h with
  | nil => simp
  | cons hfirst _ ih =>
    exact List.forall_mem_cons.mpr ⟨⟨hfirst.index, hfirst.fields, hfirst.label⟩, ih⟩

theorem Injected.forall₂ (h : Injected index f counter aggs due) :
    List.Forall₂ (fun agg sub => ∃ counter, Injects index f counter agg sub) aggs due := by
  induction h with
  | nil => exact .nil
  | cons hfirst _ ih => exact .cons ⟨_, hfirst⟩ ih

/-- The calls of a row that submit an aggressor are the first ones. -/
theorem synthetic_row (hdue : Injected index f counter aggs due)
    (hown : ∀ sub ∈ own, Proper index f sub) :
    synthetic (due ++ own ++ subs) = due ++ synthetic subs := by
  have hfirst : synthetic due = due :=
    List.filter_eq_self.mpr fun sub hsub => by simpa using (hdue.mem sub hsub).2.2
  have hothers : synthetic own = [] :=
    List.filter_eq_nil_iff.mpr fun sub hsub => by simpa using (hown sub hsub).label
  unfold synthetic at hfirst hothers ⊢
  rw [List.filter_append, List.filter_append, hfirst, hothers, List.append_nil]

theorem syntheticAt_row (ts : UInt64) (hdue : Injected index f counter aggs due)
    (hown : ∀ sub ∈ own, Proper index f sub) :
    syntheticAt ts (due ++ own ++ subs) =
      (if tsOf f = ts then due else []) ++ syntheticAt ts subs := by
  have hothers : syntheticAt ts own = [] :=
    List.filter_eq_nil_iff.mpr fun sub hsub => by simp [(hown sub hsub).label]
  have hfirst : syntheticAt ts due = if tsOf f = ts then due else [] := by
    split_ifs with hts
    · refine List.filter_eq_self.mpr fun sub hsub => ?_
      obtain ⟨-, hfields, hlabel⟩ := hdue.mem sub hsub
      simp [hfields, hlabel, hts]
    · refine List.filter_eq_nil_iff.mpr fun sub hsub => ?_
      obtain ⟨-, hfields, -⟩ := hdue.mem sub hsub
      simp [hfields, hts]
  unfold syntheticAt at hfirst hothers ⊢
  rw [List.filter_append, List.filter_append, hfirst, hothers, List.append_nil]

/-- Every call is made for one of the rows, and that row has a message type. -/
theorem Traces.fields (h : Traces pending counter index rows subs) :
    ∀ sub ∈ subs, sub.fields ∈ rows ∧ msgOf sub.fields ≠ none := by
  induction h with
  | done => simp
  | skip _ _ ih => exact fun sub hsub => ⟨List.mem_cons_of_mem _ (ih sub hsub).1, (ih sub hsub).2⟩
  | @row _ _ index f rows due own subs hmsg hdue hown _ ih =>
    refine List.forall_mem_append.mpr ⟨List.forall_mem_append.mpr ⟨?_, ?_⟩, ?_⟩
    · intro sub hsub
      rw [(hdue.mem sub hsub).2.1]
      exact ⟨List.mem_cons_self, hmsg⟩
    · intro sub hsub
      rw [(hown sub hsub).fields]
      exact ⟨List.mem_cons_self, hmsg⟩
    · exact fun sub hsub => ⟨List.mem_cons_of_mem _ (ih sub hsub).1, (ih sub hsub).2⟩

/-- Without pending aggressors of a time none is submitted. -/
theorem Traces.consumed (h : Traces pending counter index rows subs) (hnone : pending ts = []) :
    syntheticAt ts subs = [] := by
  induction h with
  | done => rfl
  | skip _ _ ih => exact ih hnone
  | @row pending _ index f rows due own subs _ hdue hown _ ih =>
    have hrest : Function.update pending (tsOf f) [] ts = [] := by
      rw [Function.update_apply]
      split_ifs
      · rfl
      · exact hnone
    rw [syntheticAt_row ts hdue hown, ih hrest, List.append_nil]
    split_ifs with hts
    · rw [hts, hnone] at hdue
      cases hdue
      rfl
    · rfl

/-- The pending aggressors of a time are submitted at the first row that carries it, each once. -/
theorem Traces.at_first {front back : List Row}
    (h : Traces pending counter index (front ++ f :: back) subs)
    (hfront : ∀ g ∈ front, ¬ Carries ts g) (hf : Carries ts f) :
    List.Forall₂ (fun agg sub => ∃ counter, Injects (index + front.length) f counter agg sub)
      (pending ts) (syntheticAt ts subs) := by
  induction front generalizing pending counter index subs with
  | nil =>
    cases h with
    | skip hmsg => exact absurd hmsg hf.1
    | row _ hdue hown hrest =>
      -- behind this row the aggressors of its time are no longer pending
      have hnone : Function.update pending (tsOf f) [] ts = [] := by simp [hf.2]
      rw [syntheticAt_row ts hdue hown, if_pos hf.2, hrest.consumed hnone, List.append_nil, ← hf.2]
      exact hdue.forall₂
  | cons g front ih =>
    obtain ⟨hg, hfront'⟩ := List.forall_mem_cons.mp hfront
    have hlength : index + (g :: front).length = index + 1 + front.length := by
      rw [List.length_cons]
      omega
    rw [hlength]
    cases h with
    | skip _ hrest => exact ih hrest hfront'
    | row hmsg hdue hown hrest =>
      have hne : tsOf g ≠ ts := fun hts => hg ⟨hmsg, hts⟩
      have hpending : Function.update pending (tsOf g) [] ts = pending ts :=
        Function.update_of_ne (Ne.symm hne) _ _
      have hothers := ih hrest hfront'
      rw [hpending] at hothers
      rw [syntheticAt_row ts hdue hown, if_neg hne, List.nil_append]
      exact hothers

/-- In front of an aggressor there are no other calls for rows with its time. -/
theorem Traces.before (h : Traces pending counter index rows subs) :
    subs.Pairwise fun a b => b.label = .AGGR → tsOf a.fields = tsOf b.fields →
      a.label = .AGGR := by
  induction h with
  | done => exact .nil
  | skip _ _ ih => exact ih
  | @row pending _ index f rows due own subs _ hdue hown hrest ih =>
    have hpairs : ∀ {xs : List Submission}, (∀ sub ∈ xs, sub.label = .AGGR) →
        xs.Pairwise fun a b => b.label = .AGGR → tsOf a.fields = tsOf b.fields →
          a.label = .AGGR := by
      intro xs hxs
      exact List.pairwise_of_forall_mem_list fun a ha _ _ _ _ => hxs a ha
    rw [List.pairwise_append, List.pairwise_append]
    refine ⟨⟨hpairs fun sub hsub => (hdue.mem sub hsub).2.2, ?_, ?_⟩, ih, ?_⟩
    · exact List.pairwise_of_forall_mem_list fun a _ b hb hlabel =>
        absurd hlabel (hown b hb).label
    · exact fun a _ b hb hlabel => absurd hlabel (hown b hb).label
    · -- the aggressors of the time of this row are no longer pending behind it
      intro a ha b hb hlabel hts
      have hnone : Function.update pending (tsOf f) [] (tsOf f) = [] := Function.update_self ..
      have hempty := hrest.consumed hnone
      have hfields : a.fields = f := by
        rcases List.mem_append.mp ha with ha | ha
        · exact (hdue.mem a ha).2.1
        · exact (hown a ha).fields
      have hmem : b ∈ syntheticAt (tsOf f) subs := by
        refine List.mem_filter.mpr ⟨hb, ?_⟩
        rw [hfields] at hts
        simp [hlabel, hts]
      rw [hempty] at hmem
      simp at hmem

/-- The identifiers from a counter on. -/
def idsFrom (counter : UInt64) (n : ℕ) : List OrderId :=
  (List.range n).map fun k => SyntheticIdBase + (counter + UInt64.ofNat k)

theorem idsFrom_add (counter : UInt64) (m n : ℕ) :
    idsFrom counter (m + n) = idsFrom counter m ++ idsFrom (counter + UInt64.ofNat m) n := by
  rw [idsFrom, List.range_add, List.map_append, List.map_map]
  refine congrArg _ (List.map_congr_left fun k _ => ?_)
  rw [Function.comp_apply, UInt64.ofNat_add, UInt64.add_assoc]

theorem Injected.ids (h : Injected index f counter aggs due) :
    due.map orderIdOf = idsFrom counter aggs.length := by
  induction h with
  | nil => rfl
  | @cons counter agg sub aggs subs hfirst _ ih =>
    have hone : idsFrom counter 1 = [SyntheticIdBase + (counter + UInt64.ofNat 0)] := rfl
    have hzero : counter + UInt64.ofNat 0 = counter := UInt64.add_zero _
    have hid : orderIdOf sub = SyntheticIdBase + counter := by
      rw [orderIdOf, hfirst.event]
      rfl
    rw [List.map_cons, ih, hid, List.length_cons, Nat.add_comm, idsFrom_add, hone, hzero]
    rfl

/-- The identifiers of the aggressors run from the counter on. -/
theorem Traces.ids (h : Traces pending counter index rows subs) :
    (synthetic subs).map orderIdOf = idsFrom counter (synthetic subs).length := by
  induction h with
  | done => rfl
  | skip _ _ ih => exact ih
  | @row pending counter index f rows due own subs _ hdue hown _ ih =>
    have hlength := hdue.forall₂.length_eq
    rw [synthetic_row hdue hown, List.map_append, hdue.ids, ih, List.length_append, ← hlength,
      idsFrom_add]

/-- Fewer identifiers than there are 64-bit integers are different. -/
theorem idsFrom_nodup (counter : UInt64) {n : ℕ} (hn : n ≤ 2 ^ 64) : (idsFrom counter n).Nodup := by
  refine List.Nodup.map_on ?_ List.nodup_range
  intro j hj k hk heq
  have hsame := congrArg UInt64.toNat
    ((UInt64.add_right_inj counter).mp ((UInt64.add_right_inj SyntheticIdBase).mp heq))
  rw [List.mem_range] at hj hk
  rwa [UInt64.toNat_ofNat_of_lt' (by rw [UInt64.size]; omega),
    UInt64.toNat_ofNat_of_lt' (by rw [UInt64.size]; omega)] at hsame

end Traces

section Regrouping

variable {entries : List Entry}

theorem regroup_apply (entries : List Entry) (ts : UInt64) :
    regroup entries ts = (entries.filter fun entry => entry.1 / 2 = ts).map fun entry =>
      aggressorOf entry.2 := by
  have hfold : ∀ table : UInt64 → List AggressorEvent,
      (entries.foldl (fun table entry => Function.update table (entry.1 / 2)
        (table (entry.1 / 2) ++ [aggressorOf entry.2])) table) ts =
        table ts ++ (entries.filter fun entry => entry.1 / 2 = ts).map fun entry =>
          aggressorOf entry.2 := by
    intro table
    induction entries generalizing table with
    | nil => simp
    | cons entry entries ih =>
      rw [List.foldl_cons, ih]
      by_cases hts : entry.1 / 2 = ts
      · simp [hts]
      · rw [Function.update_of_ne (Ne.symm hts), List.filter_cons_of_neg (by simpa using hts)]
  exact hfold fun _ => []

/-- Taking the aggressors of a time off the table is dropping their entries. -/
theorem regroup_erase (entries : List Entry) (ts : UInt64) :
    Function.update (regroup entries) ts [] =
      regroup (entries.filter fun entry => entry.1 / 2 ≠ ts) := by
  funext ts'
  rw [regroup_apply, List.filter_filter, Function.update_apply]
  split_ifs with hts
  · subst ts'
    simp
  · rw [regroup_apply]
    refine congrArg _ (List.filter_congr fun entry _ => ?_)
    by_cases hentry : entry.1 / 2 = ts'
    · simp [hentry, hts]
    · simp [hentry]

/-- No more aggressors are submitted than there are groups. -/
theorem Traces.length_le {counter : UInt64} {index : ℕ} {rows : List Row} {subs : List Submission}
    (h : Traces (regroup entries) counter index rows subs) :
    (synthetic subs).length ≤ entries.length := by
  generalize hpending : regroup entries = pending at h
  induction h generalizing entries with
  | done => exact Nat.zero_le _
  | skip _ _ ih => exact ih hpending
  | @row pending counter index f rows due own subs _ hdue hown _ ih =>
    subst pending
    have hrest := ih (regroup_erase entries (tsOf f)).symm
    have hlength := hdue.forall₂.length_eq
    have hsum := List.length_eq_length_filter_add (l := entries) fun entry => entry.1 / 2 = tsOf f
    rw [regroup_apply, List.length_map] at hlength
    rw [synthetic_row hdue hown, List.length_append, ← hlength]
    simp only [decide_not, ne_eq] at hrest hsum ⊢
    omega

end Regrouping

section Runs

variable {hash : OrderId → UInt64} {Inv : EngineState → Prop} {prices : Set UInt64}
  {Ok : Outcome StdException ℕ → Prop} {setting : Setting} {book : OrderBook}

/-- The second pass from a book under the invariant. -/
theorem passTwo_traces (h : Plays hash Inv prices Ok) (hosts : ℕ → Host) {visited : List Entry}
    {rows : List Row} {currentSequence : UInt64} (hinv : Inv ⟨currentSequence, book, []⟩)
    (hpriced : ∀ f ∈ rows, Priced prices f)
    (hvisited : ∀ entry ∈ visited, entry.2.priceExtreme ∈ prices) :
    ∃ s, passTwo hash hosts visited rows currentSequence book = (.returns (), s) ∧
      (∀ sub ∈ s.submissions, Ok sub.outcome) ∧
      Traces (regroup visited) 0 0 rows s.submissions := by
  let s₀ : Replay :=
    { aggressorsByTs := regroup visited, engine := ⟨currentSequence, book, []⟩ }
  have hpending : ∀ ts, ∀ agg ∈ s₀.aggressorsByTs ts, agg.priceRaw ∈ prices := by
    intro ts agg hagg
    change agg ∈ regroup visited ts at hagg
    rw [regroup_apply] at hagg
    obtain ⟨entry, hentry, rfl⟩ := List.mem_map.mp hagg
    exact hvisited entry (List.mem_filter.mp hentry).1
  have hinv₀ : Inv s₀.engine := hinv
  obtain ⟨s, subs, hrun, hsubs, hok, htraces⟩ := replayRows_traces hosts h 0 hpriced hinv₀ hpending
  have hadded : s.submissions = subs := hsubs.trans (List.nil_append _)
  rw [← hadded] at hok htraces
  exact ⟨s, hrun, hok, htraces⟩

/-- The book of the second pass is a new one with its capacity reserved. -/
theorem openBook_made {scan : Scan}
    (hopen : openBook setting scan = (.returns (), some book)) :
    ∃ made, OrderBook.make setting.memory
        (ladderSize setting.tick (setting.scale scan.range.span) scan.range).ladderMin setting.tick
        (ladderSize setting.tick (setting.scale scan.range.span) scan.range).levelCount =
          .ok made ∧
      reserveOrderCapacity setting.hash setting.host
        (scan.rowCount + UInt64.ofNat scan.aggregates.entries.length) made =
          (.returns (), book) := by
  unfold openBook at hopen
  dsimp only at hopen
  split at hopen
  · simp at hopen
  · next made hmake =>
    refine ⟨made, hmake, ?_⟩
    generalize reserveOrderCapacity setting.hash setting.host
      (scan.rowCount + UInt64.ofNat scan.aggregates.entries.length) made = reserved at hopen ⊢
    obtain ⟨o, reserved⟩ := reserved
    simpa using hopen

theorem openBook_sound {scan : Scan}
    (hopen : openBook setting scan = (.returns (), some book)) : Sound setting.hash book := by
  obtain ⟨made, hmake, hreserve⟩ := openBook_made hopen
  have hreserved := sound_reserved (@sound_make setting.hash _ _ _ _ _ hmake) setting.host
    (scan.rowCount + UInt64.ofNat scan.aggregates.entries.length)
  rwa [hreserve] at hreserved

theorem mem_submissions {run : Run} {sub : Submission} (hsub : sub ∈ run.submissions) :
    ∃ o s, run = .replayed o s ∧ sub ∈ s.submissions := by
  cases run with
  | noPricedRows | stopped => simp [Run.submissions] at hsub
  | replayed o s => exact ⟨o, s, rfl, hsub⟩

/-- A run of the tool that reaches the second pass. -/
theorem itchReplay_replayed {text : Text} {o : Outcome StdException Unit} {s : Replay}
    (hrun : itchReplay setting text = .replayed o s) :
    ∃ book, openBook setting (passOne (dataRows text)) = (.returns (), some book) ∧
      passTwo setting.hash setting.hosts
        (setting.visit (passOne (dataRows text)).aggregates.entries) (dataRows text)
        setting.currentSequence book = (o, s) := by
  unfold itchReplay at hrun
  dsimp only at hrun
  split_ifs at hrun
  generalize openBook setting (passOne (dataRows text)) = opened at hrun
  split at hrun
  · next book =>
    exact ⟨book, rfl, Prod.ext (Run.replayed.inj hrun).1 (Run.replayed.inj hrun).2⟩
  · cases hrun

/-- The lines behind a header. -/
def fileOf (lines : List String) : Text :=
  ("header" :: lines).flatMap fun line => ofString line ++ [ascii '\n']

/-- A tool with a tick of 5 on a granting host and a blank memory. -/
def fiveTick (scale : UInt64 → UInt64) : Setting where
  hash := id
  host := grantingHost
  hosts := fun _ => grantingHost
  visit := List.reverse
  scale
  tick := 5
  memory := fun _ => {
    orderId := 0, price := 0, originalQuantity := 0, remainingQuantity := 0, timestamp := 0
    orderSide := .buy, orderType := .limit, sequenceNumber := 0 }
  currentSequence := 0

end Runs

end Leka.ReplayTraces
