import Leka.ThreadedReplays

/-!
No schedule leads the two threads into a state that they cannot finish from. While an event is in
the queue or in hand, the matching thread can get on; when there is none, the queue has room and
the feed handler can. A failed call is no progress, but none has to fail when it sees the newest
cursor of the other side. The same steps reach, for every event, a load of its stamp before the
stamp is stored, and the handoff that is logged is then the reading of the clock at the pop. None of
these steps moves the clock, so the stamp that is stored too late can have the same reading.
-/

namespace Leka.ThreadedProgress

open Relation Procedures Orders OrderPools OrderBooks MatchingEngines EventOutcomes BookRuns
  RestingOrders LadderSizes InterchangeReplays SpscQueues SpscFifo QueueCalls Pipelines
  ThreadedReplays

variable {hash : OrderId → UInt64} {hosts : ℕ → Host} {elapsed : ℕ → UInt64}
  {events : List ParsedEvent} {t : Threads}

/-- The steps left for the event at `sent`. -/
def feedRank : Feed → Push OrderEvent → ℕ
  | .push, .idle => 7
  | .push, push => 2 + pushRank push
  | .stamp, _ => 2
  | .store _, _ => 1

/-- The steps left for the event at `consumed`. -/
def matchRank : Matcher → Pop OrderEvent → ℕ
  | .pop, .idle => 15
  | .pop, pop => 10 + popRank pop
  | .popped _, _ => 10
  | .loadStamp _ _, _ => 9
  | .process _, _ => 8

/-- The steps left, if no call fails. -/
def stepsLeft (events : List ParsedEvent) (t : Threads) : ℕ :=
  8 * (events.length - t.sent) + feedRank t.feed t.queue.push +
    (16 * (events.length - t.consumed) + matchRank t.matcher t.queue.pop)

theorem feedRank_pushing {push : Push OrderEvent} (hpush : push ≠ .idle) :
    feedRank .push push = 2 + pushRank push := by
  cases push with
  | idle => exact absurd rfl hpush
  | loadTail | loadHead | construct | storeTail => rfl

theorem matchRank_popping {pop : Pop OrderEvent} (hpop : pop ≠ .idle) :
    matchRank .pop pop = 10 + popRank pop := by
  cases pop with
  | idle => exact absurd rfl hpop
  | loadHead | loadTail | take | storeHead => rfl

section Matching

theorem tailSeen_le (h : Placed events t) : t.queue.tailSeen ≤ t.sent + 1 := by
  have hseen := (reachable_consistent h.reachable).tailSeen_le
  rw [h.pushed_eq, List.length_map, List.length_take, min_eq_left h.pushed_le] at hseen
  have hcount : pushedCount t ≤ t.sent + 1 := by
    unfold pushedCount
    split <;> omega
  exact hseen.trans hcount

/-- The stamp is in place at the position of the matching thread when it has to be seen. -/
theorem stampSeen_lt (h : Placed events t) (hstamped : Stamped t) :
    stampSeen t < (t.pushNs t.consumed).length := by
  have hseen := tailSeen_le h
  by_cases hlt : t.consumed < t.sent
  · obtain ⟨now, hnow⟩ := hstamped.stored t.consumed hlt
    rw [hnow, stampSeen]
    split <;> simp
  · rw [hstamped.unstored t.consumed (not_lt.mp hlt), stampSeen, if_neg (by omega)]
    simp

/-- The matching thread gets on with the event in hand. -/
theorem hand_advances (h : Placed events t) (hs : Sound hash t.replay.engine.orderBook)
    (hstamped : Stamped t) (hmatcher : t.matcher ≠ .pop) :
    ∃ action t', matchStep hash hosts elapsed events t action = some t' ∧
      stepsLeft events t' < stepsLeft events t := by
  cases hat : t.matcher with
  | pop => exact absurd hat hmatcher
  | popped event =>
    refine ⟨.readClock, { t with
      popNs := Function.update t.popNs t.consumed (UInt64.ofNat t.clock)
      matcher := .loadStamp event (UInt64.ofNat t.clock) }, ?_, ?_⟩
    · simp only [matchStep, hat]
    · simp only [stepsLeft, matchRank, hat]
      omega
  | loadStamp event poppedAt =>
    have hseen := stampSeen_lt h hstamped
    refine ⟨.loadStamp (stampSeen t), { t with
      replay := { t.replay with
        latency := record .HANDOFF (poppedAt - (t.pushNs t.consumed)[stampSeen t])
          t.replay.latency }
      matcher := .process event }, ?_, ?_⟩
    · simp only [matchStep, hat, List.getElem?_eq_getElem hseen, le_refl, if_true]
    · simp only [stepsLeft, matchRank, hat]
      omega
  | process event =>
    have hinHand : inHand t.matcher = some event := by rw [hat, inHand]
    obtain ⟨hidle, hat'⟩ := h.inHand_eq event hinHand
    obtain ⟨e, he, hevent⟩ := Option.map_eq_some_iff.mp hat'
    have hlt := (List.getElem?_eq_some_iff.mp he).1
    have hreturns : ∃ replay, matchEvent hash (hosts t.consumed) (elapsed t.consumed) e event
        t.replay = (.returns (), replay) := by
      rcases processEvent_cases hs (hosts t.consumed) event with ⟨n, s', hrun⟩ | ⟨exn, s', hrun⟩
      · exact ⟨_, matchEvent_returns _ e hrun⟩
      · exact ⟨_, matchEvent_throws _ e hrun⟩
    obtain ⟨replay, hrun⟩ := hreturns
    refine ⟨.process, { t with replay, consumed := t.consumed + 1, matcher := .pop }, ?_, ?_⟩
    · simp only [matchStep, hat, he, hrun]
    · simp only [stepsLeft, matchRank, hat, hidle]
      omega

/-- The matching thread gets on while an event is in the queue. -/
theorem queue_advances (h : Placed events t) (hmatcher : t.matcher = .pop)
    (hmore : t.queue.popped.length < t.queue.pushed.length) :
    ∃ action t', matchStep hash hosts elapsed events t action = some t' ∧
      stepsLeft events t' < stepsLeft events t := by
  have hpushed := congrArg List.length h.pushed_eq
  rw [List.length_map, List.length_take] at hpushed
  have hlength : t.queue.popped.length = t.consumed := by
    rw [h.popped_eq, hmatcher]
    rfl
  have hlt : t.consumed < events.length := by omega
  have he := List.getElem?_eq_getElem hlt
  by_cases hidle : t.queue.pop = .idle
  · obtain ⟨queue, hrun, hpop⟩ := @pop_begins _ QueueCapacity _ hidle h.closing_eq
    obtain ⟨-, hpush⟩ := consume_consumed hrun
    refine ⟨.pop .tryPop, { t with queue, matcher := .pop }, ?_, ?_⟩
    · simp only [matchStep, hmatcher, he, hrun, Option.map_some]
      rfl
    · simp only [stepsLeft, hpush.push, hpop, hmatcher, hidle, matchRank, popRank]
      omega
  · obtain ⟨action, queue, returned, hrun, hnot, hsucceeds, hless⟩ :=
      pop_advances (toOrderEvent events[t.consumed]) (reachable_consistent h.reachable) hidle hmore
    obtain ⟨hconsumed, hpush⟩ := consume_consumed hrun
    have hrank : matchRank (afterPop queue returned) queue.pop < 10 + popRank t.queue.pop := by
      cases hconsumed with
      | begins => exact absurd rfl hnot
      | goesOn _ hpop _ =>
        have hsame : afterPop queue none = .pop := rfl
        rw [hsame, matchRank_popping hpop]
        exact Nat.add_lt_add_left hless _
      | fails => exact absurd rfl hsucceeds
      | @pops _ out _ _ hpopped =>
        have hlast : queue.popped.getLast? = some out := by rw [hpopped, List.getLast?_concat]
        simp only [afterPop, hlast, matchRank]
        omega
    refine ⟨.pop action, { t with queue, matcher := afterPop queue returned }, ?_, ?_⟩
    · simp only [matchStep, hmatcher, he, hrun, Option.map_some]
    · simp only [stepsLeft, hpush.push, hmatcher, matchRank_popping hidle]
      omega

end Matching

section Feeding

theorem idle_of_pushed (h : Placed events t) (hfeed : t.feed ≠ .push) : t.queue.push = .idle := by
  cases hcall : t.queue.push with
  | idle => rfl
  | loadTail event | loadHead event | construct event | storeTail event =>
    have hoffered : offered t.queue.push = some event := by rw [hcall, offered]
    exact absurd (h.offered_eq event hoffered).1 hfeed

/-- The feed handler gets on while the queue is empty. -/
theorem feed_advances (h : Placed events t)
    (hempty : t.queue.popped.length = t.queue.pushed.length)
    (hmore : t.feed = .push → t.sent < events.length) :
    ∃ action t', feedStep events t action = some t' ∧
      stepsLeft events t' < stepsLeft events t := by
  cases hfeed : t.feed with
  | stamp =>
    refine ⟨.stamp, { t with feed := .store (UInt64.ofNat t.clock) }, ?_, ?_⟩
    · simp only [feedStep, hfeed]
    · simp only [stepsLeft, feedRank, hfeed]
      omega
  | store now =>
    refine ⟨.store, { t with
      pushNs := Function.update t.pushNs t.sent (t.pushNs t.sent ++ [now])
      sent := t.sent + 1
      feed := .push }, ?_, ?_⟩
    · simp only [feedStep, hfeed]
    · have hle := h.pushed_le
      simp only [pushedCount, hfeed] at hle
      have hidle := idle_of_pushed h (by simp [hfeed])
      simp only [stepsLeft, feedRank, hfeed, hidle]
      omega
  | push =>
    have hlt := hmore hfeed
    have he := List.getElem?_eq_getElem hlt
    by_cases hidle : t.queue.push = .idle
    · obtain ⟨queue, hrun, hpush⟩ := @push_begins _ QueueCapacity _ hidle h.closing_eq
        (toOrderEvent events[t.sent])
      obtain ⟨-, hpop⟩ := produce_produced hrun
      refine ⟨.push (.tryPush (toOrderEvent events[t.sent])),
        { t with queue, feed := .push }, ?_, ?_⟩
      · simp only [feedStep, hfeed, he, offers, decide_true, if_true, hrun, Option.map_some]
        rfl
      · simp only [stepsLeft, hpop.pop, hpush, hfeed, hidle, feedRank, pushRank]
        omega
    · have hsize : 0 < size QueueCapacity := by decide
      obtain ⟨action, queue, returned, hrun, hnot, hsucceeds, hless⟩ :=
        push_advances (reachable_consistent h.reachable) hidle (by omega)
      obtain ⟨hproduced, hpop⟩ := produce_produced hrun
      have hoffers : offers (toOrderEvent events[t.sent]) action = true := by
        cases action with
        | tryPush event => exact absurd rfl (hnot event)
        | _ => rfl
      have hrank : feedRank (if returned = some true then .stamp else .push) queue.push <
          2 + pushRank t.queue.push := by
        cases hproduced with
        | begins => exact absurd rfl (hnot _)
        | goesOn _ hoffered _ =>
          rw [if_neg (by simp),
            feedRank_pushing fun hpush => by rw [hpush] at hoffered; cases hoffered]
          exact Nat.add_lt_add_left hless _
        | fails => exact absurd rfl hsucceeds
        | pushes =>
          simp only [if_true, feedRank]
          omega
      refine ⟨.push action,
        { t with queue, feed := if returned = some true then .stamp else .push }, ?_, ?_⟩
      · simp only [feedStep, hfeed, he, hoffers, if_true, hrun, Option.map_some]
      · simp only [stepsLeft, hpop.pop, hfeed, feedRank_pushing hidle]
        omega

end Feeding

section Finishing

/-- A step of one of the threads: the clock stands still. -/
def Works (hash : OrderId → UInt64) (hosts : ℕ → Host) (elapsed : ℕ → UInt64)
    (events : List ParsedEvent) (t t' : Threads) : Prop :=
  ∃ action, feedStep events t action = some t' ∨
    matchStep hash hosts elapsed events t action = some t'

theorem Works.steps {t' : Threads} (h : Works hash hosts elapsed events t t') :
    Steps hash hosts elapsed events t t' := by
  obtain ⟨action, hs | hs⟩ := h
  · refine ⟨action, ?_⟩
    cases action with
    | push | stamp | store => exact hs
    | pop | readClock | loadStamp | process | tick => cases hs
  · refine ⟨action, ?_⟩
    cases action with
    | pop | readClock | loadStamp | process => exact hs
    | push | stamp | store | tick => cases hs

/-- What a schedule can rely on. -/
structure Running (hash : OrderId → UInt64) (events : List ParsedEvent) (t : Threads) : Prop where
  placed : Placed events t
  sound : Sound hash t.replay.engine.orderBook
  stamped : Stamped t

theorem running {book : OrderBook} (hs : Sound hash book) {counter : UInt64}
    (hrun : ReflTransGen (Steps hash hosts elapsed events) (start book counter) t) :
    Running hash events t := by
  obtain ⟨hplaced, hsound, -, -⟩ := run_replays hs counter hrun
  exact ⟨hplaced, hsound, (stamped_start _).run hrun⟩

/-- The matching thread can get on, or it has consumed what has been pushed. -/
theorem match_advances (h : Running hash events t) :
    (∃ action t', matchStep hash hosts elapsed events t action = some t' ∧
      stepsLeft events t' < stepsLeft events t) ∨
    (t.queue.popped.length = t.queue.pushed.length ∧ t.consumed = pushedCount t) := by
  have hplaced := h.placed
  by_cases hmatcher : t.matcher = .pop
  · by_cases hempty : t.queue.popped.length = t.queue.pushed.length
    · have hpushed := congrArg List.length hplaced.pushed_eq
      have hpopped := hplaced.popped_eq
      rw [List.length_map, List.length_take, min_eq_left hplaced.pushed_le] at hpushed
      rw [hmatcher] at hpopped
      exact .inr ⟨hempty, hpopped.symm.trans (hempty.trans hpushed)⟩
    · have hfifo := (reachable_fifo hplaced.reachable).1.length_le
      exact .inl (queue_advances hplaced hmatcher (by omega))
  · exact .inl (hand_advances hplaced h.sound h.stamped hmatcher)

/-- A step that brings the end nearer. -/
theorem advances (h : Running hash events t) (hmore : ¬ t.Finished events) :
    ∃ t', Works hash hosts elapsed events t t' ∧ stepsLeft events t' < stepsLeft events t := by
  rcases @match_advances hash hosts elapsed events t h with
    ⟨action, t', hs, hless⟩ | ⟨hempty, hconsumed⟩
  · exact ⟨t', ⟨action, .inr hs⟩, hless⟩
  · have hneeds : t.feed = .push → t.sent < events.length := by
      intro hfeed
      have hle := h.placed.pushed_le
      have hcount : pushedCount t = t.sent := by rw [pushedCount, hfeed]
      by_contra hnot
      exact hmore ⟨by omega, by omega⟩
    obtain ⟨action, t', hs, hless⟩ := feed_advances h.placed hempty hneeds
    exact ⟨t', ⟨action, .inl hs⟩, hless⟩

/-- From wherever a schedule has led them, the threads can finish. -/
theorem finishes {book : OrderBook} (hs : Sound hash book) {counter : UInt64}
    (hrun : ReflTransGen (Steps hash hosts elapsed events) (start book counter) t) :
    ∃ t', ReflTransGen (Steps hash hosts elapsed events) t t' ∧
      ReflTransGen (Steps hash hosts elapsed events) (start book counter) t' ∧
        t'.Finished events := by
  refine can_finish (stepsLeft events) (fun t hrun hmore => ?_) hrun
  obtain ⟨t', hworks, hless⟩ := advances (running hs hrun) hmore
  exact ⟨t', .single hworks.steps, hrun.tail hworks.steps, hless⟩

end Finishing

section Stale

variable {t' : Threads} {i : ℕ}

/-- What a step of the feed handler leaves alone, and how its position moves. -/
theorem feedStep_moves {action : Action} (hs : feedStep events t action = some t') :
    t'.consumed = t.consumed ∧ t'.matcher = t.matcher ∧ t'.popNs = t.popNs ∧
      t'.replay = t.replay ∧
      ((t'.sent = t.sent ∧ ∀ now, t'.feed = .store now → t.feed = .stamp) ∨
        (t'.sent = t.sent + 1 ∧ (∃ now, t.feed = .store now) ∧ t'.feed = .push)) := by
  cases action with
  | push action =>
    rw [feedStep] at hs
    split at hs
    · split at hs
      · obtain ⟨⟨queue, returned⟩, -, rfl⟩ := Option.map_eq_some_iff.mp hs
        refine ⟨rfl, rfl, rfl, rfl, .inl ⟨rfl, fun now hstore => ?_⟩⟩
        change (if returned = some true then Feed.stamp else Feed.push) = .store now at hstore
        split at hstore <;> cases hstore
      · cases hs
    · cases hs
  | stamp =>
    rw [feedStep] at hs
    split at hs
    · rename_i hfeed
      cases hs
      exact ⟨rfl, rfl, rfl, rfl, .inl ⟨rfl, fun _ _ => hfeed⟩⟩
    · cases hs
  | store =>
    rw [feedStep] at hs
    split at hs
    · rename_i now hfeed
      cases hs
      exact ⟨rfl, rfl, rfl, rfl, .inr ⟨rfl, ⟨now, hfeed⟩, rfl⟩⟩
    · cases hs
  | pop | readClock | loadStamp | process | tick => cases hs

/-- What a step of the matching thread leaves alone, and how its position moves. -/
theorem matchStep_moves {action : Action}
    (hs : matchStep hash hosts elapsed events t action = some t') :
    t'.sent = t.sent ∧ t'.feed = t.feed ∧
      ((t'.consumed = t.consumed ∧
        ∀ event, t'.matcher = .process event → ∃ poppedAt, t.matcher = .loadStamp event poppedAt) ∨
      (t'.consumed = t.consumed + 1 ∧ (∃ event, t.matcher = .process event) ∧
        t'.matcher = .pop)) := by
  cases action with
  | pop action =>
    rw [matchStep] at hs
    split at hs
    · obtain ⟨⟨queue, returned⟩, -, rfl⟩ := Option.map_eq_some_iff.mp hs
      refine ⟨rfl, rfl, .inl ⟨rfl, fun event hprocess => ?_⟩⟩
      change afterPop queue returned = .process event at hprocess
      rcases afterPop_cases queue returned with hnext | ⟨_, hnext⟩
      all_goals rw [hnext] at hprocess; cases hprocess
    · cases hs
  | readClock =>
    rw [matchStep] at hs
    split at hs
    · cases hs
      exact ⟨rfl, rfl, .inl ⟨rfl, by simp⟩⟩
    · cases hs
  | loadStamp =>
    rw [matchStep] at hs
    split at hs
    · rename_i event poppedAt _ hmatcher _
      split at hs
      · cases hs
        refine ⟨rfl, rfl, .inl ⟨rfl, fun event' hprocess => ?_⟩⟩
        cases hprocess
        exact ⟨poppedAt, hmatcher⟩
      · cases hs
    · cases hs
  | process =>
    rw [matchStep] at hs
    split at hs
    · rename_i event _ hmatcher _
      split at hs
      · cases hs
        exact ⟨rfl, rfl, .inr ⟨rfl, ⟨event, hmatcher⟩, rfl⟩⟩
      · cases hs
    · cases hs
  | push | stamp | store | tick => cases hs

/-- A logged handoff stays, and so does the clock of its pop. -/
theorem matchStep_logged (h : Stamped t) {action : Action}
    (hs : matchStep hash hosts elapsed events t action = some t') {sample : UInt64}
    (hsample : (t.replay.latency .HANDOFF)[i]? = some sample) :
    (t'.replay.latency .HANDOFF)[i]? = some sample ∧ t'.popNs i = t.popNs i := by
  cases action with
  | pop action =>
    rw [matchStep] at hs
    split at hs
    · obtain ⟨⟨queue, returned⟩, -, rfl⟩ := Option.map_eq_some_iff.mp hs
      exact ⟨hsample, rfl⟩
    · cases hs
  | readClock =>
    rw [matchStep] at hs
    split at hs
    · rename_i event hmatcher
      cases hs
      have hlt := (List.getElem?_eq_some_iff.mp hsample).1
      rw [h.logged, hmatcher, handed] at hlt
      exact ⟨hsample, Function.update_of_ne hlt.ne _ _⟩
    · cases hs
  | loadStamp =>
    rw [matchStep] at hs
    split at hs
    · rename_i event poppedAt pushedAt _ _
      split at hs
      · cases hs
        refine ⟨?_, rfl⟩
        change (record .HANDOFF (poppedAt - pushedAt) t.replay.latency .HANDOFF)[i]? = _
        have hlt := (List.getElem?_eq_some_iff.mp hsample).1
        rw [record, Function.update_self, List.getElem?_append_left hlt]
        exact hsample
      · cases hs
    · cases hs
  | process =>
    rw [matchStep] at hs
    split at hs
    · split at hs
      · rename_i replay hrun
        cases hs
        have hsame := matchEvent_handoff hrun
        exact ⟨hsame.symm ▸ hsample, rfl⟩
      · cases hs
    · cases hs
  | push | stamp | store | tick => cases hs

theorem logged (h : Stamped t) (hstep : Steps hash hosts elapsed events t t') {sample : UInt64}
    (hsample : (t.replay.latency .HANDOFF)[i]? = some sample) :
    (t'.replay.latency .HANDOFF)[i]? = some sample ∧ t'.popNs i = t.popNs i := by
  obtain ⟨action, hs⟩ := hstep
  rcases step_sides hs with hs | hs | rfl
  · obtain ⟨-, -, hpopNs, hreplay, -⟩ := feedStep_moves hs
    rw [hreplay, hpopNs]
    exact ⟨hsample, rfl⟩
  · exact matchStep_logged h hs hsample
  · exact ⟨hsample, rfl⟩

/-- The event at `i` has not been stamped, and its stamp has not been loaded. -/
structure Before (i : ℕ) (t : Threads) : Prop where
  sent_le : t.sent ≤ i
  unstamped : t.sent = i → ∀ now, t.feed ≠ .store now
  consumed_le : t.consumed ≤ i
  unloaded : t.consumed = i → ∀ event, t.matcher ≠ .process event

/-- The stamp of the event at `i` is loaded next. -/
def AtLoad (i : ℕ) (t : Threads) : Prop :=
  t.consumed = i ∧ ∃ event poppedAt, t.matcher = .loadStamp event poppedAt

theorem Before.matcher (h : Before i t) (hnot : ¬ AtLoad i t) {action : Action}
    (hs : matchStep hash hosts elapsed events t action = some t') : Before i t' := by
  obtain ⟨hsent, hfeed, hmoves⟩ := matchStep_moves hs
  rcases hmoves with ⟨hconsumed, hloads⟩ | ⟨hconsumed, ⟨event, hprocess⟩, hpop⟩
  · refine ⟨hsent ▸ h.sent_le, ?_, hconsumed ▸ h.consumed_le, fun hat event hmatcher => ?_⟩
    · rw [hsent, hfeed]
      exact h.unstamped
    · obtain ⟨poppedAt, hload⟩ := hloads event hmatcher
      exact hnot ⟨hconsumed.symm.trans hat, event, poppedAt, hload⟩
  · have hle := h.consumed_le
    have hother : t.consumed ≠ i := fun hat => h.unloaded hat event hprocess
    refine ⟨hsent ▸ h.sent_le, ?_, by omega, fun _ event' hmatcher => ?_⟩
    · rw [hsent, hfeed]
      exact h.unstamped
    · rw [hpop] at hmatcher
      cases hmatcher

theorem Before.feed (h : Before i t) (hconsumed : t.consumed = pushedCount t) {action : Action}
    (hs : feedStep events t action = some t') : Before i t' := by
  obtain ⟨hsame, hmatcher, -, -, hmoves⟩ := feedStep_moves hs
  have hbefore : t'.consumed ≤ i ∧ (t'.consumed = i → ∀ event, t'.matcher ≠ .process event) := by
    rw [hsame, hmatcher]
    exact ⟨h.consumed_le, h.unloaded⟩
  rcases hmoves with ⟨hsent, hstore⟩ | ⟨hsent, ⟨now, hfeed⟩, hpush⟩
  · refine ⟨hsent ▸ h.sent_le, fun hat now hnow => ?_, hbefore.1, hbefore.2⟩
    -- An event that is being stamped has been pushed, and then it would have been consumed.
    have hcount : pushedCount t = t.sent + 1 := by rw [pushedCount, hstore now hnow]
    have hle := h.consumed_le
    omega
  · have hle := h.sent_le
    have hother : t.sent ≠ i := fun hat => h.unstamped hat now hfeed
    refine ⟨by omega, fun _ now' hnow => ?_, hbefore.1, hbefore.2⟩
    rw [hpush] at hnow
    cases hnow

/-- The clock stands at `now`, and whatever has been stamped or is about to be has that time. -/
structure Still (now : UInt64) (t : Threads) : Prop where
  clock_eq : UInt64.ofNat t.clock = now
  storing : ∀ pushedAt, t.feed = .store pushedAt → pushedAt = now
  stamps : ∀ i, ∀ pushedAt ∈ (t.pushNs i).tail, pushedAt = now
  loading : ∀ event poppedAt, t.matcher = .loadStamp event poppedAt → poppedAt = now

theorem Still.feed {now : UInt64} (h : Still now t) {action : Action}
    (hs : feedStep events t action = some t') : Still now t' := by
  cases action with
  | push action =>
    rw [feedStep] at hs
    split at hs
    · split at hs
      · obtain ⟨⟨queue, returned⟩, -, rfl⟩ := Option.map_eq_some_iff.mp hs
        refine ⟨h.clock_eq, fun pushedAt hstore => ?_, h.stamps, h.loading⟩
        change (if returned = some true then Feed.stamp else Feed.push) = .store pushedAt at hstore
        split at hstore <;> cases hstore
      · cases hs
    · cases hs
  | stamp =>
    rw [feedStep] at hs
    split at hs
    · cases hs
      refine ⟨h.clock_eq, fun pushedAt hstore => ?_, h.stamps, h.loading⟩
      cases hstore
      exact h.clock_eq
    · cases hs
  | store =>
    rw [feedStep] at hs
    split at hs
    · rename_i stored hfeed
      cases hs
      refine ⟨h.clock_eq, by simp, fun i pushedAt hmem => ?_, h.loading⟩
      change pushedAt ∈ (Function.update t.pushNs t.sent (t.pushNs t.sent ++ [stored]) i).tail
        at hmem
      by_cases hi : i = t.sent
      · rw [hi, Function.update_self, List.tail_append] at hmem
        split at hmem
        · cases hmem
        · rcases List.mem_append.mp hmem with hbefore | hlast
          · exact h.stamps _ _ hbefore
          · exact (List.mem_singleton.mp hlast).trans (h.storing stored hfeed)
      · rw [Function.update_of_ne hi] at hmem
        exact h.stamps i pushedAt hmem
    · cases hs
  | pop | readClock | loadStamp | process | tick => cases hs

theorem Still.matcher {now : UInt64} (h : Still now t) {action : Action}
    (hs : matchStep hash hosts elapsed events t action = some t') : Still now t' := by
  cases action with
  | pop action =>
    rw [matchStep] at hs
    split at hs
    · obtain ⟨⟨queue, returned⟩, -, rfl⟩ := Option.map_eq_some_iff.mp hs
      refine ⟨h.clock_eq, h.storing, h.stamps, fun event poppedAt hload => ?_⟩
      change afterPop queue returned = .loadStamp event poppedAt at hload
      rcases afterPop_cases queue returned with hnext | ⟨_, hnext⟩
      all_goals rw [hnext] at hload; cases hload
    · cases hs
  | readClock =>
    rw [matchStep] at hs
    split at hs
    · cases hs
      refine ⟨h.clock_eq, h.storing, h.stamps, fun event poppedAt hload => ?_⟩
      cases hload
      exact h.clock_eq
    · cases hs
  | loadStamp =>
    rw [matchStep] at hs
    split at hs
    · split at hs
      · cases hs
        exact ⟨h.clock_eq, h.storing, h.stamps, by simp⟩
      · cases hs
    · cases hs
  | process =>
    rw [matchStep] at hs
    split at hs
    · split at hs
      · cases hs
        exact ⟨h.clock_eq, h.storing, h.stamps, by simp⟩
      · cases hs
    · cases hs
  | push | stamp | store | tick => cases hs

theorem Still.works {now : UInt64} (h : Still now t)
    (hworks : Works hash hosts elapsed events t t') : Still now t' := by
  obtain ⟨action, hs | hs⟩ := hworks
  · exact h.feed hs
  · exact h.matcher hs

/-- The clock can come to stand at any reading before the threads begin. -/
theorem ticks (t : Threads) (n : ℕ) :
    ReflTransGen (Steps hash hosts elapsed events) t { t with clock := t.clock + n } := by
  induction n with
  | zero => exact .refl
  | succ n ih => exact ih.tail ⟨.tick, rfl⟩

/-- The stamp of any event can be loaded before it is stored, at any reading of the clock. -/
theorem reaches_load {book : OrderBook} (hs : Sound hash book) (counter : UInt64)
    (hi : i < events.length) (now : UInt64) :
    ∃ t, ReflTransGen (Steps hash hosts elapsed events) (start book counter) t ∧
      Still now t ∧ t.sent ≤ i ∧ AtLoad i t := by
  let Inv : Threads → Prop := fun t =>
    ReflTransGen (Steps hash hosts elapsed events) (start book counter) t ∧ Still now t ∧ Before i t
  have hclock : UInt64.ofNat (0 + now.toNat) = now := by
    rw [Nat.zero_add, UInt64.ofNat_toNat]
  have hstart : Inv { start book counter with clock := 0 + now.toNat } :=
    ⟨ticks _ _, ⟨hclock, by simp [start], by simp [start], by simp [start]⟩,
      Nat.zero_le _, fun _ _ => nofun, Nat.zero_le _, fun _ _ => nofun⟩
  have hon : ∀ t, Inv t → ¬ AtLoad i t → ∃ t',
      ReflTransGen (Steps hash hosts elapsed events) t t' ∧ Inv t' ∧
        stepsLeft events t' < stepsLeft events t := by
    rintro t ⟨hrun, hstill, hbefore⟩ hnot
    have h := running hs hrun
    rcases @match_advances hash hosts elapsed events t h with
      ⟨action, t', hstep, hless⟩ | ⟨hempty, hconsumed⟩
    · have hworks : Works hash hosts elapsed events t t' := ⟨action, .inr hstep⟩
      exact ⟨t', .single hworks.steps,
        ⟨hrun.tail hworks.steps, hstill.matcher hstep, hbefore.matcher hnot hstep⟩, hless⟩
    · have hneeds : t.feed = .push → t.sent < events.length :=
        fun _ => lt_of_le_of_lt hbefore.sent_le hi
      obtain ⟨action, t', hstep, hless⟩ := feed_advances h.placed hempty hneeds
      have hworks : Works hash hosts elapsed events t t' := ⟨action, .inl hstep⟩
      exact ⟨t', .single hworks.steps,
        ⟨hrun.tail hworks.steps, hstill.feed hstep, hbefore.feed hconsumed hstep⟩, hless⟩
  obtain ⟨t, -, ⟨hrun, hstill, hbefore⟩, hload⟩ := can_finish (stepsLeft events) hon hstart
  exact ⟨t, hrun, hstill, hbefore.sent_le, hload⟩

/-- Then what is logged is the clock of the pop. -/
theorem stale_load {now : UInt64} (h : Running hash events t) (hstill : Still now t)
    (hsent : t.sent ≤ i) (hload : AtLoad i t) :
    ∃ t', Works hash hosts elapsed events t t' ∧ t'.popNs i = now ∧
      (t'.replay.latency .HANDOFF)[i]? = some now := by
  obtain ⟨rfl, event, poppedAt, hmatcher⟩ := hload
  obtain rfl := hstill.loading event poppedAt hmatcher
  have hseen := tailSeen_le h.placed
  have hstale : stampSeen t ≤ 0 := by rw [stampSeen, if_neg (by omega)]
  have hfirst : (t.pushNs t.consumed)[0]? = some 0 := by
    rw [h.stamped.unstored _ hsent]
    rfl
  have hlogged : (t.replay.latency .HANDOFF).length = t.consumed := by
    rw [h.stamped.logged, hmatcher, handed]
  refine ⟨{ t with
    replay := { t.replay with latency := record .HANDOFF (poppedAt - 0) t.replay.latency }
    matcher := .process event }, ⟨.loadStamp 0, .inr ?_⟩,
    h.stamped.popped_at event poppedAt hmatcher, ?_⟩
  · simp only [matchStep, hmatcher, hfirst, if_pos hstale]
  · change (record .HANDOFF (poppedAt - 0) t.replay.latency .HANDOFF)[t.consumed]? = some poppedAt
    rw [record, Function.update_self, List.getElem?_append_right hlogged.le, hlogged,
      Nat.sub_self, UInt64.sub_zero, List.getElem?_cons_zero]

end Stale

section Tool

variable {memory : Memory} {minPrice tick : Price} {levelCount : UInt64} {made book : OrderBook}
  {host : Host}

theorem sound_prepared (hmake : OrderBook.make memory minPrice tick levelCount = .ok made)
    (hprepare : Tool.threaded_replay_benchmark.prepare hash host events made =
      (.returns (), book)) : Sound hash book := by
  have h := (prepare_grids (@sound_make hash _ _ _ _ _ hmake) .threaded_replay_benchmark host
    events).1
  rwa [hprepare] at h

/-- However the threads are scheduled, the matching thread does with the events, in their order,
what the loop of `benchmark_interchange` does with them, and is never more than 4097 events
behind. -/
theorem threads_replay (hmake : OrderBook.make memory minPrice tick levelCount = .ok made)
    (hprepare : Tool.threaded_replay_benchmark.prepare hash host events made =
      (.returns (), book)) (counter : UInt64)
    (hrun : ReflTransGen (Steps hash hosts elapsed events) (start book counter) t) :
    t.consumed ≤ pushedCount t ∧ pushedCount t ≤ events.length ∧
      pushedCount t ≤ t.consumed + 4097 ∧
      ∃ b, benchmarkEvents hash hosts elapsed 0 (events.take t.consumed)
        { engine := ⟨counter, book, []⟩ } = (.returns (), b) ∧ SameReplay t.replay b := by
  obtain ⟨hplaced, -, hroom, hreplays⟩ := run_replays (sound_prepared hmake hprepare) counter hrun
  exact ⟨hplaced.consumed_le, hplaced.pushed_le, hroom, hreplays⟩

/-- Whatever the schedule has been, the threads can finish, and then they have done with the whole
file what `benchmark_interchange` does with it. -/
theorem threads_finish (hmake : OrderBook.make memory minPrice tick levelCount = .ok made)
    (hprepare : Tool.threaded_replay_benchmark.prepare hash host events made =
      (.returns (), book)) (counter : UInt64)
    (hrun : ReflTransGen (Steps hash hosts elapsed events) (start book counter) t) :
    ∃ t', ReflTransGen (Steps hash hosts elapsed events) t t' ∧ t'.Finished events ∧
      ∃ b, benchmarkEvents hash hosts elapsed 0 events { engine := ⟨counter, book, []⟩ } =
        (.returns (), b) ∧ SameReplay t'.replay b := by
  have hs := sound_prepared hmake hprepare
  obtain ⟨t', hrest, hrun', hfinished⟩ := finishes hs hrun
  obtain ⟨-, -, -, b, hbenchmark, hsame⟩ := run_replays hs counter hrun'
  rw [hfinished.2, List.take_length] at hbenchmark
  exact ⟨t', hrest, hfinished, b, hbenchmark, hsame⟩

/-- Every handoff that is logged is the time from the stamp of its event, or the clock of its pop.
For every event of the file and every reading of the clock there is a run that stamps the event and
takes it over at this reading, and logs the reading in place of the time between: the initial zero
has been loaded. -/
theorem handoff_samples (hmake : OrderBook.make memory minPrice tick levelCount = .ok made)
    (hprepare : Tool.threaded_replay_benchmark.prepare hash host events made =
      (.returns (), book)) (counter : UInt64) :
    (∀ t, ReflTransGen (Steps hash hosts elapsed events) (start book counter) t →
      (t.replay.latency .HANDOFF).length = handed t.consumed t.matcher ∧
      ∀ i sample, (t.replay.latency .HANDOFF)[i]? = some sample →
        sample = t.popNs i ∨ ∃ now, t.pushNs i = [0, now] ∧ sample = t.popNs i - now) ∧
    ∀ i < events.length, ∀ now, ∃ t,
      ReflTransGen (Steps hash hosts elapsed events) (start book counter) t ∧
        t.Finished events ∧ t.pushNs i = [0, now] ∧ t.popNs i = now ∧
        (t.replay.latency .HANDOFF)[i]? = some now := by
  have hs := sound_prepared hmake hprepare
  refine ⟨fun t hrun => ?_, fun i hi now => ?_⟩
  · have hstamped := (running hs hrun).stamped
    refine ⟨hstamped.logged, fun i sample hsample => ?_⟩
    obtain ⟨pushedAt, hmem, rfl⟩ := hstamped.handoff i sample hsample
    by_cases hlt : i < t.sent
    · obtain ⟨now, hnow⟩ := hstamped.stored i hlt
      rw [hnow, List.mem_pair] at hmem
      rcases hmem with rfl | rfl
      · exact .inl (UInt64.sub_zero _)
      · exact .inr ⟨_, hnow, rfl⟩
    · rw [hstamped.unstored i (not_lt.mp hlt), List.mem_singleton] at hmem
      exact .inl (hmem ▸ UInt64.sub_zero _)
  · obtain ⟨t₁, hrun₁, hstill₁, hsent, hload⟩ :=
      @reaches_load hash hosts elapsed events i book hs counter hi now
    obtain ⟨t₂, hworks, hstale⟩ :=
      @stale_load hash hosts elapsed events t₁ i now (running hs hrun₁) hstill₁ hsent hload
    let Inv : Threads → Prop := fun t =>
      ReflTransGen (Steps hash hosts elapsed events) (start book counter) t ∧ Still now t ∧
        t.popNs i = now ∧ (t.replay.latency .HANDOFF)[i]? = some now
    -- From there on, the threads finish, and the sample stays as it is.
    have hon : ∀ t, Inv t → ¬ t.Finished events → ∃ t',
        ReflTransGen (Steps hash hosts elapsed events) t t' ∧ Inv t' ∧
          stepsLeft events t' < stepsLeft events t := by
      rintro t ⟨hrun, hstill, hpopNs, hlogged⟩ hmore
      have h := running hs hrun
      obtain ⟨t', hworks', hless⟩ := advances h hmore
      obtain ⟨hkept, hsame⟩ := logged h.stamped hworks'.steps hlogged
      exact ⟨t', .single hworks'.steps,
        ⟨hrun.tail hworks'.steps, hstill.works hworks', hsame.trans hpopNs, hkept⟩, hless⟩
    have hloaded : Inv t₂ := ⟨hrun₁.tail hworks.steps, hstill₁.works hworks, hstale⟩
    obtain ⟨t, -, ⟨hrun, hstill, hpopNs, hlogged⟩, hfinished⟩ :=
      can_finish (stepsLeft events) hon hloaded
    obtain ⟨pushedAt, hstamps⟩ := (running hs hrun).stamped.stored i (hfinished.1 ▸ hi)
    obtain rfl : pushedAt = now := hstill.stamps i pushedAt (by simp [hstamps])
    exact ⟨t, hrun, hfinished, hstamps, hpopNs, hlogged⟩

/-- A file with an offer and a bid that meets it. -/
def twoOrders : List ParsedEvent :=
  [{ tsNs := 1, orderId := 1, side := .sell, priceRaw := 100, quantity := 5 },
    { tsNs := 2, orderId := 2, priceRaw := 100, quantity := 3 }]

/-- The tool prepares its book for the file. -/
theorem two_orders_prepared : ∃ memory made book,
    OrderBook.make memory 100 1 2 = .ok made ∧
      Tool.threaded_replay_benchmark.prepare id grantingHost twoOrders made =
        (.returns (), book) := by
  have hcheck : ((OrderBook.make (fun _ => {
        orderId := 0, price := 0, originalQuantity := 0, remainingQuantity := 0, timestamp := 0
        orderSide := .buy, orderType := .limit, sequenceNumber := 0 }) 100 1 2).map fun made =>
      (Tool.threaded_replay_benchmark.prepare id grantingHost twoOrders made).1).toOption =
        some (.returns ()) := by
    decide +kernel
  generalize hmake : OrderBook.make _ 100 1 2 = result at hcheck
  cases result with
  | error e => cases hcheck
  | ok made =>
    rw [Except.map, Except.toOption, Option.some.injEq] at hcheck
    exact ⟨_, made, _, hmake, Prod.ext hcheck rfl⟩

/-- A finished run for two orders has done what the loop does. -/
theorem two_orders_replayed : ∃ (book : OrderBook) (t : Threads) (b : Replay),
    t.Finished twoOrders ∧
      benchmarkEvents id (fun _ => grantingHost) (fun _ => 5) 0 twoOrders
        { engine := ⟨0, book, []⟩ } = (.returns (), b) ∧ SameReplay t.replay b := by
  obtain ⟨memory, made, book, hmake, hprepare⟩ := two_orders_prepared
  have hs : Sound id book := sound_prepared hmake hprepare
  obtain ⟨t, -, hrun, hfinished⟩ := @finishes id (fun _ => grantingHost) (fun _ => 5) twoOrders
    _ book hs 0 .refl
  obtain ⟨-, -, -, b, hbenchmark, hsame⟩ := threads_replay hmake hprepare 0 hrun
  rw [hfinished.2, List.take_length] at hbenchmark
  exact ⟨book, t, b, hfinished, hbenchmark, hsame⟩

/-- Two orders are handed over, and the threads finish. -/
theorem two_orders_finished : ∃ book t,
    ReflTransGen (Steps id (fun _ => grantingHost) (fun _ => 5) twoOrders) (start book 0) t ∧
      t.sent = 2 ∧ t.consumed = 2 := by
  obtain ⟨memory, made, book, hmake, hprepare⟩ := two_orders_prepared
  obtain ⟨t, hrun, ⟨hsent, hconsumed⟩, -⟩ := @threads_finish id (fun _ => grantingHost)
    (fun _ => 5) twoOrders _ memory 100 1 2 made book grantingHost hmake hprepare 0 .refl
  exact ⟨book, t, hrun, hsent, hconsumed⟩

/-- The second order is pushed and popped at 7, and 7 is logged as its handoff. -/
theorem two_orders_stale : ∃ book t,
    ReflTransGen (Steps id (fun _ => grantingHost) (fun _ => 5) twoOrders) (start book 0) t ∧
      t.pushNs 1 = [0, 7] ∧ t.popNs 1 = 7 ∧ (t.replay.latency .HANDOFF)[1]? = some 7 := by
  obtain ⟨memory, made, book, hmake, hprepare⟩ := two_orders_prepared
  obtain ⟨-, hstale⟩ := @handoff_samples id (fun _ => grantingHost)
    (fun _ => 5) twoOrders memory 100 1 2 made book grantingHost hmake hprepare 0
  obtain ⟨t, hrun, -, hlogged⟩ := hstale 1 (by decide) 7
  exact ⟨book, t, hrun, hlogged⟩

end Tool

end Leka.ThreadedProgress
