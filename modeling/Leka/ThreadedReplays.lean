import Leka.InterchangeReplays
import Leka.Pipelines
import Leka.QueueCalls

/-!
The two threads of `threaded_replay_benchmark` and the queue between them, step by step in any
order. The pair simulates a pipeline that replays the events one after the other: in every state
the matching thread has done with a prefix of the events what the loop of
`benchmark_interchange` does with them. The stamps are another matter. A stamp is stored after
the push, so the matching thread may load the initial zero in its place, unless the pop has shown
it a later push.
-/

namespace Leka.ThreadedReplays

open Relation Procedures Orders OrderPools OrderBooks MatchingEngines EventOutcomes BookRuns
  RestingOrders LadderSizes InterchangeReplays SpscQueues SpscFifo QueueCalls Pipelines

def QueueCapacity : Capacity := ⟨4096, by decide, by decide⟩

/-- Where the feed handler is with the event at `sent`. -/
inductive Feed
  /-- In the loop around `tryPush`. -/
  | push
  /-- The push has succeeded, and the clock is read next. -/
  | stamp
  | store (now : UInt64)

/-- Where the matching thread is with the event at `consumed`. -/
inductive Matcher
  | pop
  /-- The pop has succeeded, and the clock is read next. -/
  | popped (event : OrderEvent)
  | loadStamp (event : OrderEvent) (poppedAt : UInt64)
  | process (event : OrderEvent)

/-- The threads and what they share. `pushNs` are the values that an atomic has held, oldest
first; the clock is the steady one, which both threads read. -/
structure Threads where
  queue : Queue OrderEvent := {}
  feed : Feed := .push
  sent : ℕ := 0
  matcher : Matcher := .pop
  consumed : ℕ := 0
  clock : ℕ := 0
  pushNs : ℕ → List UInt64 := fun _ => [0]
  popNs : ℕ → UInt64 := fun _ => 0
  replay : Replay

/-- A step of one of the threads, or of the clock. A load of a stamp names the value that it
returns. -/
inductive Action
  | push (action : SpscQueues.Action OrderEvent)
  | stamp
  | store
  | pop (action : SpscQueues.Action OrderEvent)
  | readClock
  | loadStamp (i : ℕ)
  | process
  | tick

/-- The call that begins with the action, if it begins one, is for the event. -/
def offers (event : OrderEvent) : SpscQueues.Action OrderEvent → Bool
  | .tryPush other => other = event
  | _ => true

/-- The oldest value that a load of the stamp at `consumed` may return. The stamp is stored before
the next push begins, so it is visible once a tail behind that push has been loaded. -/
def stampSeen (t : Threads) : ℕ := if t.consumed + 1 < t.queue.tailSeen then 1 else 0

section Steps

variable (hash : OrderId → UInt64) (hosts : ℕ → Host) (elapsed : ℕ → UInt64)
  (events : List ParsedEvent)

/-- A step of the feed handler. A push that has failed is tried again. -/
def feedStep (t : Threads) : Action → Option Threads
  | .push action =>
    match t.feed, events[t.sent]? with
    | .push, some e =>
      if offers (toOrderEvent e) action then
        (t.queue.produce QueueCapacity action).map fun (queue, returned) =>
          { t with queue, feed := if returned = some true then .stamp else .push }
      else none
    | _, _ => none
  | .stamp =>
    match t.feed with
    | .stamp => some { t with feed := .store (UInt64.ofNat t.clock) }
    | _ => none
  | .store =>
    match t.feed with
    | .store now => some { t with
        pushNs := Function.update t.pushNs t.sent (t.pushNs t.sent ++ [now])
        sent := t.sent + 1
        feed := .push }
    | _ => none
  | _ => none

/-- Where the matching thread is behind a step of its call. -/
def afterPop (queue : Queue OrderEvent) (returned : Option Bool) : Matcher :=
  match returned, queue.popped.getLast? with
  | some true, some event => .popped event
  | _, _ => .pop

/-- A step of the matching thread. -/
def matchStep (t : Threads) : Action → Option Threads
  | .pop action =>
    match t.matcher, events[t.consumed]? with
    | .pop, some _ =>
      (t.queue.consume QueueCapacity action).map fun (queue, returned) =>
        { t with queue, matcher := afterPop queue returned }
    | _, _ => none
  | .readClock =>
    match t.matcher with
    | .popped event => some { t with
        popNs := Function.update t.popNs t.consumed (UInt64.ofNat t.clock)
        matcher := .loadStamp event (UInt64.ofNat t.clock) }
    | _ => none
  | .loadStamp i =>
    match t.matcher, (t.pushNs t.consumed)[i]? with
    | .loadStamp event poppedAt, some pushedAt =>
      if stampSeen t ≤ i then
        some { t with
          replay := { t.replay with
            latency := record .HANDOFF (poppedAt - pushedAt) t.replay.latency }
          matcher := .process event }
      else none
    | _, _ => none
  | .process =>
    match t.matcher, events[t.consumed]? with
    | .process event, some raw =>
      match matchEvent hash (hosts t.consumed) (elapsed t.consumed) raw event t.replay with
      | (.returns (), replay) =>
        some { t with replay, consumed := t.consumed + 1, matcher := .pop }
      | _ => none
    | _, _ => none
  | _ => none

def step (t : Threads) (action : Action) : Option Threads :=
  match action with
  | .push _ | .stamp | .store => feedStep events t action
  | .pop _ | .readClock | .loadStamp _ | .process => matchStep hash hosts elapsed events t action
  | .tick => some { t with clock := t.clock + 1 }

/-- One of the threads takes a step. -/
def Steps (t t' : Threads) : Prop := ∃ action, step hash hosts elapsed events t action = some t'

/-- Both threads are through with the events. -/
def Threads.Finished (t : Threads) : Prop :=
  t.sent = events.length ∧ t.consumed = events.length

end Steps

section Invariant

/-- The events that have been pushed: the one whose stamp is missing is among them. -/
def pushedCount (t : Threads) : ℕ :=
  match t.feed with
  | .push => t.sent
  | .stamp | .store _ => t.sent + 1

/-- The event that the matching thread has popped and not processed. -/
def inHand : Matcher → Option OrderEvent
  | .pop => none
  | .popped event | .loadStamp event _ | .process event => some event

/-- The queue and the positions of the threads in the list agree. -/
structure Placed (events : List ParsedEvent) (t : Threads) : Prop where
  reachable : SpscQueues.Reachable QueueCapacity t.queue
  closing_eq : t.queue.closing = none
  pushed_le : pushedCount t ≤ events.length
  pushed_eq : t.queue.pushed = (events.take (pushedCount t)).map toOrderEvent
  offered_eq : ∀ event, offered t.queue.push = some event →
    t.feed = .push ∧ (events[t.sent]?).map toOrderEvent = some event
  popped_eq : t.queue.popped.length = t.consumed + (inHand t.matcher).toList.length
  inHand_eq : ∀ event, inHand t.matcher = some event →
    t.queue.pop = .idle ∧ (events[t.consumed]?).map toOrderEvent = some event
  popping : t.queue.pop ≠ .idle → t.consumed < events.length

end Invariant

section Placement

variable {hash : OrderId → UInt64} {hosts : ℕ → Host} {elapsed : ℕ → UInt64}
  {events : List ParsedEvent} {t t' : Threads}

theorem placed_start (events : List ParsedEvent) (replay : Replay) :
    Placed events { replay } where
  reachable := .new
  closing_eq := rfl
  pushed_le := Nat.zero_le _
  pushed_eq := rfl
  offered_eq := nofun
  popped_eq := rfl
  inHand_eq := nofun
  popping := fun h => absurd rfl h

theorem take_succ {k : ℕ} {e : ParsedEvent} (h : events[k]? = some e) :
    events.take (k + 1) = events.take k ++ [e] := by
  rw [List.take_add_one, h]
  rfl

/-- What the feed handler does to the queue. -/
theorem Placed.push (h : Placed events t) {e : ParsedEvent} {action : SpscQueues.Action OrderEvent}
    {queue : Queue OrderEvent} {returned : Option Bool} (hfeed : t.feed = .push)
    (he : events[t.sent]? = some e) (hoffers : offers (toOrderEvent e) action = true)
    (hs : t.queue.produce QueueCapacity action = some (queue, returned)) :
    Placed events
      { t with queue, feed := if returned = some true then .stamp else .push } := by
  obtain ⟨hproduced, hpop⟩ := produce_produced hs
  have hcount : pushedCount t = t.sent := by rw [pushedCount, hfeed]
  have hpushed := h.pushed_eq
  have hle := h.pushed_le
  rw [hcount] at hpushed hle
  have hreach := h.reachable.step (step_of_produce hs)
  have hclosing := hpop.closing.trans h.closing_eq
  have hpopped : queue.popped.length = t.consumed + (inHand t.matcher).toList.length :=
    hpop.popped ▸ h.popped_eq
  have hpopIdle : ∀ event, inHand t.matcher = some event →
      queue.pop = .idle ∧ (events[t.consumed]?).map toOrderEvent = some event :=
    fun event hevent => hpop.pop ▸ h.inHand_eq event hevent
  have hpopping : queue.pop ≠ .idle → t.consumed < events.length := hpop.pop ▸ h.popping
  cases hproduced with
  | @begins event hidle hoffered hsame =>
    have hevent : event = toOrderEvent e := by simpa [offers] using hoffers
    refine ⟨hreach, hclosing, hle, hsame.trans hpushed, ?_, hpopped, hpopIdle, hpopping⟩
    intro other hother
    obtain rfl := Option.some.inj (hoffered.symm.trans hother)
    exact ⟨rfl, by rw [he, hevent]; rfl⟩
  | goesOn hbefore hoffered hsame =>
    refine ⟨hreach, hclosing, hle, hsame.trans hpushed, ?_, hpopped, hpopIdle, hpopping⟩
    intro other hother
    obtain rfl := Option.some.inj (hoffered.symm.trans hother)
    exact ⟨rfl, (h.offered_eq _ hbefore).2⟩
  | fails hbefore hidle hsame =>
    refine ⟨hreach, hclosing, hle, hsame.trans hpushed, ?_, hpopped, hpopIdle, hpopping⟩
    intro other hother
    rw [hidle] at hother
    cases hother
  | @pushes _ event hbefore hidle hsame =>
    obtain ⟨-, hevent⟩ := h.offered_eq event hbefore
    rw [he] at hevent
    have hlt := (List.getElem?_eq_some_iff.mp he).1
    refine ⟨hreach, hclosing, hlt, ?_, ?_, hpopped, hpopIdle, hpopping⟩
    · change queue.pushed = (events.take (t.sent + 1)).map toOrderEvent
      rw [hsame, hpushed, take_succ he, List.map_append, ← Option.some.inj hevent]
      rfl
    · intro other hother
      rw [hidle] at hother
      cases hother

/-- The event that a pop returns is the one at the position of the matching thread. -/
theorem Placed.popped_event (h : Placed events t) {queue : Queue OrderEvent} {out : OrderEvent}
    (hmatcher : t.matcher = .pop) (hreach : SpscQueues.Reachable QueueCapacity queue)
    (hpush : PushUntouched t.queue queue) (hpopped : queue.popped = t.queue.popped ++ [out]) :
    (events[t.consumed]?).map toOrderEvent = some out := by
  have hlength := h.popped_eq
  rw [hmatcher] at hlength
  have hlength : t.queue.popped.length = t.consumed := hlength
  obtain ⟨rest, hrest⟩ := (reachable_fifo hreach).1
  have hat : queue.pushed[t.consumed]? = some out := by
    rw [← hrest, hpopped, List.append_assoc, ← hlength, List.getElem?_append_right le_rfl,
      Nat.sub_self]
    rfl
  rw [hpush.pushed, h.pushed_eq, List.getElem?_map, List.getElem?_take] at hat
  split_ifs at hat
  · exact hat
  · cases hat

/-- What the matching thread does to the queue. -/
theorem Placed.pop (h : Placed events t) {e : ParsedEvent} {action : SpscQueues.Action OrderEvent}
    {queue : Queue OrderEvent} {returned : Option Bool} (hmatcher : t.matcher = .pop)
    (he : events[t.consumed]? = some e)
    (hs : t.queue.consume QueueCapacity action = some (queue, returned)) :
    Placed events { t with queue, matcher := afterPop queue returned } := by
  obtain ⟨hconsumed, hpush⟩ := consume_consumed hs
  have hreach := h.reachable.step (step_of_consume hs)
  have hclosing := hpush.closing.trans h.closing_eq
  have hpushed : queue.pushed = (events.take (pushedCount t)).map toOrderEvent :=
    hpush.pushed.trans h.pushed_eq
  have hoffered : ∀ event, offered queue.push = some event →
      t.feed = .push ∧ (events[t.sent]?).map toOrderEvent = some event :=
    hpush.push ▸ h.offered_eq
  have hlt := (List.getElem?_eq_some_iff.mp he).1
  have hlength := h.popped_eq
  rw [hmatcher] at hlength
  cases hconsumed with
  | begins _ _ hsame | goesOn _ _ hsame | fails _ _ hsame =>
    exact ⟨hreach, hclosing, h.pushed_le, hpushed, hoffered, hsame ▸ hlength, nofun, fun _ => hlt⟩
  | @pops _ out hbefore hidle hsame =>
    have hnext : afterPop queue (some true) = .popped out := by
      have hlast : queue.popped.getLast? = some out := by rw [hsame, List.getLast?_concat]
      simp only [afterPop, hlast]
    rw [hnext]
    refine ⟨hreach, hclosing, h.pushed_le, hpushed, hoffered, ?_, ?_, fun _ => hlt⟩
    · change queue.popped.length = t.consumed + 1
      rw [hsame, List.length_append, hlength]
      rfl
    · intro event hevent
      obtain rfl := Option.some.inj hevent
      exact ⟨hidle, h.popped_event hmatcher hreach hpush hsame⟩

/-- A step that leaves the queue and the positions alone. -/
theorem Placed.moved (h : Placed events t) (hqueue : t'.queue = t.queue)
    (hcount : pushedCount t' = pushedCount t)
    (hfeed : t.feed = .push → t'.feed = .push ∧ t'.sent = t.sent)
    (hconsumed : t'.consumed = t.consumed) (hinHand : inHand t'.matcher = inHand t.matcher) :
    Placed events t' where
  reachable := hqueue ▸ h.reachable
  closing_eq := hqueue ▸ h.closing_eq
  pushed_le := hcount ▸ h.pushed_le
  pushed_eq := by rw [hqueue, hcount, h.pushed_eq]
  offered_eq := by
    intro event hevent
    rw [hqueue] at hevent
    obtain ⟨hpush, he⟩ := h.offered_eq event hevent
    obtain ⟨hpush', hsent⟩ := hfeed hpush
    exact ⟨hpush', hsent ▸ he⟩
  popped_eq := by rw [hqueue, hconsumed, hinHand, h.popped_eq]
  inHand_eq := by
    rw [hqueue, hconsumed, hinHand]
    exact h.inHand_eq
  popping := by
    rw [hqueue, hconsumed]
    exact h.popping

/-- The event in hand has been processed. -/
theorem Placed.processed (h : Placed events t) {event : OrderEvent} {replay : Replay}
    (hmatcher : t.matcher = .process event) :
    Placed events { t with replay, consumed := t.consumed + 1, matcher := .pop } where
  reachable := h.reachable
  closing_eq := h.closing_eq
  pushed_le := h.pushed_le
  pushed_eq := h.pushed_eq
  offered_eq := h.offered_eq
  popped_eq := by
    have hlength := h.popped_eq
    rw [hmatcher] at hlength
    exact hlength
  inHand_eq := nofun
  popping := by
    intro hpop
    have hinHand : inHand t.matcher = some event := by rw [hmatcher, inHand]
    exact absurd (h.inHand_eq event hinHand).1 hpop

end Placement

section Simulation

variable (hash : OrderId → UInt64) (hosts : ℕ → Host) (elapsed : ℕ → UInt64)
  (events : List ParsedEvent)

/-- The next round of the loop of `benchmark_interchange`, with the number of rounds. -/
def replayNext (state : ℕ × Replay) (e : ParsedEvent) : ℕ × Replay :=
  (state.1 + 1, (benchmarkEvent hash (hosts state.1) (elapsed state.1) e state.2).2)

/-- The threads are where the pipeline is. -/
structure Follows (t : Threads) (p : Pipeline ParsedEvent (ℕ × Replay)) : Prop where
  placed : Placed events t
  sound : Sound hash t.replay.engine.orderBook
  unsent : p.unsent = events.drop (pushedCount t)
  inside : p.inside = (events.take (pushedCount t)).drop t.consumed
  index : p.state.1 = t.consumed
  replay : SameReplay t.replay p.state.2

variable {hash hosts elapsed events} {t t' : Threads} {p : Pipeline ParsedEvent (ℕ × Replay)}

/-- One event more than the queue has slots can be under way: the one in hand. -/
theorem Placed.room (h : Placed events t) : pushedCount t ≤ t.consumed + (4096 + 1) := by
  have hfifo := (reachable_fifo h.reachable).2.1
  have hsize : QueueCapacity.value.toNat = 4096 := rfl
  have hpopped := h.popped_eq
  have hone : (inHand t.matcher).toList.length ≤ 1 := by
    cases inHand t.matcher <;> simp
  rw [h.pushed_eq, List.length_map, List.length_take, min_eq_left h.pushed_le, hsize] at hfifo
  omega

theorem Placed.consumed_le (h : Placed events t) : t.consumed ≤ pushedCount t := by
  have hfifo := (reachable_fifo h.reachable).1.length_le
  have hpopped := h.popped_eq
  rw [h.pushed_eq, List.length_map, List.length_take, min_eq_left h.pushed_le] at hfifo
  omega

theorem Follows.refl_step (h : Follows hash events t p) (hplaced : Placed events t')
    (hcount : pushedCount t' = pushedCount t) (hconsumed : t'.consumed = t.consumed)
    (hreplay : t'.replay = t.replay) : Follows hash events t' p where
  placed := hplaced
  sound := hreplay ▸ h.sound
  unsent := hcount ▸ h.unsent
  inside := by rw [h.inside, hcount, hconsumed]
  index := hconsumed ▸ h.index
  replay := hreplay ▸ h.replay

theorem Follows.feed (h : Follows hash events t p) {action : Action}
    (hs : feedStep events t action = some t') : ∃ p',
      ReflTransGen (Step (replayNext hash hosts elapsed) (4096 + 1)) p p' ∧
        Follows hash events t' p' := by
  cases action with
  | push action =>
    rw [feedStep] at hs
    split at hs
    · rename_i e hfeed he
      split at hs
      · rename_i hoffers
        obtain ⟨⟨queue, returned⟩, hrun, rfl⟩ := Option.map_eq_some_iff.mp hs
        have hplaced := h.placed.push hfeed he hoffers hrun
        have hcount : pushedCount t = t.sent := by rw [pushedCount, hfeed]
        by_cases hsent : returned = some true
        · -- The event has been pushed: the pipeline sends it.
          simp only [if_pos hsent] at hplaced ⊢
          have hroom := hplaced.room
          have hconsumed := h.placed.consumed_le
          obtain ⟨unsent, inside, state⟩ := p
          obtain rfl : unsent = events.drop (pushedCount t) := h.unsent
          obtain rfl : inside = (events.take (pushedCount t)).drop t.consumed := h.inside
          have hlt := (List.getElem?_eq_some_iff.mp he).1
          have hdrop : events.drop (pushedCount t) = e :: events.drop (t.sent + 1) := by
            rw [hcount, List.drop_eq_getElem_cons hlt, (List.getElem?_eq_some_iff.mp he).2]
          refine ⟨⟨events.drop (t.sent + 1), (events.take (pushedCount t)).drop t.consumed ++ [e],
            state⟩, .single ?_, hplaced, h.sound, rfl, ?_, h.index, h.replay⟩
          · rw [hdrop]
            refine .send ?_
            rw [List.length_drop, List.length_take, min_eq_left h.placed.pushed_le]
            have hnext : t.sent + 1 ≤ t.consumed + (4096 + 1) := hroom
            omega
          · change _ = (events.take (t.sent + 1)).drop t.consumed
            rw [take_succ he, hcount, List.drop_append_of_le_length]
            rw [List.length_take, min_eq_left hlt.le]
            omega
        · simp only [if_neg hsent] at hplaced ⊢
          exact ⟨p, .refl, h.refl_step hplaced hcount.symm rfl rfl⟩
      · cases hs
    · cases hs
  | stamp =>
    rw [feedStep] at hs
    split at hs
    · rename_i hfeed
      cases hs
      have hcount : pushedCount t = t.sent + 1 := by rw [pushedCount, hfeed]
      refine ⟨p, .refl, h.refl_step ?_ hcount.symm rfl rfl⟩
      exact h.placed.moved rfl hcount.symm (fun hpush => by rw [hfeed] at hpush; cases hpush)
        rfl rfl
    · cases hs
  | store =>
    rw [feedStep] at hs
    split at hs
    · rename_i now hfeed
      cases hs
      have hcount : pushedCount t = t.sent + 1 := by rw [pushedCount, hfeed]
      refine ⟨p, .refl, h.refl_step ?_ hcount.symm rfl rfl⟩
      exact h.placed.moved rfl hcount.symm (fun hpush => by rw [hfeed] at hpush; cases hpush)
        rfl rfl
    · cases hs
  | pop | readClock | loadStamp | process | tick => cases hs

/-- A sample of a handoff is none that the other loop takes. -/
theorem sameReplay_handoff {s b : Replay} (h : SameReplay s b) (nanos : UInt64) :
    SameReplay { s with latency := record .HANDOFF nanos s.latency } b where
  orderBook := h.orderBook
  currentSequence := h.currentSequence
  latency := by
    intro label hlabel
    rw [h.latency label hlabel]
    exact (Function.update_of_ne hlabel _ _).symm
  errorCount := h.errorCount

theorem Follows.matcher (h : Follows hash events t p) {action : Action}
    (hs : matchStep hash hosts elapsed events t action = some t') : ∃ p',
      ReflTransGen (Step (replayNext hash hosts elapsed) (4096 + 1)) p p' ∧
        Follows hash events t' p' := by
  cases action with
  | pop action =>
    rw [matchStep] at hs
    split at hs
    · rename_i e hmatcher he
      obtain ⟨⟨queue, returned⟩, hrun, rfl⟩ := Option.map_eq_some_iff.mp hs
      exact ⟨p, .refl, h.refl_step (h.placed.pop hmatcher he hrun) rfl rfl rfl⟩
    · cases hs
  | readClock =>
    rw [matchStep] at hs
    split at hs
    · rename_i event hmatcher
      cases hs
      refine ⟨p, .refl, h.refl_step ?_ rfl rfl rfl⟩
      exact h.placed.moved rfl rfl (fun hpush => ⟨hpush, rfl⟩) rfl (by rw [hmatcher]; rfl)
    · cases hs
  | loadStamp i =>
    rw [matchStep] at hs
    split at hs
    · rename_i event poppedAt pushedAt hmatcher hpushedAt
      split at hs
      · cases hs
        refine ⟨p, .refl, ?_, h.sound, h.unsent, h.inside, h.index, sameReplay_handoff h.replay _⟩
        exact h.placed.moved rfl rfl (fun hpush => ⟨hpush, rfl⟩) rfl (by rw [hmatcher]; rfl)
      · cases hs
    · cases hs
  | process =>
    rw [matchStep] at hs
    split at hs
    · rename_i event e hmatcher he
      -- The event in hand is that of the row, and the pipeline receives it.
      have hinHand : inHand t.matcher = some event := by rw [hmatcher, inHand]
      have hevent := (h.placed.inHand_eq event hinHand).2
      rw [he] at hevent
      obtain rfl : toOrderEvent e = event := Option.some.inj hevent
      obtain ⟨s', b', hmatch, hbenchmark, hsame, hengine⟩ :=
        h.replay.event h.sound (hosts t.consumed) (elapsed t.consumed) e
      rw [hmatch] at hs
      cases hs
      have hplaced : Placed events
          { t with replay := s', consumed := t.consumed + 1, matcher := .pop } :=
        h.placed.processed hmatcher
      obtain ⟨unsent, inside, index, b⟩ := p
      obtain rfl : unsent = events.drop (pushedCount t) := h.unsent
      obtain rfl : index = t.consumed := h.index
      have hinside : inside = (events.take (pushedCount t)).drop t.consumed := h.inside
      have hle := hplaced.consumed_le
      have hlt : t.consumed < (events.take (pushedCount t)).length := by
        rw [List.length_take, min_eq_left h.placed.pushed_le]
        exact hle
      have hnext : (events.take (pushedCount t))[t.consumed] = e := by
        rw [List.getElem_take]
        exact (List.getElem?_eq_some_iff.mp he).2
      rw [List.drop_eq_getElem_cons hlt, hnext] at hinside
      subst hinside
      refine ⟨_, .single .receive, hplaced, ?_, rfl, rfl, rfl, ?_⟩
      · change Sound hash s'.engine.orderBook
        rw [hengine]
        exact sound_processEvent h.sound (hosts t.consumed) (toOrderEvent e)
      · change SameReplay s' (benchmarkEvent hash (hosts t.consumed) (elapsed t.consumed) e b).2
        rw [hbenchmark]
        exact hsame
    · cases hs
  | push | stamp | store | tick => cases hs

theorem step_sides {action : Action} (hs : step hash hosts elapsed events t action = some t') :
    feedStep events t action = some t' ∨ matchStep hash hosts elapsed events t action = some t' ∨
      t' = { t with clock := t.clock + 1 } := by
  cases action with
  | push | stamp | store => exact .inl hs
  | pop | readClock | loadStamp | process => exact .inr (.inl hs)
  | tick =>
    cases hs
    exact .inr (.inr rfl)

/-- Whatever the threads do, the pipeline can follow. -/
theorem simulates : Simulates (Steps hash hosts elapsed events)
    (Step (replayNext hash hosts elapsed) (4096 + 1)) (Follows hash events) := by
  rintro t p t' h ⟨action, hs⟩
  rcases step_sides hs with hs | hs | rfl
  · exact h.feed hs
  · exact h.matcher hs
  · refine ⟨p, .refl, h.refl_step ?_ rfl rfl rfl⟩
    exact h.placed.moved rfl rfl (fun hpush => ⟨hpush, rfl⟩) rfl rfl

end Simulation

section Stamps

variable {hash : OrderId → UInt64} {hosts : ℕ → Host} {elapsed : ℕ → UInt64}
  {events : List ParsedEvent} {t t' : Threads}

/-- The events whose handoffs are logged. -/
def handed (consumed : ℕ) : Matcher → ℕ
  | .process _ => consumed + 1
  | .pop | .popped _ | .loadStamp _ _ => consumed

/-- The first stamps are stored, and a logged handoff is the time from a value of its own stamp,
which may be the initial one. -/
structure Stamped (t : Threads) : Prop where
  stored : ∀ i < t.sent, ∃ now, t.pushNs i = [0, now]
  unstored : ∀ i, t.sent ≤ i → t.pushNs i = [0]
  logged : (t.replay.latency .HANDOFF).length = handed t.consumed t.matcher
  handoff : ∀ i sample, (t.replay.latency .HANDOFF)[i]? = some sample →
    ∃ pushedAt ∈ t.pushNs i, sample = t.popNs i - pushedAt
  popped_at : ∀ event poppedAt, t.matcher = .loadStamp event poppedAt →
    t.popNs t.consumed = poppedAt

theorem stamped_start (engine : EngineState) : Stamped { replay := { engine } } where
  stored := fun _ h => absurd h (Nat.not_lt_zero _)
  unstored := fun _ _ => rfl
  logged := rfl
  handoff := nofun
  popped_at := nofun

theorem Stamped.feed (h : Stamped t) {action : Action} (hs : feedStep events t action = some t') :
    Stamped t' := by
  cases action with
  | push action =>
    rw [feedStep] at hs
    split at hs
    · split at hs
      · obtain ⟨_, _, rfl⟩ := Option.map_eq_some_iff.mp hs
        exact ⟨h.stored, h.unstored, h.logged, h.handoff, h.popped_at⟩
      · cases hs
    · cases hs
  | stamp =>
    rw [feedStep] at hs
    split at hs
    · cases hs
      exact ⟨h.stored, h.unstored, h.logged, h.handoff, h.popped_at⟩
    · cases hs
  | store =>
    rw [feedStep] at hs
    split at hs
    · rename_i now hfeed
      cases hs
      refine ⟨?_, ?_, h.logged, ?_, h.popped_at⟩
      · intro i hi
        by_cases hsame : i = t.sent
        · refine ⟨now, ?_⟩
          simp only [hsame, Function.update_self, h.unstored t.sent le_rfl]
          rfl
        · have hi : i < t.sent + 1 := hi
          simp only [Function.update_of_ne hsame]
          exact h.stored i (by omega)
      · intro i hi
        have hi : t.sent + 1 ≤ i := hi
        have hother : i ≠ t.sent := by omega
        simp only [Function.update_of_ne hother]
        exact h.unstored i (by omega)
      · intro i sample hsample
        obtain ⟨pushedAt, hmem, heq⟩ := h.handoff i sample hsample
        refine ⟨pushedAt, ?_, heq⟩
        by_cases hsame : i = t.sent
        · rw [hsame] at hmem ⊢
          simp only [Function.update_self]
          exact List.mem_append_left _ hmem
        · simp only [Function.update_of_ne hsame]
          exact hmem
    · cases hs
  | pop | readClock | loadStamp | process | tick => cases hs

/-- A call of the engine logs no handoff. -/
theorem matchEvent_handoff {host : Host} {nanos : UInt64} {e : ParsedEvent} {event : OrderEvent}
    {s s' : Replay} (hrun : matchEvent hash host nanos e event s = (.returns (), s')) :
    s'.latency .HANDOFF = s.latency .HANDOFF := by
  generalize hcall : processEvent hash host event s.engine = result
  obtain ⟨o, engine⟩ := result
  cases o with
  | returns n =>
    rw [matchEvent_returns nanos e hcall] at hrun
    obtain rfl := congrArg Prod.snd hrun
    exact Function.update_of_ne (Ne.symm (labelOf_ne_handoff e _)) _ _
  | throws exn =>
    rw [matchEvent_throws nanos e hcall] at hrun
    obtain rfl := congrArg Prod.snd hrun
    rfl
  | diverges =>
    have hdiverges : matchEvent hash host nanos e event s = (.diverges, { s with engine }) := by
      change Proc.handle _ countError s = _
      rw [Proc.handle, Proc.bind_diverges _ (onEngine_run hcall)]
    rw [hdiverges] at hrun
    cases congrArg Prod.fst hrun

theorem afterPop_cases (queue : Queue OrderEvent) (returned : Option Bool) :
    afterPop queue returned = .pop ∨ ∃ event, afterPop queue returned = .popped event := by
  unfold afterPop
  split
  · exact .inr ⟨_, rfl⟩
  · exact .inl rfl

theorem Stamped.matcher (h : Stamped t) {action : Action}
    (hs : matchStep hash hosts elapsed events t action = some t') : Stamped t' := by
  cases action with
  | pop action =>
    rw [matchStep] at hs
    split at hs
    · rename_i e hmatcher he
      obtain ⟨⟨queue, returned⟩, hrun, rfl⟩ := Option.map_eq_some_iff.mp hs
      have hlogged : (t.replay.latency .HANDOFF).length = t.consumed := by
        rw [h.logged, hmatcher, handed]
      have hcases := afterPop_cases queue returned
      refine ⟨h.stored, h.unstored, ?_, h.handoff, ?_⟩
      · change (t.replay.latency .HANDOFF).length = handed t.consumed (afterPop queue returned)
        rcases hcases with hnext | ⟨event, hnext⟩
        · rw [hnext]
          exact hlogged
        · rw [hnext]
          exact hlogged
      · intro event poppedAt hnext
        change afterPop queue returned = _ at hnext
        rcases hcases with hpop | ⟨event', hpopped⟩
        · rw [hpop] at hnext
          cases hnext
        · rw [hpopped] at hnext
          cases hnext
    · cases hs
  | readClock =>
    rw [matchStep] at hs
    split at hs
    · rename_i event hmatcher
      cases hs
      have hlogged : (t.replay.latency .HANDOFF).length = t.consumed := by
        rw [h.logged, hmatcher, handed]
      refine ⟨h.stored, h.unstored, hlogged, ?_, ?_⟩
      · intro i sample hsample
        obtain ⟨pushedAt, hmem, heq⟩ := h.handoff i sample hsample
        have hlt := (List.getElem?_eq_some_iff.mp hsample).1
        have hother : i ≠ t.consumed := by
          change i < (t.replay.latency .HANDOFF).length at hlt
          omega
        refine ⟨pushedAt, hmem, ?_⟩
        simp only [Function.update_of_ne hother]
        exact heq
      · intro event' poppedAt hmatcher'
        cases hmatcher'
        exact Function.update_self _ _ _
    · cases hs
  | loadStamp i =>
    rw [matchStep] at hs
    split at hs
    · rename_i event poppedAt pushedAt hmatcher hpushedAt
      split at hs
      · cases hs
        have hlogged : (t.replay.latency .HANDOFF).length = t.consumed := by
          rw [h.logged, hmatcher, handed]
        have hlog : record .HANDOFF (poppedAt - pushedAt) t.replay.latency .HANDOFF =
            t.replay.latency .HANDOFF ++ [poppedAt - pushedAt] := Function.update_self _ _ _
        refine ⟨h.stored, h.unstored, ?_, ?_, nofun⟩
        · change (record .HANDOFF (poppedAt - pushedAt) t.replay.latency .HANDOFF).length =
            t.consumed + 1
          rw [hlog, List.length_append, hlogged]
          rfl
        · intro i sample hsample
          change (record .HANDOFF (poppedAt - pushedAt) t.replay.latency .HANDOFF)[i]? = _
            at hsample
          rw [hlog] at hsample
          by_cases hi : i < t.consumed
          · rw [List.getElem?_append_left (hlogged.symm ▸ hi)] at hsample
            exact h.handoff i sample hsample
          · have hlt := (List.getElem?_eq_some_iff.mp hsample).1
            rw [List.length_append, hlogged, List.length_singleton] at hlt
            obtain rfl : i = t.consumed := by omega
            rw [List.getElem?_append_right hlogged.le, hlogged, Nat.sub_self] at hsample
            refine ⟨pushedAt, List.mem_of_getElem? hpushedAt, ?_⟩
            rw [h.popped_at event poppedAt hmatcher]
            exact (Option.some.inj hsample).symm
      · cases hs
    · cases hs
  | process =>
    rw [matchStep] at hs
    split at hs
    · rename_i event e hmatcher he
      have hlogged : (t.replay.latency .HANDOFF).length = t.consumed + 1 := by
        rw [h.logged, hmatcher, handed]
      split at hs
      · rename_i replay hrun
        cases hs
        have hsame := matchEvent_handoff hrun
        refine ⟨h.stored, h.unstored, ?_, ?_, nofun⟩
        · change (replay.latency .HANDOFF).length = t.consumed + 1
          rw [hsame, hlogged]
        · intro i sample hsample
          change (replay.latency .HANDOFF)[i]? = _ at hsample
          rw [hsame] at hsample
          exact h.handoff i sample hsample
      · cases hs
    · cases hs
  | push | stamp | store | tick => cases hs

theorem Stamped.run (h : Stamped t) (hrun : ReflTransGen (Steps hash hosts elapsed events) t t') :
    Stamped t' := by
  induction hrun with
  | refl => exact h
  | tail _ hstep ih =>
    obtain ⟨action, hs⟩ := hstep
    rcases step_sides hs with hs | hs | rfl
    · exact ih.feed hs
    · exact ih.matcher hs
    · exact ⟨ih.stored, ih.unstored, ih.logged, ih.handoff, ih.popped_at⟩

end Stamps

section Runs

variable {hash : OrderId → UInt64} {hosts : ℕ → Host} {elapsed : ℕ → UInt64}
  {events : List ParsedEvent} {t : Threads} {book : OrderBook}

/-- The threads start on a new replay. -/
def start (book : OrderBook) (counter : UInt64) : Threads :=
  { replay := { engine := ⟨counter, book, []⟩ } }

/-- The rounds of the loop, one after the other. -/
theorem foldl_replayNext {b : Replay} (hs : Sound hash b.engine.orderBook) (index : ℕ)
    (es : List ParsedEvent) :
    ∃ b', benchmarkEvents hash hosts elapsed index es b = (.returns (), b') ∧
      es.foldl (replayNext hash hosts elapsed) (index, b) = (index + es.length, b') := by
  induction es generalizing b index with
  | nil => exact ⟨b, rfl, rfl⟩
  | cons e es ih =>
    obtain ⟨b₁, hbenchmark, -, out, hengine⟩ :=
      benchmarkEvent_accounts hs (hosts index) elapsed index e
    have hsound : Sound hash b₁.engine.orderBook := by
      rw [hengine]
      exact sound_processEvent hs (hosts index) (toOrderEvent e)
    obtain ⟨b', hrest, hfold⟩ := ih hsound (index + 1)
    refine ⟨b', ?_, ?_⟩
    · rw [benchmarkEvents, Proc.bind_returns _ hbenchmark, hrest]
    · have hnext : replayNext hash hosts elapsed (index, b) e = (index + 1, b₁) := by
        rw [replayNext, hbenchmark]
      rw [List.foldl_cons, hnext, hfold, List.length_cons, Nat.add_assoc, Nat.add_comm 1]

theorem follows_start (hs : Sound hash book) (counter : UInt64) :
    Follows hash events (start book counter)
      ⟨events, [], (0, { engine := ⟨counter, book, []⟩ })⟩ where
  placed := placed_start events _
  sound := hs
  unsent := rfl
  inside := rfl
  index := rfl
  replay := ⟨rfl, rfl, fun _ _ => rfl, rfl⟩

/-- In every run, the matching thread has done with the events that it has consumed what the loop
of `benchmark_interchange` does with them, and no more than 4097 events are under way. -/
theorem run_replays (hs : Sound hash book) (counter : UInt64)
    (hrun : ReflTransGen (Steps hash hosts elapsed events) (start book counter) t) :
    Placed events t ∧ Sound hash t.replay.engine.orderBook ∧
      pushedCount t ≤ t.consumed + (4096 + 1) ∧ ∃ b,
      benchmarkEvents hash hosts elapsed 0 (events.take t.consumed)
        { engine := ⟨counter, book, []⟩ } = (.returns (), b) ∧ SameReplay t.replay b := by
  obtain ⟨p, hpipeline, hfollows⟩ := simulates.run (follows_start hs counter) hrun
  obtain ⟨⟨received, hsplit, hstate⟩, hbounded⟩ := (within_start _ _ _ _).run hpipeline
  obtain ⟨b, hbenchmark, hfold⟩ := @foldl_replayNext hash hosts elapsed
    { engine := ⟨counter, book, []⟩ } hs 0 received
  have hp : p.state = (0 + received.length, b) := hstate.trans hfold
  have hlength : received.length = t.consumed := by
    rw [← hfollows.index, hp, Nat.zero_add]
  have hreceived : events.take t.consumed = received := by
    rw [hsplit, ← hlength, List.take_left']
    rfl
  rw [hfollows.inside, List.length_drop, List.length_take,
    min_eq_left hfollows.placed.pushed_le] at hbounded
  refine ⟨hfollows.placed, hfollows.sound, by omega, b, hreceived.symm ▸ hbenchmark, ?_⟩
  have hsame := hfollows.replay
  rwa [hp] at hsame

end Runs

end Leka.ThreadedReplays
