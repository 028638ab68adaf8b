import Leka.SpscFifo

/-!
What a single step of a call does to the queue, and why no call is stuck: a push that finds a
free slot at the newest head value, and a pop that finds an event at the newest tail value, get
one step closer to their end with every step of their own.
-/

namespace Leka.QueueCalls

open SpscQueues RingSlots SpscFifo

variable {α : Type} {capacity : Capacity} {q q' : Queue α} {action : Action α}
  {returned : Option Bool}

/-- The event that a call of `tryPush` is to push. -/
def offered : Push α → Option α
  | .idle => none
  | .loadTail event | .loadHead event _ | .construct event _ | .storeTail event _ => some event

/-- The steps that a call of `tryPush` has to go at most. -/
def pushRank : Push α → ℕ
  | .idle => 0
  | .storeTail _ _ => 1
  | .construct _ _ => 2
  | .loadHead _ _ => 3
  | .loadTail _ => 4

def popRank : Pop α → ℕ
  | .idle => 0
  | .storeHead _ _ => 1
  | .take _ => 2
  | .loadTail _ => 3
  | .loadHead => 4

/-- The consumer's side is as before. -/
structure PopUntouched (q q' : Queue α) : Prop where
  pop : q'.pop = q.pop
  popped : q'.popped = q.popped
  closing : q'.closing = q.closing

structure PushUntouched (q q' : Queue α) : Prop where
  push : q'.push = q.push
  pushed : q'.pushed = q.pushed
  closing : q'.closing = q.closing

/-- What a step of the producer comes to: a call begins, goes on, fails or pushes its event. -/
inductive Produced (q q' : Queue α) : Action α → Option Bool → Prop
  | begins {event : α} (hidle : q.push = .idle) (hoffered : offered q'.push = some event)
      (hpushed : q'.pushed = q.pushed) : Produced q q' (.tryPush event) none
  | goesOn {action : Action α} {event : α} (hbefore : offered q.push = some event)
      (hoffered : offered q'.push = some event) (hpushed : q'.pushed = q.pushed) :
      Produced q q' action none
  | fails {action : Action α} (hbefore : q.push ≠ .idle) (hidle : q'.push = .idle)
      (hpushed : q'.pushed = q.pushed) : Produced q q' action (some false)
  | pushes {action : Action α} {event : α} (hbefore : offered q.push = some event)
      (hidle : q'.push = .idle) (hpushed : q'.pushed = q.pushed ++ [event]) :
      Produced q q' action (some true)

theorem produce_produced (hs : q.produce capacity action = some (q', returned)) :
    Produced q q' action returned ∧ PopUntouched q q' := by
  cases action with
  | tryPush event =>
    rw [Queue.produce] at hs
    split at hs
    · rename_i hpush hclosing
      cases hs
      exact ⟨.begins hpush rfl rfl, rfl, rfl, rfl⟩
    · cases hs
  | loadOwnTail =>
    rw [Queue.produce] at hs
    split at hs
    · rename_i event hpush
      dsimp only at hs
      split at hs
      · cases hs
        exact ⟨.goesOn (by rw [hpush]; rfl) rfl rfl, rfl, rfl, rfl⟩
      · cases hs
        exact ⟨.goesOn (by rw [hpush]; rfl) rfl rfl, rfl, rfl, rfl⟩
    · cases hs
  | loadHead i =>
    rw [Queue.produce] at hs
    split at hs
    · rename_i event tail stored hpush hstored
      split at hs
      · dsimp only at hs
        split at hs
        · cases hs
          exact ⟨.fails (by simp [hpush]) rfl rfl, rfl, rfl, rfl⟩
        · cases hs
          exact ⟨.goesOn (by rw [hpush]; rfl) rfl rfl, rfl, rfl, rfl⟩
      · cases hs
    · cases hs
  | construct =>
    rw [Queue.produce] at hs
    split at hs
    · rename_i event tail hpush
      cases hs
      exact ⟨.goesOn (by rw [hpush]; rfl) rfl rfl, rfl, rfl, rfl⟩
    · cases hs
  | storeTail =>
    rw [Queue.produce] at hs
    split at hs
    · rename_i event tail hpush
      cases hs
      exact ⟨.pushes (by rw [hpush]; rfl) rfl rfl, rfl, rfl, rfl⟩
    · cases hs
  | tryPop | loadOwnHead | loadTail | take | storeHead | close | destroyNext => cases hs

/-- What a step of the consumer comes to. -/
inductive Consumed (q q' : Queue α) : Action α → Option Bool → Prop
  | begins (hidle : q.pop = .idle) (hpop : q'.pop = .loadHead) (hpopped : q'.popped = q.popped) :
      Consumed q q' .tryPop none
  | goesOn {action : Action α} (hbefore : q.pop ≠ .idle) (hpop : q'.pop ≠ .idle)
      (hpopped : q'.popped = q.popped) : Consumed q q' action none
  | fails {action : Action α} (hbefore : q.pop ≠ .idle) (hidle : q'.pop = .idle)
      (hpopped : q'.popped = q.popped) : Consumed q q' action (some false)
  | pops {action : Action α} {out : α} (hbefore : q.pop ≠ .idle) (hidle : q'.pop = .idle)
      (hpopped : q'.popped = q.popped ++ [out]) : Consumed q q' action (some true)

theorem consume_consumed (hs : q.consume capacity action = some (q', returned)) :
    Consumed q q' action returned ∧ PushUntouched q q' := by
  cases action with
  | tryPop =>
    rw [Queue.consume] at hs
    split at hs
    · rename_i hpop hclosing
      cases hs
      exact ⟨.begins hpop rfl rfl, rfl, rfl, rfl⟩
    · cases hs
  | loadOwnHead =>
    rw [Queue.consume] at hs
    split at hs
    · rename_i hpop
      dsimp only at hs
      split at hs
      · cases hs
        exact ⟨.goesOn (by simp [hpop]) (by simp) rfl, rfl, rfl, rfl⟩
      · cases hs
        exact ⟨.goesOn (by simp [hpop]) (by simp) rfl, rfl, rfl, rfl⟩
    · cases hs
  | loadTail i =>
    rw [Queue.consume] at hs
    split at hs
    · rename_i head stored hpop hstored
      split at hs
      · dsimp only at hs
        split at hs
        · cases hs
          exact ⟨.fails (by simp [hpop]) rfl rfl, rfl, rfl, rfl⟩
        · cases hs
          exact ⟨.goesOn (by simp [hpop]) (by simp) rfl, rfl, rfl, rfl⟩
      · cases hs
    · cases hs
  | take garbage =>
    rw [Queue.consume] at hs
    split at hs
    · rename_i head hpop
      cases hs
      exact ⟨.goesOn (by simp [hpop]) (by simp) rfl, rfl, rfl, rfl⟩
    · cases hs
  | storeHead =>
    rw [Queue.consume] at hs
    split at hs
    · rename_i head out hpop
      cases hs
      exact ⟨.pops (by simp [hpop]) rfl rfl, rfl, rfl, rfl⟩
    · cases hs
  | tryPush | loadOwnTail | loadHead | construct | storeTail | close | destroyNext => cases hs

/-- A step of one side is a step of the queue. -/
theorem step_of_produce (hs : q.produce capacity action = some (q', returned)) :
    q.step capacity action = some (q', returned) := by
  cases action with
  | tryPush | loadOwnTail | loadHead | construct | storeTail => exact hs
  | tryPop | loadOwnHead | loadTail | take | storeHead | close | destroyNext => cases hs

theorem step_of_consume (hs : q.consume capacity action = some (q', returned)) :
    q.step capacity action = some (q', returned) := by
  cases action with
  | tryPop | loadOwnHead | loadTail | take | storeHead => exact hs
  | tryPush | loadOwnTail | loadHead | construct | storeTail | close | destroyNext => cases hs

section Progress

theorem push_begins (hidle : q.push = .idle) (hopen : q.closing = none) (event : α) :
    ∃ q', q.produce capacity (.tryPush event) = some (q', none) ∧ q'.push = .loadTail event := by
  rw [Queue.produce, hidle, hopen]
  exact ⟨_, rfl, rfl⟩

theorem pop_begins (hidle : q.pop = .idle) (hopen : q.closing = none) :
    ∃ q', q.consume capacity .tryPop = some (q', none) ∧ q'.pop = .loadHead := by
  rw [Queue.consume, hidle, hopen]
  exact ⟨_, rfl, rfl⟩

/-- The newest value of `head`. -/
theorem newest_head (h : Consistent capacity q) :
    q.head[q.popped.length]? = some ⟨UInt64.ofNat q.popped.length, q.popped.length⟩ := by
  rw [h.head_eq, history, List.getElem?_map, List.getElem?_range (Nat.lt_succ_self _)]
  rfl

theorem newest_tail (h : Consistent capacity q) :
    q.tail[q.pushed.length]? = some ⟨UInt64.ofNat q.pushed.length, q.pushed.length⟩ := by
  rw [h.tail_eq, history, List.getElem?_map, List.getElem?_range (Nat.lt_succ_self _)]
  rfl

/-- A call that is under way, with a free slot, has a step that does not make it fail. -/
theorem push_advances (h : Consistent capacity q) (hpush : q.push ≠ .idle)
    (hroom : q.pushed.length < q.popped.length + size capacity) :
    ∃ action q' returned, q.produce capacity action = some (q', returned) ∧
      (∀ event, action ≠ .tryPush event) ∧ returned ≠ some false ∧
        pushRank q'.push < pushRank q.push := by
  cases hcall : q.push with
  | idle => exact absurd hcall hpush
  | loadTail event =>
    by_cases hfull : held q.tail - q.cachedHead ≥ capacity.value
    · refine ⟨.loadOwnTail, { q with push := .loadHead event (held q.tail) }, none, ?_, by simp,
        by simp, ?_⟩
      · rw [Queue.produce, hcall]
        exact if_pos hfull
      · simp [pushRank]
    · refine ⟨.loadOwnTail, { q with push := .construct event (held q.tail) }, none, ?_, by simp,
        by simp, ?_⟩
      · rw [Queue.produce, hcall]
        exact if_neg hfull
      · simp [pushRank]
  | loadHead event tail =>
    have hle := h.headSeen_le
    obtain ⟨hfresh, -, -⟩ := consistent_refreshHead h (newest_head h) hle
    have hat := h.push_at
    rw [hcall] at hat
    obtain rfl : tail = UInt64.ofNat q.pushed.length := hat
    have hnot := mt (push_full_iff hfresh).mp (Nat.ne_of_lt hroom)
    refine ⟨.loadHead q.popped.length, { refreshHead q q.popped.length
      ⟨UInt64.ofNat q.popped.length, q.popped.length⟩ with
        push := .construct event (UInt64.ofNat q.pushed.length) }, none, ?_, by simp, by simp, ?_⟩
    · simp only [Queue.produce, hcall, newest_head h, hle, if_true]
      exact if_neg hnot
    · simp [pushRank]
  | construct event tail =>
    obtain ⟨q', hrun, hrank⟩ : ∃ q', q.produce capacity .construct = some (q', none) ∧
        pushRank q'.push = 1 := by
      rw [Queue.produce, hcall]
      exact ⟨_, rfl, rfl⟩
    exact ⟨.construct, q', none, hrun, by simp, by simp, hrank ▸ Nat.lt_succ_self 1⟩
  | storeTail event tail =>
    obtain ⟨q', hrun, hrank⟩ : ∃ q', q.produce capacity .storeTail = some (q', some true) ∧
        pushRank q'.push = 0 := by
      rw [Queue.produce, hcall]
      exact ⟨_, rfl, rfl⟩
    exact ⟨.storeTail, q', some true, hrun, by simp, by simp, hrank ▸ Nat.one_pos⟩

/-- A call that is under way, with an event in the queue, has a step that does not make it fail. -/
theorem pop_advances (garbage : α) (h : Consistent capacity q) (hpop : q.pop ≠ .idle)
    (hmore : q.popped.length < q.pushed.length) :
    ∃ action q' returned, q.consume capacity action = some (q', returned) ∧
      action ≠ .tryPop ∧ returned ≠ some false ∧ popRank q'.pop < popRank q.pop := by
  cases hcall : q.pop with
  | idle => exact absurd hcall hpop
  | loadHead =>
    by_cases hempty : held q.head = q.cachedTail
    · refine ⟨.loadOwnHead, { q with pop := .loadTail (held q.head) }, none, ?_, by simp, by simp,
        ?_⟩
      · rw [Queue.consume, hcall]
        exact if_pos hempty
      · simp [popRank]
    · refine ⟨.loadOwnHead, { q with pop := .take (held q.head) }, none, ?_, by simp, by simp, ?_⟩
      · rw [Queue.consume, hcall]
        exact if_neg hempty
      · simp [popRank]
  | loadTail head =>
    have hle := h.tailSeen_le
    obtain ⟨hfresh, -, -⟩ := consistent_refreshTail h (newest_tail h) hle
    have hat := h.pop_at
    rw [hcall] at hat
    obtain rfl : head = UInt64.ofNat q.popped.length := hat
    have hnot := mt (pop_empty_iff hfresh).mp (Nat.ne_of_lt hmore)
    refine ⟨.loadTail q.pushed.length, { refreshTail q q.pushed.length
      ⟨UInt64.ofNat q.pushed.length, q.pushed.length⟩ with
        pop := .take (UInt64.ofNat q.popped.length) }, none, ?_, by simp, by simp, ?_⟩
    · simp only [Queue.consume, hcall, newest_tail h, hle, if_true]
      exact if_neg hnot
    · simp [popRank]
  | take head =>
    obtain ⟨q', hrun, hrank⟩ : ∃ q', q.consume capacity (.take garbage) = some (q', none) ∧
        popRank q'.pop = 1 := by
      rw [Queue.consume, hcall]
      exact ⟨_, rfl, rfl⟩
    exact ⟨.take garbage, q', none, hrun, by simp, by simp, hrank ▸ Nat.lt_succ_self 1⟩
  | storeHead head out =>
    obtain ⟨q', hrun, hrank⟩ : ∃ q', q.consume capacity .storeHead = some (q', some true) ∧
        popRank q'.pop = 0 := by
      rw [Queue.consume, hcall]
      exact ⟨_, rfl, rfl⟩
    exact ⟨.storeHead, q', some true, hrun, by simp, by simp, hrank ▸ Nat.one_pos⟩

end Progress

end Leka.QueueCalls
