import Leka.BookRuns
import Leka.MatcherRefinement
import Leka.Renumberings

/-!
Engines on separate books. They share the sequence counter and nothing else, so events for
one of them only make the numbers of another skip. Each engine answers every event as it
would alone, started with a fresh counter: the numbers it has given to its orders are those
of the run alone, renamed in an increasing way.
-/

namespace Leka.SeparateEngines

open Procedures Orders OrderPools PoolAsSet OrderBooks MatchingEngines EventOutcomes TwinRuns
  Renumberings

/-- The error of the counter at its end. -/
def exhausted : StdException := .overflowError "Sequence number space exhausted"

section Numbers

variable {f : ℕ → ℕ} {n c : ℕ}

/-- `f` up to `n`, and from there on the numbers after `c`. -/
def extended (f : ℕ → ℕ) (n c : ℕ) (k : ℕ) : ℕ := if k ≤ n then f k else c + (k - n)

theorem extended_of_le {k : ℕ} (h : k ≤ n) : extended f n c k = f k := if_pos h

theorem extended_succ : extended f n c (n + 1) = c + 1 := by
  rw [extended, if_neg (by omega)]
  omega

theorem strictMono_extended (hf : StrictMono f) (hc : f n ≤ c) : StrictMono (extended f n c) := by
  intro i j hij
  rw [extended, extended]
  by_cases hj : j ≤ n
  · rw [if_pos hj, if_pos (by omega)]
    exact hf hij
  · rw [if_neg hj]
    by_cases hi : i ≤ n
    · rw [if_pos hi]
      have hle := hf.monotone hi
      omega
    · rw [if_neg hi]
      omega

end Numbers

section Events

variable {f : ℕ → ℕ} {bound : ℕ} {a b : UInt64} {hash : OrderId → UInt64} {host : Host}
  {order : NewOrder} {s t : EngineState}

theorem findOrder_keeps (id : OrderId) (index : OrderIndexing.OrderIndex) :
    (OrderIndexing.findOrder hash id index).2 = index := by
  simp only [OrderIndexing.findOrder, Proc.get_bind_apply]
  cases OrderIndexing.findSlot hash id index with
  | none => rfl
  | some i =>
    simp only [OrderIndexing.whileLoop, Proc.pure_bind_apply]
    split <;> rfl

/-- Up to the number of the order, nothing is read that differs. -/
theorem matchOrder_until_numbered (h : AlikeEngine f bound a b s t) (host : Host)
    (order : NewOrder) :
    (b = uint64Max ∧ matchOrder hash host order t = (.throws exhausted, t)) ∨
    ((∃ o, matchOrder hash host order s = (o, s) ∧ matchOrder hash host order t = (o, t)) ∨
      b ≠ uint64Max ∧
        matchOrder hash host order s = (generate >>= matchNumbered hash host order) s ∧
        matchOrder hash host order t = (generate >>= matchNumbered hash host order) t) := by
  unfold matchOrder
  cases validate order with
  | error e => exact Or.inr (Or.inl ⟨.throws e, rfl, rfl⟩)
  | ok _ =>
    have hkeeps := @findOrder_keeps hash order.orderId s.orderBook.orderIndex
    generalize hfind : OrderIndexing.findOrder hash order.orderId s.orderBook.orderIndex = result
      at hkeeps
    obtain ⟨o, index⟩ := result
    obtain rfl : index = s.orderBook.orderIndex := hkeeps
    have hindex : t.orderBook.orderIndex = s.orderBook.orderIndex := by rw [h.2.2.2.1]
    have hs : MatchingEngines.onBook (findOrder hash order.orderId) s = (o, s) :=
      MatchingRounds.onBook_run (onIndex_run hfind)
    have ht : MatchingEngines.onBook (findOrder hash order.orderId) t = (o, t) := by
      have hfind' : OrderIndexing.findOrder hash order.orderId t.orderBook.orderIndex =
          (o, t.orderBook.orderIndex) := by
        rw [hindex]
        exact hfind
      exact MatchingRounds.onBook_run (onIndex_run hfind')
    rw [Proc.check_ok, Proc.pure_bind_apply, Proc.pure_bind_apply]
    cases o with
    | throws e => exact Or.inr (Or.inl ⟨.throws e, Proc.bind_throws _ hs, Proc.bind_throws _ ht⟩)
    | diverges =>
      exact Or.inr (Or.inl ⟨.diverges, Proc.bind_diverges _ hs, Proc.bind_diverges _ ht⟩)
    | returns found =>
      rw [Proc.bind_returns _ hs, Proc.bind_returns _ ht]
      by_cases hfound : found = nullptr
      swap
      · rw [if_pos hfound]
        exact Or.inr (Or.inl ⟨_, rfl, rfl⟩)
      rw [if_neg (not_not.mpr hfound)]
      by_cases hmax : b = uint64Max
      · left
        refine ⟨hmax, Proc.bind_throws _ ((generate_run t).trans (if_pos ?_))⟩
        rw [h.2.1, hmax]
      · exact Or.inr (Or.inr ⟨hmax, rfl, rfl⟩)

/-- With the next numbers in correspondence, the rest of the two runs is the same. -/
theorem matchOrder_numbered (h : AlikeEngine f bound a b s t) (ha : a ≠ uint64Max)
    (hb : b ≠ uint64Max) {f' : ℕ → ℕ} {bound' : ℕ} (hagree : ∀ n ≤ bound, f' n = f n)
    (hle : bound ≤ bound') (hnumber : f' (a.toNat + 1) = b.toNat + 1)
    (hbound : a.toNat + 1 ≤ bound') :
    ((generate >>= matchNumbered hash host order) s).1 =
        ((generate >>= matchNumbered hash host order) t).1 ∧
      AlikeEngine f' bound' (a + 1) (b + 1)
        ((generate >>= matchNumbered hash host order) s).2
        ((generate >>= matchNumbered hash host order) t).2 := by
  obtain ⟨rfl, rfl, hout, hbook⟩ := h
  rw [Proc.bind_returns _ ((generate_run s).trans (if_neg ha)),
    Proc.bind_returns _ ((generate_run t).trans (if_neg hb))]
  have hs := MatcherRefinement.toNat_succ ha
  have ht := MatcherRefinement.toNat_succ hb
  have hne : ∀ {c : UInt64}, (c + 1).toNat = c.toNat + 1 → c + 1 ≠ 0 := by
    intro c hc hzero
    rw [hzero] at hc
    exact absurd hc (by simp)
  refine relates_matchNumbered order ?_ ?_ ?_ _ _
    ⟨rfl, rfl, hout, hbook.1, hbook.2.extend hagree hle⟩
  · exact iff_of_false (hne ht) (hne hs)
  · rw [hs, ht, hnumber]
  · rw [hs]
    exact hbound

end Events

/-- The engine of `s` runs alone, and `f` takes its numbers to those of the same engine in
`t`, where numbers have also gone elsewhere. -/
structure Follows (f : ℕ → ℕ) (s t : EngineState) : Prop where
  mono : StrictMono f
  behind : f s.currentSequence.toNat ≤ t.currentSequence.toNat
  out : t.out = s.out
  book : AlikeBook f s.currentSequence.toNat s.orderBook t.orderBook

section Steps

variable {f : ℕ → ℕ} {hash : OrderId → UInt64} {s t : EngineState}

theorem Follows.alike (h : Follows f s t) : AlikeEngine f s.currentSequence.toNat s.currentSequence
    t.currentSequence s t := ⟨rfl, rfl, h.out, h.book⟩

/-- Numbers taken elsewhere keep an engine behind. -/
theorem Follows.elsewhere (h : Follows f s t) {counter : UInt64}
    (hle : t.currentSequence ≤ counter) : Follows f s { t with currentSequence := counter } :=
  ⟨h.mono, h.behind.trans (UInt64.le_iff_toNat_le.mp hle), h.out, h.book⟩

theorem Follows.emptied (h : Follows f s t) : Follows f (emptied s) (emptied t) :=
  ⟨h.mono, h.behind, rfl, h.book⟩

/-- What one event comes to in the two runs. -/
structure Answers (f : ℕ → ℕ) (s t : EngineState) {α : Type} (x y : Outcome StdException α ×
    EngineState) (f' : ℕ → ℕ) : Prop where
  outcome : x.1 = y.1
  follows : Follows f' x.2 y.2
  agree : ∀ n ≤ s.currentSequence.toNat, f' n = f n
  later : s.currentSequence ≤ x.2.currentSequence

theorem answers_alike {α : Type} {x : EngineProc α} (h : Follows f s t)
    (hx : ∀ a b, Respects (AlikeEngine f s.currentSequence.toNat a b) x) :
    Answers f s t (x s) (x t) f := by
  obtain ⟨ho, hs, ht, hout, hbook⟩ := hx _ _ s t h.alike
  refine ⟨ho, ⟨h.mono, ?_, hout, ?_⟩, fun _ _ => rfl, ?_⟩
  · rw [hs, ht]
    exact h.behind
  · rw [hs]
    exact hbook
  · rw [hs]
    exact UInt64.le_refl _

theorem matchOrder_follows (h : Follows f s t) (host : Host) (order : NewOrder)
    (hnot : (matchOrder hash host order t).1 ≠ .throws exhausted) :
    ∃ f', Answers f s t (matchOrder hash host order s) (matchOrder hash host order t) f' := by
  rcases matchOrder_until_numbered h.alike host order with
    ⟨_, hrun⟩ | ⟨o, hs, ht⟩ | ⟨hb, hs, ht⟩
  · rw [hrun] at hnot
    exact absurd rfl hnot
  · rw [hs, ht]
    exact ⟨f, rfl, h, fun _ _ => rfl, UInt64.le_refl _⟩
  · have hbehind := h.behind
    have hself := h.mono.le_apply (x := s.currentSequence.toNat)
    have hbNat : t.currentSequence.toNat ≠ 2 ^ 64 - 1 := fun heq => hb (UInt64.toNat_inj.mp heq)
    have hbLt := t.currentSequence.toNat_lt
    have ha : s.currentSequence ≠ uint64Max := by
      intro heq
      rw [heq] at hself hbehind
      change 2 ^ 64 - 1 ≤ _ at hself
      omega
    have hsucc := MatcherRefinement.toNat_succ ha
    have hagree : ∀ n ≤ s.currentSequence.toNat,
        extended f s.currentSequence.toNat t.currentSequence.toNat n = f n :=
      fun _ hn => extended_of_le hn
    obtain ⟨ho, hcounter, hcounter', hout, hbook⟩ :=
      @matchOrder_numbered f _ _ _ hash host order s t h.alike ha hb _
        (s.currentSequence.toNat + 1) hagree (by omega) extended_succ (le_refl _)
    refine ⟨extended f s.currentSequence.toNat t.currentSequence.toNat, ?_⟩
    rw [hs, ht]
    refine ⟨ho, ⟨strictMono_extended h.mono hbehind, ?_, hout, ?_⟩, hagree, ?_⟩
    · rw [hcounter, hcounter', hsucc, extended_succ, MatcherRefinement.toNat_succ hb]
    · rw [hcounter, hsucc]
      exact hbook
    · rw [hcounter, UInt64.le_iff_toNat_le, hsucc]
      omega

theorem processEvent_follows (h : Follows f s t) (host : Host) (event : OrderEvent)
    (hnot : (processEvent hash host event t).1 ≠ .throws exhausted) :
    ∃ f', Answers f s t (processEvent hash host event s) (processEvent hash host event t) f' := by
  have hempty := h.emptied
  cases event with
  | new order =>
    generalize hs : matchOrder hash host order (emptied s) = result
    generalize ht : matchOrder hash host order (emptied t) = result'
    obtain ⟨o, s'⟩ := result
    obtain ⟨o', t'⟩ := result'
    rw [processEvent_new hs, processEvent_new ht] at *
    have hnot' : (matchOrder hash host order (emptied t)).1 ≠ .throws exhausted := by
      rw [ht]
      rintro rfl
      exact hnot rfl
    obtain ⟨f', hanswers⟩ := matchOrder_follows hempty host order hnot'
    rw [hs, ht] at hanswers
    obtain ⟨ho, hfollows, hagree, hlater⟩ := hanswers
    refine ⟨f', ?_, hfollows, hagree, hlater⟩
    dsimp only at ho ⊢
    rw [ho, hfollows.out]
  | cancel order =>
    refine ⟨f, answers_alike h fun a b => ?_⟩
    refine .bind (respects_out (u := fun _ => [])) fun _ => .guard ?_
    exact .bind (relates_onBook (respects_cancelOrder _)) fun _ => relates_pure _
  | reduce reduction =>
    refine ⟨f, answers_alike h fun a b => ?_⟩
    refine .bind (respects_out (u := fun _ => [])) fun _ => .guard ?_
    exact .bind (relates_onBook (respects_reduceOrder _ _)) fun _ => relates_pure _

/-- A state is in correspondence with itself. -/
theorem alike_refl (s : EngineState) :
    AlikeEngine id (2 ^ 64) s.currentSequence s.currentSequence s s :=
  ⟨rfl, rfl, rfl, rfl, fun _ => ⟨rfl, Iff.rfl, fun _ => ⟨rfl, (UInt64.toNat_lt _).le⟩⟩⟩

/-- The counter never goes back. -/
theorem currentSequence_le (host : Host) (event : OrderEvent) (s : EngineState) :
    s.currentSequence ≤ (processEvent hash host event s).2.currentSequence := by
  cases event with
  | new order =>
    have hmatch : s.currentSequence ≤
        (matchOrder hash host order (emptied s)).2.currentSequence := by
      rcases matchOrder_until_numbered (alike_refl (emptied s)) host order with
        ⟨_, hrun⟩ | ⟨o, hrun, _⟩ | ⟨hmax, hrun, _⟩
      · rw [hrun]
        exact UInt64.le_refl _
      · rw [hrun]
        exact UInt64.le_refl _
      · have hlt := s.currentSequence.toNat_lt
        have hcounter := (@matchOrder_numbered id _ _ _ hash host order _ _ (alike_refl (emptied s))
          hmax hmax id (2 ^ 64) (fun _ _ => rfl) (le_refl _) rfl hlt).2.1
        rw [hrun, hcounter, UInt64.le_iff_toNat_le]
        have hsucc := MatcherRefinement.toNat_succ hmax
        change s.currentSequence.toNat ≤ _
        rw [hsucc]
        exact Nat.le_succ _
    generalize hrun : matchOrder hash host order (emptied s) = result at hmatch
    obtain ⟨o, s'⟩ := result
    rw [processEvent_new hrun]
    exact hmatch
  | cancel order =>
    have hcancel : Respects (AlikeEngine id (2 ^ 64) s.currentSequence s.currentSequence)
        (processEvent hash host (.cancel order)) :=
      .bind (respects_out (u := fun _ => [])) fun _ => .guard
        (.bind (relates_onBook (respects_cancelOrder _)) fun _ => relates_pure _)
    rw [(hcancel s s (alike_refl s)).2.1]
    exact UInt64.le_refl _
  | reduce reduction =>
    have hreduce : Respects (AlikeEngine id (2 ^ 64) s.currentSequence s.currentSequence)
        (processEvent hash host (.reduce reduction)) :=
      .bind (respects_out (u := fun _ => [])) fun _ => .guard
        (.bind (relates_onBook (respects_reduceOrder _ _)) fun _ => relates_pure _)
    rw [(hreduce s s (alike_refl s)).2.1]
    exact UInt64.le_refl _

end Steps

/-- What an engine has answered to an event: the outcome of the call, the executions in the
caller's buffer and the book. -/
structure Response where
  outcome : Outcome StdException ℕ
  executions : List Execution
  orderBook : OrderBook

/-- The engines of one process, each on its book and with a buffer of its own. -/
structure Process (ι : Type) where
  currentSequence : UInt64
  orderBook : ι → OrderBook
  out : ι → List Execution

/-- What the engine `i` works on. -/
def Process.engine {ι : Type} (process : Process ι) (i : ι) : EngineState :=
  ⟨process.currentSequence, process.orderBook i, process.out i⟩

/-- An event for the engine `i`, and what the host answers while it is handled. -/
structure Sent (ι : Type) where
  engine : ι
  host : Host
  event : OrderEvent

section Runs

variable {ι : Type} [DecidableEq ι] (hash : OrderId → UInt64)

def Process.after (process : Process ι) (i : ι) (s : EngineState) : Process ι where
  currentSequence := s.currentSequence
  orderBook := Function.update process.orderBook i s.orderBook
  out := Function.update process.out i s.out

def responseOf (result : Outcome StdException ℕ × EngineState) : Response :=
  ⟨result.1, result.2.out, result.2.orderBook⟩

/-- The events in the order in which they reach the process, each answered by its engine. -/
def interleaved : List (Sent ι) → Process ι → List (ι × Response)
  | [], _ => []
  | sent :: events, process =>
    let result := processEvent hash sent.host sent.event (process.engine sent.engine)
    (sent.engine, responseOf result) ::
      interleaved events (process.after sent.engine result.2)

/-- The events of one engine in a process of its own. -/
def alone : List (Host × OrderEvent) → EngineState → List Response
  | [], _ => []
  | (host, event) :: events, s =>
    let result := processEvent hash host event s
    responseOf result :: alone events result.2

def eventsOf (i : ι) (events : List (Sent ι)) : List (Host × OrderEvent) :=
  events.filterMap fun sent => if sent.engine = i then some (sent.host, sent.event) else none

def responsesOf (i : ι) (responses : List (ι × Response)) : List Response :=
  responses.filterMap fun response => if response.1 = i then some response.2 else none

/-- No call found the counter at its end. -/
def CounterSuffices (responses : List (ι × Response)) : Prop :=
  ∀ response ∈ responses, response.2.outcome ≠ .throws exhausted

end Runs

/-- The same answer up to the numbers of orders. The two books agree in every part and every
order but for its number, and the numbers of the orders in the book are renamed by `f`. -/
structure SameUpTo (f : ℕ → ℕ) (response response' : Response) : Prop where
  outcome : response'.outcome = response.outcome
  executions : response'.executions = response.executions
  parts : response'.orderBook = { response.orderBook with memory := response'.orderBook.memory }
  orders : ∀ q, response'.orderBook.memory q = { response.orderBook.memory q with
    sequenceNumber := (response'.orderBook.memory q).sequenceNumber }
  numbers : ∀ q, Live response.orderBook.orderPool q →
    (response'.orderBook.memory q).sequenceNumber.toNat =
      f (response.orderBook.memory q).sequenceNumber.toNat

section Interleavings

variable {ι : Type} [DecidableEq ι] {hash : OrderId → UInt64} {f : ℕ → ℕ}

theorem sameUpTo_of_follows {f' : ℕ → ℕ} {s t : EngineState} (h : Follows f s t)
    (hagree : ∀ n ≤ s.currentSequence.toNat, f' n = f n) (o : Outcome StdException ℕ) :
    SameUpTo f' (responseOf (o, s)) (responseOf (o, t)) where
  outcome := rfl
  executions := h.out
  parts := h.book.1
  orders q := (h.book.2 q).fields
  numbers q hlive := by
    obtain ⟨hnumber, hbound⟩ := (h.book.2 q).number hlive
    exact hnumber.trans (hagree _ hbound).symm

/-- By induction on the interleaving: an event of another engine moves the counter of the
process only, and an event of the engine itself is answered in both runs. -/
theorem responses_follow (i : ι) (events : List (Sent ι)) {process : Process ι} {s : EngineState}
    (h : Follows f s (process.engine i))
    (hcounter : CounterSuffices (interleaved hash events process)) :
    ∃ f', StrictMono f' ∧ (∀ n ≤ s.currentSequence.toNat, f' n = f n) ∧
      List.Forall₂ (SameUpTo f') (alone hash (eventsOf i events) s)
        (responsesOf i (interleaved hash events process)) := by
  induction events generalizing process s f with
  | nil => exact ⟨f, h.mono, fun _ _ => rfl, List.Forall₂.nil⟩
  | cons sent events ih =>
    have hhead := hcounter _ (List.mem_cons_self ..)
    have htail : CounterSuffices (interleaved hash events (process.after sent.engine
        (processEvent hash sent.host sent.event (process.engine sent.engine)).2)) :=
      fun response hmem => hcounter response (List.mem_cons_of_mem _ hmem)
    by_cases hi : sent.engine = i
    swap
    · have helsewhere := h.elsewhere (@currentSequence_le hash sent.host sent.event
        (process.engine sent.engine))
      have hsame : (process.after sent.engine (processEvent hash sent.host sent.event
          (process.engine sent.engine)).2).engine i = { process.engine i with
            currentSequence := (processEvent hash sent.host sent.event
              (process.engine sent.engine)).2.currentSequence } := by
        simp only [Process.engine, Process.after, Function.update_of_ne (Ne.symm hi)]
      rw [← hsame] at helsewhere
      obtain ⟨f', hmono, hagree, hall⟩ := ih helsewhere htail
      refine ⟨f', hmono, hagree, ?_⟩
      simpa only [eventsOf, responsesOf, interleaved, List.filterMap_cons, hi, if_false] using hall
    subst i
    obtain ⟨f₁, houtcome, hfollows, hagree₁, hlater⟩ :=
      processEvent_follows h sent.host sent.event hhead
    generalize hs : processEvent hash sent.host sent.event s = result at *
    generalize ht : processEvent hash sent.host sent.event (process.engine sent.engine) = result'
      at *
    obtain ⟨o, s'⟩ := result
    obtain ⟨o', t'⟩ := result'
    dsimp only at houtcome
    subst o'
    have hsame : (process.after sent.engine t').engine sent.engine = t' := by
      simp only [Process.engine, Process.after, Function.update_self]
    have hnext := hfollows
    rw [← hsame] at hnext
    obtain ⟨f', hmono, hagree, hall⟩ := ih hnext htail
    refine ⟨f', hmono, ?_, ?_⟩
    · intro n hn
      have hle := UInt64.le_iff_toNat_le.mp hlater
      rw [hagree n (hn.trans hle), hagree₁ n hn]
    · have hfirst := sameUpTo_of_follows hfollows hagree o
      simp only [eventsOf, responsesOf, interleaved, List.filterMap_cons, if_true, alone, hs, ht]
      exact List.Forall₂.cons hfirst hall

/-- An engine that starts on a book without orders answers its events as it would alone with a
fresh counter, whatever the other engines of the process are sent. -/
theorem engines_do_not_interfere (process : Process ι) (events : List (Sent ι))
    (hcounter : CounterSuffices (interleaved hash events process)) (i : ι)
    (hempty : ∀ q, ¬ Live (process.orderBook i).orderPool q) :
    ∃ f, StrictMono f ∧ List.Forall₂ (SameUpTo f)
      (alone hash (eventsOf i events) ⟨0, process.orderBook i, process.out i⟩)
      (responsesOf i (interleaved hash events process)) := by
  have hstart : Follows id ⟨0, process.orderBook i, process.out i⟩ (process.engine i) :=
    ⟨strictMono_id, Nat.zero_le _, rfl, rfl, fun q => ⟨rfl, Iff.rfl, fun hlive =>
      absurd hlive (hempty q)⟩⟩
  obtain ⟨f, hmono, _, hall⟩ := responses_follow i events hstart hcounter
  exact ⟨f, hmono, hall⟩

/-- Two engines of which one takes a number between the two orders of the other. -/
def crossingEvents : List (Sent Bool) := [
  ⟨true, BookRuns.grantingHost, .new ⟨1, 101, 5, 1, .sell, .limit⟩⟩,
  ⟨false, BookRuns.grantingHost, .new ⟨1, 100, 5, 1, .buy, .limit⟩⟩,
  ⟨true, BookRuns.grantingHost, .new ⟨2, 101, 8, 2, .buy, .limit⟩⟩]

/-- The counter of the shared process starts at 7. -/
theorem two_engines_do_not_interfere : ∃ book : OrderBook, ∃ f, StrictMono f ∧
    List.Forall₂ (SameUpTo f) (alone id (eventsOf true crossingEvents) ⟨0, book, []⟩)
      (responsesOf true (interleaved id crossingEvents ⟨7, fun _ => book, fun _ => []⟩)) := by
  have hcheck : ((OrderBook.make (fun _ => {
        orderId := 0, price := 0, originalQuantity := 0, remainingQuantity := 0, timestamp := 0
        orderSide := .buy, orderType := .limit, sequenceNumber := 0 }) 100 1 2).map fun book =>
      (interleaved id crossingEvents ⟨7, fun _ => book, fun _ => []⟩).all
        fun response => response.2.outcome ≠ .throws exhausted).toOption = some true := by
    decide +kernel
  generalize hmake : OrderBook.make _ 100 1 2 = made at hcheck
  cases made with
  | error e => cases hcheck
  | ok book =>
    rw [Except.map, Except.toOption, Option.some.injEq] at hcheck
    have hpool := (BookRuns.make_ladders hmake).2.1
    refine ⟨book, engines_do_not_interfere ⟨7, fun _ => book, fun _ => []⟩ _ ?_ true ?_⟩
    · intro response hmem
      simpa using List.all_eq_true.mp hcheck response hmem
    · intro q hlive
      obtain ⟨k, hk, _⟩ := hlive
      dsimp only at hk
      rw [hpool] at hk
      simp at hk

end Interleavings

end Leka.SeparateEngines
