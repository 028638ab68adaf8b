import Mathlib.Data.List.Basic
import Mathlib.Tactic.Common

/-!
The single-producer single-consumer queue. A call is a sequence of atomic steps, and the two
sides take their steps in any order. A load of the other side's cursor may return any value that
the cursor has held since the one that the loading side saw last. A slot remembers its last
write; a side sees that write if it made it, or if it has loaded a cursor value stored after it.
-/

namespace Leka.SpscQueues

/-- The capacity, with what the class asserts of it. -/
structure Capacity where
  value : UInt64
  power_of_two : value &&& (value - 1) = 0
  two_le : 2 ≤ value

inductive Side
  | producer
  | consumer
  deriving DecidableEq

/-- A slot of the storage: constructed with an event or raw. The last write to it is the write
number `stamp` of `writer`; the slot of a new queue has none. -/
structure Slot (α : Type) where
  content : Option α := none
  writer : Side := .producer
  stamp : ℕ := 0

/-- A value that a cursor has held, with the number of slot writes of its side before the
store. -/
structure Stored where
  value : UInt64
  writes : ℕ

/-- How far a call of `tryPush` has come, by the step that it takes next. -/
inductive Push (α : Type)
  | idle
  | loadTail (event : α)
  | loadHead (event : α) (tail : UInt64)
  | construct (event : α) (tail : UInt64)
  | storeTail (event : α) (tail : UInt64)

/-- How far a call of `tryPop` has come. -/
inductive Pop (α : Type)
  | idle
  | loadHead
  | loadTail (head : UInt64)
  | take (head : UInt64)
  | storeHead (head : UInt64) (out : α)

/-- The queue with its two sides. `head` and `tail` are the values held so far, oldest first;
`headSeen` and `tailSeen` are the indices of the values last loaded by the other side, and
`destroysSeen` and `constructsSeen` the slot writes of the other side that are visible. -/
structure Queue (α : Type) where
  head : List Stored := [⟨0, 0⟩]
  tail : List Stored := [⟨0, 0⟩]
  slots : ℕ → Slot α := fun _ => {}
  cachedHead : UInt64 := 0
  cachedTail : UInt64 := 0
  push : Push α := .idle
  pop : Pop α := .idle
  headSeen : ℕ := 0
  tailSeen : ℕ := 0
  destroysSeen : ℕ := 0
  constructsSeen : ℕ := 0
  constructs : ℕ := 0
  destroys : ℕ := 0
  pushed : List α := []
  popped : List α := []
  closing : Option UInt64 := none

/-- A step of one of the sides, or of the destructor. A load of the other side's cursor names
the value that it returns; `take` names what is read from a slot that holds nothing visible. -/
inductive Action (α : Type)
  | tryPush (event : α)
  | loadOwnTail
  | loadHead (i : ℕ)
  | construct
  | storeTail
  | tryPop
  | loadOwnHead
  | loadTail (i : ℕ)
  | take (garbage : α)
  | storeHead
  | close
  | destroyNext

/-- The value that a cursor holds. -/
def held (cursor : List Stored) : UInt64 := (cursor.getLast?.map Stored.value).getD 0

variable {α : Type} (capacity : Capacity)

/-- The index of the slot of a cursor value. -/
def slot (index : UInt64) : ℕ := (index &&& (capacity.value - 1)).toNat

/-- The last write to a slot is visible to a side with `seen` visible writes of the other. -/
def Slot.visibleTo (s : Slot α) (side : Side) (seen : ℕ) : Bool := s.writer = side || s.stamp ≤ seen

namespace Queue

variable (q : Queue α)

/-- A step of the producer; a call that returns says with what. -/
def produce : Action α → Option (Queue α × Option Bool)
  | .tryPush event =>
    match q.push, q.closing with
    | .idle, none => some ({ q with push := .loadTail event }, none)
    | _, _ => none
  | .loadOwnTail =>
    match q.push with
    | .loadTail event =>
      let tail := held q.tail
      if tail - q.cachedHead ≥ capacity.value then
        some ({ q with push := .loadHead event tail }, none)
      else some ({ q with push := .construct event tail }, none)
    | _ => none
  | .loadHead i =>
    match q.push, q.head[i]? with
    | .loadHead event tail, some stored =>
      if q.headSeen ≤ i then
        let q := { q with
          cachedHead := stored.value
          headSeen := i
          destroysSeen := max q.destroysSeen stored.writes }
        if tail - q.cachedHead ≥ capacity.value then some ({ q with push := .idle }, some false)
        else some ({ q with push := .construct event tail }, none)
      else none
    | _, _ => none
  | .construct =>
    match q.push with
    | .construct event tail =>
      some ({ q with
        slots := Function.update q.slots (slot capacity tail)
          ⟨some event, .producer, q.constructs + 1⟩
        constructs := q.constructs + 1
        push := .storeTail event tail }, none)
    | _ => none
  | .storeTail =>
    match q.push with
    | .storeTail event tail =>
      some ({ q with
        tail := q.tail ++ [⟨tail + 1, q.constructs⟩]
        pushed := q.pushed ++ [event]
        push := .idle }, some true)
    | _ => none
  | _ => none

/-- A step of the consumer. -/
def consume : Action α → Option (Queue α × Option Bool)
  | .tryPop =>
    match q.pop, q.closing with
    | .idle, none => some ({ q with pop := .loadHead }, none)
    | _, _ => none
  | .loadOwnHead =>
    match q.pop with
    | .loadHead =>
      let head := held q.head
      if head = q.cachedTail then some ({ q with pop := .loadTail head }, none)
      else some ({ q with pop := .take head }, none)
    | _ => none
  | .loadTail i =>
    match q.pop, q.tail[i]? with
    | .loadTail head, some stored =>
      if q.tailSeen ≤ i then
        let q := { q with
          cachedTail := stored.value
          tailSeen := i
          constructsSeen := max q.constructsSeen stored.writes }
        if head = q.cachedTail then some ({ q with pop := .idle }, some false)
        else some ({ q with pop := .take head }, none)
      else none
    | _, _ => none
  | .take garbage =>
    match q.pop with
    | .take head =>
      let eventSlot := q.slots (slot capacity head)
      let out :=
        if eventSlot.visibleTo .consumer q.constructsSeen then eventSlot.content.getD garbage
        else garbage
      some ({ q with
        slots := Function.update q.slots (slot capacity head) ⟨none, .consumer, q.destroys + 1⟩
        destroys := q.destroys + 1
        pop := .storeHead head out }, none)
    | _ => none
  | .storeHead =>
    match q.pop with
    | .storeHead head out =>
      some ({ q with
        head := q.head ++ [⟨head + 1, q.destroys⟩]
        popped := q.popped ++ [out]
        pop := .idle }, some true)
    | _ => none
  | _ => none

/-- A step of the destructor, which runs when no call does: `closing` is its loop variable. -/
def destruct : Action α → Option (Queue α × Option Bool)
  | .close =>
    match q.push, q.pop, q.closing with
    | .idle, .idle, none => some ({ q with closing := some (held q.head) }, none)
    | _, _, _ => none
  | .destroyNext =>
    match q.closing with
    | some head =>
      if head = held q.tail then none
      else some ({ q with
        slots := Function.update q.slots (slot capacity head) ⟨none, .consumer, q.destroys + 1⟩
        destroys := q.destroys + 1
        closing := some (head + 1) }, none)
    | none => none
  | _ => none

def step (action : Action α) : Option (Queue α × Option Bool) :=
  match action with
  | .close | .destroyNext => destruct capacity q action
  | .tryPop | .loadOwnHead | .loadTail _ | .take _ | .storeHead => consume capacity q action
  | _ => produce capacity q action

end Queue

/-- The queues that any interleaving of the two sides leads to, and the destructor after them. -/
inductive Reachable : Queue α → Prop
  | new : Reachable {}
  | step {q q' : Queue α} {action : Action α} {returned : Option Bool} :
      Reachable q → q.step capacity action = some (q', returned) → Reachable q'

end Leka.SpscQueues
