import Leka.RingSlots
import Mathlib.Algebra.Order.Ring.Nat

/-!
The queue is a lossless bounded FIFO under every interleaving. The cursors are the counts of
finished pushes and pops modulo 2^64. Each side's copy of the other cursor is an older count, so
it errs on the safe side, and the counts stay within one capacity of each other, so differences
and remainders of the cursors are those of the counts.
-/

namespace Leka.SpscFifo

open SpscQueues RingSlots

variable {α : Type} (capacity : Capacity)

def size : ℕ := capacity.value.toNat

section Cursors

theorem size_pow : ∃ k, size capacity = 2 ^ k := by
  have hle : (1 : UInt64) ≤ capacity.value := by
    have htwo := UInt64.le_iff_toNat_le.mp capacity.two_le
    rw [UInt64.le_iff_toNat_le]
    exact le_trans (by decide) htwo
  have hpower := congrArg UInt64.toNat capacity.power_of_two
  rw [UInt64.toNat_and, UInt64.toNat_sub_of_le _ _ hle] at hpower
  have hne : capacity.value.toNat ≠ 0 := by
    have hone := UInt64.le_iff_toNat_le.mp hle
    rw [UInt64.toNat_one] at hone
    omega
  exact (Nat.and_sub_one_eq_zero_iff_isPowerOfTwo hne).mp hpower

theorem size_lt : size capacity < 2 ^ 64 := capacity.value.toNat_lt

/-- The masked cursor is the remainder of the count, also when the cursor has wrapped. -/
theorem slot_ofNat (k : ℕ) : slot capacity (UInt64.ofNat k) = k % size capacity := by
  obtain ⟨m, hm⟩ := size_pow capacity
  have hlt := size_lt capacity
  rw [hm] at hlt
  have hle : m ≤ 64 := le_of_lt ((Nat.pow_lt_pow_iff_right (by omega)).mp hlt)
  have hone : (1 : UInt64) ≤ capacity.value := by
    rw [UInt64.le_iff_toNat_le, UInt64.toNat_one]
    change 1 ≤ size capacity
    rw [hm]
    exact Nat.one_le_two_pow
  have hmask : (capacity.value - 1).toNat = 2 ^ m - 1 := by
    rw [UInt64.toNat_sub_of_le _ _ hone, UInt64.toNat_one, ← hm, size]
  rw [slot, UInt64.toNat_and, hmask, UInt64.toNat_ofNat', Nat.and_two_pow_sub_one_eq_mod, hm]
  exact Nat.mod_mod_of_dvd k (Nat.pow_dvd_pow 2 hle)

theorem sub_toNat {a b : ℕ} (hle : b ≤ a) (hlt : a - b < 2 ^ 64) :
    (UInt64.ofNat a - UInt64.ofNat b).toNat = a - b := by
  rw [UInt64.toNat_sub, UInt64.toNat_ofNat', UInt64.toNat_ofNat']
  omega

theorem full_iff {a b : ℕ} (hle : b ≤ a) (hlt : a - b < 2 ^ 64) :
    UInt64.ofNat a - UInt64.ofNat b ≥ capacity.value ↔ size capacity ≤ a - b := by
  rw [ge_iff_le, UInt64.le_iff_toNat_le, sub_toNat hle hlt, size]

theorem ofNat_inj {a b : ℕ} (hle : a ≤ b) (hlt : b - a < 2 ^ 64)
    (h : UInt64.ofNat a = UInt64.ofNat b) : a = b := by
  have hvalue := congrArg UInt64.toNat h
  rw [UInt64.toNat_ofNat', UInt64.toNat_ofNat'] at hvalue
  omega

/-- The values that a cursor has held after `n` stores. -/
def history (n : ℕ) : List Stored := (List.range (n + 1)).map fun k => ⟨UInt64.ofNat k, k⟩

theorem history_succ (n : ℕ) : history (n + 1) = history n ++ [⟨UInt64.ofNat n + 1, n + 1⟩] := by
  rw [history, List.range_succ, List.map_append, List.map_singleton, UInt64.ofNat_add]
  rfl

theorem held_history (n : ℕ) : held (history n) = UInt64.ofNat n := by
  rw [held, history, List.range_succ, List.map_append, List.map_singleton, List.getLast?_concat]
  rfl

theorem history_get {n i : ℕ} {stored : Stored} (h : (history n)[i]? = some stored) :
    i ≤ n ∧ stored = ⟨UInt64.ofNat i, i⟩ := by
  rw [history, List.getElem?_map, Option.map_eq_some_iff] at h
  obtain ⟨k, hk, rfl⟩ := h
  obtain ⟨hlt, rfl⟩ := List.getElem?_eq_some_iff.mp hk
  rw [List.length_range] at hlt
  rw [List.getElem_range]
  exact ⟨by omega, rfl⟩

end Cursors

section Invariant

/-- The event that a push has constructed and not yet published. -/
def placedBy : Push α → List α
  | .storeTail event _ => [event]
  | _ => []

/-- The event that a pop has moved out, its slot not yet published as free. -/
def takenBy : Pop α → List α
  | .storeHead _ out => [out]
  | _ => []

def placed (q : Queue α) : List α := q.pushed ++ placedBy q.push

def removed (q : Queue α) : List α := q.popped ++ takenBy q.pop

/-- The cursor value in a call is the count of finished pushes; a call that constructs has
room. -/
def PushAt (count seen : ℕ) : Push α → Prop
  | .idle | .loadTail _ => True
  | .loadHead _ tail | .storeTail _ tail => tail = UInt64.ofNat count
  | .construct _ tail => tail = UInt64.ofNat count ∧ count < seen + size capacity

def PopAt (count seen : ℕ) : Pop α → Prop
  | .idle | .loadHead => True
  | .loadTail head | .storeHead head _ => head = UInt64.ofNat count
  | .take head => head = UInt64.ofNat count ∧ count < seen

structure Consistent (q : Queue α) : Prop where
  head_eq : q.head = history q.popped.length
  tail_eq : q.tail = history q.pushed.length
  ring : Ring (size capacity) q.slots (placed q) q.destroys
  constructs_eq : q.constructs = (placed q).length
  removed_pushed : removed q <+: q.pushed
  removed_le : (removed q).length ≤ q.destroys
  destroys_le : q.destroys ≤ q.pushed.length
  open_eq : q.closing = none → q.destroys = (removed q).length
  closing_eq : ∀ head, q.closing = some head →
    head = UInt64.ofNat q.destroys ∧ q.push = .idle ∧ q.pop = .idle
  cachedHead_eq : q.cachedHead = UInt64.ofNat q.headSeen
  headSeen_le : q.headSeen ≤ q.popped.length
  destroysSeen_ge : q.headSeen ≤ q.destroysSeen
  window : (placed q).length ≤ q.headSeen + size capacity
  cachedTail_eq : q.cachedTail = UInt64.ofNat q.tailSeen
  tailSeen_le : q.tailSeen ≤ q.pushed.length
  constructsSeen_ge : q.tailSeen ≤ q.constructsSeen
  removed_seen : (removed q).length ≤ q.tailSeen
  push_at : PushAt capacity q.pushed.length q.headSeen q.push
  pop_at : PopAt q.popped.length q.tailSeen q.pop

theorem consistent_new : Consistent capacity ({} : Queue α) where
  head_eq := rfl
  tail_eq := rfl
  ring := ring_new _
  constructs_eq := rfl
  removed_pushed := List.prefix_rfl
  removed_le := le_rfl
  destroys_le := le_rfl
  open_eq := fun _ => rfl
  closing_eq := fun _ h => nomatch h
  cachedHead_eq := rfl
  headSeen_le := le_rfl
  destroysSeen_ge := le_rfl
  window := Nat.zero_le _
  cachedTail_eq := rfl
  tailSeen_le := le_rfl
  constructsSeen_ge := le_rfl
  removed_seen := le_rfl
  push_at := trivial
  pop_at := trivial

variable {capacity} {q : Queue α}

theorem popped_le (h : Consistent capacity q) : q.popped.length ≤ q.destroys := by
  have hremoved := h.removed_le
  rw [removed, List.length_append] at hremoved
  omega

theorem pushed_le (h : Consistent capacity q) : q.pushed.length ≤ q.headSeen + size capacity := by
  have hwindow := h.window
  rw [placed, List.length_append] at hwindow
  omega

/-- What an open queue has to say of a running destructor. -/
theorem closing_of_open {p : UInt64 → Prop} (hopen : q.closing = none) :
    ∀ head, q.closing = some head → p head := by
  intro head hclosing
  rw [hopen] at hclosing
  cases hclosing

theorem placed_eq (hplaced : placedBy q.push = []) : placed q = q.pushed := by
  rw [placed, hplaced, List.append_nil]

theorem removed_eq (htaken : takenBy q.pop = []) : removed q = q.popped := by
  rw [removed, htaken, List.append_nil]

theorem held_tail (h : Consistent capacity q) : held q.tail = UInt64.ofNat q.pushed.length := by
  rw [h.tail_eq, held_history]

theorem held_head (h : Consistent capacity q) : held q.head = UInt64.ofNat q.popped.length := by
  rw [h.head_eq, held_history]

theorem open_of_push (h : Consistent capacity q) (hpush : q.push ≠ .idle) : q.closing = none := by
  cases hclosing : q.closing with
  | none => rfl
  | some head => exact absurd (h.closing_eq head hclosing).2.1 hpush

theorem open_of_pop (h : Consistent capacity q) (hpop : q.pop ≠ .idle) : q.closing = none := by
  cases hclosing : q.closing with
  | none => rfl
  | some head => exact absurd (h.closing_eq head hclosing).2.2 hpop

end Invariant

section Calls

variable {capacity} {q : Queue α}

/-- A step of the producer that changes only how far its call has come. -/
theorem consistent_push (h : Consistent capacity q) (hopen : q.closing = none) {before : Push α}
    (hpush : q.push = before) (push : Push α) (hplaced : placedBy push = placedBy before)
    (hat : PushAt capacity q.pushed.length q.headSeen push) :
    Consistent capacity { q with push := push } := by
  have hsame : placed { q with push := push } = placed q := by
    rw [placed, placed, hpush, hplaced]
  exact { h with
    ring := hsame ▸ h.ring
    constructs_eq := hsame ▸ h.constructs_eq
    window := hsame ▸ h.window
    closing_eq := closing_of_open hopen
    push_at := hat }

theorem consistent_pop (h : Consistent capacity q) (hopen : q.closing = none) {before : Pop α}
    (hpop : q.pop = before) (pop : Pop α) (htaken : takenBy pop = takenBy before)
    (hat : PopAt q.popped.length q.tailSeen pop) :
    Consistent capacity { q with pop := pop } := by
  have hsame : removed { q with pop := pop } = removed q := by
    rw [removed, removed, hpop, htaken]
  exact { h with
    removed_pushed := hsame ▸ h.removed_pushed
    removed_le := hsame ▸ h.removed_le
    open_eq := hsame ▸ h.open_eq
    removed_seen := hsame ▸ h.removed_seen
    closing_eq := closing_of_open hopen
    pop_at := hat }

/-- The producer loads a value of `head`. -/
def refreshHead (q : Queue α) (i : ℕ) (stored : Stored) : Queue α :=
  { q with
    cachedHead := stored.value
    headSeen := i
    destroysSeen := max q.destroysSeen stored.writes }

def refreshTail (q : Queue α) (i : ℕ) (stored : Stored) : Queue α :=
  { q with
    cachedTail := stored.value
    tailSeen := i
    constructsSeen := max q.constructsSeen stored.writes }

theorem consistent_refreshHead (h : Consistent capacity q) {i : ℕ} {stored : Stored}
    (hstored : q.head[i]? = some stored) (hle : q.headSeen ≤ i) :
    Consistent capacity (refreshHead q i stored) ∧ i ≤ q.popped.length ∧
      stored.value = UInt64.ofNat i := by
  rw [h.head_eq] at hstored
  obtain ⟨hi, rfl⟩ := history_get hstored
  have hwindow := h.window
  refine ⟨{ h with
    cachedHead_eq := rfl
    headSeen_le := hi
    destroysSeen_ge := le_max_right _ _
    window := hwindow.trans (Nat.add_le_add_right hle _)
    push_at := ?_ }, hi, rfl⟩
  have hat := h.push_at
  change PushAt capacity q.pushed.length i q.push
  cases hpush : q.push with
  | idle | loadTail => trivial
  | loadHead | storeTail =>
    rw [hpush] at hat
    exact hat
  | construct event tail =>
    rw [hpush] at hat
    exact ⟨hat.1, lt_of_lt_of_le hat.2 (Nat.add_le_add_right hle _)⟩

theorem consistent_refreshTail (h : Consistent capacity q) {i : ℕ} {stored : Stored}
    (hstored : q.tail[i]? = some stored) (hle : q.tailSeen ≤ i) :
    Consistent capacity (refreshTail q i stored) ∧ i ≤ q.pushed.length ∧
      stored.value = UInt64.ofNat i := by
  rw [h.tail_eq] at hstored
  obtain ⟨hi, rfl⟩ := history_get hstored
  refine ⟨{ h with
    cachedTail_eq := rfl
    tailSeen_le := hi
    constructsSeen_ge := le_max_right _ _
    removed_seen := h.removed_seen.trans hle
    pop_at := ?_ }, hi, rfl⟩
  have hat := h.pop_at
  change PopAt q.popped.length i q.pop
  cases hpop : q.pop with
  | idle | loadHead => trivial
  | loadTail | storeHead =>
    rw [hpop] at hat
    exact hat
  | take head =>
    rw [hpop] at hat
    exact ⟨hat.1, lt_of_lt_of_le hat.2 hle⟩

/-- What the producer's test for a full queue says of the counts. -/
theorem push_full_iff (h : Consistent capacity q) :
    UInt64.ofNat q.pushed.length - q.cachedHead ≥ capacity.value ↔
      q.pushed.length = q.headSeen + size capacity := by
  have hlt := size_lt capacity
  have hpushed := pushed_le h
  have hseen := h.headSeen_le
  have hpopped := popped_le h
  have hdestroys := h.destroys_le
  rw [h.cachedHead_eq, full_iff capacity (by omega) (by omega)]
  omega

/-- What the consumer's test for an empty queue says of the counts. -/
theorem pop_empty_iff (h : Consistent capacity q) :
    UInt64.ofNat q.popped.length = q.cachedTail ↔ q.popped.length = q.tailSeen := by
  have hlt := size_lt capacity
  have hpushed := pushed_le h
  have hseen := h.headSeen_le
  have htail := h.tailSeen_le
  have hremoved := h.removed_seen
  rw [removed, List.length_append] at hremoved
  rw [h.cachedTail_eq]
  constructor
  · exact ofNat_inj (by omega) (by omega)
  · exact congrArg UInt64.ofNat

end Calls

section Producer

variable {capacity} {q q' : Queue α} {returned : Option Bool}

theorem room_of_not_full (h : Consistent capacity q)
    (hfull : ¬ UInt64.ofNat q.pushed.length - q.cachedHead ≥ capacity.value) :
    q.pushed.length < q.headSeen + size capacity :=
  lt_of_le_of_ne (pushed_le h) fun heq => hfull ((push_full_iff h).mpr heq)

theorem consistent_construct (h : Consistent capacity q) {event : α} {tail : UInt64}
    (hpush : q.push = .construct event tail) :
    Consistent capacity { q with
      slots := Function.update q.slots (slot capacity tail)
        ⟨some event, .producer, q.constructs + 1⟩
      constructs := q.constructs + 1
      push := .storeTail event tail } := by
  have hopen := open_of_push h (by rw [hpush]; nofun)
  have hat := h.push_at
  rw [hpush] at hat
  obtain ⟨rfl, hroom⟩ := hat
  have hplaced : placed q = q.pushed := placed_eq (by rw [hpush]; rfl)
  have hconstructs : q.constructs = q.pushed.length := by rw [h.constructs_eq, hplaced]
  have hseen := h.headSeen_le
  have hpopped := popped_le h
  have hring := ring_construct (hplaced ▸ h.ring) h.destroys_le (by omega) event
  exact { h with
    ring := by
      rw [slot_ofNat, hconstructs]
      exact hring
    constructs_eq := by
      change q.constructs + 1 = (q.pushed ++ [event]).length
      rw [hconstructs, List.length_append, List.length_singleton]
    window := by
      change (q.pushed ++ [event]).length ≤ q.headSeen + size capacity
      rw [List.length_append, List.length_singleton]
      omega
    closing_eq := closing_of_open hopen
    push_at := rfl }

theorem consistent_storeTail (h : Consistent capacity q) {event : α} {tail : UInt64}
    (hpush : q.push = .storeTail event tail) :
    Consistent capacity { q with
      tail := q.tail ++ [⟨tail + 1, q.constructs⟩]
      pushed := q.pushed ++ [event]
      push := .idle } := by
  have hopen := open_of_push h (by rw [hpush]; nofun)
  have hat := h.push_at
  rw [hpush] at hat
  obtain rfl : tail = UInt64.ofNat q.pushed.length := hat
  have hplaced : placed q = q.pushed ++ [event] := by rw [placed, hpush, placedBy]
  have hsame : placed { q with
      tail := q.tail ++ [⟨UInt64.ofNat q.pushed.length + 1, q.constructs⟩]
      pushed := q.pushed ++ [event]
      push := .idle } = placed q := by
    rw [hplaced]
    exact List.append_nil _
  have hlength : (q.pushed ++ [event]).length = q.pushed.length + 1 := List.length_append
  have hconstructs : q.constructs = q.pushed.length + 1 := by
    rw [h.constructs_eq, hplaced, hlength]
  have hdestroys := h.destroys_le
  have hseen := h.tailSeen_le
  exact { h with
    tail_eq := by
      change _ = history (q.pushed ++ [event]).length
      rw [hlength, history_succ, ← h.tail_eq, ← hconstructs]
    ring := hsame ▸ h.ring
    constructs_eq := hsame ▸ h.constructs_eq
    removed_pushed := h.removed_pushed.trans (List.prefix_append _ _)
    destroys_le := by
      change q.destroys ≤ (q.pushed ++ [event]).length
      omega
    window := hsame ▸ h.window
    tailSeen_le := by
      change q.tailSeen ≤ (q.pushed ++ [event]).length
      omega
    closing_eq := closing_of_open hopen
    push_at := trivial }

theorem consistent_produce (h : Consistent capacity q) {action : Action α}
    (hs : q.produce capacity action = some (q', returned)) : Consistent capacity q' := by
  cases action with
  | tryPush event =>
    rw [Queue.produce] at hs
    split at hs
    · rename_i hpush hclosing
      cases hs
      exact consistent_push h hclosing hpush (.loadTail event) rfl trivial
    · cases hs
  | loadOwnTail =>
    rw [Queue.produce] at hs
    split at hs
    · rename_i event hpush
      have hopen := open_of_push h (by rw [hpush]; nofun)
      dsimp only at hs
      rw [held_tail h] at hs
      split at hs
      · cases hs
        exact consistent_push h hopen hpush (.loadHead event _) rfl rfl
      · rename_i hfull
        cases hs
        exact consistent_push h hopen hpush (.construct event _) rfl
          ⟨rfl, room_of_not_full h hfull⟩
    · cases hs
  | loadHead i =>
    rw [Queue.produce] at hs
    split at hs
    · rename_i event tail stored hpush hstored
      have hopen := open_of_push h (by rw [hpush]; nofun)
      have hat := h.push_at
      rw [hpush] at hat
      obtain rfl : tail = UInt64.ofNat q.pushed.length := hat
      split at hs
      · rename_i hle
        obtain ⟨hfresh, -, -⟩ := consistent_refreshHead h hstored hle
        dsimp only at hs
        split at hs
        · cases hs
          exact consistent_push hfresh hopen hpush .idle rfl trivial
        · rename_i hfull
          cases hs
          exact consistent_push hfresh hopen hpush (.construct event _) rfl
            ⟨rfl, room_of_not_full hfresh hfull⟩
      · cases hs
    · cases hs
  | construct =>
    rw [Queue.produce] at hs
    split at hs
    · rename_i event tail hpush
      cases hs
      exact consistent_construct h hpush
    · cases hs
  | storeTail =>
    rw [Queue.produce] at hs
    split at hs
    · rename_i event tail hpush
      cases hs
      exact consistent_storeTail h hpush
    · cases hs
  | tryPop | loadOwnHead | loadTail | take | storeHead | close | destroyNext => cases hs

end Producer

section Consumer

variable {capacity} {q q' : Queue α} {returned : Option Bool}

theorem seen_of_not_empty (h : Consistent capacity q)
    (hempty : ¬ UInt64.ofNat q.popped.length = q.cachedTail) : q.popped.length < q.tailSeen := by
  have hremoved := h.removed_seen
  rw [removed, List.length_append] at hremoved
  refine lt_of_le_of_ne (by omega) fun heq => hempty ((pop_empty_iff h).mpr heq)

/-- The slot that a pop takes holds the next event, and its construction is visible. -/
theorem taken_slot (h : Consistent capacity q) {head : UInt64} (hpop : q.pop = .take head) :
    head = UInt64.ofNat q.popped.length ∧ q.destroys = q.popped.length ∧
      ∃ event, q.pushed[q.popped.length]? = some event ∧
        q.slots (slot capacity head) = ⟨some event, .producer, q.popped.length + 1⟩ ∧
        (q.slots (slot capacity head)).visibleTo .consumer q.constructsSeen = true := by
  have hopen := open_of_pop h (by rw [hpop]; nofun)
  have hat := h.pop_at
  rw [hpop] at hat
  obtain ⟨rfl, hlt⟩ := hat
  have hdestroys : q.destroys = q.popped.length := by
    rw [h.open_eq hopen, removed_eq (by rw [hpop]; rfl)]
  have hseen := h.tailSeen_le
  have hconstructs := h.constructsSeen_ge
  have hplaced : q.pushed.length ≤ (placed q).length := by
    rw [placed, List.length_append]
    omega
  have hslot := h.ring.full q.popped.length (by omega) (by omega)
  rw [placed, List.getElem?_append_left (by omega),
    List.getElem?_eq_getElem (show q.popped.length < q.pushed.length by omega)] at hslot
  rw [slot_ofNat, hslot, Slot.visibleTo, Bool.or_eq_true, decide_eq_true_eq, decide_eq_true_eq]
  refine ⟨rfl, hdestroys, _, List.getElem?_eq_getElem (by omega), rfl, Or.inr ?_⟩
  change q.popped.length + 1 ≤ q.constructsSeen
  omega

theorem consistent_take (h : Consistent capacity q) {head : UInt64} {event : α}
    (hpop : q.pop = .take head) (hevent : q.pushed[q.popped.length]? = some event) :
    Consistent capacity { q with
      slots := Function.update q.slots (slot capacity head) ⟨none, .consumer, q.destroys + 1⟩
      destroys := q.destroys + 1
      pop := .storeHead head event } := by
  have hopen := open_of_pop h (by rw [hpop]; nofun)
  obtain ⟨rfl, hdestroys, -⟩ := taken_slot h hpop
  have hat := h.pop_at
  rw [hpop] at hat
  have hlt := hat.2
  have hseen := h.tailSeen_le
  have hhead := h.headSeen_le
  have hwindow := h.window
  have hremoved : (q.popped ++ [event]).length = q.popped.length + 1 := List.length_append
  have hpopped : q.popped <+: q.pushed := (List.prefix_append _ _).trans h.removed_pushed
  have hextended : q.popped ++ [event] <+: q.pushed := by
    rw [List.prefix_iff_eq_take, hremoved, List.take_add_one, hevent,
      ← List.prefix_iff_eq_take.mp hpopped]
    rfl
  have hring := ring_destroy h.ring (by omega)
  exact { h with
    ring := by
      rw [slot_ofNat, ← hdestroys]
      exact hring
    removed_pushed := hextended
    removed_le := by
      change (q.popped ++ [event]).length ≤ q.destroys + 1
      omega
    destroys_le := by
      change q.destroys + 1 ≤ q.pushed.length
      omega
    open_eq := fun _ => by
      change q.destroys + 1 = (q.popped ++ [event]).length
      omega
    closing_eq := closing_of_open hopen
    removed_seen := by
      change (q.popped ++ [event]).length ≤ q.tailSeen
      omega
    pop_at := rfl }

theorem consistent_storeHead (h : Consistent capacity q) {head : UInt64} {out : α}
    (hpop : q.pop = .storeHead head out) :
    Consistent capacity { q with
      head := q.head ++ [⟨head + 1, q.destroys⟩]
      popped := q.popped ++ [out]
      pop := .idle } := by
  have hopen := open_of_pop h (by rw [hpop]; nofun)
  have hat := h.pop_at
  rw [hpop] at hat
  obtain rfl : head = UInt64.ofNat q.popped.length := hat
  have hremoved : removed q = q.popped ++ [out] := by rw [removed, hpop, takenBy]
  have hsame : removed { q with
      head := q.head ++ [⟨UInt64.ofNat q.popped.length + 1, q.destroys⟩]
      popped := q.popped ++ [out]
      pop := .idle } = removed q := by
    rw [hremoved]
    exact List.append_nil _
  have hlength : (q.popped ++ [out]).length = q.popped.length + 1 := List.length_append
  have hdestroys : q.destroys = q.popped.length + 1 := by
    rw [h.open_eq hopen, hremoved, hlength]
  have hseen := h.headSeen_le
  exact { h with
    head_eq := by
      change _ = history (q.popped ++ [out]).length
      rw [hlength, history_succ, ← h.head_eq, ← hdestroys]
    removed_pushed := hsame ▸ h.removed_pushed
    removed_le := hsame ▸ h.removed_le
    open_eq := hsame ▸ h.open_eq
    closing_eq := closing_of_open hopen
    headSeen_le := by
      change q.headSeen ≤ (q.popped ++ [out]).length
      omega
    removed_seen := hsame ▸ h.removed_seen
    pop_at := trivial }

theorem consistent_consume (h : Consistent capacity q) {action : Action α}
    (hs : q.consume capacity action = some (q', returned)) : Consistent capacity q' := by
  cases action with
  | tryPop =>
    rw [Queue.consume] at hs
    split at hs
    · rename_i hpop hclosing
      cases hs
      exact consistent_pop h hclosing hpop .loadHead rfl trivial
    · cases hs
  | loadOwnHead =>
    rw [Queue.consume] at hs
    split at hs
    · rename_i hpop
      have hopen := open_of_pop h (by rw [hpop]; nofun)
      dsimp only at hs
      rw [held_head h] at hs
      split at hs
      · cases hs
        exact consistent_pop h hopen hpop (.loadTail _) rfl rfl
      · rename_i hempty
        cases hs
        exact consistent_pop h hopen hpop (.take _) rfl ⟨rfl, seen_of_not_empty h hempty⟩
    · cases hs
  | loadTail i =>
    rw [Queue.consume] at hs
    split at hs
    · rename_i head stored hpop hstored
      have hopen := open_of_pop h (by rw [hpop]; nofun)
      have hat := h.pop_at
      rw [hpop] at hat
      obtain rfl : head = UInt64.ofNat q.popped.length := hat
      split at hs
      · rename_i hle
        obtain ⟨hfresh, -, -⟩ := consistent_refreshTail h hstored hle
        dsimp only at hs
        split at hs
        · cases hs
          exact consistent_pop hfresh hopen hpop .idle rfl trivial
        · rename_i hempty
          cases hs
          exact consistent_pop hfresh hopen hpop (.take _) rfl
            ⟨rfl, seen_of_not_empty hfresh hempty⟩
      · cases hs
    · cases hs
  | take garbage =>
    rw [Queue.consume] at hs
    split at hs
    · rename_i head hpop
      obtain ⟨-, -, event, hevent, hslot, hvisible⟩ := taken_slot h hpop
      dsimp only at hs
      rw [if_pos hvisible] at hs
      cases hs
      rw [hslot]
      exact consistent_take h hpop hevent
    · cases hs
  | storeHead =>
    rw [Queue.consume] at hs
    split at hs
    · rename_i head out hpop
      cases hs
      exact consistent_storeHead h hpop
    · cases hs
  | tryPush | loadOwnTail | loadHead | construct | storeTail | close | destroyNext => cases hs

end Consumer

section Destructor

variable {capacity} {q q' : Queue α} {returned : Option Bool}

/-- The slot that the destructor destroys next, if it is not done. -/
theorem closing_slot (h : Consistent capacity q) {head : UInt64} (hclosing : q.closing = some head)
    (hmore : head ≠ held q.tail) :
    head = UInt64.ofNat q.destroys ∧ q.destroys < q.pushed.length ∧
      ∃ event, (q.slots (slot capacity head)).content = some event := by
  obtain ⟨rfl, hpush, -⟩ := h.closing_eq head hclosing
  rw [held_tail h] at hmore
  have hlt : q.destroys < q.pushed.length :=
    lt_of_le_of_ne h.destroys_le fun heq => hmore (congrArg UInt64.ofNat heq)
  have hplaced : placed q = q.pushed := placed_eq (by rw [hpush]; rfl)
  have hslot := h.ring.full q.destroys le_rfl (by rw [hplaced]; exact hlt)
  rw [hplaced, List.getElem?_eq_getElem hlt] at hslot
  rw [slot_ofNat, hslot]
  exact ⟨rfl, hlt, _, rfl⟩

theorem consistent_destruct (h : Consistent capacity q) {action : Action α}
    (hs : q.destruct capacity action = some (q', returned)) : Consistent capacity q' := by
  cases action with
  | close =>
    rw [Queue.destruct] at hs
    split at hs
    · rename_i hpush hpop hopen
      cases hs
      have hdestroys : q.destroys = q.popped.length := by
        rw [h.open_eq hopen, removed_eq (by rw [hpop]; rfl)]
      exact { h with
        open_eq := fun hclosing => nomatch hclosing
        closing_eq := fun head hclosing => by
          rw [← Option.some.inj hclosing, held_head h, hdestroys]
          exact ⟨rfl, hpush, hpop⟩ }
    · cases hs
  | destroyNext =>
    rw [Queue.destruct] at hs
    split at hs
    · rename_i head hclosing
      split at hs
      · cases hs
      · rename_i hmore
        cases hs
        obtain ⟨rfl, hlt, -⟩ := closing_slot h hclosing hmore
        obtain ⟨-, hpush, hpop⟩ := h.closing_eq _ hclosing
        have hremoved := h.removed_le
        have hpopped := popped_le h
        have hhead := h.headSeen_le
        have hwindow := h.window
        have hring := ring_destroy h.ring (by omega)
        exact { h with
          ring := by
            rw [slot_ofNat]
            exact hring
          removed_le := hremoved.trans (Nat.le_succ _)
          destroys_le := hlt
          open_eq := fun hclosing => nomatch hclosing
          closing_eq := fun head hnext => by
            rw [← Option.some.inj hnext]
            exact ⟨(UInt64.ofNat_add _ _).symm, hpush, hpop⟩ }
    · cases hs
  | tryPush | loadOwnTail | loadHead | construct | storeTail | tryPop | loadOwnHead | loadTail
  | take | storeHead => cases hs

end Destructor

section Runs

variable {capacity} {q q' : Queue α}

theorem step_sides {action : Action α} {returned : Option Bool}
    (hs : q.step capacity action = some (q', returned)) :
    q.produce capacity action = some (q', returned) ∨
      q.consume capacity action = some (q', returned) ∨
        q.destruct capacity action = some (q', returned) := by
  cases action with
  | tryPush | loadOwnTail | loadHead | construct | storeTail => exact Or.inl hs
  | tryPop | loadOwnHead | loadTail | take | storeHead => exact Or.inr (Or.inl hs)
  | close | destroyNext => exact Or.inr (Or.inr hs)

theorem consistent_step (h : Consistent capacity q) {action : Action α} {returned : Option Bool}
    (hs : q.step capacity action = some (q', returned)) : Consistent capacity q' := by
  rcases step_sides hs with hs | hs | hs
  · exact consistent_produce h hs
  · exact consistent_consume h hs
  · exact consistent_destruct h hs

theorem reachable_consistent (h : Reachable capacity q) : Consistent capacity q := by
  induction h with
  | new => exact consistent_new capacity
  | step _ hs ih => exact consistent_step ih hs

variable (capacity) in
/-- The slot of a construction is raw, the slot of a destruction is constructed, and the last
write to it is visible to the side that writes. A push fails only at a head value with a capacity
of events after it, a pop only at a tail value with none. -/
def Proper (q : Queue α) (returned : Option Bool) : Action α → Prop
  | .construct => ∀ event tail, q.push = .construct event tail →
    (q.slots (slot capacity tail)).content = none ∧
      (q.slots (slot capacity tail)).visibleTo .producer q.destroysSeen = true
  | .take _ => ∀ head, q.pop = .take head →
    (∃ event, (q.slots (slot capacity head)).content = some event) ∧
      (q.slots (slot capacity head)).visibleTo .consumer q.constructsSeen = true
  | .destroyNext => ∀ head, q.closing = some head →
    ∃ event, (q.slots (slot capacity head)).content = some event
  | .loadHead i => returned = some false → q.pushed.length = i + capacity.value.toNat
  | .loadTail i => returned = some false → i = q.popped.length
  | _ => returned ≠ some false

theorem constructed_slot (h : Consistent capacity q) {event : α} {tail : UInt64}
    (hpush : q.push = .construct event tail) :
    (q.slots (slot capacity tail)).content = none ∧
      (q.slots (slot capacity tail)).visibleTo .producer q.destroysSeen = true := by
  have hat := h.push_at
  rw [hpush] at hat
  obtain ⟨rfl, hroom⟩ := hat
  have hplaced : placed q = q.pushed := placed_eq (by rw [hpush]; rfl)
  have hring := hplaced ▸ h.ring
  have hseen := h.headSeen_le
  have hpopped := popped_le h
  have hdestroys := h.destroys_le
  rw [slot_ofNat]
  refine ⟨(next_raw hring (by omega)).1, ?_⟩
  exact visibleTo_mono h.destroysSeen_ge (next_visible hring hroom (by omega) hdestroys)

theorem failed_push (h : Consistent capacity q) {i : ℕ}
    (hs : q.produce capacity (.loadHead i) = some (q', some false)) :
    q.pushed.length = i + size capacity := by
  rw [Queue.produce] at hs
  split at hs
  · rename_i event tail stored hpush hstored
    have hat := h.push_at
    rw [hpush] at hat
    obtain rfl : tail = UInt64.ofNat q.pushed.length := hat
    split at hs
    · rename_i hle
      obtain ⟨hfresh, -, -⟩ := consistent_refreshHead h hstored hle
      dsimp only at hs
      split at hs
      · rename_i hfull
        exact (push_full_iff hfresh).mp hfull
      · cases hs
    · cases hs
  · cases hs

theorem failed_pop (h : Consistent capacity q) {i : ℕ}
    (hs : q.consume capacity (.loadTail i) = some (q', some false)) : i = q.popped.length := by
  rw [Queue.consume] at hs
  split at hs
  · rename_i head stored hpop hstored
    have hat := h.pop_at
    rw [hpop] at hat
    obtain rfl : head = UInt64.ofNat q.popped.length := hat
    split at hs
    · rename_i hle
      obtain ⟨hfresh, -, -⟩ := consistent_refreshTail h hstored hle
      dsimp only at hs
      split at hs
      · rename_i hempty
        exact ((pop_empty_iff hfresh).mp hempty).symm
      · cases hs
    · cases hs
  · cases hs

/-- Only the load of the other side's cursor makes a call fail. -/
theorem fails_at_load {action : Action α}
    (hs : q.step capacity action = some (q', some false)) :
    ∃ i, action = .loadHead i ∨ action = .loadTail i := by
  cases action with
  | loadHead i => exact ⟨i, Or.inl rfl⟩
  | loadTail i => exact ⟨i, Or.inr rfl⟩
  | tryPush | loadOwnTail | construct | storeTail =>
    simp only [Queue.step, Queue.produce] at hs
    repeat' split at hs
    all_goals cases hs
  | tryPop | loadOwnHead | take | storeHead =>
    simp only [Queue.step, Queue.consume] at hs
    repeat' split at hs
    all_goals cases hs
  | close | destroyNext =>
    simp only [Queue.step, Queue.destruct] at hs
    repeat' split at hs
    all_goals cases hs

theorem proper_step (h : Consistent capacity q) {action : Action α} {returned : Option Bool}
    (hs : q.step capacity action = some (q', returned)) : Proper capacity q returned action := by
  cases action with
  | construct => exact fun event tail hpush => constructed_slot h hpush
  | take garbage =>
    intro head hpop
    obtain ⟨-, -, event, -, hslot, hvisible⟩ := taken_slot h hpop
    exact ⟨⟨event, by rw [hslot]⟩, hvisible⟩
  | destroyNext =>
    intro head hclosing
    change q.destruct capacity .destroyNext = _ at hs
    rw [Queue.destruct, hclosing] at hs
    dsimp only at hs
    split at hs
    · cases hs
    · rename_i hmore
      exact (closing_slot h hclosing hmore).2.2
  | loadHead i =>
    rintro rfl
    exact failed_push h hs
  | loadTail i =>
    rintro rfl
    exact failed_pop h hs
  | tryPush | loadOwnTail | storeTail | tryPop | loadOwnHead | storeHead | close =>
    rintro rfl
    obtain ⟨i, hi | hi⟩ := fails_at_load hs
    · cases hi
    · cases hi

/-- The popped events are the first of the pushed ones, in order; no more than a capacity of
them is in the queue; and every step is proper. -/
theorem reachable_fifo (h : Reachable capacity q) :
    q.popped <+: q.pushed ∧ q.pushed.length ≤ q.popped.length + capacity.value.toNat ∧
      ∀ action q' returned, q.step capacity action = some (q', returned) →
        Proper capacity q returned action := by
  have hconsistent := reachable_consistent h
  have hpushed := pushed_le hconsistent
  have hseen := hconsistent.headSeen_le
  refine ⟨(List.prefix_append _ _).trans hconsistent.removed_pushed, ?_, ?_⟩
  · change q.pushed.length ≤ q.popped.length + size capacity
    omega
  · exact fun action q' returned hs => proper_step hconsistent hs

/-- A destructor that is done leaves no slot constructed. -/
theorem closed_raw (h : Reachable capacity q) {head : UInt64} (hclosing : q.closing = some head)
    (hdone : head = held q.tail) (i : ℕ) : (q.slots i).content = none := by
  have hconsistent := reachable_consistent h
  obtain ⟨rfl, hpush, -⟩ := hconsistent.closing_eq head hclosing
  rw [held_tail hconsistent] at hdone
  have hlt := size_lt capacity
  have hpushed := pushed_le hconsistent
  have hseen := hconsistent.headSeen_le
  have hpopped := popped_le hconsistent
  have hdestroys := ofNat_inj hconsistent.destroys_le (by omega) hdone
  have hplaced : placed q = q.pushed := placed_eq (by rw [hpush]; rfl)
  exact (hconsistent.ring.raw i fun k hle hk => by
    rw [hplaced] at hk
    omega).1

end Runs

section Instances

variable (capacity : Capacity)

def run (q : Queue α) : List (Action α) → Option (Queue α)
  | [] => some q
  | action :: actions =>
    match q.step capacity action with
    | some (q', _) => run q' actions
    | none => none

theorem reachable_run {q q' : Queue α} {actions : List (Action α)} (h : Reachable capacity q)
    (hrun : run capacity q actions = some q') : Reachable capacity q' := by
  induction actions generalizing q with
  | nil =>
    cases hrun
    exact h
  | cons action actions ih =>
    rw [run] at hrun
    split at hrun
    · rename_i hs
      exact ih (h.step hs) hrun
    · cases hrun

def twoSlots : Capacity := ⟨2, by decide, by decide⟩

/-- Two events through the queue; the consumer loads the tail while it is zero, fails, and loads
it again, and the second event is pushed before the first is popped. -/
def twoEvents : List (Action ℕ) := [.tryPop, .loadOwnHead, .tryPush 7, .loadOwnTail, .loadTail 0,
  .construct, .storeTail, .tryPop, .loadOwnHead, .loadTail 1, .tryPush 8, .loadOwnTail,
  .construct, .storeTail, .take 0, .storeHead, .tryPop, .loadOwnHead, .loadTail 2, .take 0,
  .storeHead]

theorem fifo_of_two_events : ∃ q, run twoSlots {} twoEvents = some q ∧ q.popped = [7, 8] ∧
    q.popped <+: q.pushed ∧ q.pushed.length ≤ q.popped.length + 2 := by
  obtain ⟨q, hrun, hpopped⟩ : ∃ q, run twoSlots {} twoEvents = some q ∧ q.popped = [7, 8] :=
    ⟨_, rfl, rfl⟩
  have hfifo := reachable_fifo (reachable_run twoSlots .new hrun)
  exact ⟨q, hrun, hpopped, hfifo.1, hfifo.2.1⟩

end Instances

end Leka.SpscFifo
