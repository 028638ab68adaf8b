import Leka.SpscQueues

/-!
The slots of a ring: events are constructed at consecutive positions and destroyed in the same
order, and a position has the slot of its remainder. As long as no more than a ring of events is
between the two ends, every slot is constructed only while raw and destroyed only while
constructed, and its last write is known.
-/

namespace Leka.RingSlots

open SpscQueues

variable {α : Type} {size : ℕ} {slots : ℕ → Slot α} {events : List α} {destroys : ℕ}

/-- The events from position `destroys` on are in their slots, and every other slot is raw. The
last write to a raw slot, if there is one, has destroyed the event of an earlier position. -/
structure Ring (size : ℕ) (slots : ℕ → Slot α) (events : List α) (destroys : ℕ) : Prop where
  full : ∀ k, destroys ≤ k → k < events.length →
    slots (k % size) = ⟨events[k]?, .producer, k + 1⟩
  raw : ∀ i, (∀ k, destroys ≤ k → k < events.length → k % size ≠ i) →
    (slots i).content = none ∧ ((slots i).stamp = 0 ∨ (slots i).writer = .consumer ∧
      ∃ k < destroys, (slots i).stamp = k + 1 ∧ k % size = i)

/-- Positions less than a ring apart share no slot. -/
theorem eq_of_slot_eq {a b : ℕ} (hle : a ≤ b) (hlt : b < a + size) (h : b % size = a % size) :
    a = b := by
  have hzero := Nat.sub_mod_eq_zero_of_mod_eq h
  rw [Nat.mod_eq_of_lt (by omega)] at hzero
  omega

theorem ring_new (size : ℕ) : Ring size (fun _ => ({} : Slot α)) [] 0 where
  full := fun k _ hk => absurd hk (Nat.not_lt_zero k)
  raw := fun _ _ => ⟨rfl, Or.inl rfl⟩

/-- With room left, the slot of the next position is raw. -/
theorem next_raw (h : Ring size slots events destroys)
    (hroom : events.length < destroys + size) :
    (slots (events.length % size)).content = none ∧ ((slots (events.length % size)).stamp = 0 ∨
      (slots (events.length % size)).writer = .consumer ∧ ∃ k < destroys,
        (slots (events.length % size)).stamp = k + 1 ∧ k % size = events.length % size) := by
  refine h.raw _ fun k hle hlt heq => ?_
  have hsame := eq_of_slot_eq (show k ≤ events.length by omega) (by omega) heq.symm
  omega

theorem visibleTo_mono {s : Slot α} {side : Side} {seen seen' : ℕ} (hle : seen ≤ seen')
    (h : s.visibleTo side seen = true) : s.visibleTo side seen' = true := by
  rw [Slot.visibleTo, Bool.or_eq_true, decide_eq_true_eq, decide_eq_true_eq] at h ⊢
  exact h.imp_right fun hstamp => Nat.le_trans hstamp hle

/-- The last write to the next slot is visible to a producer that has seen as many destroyed
events as make room for the next one. -/
theorem next_visible (h : Ring size slots events destroys) {seen : ℕ}
    (hseen : events.length < seen + size) (hle : seen ≤ destroys)
    (hevents : destroys ≤ events.length) :
    (slots (events.length % size)).visibleTo .producer seen = true := by
  rw [Slot.visibleTo, Bool.or_eq_true, decide_eq_true_eq, decide_eq_true_eq]
  rcases (next_raw h (by omega)).2 with hzero | ⟨-, k, hk, hstamp, hslot⟩
  · exact Or.inr (by omega)
  · refine Or.inr ?_
    -- the position is a ring or more before the next one
    by_contra hlate
    have hsame := eq_of_slot_eq (show k ≤ events.length by omega) (by omega) hslot.symm
    omega

theorem ring_construct (h : Ring size slots events destroys) (hevents : destroys ≤ events.length)
    (hroom : events.length < destroys + size) (event : α) :
    Ring size (Function.update slots (events.length % size)
      ⟨some event, .producer, events.length + 1⟩) (events ++ [event]) destroys := by
  constructor
  · intro k hle hlt
    rw [List.length_append, List.length_singleton] at hlt
    rcases Nat.lt_succ_iff_lt_or_eq.mp hlt with hold | rfl
    · have hslot : k % size ≠ events.length % size := fun heq => by
        have hsame := eq_of_slot_eq (show k ≤ events.length by omega) (by omega) heq.symm
        omega
      rw [Function.update_of_ne hslot, h.full k hle hold, List.getElem?_append_left hold]
    · rw [Function.update_self, List.getElem?_concat_length]
  · intro i hraw
    rw [List.length_append, List.length_singleton] at hraw
    have hother : i ≠ events.length % size :=
      fun heq => hraw events.length hevents (Nat.lt_succ_self _) heq.symm
    rw [Function.update_of_ne hother]
    exact h.raw i fun k hle hlt => hraw k hle (by omega)

theorem ring_destroy (h : Ring size slots events destroys)
    (hroom : events.length ≤ destroys + size) :
    Ring size (Function.update slots (destroys % size) ⟨none, .consumer, destroys + 1⟩) events
      (destroys + 1) := by
  constructor
  · intro k hle hk
    have hslot : k % size ≠ destroys % size := fun heq => by
      have hsame := eq_of_slot_eq (show destroys ≤ k by omega) (by omega) heq
      omega
    rw [Function.update_of_ne hslot]
    exact h.full k (by omega) hk
  · intro i hraw
    by_cases hi : i = destroys % size
    · rw [hi, Function.update_self]
      exact ⟨rfl, Or.inr ⟨rfl, destroys, Nat.lt_succ_self _, rfl, rfl⟩⟩
    · rw [Function.update_of_ne hi]
      obtain ⟨hcontent, hstamp⟩ := h.raw i fun k hle hk heq => by
        rcases Nat.eq_or_lt_of_le hle with rfl | hle
        · exact hi heq.symm
        · exact hraw k hle hk heq
      refine ⟨hcontent, hstamp.imp_right ?_⟩
      rintro ⟨hwriter, k, hk, heq⟩
      exact ⟨hwriter, k, by omega, heq⟩

end Leka.RingSlots
