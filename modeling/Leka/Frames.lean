import Leka.Numerals

/-!
Frames: a payload behind its length in two bytes, the high one first. No frame is a prefix of
another, so a text of bytes splits in one way into frames and a rest without a frame at its
head. Nothing here depends on the program that uses it.
-/

namespace Leka.Frames

open Numerals

def framed (payload : Text) : Text :=
  UInt8.ofNat (payload.length / 256) :: UInt8.ofNat payload.length :: payload

/-- The payload has a length that two bytes hold, and is not empty. -/
def Framable (payload : Text) : Prop := payload ≠ [] ∧ payload.length < 2 ^ 16

/-- `bytes` are the frames of the payloads and then `left`, with no further frame at its head. -/
structure Split (bytes : Text) (payloads : List Text) (left : Text) : Prop where
  bytes_eq : bytes = payloads.flatMap framed ++ left
  framable : ∀ payload ∈ payloads, Framable payload
  maximal : ∀ payload rest, Framable payload → left ≠ framed payload ++ rest

section Heads

theorem length_framed (payload : Text) : (framed payload).length = payload.length + 2 := rfl

theorem framable_of_length {payload : Text} (hpos : 0 < payload.length)
    (hlt : payload.length < 2 ^ 16) : Framable payload :=
  ⟨List.ne_nil_of_length_pos hpos, hlt⟩

/-- The two bytes in front of a payload hold its length. -/
theorem framed_head {payload : Text} (h : payload.length < 2 ^ 16) :
    (UInt8.ofNat (payload.length / 256)).toNat * 256 + (UInt8.ofNat payload.length).toNat =
      payload.length := by
  rw [UInt8.toNat_ofNat_of_lt' (by rw [UInt8.size]; omega), UInt8.toNat_ofNat']
  omega

/-- Two bytes with the length of a payload are the head of its frame. -/
theorem framed_eq {high low : UInt8} {payload : Text}
    (h : high.toNat * 256 + low.toNat = payload.length) :
    framed payload = high :: low :: payload := by
  have hhigh := high.toNat_lt
  have hlow := low.toNat_lt
  have hhead := framed_head (show payload.length < 2 ^ 16 by omega)
  have hsecond := (UInt8.ofNat payload.length).toNat_lt
  rw [framed, show UInt8.ofNat (payload.length / 256) = high from UInt8.toNat_inj.mp (by omega),
    show UInt8.ofNat payload.length = low from UInt8.toNat_inj.mp (by omega)]

/-- A text has a frame at its head exactly when the length there is positive and not beyond the
bytes behind it. -/
theorem no_frame_iff {high low : UInt8} {rest : Text} :
    (∀ payload behind, Framable payload → high :: low :: rest ≠ framed payload ++ behind) ↔
      high.toNat * 256 + low.toNat = 0 ∨ rest.length < high.toNat * 256 + low.toNat := by
  have hhigh := high.toNat_lt
  have hlow := low.toNat_lt
  constructor
  · intro hnone
    by_contra hlength
    rw [not_or, not_lt] at hlength
    have htake : high.toNat * 256 + low.toNat =
        (rest.take (high.toNat * 256 + low.toNat)).length := by
      rw [List.length_take, min_eq_left hlength.2]
    refine hnone (rest.take (high.toNat * 256 + low.toNat))
      (rest.drop (high.toNat * 256 + low.toNat)) (framable_of_length (by omega) (by omega)) ?_
    rw [framed_eq htake, List.cons_append, List.cons_append, List.take_append_drop]
  · intro hlength payload behind hframable heq
    have hpos := List.length_pos_iff.mpr hframable.1
    have hhead := framed_head hframable.2
    rw [framed, List.cons_append, List.cons_append, List.cons.injEq, List.cons.injEq] at heq
    obtain ⟨rfl, rfl, rfl⟩ := heq
    rw [hhead, List.length_append] at hlength
    omega

theorem no_frame_of_short {left : Text} (h : left.length < 2) (payload rest : Text) :
    left ≠ framed payload ++ rest := by
  intro heq
  rw [heq, List.length_append, length_framed] at h
  omega

end Heads

section Splits

/-- No frame is a prefix of another. -/
theorem framed_append_inj {payload payload' rest rest' : Text} (h : payload.length < 2 ^ 16)
    (h' : payload'.length < 2 ^ 16)
    (heq : framed payload ++ rest = framed payload' ++ rest') :
    payload = payload' ∧ rest = rest' := by
  have hhead := framed_head h
  have hhead' := framed_head h'
  simp only [framed, List.cons_append, List.cons.injEq] at heq
  rw [heq.1, heq.2.1, hhead'] at hhead
  exact List.append_inj heq.2.2 hhead.symm

theorem split_cons {payload bytes left : Text} {payloads : List Text} (h : Framable payload)
    (hsplit : Split bytes payloads left) :
    Split (framed payload ++ bytes) (payload :: payloads) left where
  bytes_eq := by rw [hsplit.bytes_eq, List.flatMap_cons, List.append_assoc]
  framable := List.forall_mem_cons.mpr ⟨h, hsplit.framable⟩
  maximal := hsplit.maximal

theorem split_nil {left : Text}
    (h : ∀ payload rest, Framable payload → left ≠ framed payload ++ rest) :
    Split left [] left where
  bytes_eq := rfl
  framable := fun _ hmem => absurd hmem List.not_mem_nil
  maximal := h

theorem split_tail {payload bytes left : Text} {payloads : List Text}
    (h : Split bytes (payload :: payloads) left) :
    Split (payloads.flatMap framed ++ left) payloads left where
  bytes_eq := rfl
  framable := (List.forall_mem_cons.mp h.framable).2
  maximal := h.maximal

/-- A text splits into frames in one way. -/
theorem split_unique {bytes left left' : Text} {payloads payloads' : List Text}
    (h : Split bytes payloads left) (h' : Split bytes payloads' left') :
    payloads = payloads' ∧ left = left' := by
  induction payloads generalizing bytes payloads' with
  | nil =>
    have hbytes : bytes = left := h.bytes_eq
    cases payloads' with
    | nil => exact ⟨rfl, hbytes.symm.trans h'.bytes_eq⟩
    | cons payload' payloads' =>
      refine absurd ?_ (h.maximal payload' (payloads'.flatMap framed ++ left')
        (h'.framable _ List.mem_cons_self))
      rw [← hbytes, h'.bytes_eq, List.flatMap_cons, List.append_assoc]
  | cons payload payloads ih =>
    have hbytes := h.bytes_eq
    rw [List.flatMap_cons, List.append_assoc] at hbytes
    have hframable := h.framable _ List.mem_cons_self
    cases payloads' with
    | nil =>
      have hleft : bytes = left' := h'.bytes_eq
      exact absurd (hleft.symm.trans hbytes) (h'.maximal _ _ hframable)
    | cons payload' payloads' =>
      have hbytes' := h'.bytes_eq
      rw [List.flatMap_cons, List.append_assoc] at hbytes'
      have hframable' := h'.framable _ List.mem_cons_self
      obtain ⟨rfl, hrest⟩ :=
        framed_append_inj hframable.2 hframable'.2 (hbytes.symm.trans hbytes')
      have htail := split_tail h'
      rw [← hrest] at htail
      obtain ⟨rfl, rfl⟩ := ih (split_tail h) htail
      exact ⟨rfl, rfl⟩

theorem split_frames {payloads : List Text} (h : ∀ payload ∈ payloads, Framable payload) :
    Split (payloads.flatMap framed) payloads [] where
  bytes_eq := (List.append_nil _).symm
  framable := h
  maximal := fun payload rest _ => no_frame_of_short (by simp) payload rest

/-- Frames at the head of a text of frames are those of its first payloads. -/
theorem prefix_of_frames {payloads payloads' : List Text} {rest : Text}
    (h : ∀ payload ∈ payloads, Framable payload) (h' : ∀ payload ∈ payloads', Framable payload)
    (heq : payloads'.flatMap framed = payloads.flatMap framed ++ rest) :
    payloads <+: payloads' := by
  induction payloads generalizing payloads' with
  | nil => exact List.nil_prefix
  | cons payload payloads ih =>
    obtain ⟨hframable, hframables⟩ := List.forall_mem_cons.mp h
    rw [List.flatMap_cons, List.append_assoc] at heq
    cases payloads' with
    | nil =>
      exact absurd heq (no_frame_of_short (by simp) payload _)
    | cons payload' payloads' =>
      obtain ⟨hframable', hframables'⟩ := List.forall_mem_cons.mp h'
      rw [List.flatMap_cons] at heq
      obtain ⟨rfl, hrest⟩ := framed_append_inj hframable'.2 hframable.2 heq
      exact (List.prefix_cons_inj _).mpr (ih hframables hframables' hrest)

end Splits

end Leka.Frames
