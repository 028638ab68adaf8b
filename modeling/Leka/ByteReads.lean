import Leka.Numerals
import Mathlib.Data.List.Range
import Mathlib.Tactic.Ring

/-!
Reads of a byte view. A view has a size, and what it reads past its end is whatever the memory
holds there: the index operator of a span checks nothing. A computation therefore records the
indices that it reads, and whether they are inside is a property to prove.
-/

namespace Leka.ByteReads

open Numerals

/-- A span of bytes in memory. -/
structure ByteView where
  data : ℕ → UInt8
  size : ℕ

namespace ByteView

def subspan (bytes : ByteView) (offset count : ℕ) : ByteView where
  data := fun i => bytes.data (offset + i)
  size := count

/-- `width` bytes from `offset` on. -/
def field (bytes : ByteView) (offset width : ℕ) : List UInt8 :=
  (List.range width).map fun i => bytes.data (offset + i)

/-- The bytes inside the view. -/
def bytes (view : ByteView) : List UInt8 := view.field 0 view.size

/-- A view of a list, with `beyond` behind it. -/
def ofList (bytes : List UInt8) (beyond : ℕ → UInt8) : ByteView where
  data := fun i => (bytes[i]?).getD (beyond i)
  size := bytes.length

end ByteView

/-- A value together with the indices read to compute it. -/
structure Reading (α : Type) where
  value : α
  reads : List ℕ

instance : Monad Reading where
  pure a := ⟨a, []⟩
  bind x f := ⟨(f x.value).value, x.reads ++ (f x.value).reads⟩

section Reading

variable {α β : Type}

@[simp] theorem pure_value (a : α) : (pure a : Reading α).value = a := rfl

@[simp] theorem pure_reads (a : α) : (pure a : Reading α).reads = [] := rfl

@[simp] theorem bind_value (x : Reading α) (f : α → Reading β) :
    (x >>= f).value = (f x.value).value := rfl

@[simp] theorem bind_reads (x : Reading α) (f : α → Reading β) :
    (x >>= f).reads = x.reads ++ (f x.value).reads := rfl

end Reading

/-- The index operator. -/
def byteAt (bytes : ByteView) (i : ℕ) : Reading UInt8 := ⟨bytes.data i, [i]⟩

/-- A `string_view` of a field, read as a whole. -/
def textAt (bytes : ByteView) (offset width : ℕ) : Reading Text :=
  ⟨bytes.field offset width, (List.range width).map (offset + ·)⟩

def rd16 (bytes : ByteView) (offset : ℕ) : Reading UInt16 := do
  let b₀ ← byteAt bytes offset
  let b₁ ← byteAt bytes (offset + 1)
  return b₀.toUInt16 <<< 8 ||| b₁.toUInt16

def rd32 (bytes : ByteView) (offset : ℕ) : Reading UInt32 := do
  let b₀ ← byteAt bytes offset
  let b₁ ← byteAt bytes (offset + 1)
  let b₂ ← byteAt bytes (offset + 2)
  let b₃ ← byteAt bytes (offset + 3)
  return b₀.toUInt32 <<< 24 ||| b₁.toUInt32 <<< 16 ||| b₂.toUInt32 <<< 8 ||| b₃.toUInt32

/-- The loop of `rd48` and `rd64`, with `count` rounds left. -/
def shiftIn (bytes : ByteView) : ℕ → ℕ → UInt64 → Reading UInt64
  | 0, _, v => pure v
  | count + 1, offset, v => do
    let b ← byteAt bytes offset
    shiftIn bytes count (offset + 1) (v <<< 8 ||| b.toUInt64)

def rd48 (bytes : ByteView) (offset : ℕ) : Reading UInt64 := shiftIn bytes 6 offset 0

def rd64 (bytes : ByteView) (offset : ℕ) : Reading UInt64 := shiftIn bytes 8 offset 0

section Values

variable (bytes : ByteView) (offset : ℕ)

theorem field_succ (width : ℕ) : bytes.field offset (width + 1) =
    bytes.field offset width ++ [bytes.data (offset + width)] := by
  rw [ByteView.field, List.range_succ, List.map_append]
  rfl

theorem field_cons (width : ℕ) : bytes.field offset (width + 1) =
    bytes.data offset :: bytes.field (offset + 1) width := by
  rw [ByteView.field, List.range_succ_eq_map, List.map_cons, List.map_map]
  refine congrArg (List.cons _) (List.map_congr_left ?_)
  intro i _
  rw [Function.comp_apply, Nat.succ_eq_add_one]
  congr 1
  omega

theorem length_field (width : ℕ) : (bytes.field offset width).length = width := by
  rw [ByteView.field, List.length_map, List.length_range]

theorem field_add (a b : ℕ) :
    bytes.field offset (a + b) = bytes.field offset a ++ bytes.field (offset + a) b := by
  induction b with
  | zero => rw [Nat.add_zero]; exact (List.append_nil _).symm
  | succ b ih => rw [← Nat.add_assoc, field_succ, ih, field_succ, List.append_assoc, Nat.add_assoc]

theorem subspan_bytes (count : ℕ) : (bytes.subspan offset count).bytes =
    bytes.field offset count := by
  rw [ByteView.bytes, ByteView.field, ByteView.field]
  refine List.map_congr_left ?_
  intro i _
  change bytes.data (offset + (0 + i)) = _
  rw [Nat.zero_add]

theorem ofList_bytes (text : List UInt8) (beyond : ℕ → UInt8) :
    (ByteView.ofList text beyond).bytes = text := by
  refine List.ext_getElem ?_ ?_
  · rw [ByteView.bytes, length_field]
    rfl
  · intro i _ hi
    simp [ByteView.bytes, ByteView.field, ByteView.ofList, hi]

/-- Fields with the same bytes, index by index. -/
theorem field_eq_iff {m m' : ByteView} {offset width : ℕ} :
    m.field offset width = m'.field offset width ↔
      ∀ i ∈ (List.range width).map (offset + ·), m.data i = m'.data i := by
  rw [ByteView.field, ByteView.field, List.map_inj_left, List.forall_mem_map]

theorem or_shift {x y k : ℕ} (hy : y < 2 ^ k) : x <<< k ||| y = x * 2 ^ k + y := by
  rw [← Nat.shiftLeft_add_eq_or_of_lt hy, Nat.shiftLeft_eq]

theorem rd16_value : (rd16 bytes offset).value.toNat = bigEndian (bytes.field offset 2) := by
  have hb₀ := (bytes.data offset).toNat_lt
  have hb₁ := (bytes.data (offset + 1)).toNat_lt
  have hvalue : (rd16 bytes offset).value.toNat =
      (bytes.data offset).toNat <<< 8 % 2 ^ 16 ||| (bytes.data (offset + 1)).toNat := by
    simp [rd16, byteAt]
  rw [hvalue, Nat.mod_eq_of_lt (by rw [Nat.shiftLeft_eq]; omega), or_shift (by omega), field_succ,
    field_succ, bigEndian_append, bigEndian_append]
  simp [ByteView.field, bigEndian]

theorem rd32_value : (rd32 bytes offset).value.toNat = bigEndian (bytes.field offset 4) := by
  have hb₀ := (bytes.data offset).toNat_lt
  have hb₁ := (bytes.data (offset + 1)).toNat_lt
  have hb₂ := (bytes.data (offset + 2)).toNat_lt
  have hb₃ := (bytes.data (offset + 3)).toNat_lt
  have hvalue : (rd32 bytes offset).value.toNat =
      (bytes.data offset).toNat <<< 24 % 2 ^ 32 |||
        (bytes.data (offset + 1)).toNat <<< 16 % 2 ^ 32 |||
        (bytes.data (offset + 2)).toNat <<< 8 % 2 ^ 32 ||| (bytes.data (offset + 3)).toNat := by
    simp [rd32, byteAt]
  have hfirst : (bytes.data offset).toNat <<< 24 ||| (bytes.data (offset + 1)).toNat <<< 16 =
      ((bytes.data offset).toNat * 256 + (bytes.data (offset + 1)).toNat) <<< 16 := by
    rw [or_shift (by rw [Nat.shiftLeft_eq]; omega), Nat.shiftLeft_eq, Nat.shiftLeft_eq]
    omega
  have hsecond : ∀ x, x <<< 16 ||| (bytes.data (offset + 2)).toNat <<< 8 =
      (x * 256 + (bytes.data (offset + 2)).toNat) <<< 8 := by
    intro x
    rw [or_shift (by rw [Nat.shiftLeft_eq]; omega), Nat.shiftLeft_eq, Nat.shiftLeft_eq]
    omega
  rw [hvalue, Nat.mod_eq_of_lt (by rw [Nat.shiftLeft_eq]; omega),
    Nat.mod_eq_of_lt (by rw [Nat.shiftLeft_eq]; omega),
    Nat.mod_eq_of_lt (by rw [Nat.shiftLeft_eq]; omega), hfirst, hsecond, or_shift (by omega)]
  simp only [field_succ, bigEndian_append]
  simp [ByteView.field, bigEndian]

theorem shiftIn_value (count offset : ℕ) (v : UInt64) :
    (shiftIn bytes count offset v).value.toNat =
      (v.toNat * 256 ^ count + bigEndian (bytes.field offset count)) % 2 ^ 64 := by
  induction count generalizing offset v with
  | zero =>
    have hv := v.toNat_lt
    simp [shiftIn, ByteView.field, bigEndian, Nat.mod_eq_of_lt hv]
  | succ count ih =>
    have hb := (bytes.data offset).toNat_lt
    have hstep : (v <<< 8 ||| (bytes.data offset).toUInt64).toNat =
        (v.toNat * 256 + (bytes.data offset).toNat) % 2 ^ 64 := by
      have hvalue : (v <<< 8 ||| (bytes.data offset).toUInt64).toNat =
          v.toNat <<< 8 % 2 ^ 64 ||| (bytes.data offset).toNat := by simp
      have hlow : v.toNat <<< 8 % 2 ^ 64 = (v.toNat % 2 ^ 56) <<< 8 := by
        rw [Nat.shiftLeft_eq, Nat.shiftLeft_eq]
        omega
      rw [hvalue, hlow, or_shift (by omega)]
      omega
    rw [shiftIn, bind_value, ih, field_cons, bigEndian_cons, length_field]
    simp only [byteAt]
    rw [hstep, pow_succ', Nat.add_mod, Nat.mul_mod, Nat.mod_mod, ← Nat.mul_mod, ← Nat.add_mod]
    congr 1
    ring

theorem shiftIn_reads (count offset : ℕ) (v : UInt64) :
    (shiftIn bytes count offset v).reads = (List.range count).map (offset + ·) := by
  induction count generalizing offset v with
  | zero => rfl
  | succ count ih =>
    rw [shiftIn, bind_reads, ih, List.range_succ_eq_map, List.map_cons, List.map_map]
    refine congrArg (List.cons _) (List.map_congr_left ?_)
    intro i _
    rw [Function.comp_apply, Nat.succ_eq_add_one]
    omega

theorem rd48_value : (rd48 bytes offset).value.toNat = bigEndian (bytes.field offset 6) := by
  have hlt := bigEndian_lt (bytes.field offset 6)
  rw [length_field] at hlt
  rw [rd48, shiftIn_value, UInt64.toNat_zero, zero_mul, zero_add]
  exact Nat.mod_eq_of_lt (by omega)

theorem rd64_value : (rd64 bytes offset).value.toNat = bigEndian (bytes.field offset 8) := by
  have hlt := bigEndian_lt (bytes.field offset 8)
  rw [length_field] at hlt
  rw [rd64, shiftIn_value, UInt64.toNat_zero, zero_mul, zero_add]
  exact Nat.mod_eq_of_lt (by omega)

end Values

end Leka.ByteReads
