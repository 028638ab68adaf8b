import Mathlib.Data.List.Basic
import Mathlib.Data.List.Nodup
import Mathlib.Data.List.Range
import Mathlib.Data.List.TakeWhile
import Mathlib.Logic.Function.Basic
import Mathlib.Tactic.Common

/-!
A sequence kept in buckets: the buckets are read one after the other. Changing one bucket
changes the sequence in one place, between a part in front and a part behind that do not
depend on the bucket.
-/

namespace Leka.Buckets

variable {α : Type*}

/-- The buckets below `n`, in order. -/
def gather (n : ℕ) (bucket : ℕ → List α) : List α := (List.range n).flatMap bucket

/-- The buckets from `i + 1` on, below `n`. -/
def gatherAfter (n i : ℕ) (bucket : ℕ → List α) : List α :=
  (List.range' (i + 1) (n - (i + 1))).flatMap bucket

variable {n i : ℕ} {bucket bucket' : ℕ → List α} {x : α}

@[simp] theorem mem_gather : x ∈ gather n bucket ↔ ∃ i < n, x ∈ bucket i := by
  simp [gather]

theorem mem_gatherAfter :
    x ∈ gatherAfter n i bucket ↔ ∃ j, i < j ∧ j < n ∧ x ∈ bucket j := by
  simp only [gatherAfter, List.mem_flatMap, List.mem_range'_1]
  constructor
  · intro h
    obtain ⟨j, hj, hx⟩ := h
    exact ⟨j, by omega, by omega, hx⟩
  · intro h
    obtain ⟨j, hlo, hhi, hx⟩ := h
    exact ⟨j, by omega, hx⟩

theorem gather_congr (h : ∀ i < n, bucket' i = bucket i) : gather n bucket' = gather n bucket := by
  simp only [gather, List.flatMap_def]
  congr 1
  apply List.map_congr_left
  intro i hi
  exact h i (List.mem_range.mp hi)

/-- The sequence around bucket `i`. -/
theorem gather_split (hi : i < n) :
    gather n bucket = gather i bucket ++ (bucket i ++ gatherAfter n i bucket) := by
  have hrange : List.range n = List.range i ++ i :: List.range' (i + 1) (n - (i + 1)) := by
    rw [List.range_eq_range', List.range_eq_range', ← List.range'_succ,
      ← Nat.sub_add_comm (by omega : i + 1 ≤ n), Nat.add_sub_add_right]
    have happend := @List.range'_append 0 i (n - i) 1
    rw [Nat.one_mul, Nat.zero_add] at happend
    rw [happend]
    congr 1
    omega
  rw [gather, hrange, List.flatMap_append, List.flatMap_cons]
  rfl

/-- The parts in front of and behind a bucket do not depend on it. -/
theorem gather_update (hi : i < n) (xs : List α) :
    gather n (Function.update bucket i xs) =
      gather i bucket ++ (xs ++ gatherAfter n i bucket) := by
  have hafter : gatherAfter n i (Function.update bucket i xs) = gatherAfter n i bucket := by
    simp only [gatherAfter, List.flatMap_def]
    congr 1
    apply List.map_congr_left
    intro j hj
    rw [List.mem_range'_1] at hj
    exact Function.update_of_ne (by omega) _ _
  rw [gather_split hi, Function.update_self, hafter]
  congr 1
  exact gather_congr fun j hj => Function.update_of_ne (by omega) _ _

theorem gather_eq_nil : gather n bucket = [] ↔ ∀ i < n, bucket i = [] := by
  simp [gather]

/-- An order on the elements that agrees with the buckets. -/
theorem pairwise_gather {R : α → α → Prop} (hin : ∀ i < n, (bucket i).Pairwise R)
    (hacross : ∀ i j, i < j → j < n → ∀ x ∈ bucket i, ∀ y ∈ bucket j, R x y) :
    (gather n bucket).Pairwise R := by
  rw [gather, List.pairwise_flatMap]
  refine ⟨fun i hi => hin i (List.mem_range.mp hi), ?_⟩
  refine List.pairwise_lt_range.imp_of_mem ?_
  intro i j _ hj hij
  exact hacross i j hij (List.mem_range.mp hj)

section Insertion

/-- `x` behind the elements at the front that are ahead of it. -/
def insertBehind (ahead : α → Bool) (x : α) (xs : List α) : List α :=
  xs.takeWhile ahead ++ x :: xs.dropWhile ahead

theorem insertBehind_append {ahead : α → Bool} {front back : List α}
    (hfront : ∀ y ∈ front, ahead y = true) (hback : ∀ y ∈ back, ahead y = false) :
    insertBehind ahead x (front ++ back) = front ++ x :: back := by
  have htake : back.takeWhile ahead = [] := by
    cases back with
    | nil => rfl
    | cons y ys => simp [hback y (by simp)]
  have hdrop : back.dropWhile ahead = back := by
    cases back with
    | nil => rfl
    | cons y ys => simp [hback y (by simp)]
  rw [insertBehind, List.takeWhile_append_of_pos hfront, List.dropWhile_append_of_pos hfront,
    htake, hdrop, List.append_nil]

theorem mem_insertBehind {ahead : α → Bool} {y : α} {xs : List α} :
    y ∈ insertBehind ahead x xs ↔ y = x ∨ y ∈ xs := by
  have hsplit : y ∈ xs ↔ y ∈ xs.takeWhile ahead ∨ y ∈ xs.dropWhile ahead := by
    rw [← List.mem_append, List.takeWhile_append_dropWhile]
  rw [insertBehind, List.mem_append, List.mem_cons, hsplit]
  tauto

/-- In a sorted sequence nothing behind the insertion point is ahead. -/
theorem ahead_of_mem_dropWhile {R : α → α → Prop} {ahead : α → Bool} {xs : List α}
    (hsorted : xs.Pairwise R) (hmono : ∀ a b, R a b → ahead b = true → ahead a = true) {y : α}
    (hy : y ∈ xs.dropWhile ahead) : ahead y = false := by
  induction xs with
  | nil => simp at hy
  | cons a xs ih =>
    obtain ⟨ha, hxs⟩ := List.pairwise_cons.mp hsorted
    by_cases hahead : ahead a = true
    · rw [List.dropWhile_cons_of_pos hahead] at hy
      exact ih hxs hy
    · rw [List.dropWhile_cons_of_neg hahead] at hy
      rcases List.mem_cons.mp hy with rfl | hmem
      · simpa using hahead
      · rw [← Bool.not_eq_true]
        exact fun hy => hahead (hmono a y (ha y hmem) hy)

/-- A relation survives an insertion behind everything that is ahead. -/
theorem pairwise_insertBehind {R S : α → α → Prop} {ahead : α → Bool} {xs : List α}
    (hsorted : xs.Pairwise R) (hmono : ∀ a b, R a b → ahead b = true → ahead a = true)
    (hxs : xs.Pairwise S) (hfront : ∀ y ∈ xs, ahead y = true → S y x)
    (hback : ∀ y ∈ xs, ahead y = false → S x y) : (insertBehind ahead x xs).Pairwise S := by
  have hwhole := hxs
  rw [← List.takeWhile_append_dropWhile (p := ahead) (l := xs), List.pairwise_append] at hwhole
  obtain ⟨htake, hdrop, hcross⟩ := hwhole
  rw [insertBehind, List.pairwise_append, List.pairwise_cons]
  refine ⟨htake, ⟨?_, hdrop⟩, ?_⟩
  · intro y hy
    exact hback y ((List.dropWhile_sublist ahead).subset hy)
      (ahead_of_mem_dropWhile hsorted hmono hy)
  · intro y hy z hz
    rcases List.mem_cons.mp hz with rfl | hz
    · exact hfront y ((List.takeWhile_sublist ahead).subset hy) (List.mem_takeWhile_imp hy)
    · exact hcross y hy z hz

theorem map_insertBehind {β : Type*} {g : α → β} {ahead : α → Bool} {ahead' : β → Bool}
    (h : ∀ y, ahead' (g y) = ahead y) (x : α) (xs : List α) :
    (insertBehind ahead x xs).map g = insertBehind ahead' (g x) (xs.map g) := by
  have hsame : ahead' ∘ g = ahead := funext h
  rw [insertBehind, insertBehind, List.takeWhile_map, List.dropWhile_map, hsame, List.map_append,
    List.map_cons]

end Insertion

end Leka.Buckets
