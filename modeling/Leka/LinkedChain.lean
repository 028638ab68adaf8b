import Mathlib.Data.List.Induction
import Mathlib.Data.List.Nodup
import Mathlib.Logic.Function.Basic
import Mathlib.Tactic.Common

/-!
Doubly linked chains whose links live inside the nodes. A chain is read off two link
functions; appending, unlinking and the two walks are stated for an arbitrary node type
with a distinguished null. The list of nodes is always explicit, so each operation on
the links is matched with one operation on that list.
-/

namespace Leka.LinkedChain

variable {P : Type*}

/-- The nodes of `xs` are linked in order, between `left` and `right`. -/
def Linked (next prev : P → P) : P → List P → P → Prop
  | _, [], _ => True
  | left, x :: xs, right =>
      prev x = left ∧ next x = xs.headD right ∧ Linked next prev x xs right

/-- Following `step` from a node until null visits exactly the listed nodes. -/
inductive Walks (step : P → P) (null : P) : P → List P → Prop
  | stop : Walks step null null []
  | visit {p : P} {xs : List P} (hp : p ≠ null) (h : Walks step null (step p) xs) :
      Walks step null p (p :: xs)

/-- The first `n` nodes met when following `step`. -/
def walk (step : P → P) : P → ℕ → List P
  | _, 0 => []
  | p, n + 1 => p :: walk step (step p) n

/-- A walk is determined by its starting point. -/
theorem Walks.unique {step : P → P} {null p : P} {xs ys : List P}
    (hx : Walks step null p xs) (hy : Walks step null p ys) : xs = ys := by
  induction hx generalizing ys with
  | stop =>
    cases hy with
    | stop => rfl
    | visit hp _ => exact absurd rfl hp
  | visit hp _ ih =>
    cases hy with
    | stop => exact absurd rfl hp
    | visit _ h => rw [ih h]

/-- Steps from nodes that are not visited do not matter. -/
theorem Walks.congr {step step' : P → P} {null p : P} {xs : List P}
    (h : Walks step null p xs) (heq : ∀ x ∈ xs, step' x = step x) :
    Walks step' null p xs := by
  induction h with
  | stop => exact Walks.stop
  | visit hp _ ih =>
    refine Walks.visit hp ?_
    rw [heq _ (by simp)]
    exact ih (fun x hx => heq x (by simp [hx]))

section Chains

variable {next prev next' prev' : P → P} {left right x : P} {xs ys : List P}

theorem headD_append (xs ys : List P) (r : P) :
    (xs ++ ys).headD r = xs.headD (ys.headD r) := by
  cases xs <;> rfl

theorem getLastD_append (xs ys : List P) (l : P) :
    (xs ++ ys).getLastD l = ys.getLastD (xs.getLastD l) := by
  induction xs generalizing l with
  | nil => rfl
  | cons x xs ih => simpa only [List.cons_append, List.getLastD_cons] using ih x

theorem linked_append :
    Linked next prev left (xs ++ ys) right ↔
      Linked next prev left xs (ys.headD right) ∧
        Linked next prev (xs.getLastD left) ys right := by
  induction xs generalizing left with
  | nil => simp [Linked]
  | cons x xs ih =>
    simp only [List.cons_append, Linked, List.getLastD_cons, headD_append, ih, and_assoc]

/-- Links of nodes off the chain do not matter. -/
theorem Linked.congr (h : Linked next prev left xs right)
    (hn : ∀ x ∈ xs, next' x = next x) (hp : ∀ x ∈ xs, prev' x = prev x) :
    Linked next' prev' left xs right := by
  induction xs generalizing left with
  | nil => trivial
  | cons x xs ih =>
    obtain ⟨hleft, hnext, hrest⟩ := h
    refine ⟨(hp x (by simp)).trans hleft, (hn x (by simp)).trans hnext, ?_⟩
    exact ih hrest (fun y hy => hn y (by simp [hy])) (fun y hy => hp y (by simp [hy]))

/-- Reading a chain from its other end. -/
theorem linked_reverse :
    Linked prev next right xs.reverse left ↔ Linked next prev left xs right := by
  induction xs generalizing left with
  | nil => simp [Linked]
  | cons x xs ih =>
    have hhead : ∀ r, xs.reverse.getLastD r = xs.headD r := by
      intro r
      cases xs <;> simp
    simp only [List.reverse_cons, linked_append, Linked, hhead, ih, List.headD_cons,
      List.headD_nil, and_true]
    tauto

theorem headD_reverse (xs : List P) (r : P) : xs.reverse.headD r = xs.getLastD r := by
  induction xs using List.reverseRecOn with
  | nil => rfl
  | append_singleton xs x _ => simp

/-- Walking forward from the head visits the chain. -/
theorem Linked.walks {null : P} (h : Linked next prev left xs null)
    (hnull : null ∉ xs) : Walks next null (xs.headD null) xs := by
  induction xs generalizing left with
  | nil => exact Walks.stop
  | cons x xs ih =>
    obtain ⟨_, hnext, hrest⟩ := h
    have hx : x ≠ null := fun heq => hnull (by simp [heq])
    refine Walks.visit hx ?_
    rw [List.headD_cons, hnext]
    exact ih hrest (fun hmem => hnull (by simp [hmem]))

/-- Walking backward from the tail visits the chain in reverse. -/
theorem Linked.walks_back {null : P} (h : Linked next prev null xs right)
    (hnull : null ∉ xs) : Walks prev null (xs.getLastD null) xs.reverse := by
  rw [← headD_reverse]
  exact (linked_reverse.mpr h).walks (by simpa using hnull)

theorem Linked.walk_eq (h : Linked next prev left xs right) :
    walk next (xs.headD right) xs.length = xs := by
  induction xs generalizing left with
  | nil => rfl
  | cons x xs ih =>
    obtain ⟨_, hnext, hrest⟩ := h
    simp only [List.headD_cons, List.length_cons, walk, hnext, ih hrest]

variable [DecidableEq P]

/-- Redirecting the last node's forward link moves the right end of the chain. -/
theorem Linked.set_right {newRight : P} (h : Linked next prev left xs right)
    (hnd : xs.Nodup) (hp : ∀ y ∈ xs, prev' y = prev y)
    (hn : ∀ y ∈ xs, next' y = if y = xs.getLastD left then newRight else next y) :
    Linked next' prev' left xs newRight := by
  induction xs generalizing left with
  | nil => trivial
  | cons x xs ih =>
    obtain ⟨hleft, hnext, hrest⟩ := h
    obtain ⟨hx, hnd'⟩ := List.nodup_cons.mp hnd
    simp only [List.getLastD_cons] at hn
    refine ⟨(hp x (by simp)).trans hleft, ?_, ?_⟩
    · rw [hn x (by simp)]
      cases xs with
      | nil => simp
      | cons y ys =>
        have hmem : (y :: ys).getLastD x ∈ y :: ys := by
          rw [List.getLastD_cons]
          exact List.getLastD_mem_cons
        have hne : x ≠ (y :: ys).getLastD x := fun heq => hx (heq ▸ hmem)
        rw [ite_cond_eq_false _ _ (eq_false hne), hnext]
        rfl
    · refine ih hrest hnd' (fun y hy => hp y (by simp [hy])) ?_
      intro y hy
      exact hn y (by simp [hy])

/-- Redirecting the first node's backward link moves the left end of the chain. -/
theorem Linked.set_left {newLeft : P} (h : Linked next prev left xs right)
    (hnd : xs.Nodup) (hn : ∀ y ∈ xs, next' y = next y)
    (hp : ∀ y ∈ xs, prev' y = if y = xs.headD right then newLeft else prev y) :
    Linked next' prev' newLeft xs right := by
  apply linked_reverse.mp
  have hrev := linked_reverse.mpr h
  refine hrev.set_right (by simpa using hnd) (by simpa using hn) ?_
  intro y hy
  have hlast : xs.reverse.getLastD right = xs.headD right := by
    rw [← headD_reverse, List.reverse_reverse]
  rw [hlast]
  exact hp y (by simpa using hy)

section Ends

variable {null : P}

/-- Appending a node behind the tail. -/
theorem Linked.append (h : Linked next prev null xs null) (hnd : xs.Nodup)
    (hxn : next' x = null) (hxp : prev' x = xs.getLastD null)
    (hn : ∀ y ∈ xs, next' y = if y = xs.getLastD null then x else next y)
    (hp : ∀ y ∈ xs, prev' y = prev y) :
    Linked next' prev' null (xs ++ [x]) null := by
  apply linked_append.mpr
  exact ⟨h.set_right hnd hp hn, hxp, hxn, trivial⟩

/-- Putting a node in front of the head. -/
theorem Linked.push (h : Linked next prev null xs null) (hnd : xs.Nodup)
    (hxn : next' x = xs.headD null) (hxp : prev' x = null)
    (hn : ∀ y ∈ xs, next' y = next y)
    (hp : ∀ y ∈ xs, prev' y = if y = xs.headD null then x else prev y) :
    Linked next' prev' null (x :: xs) null :=
  ⟨hxp, hxn, h.set_left hnd hn hp⟩

/-- Unlinking a node wherever it stands: its two neighbours are joined. -/
theorem Linked.unlink (h : Linked next prev null (xs ++ x :: ys) null)
    (hnd : (xs ++ x :: ys).Nodup) (hnull : null ∉ xs ++ x :: ys)
    (hn : ∀ y ∈ xs ++ ys, next' y = if y = prev x then next x else next y)
    (hp : ∀ y ∈ xs ++ ys, prev' y = if y = next x then prev x else prev y) :
    Linked next' prev' null (xs ++ ys) null := by
  obtain ⟨hfront, hxp, hxn, hback⟩ := linked_append.mp h
  obtain ⟨hndx, hndxy, hdisj⟩ := List.nodup_append.mp hnd
  obtain ⟨_, hndy⟩ := List.nodup_cons.mp hndxy
  rw [hxp, hxn] at hn hp
  apply linked_append.mpr
  constructor
  · refine hfront.set_right hndx ?_ (fun y hy => hn y (by simp [hy]))
    intro y hy
    have hne : y ≠ ys.headD null := by
      cases ys with
      | nil =>
        rintro rfl
        exact hnull (by simp [hy])
      | cons z zs => exact hdisj y hy z (by simp)
    rw [hp y (by simp [hy]), ite_cond_eq_false _ _ (eq_false hne)]
  · refine hback.set_left hndy ?_ (fun y hy => hp y (by simp [hy]))
    intro y hy
    have hne : y ≠ xs.getLastD null := by
      intro heq
      rcases List.getLastD_mem_cons (l := xs) (a := null) with hmem
      rw [← heq] at hmem
      rcases List.mem_cons.mp hmem with rfl | hmem
      · exact hnull (by simp [hy])
      · exact hdisj y hmem y (by simp [hy]) rfl
    rw [hn y (by simp [hy]), ite_cond_eq_false _ _ (eq_false hne)]

end Ends

end Chains

end Leka.LinkedChain
