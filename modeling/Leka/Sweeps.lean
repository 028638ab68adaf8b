import Mathlib.Algebra.BigOperators.Group.List.Basic
import Mathlib.Algebra.Order.Ring.Nat
import Mathlib.Data.List.Basic
import Mathlib.Data.List.TakeWhile
import Mathlib.Tactic.Common

/-!
Filling a demand from a queue of offers. The queue is consumed from the front while the
next offer is acceptable; an offer is used up before the next one is looked at, and only
the last one touched can be left with a smaller size. What is offered, and how the size
of an offer is read and written, is arbitrary.
-/

namespace Leka.Sweeps

/-- The offers used with the amount taken from each, the demand left over and the queue
left behind. -/
structure Swept (α : Type*) where
  fills : List (α × ℕ)
  left : ℕ
  rest : List α

variable {α : Type*} (size : α → ℕ) (resize : α → ℕ → α) (accepts : α → Bool)

def sweep : ℕ → List α → Swept α
  | demand, [] => ⟨[], demand, []⟩
  | demand, x :: xs =>
    if demand = 0 ∨ accepts x = false then ⟨[], demand, x :: xs⟩
    else if demand < size x then ⟨[(x, demand)], 0, resize x (size x - demand) :: xs⟩
    else
      let swept := sweep (demand - size x) xs
      { swept with fills := (x, size x) :: swept.fills }

variable {size resize accepts} {demand : ℕ} {x : α} {xs : List α}

@[simp] theorem sweep_nil : sweep size resize accepts demand [] = ⟨[], demand, []⟩ := rfl

theorem sweep_zero (xs : List α) : sweep size resize accepts 0 xs = ⟨[], 0, xs⟩ := by
  cases xs <;> simp [sweep]

theorem sweep_rejected (hx : accepts x = false) :
    sweep size resize accepts demand (x :: xs) = ⟨[], demand, x :: xs⟩ := by
  simp [sweep, hx]

/-- The demand ends inside the first offer. -/
theorem sweep_partly (hdemand : demand ≠ 0) (hx : accepts x = true) (hlt : demand < size x) :
    sweep size resize accepts demand (x :: xs) =
      ⟨[(x, demand)], 0, resize x (size x - demand) :: xs⟩ := by
  simp [sweep, hdemand, hx, hlt]

/-- The first offer is used up. -/
theorem sweep_full (hdemand : demand ≠ 0) (hx : accepts x = true) (hle : size x ≤ demand) :
    sweep size resize accepts demand (x :: xs) =
      { sweep size resize accepts (demand - size x) xs with
        fills := (x, size x) :: (sweep size resize accepts (demand - size x) xs).fills } := by
  simp [sweep, hdemand, hx, Nat.not_lt.mpr hle]

/-- What one look at the front of the queue comes to. -/
theorem sweep_cases (size : α → ℕ) (resize : α → ℕ → α) (accepts : α → Bool) (demand : ℕ)
    (xs : List α) :
    (sweep size resize accepts demand xs = ⟨[], demand, xs⟩ ∧
        (demand = 0 ∨ xs = [] ∨ ∃ x ys, xs = x :: ys ∧ accepts x = false)) ∨
    (∃ x ys, xs = x :: ys ∧ demand ≠ 0 ∧ accepts x = true ∧ demand < size x) ∨
    ∃ x ys, xs = x :: ys ∧ demand ≠ 0 ∧ accepts x = true ∧ size x ≤ demand := by
  cases xs with
  | nil => exact Or.inl ⟨rfl, Or.inr (Or.inl rfl)⟩
  | cons x ys =>
    by_cases hdemand : demand = 0
    · subst demand
      exact Or.inl ⟨sweep_zero _, Or.inl rfl⟩
    · by_cases hx : accepts x = true
      · right
        by_cases hlt : demand < size x
        · exact Or.inl ⟨x, ys, rfl, hdemand, hx, hlt⟩
        · exact Or.inr ⟨x, ys, rfl, hdemand, hx, by omega⟩
      · rw [Bool.not_eq_true] at hx
        exact Or.inl ⟨sweep_rejected hx, Or.inr (Or.inr ⟨x, ys, rfl, hx⟩)⟩

/-- Nothing of the demand is lost. -/
theorem sum_fills (demand : ℕ) (xs : List α) :
    ((sweep size resize accepts demand xs).fills.map Prod.snd).sum +
      (sweep size resize accepts demand xs).left = demand := by
  induction xs generalizing demand with
  | nil => simp
  | cons x xs ih =>
    rcases sweep_cases size resize accepts demand (x :: xs) with
      ⟨hnone, _⟩ | ⟨_, _, hcons, hdemand, hx, hlt⟩ | ⟨_, _, hcons, hdemand, hx, hle⟩
    · simp [hnone]
    · obtain ⟨rfl, rfl⟩ := List.cons.inj hcons
      simp [sweep_partly hdemand hx hlt]
    · obtain ⟨rfl, rfl⟩ := List.cons.inj hcons
      have hrest := ih (demand - size x)
      simp only [sweep_full hdemand hx hle, List.map_cons, List.sum_cons]
      omega

/-- Each fill uses the next offer of the queue. -/
theorem fills_isPrefix (demand : ℕ) (xs : List α) :
    (sweep size resize accepts demand xs).fills.map Prod.fst =
      xs.take (sweep size resize accepts demand xs).fills.length := by
  induction xs generalizing demand with
  | nil => simp
  | cons x xs ih =>
    rcases sweep_cases size resize accepts demand (x :: xs) with
      ⟨hnone, _⟩ | ⟨_, _, hcons, hdemand, hx, hlt⟩ | ⟨_, _, hcons, hdemand, hx, hle⟩
    · simp [hnone]
    · obtain ⟨rfl, rfl⟩ := List.cons.inj hcons
      simp [sweep_partly hdemand hx hlt]
    · obtain ⟨rfl, rfl⟩ := List.cons.inj hcons
      simp [sweep_full hdemand hx hle, ih]

/-- Fills take a positive amount, within the size of an acceptable offer. -/
theorem fills_amount (hsize : ∀ x ∈ xs, 0 < size x) {fill : α × ℕ}
    (hfill : fill ∈ (sweep size resize accepts demand xs).fills) :
    0 < fill.2 ∧ fill.2 ≤ size fill.1 ∧ accepts fill.1 = true ∧ fill.1 ∈ xs := by
  induction xs generalizing demand with
  | nil => simp at hfill
  | cons x xs ih =>
    rcases sweep_cases size resize accepts demand (x :: xs) with
      ⟨hnone, _⟩ | ⟨_, _, hcons, hdemand, hx, hlt⟩ | ⟨_, _, hcons, hdemand, hx, hle⟩
    · simp [hnone] at hfill
    · obtain ⟨rfl, rfl⟩ := List.cons.inj hcons
      rw [sweep_partly hdemand hx hlt, List.mem_singleton] at hfill
      subst fill
      exact ⟨Nat.pos_of_ne_zero hdemand, hlt.le, hx, by simp⟩
    · obtain ⟨rfl, rfl⟩ := List.cons.inj hcons
      rw [sweep_full hdemand hx hle, List.mem_cons] at hfill
      rcases hfill with rfl | hfill
      · exact ⟨hsize x (by simp), le_refl _, hx, by simp⟩
      · obtain ⟨hpos, hamount, hok, hmem⟩ := ih (fun y hy => hsize y (by simp [hy])) hfill
        exact ⟨hpos, hamount, hok, by simp [hmem]⟩

/-- Demand is left over only in front of an offer that is not acceptable. -/
theorem rest_head {y : α} {ys : List α} (hleft : (sweep size resize accepts demand xs).left ≠ 0)
    (hrest : (sweep size resize accepts demand xs).rest = y :: ys) : accepts y = false := by
  induction xs generalizing demand with
  | nil => simp at hrest
  | cons x xs ih =>
    rcases sweep_cases size resize accepts demand (x :: xs) with
      ⟨hnone, hzero | hnil | ⟨_, _, hcons, hx⟩⟩ | ⟨_, _, hcons, hdemand, hx, hlt⟩ |
      ⟨_, _, hcons, hdemand, hx, hle⟩
    · rw [hnone] at hleft
      exact absurd hzero hleft
    · simp at hnil
    · rw [hnone, hcons] at hrest
      obtain ⟨rfl, rfl⟩ := List.cons.inj hrest
      exact hx
    · obtain ⟨rfl, rfl⟩ := List.cons.inj hcons
      simp [sweep_partly hdemand hx hlt] at hleft
    · obtain ⟨rfl, rfl⟩ := List.cons.inj hcons
      rw [sweep_full hdemand hx hle] at hleft hrest
      exact ih hleft hrest

/-- Whatever resizing keeps is left as it was behind the offers that are used up. -/
theorem rest_sublist {β : Type*} {g : α → β} (hg : ∀ x n, g (resize x n) = g x) (demand : ℕ)
    (xs : List α) :
    ((sweep size resize accepts demand xs).rest.map g).Sublist (xs.map g) := by
  induction xs generalizing demand with
  | nil => simp
  | cons x xs ih =>
    rcases sweep_cases size resize accepts demand (x :: xs) with
      ⟨hnone, _⟩ | ⟨_, _, hcons, hdemand, hx, hlt⟩ | ⟨_, _, hcons, hdemand, hx, hle⟩
    · rw [hnone]
    · obtain ⟨rfl, rfl⟩ := List.cons.inj hcons
      rw [sweep_partly hdemand hx hlt, List.map_cons, hg, List.map_cons]
    · obtain ⟨rfl, rfl⟩ := List.cons.inj hcons
      rw [sweep_full hdemand hx hle, List.map_cons]
      exact (ih (demand - size x)).trans (List.sublist_cons_self _ _)

/-- What the offers of one kind lose is what was taken from them. -/
theorem sum_taken {p : α → Bool} (hp : ∀ x n, p (resize x n) = p x)
    (hsize : ∀ x n, size (resize x n) = n) (demand : ℕ) (xs : List α) :
    ((xs.filter p).map size).sum =
      (((sweep size resize accepts demand xs).rest.filter p).map size).sum +
        (((sweep size resize accepts demand xs).fills.filter fun fill => p fill.1).map
          Prod.snd).sum := by
  induction xs generalizing demand with
  | nil => simp
  | cons x xs ih =>
    rcases sweep_cases size resize accepts demand (x :: xs) with
      ⟨hnone, _⟩ | ⟨y, ys, hcons, hdemand, hy, hlt⟩ | ⟨y, ys, hcons, hdemand, hy, hle⟩
    · simp [hnone]
    · obtain ⟨rfl, rfl⟩ := List.cons.inj hcons
      rw [sweep_partly hdemand hy hlt]
      by_cases hpx : p x = true
      · simp only [List.filter_cons, hp, hpx, if_true, List.map_cons, List.sum_cons, hsize,
          List.filter_nil, List.map_nil, List.sum_nil]
        omega
      · simp [hp, hpx]
    · obtain ⟨rfl, rfl⟩ := List.cons.inj hcons
      rw [sweep_full hdemand hy hle]
      have hrest := ih (demand - size x)
      by_cases hpx : p x = true
      · simp only [List.filter_cons, hpx, if_true, List.map_cons, List.sum_cons]
        omega
      · simpa [hpx] using hrest

/-- The queue left behind starts at the offer behind the last fill or, when the demand ended
inside that offer, at the offer itself. -/
theorem rest_drop {β : Type*} {g : α → β} (hg : ∀ x n, g (resize x n) = g x) (demand : ℕ)
    (xs : List α) :
    (sweep size resize accepts demand xs).rest.map g =
        (xs.drop (sweep size resize accepts demand xs).fills.length).map g ∨
      ((sweep size resize accepts demand xs).left = 0 ∧
        (sweep size resize accepts demand xs).rest.map g =
          (xs.drop ((sweep size resize accepts demand xs).fills.length - 1)).map g) := by
  induction xs generalizing demand with
  | nil => exact Or.inl rfl
  | cons x xs ih =>
    rcases sweep_cases size resize accepts demand (x :: xs) with
      ⟨hnone, _⟩ | ⟨_, _, hcons, hdemand, hx, hlt⟩ | ⟨_, _, hcons, hdemand, hx, hle⟩
    · left
      rw [hnone]
      rfl
    · obtain ⟨rfl, rfl⟩ := List.cons.inj hcons
      right
      rw [sweep_partly hdemand hx hlt]
      refine ⟨rfl, ?_⟩
      rw [List.map_cons, hg]
      rfl
    · obtain ⟨rfl, rfl⟩ := List.cons.inj hcons
      rw [sweep_full hdemand hx hle]
      rcases ih (demand - size x) with hwhole | ⟨hleft, hinside⟩
      · left
        rw [hwhole, List.length_cons, List.drop_succ_cons]
      · cases hfills : (sweep size resize accepts (demand - size x) xs).fills with
        | nil =>
          left
          rw [hinside, hfills]
          rfl
        | cons fill fills =>
          right
          refine ⟨hleft, ?_⟩
          rw [hinside, hfills, List.length_cons, List.length_cons, Nat.add_sub_cancel,
            Nat.add_sub_cancel, List.length_cons, List.drop_succ_cons]

section Splitting

variable (hsize : ∀ x n, size (resize x n) = n)
  (hresize : ∀ x m n, resize (resize x m) n = resize x n)
  (haccepts : ∀ x n, accepts (resize x n) = accepts x)

include hsize hresize haccepts

/-- A demand filled in two parts leaves the queue that the whole leaves. The second part goes
on where the first one ended, possibly inside an offer. -/
theorem rest_split (first second : ℕ) (xs : List α) :
    (sweep size resize accepts (first + second) xs).rest =
      (sweep size resize accepts second (sweep size resize accepts first xs).rest).rest := by
  induction xs generalizing first with
  | nil => rfl
  | cons x xs ih =>
    rcases sweep_cases size resize accepts first (x :: xs) with
      ⟨hnone, hzero | hnil | ⟨_, _, hcons, hx⟩⟩ | ⟨_, _, hcons, hfirst, hx, hlt⟩ |
      ⟨_, _, hcons, hfirst, hx, hle⟩
    · rw [hnone, hzero, Nat.zero_add]
    · simp at hnil
    · obtain ⟨rfl, rfl⟩ := List.cons.inj hcons
      rw [hnone, sweep_rejected hx, sweep_rejected hx]
    · obtain ⟨rfl, rfl⟩ := List.cons.inj hcons
      rw [sweep_partly hfirst hx hlt]
      have hx' : accepts (resize x (size x - first)) = true := (haccepts _ _).trans hx
      have hsize' := hsize x (size x - first)
      by_cases hsecond : second = 0
      · rw [hsecond, Nat.add_zero, sweep_zero, sweep_partly hfirst hx hlt]
      by_cases hinside : first + second < size x
      · rw [sweep_partly (by omega) hx hinside, sweep_partly hsecond hx' (by omega), hsize',
          hresize, Nat.sub_sub]
      · rw [sweep_full (by omega) hx (by omega), sweep_full hsecond hx' (by omega), hsize']
        have hrest : first + second - size x = second - (size x - first) := by omega
        rw [hrest]
    · obtain ⟨rfl, rfl⟩ := List.cons.inj hcons
      have hsum : first + second - size x = first - size x + second := by omega
      rw [sweep_full (by omega) hx (by omega), sweep_full hfirst hx hle, hsum]
      exact ih (first - size x)

/-- The two parts together take from the offers of one kind what the whole takes. -/
theorem taken_split {p : α → Bool} (hp : ∀ x n, p (resize x n) = p x) (first second : ℕ)
    (xs : List α) :
    (((sweep size resize accepts (first + second) xs).fills.filter fun fill => p fill.1).map
        Prod.snd).sum =
      (((sweep size resize accepts first xs).fills.filter fun fill => p fill.1).map Prod.snd).sum +
        (((sweep size resize accepts second (sweep size resize accepts first xs).rest).fills.filter
          fun fill => p fill.1).map Prod.snd).sum := by
  have hwhole := @sum_taken _ size resize accepts p hp hsize (first + second) xs
  have hfirst := @sum_taken _ size resize accepts p hp hsize first xs
  have hsecond := @sum_taken _ size resize accepts p hp hsize second
    (sweep size resize accepts first xs).rest
  rw [rest_split hsize hresize haccepts] at hwhole
  omega

theorem left_split (first second : ℕ) (xs : List α) :
    (sweep size resize accepts (first + second) xs).left =
      (sweep size resize accepts first xs).left +
        (sweep size resize accepts second (sweep size resize accepts first xs).rest).left := by
  have htaken := taken_split hsize hresize haccepts (p := fun _ => true) (fun _ _ => rfl) first
    second xs
  simp only [List.filter_true] at htaken
  have hwhole := @sum_fills _ size resize accepts (first + second) xs
  have hfirst := @sum_fills _ size resize accepts first xs
  have hsecond := @sum_fills _ size resize accepts second (sweep size resize accepts first xs).rest
  omega

end Splitting

section Images

variable {β : Type*} {size' : β → ℕ} {resize' : β → ℕ → β} {accepts' : β → Bool} {g : α → β}

/-- A picture of the offers is swept as the offers are. -/
theorem sweep_map (hsize : ∀ x, size' (g x) = size x)
    (hresize : ∀ x n, resize' (g x) n = g (resize x n))
    (haccepts : ∀ x, accepts' (g x) = accepts x) (demand : ℕ) (xs : List α) :
    sweep size' resize' accepts' demand (xs.map g) =
      ⟨(sweep size resize accepts demand xs).fills.map (Prod.map g id),
        (sweep size resize accepts demand xs).left,
        (sweep size resize accepts demand xs).rest.map g⟩ := by
  induction xs generalizing demand with
  | nil => rfl
  | cons x xs ih =>
    rw [List.map_cons]
    rcases sweep_cases size resize accepts demand (x :: xs) with
      ⟨hnone, hzero | hnil | ⟨_, _, hcons, hx⟩⟩ | ⟨_, _, hcons, hdemand, hx, hlt⟩ |
      ⟨_, _, hcons, hdemand, hx, hle⟩
    · rw [hnone, hzero, sweep_zero]
      rfl
    · simp at hnil
    · obtain ⟨rfl, rfl⟩ := List.cons.inj hcons
      rw [hnone, sweep_rejected ((haccepts x).trans hx)]
      rfl
    · obtain ⟨rfl, rfl⟩ := List.cons.inj hcons
      rw [sweep_partly hdemand hx hlt,
        sweep_partly hdemand ((haccepts x).trans hx) (by rwa [hsize]), hsize, hresize]
      rfl
    · obtain ⟨rfl, rfl⟩ := List.cons.inj hcons
      rw [sweep_full hdemand hx hle,
        sweep_full hdemand ((haccepts x).trans hx) (by rwa [hsize]), hsize, ih]
      rfl

end Images

section Uses

/-- What is left of a queue when an amount is taken from its first offer. -/
def useFront (size : α → ℕ) (resize : α → ℕ → α) (amount : ℕ) : List α → List α
  | [] => []
  | x :: xs => if amount < size x then resize x (size x - amount) :: xs else xs

/-- Amounts are taken one after the other, each from the offer that is then the first. -/
inductive Uses (size : α → ℕ) (resize : α → ℕ → α) : List α → List (α × ℕ) → List α → Prop
  | nil {xs : List α} : Uses size resize xs [] xs
  | cons {x : α} {amount : ℕ} {xs ys : List α} {uses : List (α × ℕ)} (hpos : amount ≠ 0)
      (hle : amount ≤ size x)
      (hrest : Uses size resize (useFront size resize amount (x :: xs)) uses ys) :
      Uses size resize (x :: xs) ((x, amount) :: uses) ys

theorem sweep_front (hpos : demand ≠ 0) (hx : accepts x = true) (hle : demand ≤ size x) :
    sweep size resize accepts demand (x :: xs) =
      ⟨[(x, demand)], 0, useFront size resize demand (x :: xs)⟩ := by
  rw [useFront]
  by_cases hlt : demand < size x
  · rw [sweep_partly hpos hx hlt, if_pos hlt]
  · obtain rfl : demand = size x := le_antisymm hle (Nat.not_lt.mp hlt)
    rw [sweep_full hpos hx le_rfl, Nat.sub_self, sweep_zero, if_neg hlt]

/-- Amounts that are taken one by one are one demand for their sum. -/
theorem Uses.sweep_eq {ys : List α} {uses : List (α × ℕ)} (h : Uses size resize xs uses ys)
    (hsize : ∀ x n, size (resize x n) = n)
    (hresize : ∀ x m n, resize (resize x m) n = resize x n)
    (haccepts : ∀ x n, accepts (resize x n) = accepts x)
    (huses : ∀ use ∈ uses, accepts use.1 = true) :
    (sweep size resize accepts (uses.map Prod.snd).sum xs).left = 0 ∧
      (sweep size resize accepts (uses.map Prod.snd).sum xs).rest = ys := by
  induction h with
  | nil =>
    rw [List.map_nil, List.sum_nil, sweep_zero]
    exact ⟨rfl, rfl⟩
  | cons hpos hle _ ih =>
    obtain ⟨hx, hothers⟩ := List.forall_mem_cons.mp huses
    obtain ⟨hleft, hrest⟩ := ih hothers
    rw [List.map_cons, List.sum_cons, left_split hsize hresize haccepts,
      rest_split hsize hresize haccepts, sweep_front hpos hx hle]
    exact ⟨(Nat.zero_add _).trans hleft, hrest⟩

theorem Uses.eq_of_nil {ys : List α} (h : Uses size resize xs [] ys) : ys = xs := by
  cases h
  rfl

theorem Uses.sum_pos {ys : List α} {uses : List (α × ℕ)} (h : Uses size resize xs uses ys)
    (huses : uses ≠ []) : (uses.map Prod.snd).sum ≠ 0 := by
  cases h with
  | nil => exact absurd rfl huses
  | cons hpos _ _ =>
    rw [List.map_cons, List.sum_cons]
    omega

theorem useFront_sublist {β : Type*} {g : α → β} (hg : ∀ x n, g (resize x n) = g x) (amount : ℕ)
    (xs : List α) : ((useFront size resize amount xs).map g).Sublist (xs.map g) := by
  cases xs with
  | nil => exact .refl _
  | cons x xs =>
    rw [useFront]
    split_ifs
    · rw [List.map_cons, List.map_cons, hg]
    · rw [List.map_cons]
      exact List.sublist_cons_self _ _

/-- Whatever resizing keeps is that of an offer in the queue. -/
theorem Uses.picture {β : Type*} {g : α → β} {ys : List α} {uses : List (α × ℕ)}
    (h : Uses size resize xs uses ys) (hg : ∀ x n, g (resize x n) = g x) :
    (ys.map g).Sublist (xs.map g) ∧ ∀ use ∈ uses, g use.1 ∈ xs.map g := by
  induction h with
  | nil => exact ⟨.refl _, by simp⟩
  | @cons x amount xs ys uses _ _ _ ih =>
    have hfront := @useFront_sublist _ size resize _ _ hg amount (x :: xs)
    refine ⟨ih.1.trans hfront, List.forall_mem_cons.mpr ⟨by simp, fun use huse => ?_⟩⟩
    exact hfront.subset (ih.2 use huse)

end Uses

end Leka.Sweeps
