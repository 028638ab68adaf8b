import Mathlib.Data.Finset.Card
import Mathlib.Data.Finset.Range
import Mathlib.Data.Set.Card
import Mathlib.Logic.Function.Basic
import Mathlib.Tactic.Common
import Mathlib.Tactic.SplitIfs

/-!
Linear probing with backward-shift deletion, for an arbitrary home slot per key.
A table is a map from slot numbers below `n` to optional entries. It is sound when no
empty slot stands between the home of a key and the slot that holds it, going round
the table; `Shifting` is the same condition while a deletion is closing its hole.
-/

namespace Leka.ProbeTable

/-- How many steps forward lead from slot `i` to slot `j` in a ring of `n` slots. -/
def gap (n i j : ℕ) : ℕ := if i ≤ j then j - i else j + n - i

def after (n i : ℕ) : ℕ := if i + 1 = n then 0 else i + 1

section Ring

variable {n h i j s v : ℕ}

theorem after_lt (hi : i < n) : after n i < n := by
  unfold after
  split_ifs <;> omega

theorem gap_lt (hj : j < n) : gap n i j < n := by
  unfold gap
  split_ifs <;> omega

theorem gap_self (n i : ℕ) : gap n i i = 0 := by simp [gap]

theorem gap_pos (hi : i < n) (hne : i ≠ j) : 0 < gap n i j := by
  unfold gap
  split_ifs <;> omega

theorem gap_inj (hh : h < n) (hi : i < n) (hj : j < n) (heq : gap n h i = gap n h j) :
    i = j := by
  unfold gap at heq
  split_ifs at heq <;> omega

/-- One step forward adds one, unless it closes the ring. -/
theorem gap_after (hh : h < n) (hne : after n i ≠ h) :
    gap n h (after n i) = gap n h i + 1 := by
  unfold gap after at *
  split_ifs at * <;> omega

/-- The ring is not closed before a slot further on. -/
theorem after_ne (hh : h < n) (hs : s < n) (hlt : gap n h i < gap n h s) :
    after n i ≠ h := by
  unfold gap after at *
  split_ifs at * <;> omega

theorem gap_after_self (hn : 1 < n) : gap n i (after n i) = 1 := by
  unfold gap after
  split_ifs <;> omega

/-- Slots met in the order `h`, `v`, `s`, `i`. -/
theorem gap_between (hh : h < n) (hv : v < n) (hs : s < n) (hi : i < n)
    (hvi : gap n h v < gap n h i) (hsi : gap n v s < gap n v i) :
    gap n h s < gap n h i := by
  unfold gap at *
  split_ifs at * <;> omega

/-- A home outside the stretch from `v` (excluded) to `s` meets `v` before `s`. -/
theorem gap_outside (hh : h < n) (hv : v < n) (hs : s < n) (hvs : v ≠ s)
    (hout : ¬ (0 < gap n v h ∧ gap n v h ≤ gap n v s)) : gap n h v < gap n h s := by
  unfold gap at *
  split_ifs at * <;> omega

/-- A home inside that stretch never meets `v` on the way to `s`. -/
theorem gap_inside (hh : h < n) (hs : s < n)
    (hin : 0 < gap n v h ∧ gap n v h ≤ gap n v s) : gap n h s ≤ gap n h v := by
  unfold gap at *
  split_ifs at * <;> omega

end Ring

variable {κ ν : Type*}

/-- The entry for `k` is `v`. -/
def Holds (n : ℕ) (t : ℕ → Option (κ × ν)) (k : κ) (v : ν) : Prop :=
  ∃ i < n, t i = some (k, v)

structure Sound (n : ℕ) (home : κ → ℕ) (t : ℕ → Option (κ × ν)) : Prop where
  reach : ∀ i k v, i < n → t i = some (k, v) →
    ∀ j < n, gap n (home k) j < gap n (home k) i → t j ≠ none
  unique : ∀ i j k v w, i < n → j < n → t i = some (k, v) → t j = some (k, w) → i = j

variable {n : ℕ} {home : κ → ℕ} {t : ℕ → Option (κ × ν)}

/-- Every slot from the home of `k` up to `i` is taken by another key. -/
def Passed (n : ℕ) (home : κ → ℕ) (t : ℕ → Option (κ × ν)) (k : κ) (i : ℕ) : Prop :=
  ∀ j < n, gap n (home k) j < gap n (home k) i → ∃ k' v', t j = some (k', v') ∧ k' ≠ k

theorem passed_home (k : κ) : Passed n home t k (home k) := by
  intro j _ hj
  rw [gap_self] at hj
  omega

theorem Passed.step {k : κ} {i : ℕ} (hp : Passed n home t k i) (hhome : ∀ k, home k < n)
    (hi : i < n) (hne : after n i ≠ home k)
    (hother : ∃ k' v', t i = some (k', v') ∧ k' ≠ k) : Passed n home t k (after n i) := by
  intro j hj hlt
  rw [gap_after (hhome k) hne] at hlt
  by_cases heq : gap n (home k) j = gap n (home k) i
  · rwa [gap_inj (hhome k) hj hi heq]
  · exact hp j hj (by omega)

namespace Sound

theorem functional (hs : Sound n home t) {k : κ} {v w : ν}
    (hv : Holds n t k v) (hw : Holds n t k w) : v = w := by
  obtain ⟨i, hi, hiv⟩ := hv
  obtain ⟨j, hj, hjw⟩ := hw
  have hij := hs.unique i j k v w hi hj hiv hjw
  rw [hij, hjw] at hiv
  simpa using hiv.symm

/-- An empty slot reached from the home of `k` past other keys shows `k` absent. -/
theorem absent (hs : Sound n home t) (hhome : ∀ k, home k < n) {k : κ} {i : ℕ} (hi : i < n)
    (hp : Passed n home t k i) (hempty : t i = none) (v : ν) : ¬ Holds n t k v := by
  rintro ⟨j, hj, hjk⟩
  rcases Nat.lt_trichotomy (gap n (home k) j) (gap n (home k) i) with hlt | heq | hgt
  · obtain ⟨k', v', hj', hne⟩ := hp j hj hlt
    rw [hjk] at hj'
    exact hne (by simpa using (congrArg (Option.map Prod.fst) hj').symm)
  · rw [gap_inj (hhome k) hj hi heq, hempty] at hjk
    simp at hjk
  · exact hs.reach j k v hj hjk i hi hgt hempty

theorem insert (hs : Sound n home t) (hhome : ∀ k, home k < n) {k : κ} {i : ℕ} (hi : i < n)
    (hp : Passed n home t k i) (hempty : t i = none) (v : ν) :
    Sound n home (Function.update t i (some (k, v))) where
  reach := by
    intro a k' v' ha hak j hj hlt
    by_cases hji : j = i
    · subst j
      simp
    · rw [Function.update_of_ne hji]
      by_cases hai : a = i
      · subst a
        simp only [Function.update_self, Option.some.injEq, Prod.mk.injEq] at hak
        obtain ⟨rfl, rfl⟩ := hak
        obtain ⟨_, _, hjk, _⟩ := hp j hj hlt
        simp [hjk]
      · rw [Function.update_of_ne hai] at hak
        exact hs.reach a k' v' ha hak j hj hlt
  unique := by
    intro a b k' v' w' ha hb hak hbk
    have habsent := hs.absent hhome hi hp hempty
    by_cases hai : a = i <;> by_cases hbi : b = i
    · rw [hai, hbi]
    · subst a
      rw [Function.update_of_ne hbi] at hbk
      simp only [Function.update_self, Option.some.injEq, Prod.mk.injEq] at hak
      obtain ⟨rfl, rfl⟩ := hak
      exact absurd ⟨b, hb, hbk⟩ (habsent w')
    · subst b
      rw [Function.update_of_ne hai] at hak
      simp only [Function.update_self, Option.some.injEq, Prod.mk.injEq] at hbk
      obtain ⟨rfl, rfl⟩ := hbk
      exact absurd ⟨a, ha, hak⟩ (habsent v')
    · rw [Function.update_of_ne hai] at hak
      rw [Function.update_of_ne hbi] at hbk
      exact hs.unique a b k' v' w' ha hb hak hbk

end Sound

/-- Inserting at an empty slot adds one entry and keeps the others. -/
theorem holds_insert {i : ℕ} (hi : i < n) (hempty : t i = none) {k k' : κ} {v v' : ν} :
    Holds n (Function.update t i (some (k, v))) k' v' ↔
      (k' = k ∧ v' = v) ∨ Holds n t k' v' := by
  constructor
  · rintro ⟨j, hj, hjk⟩
    by_cases hji : j = i
    · subst j
      simp only [Function.update_self, Option.some.injEq, Prod.mk.injEq] at hjk
      exact Or.inl ⟨hjk.1.symm, hjk.2.symm⟩
    · rw [Function.update_of_ne hji] at hjk
      exact Or.inr ⟨j, hj, hjk⟩
  · rintro (⟨rfl, rfl⟩ | ⟨j, hj, hjk⟩)
    · exact ⟨i, hi, by simp⟩
    · have hji : j ≠ i := by
        rintro rfl
        simp [hempty] at hjk
      exact ⟨j, hj, by rwa [Function.update_of_ne hji]⟩

/-- Clearing the slot of `k` removes its entry and keeps the others. -/
theorem holds_clear (hs : Sound n home t) {i : ℕ} (hi : i < n) {k : κ} {v : ν}
    (hik : t i = some (k, v)) {k' : κ} {v' : ν} :
    Holds n (Function.update t i none) k' v' ↔ k' ≠ k ∧ Holds n t k' v' := by
  constructor
  · rintro ⟨j, hj, hjk⟩
    have hji : j ≠ i := by
      rintro rfl
      simp at hjk
    rw [Function.update_of_ne hji] at hjk
    refine ⟨?_, j, hj, hjk⟩
    rintro rfl
    exact hji (hs.unique j i k' v' v hj hi hjk hik)
  · rintro ⟨hne, j, hj, hjk⟩
    have hji : j ≠ i := by
      rintro rfl
      rw [hik] at hjk
      exact hne (by simpa using (congrArg (Option.map Prod.fst) hjk).symm)
    exact ⟨j, hj, by rwa [Function.update_of_ne hji]⟩

section Load

/-- The number of taken slots. -/
def load (n : ℕ) (t : ℕ → Option (κ × ν)) : ℕ :=
  ((Finset.range n).filter (fun i => (t i).isSome)).card

theorem load_le (n : ℕ) (t : ℕ → Option (κ × ν)) : load n t ≤ n := by
  have hle := Finset.card_filter_le (Finset.range n) (fun i => (t i).isSome)
  simpa [load] using hle

theorem load_fill {i : ℕ} (hi : i < n) (hempty : t i = none) (e : κ × ν) :
    load n (Function.update t i (some e)) = load n t + 1 := by
  have hinsert : (Finset.range n).filter (fun j => (Function.update t i (some e) j).isSome) =
      insert i ((Finset.range n).filter (fun j => (t j).isSome)) := by
    ext j
    by_cases hji : j = i
    · simp [hji, hi]
    · simp [hji]
  rw [load, hinsert, Finset.card_insert_of_notMem (by simp [hempty]), load]

theorem load_clear {i : ℕ} (hi : i < n) (hfull : t i ≠ none) :
    load n t = load n (Function.update t i none) + 1 := by
  obtain ⟨e, he⟩ := Option.ne_none_iff_exists'.mp hfull
  have hback : Function.update (Function.update t i none) i (some e) = t := by
    rw [Function.update_idem, ← he, Function.update_eq_self]
  conv_lhs => rw [← hback]
  exact load_fill hi (by simp) e

theorem load_move {vacated scan : ℕ} (hv : vacated < n) (hscan : scan < n)
    (hole : t vacated = none) (hfull : t scan ≠ none) :
    load n (Function.update (Function.update t vacated (t scan)) scan none) = load n t := by
  obtain ⟨e, he⟩ := Option.ne_none_iff_exists'.mp hfull
  have hne : scan ≠ vacated := by
    intro heq
    rw [heq] at hfull
    exact hfull hole
  have hclear := load_clear (t := Function.update t vacated (some e)) hscan
    (by rw [Function.update_of_ne hne]; exact hfull)
  rw [load_fill hv hole] at hclear
  rw [he]
  omega

theorem exists_empty (hlt : load n t < n) : ∃ i < n, t i = none := by
  by_contra hnone
  have hall : (Finset.range n).filter (fun i => (t i).isSome) = Finset.range n := by
    apply Finset.filter_true_of_mem
    intro i hi
    cases hti : t i with
    | none => exact absurd ⟨i, Finset.mem_range.mp hi, hti⟩ hnone
    | some e => rfl
  rw [load, hall, Finset.card_range] at hlt
  omega

/-- Keys are unique, so the taken slots are counted by the keys held. -/
theorem ncard_keys (hs : Sound n home t) : {k | ∃ v, Holds n t k v}.ncard = load n t := by
  have hsome : ∀ i ∈ ((Finset.range n).filter (fun i => (t i).isSome) : Set ℕ),
      i < n ∧ (t i).isSome := by
    intro i hi
    simpa using hi
  rw [load, ← Set.ncard_coe_finset]
  symm
  refine Set.ncard_congr (fun i hi => ((t i).get (hsome i hi).2).1) ?_ ?_ ?_
  · intro i hi
    exact ⟨_, i, (hsome i hi).1, (Option.some_get (hsome i hi).2).symm⟩
  · intro i j hi hj heq
    obtain ⟨⟨ki, vi⟩, hti⟩ := Option.isSome_iff_exists.mp (hsome i hi).2
    obtain ⟨⟨kj, vj⟩, htj⟩ := Option.isSome_iff_exists.mp (hsome j hj).2
    simp only [hti, htj, Option.get_some] at heq
    rw [← heq] at htj
    exact hs.unique i j ki vi vj (hsome i hi).1 (hsome j hj).1 hti htj
  · intro k hk
    obtain ⟨v, i, hi, hik⟩ := hk
    exact ⟨i, by simp [hi, hik], by simp [hik]⟩

end Load

/-- A deletion in progress: slot `vacated` has been emptied, the slots from there up to
`scan` are settled, and only entries at `scan` or later may still depend on it. -/
structure Shifting (n : ℕ) (home : κ → ℕ) (t : ℕ → Option (κ × ν)) (vacated scan : ℕ) :
    Prop where
  hole : t vacated = none
  ahead : 0 < gap n vacated scan
  reach : ∀ i k v, i < n → t i = some (k, v) →
    ∀ j < n, gap n (home k) j < gap n (home k) i →
      t j ≠ none ∨ (j = vacated ∧ gap n vacated scan ≤ gap n vacated i)
  unique : ∀ i j k v w, i < n → j < n → t i = some (k, v) → t j = some (k, w) → i = j

/-- An empty slot other than the hole, at which the scan will stop. -/
structure Stop (n : ℕ) (t : ℕ → Option (κ × ν)) (vacated scan stop : ℕ) : Prop where
  lt : stop < n
  empty : t stop = none
  ne : stop ≠ vacated
  ahead : gap n vacated scan ≤ gap n vacated stop

variable {vacated scan stop : ℕ}

theorem Sound.clear (hs : Sound n home t) {i : ℕ} (hi : i < n) (hn : 1 < n) :
    Shifting n home (Function.update t i none) i (after n i) where
  hole := by simp
  ahead := by rw [gap_after_self hn]; omega
  reach := by
    intro a k v ha hak j hj hlt
    have hai : a ≠ i := by
      rintro rfl
      simp at hak
    rw [Function.update_of_ne hai] at hak
    by_cases hji : j = i
    · refine Or.inr ⟨hji, ?_⟩
      rw [gap_after_self hn]
      exact gap_pos hi (Ne.symm hai)
    · rw [Function.update_of_ne hji]
      exact Or.inl (hs.reach a k v ha hak j hj hlt)
  unique := by
    intro a b k v w ha hb hak hbk
    have hai : a ≠ i := by
      rintro rfl
      simp at hak
    have hbi : b ≠ i := by
      rintro rfl
      simp at hbk
    rw [Function.update_of_ne hai] at hak
    rw [Function.update_of_ne hbi] at hbk
    exact hs.unique a b k v w ha hb hak hbk

namespace Shifting

/-- The scan has met an empty slot: the table is sound again. -/
theorem finish (hs : Shifting n home t vacated scan) (hhome : ∀ k, home k < n)
    (hv : vacated < n) (hscan : scan < n) (hempty : t scan = none) : Sound n home t where
  unique := hs.unique
  reach := by
    intro i k v hi hik j hj hlt
    rcases hs.reach i k v hi hik j hj hlt with hfull | ⟨rfl, hle⟩
    · exact hfull
    · have hne : scan ≠ i := by
        rintro rfl
        simp [hempty] at hik
      have hsi : gap n j scan < gap n j i := by
        rcases Nat.lt_or_eq_of_le hle with hlt' | heq
        · exact hlt'
        · exact absurd (gap_inj hj hscan hi heq) hne
      have hbetween := gap_between (hhome k) hj hscan hi hlt hsi
      rcases hs.reach i k v hi hik scan hscan hbetween with hfull | ⟨hvac, _⟩
      · exact absurd hempty hfull
      · have hahead := hs.ahead
        rw [hvac, gap_self] at hahead
        omega

/-- The scanned entry needs no slot before its own stretch and stays. -/
theorem keep (hs : Shifting n home t vacated scan) (hhome : ∀ k, home k < n)
    (hv : vacated < n) (hscan : scan < n) (hne : after n scan ≠ vacated) {k : κ} {v : ν}
    (hk : t scan = some (k, v))
    (hin : 0 < gap n vacated (home k) ∧ gap n vacated (home k) ≤ gap n vacated scan) :
    Shifting n home t vacated (after n scan) where
  hole := hs.hole
  unique := hs.unique
  ahead := by rw [gap_after hv hne]; omega
  reach := by
    intro i k' v' hi hik j hj hlt
    rcases hs.reach i k' v' hi hik j hj hlt with hfull | ⟨rfl, hle⟩
    · exact Or.inl hfull
    · refine Or.inr ⟨rfl, ?_⟩
      rw [gap_after hv hne]
      rcases Nat.lt_or_eq_of_le hle with hlt' | heq
      · exact hlt'
      · have hsi := gap_inj hj hscan hi heq
        subst i
        rw [hk] at hik
        simp only [Option.some.injEq, Prod.mk.injEq] at hik
        obtain ⟨rfl, rfl⟩ := hik
        have hback := gap_inside (hhome k) hscan hin
        omega

/-- The scanned entry is pulled back into the hole and leaves a new one. -/
theorem move (hs : Shifting n home t vacated scan) (hhome : ∀ k, home k < n)
    (hv : vacated < n) (hscan : scan < n) (hn : 1 < n) {k : κ} {v : ν}
    (hk : t scan = some (k, v))
    (hout : ¬ (0 < gap n vacated (home k) ∧ gap n vacated (home k) ≤ gap n vacated scan)) :
    Shifting n home
      (Function.update (Function.update t vacated (some (k, v))) scan none) scan
      (after n scan) := by
  have hne : vacated ≠ scan := by
    rintro rfl
    have hahead := hs.ahead
    rw [gap_self] at hahead
    omega
  -- where an entry of the new table stood in the old one
  have hold : ∀ i k' v', Function.update (Function.update t vacated (some (k, v))) scan none i
      = some (k', v') → i ≠ scan ∧ ((i = vacated ∧ k' = k ∧ v' = v) ∨
        (i ≠ vacated ∧ t i = some (k', v'))) := by
    intro i k' v' hik
    have his : i ≠ scan := by
      rintro rfl
      simp at hik
    rw [Function.update_of_ne his] at hik
    by_cases hiv : i = vacated
    · subst i
      simp only [Function.update_self, Option.some.injEq, Prod.mk.injEq] at hik
      exact ⟨his, Or.inl ⟨rfl, hik.1.symm, hik.2.symm⟩⟩
    · rw [Function.update_of_ne hiv] at hik
      exact ⟨his, Or.inr ⟨hiv, hik⟩⟩
  -- a slot taken in the old table, or filled by the move, is taken unless it is the new hole
  have hnew : ∀ j, t j ≠ none ∨ j = vacated →
      Function.update (Function.update t vacated (some (k, v))) scan none j ≠ none ∨
        j = scan := by
    intro j hj
    by_cases hjs : j = scan
    · exact Or.inr hjs
    · rw [Function.update_of_ne hjs]
      by_cases hjv : j = vacated
      · subst j
        simp
      · rw [Function.update_of_ne hjv]
        exact Or.inl (hj.resolve_right hjv)
  have hgap : gap n scan (after n scan) = 1 := gap_after_self hn
  refine ⟨by simp, by omega, ?_, ?_⟩
  · intro i k' v' hi hik j hj hlt
    rw [hgap]
    obtain ⟨his, hcase⟩ := hold i k' v' hik
    have hback : 1 ≤ gap n scan i := gap_pos hscan (Ne.symm his)
    have htaken : t j ≠ none ∨ j = vacated := by
      rcases hcase with ⟨rfl, rfl, rfl⟩ | ⟨_, hti⟩
      · have hpath := gap_outside (hhome k') hv hscan hne hout
        rcases hs.reach scan k' v' hscan hk j hj (by omega) with hfull | ⟨hjv, _⟩
        · exact Or.inl hfull
        · exact Or.inr hjv
      · rcases hs.reach i k' v' hi hti j hj hlt with hfull | ⟨hjv, _⟩
        · exact Or.inl hfull
        · exact Or.inr hjv
    rcases hnew j htaken with hfull | hjs
    · exact Or.inl hfull
    · exact Or.inr ⟨hjs, hback⟩
  · intro a b k' v' w' ha hb hak hbk
    obtain ⟨has, hca⟩ := hold a k' v' hak
    obtain ⟨hbs, hcb⟩ := hold b k' w' hbk
    rcases hca with ⟨rfl, rfl, rfl⟩ | ⟨_, hta⟩ <;> rcases hcb with ⟨rfl, hkk, _⟩ | ⟨_, htb⟩
    · rfl
    · exact absurd (hs.unique scan b k' v' w' hscan hb hk htb).symm hbs
    · subst k'
      exact absurd (hs.unique scan a k v v' hscan ha hk hta).symm has
    · exact hs.unique a b k' v' w' ha hb hta htb

end Shifting

/-- Pulling an entry back does not change what the table holds. -/
theorem holds_move (hv : vacated < n) (hscan : scan < n) (hole : t vacated = none) {k : κ}
    {v : ν} (hk : t scan = some (k, v)) {k' : κ} {v' : ν} :
    Holds n (Function.update (Function.update t vacated (some (k, v))) scan none) k' v' ↔
      Holds n t k' v' := by
  have hne : vacated ≠ scan := by
    rintro rfl
    simp [hole] at hk
  constructor
  · rintro ⟨i, hi, hik⟩
    have his : i ≠ scan := by
      rintro rfl
      simp at hik
    rw [Function.update_of_ne his] at hik
    by_cases hiv : i = vacated
    · subst i
      rw [Function.update_self, ← hk] at hik
      exact ⟨scan, hscan, hik⟩
    · rw [Function.update_of_ne hiv] at hik
      exact ⟨i, hi, hik⟩
  · rintro ⟨i, hi, hik⟩
    by_cases his : i = scan
    · subst i
      refine ⟨vacated, hv, ?_⟩
      rw [Function.update_of_ne hne, Function.update_self, ← hk, hik]
    · have hiv : i ≠ vacated := by
        rintro rfl
        simp [hole] at hik
      exact ⟨i, hi, by rw [Function.update_of_ne his, Function.update_of_ne hiv, hik]⟩

namespace Stop

theorem scan_lt (hs : Stop n t vacated scan stop) (hv : vacated < n) (hscan : scan < n)
    (hfull : t scan ≠ none) : gap n vacated scan < gap n vacated stop := by
  rcases Nat.lt_or_eq_of_le hs.ahead with hlt | heq
  · exact hlt
  · have hscan_eq := gap_inj hv hscan hs.lt heq
    rw [hscan_eq] at hfull
    exact absurd hs.empty hfull

theorem after_ne (hs : Stop n t vacated scan stop) (hv : vacated < n) (hscan : scan < n)
    (hfull : t scan ≠ none) : after n scan ≠ vacated :=
  ProbeTable.after_ne hv hs.lt (hs.scan_lt hv hscan hfull)

theorem keep (hs : Stop n t vacated scan stop) (hv : vacated < n) (hscan : scan < n)
    (hfull : t scan ≠ none) : Stop n t vacated (after n scan) stop where
  lt := hs.lt
  empty := hs.empty
  ne := hs.ne
  ahead := by
    rw [gap_after hv (hs.after_ne hv hscan hfull)]
    exact hs.scan_lt hv hscan hfull

theorem move (hs : Stop n t vacated scan stop) (hscan : scan < n) (hn : 1 < n)
    (hfull : t scan ≠ none) (e : Option (κ × ν)) :
    Stop n (Function.update (Function.update t vacated e) scan none) scan (after n scan)
      stop where
  lt := hs.lt
  ne := fun heq => hfull (heq ▸ hs.empty)
  empty := by
    have hne : stop ≠ scan := fun heq => hfull (heq ▸ hs.empty)
    rw [Function.update_of_ne hne, Function.update_of_ne hs.ne, hs.empty]
  ahead := by
    rw [gap_after_self hn]
    exact gap_pos hscan (fun heq => hfull (heq ▸ hs.empty))

/-- The distance left to scan shrinks. -/
theorem remaining_lt (hs : Stop n t vacated scan stop) (hscan : scan < n)
    (hfull : t scan ≠ none) : gap n (after n scan) stop < gap n scan stop := by
  have hne : scan ≠ stop := fun heq => hfull (heq ▸ hs.empty)
  have hlt := hs.lt
  unfold gap after
  split_ifs <;> omega

end Stop

end Leka.ProbeTable
