import Mathlib.Data.List.Basic
import Mathlib.Logic.Relation

/-!
A feed of items that goes through a bounded channel into a state, one side sending and the other
receiving, in any order. The state is always the one that a prefix of the feed leads to. A system
that simulates a pipeline has that from the pipeline.
Nothing here depends on the program that uses it.
-/

namespace Leka.Pipelines

open Relation

section Simulations

variable {σ τ : Type*} {step : σ → σ → Prop} {step' : τ → τ → Prop} {R : σ → τ → Prop}

/-- Every step of the one system is matched by steps of the other, perhaps by none. -/
def Simulates (step : σ → σ → Prop) (step' : τ → τ → Prop) (R : σ → τ → Prop) : Prop :=
  ∀ s t s', R s t → step s s' → ∃ t', ReflTransGen step' t t' ∧ R s' t'

theorem Simulates.run (h : Simulates step step' R) {s s' : σ} {t : τ} (hR : R s t)
    (hrun : ReflTransGen step s s') : ∃ t', ReflTransGen step' t t' ∧ R s' t' := by
  induction hrun with
  | refl => exact ⟨t, .refl, hR⟩
  | tail _ hstep ih =>
    obtain ⟨t₁, hbefore, hR₁⟩ := ih
    obtain ⟨t₂, hafter, hR₂⟩ := h _ _ _ hR₁ hstep
    exact ⟨t₂, hbefore.trans hafter, hR₂⟩

/-- When a state that is not done can get on, every state can get done. -/
theorem can_finish {Inv done : σ → Prop} (measure : σ → ℕ)
    (hon : ∀ s, Inv s → ¬ done s → ∃ s', ReflTransGen step s s' ∧ Inv s' ∧ measure s' < measure s)
    {s : σ} (hs : Inv s) : ∃ s', ReflTransGen step s s' ∧ Inv s' ∧ done s' := by
  induction hn : measure s using Nat.strongRecOn generalizing s with
  | _ n ih =>
    by_cases hdone : done s
    · exact ⟨s, .refl, hs, hdone⟩
    · obtain ⟨s₁, hrun, hs₁, hlt⟩ := hon s hs hdone
      obtain ⟨s', hrest, hs', hdone'⟩ := ih _ (hn ▸ hlt) hs₁ rfl
      exact ⟨s', hrun.trans hrest, hs', hdone'⟩

end Simulations

/-- The items that are not sent, those that are sent and not received, and what the received ones
have led to. -/
structure Pipeline (α σ : Type*) where
  unsent : List α
  inside : List α
  state : σ

section Runs

variable {α σ : Type*} (receive : σ → α → σ) (size : ℕ)

inductive Step : Pipeline α σ → Pipeline α σ → Prop
  | send {x : α} {unsent inside : List α} {state : σ} (hroom : inside.length < size) :
      Step ⟨x :: unsent, inside, state⟩ ⟨unsent, inside ++ [x], state⟩
  | receive {x : α} {unsent inside : List α} {state : σ} :
      Step ⟨unsent, x :: inside, state⟩ ⟨unsent, inside, receive state x⟩

variable {receive size} {p p' : Pipeline α σ} {items : List α} {start : σ}

/-- How far a pipeline has got with its feed. -/
structure Within (receive : σ → α → σ) (size : ℕ) (items : List α) (start : σ)
    (p : Pipeline α σ) : Prop where
  split : ∃ received, items = received ++ (p.inside ++ p.unsent) ∧
    p.state = received.foldl receive start
  bounded : p.inside.length ≤ size

theorem within_start (receive : σ → α → σ) (size : ℕ) (items : List α) (start : σ) :
    Within receive size items start ⟨items, [], start⟩ :=
  ⟨⟨[], rfl, rfl⟩, Nat.zero_le _⟩

theorem Within.step (h : Within receive size items start p) (hstep : Step receive size p p') :
    Within receive size items start p' := by
  obtain ⟨received, hsplit, hstate⟩ := h.split
  have hbounded := h.bounded
  cases hstep with
  | send hroom =>
    refine ⟨⟨received, ?_, hstate⟩, ?_⟩
    · rw [hsplit, List.append_assoc]
      rfl
    · rw [List.length_append, List.length_singleton]
      exact hroom
  | @receive x unsent inside state =>
    refine ⟨⟨received ++ [x], ?_, ?_⟩, Nat.le_of_succ_le hbounded⟩
    · rw [hsplit, List.append_assoc]
      rfl
    · change receive state x = _
      rw [List.foldl_append, ← hstate]
      rfl

/-- In every run, the state is what the received items lead to. -/
theorem Within.run (h : Within receive size items start p)
    (hrun : ReflTransGen (Step receive size) p p') : Within receive size items start p' := by
  induction hrun with
  | refl => exact h
  | tail _ hstep ih => exact ih.step hstep

end Runs

end Leka.Pipelines
