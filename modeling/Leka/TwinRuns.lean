import Leka.Procedures

/-!
Two runs side by side. Procedures started in related states come to the same and leave
related states behind; the rules follow the ways in which procedures are put together. Most
often the two runs are of one procedure, which then respects the relation. Nothing here
depends on the program that uses it.
-/

namespace Leka.TwinRuns

open Procedures

variable {ε σ τ α β : Type}

def Relates (R : σ → τ → Prop) (x : Proc ε σ α) (y : Proc ε τ α) : Prop :=
  ∀ s t, R s t → (x s).1 = (y t).1 ∧ R (x s).2 (y t).2

abbrev Respects (R : σ → σ → Prop) (x : Proc ε σ α) : Prop := Relates R x x

section Rules

variable {R : σ → τ → Prop} {x x' : Proc ε σ α} {y y' : Proc ε τ α}

theorem relates_pure (a : α) : Relates R (pure a : Proc ε σ α) (pure a) :=
  fun _ _ h => ⟨rfl, h⟩

theorem relates_throw (e : ε) : Relates R (throw e : Proc ε σ α) (throw e) :=
  fun _ _ h => ⟨rfl, h⟩

theorem relates_diverge : Relates R (Proc.diverge : Proc ε σ α) Proc.diverge :=
  fun _ _ h => ⟨rfl, h⟩

theorem relates_modify {f : σ → σ} {g : τ → τ} (h : ∀ s t, R s t → R (f s) (g t)) :
    Relates R (Proc.modify f : Proc ε σ Unit) (Proc.modify g) :=
  fun s t hst => ⟨rfl, h s t hst⟩

theorem Relates.bind {f : α → Proc ε σ β} {g : α → Proc ε τ β} (hx : Relates R x y)
    (hf : ∀ a, Relates R (f a) (g a)) : Relates R (x >>= f) (y >>= g) := by
  intro s t h
  obtain ⟨ho, hst⟩ := hx s t h
  rw [Proc.bind_apply, Proc.bind_apply]
  generalize x s = result at ho hst
  generalize y t = result' at ho hst
  obtain ⟨o, s'⟩ := result
  obtain ⟨o', t'⟩ := result'
  dsimp only at ho hst
  subst o'
  cases o with
  | returns a => exact hf a s' t' hst
  | throws e => exact ⟨rfl, hst⟩
  | diverges => exact ⟨rfl, hst⟩

theorem Relates.ite {c : Prop} [Decidable c] (hx : Relates R x y) (hx' : Relates R x' y') :
    Relates R (if c then x else x') (if c then y else y') := by
  split
  · exact hx
  · exact hx'

/-- A guard that throws, in front of the rest of the procedure. -/
theorem Relates.guard {c : Prop} [Decidable c] {e : ε} {k : β → Proc ε σ α} {k' : β → Proc ε τ α}
    (hx : Relates R x y) :
    Relates R (if c then (throw e : Proc ε σ β) >>= k else x)
      (if c then (throw e : Proc ε τ β) >>= k' else y) :=
  .ite (fun _ _ h => ⟨rfl, h⟩) hx

theorem Relates.handle {f : ε → Proc ε σ α} {g : ε → Proc ε τ α} (hx : Relates R x y)
    (hf : ∀ e, Relates R (f e) (g e)) : Relates R (tryCatch x f) (tryCatch y g) := by
  intro s t h
  obtain ⟨ho, hst⟩ := hx s t h
  change (Proc.handle x f s).1 = (Proc.handle y g t).1 ∧ R (Proc.handle x f s).2
    (Proc.handle y g t).2
  rw [Proc.handle, Proc.handle]
  generalize x s = result at ho hst
  generalize y t = result' at ho hst
  obtain ⟨o, s'⟩ := result
  obtain ⟨o', t'⟩ := result'
  dsimp only at ho hst
  subst o'
  cases o with
  | returns a => exact ⟨rfl, hst⟩
  | throws e => exact hf e s' t' hst
  | diverges => exact ⟨rfl, hst⟩

/-- The rest of a pure computation may rely on its result. -/
theorem Relates.check_bind {result : Except ε α} {f : α → Proc ε σ β} {g : α → Proc ε τ β}
    (hf : ∀ a, result = .ok a → Relates R (f a) (g a)) :
    Relates R (Proc.check result >>= f) (Proc.check result >>= g) := by
  cases result with
  | ok a => exact hf a rfl
  | error e => exact fun _ _ h => ⟨rfl, h⟩

/-- A component, in a relation of its own that holds when the procedure starts there. -/
theorem Relates.zoom {σ' τ' : Type} {get : σ → σ'} {set : σ' → σ → σ} {get' : τ → τ'}
    {set' : τ' → τ → τ} {u : Proc ε σ' α} {v : Proc ε τ' α}
    (h : ∀ s t, R s t → ∃ Q : σ' → τ' → Prop, Q (get s) (get' t) ∧ Relates Q u v ∧
      ∀ a b, Q a b → R (set a s) (set' b t)) :
    Relates R (Proc.zoom get set u) (Proc.zoom get' set' v) := by
  intro s t hst
  obtain ⟨Q, hget, huv, hset⟩ := h s t hst
  obtain ⟨ho, hab⟩ := huv _ _ hget
  exact ⟨ho, hset _ _ hab⟩

/-- On equal states every procedure does the same. -/
theorem relates_eq (x : Proc ε σ α) : Relates Eq x x := by
  rintro s _ rfl
  exact ⟨rfl, rfl⟩

/-- A read of which the rest sees the same on both sides. -/
theorem respects_get {R : σ → σ → Prop} {f : σ → Proc ε σ α}
    (hreads : ∀ s t, R s t → f t = f s) (hf : ∀ s, Respects R (f s)) :
    Respects R (Proc.get >>= f) := by
  intro s t h
  rw [Proc.get_bind_apply, Proc.get_bind_apply, hreads s t h]
  exact hf s s t h

end Rules

end Leka.TwinRuns
