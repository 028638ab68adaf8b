import Mathlib.Logic.Basic
import Mathlib.Logic.Function.Basic

/-!
Imperative procedures as state transformers that keep their effects when they throw.
A call started in a state returns a value, throws an exception or runs for ever, and in
each case leaves a state behind: writes made before a throw are not undone, so leaving
no trace is a property to prove and never one of the encoding. Nothing here depends on
the program that uses it.
-/

namespace Leka.Procedures

/-- What running a procedure comes to. `diverges` stands for a loop that never ends. -/
inductive Outcome (ε α : Type) where
  | returns (value : α)
  | throws (exn : ε)
  | diverges
deriving DecidableEq

def Outcome.map {ε α β : Type} (f : α → β) : Outcome ε α → Outcome ε β
  | .returns a => .returns (f a)
  | .throws e => .throws e
  | .diverges => .diverges

def Proc (ε σ α : Type) : Type := σ → Outcome ε α × σ

namespace Proc

variable {ε σ τ α β : Type}

/-- The state of a throwing or diverging procedure is handed on unchanged. -/
def andThen (x : Proc ε σ α) (f : α → Proc ε σ β) : Proc ε σ β := fun s =>
  match x s with
  | (.returns a, s') => f a s'
  | (.throws e, s') => (.throws e, s')
  | (.diverges, s') => (.diverges, s')

def handle (x : Proc ε σ α) (f : ε → Proc ε σ α) : Proc ε σ α := fun s =>
  match x s with
  | (.throws e, s') => f e s'
  | r => r

instance : Monad (Proc ε σ) where
  pure a := fun s => (.returns a, s)
  bind := andThen

instance : MonadExcept ε (Proc ε σ) where
  throw e := fun s => (.throws e, s)
  tryCatch := handle

def get : Proc ε σ σ := fun s => (.returns s, s)

def modify (f : σ → σ) : Proc ε σ Unit := fun s => (.returns (), f s)

def diverge : Proc ε σ α := fun s => (.diverges, s)

/-- Runs a procedure of a component on the state that holds the component. -/
def zoom (get : σ → τ) (set : τ → σ → σ) (x : Proc ε τ α) : Proc ε σ α := fun s =>
  match x (get s) with
  | (o, t) => (o, set t s)

/-- Raises the exception of a failed pure computation. -/
def check (result : Except ε α) : Proc ε σ α :=
  match result with
  | .ok a => pure a
  | .error e => throw e

section Equations

variable (s s' : σ) (a : α) (e : ε) (x : Proc ε σ α) (f : α → Proc ε σ β)

@[simp] theorem pure_apply : (pure a : Proc ε σ α) s = (.returns a, s) := rfl

@[simp] theorem throw_apply : (throw e : Proc ε σ α) s = (.throws e, s) := rfl

@[simp] theorem get_apply : (get : Proc ε σ σ) s = (.returns s, s) := rfl

@[simp] theorem modify_apply (g : σ → σ) :
    (modify g : Proc ε σ Unit) s = (.returns (), g s) := rfl

@[simp] theorem diverge_apply : (diverge : Proc ε σ α) s = (.diverges, s) := rfl

@[simp] theorem ite_apply (c : Prop) [Decidable c] (y : Proc ε σ α) :
    (if c then x else y) s = if c then x s else y s := by
  split <;> rfl

@[simp] theorem check_ok : (check (.ok a) : Proc ε σ α) = pure a := rfl

@[simp] theorem check_error : (check (.error e) : Proc ε σ α) = throw e := rfl

theorem bind_apply : (x >>= f) s = match x s with
    | (.returns a, s') => f a s'
    | (.throws e, s') => (.throws e, s')
    | (.diverges, s') => (.diverges, s') := rfl

@[simp] theorem pure_bind_apply (g : α → Proc ε σ β) :
    ((pure a : Proc ε σ α) >>= g) s = g a s := rfl

@[simp] theorem get_bind_apply (g : σ → Proc ε σ β) : (get >>= g) s = g s s := rfl

@[simp] theorem modify_bind_apply (g : σ → σ) (k : Unit → Proc ε σ β) :
    (modify g >>= k) s = k () (g s) := rfl

@[simp] theorem throw_bind_apply (g : α → Proc ε σ β) :
    ((throw e : Proc ε σ α) >>= g) s = (.throws e, s) := rfl

variable {s s' a e x}

theorem throws_inj {e' : ε} (h : ((.throws e, s) : Outcome ε α × σ) = (.throws e', s')) :
    e = e' := by
  simp only [Prod.mk.injEq, Outcome.throws.injEq] at h
  exact h.1

theorem bind_returns (h : x s = (.returns a, s')) : (x >>= f) s = f a s' := by
  rw [bind_apply, h]

theorem bind_throws (h : x s = (.throws e, s')) : (x >>= f) s = (.throws e, s') := by
  rw [bind_apply, h]

theorem bind_diverges (h : x s = (.diverges, s')) : (x >>= f) s = (.diverges, s') := by
  rw [bind_apply, h]

variable (a e)

theorem handle_returns {g : ε → Proc ε σ α} (h : x s = (.returns a, s')) :
    (tryCatch x g) s = (.returns a, s') := by
  change handle x g s = _
  rw [handle, h]

theorem handle_throws {g : ε → Proc ε σ α} (h : x s = (.throws e, s')) :
    (tryCatch x g) s = g e s' := by
  change handle x g s = _
  rw [handle, h]

end Equations

section Congruence

variable {s : σ} {x x' : Proc ε σ α}

/-- Two sequences agree in a state when their first steps do, and their rests do wherever the
first step gets to. -/
theorem bind_congr_run {f f' : α → Proc ε σ β} (hx : x' s = x s)
    (hf : ∀ a t, x s = (.returns a, t) → f' a t = f a t) : (x' >>= f') s = (x >>= f) s := by
  rw [bind_apply, bind_apply, hx]
  split
  · rename_i a t hrun
    exact hf a t hrun
  · rfl
  · rfl

theorem handle_congr_run {g g' : ε → Proc ε σ α}
    (hg : ∀ e t, x s = (.throws e, t) → g' e t = g e t) :
    (tryCatch x g') s = (tryCatch x g) s := by
  change handle x g' s = handle x g s
  rw [handle, handle]
  split
  · rename_i e t hrun
    exact hg e t hrun
  · rfl

theorem zoom_congr_run {get : σ → τ} {set : τ → σ → σ} {y y' : Proc ε τ α}
    (hy : y' (get s) = y (get s)) : zoom get set y' s = zoom get set y s := by
  rw [zoom, zoom, hy]

end Congruence

/-- `x` throws nothing but what satisfies `E`, in whatever state it runs. -/
def Raises (E : ε → Prop) (x : Proc ε σ α) : Prop := ∀ s e s', x s = (.throws e, s') → E e

section Raises

variable {E : ε → Prop} {x y : Proc ε σ α} {f : α → Proc ε σ β}

theorem Raises.mono {E' : ε → Prop} (hx : Raises E x) (himp : ∀ e, E e → E' e) : Raises E' x :=
  fun s e s' h => himp e (hx s e s' h)

theorem raises_pure (a : α) : Raises E (pure a : Proc ε σ α) := by
  intro s e s' h
  simp at h

theorem raises_get : Raises E (get : Proc ε σ σ) := by
  intro s e s' h
  simp at h

theorem raises_modify (g : σ → σ) : Raises E (modify g : Proc ε σ Unit) := by
  intro s e s' h
  simp at h

theorem raises_diverge : Raises E (diverge : Proc ε σ α) := by
  intro s e s' h
  simp at h

theorem raises_throw {e : ε} (h : E e) : Raises E (throw e : Proc ε σ α) := by
  intro s e' s' hrun
  rw [← throws_inj hrun]
  exact h

theorem raises_check {result : Except ε α} (h : ∀ e, result = .error e → E e) :
    Raises E (check result : Proc ε σ α) := by
  intro s e s' hrun
  cases result with
  | ok a => simp at hrun
  | error e' =>
    exact h e (by rw [throws_inj hrun])

theorem Raises.bind (hx : Raises E x) (hf : ∀ a, Raises E (f a)) :
    Raises E (x >>= f) := by
  intro s e s' h
  rw [bind_apply] at h
  split at h
  · exact hf _ _ _ _ h
  · rename_i hthrows
    rw [← throws_inj h]
    exact hx _ _ _ hthrows
  · simp at h

theorem Raises.ite {c : Prop} [Decidable c] (hx : c → Raises E x)
    (hy : ¬ c → Raises E y) : Raises E (if c then x else y) := by
  split
  · exact hx ‹_›
  · exact hy ‹_›

/-- A guard that throws, in front of the rest of the procedure. -/
theorem Raises.guard {c : Prop} [Decidable c] {e : ε} {k : β → Proc ε σ α} (he : E e)
    (hy : Raises E y) : Raises E (if c then (throw e : Proc ε σ β) >>= k else y) := by
  refine .ite (fun _ => ?_) fun _ => hy
  intro s e' s' hrun
  rw [← throws_inj hrun]
  exact he

theorem Raises.zoom {get : σ → τ} {set : τ → σ → σ} {x : Proc ε τ α} (hx : Raises E x) :
    Raises E (Proc.zoom get set x) := by
  intro s e s' h
  rw [Proc.zoom] at h
  split at h
  rename_i o t hrun
  simp only [Prod.mk.injEq] at h
  exact hx _ _ _ (by rw [hrun, h.1])

end Raises

end Proc

end Leka.Procedures
