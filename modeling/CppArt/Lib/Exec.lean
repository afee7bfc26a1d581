/-
**Computations over a state that may stop with a fault, read as equations.**

A program is an `EStateM ε σ α`: it either returns a value and a state or stops with a fault and the
state it stopped in. Proofs execute programs symbolically, one call at a time: `bind_of_ok` replaces
a call by its result, and the simp lemmas reduce the control operations.
-/

import Mathlib

namespace CppArt

namespace Exec

variable {ε σ α β : Type}

@[simp] theorem pure_apply (a : α) (s : σ) : (pure a : EStateM ε σ α) s = .ok a s := rfl

@[simp] theorem get_apply (s : σ) : (get : EStateM ε σ σ) s = .ok s s := rfl

@[simp] theorem set_apply (s s' : σ) : (set s' : EStateM ε σ PUnit) s = .ok ⟨⟩ s' := rfl

@[simp] theorem modify_apply (f : σ → σ) (s : σ) :
    (modify f : EStateM ε σ PUnit) s = .ok ⟨⟩ (f s) := rfl

@[simp] theorem throw_apply (e : ε) (s : σ) : (throw e : EStateM ε σ α) s = .error e s := rfl

/-- A call that returns is replaced by its result. -/
theorem bind_of_ok {x : EStateM ε σ α} {s s' : σ} {a : α} (run : x s = .ok a s')
    (f : α → EStateM ε σ β) : (x >>= f) s = f a s' := by
  show EStateM.bind x f s = f a s'
  simp only [EStateM.bind, run]

/-- A call that stops stops the whole computation. -/
theorem bind_of_error {x : EStateM ε σ α} {s s' : σ} {e : ε} (run : x s = .error e s')
    (f : α → EStateM ε σ β) : (x >>= f) s = .error e s' := by
  show EStateM.bind x f s = .error e s'
  simp only [EStateM.bind, run]

/-- A computation returns exactly when its first call does and the rest does from there. -/
theorem bind_eq_ok {x : EStateM ε σ α} {f : α → EStateM ε σ β} {s s' : σ} {b : β} :
    (x >>= f) s = .ok b s' ↔ ∃ a t, x s = .ok a t ∧ f a t = .ok b s' := by
  constructor
  · intro run
    rcases first : x s with ⟨a, t⟩ | ⟨e, t⟩
    · rw [bind_of_ok first] at run
      exact ⟨a, t, rfl, run⟩
    · rw [bind_of_error first] at run
      cases run
  · rintro ⟨a, t, first, rest⟩
    rw [bind_of_ok first, rest]

/-- A call may be replaced by one that behaves the same from this state. -/
theorem bind_congr_left {x y : EStateM ε σ α} {s : σ} (same : x s = y s) (f : α → EStateM ε σ β) :
    (x >>= f) s = (y >>= f) s := by
  show EStateM.bind x f s = EStateM.bind y f s
  simp only [EStateM.bind, same]

/-- What follows a call may be replaced where the call returns. -/
theorem bind_congr_right {x : EStateM ε σ α} {s : σ} {f g : α → EStateM ε σ β}
    (same : ∀ a t, x s = .ok a t → f a t = g a t) : (x >>= f) s = (x >>= g) s := by
  rcases run : x s with ⟨a, t⟩ | ⟨e, t⟩
  · rw [bind_of_ok run, bind_of_ok run, same a t run]
  · rw [bind_of_error run, bind_of_error run]

@[simp] theorem pure_bind_apply (a : α) (f : α → EStateM ε σ β) (s : σ) :
    ((pure a : EStateM ε σ α) >>= f) s = f a s := rfl

@[simp] theorem get_bind_apply (f : σ → EStateM ε σ β) (s : σ) :
    ((get : EStateM ε σ σ) >>= f) s = f s s := rfl

@[simp] theorem throw_bind_apply (e : ε) (f : α → EStateM ε σ β) (s : σ) :
    ((throw e : EStateM ε σ α) >>= f) s = .error e s := rfl

/-- The result of a pure step that may fail, in the computation. -/
def lift (x : Except ε α) : EStateM ε σ α := fun s =>
  match x with
  | .ok a => .ok a s
  | .error e => .error e s

@[simp] theorem lift_ok (a : α) (s : σ) : (lift (.ok a) : EStateM ε σ α) s = .ok a s := rfl

@[simp] theorem lift_error (e : ε) (s : σ) : (lift (.error e) : EStateM ε σ α) s = .error e s := rfl

/-! ### What a finished computation leaves -/

/-- The value, if the computation has returned. -/
def value? : EStateM.Result ε σ α → Option α
  | .ok a _ => some a
  | .error _ _ => none

/-- The fault, if the computation has stopped. -/
def fault? : EStateM.Result ε σ α → Option ε
  | .ok _ _ => none
  | .error e _ => some e

/-- What a computation returns in a state that another one has reached. -/
theorem ok_of_value? {x : EStateM ε σ α} {f : α → EStateM ε σ β} {s s' : σ} {a : α} {b : β}
    (reached : x s = .ok a s') (value : value? ((x >>= f) s) = some b) : ∃ t, f a s' = .ok b t := by
  rw [bind_of_ok reached] at value
  cases result : f a s' with
  | ok c t =>
      rw [result] at value
      exact ⟨t, by rw [Option.some.inj value]⟩
  | error e t =>
      rw [result] at value
      cases value

/-- The fault a computation stops with in a state that another one has reached. -/
theorem error_of_fault? {x : EStateM ε σ α} {f : α → EStateM ε σ β} {s s' : σ} {a : α} {e : ε}
    (reached : x s = .ok a s') (fault : fault? ((x >>= f) s) = some e) : ∃ t, f a s' = .error e t := by
  rw [bind_of_ok reached] at fault
  cases result : f a s' with
  | ok c t =>
      rw [result] at fault
      cases fault
  | error e' t =>
      rw [result] at fault
      exact ⟨t, by rw [Option.some.inj fault]⟩

end Exec

end CppArt
