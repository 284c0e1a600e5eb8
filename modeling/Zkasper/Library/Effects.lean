import Mathlib.Order.Defs.Unbundled
import Mathlib.Tactic.Common

/-! # Computations over a state

A computation may fail, and what it did to the state before it failed stays done. `leave` is
the state behind it, however it ended.

`Moves R` says that a computation takes no state anywhere but along `R`. For a preorder it is
put together from the parts, so that a frame condition is checked one statement at a time. -/

namespace Zkasper.Library

variable {ε σ α β : Type} {R : σ → σ → Prop} {x : EStateM ε σ α} {f : α → EStateM ε σ β} {s : σ}

/-- The state a computation ends in, whether it returns or fails. -/
def leave (x : EStateM ε σ α) (s : σ) : σ :=
  match x s with
  | .ok _ s' => s'
  | .error _ s' => s'

/-- What is known without the state. -/
def attempt (result : Except ε α) : EStateM ε σ α := fun s =>
  match result with
  | .ok a => .ok a s
  | .error e => .error e s

theorem leave_of_ok {a : α} {s' : σ} (h : x s = .ok a s') : leave x s = s' := by
  rw [leave, h]

theorem leave_of_error {e : ε} {s' : σ} (h : x s = .error e s') : leave x s = s' := by
  rw [leave, h]

/-! ## The state behind a sequence -/

theorem leave_bind :
    leave (x >>= f) s = match x s with
      | .ok a s' => leave (f a) s'
      | .error _ s' => s' := by
  show leave (EStateM.bind x f) s = _
  cases h : x s with
  | ok a s' => simp only [leave, EStateM.bind, h]
  | error e s' => simp only [leave, EStateM.bind, h]

@[simp] theorem leave_pure (a : α) : leave (pure a : EStateM ε σ α) s = s := rfl

@[simp] theorem leave_modify (g : σ → σ) :
    leave (modify g : EStateM ε σ PUnit) s = g s := rfl

@[simp] theorem leave_modify_bind (g : σ → σ) (f : PUnit → EStateM ε σ β) :
    leave (modify g >>= f) s = leave (f ()) (g s) := leave_bind

@[simp] theorem leave_get_bind (f : σ → EStateM ε σ β) :
    leave (get >>= f) s = leave (f s) s := leave_bind

@[simp] theorem leave_attempt (result : Except ε α) :
    leave (attempt result : EStateM ε σ α) s = s := by
  cases result <;> rfl

theorem leave_attempt_bind (result : Except ε α) (f : α → EStateM ε σ β) :
    leave (attempt result >>= f) s = match result with
      | .ok a => leave (f a) s
      | .error _ => s := by
  rw [leave_bind]
  cases result <;> rfl

/-- What is known to fail ends it there; what is known to succeed leaves no trace. -/
theorem leave_attempt_cases (result : Except ε α) (f : α → EStateM ε σ β) (s : σ) :
    leave (attempt result >>= f) s = s ∨
      ∃ a, result = .ok a ∧ leave (attempt result >>= f) s = leave (f a) s := by
  rw [leave_attempt_bind]
  cases result with
  | ok a => exact .inr ⟨a, rfl, rfl⟩
  | error e => exact .inl rfl

/-- What holds of the state here holds behind a sequence that starts with what is known, if it
holds behind the rest of it where that succeeds. -/
theorem leave_attempt_rule {p : σ → Prop} {result : Except ε α} {f : α → EStateM ε σ β}
    (hstop : p s) (hgo : ∀ a, result = .ok a → p (leave (f a) s)) :
    p (leave (attempt result >>= f) s) := by
  rcases leave_attempt_cases result f s with h | ⟨a, hok, h⟩
  · rwa [h]
  · rw [h]
    exact hgo a hok

/-- What is known to have succeeded leaves no trace. -/
theorem leave_attempt_ok_bind {result : Except ε α} {a : α} (h : result = .ok a)
    (f : α → EStateM ε σ β) : leave (attempt result >>= f) s = leave (f a) s := by
  subst h
  exact leave_attempt_bind _ f

/-! ## Where a computation takes a state -/

/-- From every state along `R`. -/
def Moves (R : σ → σ → Prop) (x : EStateM ε σ α) : Prop := ∀ s, R s (leave x s)

namespace Moves

protected theorem modify {g : σ → σ} (h : ∀ s, R s (g s)) :
    Moves R (modify g : EStateM ε σ PUnit) := h

/-- What the state decides may move it as it is. -/
protected theorem get_bind {f : σ → EStateM ε σ β} (h : ∀ s, R s (leave (f s) s)) :
    Moves R (get >>= f) := by
  intro s
  rw [leave_get_bind]
  exact h s

variable [IsPreorder σ R]

protected theorem bind (hx : Moves R x) (hf : ∀ a, Moves R (f a)) : Moves R (x >>= f) := by
  intro s
  have hfirst := hx s
  rw [leave_bind]
  unfold leave at hfirst
  cases h : x s with
  | ok a s' =>
      rw [h] at hfirst
      exact IsTrans.trans _ _ _ hfirst (hf a s')
  | error e s' =>
      rw [h] at hfirst
      exact hfirst

protected theorem pure (a : α) : Moves R (pure a : EStateM ε σ α) := fun s => refl s

protected theorem attempt (result : Except ε α) : Moves R (attempt result : EStateM ε σ α) := by
  intro s
  rw [leave_attempt]
  exact refl s

end Moves

theorem Moves.mono {R' : σ → σ → Prop} (h : Moves R x) (hweaker : ∀ s s', R s s' → R' s s') :
    Moves R' x := fun s => hweaker _ _ (h s)

end Zkasper.Library
