import Mathlib.Logic.Basic
import Mathlib.Data.List.Basic

/-! # Guests that panic

Every circuit of the pipeline is a Rust function that either returns its public
outputs or panics, and a panic is a proof that never comes out. `Guest` is that
outcome: a value, or the text of the assertion that stopped the run.

`assert` and `expect` are the two ways the source stops, and the lemmas below take
an accepted run apart again: a run that returned went through every assertion on
its way. -/

namespace Zkasper

/-- The outcome of a guest: its result, or the message it panicked with. -/
abbrev Guest (α : Type) := Except String α

namespace Guest

/-- `assert!(c, message)`. -/
def assert (c : Prop) [Decidable c] (message : String) : Guest Unit :=
  if c then .ok () else .error message

/-- `o.expect(message)`. -/
def expect {α : Type} (o : Option α) (message : String) : Guest α :=
  match o with
  | some a => .ok a
  | none => .error message

/-- Whether a run returned something with a decidable property is itself decided by running it. -/
instance decidableOk {ε α : Type} {p : α → Prop} [DecidablePred p] (x : Except ε α) :
    Decidable (∃ a, x = .ok a ∧ p a) :=
  match x with
  | .ok a => decidable_of_iff (p a) (by simp)
  | .error _ => isFalse (by simp)

/-! ## Taking an accepted run apart -/

variable {ε α β : Type}

@[simp] theorem assert_eq_ok {c : Prop} [Decidable c] {message : String} {u : Unit} :
    assert c message = .ok u ↔ c := by
  unfold assert
  split <;> simp_all

@[simp] theorem expect_eq_ok {o : Option α} {message : String} {a : α} :
    expect o message = .ok a ↔ o = some a := by
  cases o <;> simp [expect]

/-- A run in two halves returned: the first half returned, and the second one
after it. This and the loop rules below hold whatever a failing run fails with. -/
theorem bind_eq_ok {x : Except ε α} {f : α → Except ε β} {b : β} :
    x >>= f = .ok b ↔ ∃ a, x = .ok a ∧ f a = .ok b := by
  rcases x with message | a <;> simp [bind, Except.bind]

theorem ok_bind (a : α) (f : α → Except ε β) : (.ok a : Except ε α) >>= f = f a := rfl

@[simp] theorem pure_eq_ok {a b : α} : (pure a : Except ε α) = .ok b ↔ a = b := by
  simp [pure, Except.pure]

@[simp] theorem throw_eq_ok {message : String} {a : α} :
    (throw message : Guest α) = .ok a ↔ False := by
  simp [throw, throwThe, MonadExceptOf.throw]

@[simp] theorem mapError_eq_ok {δ : Type} {x : Except ε α} {f : ε → δ} {a : α} :
    x.mapError f = .ok a ↔ x = .ok a := by
  cases x <;> simp [Except.mapError]

/-! ## Loops

A `for` loop of the source that carries state is a `foldlM`, and what one
iteration preserves the whole loop preserves. -/

variable {σ : Type}

theorem foldlM_nil {f : σ → α → Except ε σ} {s s' : σ} :
    [].foldlM f s = .ok s' ↔ s = s' := by
  simp

theorem foldlM_cons {f : σ → α → Except ε σ} {a : α} {as : List α} {s s' : σ} :
    (a :: as).foldlM f s = .ok s' ↔ ∃ m, f s a = .ok m ∧ as.foldlM f m = .ok s' := by
  simp [List.foldlM_cons, bind_eq_ok]

/-- A loop of checks passes when every check does. -/
theorem forM_eq_ok {f : α → Guest PUnit} {as : List α} {u : PUnit} :
    as.forM f = .ok u ↔ ∀ a ∈ as, f a = .ok () := by
  induction as with
  | nil => simp
  | cons a as ih =>
      rw [List.forM_eq_forM, List.forM_cons, bind_eq_ok, List.forall_mem_cons, ← ih]
      exact ⟨fun ⟨_, ha, has⟩ => ⟨ha, has⟩, fun ⟨ha, has⟩ => ⟨_, ha, has⟩⟩

/-- A `collect` into a result: every element has its image, in order. -/
theorem mapM_eq_ok {f : α → Except ε β} {as : List α} {bs : List β} :
    as.mapM f = .ok bs ↔ as.map f = bs.map .ok := by
  induction as generalizing bs with
  | nil => cases bs <;> simp
  | cons a as ih =>
      rw [List.mapM_cons]
      simp only [bind_eq_ok, pure_eq_ok, ih]
      cases bs with
      | nil => simp
      | cons b bs => simp

/-- What an iteration that returns has checked of its element holds of every one. -/
theorem foldlM_mem {f : σ → α → Except ε σ} {Q : α → Prop}
    (step : ∀ a s s', f s a = .ok s' → Q a) :
    ∀ {as : List α} {s s' : σ}, as.foldlM f s = .ok s' → ∀ a ∈ as, Q a := by
  intro as
  induction as with
  | nil => simp
  | cons a as ih =>
      intro s s' h
      obtain ⟨m, hstep, hrest⟩ := foldlM_cons.mp h
      exact List.forall_mem_cons.mpr ⟨step a s m hstep, ih hrest⟩

/-- **The loop rule**: an invariant that speaks of the elements still to come, and
that every iteration carries one element further, holds at the end with nothing
left to come. -/
theorem foldlM_invariant {f : σ → α → Except ε σ} (Inv : List α → σ → Prop)
    (step : ∀ a as s s', Inv (a :: as) s → f s a = .ok s' → Inv as s') :
    ∀ as s s', Inv as s → as.foldlM f s = .ok s' → Inv [] s' := by
  intro as
  induction as with
  | nil =>
      intro s s' hinv hrun
      obtain rfl := foldlM_nil.mp hrun
      exact hinv
  | cons a as ih =>
      intro s s' hinv hrun
      obtain ⟨m, hstep, hrest⟩ := foldlM_cons.mp hrun
      exact ih m s' (step a as s m hinv hstep) hrest

end Guest
end Zkasper
