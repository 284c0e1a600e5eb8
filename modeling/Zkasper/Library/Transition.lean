import Mathlib.Data.List.Basic
import Mathlib.Tactic.Common

/-! # Runs of a transition system

A system is a state, and a partial function that says what an event makes of it. Its
events are whatever can happen next: which of several parties moves, and whether a
message arrives. A run takes them in any order, and `Reached` is where the runs whose
every step meets a condition end up; the condition that always holds gives all runs. -/

namespace Zkasper.Transition

variable {σ ε : Type}

/-- What some run from `start` reaches, every step of it meeting `meets`. -/
inductive Reached (step : σ → ε → Option σ) (meets : σ → ε → Prop) (start : σ) : σ → Prop
  | start : Reached step meets start start
  | step {s s' : σ} {e : ε} (run : Reached step meets start s) (condition : meets s e)
      (moves : step s e = some s') : Reached step meets start s'

/-- The condition that every step meets. -/
def always : σ → ε → Prop := fun _ _ => True

instance (s : σ) (e : ε) : Decidable (always s e) := isTrue trivial

variable {step : σ → ε → Option σ} {meets meets' : σ → ε → Prop} {start s s' : σ}

namespace Reached

/-- **The run rule**: what holds at the start, and survives every step that meets the
condition, holds wherever a run gets to. -/
theorem invariant (Inv : σ → Prop) (hstart : Inv start)
    (hstep : ∀ s e s', Inv s → meets s e → step s e = some s' → Inv s')
    (h : Reached step meets start s) : Inv s := by
  induction h with
  | start => exact hstart
  | step _ condition moves ih => exact hstep _ _ _ ih condition moves

/-- A run that meets a condition meets every weaker one. -/
theorem mono (h : Reached step meets start s) (hweaker : ∀ s e, meets s e → meets' s e) :
    Reached step meets' start s := by
  induction h with
  | start => exact .start
  | step _ condition moves ih => exact .step ih (hweaker _ _ condition) moves

theorem trans (h : Reached step meets start s) (h' : Reached step meets s s') :
    Reached step meets start s' := by
  induction h' with
  | start => exact h
  | step _ condition moves ih => exact .step ih condition moves

end Reached

/-! ## Runs written out -/

variable [∀ s e, Decidable (meets s e)]

variable (step meets) in
/-- The events in order, one after the other, as long as they meet the condition. -/
def run : σ → List ε → Option σ
  | s, [] => some s
  | s, e :: es => if meets s e then (step s e).bind fun s' => run s' es else none

theorem Reached.of_run {es : List ε} (h : run step meets s es = some s') :
    Reached step meets s s' := by
  induction es generalizing s with
  | nil =>
      obtain rfl := Option.some.inj h
      exact .start
  | cons e es ih =>
      rw [run] at h
      split at h
      · next condition =>
          obtain ⟨m, hm, hrest⟩ := Option.bind_eq_some_iff.mp h
          exact (Reached.step .start condition hm).trans (ih hrest)
      · cases h

/-- Whether a run ends, and where it does has a decidable property, is decided by running it. -/
instance decidableSome {p : σ → Prop} [DecidablePred p] (o : Option σ) :
    Decidable (∃ s, o = some s ∧ p s) :=
  match o with
  | some s => decidable_of_iff (p s) (by simp)
  | none => isFalse (by simp)

end Zkasper.Transition
