import Mathlib.Logic.Function.Basic
import Mathlib.Tactic.Common

/-! # Tables filled on demand

What a key stands for is computed at the first question about it and kept. The computation
can stop the whole program (`δ`), or have no answer (`ε`), which is not kept.

`Consistent` is the invariant of such a table: what it keeps is what would be computed. It
makes the table invisible (`snd_lookup`): a question has the answer of the computation,
whatever was asked before. -/

namespace Memo

variable {κ β ε δ : Type} [DecidableEq κ]

/-- Look a key up, computing what it stands for where that is not known. -/
def lookup (compute : κ → Except δ (Except ε β)) (memo : κ → Option β) (key : κ) :
    Except δ ((κ → Option β) × Except ε β) :=
  match memo key with
  | some b => .ok (memo, .ok b)
  | none =>
      match compute key with
      | .ok (.ok b) => .ok (Function.update memo key (some b), .ok b)
      | .ok (.error e) => .ok (memo, .error e)
      | .error stop => .error stop

/-- What a table keeps is what would be computed. -/
def Consistent (compute : κ → Except δ (Except ε β)) (memo : κ → Option β) : Prop :=
  ∀ key b, memo key = some b → compute key = .ok (.ok b)

variable {compute : κ → Except δ (Except ε β)} {memo memo' : κ → Option β} {key : κ}

omit [DecidableEq κ] in
theorem consistent_empty : Consistent compute fun _ => none := fun _ _ h => by cases h

/-- **The answer is the computation's**, whatever the table keeps. -/
theorem snd_lookup (h : Consistent compute memo) (key : κ) :
    Prod.snd <$> lookup compute memo key = compute key := by
  unfold lookup
  cases hmemo : memo key with
  | some b => exact (h key b hmemo).symm
  | none =>
      rcases hcompute : compute key with stop | e | b
      · rfl
      · rfl
      · rfl

/-- A question leaves a consistent table behind. -/
theorem Consistent.lookup {answer : Except ε β} (h : Consistent compute memo)
    (hlookup : lookup compute memo key = .ok (memo', answer)) : Consistent compute memo' := by
  unfold Memo.lookup at hlookup
  cases hmemo : memo key with
  | some b =>
      rw [hmemo] at hlookup
      obtain ⟨rfl, -⟩ := Prod.mk.inj (Except.ok.inj hlookup)
      exact h
  | none =>
      rw [hmemo] at hlookup
      rcases hcompute : compute key with stop | e | b
      · rw [hcompute] at hlookup
        cases hlookup
      · rw [hcompute] at hlookup
        obtain ⟨rfl, -⟩ := Prod.mk.inj (Except.ok.inj hlookup)
        exact h
      · rw [hcompute] at hlookup
        obtain ⟨rfl, -⟩ := Prod.mk.inj (Except.ok.inj hlookup)
        intro key' b' hb'
        by_cases hkey : key' = key
        · subst hkey
          rw [Function.update_self] at hb'
          rw [hcompute, Option.some.inj hb']
        · rw [Function.update_of_ne hkey] at hb'
          exact h key' b' hb'

end Memo
