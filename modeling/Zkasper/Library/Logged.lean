import Mathlib.Data.List.Basic
import Mathlib.Tactic.Common

/-! # Computations that leave a log

A computation that may fail, and writes down what it does on its way. What was written
before a failure stays written. `Leaves` is the triple: started on a log, the computation
leaves a log with one property however it ends, and if it does not fail a result with
another. -/

namespace Zkasper.Library

/-- A result or a failure, and what was logged up to there. -/
structure Logged (ω ε α : Type) where
  log : List ω
  result : Except ε α

namespace Logged

variable {ω ε α β : Type}

instance : Monad (Logged ω ε) where
  pure a := ⟨[], .ok a⟩
  bind x f :=
    match x.result with
    | .error e => ⟨x.log, .error e⟩
    | .ok a => ⟨x.log ++ (f a).log, (f a).result⟩

/-- Nothing is logged. -/
def lift (x : Except ε α) : Logged ω ε α := ⟨[], x⟩

/-- One entry is logged. -/
def tell (entry : ω) : Logged ω ε Unit := ⟨[entry], .ok ()⟩

/-! ## Taking a run apart -/

theorem bind_of_error {x : Logged ω ε α} {f : α → Logged ω ε β} {e : ε}
    (h : x.result = .error e) : x >>= f = ⟨x.log, .error e⟩ := by
  simp only [bind, h]

theorem bind_of_ok {x : Logged ω ε α} {f : α → Logged ω ε β} {a : α} (h : x.result = .ok a) :
    x >>= f = ⟨x.log ++ (f a).log, (f a).result⟩ := by
  simp only [bind, h]

/-- A run in two halves returned: the first half returned, and the second one after it. -/
theorem bind_result_eq_ok {x : Logged ω ε α} {f : α → Logged ω ε β} {b : β} :
    (x >>= f).result = .ok b ↔ ∃ a, x.result = .ok a ∧ (f a).result = .ok b := by
  cases h : x.result with
  | error e => simp [bind_of_error h]
  | ok a => simp [bind_of_ok h]

/-! ## Triples -/

/-- **The triple**: on top of `before`, the log that is left has the one property, and a
result the other. -/
structure Leaves (before : List ω) (x : Logged ω ε α) (Log : List ω → Prop)
    (Q : α → List ω → Prop) : Prop where
  log : Log (before ++ x.log)
  ok : ∀ a, x.result = .ok a → Q a (before ++ x.log)

namespace Leaves

variable {before : List ω} {x : Logged ω ε α} {Log : List ω → Prop} {Q : α → List ω → Prop}

protected theorem pure {a : α} (hlog : Log before) (hpost : Q a before) :
    Leaves before (pure a : Logged ω ε α) Log Q := by
  constructor
  · show Log (before ++ [])
    rwa [List.append_nil]
  · intro b hb
    obtain rfl := Except.ok.inj hb
    show Q a (before ++ [])
    rwa [List.append_nil]

/-- The second half starts on the log that the first one leaves. -/
protected theorem bind {f : α → Logged ω ε β} {Last : β → List ω → Prop}
    (hx : Leaves before x Log Q)
    (hf : ∀ a log, Q a log → Log log → Leaves log (f a) Log Last) :
    Leaves before (x >>= f) Log Last := by
  cases h : x.result with
  | error e =>
      rw [bind_of_error h]
      exact ⟨hx.log, fun b hb => by cases hb⟩
  | ok a =>
      have hrest := hf a _ (hx.ok a h) hx.log
      rw [bind_of_ok h]
      constructor
      · show Log (before ++ (x.log ++ (f a).log))
        rw [← List.append_assoc]
        exact hrest.log
      · intro b hb
        show Last b (before ++ (x.log ++ (f a).log))
        rw [← List.append_assoc]
        exact hrest.ok b hb

protected theorem lift {result : Except ε α} (hlog : Log before)
    (hpost : ∀ a, result = .ok a → Q a before) :
    Leaves before (lift result : Logged ω ε α) Log Q := by
  constructor
  · show Log (before ++ [])
    rwa [List.append_nil]
  · intro a ha
    show Q a (before ++ [])
    rw [List.append_nil]
    exact hpost a ha

protected theorem tell {entry : ω} {Q : Unit → List ω → Prop} (hlog : Log (before ++ [entry]))
    (hpost : Q () (before ++ [entry])) :
    Leaves before (tell entry : Logged ω ε Unit) Log Q :=
  ⟨hlog, fun _ _ => hpost⟩

end Leaves
end Logged
end Zkasper.Library
