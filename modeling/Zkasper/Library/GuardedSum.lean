import Mathlib.Algebra.BigOperators.Group.List.Basic

/-! # Guarded sums

Adding parts up one by one, where a part may join the running sum only if the two
have nothing in common. In a commutative monoid whose notion of having nothing in
common respects sums (`Apart`), such a loop depends on neither the order of the
parts nor how the loop is cut up: it goes through exactly when the parts are
pairwise apart, and ends with their sum (`run_eq_some`). -/

namespace GuardedSum

variable {M : Type} [AddCommMonoid M]

/-- Having nothing in common: symmetric, true of nothing and anything, and true of
a sum exactly when it is true of its parts. -/
structure Apart (D : M → M → Prop) : Prop where
  symm : ∀ a b, D a b → D b a
  zero : ∀ a, D 0 a
  add : ∀ a b c, D (a + b) c ↔ D a c ∧ D b c

variable (D : M → M → Prop) [DecidableRel D]

/-- The loop: the running sum takes the next part, or the run fails. -/
def run : M → List M → Option M
  | running, [] => some running
  | running, part :: parts => if D running part then run (running + part) parts else none

@[simp] theorem run_nil (running : M) : run D running [] = some running := rfl

theorem run_cons (running part : M) (parts : List M) :
    run D running (part :: parts) = if D running part then run D (running + part) parts else none :=
  rfl

/-- A loop can be cut in two anywhere. -/
theorem run_append (parts : List M) : ∀ running (rest : List M),
    run D running (parts ++ rest) = (run D running parts).bind fun mid => run D mid rest := by
  induction parts with
  | nil => simp
  | cons part parts ih =>
      intro running rest
      rw [List.cons_append, run_cons, run_cons]
      split
      · exact ih _ rest
      · rfl

variable {D}

/-- **What the loop computes**: it goes through exactly when the parts are apart
from one another and from what was there, and ends with the sum. -/
theorem run_eq_some (hD : Apart D) (parts : List M) : ∀ {running total : M},
    run D running parts = some total ↔
      (∀ part ∈ parts, D running part) ∧ parts.Pairwise D ∧ total = running + parts.sum := by
  induction parts with
  | nil => simp [eq_comm]
  | cons part parts ih =>
      intro running total
      rw [run_cons, List.forall_mem_cons, List.pairwise_cons, List.sum_cons, ← add_assoc]
      by_cases hfirst : D running part
      · rw [if_pos hfirst, ih]
        -- the rest is apart from the new sum when it is apart from both of its parts
        constructor
        · rintro ⟨hall, hpairwise, htotal⟩
          exact ⟨⟨hfirst, fun a ha => ((hD.add _ _ _).mp (hall a ha)).1⟩,
            ⟨fun a ha => ((hD.add _ _ _).mp (hall a ha)).2, hpairwise⟩, htotal⟩
        · rintro ⟨⟨-, hall⟩, ⟨hpart, hpairwise⟩, htotal⟩
          exact ⟨fun a ha => (hD.add _ _ _).mpr ⟨hall a ha, hpart a ha⟩, hpairwise, htotal⟩
      · rw [if_neg hfirst]
        constructor
        · intro h
          cases h
        · rintro ⟨⟨h, -⟩, -⟩
          exact absurd h hfirst

/-- From nothing, only the parts matter. -/
theorem run_zero_eq_some (hD : Apart D) {parts : List M} {total : M} :
    run D 0 parts = some total ↔ parts.Pairwise D ∧ total = parts.sum := by
  rw [run_eq_some hD, zero_add]
  constructor
  · rintro ⟨-, h⟩
    exact h
  · intro h
    exact ⟨fun part _ => hD.zero part, h⟩

/-- The order of the parts does not matter. -/
theorem run_zero_perm (hD : Apart D) {parts parts' : List M} (h : parts.Perm parts') {total : M} :
    run D 0 parts = some total ↔ run D 0 parts' = some total := by
  rw [run_zero_eq_some hD, run_zero_eq_some hD, h.sum_eq,
    h.pairwise_iff fun hab => hD.symm _ _ hab]

end GuardedSum
