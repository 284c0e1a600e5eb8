import Zkasper.Formal
import Zkasper.Points
import Mathlib.Algebra.Group.Pi.Basic

/-! # What a pairing is worth

The ideal reading of the curve. A point has integer coefficients over the key
generators, exact under addition and negation, and a Miller-loop accumulator
claims a formal combination of keys for every message. The final exponentiation of
an accumulator comes out at one exactly when every key claimed with a non-zero
coefficient belongs to someone who signed.

`millerAccumulator_claims` is all the circuits need of `miller_accumulator`:
whatever it merged and in whatever order, the accumulator claims for each message
the sum of the keys it was handed for it. -/

namespace Zkasper

/-- **The ideal pairing.** Keys are linearly independent generators: `coeff` reads
a point's coefficients, and `claims` what an accumulator says was signed by whom. -/
structure KeyModel (P : Primitives) where
  Key : Type
  coeff : P.G1Point → Key → ℤ
  claims : P.Fp12 → P.Bytes32 →₀ (Key → ℤ)
  /-- The owner of the key signed the message with this signing root. -/
  Signed : Key → P.Bytes32 → Prop
  coeff_curveAdd : ∀ p q, P.sameX p q = false → coeff (P.curveAdd p q) = coeff p + coeff q
  coeff_neg : ∀ p, coeff (P.neg p) = -coeff p
  coeff_addCompleteSafe : ∀ p q r, P.addCompleteSafe p q = some r → coeff r = coeff p + coeff q
  claims_fp12One : claims P.fp12One = 0
  claims_fp12Mul : ∀ f g, claims (P.fp12Mul f g) = claims f + claims g
  /-- A batch that pairs negated sums against hashed messages, and the generator
  against a signature sum, claims each sum for its message: `e(-agg, H(m)) * e(G,
  sig) = 1` says `agg` signed `m`. -/
  claims_millerLoopBatch : ∀ (groups : List (P.Bytes32 × P.G1Point)) (sig : P.G2Point),
    claims (P.millerLoopBatch (groups.map (fun group => P.neg group.2) ++ [P.g1Generator])
      (groups.map (fun group => P.hashToCurve group.1) ++ [sig])) =
        (groups.map fun group => Finsupp.single group.1 (coeff group.2)).sum
  finalExpIsOne_iff : ∀ f, P.finalExpIsOne f = true ↔ ∀ m k, claims f m k ≠ 0 → Signed k m

namespace KeyModel

open Bls

variable {P : Primitives} (M : KeyModel P)

/-- Points, as their coefficients. -/
def points : PointModel P (M.Key → ℤ) where
  point := M.coeff
  curveAdd := M.coeff_curveAdd
  neg := M.coeff_neg
  addCompleteSafe := M.coeff_addCompleteSafe

/-- The coefficients of a running sum: zero while nothing was added. -/
def sumCoeff (s : PointSum P) : M.Key → ℤ := s.value.elim 0 M.coeff

@[simp] theorem sumCoeff_none : M.sumCoeff ⟨none⟩ = 0 := rfl

@[simp] theorem sumCoeff_fromPoint (p : P.G1Point) :
    M.sumCoeff (PointSum.fromPoint p) = M.coeff p := rfl

theorem sumCoeff_add {s s' : PointSum P} {p : P.G1Point} (h : s.add p = some s') :
    M.sumCoeff s' = M.sumCoeff s + M.coeff p :=
  M.points.sum_add h

theorem sumCoeff_sub {s s' : PointSum P} {p : P.G1Point} (h : s.sub p = some s') :
    M.sumCoeff s' = M.sumCoeff s - M.coeff p := by
  rw [M.sumCoeff_add h, M.coeff_neg, sub_eq_add_neg]

theorem sumCoeff_get {s : PointSum P} {p : P.G1Point} (h : s.get = some p) :
    M.sumCoeff s = M.coeff p :=
  M.points.sum_get h

/-- A run of additions adds the coefficients of its points. -/
theorem sumCoeff_addAll {points : List P.G1Point} {s s' : PointSum P}
    (h : points.foldlM PointSum.add s = some s') :
    M.sumCoeff s' = M.sumCoeff s + (points.map M.coeff).sum :=
  M.points.sum_addAll h

/-! ## Messages -/

/-- What one message claims: the sum of its keys, for its signing root. -/
noncomputable def messageClaim (m : SignedMessage P) : P.Bytes32 →₀ (M.Key → ℤ) :=
  Finsupp.single m.signingRoot (m.pubkeys.map M.coeff).sum

/-- What a list of messages claims together. -/
noncomputable def messageClaims (messages : List (SignedMessage P)) : P.Bytes32 →₀ (M.Key → ℤ) :=
  (messages.map M.messageClaim).sum

@[simp] theorem messageClaims_nil : M.messageClaims ([] : List (SignedMessage P)) = 0 := rfl

@[simp] theorem messageClaims_cons (m : SignedMessage P) (messages : List (SignedMessage P)) :
    M.messageClaims (m :: messages) = M.messageClaim m + M.messageClaims messages := by
  simp [messageClaims]

@[simp] theorem messageClaims_append (xs ys : List (SignedMessage P)) :
    M.messageClaims (xs ++ ys) = M.messageClaims xs + M.messageClaims ys := by
  simp [messageClaims]

/-- **What an accumulator claims** is what its messages claim, however they were merged. -/
theorem millerAccumulator_claims {messages : List (SignedMessage P)} {f : P.Fp12}
    (h : millerAccumulator messages = some f) : M.claims f = M.messageClaims messages := by
  simp only [millerAccumulator, Option.bind_eq_bind, Option.bind_eq_some_iff, Option.pure_def,
    Option.ite_none_left_eq_some, Option.some.injEq] at h
  obtain ⟨-, s, hs, -, -, rfl⟩ := h
  rw [M.claims_millerLoopBatch]
  exact (M.points.groupClaims_addMessages hs).trans (zero_add _)

/-! ## Totals -/

/-- The coefficients an accumulator claims over all messages together. -/
noncomputable def total (c : P.Bytes32 →₀ (M.Key → ℤ)) : M.Key → ℤ := c.sum fun _ v => v

@[simp] theorem total_zero : M.total 0 = 0 := Finsupp.sum_zero_index

@[simp] theorem total_add (c c' : P.Bytes32 →₀ (M.Key → ℤ)) :
    M.total (c + c') = M.total c + M.total c' :=
  Finsupp.sum_add_index' (fun _ => rfl) fun _ _ _ => rfl

@[simp] theorem total_single (m : P.Bytes32) (v : M.Key → ℤ) :
    M.total (Finsupp.single m v) = v :=
  Finsupp.sum_single_index rfl

end KeyModel

/-! ## The free instance -/

namespace Formal

/-- What is paired against `m`, read at one generator. -/
theorem claims_apply (f : Pairing) (m : Term) (k : Fin 4) :
    (f.map fun entry => Finsupp.single entry.1 entry.2).sum m k = coefficient f m k := by
  induction f with
  | nil => rfl
  | cons entry f ih =>
      rw [List.map_cons, List.sum_cons, Finsupp.add_apply, Pi.add_apply, ih, coefficient,
        coefficient, List.map_cons, List.sum_cons, Finsupp.single_apply]
      congr 1
      split <;> rfl

/-- A message nothing is paired against has coefficient zero. -/
theorem coefficient_of_notMem {f : Pairing} {m : Term} (h : ∀ entry ∈ f, entry.1 ≠ m) (k : Fin 4) :
    coefficient f m k = 0 := by
  apply List.sum_eq_zero
  intro x hx
  obtain ⟨entry, hentry, rfl⟩ := List.mem_map.mp hx
  exact if_neg (h entry hentry)

/-- The free instance reads its own keys. -/
noncomputable def keyModel (S : Scenario) : KeyModel (formal S) where
  Key := Fin 4
  coeff p := p
  claims f := (f.map fun entry => Finsupp.single entry.1 entry.2).sum
  Signed k m := S.signed k m = true
  coeff_curveAdd _ _ _ := rfl
  coeff_neg _ := rfl
  coeff_addCompleteSafe _ _ _ h := (Option.some.inj h).symm
  claims_fp12One := rfl
  claims_fp12Mul f g := by
    show ((f ++ g).map _).sum = _
    rw [List.map_append, List.sum_append]
  claims_millerLoopBatch groups sig := by
    show ((pairs _ _).map _).sum = _
    induction groups with
    | nil =>
        cases sig with
        | message m =>
            have hzero : (fun k => -(0 : Fin 4 → ℤ) k) = 0 := funext fun _ => neg_zero
            simp only [List.map_nil, List.nil_append, pairs, List.map_cons, List.sum_cons,
              List.sum_nil, add_zero]
            exact (congrArg _ hzero).trans (Finsupp.single_zero m)
        | identity => rfl
        | signature => rfl
    | cons group groups ih =>
        have hneg : (fun k => -(fun j => -group.2 j) k) = group.2 := funext fun _ => neg_neg _
        simp only [List.map_cons, List.cons_append, pairs, List.sum_cons, hneg, ih]
  finalExpIsOne_iff f := by
    simp only [claims_apply, List.all_eq_true, List.mem_finRange, forall_const, Bool.or_eq_true,
      decide_eq_true_eq]
    refine ⟨fun h m k hne => ?_, fun h entry _ k => ?_⟩
    · by_cases hm : ∃ entry ∈ f, entry.1 = m
      · obtain ⟨entry, hentry, rfl⟩ := hm
        exact (h entry hentry k).resolve_left hne
      · simp only [not_exists, not_and] at hm
        exact absurd (coefficient_of_notMem hm k) hne
    · by_cases hzero : coefficient f entry.1 k = 0
      · exact .inl hzero
      · exact .inr (h entry.1 k hzero)

end Formal
end Zkasper
