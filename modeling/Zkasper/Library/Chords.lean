import Mathlib.AlgebraicGeometry.EllipticCurve.Affine.Point
import Mathlib.Tactic.LinearCombination

/-! # Chords and tangents

Adding points of a curve `y² = x³ + b` by the lines through them. A line is a slope
and an intercept, and both can come from anywhere: two equations say that a line is
the tangent at a point (`eq_tangent`), and two that it is the chord through two
(`eq_chord`), so a line that satisfies them has no freedom left.

What the tangent and the chord lead to is the sum in the group of the curve
(`Multiple.double`, `Multiple.add`), and the cases where there is no such line are
those where the sum is no affine point. -/

namespace Chords

/-- Affine coordinates. -/
structure Point (F : Type) where
  x : F
  y : F
  deriving DecidableEq

/-- `y = slope * x + intercept` -/
structure Line (F : Type) where
  slope : F
  intercept : F
  deriving DecidableEq

variable {F : Type} [Field F]

/-- The line passes through the point. -/
def Line.Through (l : Line F) (p : Point F) : Prop := l.slope * p.x + l.intercept = p.y

/-- The tangent at a point, whatever the constant of the curve. -/
def Point.tangent (p : Point F) : Line F :=
  ⟨3 • p.x ^ 2 / (p.y + p.y), p.y - 3 • p.x ^ 2 / (p.y + p.y) * p.x⟩

/-- The chord through two points. -/
def Point.chord (p q : Point F) : Line F :=
  ⟨(p.y - q.y) / (p.x - q.x), p.y - (p.y - q.y) / (p.x - q.x) * p.x⟩

/-- Where the line meets the curve again, mirrored. -/
def Line.sum (l : Line F) (p q : Point F) : Point F :=
  ⟨l.slope ^ 2 - p.x - q.x, -(l.slope * (l.slope ^ 2 - p.x - q.x) + l.intercept)⟩

/-! ## Lines that have to be these -/

theorem tangent_through (p : Point F) : p.tangent.Through p := by
  unfold Line.Through Point.tangent
  ring

theorem add_self_ne_zero {y : F} (htwo : (2 : F) ≠ 0) (hy : y ≠ 0) : y + y ≠ 0 := by
  rw [← two_mul]
  exact mul_ne_zero htwo hy

theorem tangent_slope {p : Point F} (htwo : (2 : F) ≠ 0) (hy : p.y ≠ 0) :
    p.tangent.slope * p.y + p.tangent.slope * p.y = 3 • p.x ^ 2 := by
  rw [← mul_add]
  exact div_mul_cancel₀ _ (add_self_ne_zero htwo hy)

theorem chord_through_left (p q : Point F) : (p.chord q).Through p := by
  unfold Line.Through Point.chord
  ring

theorem chord_through_right {p q : Point F} (hx : p.x ≠ q.x) : (p.chord q).Through q := by
  have hne : p.x - q.x ≠ 0 := sub_ne_zero.mpr hx
  have hslope := div_mul_cancel₀ (p.y - q.y) hne
  show (p.y - q.y) / (p.x - q.x) * q.x + (p.y - (p.y - q.y) / (p.x - q.x) * p.x) = q.y
  linear_combination -hslope

/-- A line through a point has the intercept that its slope leaves it. -/
theorem Line.Through.intercept_eq {l : Line F} {p : Point F} (h : l.Through p) :
    l.intercept = p.y - l.slope * p.x :=
  eq_sub_of_add_eq' h

/-- **Nothing else is tangent** at a point off the axis. -/
theorem eq_tangent {l : Line F} {p : Point F} (htwo : (2 : F) ≠ 0) (hy : p.y ≠ 0)
    (hline : l.Through p) (hslope : l.slope * p.y + l.slope * p.y = 3 • p.x ^ 2) :
    l = p.tangent := by
  obtain ⟨slope, intercept⟩ := l
  have hsame : slope = p.tangent.slope := by
    have h := hslope.trans (tangent_slope htwo hy).symm
    rw [← mul_add, ← mul_add] at h
    exact mul_right_cancel₀ (add_self_ne_zero htwo hy) h
  have hintercept := hline.intercept_eq
  have htangent := (tangent_through p).intercept_eq
  simp only at hintercept
  rw [Line.mk.injEq]
  exact ⟨hsame, by rw [hintercept, htangent, hsame]⟩

/-- **Nothing else passes through both** of two points beside each other. -/
theorem eq_chord {l : Line F} {p q : Point F} (hx : p.x ≠ q.x) (hp : l.Through p)
    (hq : l.Through q) : l = p.chord q := by
  obtain ⟨slope, intercept⟩ := l
  have hne : p.x - q.x ≠ 0 := sub_ne_zero.mpr hx
  have hsame : slope = (p.chord q).slope := by
    apply mul_right_cancel₀ hne
    have hp' : slope * p.x + intercept = p.y := hp
    have hq' : slope * q.x + intercept = q.y := hq
    show slope * (p.x - q.x) = (p.y - q.y) / (p.x - q.x) * (p.x - q.x)
    rw [div_mul_cancel₀ _ hne]
    linear_combination hp' - hq'
  have hintercept := hp.intercept_eq
  have hchord := (chord_through_left p q).intercept_eq
  simp only at hintercept
  rw [Line.mk.injEq]
  exact ⟨hsame, by rw [hintercept, hchord, hsame]⟩

/-! ## Sums -/

section Group

open WeierstrassCurve

variable {b : F}

/-- `y² = x³ + b` -/
def curve (b : F) : Affine F := ⟨0, 0, 0, 0, b⟩

theorem negY_curve (x y : F) : (curve b).negY x y = -y := by
  simp [Affine.negY, curve]

/-- Affine points with the same coordinates. -/
theorem some_congr {x y x' y' : F} {h : (curve b).Nonsingular x y} (hx : x = x') (hy : y = y') :
    ∃ h' : (curve b).Nonsingular x' y', Affine.Point.some x y h = .some x' y' h' := by
  subst hx hy
  exact ⟨h, rfl⟩

/-- The line through a point leads where the group law does with its slope. -/
theorem Line.sum_eq {l : Line F} {p : Point F} (hline : l.Through p) (b : F) (q : Point F) :
    l.sum p q = ⟨(curve b).addX p.x q.x l.slope, (curve b).addY p.x q.x p.y l.slope⟩ := by
  have hintercept := hline.intercept_eq
  rw [Line.sum, hintercept, Point.mk.injEq]
  simp only [Affine.addY, Affine.negAddY, Affine.addX, negY_curve]
  simp only [curve]
  constructor <;> ring

variable [DecidableEq F]

/-- The affine point is a multiple of a point of the curve. -/
def Multiple (Q : (curve b).Point) (n : ℕ) (p : Point F) : Prop :=
  ∃ h : (curve b).Nonsingular p.x p.y, n • Q = .some p.x p.y h

/-- Two points that are not opposite add up to where the line through them leads. -/
theorem some_add_some {p q : Point F} (hp : (curve b).Nonsingular p.x p.y)
    (hq : (curve b).Nonsingular q.x q.y) (hxy : ¬ (p.x = q.x ∧ p.y = (curve b).negY q.x q.y))
    {l : Line F} (hline : l.Through p) (hslope : (curve b).slope p.x q.x p.y q.y = l.slope) :
    ∃ h, (.some p.x p.y hp + .some q.x q.y hq : (curve b).Point) =
      .some (l.sum p q).x (l.sum p q).y h := by
  rw [Affine.Point.add_some hxy]
  apply some_congr
  · rw [Line.sum_eq hline b, hslope]
  · rw [Line.sum_eq hline b, hslope]

/-- **The tangent doubles.** -/
theorem Multiple.double {Q : (curve b).Point} {n : ℕ} {p : Point F} (h : Multiple Q n p)
    (htwo : (2 : F) ≠ 0) (hy : p.y ≠ 0) : Multiple Q (2 * n) (p.tangent.sum p p) := by
  obtain ⟨hp, hmultiple⟩ := h
  have hne : p.y ≠ (curve b).negY p.x p.y := by
    rw [negY_curve]
    intro heq
    apply mul_ne_zero htwo hy
    linear_combination heq
  have hslope : (curve b).slope p.x p.x p.y p.y = p.tangent.slope := by
    rw [Affine.slope_of_Y_ne rfl hne, negY_curve]
    simp only [curve, Point.tangent]
    congr 1 <;> ring
  obtain ⟨h', hsum⟩ := some_add_some hp hp (fun hxy => hne hxy.2) (tangent_through p) hslope
  refine ⟨h', ?_⟩
  rw [two_mul, add_nsmul, hmultiple, hsum]

/-- **The chord adds.** -/
theorem Multiple.add {Q : (curve b).Point} {m n : ℕ} {p q : Point F} (h : Multiple Q m p)
    (h' : Multiple Q n q) (hx : p.x ≠ q.x) : Multiple Q (m + n) ((p.chord q).sum p q) := by
  obtain ⟨hp, hm⟩ := h
  obtain ⟨hq, hn⟩ := h'
  have hslope : (curve b).slope p.x q.x p.y q.y = (p.chord q).slope := Affine.slope_of_X_ne hx
  obtain ⟨h', hsum⟩ := some_add_some hp hq (fun hxy => hx hxy.1) (chord_through_left p q) hslope
  refine ⟨h', ?_⟩
  rw [add_nsmul, hm, hn, hsum]

/-- A multiple on the axis is twice nothing. -/
theorem Multiple.y_ne_zero {Q : (curve b).Point} {n : ℕ} {p : Point F} (h : Multiple Q n p)
    (hne : (2 * n) • Q ≠ 0) : p.y ≠ 0 := by
  obtain ⟨hp, hmultiple⟩ := h
  intro hy
  apply hne
  rw [two_mul, add_nsmul, hmultiple]
  apply Affine.Point.add_self_of_Y_eq
  rw [negY_curve, hy, neg_zero]

/-- Multiples above each other are equal or opposite. -/
theorem Multiple.x_ne {Q : (curve b).Point} {m n : ℕ} {p q : Point F} (h : Multiple Q m p)
    (h' : Multiple Q n q) (hle : n ≤ m) (hsub : (m - n) • Q ≠ 0) (hadd : (m + n) • Q ≠ 0) :
    p.x ≠ q.x := by
  obtain ⟨hp, hm⟩ := h
  obtain ⟨hq, hn⟩ := h'
  intro hx
  rcases Affine.Point.X_eq_iff.mp hx with heq | heq
  · apply hsub
    rw [← hm, ← hn] at heq
    have hsplit : (m - n) • Q + n • Q = m • Q := by rw [← add_nsmul, Nat.sub_add_cancel hle]
    rw [heq] at hsplit
    exact add_eq_right.mp hsplit
  · apply hadd
    rw [add_nsmul, hm, hn, heq, neg_add_cancel]

end Group
end Chords
