import Zkasper.Bls
import Mathlib.Data.Finsupp.Basic
import Mathlib.Algebra.BigOperators.Finsupp.Basic

/-! # Points as what they add up to

A reading of points in a group that is exact under every addition and negation of the
circuits, whichever adder it goes through. It is all that sums of keys need: what an
aggregate is worth is what its keys are worth together (`point_aggregatePoints`), and
the groups of a batch are worth, message by message, what its messages are worth
(`groupClaims_addMessages`), whichever groups they fell into. -/

namespace Zkasper

/-- What points are worth in a group. -/
structure PointModel (P : Primitives) (A : Type) [AddCommGroup A] where
  point : P.G1Point → A
  curveAdd : ∀ p q, P.sameX p q = false → point (P.curveAdd p q) = point p + point q
  neg : ∀ p, point (P.neg p) = -point p
  addCompleteSafe : ∀ p q r, P.addCompleteSafe p q = some r → point r = point p + point q

namespace PointModel

open Bls

variable {P : Primitives} {A : Type} [AddCommGroup A] (M : PointModel P A)

/-- A running sum: zero while nothing was added. -/
def sum (s : PointSum P) : A := s.value.elim 0 M.point

theorem sum_add {s s' : PointSum P} {p : P.G1Point} (h : s.add p = some s') :
    M.sum s' = M.sum s + M.point p := by
  rcases s with ⟨_ | current⟩
  · obtain rfl := Option.some.inj h
    simp [sum]
  · simp only [PointSum.add] at h
    split at h
    · cases h
    · next hx =>
        obtain rfl := Option.some.inj h
        exact M.curveAdd _ _ (Bool.eq_false_iff.mpr hx)

/-- A run of additions adds what its points are worth. -/
theorem sum_addAll : ∀ {points : List P.G1Point} {s s' : PointSum P},
    points.foldlM PointSum.add s = some s' → M.sum s' = M.sum s + (points.map M.point).sum := by
  intro points
  induction points with
  | nil =>
      intro s s' h
      obtain rfl := Option.some.inj h
      simp
  | cons p points ih =>
      intro s s' h
      obtain ⟨mid, hadd, hrest⟩ := Option.bind_eq_some_iff.mp h
      rw [ih hrest, M.sum_add hadd, List.map_cons, List.sum_cons, add_assoc]

theorem sum_get {s : PointSum P} {p : P.G1Point} (h : s.get = some p) : M.sum s = M.point p := by
  have hvalue : s.value = some p := h
  rw [sum, hvalue]
  rfl

/-- **An aggregate key** is worth what its keys are. -/
theorem point_aggregatePoints {points : List P.G1Point} {agg : P.G1Point}
    (h : aggregatePoints P points = some agg) : M.point agg = (points.map M.point).sum := by
  obtain ⟨s, hs, hget⟩ := Option.bind_eq_some_iff.mp h
  rw [← M.sum_get hget, M.sum_addAll hs]
  exact zero_add _

/-! ## Messages -/

/-- What one message claims: the sum of its keys, for its signing root. -/
noncomputable def messageClaim (m : SignedMessage P) : P.Bytes32 →₀ A :=
  Finsupp.single m.signingRoot (m.pubkeys.map M.point).sum

/-- What a list of messages claims together. -/
noncomputable def messageClaims (messages : List (SignedMessage P)) : P.Bytes32 →₀ A :=
  (messages.map M.messageClaim).sum

/-- What a grouping claims. -/
noncomputable def groupClaims (groups : List (P.Bytes32 × P.G1Point)) : P.Bytes32 →₀ A :=
  (groups.map fun group => Finsupp.single group.1 (M.point group.2)).sum

/-- Folding a key into its group adds it to what the groups claim. -/
theorem groupClaims_foldGroup {root : P.Bytes32} {agg : P.G1Point} :
    ∀ {groups groups' : List (P.Bytes32 × P.G1Point)}, foldGroup root agg groups = some groups' →
      M.groupClaims groups' = M.groupClaims groups + Finsupp.single root (M.point agg) := by
  intro groups
  induction groups with
  | nil =>
      intro groups' h
      obtain rfl := Option.some.inj h
      simp [groupClaims]
  | cons g groups ih =>
      intro groups' h
      obtain ⟨r, a⟩ := g
      simp only [foldGroup] at h
      split at h
      · -- the message has a group: its key is merged into the group's aggregate
        next heq =>
          obtain ⟨merged, hmerged, hret⟩ := Option.bind_eq_some_iff.mp h
          obtain rfl := Option.some.inj hret
          subst heq
          simp only [groupClaims, List.map_cons, List.sum_cons,
            M.addCompleteSafe _ _ _ hmerged, Finsupp.single_add]
          rw [add_right_comm]
      · -- another message's group is passed by
        obtain ⟨rest, hrest, hret⟩ := Option.bind_eq_some_iff.mp h
        obtain rfl := Option.some.inj hret
        have hih := ih hrest
        simp only [groupClaims, List.map_cons, List.sum_cons] at hih ⊢
        rw [hih, add_assoc]

/-- One message of the loop adds its claim. -/
theorem groupClaims_addMessage {s s' : Grouping P} {m : SignedMessage P}
    (h : addMessage s m = some s') :
    M.groupClaims s'.groups = M.groupClaims s.groups + M.messageClaim m := by
  simp only [addMessage, Option.bind_eq_bind, Option.bind_eq_some_iff, Option.pure_def,
    Option.ite_none_left_eq_some, Option.some.injEq] at h
  obtain ⟨-, agg, hagg, -, signatureSum, -, groups, hgroups, rfl⟩ := h
  rw [M.groupClaims_foldGroup hgroups, messageClaim, M.point_aggregatePoints hagg]

/-- **The whole loop** adds the claims of its messages, whichever groups they fell into. -/
theorem groupClaims_addMessages : ∀ {messages : List (SignedMessage P)} {s s' : Grouping P},
    messages.foldlM addMessage s = some s' →
      M.groupClaims s'.groups = M.groupClaims s.groups + M.messageClaims messages := by
  intro messages
  induction messages with
  | nil =>
      intro s s' h
      obtain rfl := Option.some.inj h
      simp [messageClaims]
  | cons m messages ih =>
      intro s s' h
      obtain ⟨mid, hadd, hrest⟩ := Option.bind_eq_some_iff.mp h
      rw [ih hrest, M.groupClaims_addMessage hadd, messageClaims, messageClaims, List.map_cons,
        List.sum_cons, add_assoc]

end PointModel
end Zkasper
