import Zkasper.Formal
import Zkasper.Points
import Mathlib.Algebra.Group.Hom.Instances
import Mathlib.Algebra.Group.Subgroup.Basic
import Mathlib.Algebra.Ring.Int.Defs
import Mathlib.Data.Finsupp.Order

/-! # Messages in any order and any grouping

The ideal pairing: points are worth something in two groups, a pairing of the two is
bilinear, and an accumulator is an exponent. A Miller loop over points none of which is
the identity has the sum of what it paired for its exponent, a product of accumulators the
sum of theirs, and the final exponentiation asks whether it is zero.

What an accumulator says is then a statement about its messages as a whole
(`finalExpIsOne_iff`), and it does not matter how they are ordered, merged or parted. What
does matter is whether there is one at all (`millerAccumulator_isSome`): the batch refuses
identities, so messages that cancel out verify apart and not together. -/

namespace Zkasper

open Bls

/-- **The ideal bilinear model.** -/
structure BilinearModel (P : Primitives) (A B T : Type) [AddCommGroup A] [AddCommGroup B]
    [AddCommGroup T] extends PointModel P A where
  twist : P.G2Point → B
  pairing : A →+ B →+ T
  exponent : P.Fp12 → T
  /-- The part of the twist that signatures are made in. -/
  subgroup : AddSubgroup B
  point_eq_zero : ∀ p, point p = 0 ↔ p = P.g1Identity
  twist_eq_zero : ∀ q, twist q = 0 ↔ q = P.g2Identity
  isOnSubgroupTwist_iff : ∀ q, P.isOnSubgroupTwist q = true ↔ twist q ∈ subgroup
  /-- The complete adders add whatever they are given. -/
  addCompleteSafe_isSome : ∀ p q, (P.addCompleteSafe p q).isSome
  addCompleteSafeTwist : ∀ p q, ∃ r, P.addCompleteSafeTwist p q = some r ∧
    twist r = twist p + twist q
  generator_ne : point P.g1Generator ≠ 0
  hashToCurve_ne : ∀ root, twist (P.hashToCurve root) ≠ 0
  /-- "A Miller loop over an identity point is undefined." -/
  exponent_millerLoopBatch : ∀ pairs : List (P.G1Point × P.G2Point),
    (∀ pair ∈ pairs, point pair.1 ≠ 0 ∧ twist pair.2 ≠ 0) →
      exponent (P.millerLoopBatch (pairs.map Prod.fst) (pairs.map Prod.snd)) =
        (pairs.map fun pair => pairing (point pair.1) (twist pair.2)).sum
  exponent_fp12One : exponent P.fp12One = 0
  exponent_fp12Mul : ∀ f g, exponent (P.fp12Mul f g) = exponent f + exponent g
  finalExpIsOne_iff : ∀ f, P.finalExpIsOne f = true ↔ exponent f = 0

/-- Two messages with one signing root, as one. -/
def Bls.SignedMessage.merge {P : Primitives} (m m' : SignedMessage P) : SignedMessage P :=
  ⟨m.pubkeys ++ m'.pubkeys, m.signingRoot, m.signatures ++ m'.signatures⟩

/-- Lists that differ in their order, and in which messages with one signing root are
merged. -/
inductive Regrouped {P : Primitives} : List (SignedMessage P) → List (SignedMessage P) → Prop where
  | perm {xs ys : List (SignedMessage P)} (h : xs.Perm ys) : Regrouped xs ys
  | merge (m m' : SignedMessage P) (rest : List (SignedMessage P))
      (h : m.signingRoot = m'.signingRoot) : Regrouped (m :: m' :: rest) (m.merge m' :: rest)
  | symm {xs ys : List (SignedMessage P)} (h : Regrouped xs ys) : Regrouped ys xs
  | trans {xs ys zs : List (SignedMessage P)} (h : Regrouped xs ys) (h' : Regrouped ys zs) :
      Regrouped xs zs

/-- A message the loop reads: it has keys, which add up, and signatures, all of them points
other than the one at infinity. -/
structure Bls.SignedMessage.Readable {P : Primitives} (m : SignedMessage P) : Prop where
  pubkeys : m.pubkeys ≠ []
  aggregate : (aggregatePoints P m.pubkeys).isSome
  signatures : m.signatures ≠ []
  points : ∀ signature ∈ m.signatures, ∃ sig, P.decompressTwist signature = some (sig, false)

namespace BilinearModel

variable {P : Primitives} {A B T : Type} [AddCommGroup A] [AddCommGroup B] [AddCommGroup T]
  (M : BilinearModel P A B T)

/-! ## What the messages state -/

/-- What a signature is worth, nothing where it does not decompress. -/
def signaturePoint (signature : BlsSignature) : B :=
  (P.decompressTwist signature).elim 0 fun decompressed => M.twist decompressed.1

/-- The sum of all the signatures. -/
def signatureSum (messages : List (SignedMessage P)) : B :=
  (messages.flatMap fun m => m.signatures.map M.signaturePoint).sum

/-- The sum of the keys of one message, paired against its root. -/
def paired (m : SignedMessage P) : T :=
  M.pairing (m.pubkeys.map M.point).sum (M.twist (P.hashToCurve m.signingRoot))

/-- The pairing equation of the messages. -/
def Balanced (messages : List (SignedMessage P)) : Prop :=
  (messages.map M.paired).sum = M.pairing (M.point P.g1Generator) (M.signatureSum messages)

/-- **The messages an accumulator is made of**: each is readable, and nothing they sum to
is an identity. -/
structure Accepts (messages : List (SignedMessage P)) : Prop where
  nonempty : messages ≠ []
  readable : ∀ m ∈ messages, m.Readable
  signatures : M.signatureSum messages ≠ 0
  subgroup : M.signatureSum messages ∈ M.subgroup
  keys : ∀ m ∈ messages, M.messageClaims messages m.signingRoot ≠ 0

/-- Claims paired, each against its root. -/
noncomputable def pairClaims : (P.Bytes32 →₀ A) →+ T :=
  Finsupp.liftAddHom fun root => M.pairing.flip (M.twist (P.hashToCurve root))

@[simp] theorem pairClaims_single (root : P.Bytes32) (a : A) :
    M.pairClaims (Finsupp.single root a) = M.pairing a (M.twist (P.hashToCurve root)) := by
  rw [pairClaims, Finsupp.liftAddHom_apply_single]
  rfl

theorem pairClaims_messageClaims (messages : List (SignedMessage P)) :
    M.pairClaims (M.messageClaims messages) = (messages.map M.paired).sum := by
  rw [PointModel.messageClaims, map_list_sum, List.map_map]
  refine congrArg List.sum (List.map_congr_left fun m _ => ?_)
  exact M.pairClaims_single m.signingRoot _

theorem pairClaims_groupClaims (groups : List (P.Bytes32 × P.G1Point)) :
    M.pairClaims (M.groupClaims groups) = (groups.map fun group =>
      M.pairing (M.point group.2) (M.twist (P.hashToCurve group.1))).sum := by
  rw [PointModel.groupClaims, map_list_sum, List.map_map]
  refine congrArg List.sum (List.map_congr_left fun group _ => ?_)
  exact M.pairClaims_single group.1 _

/-! ## The loop -/

include M in
/-- A signature is added exactly if it is a point. -/
theorem addSignature_isSome (sum : P.G2Point) (signature : BlsSignature) :
    (∃ sum', addSignature sum signature = some sum') ↔
      ∃ sig, P.decompressTwist signature = some (sig, false) := by
  constructor
  · rintro ⟨sum', h⟩
    obtain ⟨⟨sig, infinite⟩, hsig, h⟩ := Option.bind_eq_some_iff.mp h
    cases infinite with
    | true => cases h
    | false => exact ⟨sig, hsig⟩
  · rintro ⟨sig, hsig⟩
    obtain ⟨sum', hsum', -⟩ := M.addCompleteSafeTwist sum sig
    refine ⟨sum', ?_⟩
    simp [addSignature, hsig, hsum']

theorem twist_addSignature {sum sum' : P.G2Point} {signature : BlsSignature}
    (h : addSignature sum signature = some sum') :
    M.twist sum' = M.twist sum + M.signaturePoint signature := by
  obtain ⟨⟨sig, infinite⟩, hsig, h⟩ := Option.bind_eq_some_iff.mp h
  cases infinite with
  | true => cases h
  | false =>
      obtain ⟨r, hr, htwist⟩ := M.addCompleteSafeTwist sum sig
      obtain rfl : r = sum' := Option.some.inj (hr.symm.trans h)
      rw [htwist, signaturePoint, hsig]
      rfl

include M in
/-- The signatures of a message are added up exactly if all of them are points. -/
theorem addSignatures_isSome {signatures : List BlsSignature} (sum : P.G2Point) :
    (∃ sum', signatures.foldlM addSignature sum = some sum') ↔
      ∀ signature ∈ signatures, ∃ sig, P.decompressTwist signature = some (sig, false) := by
  induction signatures generalizing sum with
  | nil => exact ⟨fun _ _ h => absurd h List.not_mem_nil, fun _ => ⟨sum, rfl⟩⟩
  | cons signature signatures ih =>
      rw [List.forall_mem_cons, ← M.addSignature_isSome sum]
      constructor
      · rintro ⟨sum', h⟩
        obtain ⟨mid, hadd, hrest⟩ := Option.bind_eq_some_iff.mp h
        exact ⟨⟨mid, hadd⟩, (ih mid).mp ⟨sum', hrest⟩⟩
      · rintro ⟨⟨mid, hadd⟩, hrest⟩
        obtain ⟨sum', hsum'⟩ := (ih mid).mpr hrest
        exact ⟨sum', Option.bind_eq_some_iff.mpr ⟨mid, hadd, hsum'⟩⟩

theorem twist_addSignatures {signatures : List BlsSignature} {sum sum' : P.G2Point}
    (h : signatures.foldlM addSignature sum = some sum') :
    M.twist sum' = M.twist sum + (signatures.map M.signaturePoint).sum := by
  induction signatures generalizing sum with
  | nil =>
      obtain rfl := Option.some.inj h
      exact (add_zero _).symm
  | cons signature signatures ih =>
      obtain ⟨mid, hadd, hrest⟩ := Option.bind_eq_some_iff.mp h
      rw [ih hrest, M.twist_addSignature hadd, List.map_cons, List.sum_cons, add_assoc]

include M in
theorem foldGroup_isSome (root : P.Bytes32) (agg : P.G1Point)
    (groups : List (P.Bytes32 × P.G1Point)) :
    ∃ groups', foldGroup root agg groups = some groups' := by
  induction groups with
  | nil => exact ⟨_, rfl⟩
  | cons group groups ih =>
      obtain ⟨r, a⟩ := group
      simp only [foldGroup]
      split
      · obtain ⟨merged, hmerged⟩ := Option.isSome_iff_exists.mp (M.addCompleteSafe_isSome a agg)
        exact ⟨_, Option.bind_eq_some_iff.mpr ⟨merged, hmerged, rfl⟩⟩
      · obtain ⟨groups', hgroups⟩ := ih
        exact ⟨_, Option.bind_eq_some_iff.mpr ⟨groups', hgroups, rfl⟩⟩

/-- A root is added at the end, where it is not there. -/
theorem roots_foldGroup {root : P.Bytes32} {agg : P.G1Point} :
    ∀ {groups groups' : List (P.Bytes32 × P.G1Point)}, foldGroup root agg groups = some groups' →
      groups'.map Prod.fst = if root ∈ groups.map Prod.fst then groups.map Prod.fst
        else groups.map Prod.fst ++ [root] := by
  intro groups
  induction groups with
  | nil =>
      intro groups' h
      obtain rfl := Option.some.inj h
      rfl
  | cons group groups ih =>
      intro groups' h
      obtain ⟨r, a⟩ := group
      simp only [foldGroup] at h
      split at h
      · next heq =>
          obtain ⟨merged, -, hret⟩ := Option.bind_eq_some_iff.mp h
          obtain rfl := Option.some.inj hret
          rw [List.map_cons, List.map_cons, if_pos (heq ▸ List.mem_cons_self)]
      · next hne =>
          obtain ⟨rest, hrest, hret⟩ := Option.bind_eq_some_iff.mp h
          obtain rfl := Option.some.inj hret
          rw [List.map_cons, List.map_cons, ih hrest]
          by_cases hmem : root ∈ groups.map Prod.fst
          · rw [if_pos hmem, if_pos (List.mem_cons_of_mem _ hmem)]
          · rw [if_neg hmem, if_neg (fun h => (List.mem_cons.mp h).elim (Ne.symm hne) hmem)]
            rfl

include M in
/-- **The loop reads a message** exactly if it is readable, whatever it read before. -/
theorem addMessage_isSome (s : Grouping P) (m : SignedMessage P) :
    (∃ s', addMessage s m = some s') ↔ m.Readable := by
  simp only [addMessage, Option.bind_eq_bind, Option.bind_eq_some_iff, Option.pure_def,
    Option.ite_none_left_eq_some, Option.some.injEq]
  constructor
  · rintro ⟨s', hpubkeys, agg, hagg, hsignatures, sum, hsum, -⟩
    exact ⟨hpubkeys, Option.isSome_iff_exists.mpr ⟨agg, hagg⟩, hsignatures,
      (M.addSignatures_isSome s.signatureSum).mp ⟨sum, hsum⟩⟩
  · intro h
    obtain ⟨agg, hagg⟩ := Option.isSome_iff_exists.mp h.aggregate
    obtain ⟨sum, hsum⟩ := (M.addSignatures_isSome s.signatureSum).mpr h.points
    obtain ⟨groups, hgroups⟩ := M.foldGroup_isSome m.signingRoot agg s.groups
    exact ⟨_, h.pubkeys, agg, hagg, h.signatures, sum, hsum, groups, hgroups, rfl⟩

include M in
theorem addMessages_isSome {messages : List (SignedMessage P)} (s : Grouping P) :
    (∃ s', messages.foldlM addMessage s = some s') ↔ ∀ m ∈ messages, m.Readable := by
  induction messages generalizing s with
  | nil => exact ⟨fun _ _ h => absurd h List.not_mem_nil, fun _ => ⟨s, rfl⟩⟩
  | cons m messages ih =>
      rw [List.forall_mem_cons, ← M.addMessage_isSome s]
      constructor
      · rintro ⟨s', h⟩
        obtain ⟨mid, hadd, hrest⟩ := Option.bind_eq_some_iff.mp h
        exact ⟨⟨mid, hadd⟩, (ih mid).mp ⟨s', hrest⟩⟩
      · rintro ⟨⟨mid, hadd⟩, hrest⟩
        obtain ⟨s', hs'⟩ := (ih mid).mpr hrest
        exact ⟨s', Option.bind_eq_some_iff.mpr ⟨mid, hadd, hs'⟩⟩

/-- What the loop carries after some messages, but for what the groups claim. -/
structure Carried (messages : List (SignedMessage P)) (s : Grouping P) : Prop where
  nodup : (s.groups.map Prod.fst).Nodup
  roots : ∀ root, root ∈ s.groups.map Prod.fst ↔ ∃ m ∈ messages, m.signingRoot = root
  signatures : M.twist s.signatureSum = M.signatureSum messages

theorem carried_nil : M.Carried [] ⟨[], P.g2Identity⟩ where
  nodup := List.nodup_nil
  roots _ := ⟨fun h => absurd h List.not_mem_nil, fun ⟨_, h, _⟩ => absurd h List.not_mem_nil⟩
  signatures := (M.twist_eq_zero _).mpr rfl

/-- One message more. -/
theorem Carried.addMessage {M : BilinearModel P A B T} {messages : List (SignedMessage P)}
    {s s' : Grouping P} {m : SignedMessage P} (h : M.Carried messages s)
    (hadd : addMessage s m = some s') : M.Carried (messages ++ [m]) s' := by
  simp only [Bls.addMessage, Option.bind_eq_bind, Option.bind_eq_some_iff, Option.pure_def,
    Option.ite_none_left_eq_some, Option.some.injEq] at hadd
  obtain ⟨-, agg, -, -, sum, hsum, groups, hgroups, rfl⟩ := hadd
  have hroots := roots_foldGroup hgroups
  refine ⟨?_, fun root => ?_, ?_⟩
  · show (groups.map Prod.fst).Nodup
    rw [hroots]
    split
    · exact h.nodup
    · next hnew => exact List.nodup_append.mpr ⟨h.nodup, List.nodup_singleton _, by
        rintro r hr r' hr' rfl
        exact hnew (List.mem_singleton.mp hr' ▸ hr)⟩
  · show root ∈ groups.map Prod.fst ↔ _
    have hbefore := h.roots
    rw [hroots]
    simp only [List.mem_append, List.mem_singleton]
    constructor
    · intro hmem
      split at hmem
      · obtain ⟨m', hm', hroot⟩ := (hbefore root).mp hmem
        exact ⟨m', .inl hm', hroot⟩
      · rcases List.mem_append.mp hmem with hold | hnew
        · obtain ⟨m', hm', hroot⟩ := (hbefore root).mp hold
          exact ⟨m', .inl hm', hroot⟩
        · exact ⟨m, .inr rfl, (List.mem_singleton.mp hnew).symm⟩
    · rintro ⟨m', hm' | rfl, rfl⟩
      · have hold := (hbefore m'.signingRoot).mpr ⟨m', hm', rfl⟩
        split
        · exact hold
        · exact List.mem_append_left _ hold
      · split
        · next hold => exact hold
        · exact List.mem_append_right _ (List.mem_singleton_self _)
  · show M.twist sum = _
    rw [M.twist_addSignatures hsum, h.signatures, signatureSum, signatureSum, List.flatMap_append,
      List.sum_append, List.flatMap_singleton]

theorem Carried.addMessages {M : BilinearModel P A B T} {before messages : List (SignedMessage P)}
    {s s' : Grouping P} (h : M.Carried before s)
    (hadd : messages.foldlM Bls.addMessage s = some s') : M.Carried (before ++ messages) s' := by
  induction messages generalizing before s with
  | nil =>
      obtain rfl := Option.some.inj hadd
      rwa [List.append_nil]
  | cons m messages ih =>
      obtain ⟨mid, hmid, hrest⟩ := Option.bind_eq_some_iff.mp hadd
      rw [List.append_cons]
      exact ih (h.addMessage hmid) hrest

/-- What is claimed for a root is what its only group is worth. -/
theorem groupClaims_apply {groups : List (P.Bytes32 × P.G1Point)}
    (hnodup : (groups.map Prod.fst).Nodup) {root : P.Bytes32} {agg : P.G1Point}
    (hgroup : (root, agg) ∈ groups) : M.groupClaims groups root = M.point agg := by
  induction groups with
  | nil => exact absurd hgroup List.not_mem_nil
  | cons group groups ih =>
      obtain ⟨hnew, hrest⟩ := List.nodup_cons.mp hnodup
      have hothers : ∀ root' ∉ groups.map Prod.fst, M.groupClaims groups root' = 0 := by
        intro root' hnone
        rw [PointModel.groupClaims, ← Finsupp.applyAddHom_apply, map_list_sum, List.map_map]
        apply List.sum_eq_zero
        intro a ha
        obtain ⟨other, hother, rfl⟩ := List.mem_map.mp ha
        exact Finsupp.single_eq_of_ne fun heq => hnone (heq ▸ List.mem_map_of_mem hother)
      have hcons : M.groupClaims (group :: groups) =
          Finsupp.single group.1 (M.point group.2) + M.groupClaims groups := by
        rw [PointModel.groupClaims, List.map_cons, List.sum_cons]
        rfl
      rw [hcons, Finsupp.add_apply]
      rcases List.mem_cons.mp hgroup with rfl | hlater
      · rw [Finsupp.single_eq_same, hothers _ hnew, add_zero]
      · have hne : group.1 ≠ root := fun heq =>
          hnew (heq ▸ List.mem_map_of_mem (f := Prod.fst) hlater)
        rw [Finsupp.single_eq_of_ne (Ne.symm hne), zero_add, ih hrest hlater]

/-! ## The accumulator -/

/-- The ways through the batch. -/
theorem millerAccumulator_eq_some {messages : List (SignedMessage P)}
    {f : P.Fp12} :
    millerAccumulator messages = some f ↔ messages ≠ [] ∧ ∃ s : Grouping P,
      messages.foldlM addMessage ⟨[], P.g2Identity⟩ = some s ∧
      s.signatureSum ≠ P.g2Identity ∧ P.isOnSubgroupTwist s.signatureSum = true ∧
      (∀ group ∈ s.groups, group.2 ≠ P.g1Identity) ∧
      P.millerLoopBatch (s.groups.map (fun group => P.neg group.2) ++ [P.g1Generator])
        (s.groups.map (fun group => P.hashToCurve group.1) ++ [s.signatureSum]) = f := by
  simp only [millerAccumulator, Option.bind_eq_bind, Option.bind_eq_some_iff, Option.pure_def,
    Option.ite_none_left_eq_some, Option.some.injEq, not_or, Bool.not_eq_true', Bool.not_eq_false,
    List.any_eq_true, decide_eq_true_eq, not_exists, not_and, and_assoc, ne_eq]

/-- What the loop carries at its end. -/
theorem carried_of_loop {messages : List (SignedMessage P)} {s : Grouping P}
    (h : messages.foldlM addMessage ⟨[], P.g2Identity⟩ = some s) :
    M.Carried messages s ∧ M.groupClaims s.groups = M.messageClaims messages :=
  ⟨M.carried_nil.addMessages h, (M.groupClaims_addMessages h).trans (zero_add _)⟩

/-- No group is an identity exactly if no root's claim is zero. -/
theorem Carried.groups_ne {M : BilinearModel P A B T} {messages : List (SignedMessage P)}
    {s : Grouping P} (h : M.Carried messages s)
    (hclaims : M.groupClaims s.groups = M.messageClaims messages) :
    (∀ group ∈ s.groups, group.2 ≠ P.g1Identity) ↔
      ∀ m ∈ messages, M.messageClaims messages m.signingRoot ≠ 0 := by
  constructor
  · intro hgroups m hm hzero
    obtain ⟨⟨root, agg⟩, hgroup, hroot⟩ :=
      List.mem_map.mp ((h.roots m.signingRoot).mpr ⟨m, hm, rfl⟩)
    obtain rfl : root = m.signingRoot := hroot
    rw [← hclaims, M.groupClaims_apply h.nodup hgroup] at hzero
    exact hgroups _ hgroup ((M.point_eq_zero agg).mp hzero)
  · rintro hmessages ⟨root, agg⟩ hgroup hidentity
    obtain ⟨m, hm, rfl⟩ := (h.roots root).mp (List.mem_map_of_mem (f := Prod.fst) hgroup)
    apply hmessages m hm
    rw [← hclaims, M.groupClaims_apply h.nodup hgroup]
    exact (M.point_eq_zero agg).mpr hidentity

/-- **When there is an accumulator.** -/
theorem millerAccumulator_isSome (messages : List (SignedMessage P)) :
    (millerAccumulator messages).isSome ↔ M.Accepts messages := by
  rw [Option.isSome_iff_exists]
  constructor
  · rintro ⟨f, hf⟩
    obtain ⟨hne, s, hs, hsum, hsubgroup, hgroups, -⟩ := millerAccumulator_eq_some.mp hf
    obtain ⟨hcarried, hclaims⟩ := M.carried_of_loop hs
    refine ⟨hne, (M.addMessages_isSome _).mp ⟨s, hs⟩, ?_, ?_,
      (hcarried.groups_ne hclaims).mp hgroups⟩
    · rw [← hcarried.signatures]
      exact fun hzero => hsum ((M.twist_eq_zero _).mp hzero)
    · rw [← hcarried.signatures]
      exact (M.isOnSubgroupTwist_iff _).mp hsubgroup
  · intro h
    obtain ⟨s, hs⟩ := (M.addMessages_isSome ⟨[], P.g2Identity⟩).mpr h.readable
    obtain ⟨hcarried, hclaims⟩ := M.carried_of_loop hs
    refine ⟨_, millerAccumulator_eq_some.mpr ⟨h.nonempty, s, hs, ?_, ?_,
      (hcarried.groups_ne hclaims).mpr h.keys, rfl⟩⟩
    · intro hidentity
      apply h.signatures
      rw [← hcarried.signatures]
      exact (M.twist_eq_zero _).mpr hidentity
    · rw [M.isOnSubgroupTwist_iff, hcarried.signatures]
      exact h.subgroup

/-- **What an accumulator is worth**: the signatures, less what is paired against them. -/
theorem exponent_millerAccumulator {messages : List (SignedMessage P)} {f : P.Fp12}
    (h : millerAccumulator messages = some f) :
    M.exponent f = M.pairing (M.point P.g1Generator) (M.signatureSum messages) -
      (messages.map M.paired).sum := by
  obtain ⟨-, s, hs, hsum, -, hgroups, rfl⟩ := millerAccumulator_eq_some.mp h
  obtain ⟨hcarried, hclaims⟩ := M.carried_of_loop hs
  have hpairs := M.exponent_millerLoopBatch
    (s.groups.map (fun group => (P.neg group.2, P.hashToCurve group.1)) ++
      [(P.g1Generator, s.signatureSum)]) (by
    intro pair hpair
    rcases List.mem_append.mp hpair with hfirst | hlast
    · obtain ⟨group, hgroup, rfl⟩ := List.mem_map.mp hfirst
      refine ⟨?_, M.hashToCurve_ne _⟩
      rw [M.neg, Ne, neg_eq_zero, M.point_eq_zero]
      exact hgroups group hgroup
    · obtain rfl := List.mem_singleton.mp hlast
      exact ⟨M.generator_ne, fun hzero => hsum ((M.twist_eq_zero _).mp hzero)⟩)
  have hneg : (s.groups.map fun group =>
      M.pairing (M.point (P.neg group.2)) (M.twist (P.hashToCurve group.1))).sum =
        -M.pairClaims (M.groupClaims s.groups) := by
    rw [M.pairClaims_groupClaims, List.sum_neg, List.map_map]
    refine congrArg List.sum (List.map_congr_left fun group _ => ?_)
    rw [M.neg, map_neg, AddMonoidHom.neg_apply]
    rfl
  simp only [List.map_append, List.map_map, List.map_cons, List.map_nil, List.sum_append,
    List.sum_cons, List.sum_nil, add_zero, Function.comp_def] at hpairs
  rw [hpairs, hneg, hclaims, M.pairClaims_messageClaims, hcarried.signatures]
  exact neg_add_eq_sub _ _

/-- **The check is the equation.** -/
theorem finalExpIsOne_millerAccumulator {messages : List (SignedMessage P)} {f : P.Fp12}
    (h : millerAccumulator messages = some f) :
    P.finalExpIsOne f = true ↔ M.Balanced messages := by
  rw [M.finalExpIsOne_iff, M.exponent_millerAccumulator h, sub_eq_zero]
  exact eq_comm

/-! ## Order, merging and parts -/

/-- What does not change when messages are reordered or merged. -/
structure SameStatement (xs ys : List (SignedMessage P)) : Prop where
  claims : M.messageClaims xs = M.messageClaims ys
  signatures : M.signatureSum xs = M.signatureSum ys
  roots : ∀ root, (∃ m ∈ xs, m.signingRoot = root) ↔ ∃ m ∈ ys, m.signingRoot = root

/-- **Regrouped messages state the same.** -/
theorem sameStatement {xs ys : List (SignedMessage P)} (h : Regrouped xs ys) :
    M.SameStatement xs ys := by
  induction h with
  | perm h => exact ⟨(h.map _).sum_eq, (h.flatMap_right _).sum_eq, fun root =>
      ⟨fun ⟨m, hm, hroot⟩ => ⟨m, h.mem_iff.mp hm, hroot⟩,
        fun ⟨m, hm, hroot⟩ => ⟨m, h.mem_iff.mpr hm, hroot⟩⟩⟩
  | merge m m' rest h =>
      refine ⟨?_, ?_, fun root => ?_⟩
      · simp only [PointModel.messageClaims, PointModel.messageClaim, SignedMessage.merge, h,
          List.map_cons, List.sum_cons, List.map_append, List.sum_append, Finsupp.single_add]
        exact (add_assoc _ _ _).symm
      · simp only [signatureSum, SignedMessage.merge, List.flatMap_cons, List.map_append,
          List.append_assoc]
      · simp only [List.mem_cons, exists_eq_or_imp, SignedMessage.merge, ← h]
        exact ⟨fun h => h.elim .inl id, .inr⟩
  | symm _ ih => exact ⟨ih.claims.symm, ih.signatures.symm, fun root => (ih.roots root).symm⟩
  | trans _ _ ih ih' =>
      exact ⟨ih.claims.trans ih'.claims, ih.signatures.trans ih'.signatures,
        fun root => (ih.roots root).trans (ih'.roots root)⟩

variable {M}

theorem SameStatement.symm {xs ys : List (SignedMessage P)} (h : M.SameStatement xs ys) :
    M.SameStatement ys xs :=
  ⟨h.claims.symm, h.signatures.symm, fun root => (h.roots root).symm⟩

theorem SameStatement.balanced {xs ys : List (SignedMessage P)} (h : M.SameStatement xs ys) :
    M.Balanced xs ↔ M.Balanced ys := by
  rw [Balanced, Balanced, ← M.pairClaims_messageClaims, ← M.pairClaims_messageClaims, h.claims,
    h.signatures]

/-- What is accepted stays accepted, as long as every message can be read. -/
theorem Accepts.of_sameStatement {xs ys : List (SignedMessage P)} (hxs : M.Accepts xs)
    (h : M.SameStatement xs ys) (hreadable : ∀ m ∈ ys, m.Readable) : M.Accepts ys where
  nonempty := by
    obtain ⟨m, hm⟩ := List.exists_mem_of_ne_nil _ hxs.nonempty
    obtain ⟨m', hm', -⟩ := (h.roots m.signingRoot).mp ⟨m, hm, rfl⟩
    exact List.ne_nil_of_mem hm'
  readable := hreadable
  signatures := h.signatures ▸ hxs.signatures
  subgroup := h.signatures ▸ hxs.subgroup
  keys m hm := by
    obtain ⟨m', hm', hroot⟩ := (h.roots m.signingRoot).mpr ⟨m, hm, rfl⟩
    rw [← hroot, ← h.claims]
    exact hxs.keys m' hm'

/-- A batch verifies exactly if it has an accumulator and the equation holds. -/
theorem verifyAttestationBatch_iff (M : BilinearModel P A B T) (messages : List (SignedMessage P)) :
    verifyAttestationBatch messages = true ↔ M.Accepts messages ∧ M.Balanced messages := by
  rw [← M.millerAccumulator_isSome, verifyAttestationBatch]
  cases h : millerAccumulator messages with
  | none => simp
  | some f => simp [M.finalExpIsOne_millerAccumulator h]

/-- **Regrouped messages**, all of them readable, are accepted alike and verify alike. -/
theorem verify_regrouped (M : BilinearModel P A B T) {xs ys : List (SignedMessage P)}
    (h : Regrouped xs ys) (hxs : ∀ m ∈ xs, m.Readable) (hys : ∀ m ∈ ys, m.Readable) :
    (millerAccumulator xs).isSome = (millerAccumulator ys).isSome ∧
      verifyAttestationBatch xs = verifyAttestationBatch ys := by
  have hsame := M.sameStatement h
  have haccepts : M.Accepts xs ↔ M.Accepts ys :=
    ⟨fun haccepts => haccepts.of_sameStatement hsame hys,
      fun haccepts => haccepts.of_sameStatement hsame.symm hxs⟩
  constructor
  · rw [Bool.eq_iff_iff, M.millerAccumulator_isSome, M.millerAccumulator_isSome, haccepts]
  · rw [Bool.eq_iff_iff, verifyAttestationBatch_iff M, verifyAttestationBatch_iff M, haccepts,
      hsame.balanced]

/-- In another order nothing has to be asked of the messages. -/
theorem verify_perm (M : BilinearModel P A B T) {xs ys : List (SignedMessage P)}
    (h : xs.Perm ys) : (millerAccumulator xs).isSome = (millerAccumulator ys).isSome ∧
      verifyAttestationBatch xs = verifyAttestationBatch ys := by
  have hreadable : (∀ m ∈ xs, m.Readable) ↔ ∀ m ∈ ys, m.Readable :=
    ⟨fun hxs m hm => hxs m (h.mem_iff.mpr hm), fun hys m hm => hys m (h.mem_iff.mp hm)⟩
  by_cases hxs : ∀ m ∈ xs, m.Readable
  · exact verify_regrouped M (.perm h) hxs (hreadable.mp hxs)
  · have hnone : ∀ {zs : List (SignedMessage P)}, (¬ ∀ m ∈ zs, m.Readable) →
        millerAccumulator zs = none := by
      intro zs hzs
      rw [← Option.not_isSome_iff_eq_none, M.millerAccumulator_isSome]
      exact fun haccepts => hzs haccepts.readable
    rw [verifyAttestationBatch, verifyAttestationBatch, hnone hxs,
      hnone fun hys => hxs (hreadable.mpr hys)]
    exact ⟨rfl, rfl⟩

/-- The exponent of a product. -/
theorem exponent_foldl (M : BilinearModel P A B T) (fs : List P.Fp12) (f : P.Fp12) :
    M.exponent (fs.foldl P.fp12Mul f) = M.exponent f + (fs.map M.exponent).sum := by
  induction fs generalizing f with
  | nil => exact (add_zero _).symm
  | cons g fs ih => rw [List.foldl_cons, ih, M.exponent_fp12Mul, List.map_cons, List.sum_cons,
      add_assoc]

/-- What the accumulators of parts are worth together. -/
theorem sum_exponents {parts : List (List (SignedMessage P))} {fs : List P.Fp12}
    (M : BilinearModel P A B T) (h : parts.mapM millerAccumulator = some fs) :
    (fs.map M.exponent).sum =
      M.pairing (M.point P.g1Generator) (M.signatureSum parts.flatten) -
        (parts.flatten.map M.paired).sum := by
  induction parts generalizing fs with
  | nil =>
      obtain rfl := Option.some.inj h
      simp [signatureSum]
  | cons part parts ih =>
      rw [List.mapM_cons, Option.bind_eq_bind, Option.bind_eq_some_iff] at h
      obtain ⟨f, hf, h⟩ := h
      obtain ⟨rest, hrest, h⟩ := Option.bind_eq_some_iff.mp h
      obtain rfl := Option.some.inj h
      rw [List.map_cons, List.sum_cons, ih hrest, M.exponent_millerAccumulator hf,
        List.flatten_cons, signatureSum, signatureSum, signatureSum, List.flatMap_append,
        List.sum_append, List.map_append, List.sum_append, map_add]
      exact sub_add_sub_comm _ _ _ _

end BilinearModel

/-! ## The statement of a batch -/

/-- **Grouping preserves the pairing statement.** Where a list has an accumulator (and
`Accepts` says when it has), the check is the equation of its messages. No order of the
list changes whether there is one or what the check says, and neither does merging
messages with one root as long as each can be read. And where the parts of a list and the
list itself have accumulators, the product of the parts' says what the whole's does. -/
theorem grouping_preserves {P : Primitives} {A B T : Type} [AddCommGroup A] [AddCommGroup B]
    [AddCommGroup T] (M : BilinearModel P A B T) :
    (∀ messages : List (SignedMessage P),
      ((millerAccumulator messages).isSome ↔ M.Accepts messages) ∧
      ∀ f, millerAccumulator messages = some f →
        (P.finalExpIsOne f = true ↔ M.Balanced messages)) ∧
    (∀ xs ys : List (SignedMessage P), xs.Perm ys →
      (millerAccumulator xs).isSome = (millerAccumulator ys).isSome ∧
        verifyAttestationBatch xs = verifyAttestationBatch ys) ∧
    (∀ xs ys : List (SignedMessage P), Regrouped xs ys →
      (∀ m ∈ xs, m.Readable) → (∀ m ∈ ys, m.Readable) →
        (millerAccumulator xs).isSome = (millerAccumulator ys).isSome ∧
          verifyAttestationBatch xs = verifyAttestationBatch ys) ∧
    ∀ (parts : List (List (SignedMessage P))) (messages : List (SignedMessage P)),
      parts.flatten.Perm messages → ∀ fs f, parts.mapM millerAccumulator = some fs →
        millerAccumulator messages = some f →
          (P.finalExpIsOne (fs.foldl P.fp12Mul P.fp12One) = true ↔ P.finalExpIsOne f = true) := by
  refine ⟨fun messages => ⟨M.millerAccumulator_isSome messages,
    fun f hf => M.finalExpIsOne_millerAccumulator hf⟩, fun xs ys h => BilinearModel.verify_perm M h,
    fun xs ys h hxs hys => BilinearModel.verify_regrouped M h hxs hys, ?_⟩
  intro parts messages hperm fs f hfs hf
  have hsame := M.sameStatement (.perm hperm)
  rw [M.finalExpIsOne_iff, BilinearModel.exponent_foldl, M.exponent_fp12One, zero_add,
    BilinearModel.sum_exponents M hfs, M.finalExpIsOne_millerAccumulator hf, ← hsame.balanced,
    sub_eq_zero]
  exact eq_comm

end Zkasper

/-! ## Exponents as integers -/

namespace Zkasper.Formal

open Bls

/-- A signature's first byte, as a signed number. -/
def signedByte (raw : Bytes 96) : ℤ :=
  let byte := (raw.1.headD 0).toNat
  if byte < 128 then byte else byte - 256

/-- Where a message is hashed to. -/
def hashExponent : Term → ℤ
  | .bytes raw => 1 + (raw.headD 0).toNat
  | .pair _ _ => 1

/-- Primitives in which a point is its discrete logarithm. -/
@[reducible] def exponents : Primitives where
  Digest := Digest
  Bytes32 := Term
  G1Point := ℤ
  G2Point := ℤ
  Fp12 := ℤ
  decEqDigest := inferInstance
  decEqBytes32 := inferInstance
  decEqG1Point := inferInstance
  decEqG2Point := inferInstance
  zero := .zero
  compress := .node
  leaf p := .leaf fun _ => p
  commitment := .commitment
  commitFp12 f := .leaf (fun _ => f) 0
  digestOfWords _ := .zero
  pointOfWords words := (words.headD 0).toNat
  ofBytes raw := .bytes raw.1
  sha256Pair := .pair
  decompress raw := some ((raw.1.headD 0).toNat, raw.1.headD 0 = 0)
  publicKeyFromBytes raw := some (raw.1.headD 0).toNat
  sameX p q := p = q ∨ p = -q
  curveAdd p q := p + q
  neg p := -p
  addCompleteSafe p q := some (p + q)
  g1Identity := 0
  g1Generator := 1
  decompressTwist raw := some (signedByte raw, signedByte raw = 0)
  addCompleteSafeTwist p q := some (p + q)
  g2Identity := 0
  isOnSubgroupTwist _ := true
  hashToCurve := hashExponent
  millerLoopBatch ps qs := (List.zipWith (· * ·) ps qs).sum
  fp12One := 0
  fp12Mul f g := f + g
  finalExpIsOne f := f = 0

theorem hashExponent_pos (root : Term) : 0 < hashExponent root := by
  cases root with
  | bytes raw => exact Int.add_pos_of_pos_of_nonneg Int.one_pos (Int.natCast_nonneg _)
  | pair _ _ => exact Int.one_pos

/-- Integers, paired by their product. -/
def bilinearExponents : BilinearModel exponents ℤ ℤ ℤ where
  point p := p
  curveAdd _ _ _ := rfl
  neg _ := rfl
  addCompleteSafe _ _ _ h := (Option.some.inj h).symm
  twist q := q
  pairing := AddMonoidHom.mul
  exponent f := f
  subgroup := ⊤
  point_eq_zero _ := Iff.rfl
  twist_eq_zero _ := Iff.rfl
  isOnSubgroupTwist_iff _ := ⟨fun _ => trivial, fun _ => rfl⟩
  addCompleteSafe_isSome _ _ := rfl
  addCompleteSafeTwist _ _ := ⟨_, rfl, rfl⟩
  generator_ne := one_ne_zero
  hashToCurve_ne root := (hashExponent_pos root).ne'
  exponent_millerLoopBatch pairs _ := by
    show (List.zipWith (· * ·) (pairs.map Prod.fst) (pairs.map Prod.snd)).sum = _
    rw [List.zipWith_map, List.zipWith_self]
    rfl
  exponent_fp12One := rfl
  exponent_fp12Mul _ _ := rfl
  finalExpIsOne_iff _ := decide_eq_true_iff

/-- The root that is hashed to `byte + 1`. -/
def rootAt (byte : UInt8) : Term := .bytes [byte]

/-- A signature of some exponent. -/
def signatureAt (byte : UInt8) : Bytes 96 :=
  ⟨byte :: List.replicate 95 0, by rw [List.length_cons, List.length_replicate]⟩

/-- Whoever has this key signs a message that is hashed to 1. -/
def signedBy (exponent : ℤ) (byte : UInt8) : SignedMessage exponents :=
  ⟨[exponent], rootAt 0, [signatureAt byte]⟩

/-- Two keys sign a message that is hashed to 2. -/
def signedTwice : SignedMessage exponents := ⟨[3, 4], rootAt 1, [signatureAt 6, signatureAt 8]⟩

theorem signedBy_readable {exponent : ℤ} {byte : UInt8}
    (h : exponents.decompressTwist (signatureAt byte) =
      some (signedByte (signatureAt byte), false)) :
    (signedBy exponent byte).Readable where
  pubkeys := List.cons_ne_nil _ _
  aggregate := rfl
  signatures := List.cons_ne_nil _ _
  points := List.forall_mem_singleton.mpr ⟨_, h⟩

theorem signedBy_merge_readable : ((signedBy 2 2).merge (signedBy 5 5)).Readable where
  pubkeys := List.cons_ne_nil _ _
  aggregate := rfl
  signatures := List.cons_ne_nil _ _
  points := List.forall_mem_cons.mpr ⟨⟨_, rfl⟩, List.forall_mem_singleton.mpr ⟨_, rfl⟩⟩

end Zkasper.Formal

namespace Zkasper

open Bls Formal

/-- Three messages, two of them with one root, in two parts. -/
theorem grouping_preserves_three :
    (exponents.finalExpIsOne 0 = true ↔
      bilinearExponents.Balanced [signedBy 2 2, signedTwice, signedBy 5 5]) ∧
    verifyAttestationBatch [signedBy 2 2, signedTwice, signedBy 5 5] =
      verifyAttestationBatch [signedTwice, signedBy 2 2, signedBy 5 5] ∧
    verifyAttestationBatch [signedBy 2 2, signedBy 5 5] =
      verifyAttestationBatch [(signedBy 2 2).merge (signedBy 5 5)] ∧
    (exponents.finalExpIsOne ([0, 0].foldl exponents.fp12Mul exponents.fp12One) = true ↔
      exponents.finalExpIsOne 0 = true) :=
  ⟨((grouping_preserves bilinearExponents).1 _).2 0 rfl,
    ((grouping_preserves bilinearExponents).2.1 _ _ (.swap _ _ _)).2,
    ((grouping_preserves bilinearExponents).2.2.1 _ _
      (.merge (signedBy 2 2) (signedBy 5 5) [] rfl)
      (List.forall_mem_cons.mpr ⟨signedBy_readable rfl,
        List.forall_mem_singleton.mpr (signedBy_readable rfl)⟩)
      (List.forall_mem_singleton.mpr signedBy_merge_readable)).2,
    (grouping_preserves bilinearExponents).2.2.2 [[signedBy 2 2, signedTwice], [signedBy 5 5]] _
      (.refl _) _ 0 rfl rfl⟩

/-- **Messages that cancel out** verify apart and balance together, and together are
refused: their keys add up to the identity. -/
theorem grouping_refused :
    (∃ fs, [[signedBy 1 1], [signedBy (-1) 255]].mapM millerAccumulator = some fs ∧
      exponents.finalExpIsOne (fs.foldl exponents.fp12Mul exponents.fp12One) = true) ∧
    bilinearExponents.Balanced [signedBy 1 1, signedBy (-1) 255] ∧
    ¬ ∃ f, millerAccumulator [signedBy 1 1, signedBy (-1) 255] = some f ∧
      exponents.finalExpIsOne f = true := by
  refine ⟨⟨[0, 0], rfl, rfl⟩, rfl, ?_⟩
  rintro ⟨f, hf, -⟩
  cases hf

end Zkasper
