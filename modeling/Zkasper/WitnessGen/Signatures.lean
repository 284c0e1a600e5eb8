import Zkasper.WitnessGen.Collector
import Mathlib.Algebra.BigOperators.Group.List.Basic
import Mathlib.Algebra.Group.Pi.Basic
import Mathlib.Data.ZMod.Basic

/-! # What a signature is worth

The ideal reading of the curve, signatures included. Public keys are linearly
independent, and so is what each of them signs: a point of the curve is read by how
often each validator's key is in it, a point of the twist by how often each validator's
signature over each signing root is, both modulo the order of the groups. On this
reading a batch pairs to one exactly when the signature sum is made of what the keys
claim.

`millerAccumulator_accepts` is the completeness of `miller_accumulator`: messages that
are each signed by whom they name, nobody named twice, give an accumulator whose final
exponentiation comes out at one. -/

namespace Zkasper

open Bls

/-- **The ideal groups**, as the circuit and the host see them. Nothing is said of a
point off the curve, or of a signature outside the subgroup. -/
structure SignatureModel (P : Primitives) (B : Blst) where
  /-- The order of the groups, an odd prime. -/
  order : ℕ
  two_lt_order : 2 < order
  OnCurve : P.G1Point → Prop
  /-- How often the public key of each validator is in a point. -/
  coeff : P.G1Point → UInt64 → ZMod order
  /-- A point of the twist, in the subgroup. -/
  OnTwist : P.G2Point → Prop
  /-- How often each validator's signature over each signing root is in a point. -/
  made : P.G2Point → P.Bytes32 → UInt64 → ZMod order
  /-- A signature of the host, in the subgroup. -/
  InGroup : B.Signature → Prop
  held : B.Signature → P.Bytes32 → UInt64 → ZMod order
  curveAdd : ∀ p q, OnCurve p → OnCurve q → P.sameX p q = false →
    OnCurve (P.curveAdd p q) ∧ coeff (P.curveAdd p q) = coeff p + coeff q
  neg : ∀ p, OnCurve p → OnCurve (P.neg p) ∧ coeff (P.neg p) = -coeff p
  sameX : ∀ p q, OnCurve p → OnCurve q → P.sameX p q = true →
    coeff p = coeff q ∨ coeff p = -coeff q
  addCompleteSafe : ∀ p q, OnCurve p → OnCurve q →
    ∃ r, P.addCompleteSafe p q = some r ∧ OnCurve r ∧ coeff r = coeff p + coeff q
  g1Identity : coeff P.g1Identity = 0
  addCompleteSafeTwist : ∀ p q, OnTwist p → OnTwist q →
    ∃ r, P.addCompleteSafeTwist p q = some r ∧ OnTwist r ∧ made r = made p + made q
  g2Identity : OnTwist P.g2Identity ∧ made P.g2Identity = 0
  isOnSubgroupTwist : ∀ q, OnTwist q → P.isOnSubgroupTwist q = true
  /-- A batch that pairs negated sums against hashed messages, and the generator
  against a signature sum, comes out at one when the sums signed the messages. -/
  finalExpIsOne : ∀ (groups : List (P.Bytes32 × P.G1Point)) (sig : P.G2Point),
    (∀ group ∈ groups, OnCurve group.2) → OnTwist sig →
    (P.finalExpIsOne (P.millerLoopBatch
        (groups.map (fun group => P.neg group.2) ++ [P.g1Generator])
        (groups.map (fun group => P.hashToCurve group.1) ++ [sig])) = true ↔
      (groups.map fun group => Pi.single group.1 (coeff group.2)).sum = made sig)
  /-- The host adds signatures, and its group check is off. -/
  addSignature : ∀ σ τ, InGroup σ → InGroup τ →
    ∃ υ, B.addSignature σ τ = some υ ∧ InGroup υ ∧ held υ = held σ + held τ
  fromBytes_toBytes : ∀ σ, B.fromBytes (B.toBytes σ) = some σ
  /-- The circuit reads the same signature out of the same bytes. -/
  decompressTwist : ∀ bytes σ, B.fromBytes bytes = some σ → InGroup σ → held σ ≠ 0 →
    ∃ q, P.decompressTwist bytes = some (q, false) ∧ OnTwist q ∧ made q = held σ

namespace SignatureModel

variable {P : Primitives} {B : Blst} (M : SignatureModel P B)

/-- What some validators are worth, each once. -/
def indicator (S : Finset UInt64) : UInt64 → ZMod M.order := fun i => if i ∈ S then 1 else 0

/-- What some validators sign together. -/
def claim (root : P.Bytes32) (S : Finset UInt64) : P.Bytes32 → UInt64 → ZMod M.order :=
  Pi.single root (M.indicator S)

/-- The point is the sum of the public keys of some validators. -/
def KeyOf (p : P.G1Point) (S : Finset UInt64) : Prop := M.OnCurve p ∧ M.coeff p = M.indicator S

/-- The host's signature is that of some validators over a signing root. -/
def HeldBy (σ : B.Signature) (root : P.Bytes32) (S : Finset UInt64) : Prop :=
  M.InGroup σ ∧ M.held σ = M.claim root S

/-- The circuit reads the signature of some validators over a signing root. -/
def SignedBy (bytes : BlsSignature) (root : P.Bytes32) (S : Finset UInt64) : Prop :=
  ∃ q, P.decompressTwist bytes = some (q, false) ∧ M.OnTwist q ∧ M.made q = M.claim root S

/-! ## Sets of validators -/

section Sets

variable {S T : Finset UInt64} {i : UInt64}

instance : Nontrivial (ZMod M.order) :=
  ZMod.nontrivial_iff.mpr (by have := M.two_lt_order; omega)

theorem one_ne_neg_one : (1 : ZMod M.order) ≠ -1 := by
  have := Fact.mk M.two_lt_order
  exact (ZMod.neg_one_ne_one).symm

theorem indicator_mem (h : i ∈ S) : M.indicator S i = 1 := if_pos h

theorem indicator_notMem (h : i ∉ S) : M.indicator S i = 0 := if_neg h

@[simp] theorem indicator_empty : M.indicator ∅ = 0 := rfl

theorem indicator_union (h : Disjoint S T) :
    M.indicator (S ∪ T) = M.indicator S + M.indicator T := by
  funext i
  by_cases hS : i ∈ S
  · have hT : i ∉ T := Finset.disjoint_left.mp h hS
    simp [indicator, hS, hT]
  · simp [indicator, hS]

theorem indicator_sdiff (h : T ⊆ S) :
    M.indicator (S \ T) = M.indicator S - M.indicator T := by
  rw [eq_sub_iff_add_eq, ← M.indicator_union Finset.sdiff_disjoint, Finset.sdiff_union_of_subset h]

theorem indicator_ne_zero (h : S.Nonempty) : M.indicator S ≠ 0 := by
  obtain ⟨i, hi⟩ := h
  intro hzero
  exact one_ne_zero ((M.indicator_mem hi).symm.trans (congrFun hzero i))

theorem claim_union {root : P.Bytes32} (h : Disjoint S T) :
    M.claim root (S ∪ T) = M.claim root S + M.claim root T := by
  rw [claim, M.indicator_union h, Pi.single_add]
  rfl

theorem claim_ne_zero {root : P.Bytes32} (h : S.Nonempty) : M.claim root S ≠ 0 := by
  intro hzero
  apply M.indicator_ne_zero h
  rw [← Pi.single_eq_same (M := fun _ => UInt64 → ZMod M.order) root (M.indicator S)]
  exact congrFun hzero root

end Sets

/-! ## Running sums of keys -/

/-- A running sum holds the keys of some validators. -/
def Sums (s : PointSum P) (S : Finset UInt64) : Prop :=
  match s.value with
  | none => S = ∅
  | some p => M.KeyOf p S

section Sums

variable {M} {S T : Finset UInt64} {i : UInt64} {s : PointSum P} {p : P.G1Point}

theorem Sums.empty : M.Sums (⟨none⟩ : PointSum P) ∅ := rfl

theorem Sums.get (h : M.Sums s S) (hS : S.Nonempty) : ∃ p, s.get = some p ∧ M.KeyOf p S := by
  obtain ⟨_ | p⟩ := s
  · exact absurd h hS.ne_empty
  · exact ⟨p, rfl, h⟩

/-- **Adding a key that is not in the sum**: it never shares an `x` coordinate with it. -/
theorem Sums.add (h : M.Sums s S) (hp : M.KeyOf p {i}) (hi : i ∉ S) :
    ∃ s', s.add p = some s' ∧ M.Sums s' (insert i S) := by
  obtain ⟨_ | current⟩ := s
  · obtain rfl : S = ∅ := h
    exact ⟨_, rfl, hp⟩
  · obtain ⟨hcurve, hcoeff⟩ : M.KeyOf current S := h
    have hx : P.sameX current p = false := by
      by_contra hsame
      have hzero := M.indicator_notMem hi
      have hone := M.indicator_mem (Finset.mem_singleton_self i)
      rcases M.sameX _ _ hcurve hp.1 (Bool.not_eq_false _ ▸ hsame) with heq | heq
      · rw [hcoeff, hp.2] at heq
        exact zero_ne_one ((hzero.symm.trans (congrFun heq i)).trans hone)
      · rw [hcoeff, hp.2] at heq
        have heq := (hzero.symm.trans (congrFun heq i)).trans (congrArg Neg.neg hone)
        exact zero_ne_one (neg_eq_zero.mp heq.symm).symm
    obtain ⟨hcurve', hcoeff'⟩ := M.curveAdd _ _ hcurve hp.1 hx
    refine ⟨⟨some (P.curveAdd current p)⟩, by simp [PointSum.add, hx], hcurve', ?_⟩
    rw [hcoeff', hcoeff, hp.2, Finset.insert_eq, Finset.union_comm,
      M.indicator_union (Finset.disjoint_singleton_right.mpr hi)]

/-- **Taking out a key that is in the sum**, and is not all of it. -/
theorem Sums.sub (h : M.Sums s S) (hp : M.KeyOf p {i}) (hi : i ∈ S) (hother : ∃ j ∈ S, j ≠ i) :
    ∃ s', s.sub p = some s' ∧ M.Sums s' (S.erase i) := by
  obtain ⟨_ | current⟩ := s
  · obtain rfl : S = ∅ := h
    exact absurd hi (Finset.notMem_empty i)
  · obtain ⟨hcurve, hcoeff⟩ : M.KeyOf current S := h
    obtain ⟨hcurve', hneg⟩ := M.neg p hp.1
    have hx : P.sameX current (P.neg p) = false := by
      by_contra hsame
      rcases M.sameX _ _ hcurve hcurve' (Bool.not_eq_false _ ▸ hsame) with heq | heq
      · -- the sum has the key once, its negation minus once
        rw [hcoeff, hneg, hp.2] at heq
        have heq := congrFun heq i
        rw [Pi.neg_apply, M.indicator_mem hi, M.indicator_mem (Finset.mem_singleton_self i)] at heq
        exact M.one_ne_neg_one heq
      · -- somebody else is in the sum
        obtain ⟨j, hj, hne⟩ := hother
        rw [hcoeff, hneg, hp.2, neg_neg] at heq
        have heq := congrFun heq j
        rw [M.indicator_mem hj, M.indicator_notMem (by simpa using hne)] at heq
        exact one_ne_zero heq
    obtain ⟨hsum, hcoeff'⟩ := M.curveAdd _ _ hcurve hcurve' hx
    refine ⟨⟨some (P.curveAdd current (P.neg p))⟩, by simp [PointSum.sub, PointSum.add, hx], hsum, ?_⟩
    rw [hcoeff', hcoeff, hneg, hp.2, ← Finset.sdiff_singleton_eq_erase,
      M.indicator_sdiff (Finset.singleton_subset_iff.mpr hi), sub_eq_add_neg]

/-- Keys that are all different add up. -/
theorem Sums.addAll {ι : Type} (key : ι → P.G1Point) (index : ι → UInt64) :
    ∀ {list : List ι} {s : PointSum P} {S : Finset UInt64}, M.Sums s S →
      (∀ a ∈ list, M.KeyOf (key a) {index a} ∧ index a ∉ S) → (list.map index).Nodup →
        ∃ s', list.foldlM (fun (sum : PointSum P) a => sum.add (key a)) s = some s' ∧
          M.Sums s' (S ∪ (list.map index).toFinset) := by
  intro list
  induction list with
  | nil =>
      intro s S h _ _
      refine ⟨s, rfl, ?_⟩
      rwa [List.map_nil, List.toFinset_nil, Finset.union_empty]
  | cons a list ih =>
      intro s S h hlist hnodup
      obtain ⟨⟨hkey, hnew⟩, hrest⟩ := List.forall_mem_cons.mp hlist
      obtain ⟨hfresh, hnodup⟩ := List.nodup_cons.mp hnodup
      obtain ⟨mid, hadd, hmid⟩ := h.add hkey hnew
      have hrest' : ∀ b ∈ list, M.KeyOf (key b) {index b} ∧ index b ∉ insert (index a) S := by
        intro b hb
        refine ⟨(hrest b hb).1, fun hmem => ?_⟩
        rcases Finset.mem_insert.mp hmem with heq | hmem
        · exact hfresh (heq ▸ List.mem_map_of_mem hb)
        · exact (hrest b hb).2 hmem
      obtain ⟨s', hrun, hs'⟩ := ih hmid hrest' hnodup
      refine ⟨s', ?_, ?_⟩
      · rw [List.foldlM_cons, hadd]
        exact hrun
      · rwa [List.map_cons, List.toFinset_cons, Finset.union_insert, ← Finset.insert_union]

end Sums

/-! ## The accumulator -/

/-- A message that some validators signed: its key is theirs, and so is its signature. -/
structure Queued (m : SignedMessage P) (S : Finset UInt64) : Prop where
  pubkeys : ∃ key, m.pubkeys = [key] ∧ M.KeyOf key S
  signatures : ∃ bytes, m.signatures = [bytes] ∧ M.SignedBy bytes m.signingRoot S

/-- The groups claim what the signature sum is made of, and every group is signed by
someone out of `S`. -/
structure Balanced (s : Grouping P) (S : Finset UInt64) (c : P.Bytes32 → UInt64 → ZMod M.order) :
    Prop where
  groups : ∀ group ∈ s.groups, ∃ T ⊆ S, T.Nonempty ∧ M.KeyOf group.2 T
  claims : (s.groups.map fun group => Pi.single group.1 (M.coeff group.2)).sum = c
  sum : M.OnTwist s.signatureSum ∧ M.made s.signatureSum = c

section Accumulator

variable {M} {S T : Finset UInt64}

/-- The circuit reads what the host holds. -/
theorem HeldBy.signedBy {σ : B.Signature} {root : P.Bytes32}
    {bytes : BlsSignature} (h : M.HeldBy σ root S) (hS : S.Nonempty)
    (hbytes : B.fromBytes bytes = some σ) : M.SignedBy bytes root S := by
  have hne : M.held σ ≠ 0 := by
    rw [h.2]
    exact M.claim_ne_zero hS
  obtain ⟨q, hread, htwist, hmade⟩ := M.decompressTwist bytes σ hbytes h.1 hne
  exact ⟨q, hread, htwist, hmade.trans h.2⟩

/-- Folding a key into its group never fails, and adds its claim. -/
theorem foldGroup_accepts (root : P.Bytes32) {agg : P.G1Point} (hagg : M.KeyOf agg S)
    (hS : S.Nonempty) (hdisjoint : Disjoint T S) : ∀ {groups : List (P.Bytes32 × P.G1Point)},
      (∀ group ∈ groups, ∃ U ⊆ T, U.Nonempty ∧ M.KeyOf group.2 U) →
        ∃ groups', foldGroup root agg groups = some groups' ∧
          (∀ group ∈ groups', ∃ U ⊆ T ∪ S, U.Nonempty ∧ M.KeyOf group.2 U) ∧
          (groups'.map fun group => Pi.single group.1 (M.coeff group.2)).sum =
            (groups.map fun group => Pi.single group.1 (M.coeff group.2)).sum + M.claim root S := by
  intro groups
  induction groups with
  | nil =>
      intro _
      refine ⟨_, rfl, ?_, ?_⟩
      · intro group hgroup
        obtain rfl := List.mem_singleton.mp hgroup
        exact ⟨S, Finset.subset_union_right, hS, hagg⟩
      · simp [claim, hagg.2]
  | cons group groups ih =>
      intro h
      obtain ⟨r, a⟩ := group
      obtain ⟨⟨U, hU, hnonempty, hkey⟩, hrest⟩ := List.forall_mem_cons.mp h
      have hwiden : ∀ group ∈ groups, ∃ U ⊆ T ∪ S, U.Nonempty ∧ M.KeyOf group.2 U := by
        intro group hgroup
        obtain ⟨U, hU, hU'⟩ := hrest group hgroup
        exact ⟨U, hU.trans Finset.subset_union_left, hU'⟩
      by_cases heq : r = root
      · -- the message has a group, of other validators
        subst heq
        obtain ⟨merged, hmerged, hcurve, hcoeff⟩ := M.addCompleteSafe a agg hkey.1 hagg.1
        have hunion : M.coeff merged = M.indicator (U ∪ S) := by
          rw [hcoeff, hkey.2, hagg.2, M.indicator_union (hdisjoint.mono_left hU)]
        refine ⟨(r, merged) :: groups, by simp [foldGroup, hmerged], ?_, ?_⟩
        · exact List.forall_mem_cons.mpr ⟨⟨U ∪ S, Finset.union_subset_union_left hU,
            hnonempty.mono Finset.subset_union_left, hcurve, hunion⟩, hwiden⟩
        · simp only [List.map_cons, List.sum_cons, hcoeff, hagg.2, Pi.single_add, claim]
          exact add_right_comm _ _ _
      · obtain ⟨groups', hfold, hgroups', hclaims⟩ := ih hrest
        refine ⟨(r, a) :: groups', by simp [foldGroup, heq, hfold], ?_, ?_⟩
        · exact List.forall_mem_cons.mpr
            ⟨⟨U, hU.trans Finset.subset_union_left, hnonempty, hkey⟩, hgroups'⟩
        · simp only [List.map_cons, List.sum_cons, hclaims, add_assoc]

/-- One message of the loop, signed by others than those before it. -/
theorem Balanced.addMessage {s : Grouping P} {c : P.Bytes32 → UInt64 → ZMod M.order}
    {m : SignedMessage P} (h : M.Balanced s T c) (hm : M.Queued m S) (hS : S.Nonempty)
    (hdisjoint : Disjoint T S) :
    ∃ s', addMessage s m = some s' ∧ M.Balanced s' (T ∪ S) (c + M.claim m.signingRoot S) := by
  obtain ⟨key, hpubkeys, hkey⟩ := hm.pubkeys
  obtain ⟨bytes, hsignatures, q, hread, htwist, hmade⟩ := hm.signatures
  obtain ⟨sum, hsum, hsumtwist, hsummade⟩ := M.addCompleteSafeTwist _ _ h.sum.1 htwist
  obtain ⟨groups, hfold, hgroups, hclaims⟩ :=
    foldGroup_accepts m.signingRoot hkey hS hdisjoint h.groups
  refine ⟨⟨groups, sum⟩, ?_, hgroups, ?_, hsumtwist, ?_⟩
  · simp [Bls.addMessage, hpubkeys, hsignatures, aggregatePoints, PointSum.add, PointSum.get,
      Bls.addSignature, hread, hsum, hfold]
  · exact hclaims.trans (congrArg (· + _) h.claims)
  · rw [hsummade, h.sum.2, hmade]

/-- The whole loop. -/
theorem Balanced.addMessages : ∀ {queue : List (SignedMessage P × Finset UInt64)} {s : Grouping P}
    {T : Finset UInt64} {c : P.Bytes32 → UInt64 → ZMod M.order}, M.Balanced s T c →
      (∀ entry ∈ queue, M.Queued entry.1 entry.2 ∧ entry.2.Nonempty ∧ Disjoint T entry.2) →
      queue.Pairwise (fun a b => Disjoint a.2 b.2) →
        ∃ s' T', (queue.map Prod.fst).foldlM Bls.addMessage s = some s' ∧ M.Balanced s' T'
          (c + (queue.map fun entry => M.claim entry.1.signingRoot entry.2).sum) := by
  intro queue
  induction queue with
  | nil =>
      intro s T c h _ _
      refine ⟨s, T, rfl, ?_⟩
      rwa [List.map_nil, List.sum_nil, add_zero]
  | cons entry queue ih =>
      intro s T c h hqueue hpairwise
      obtain ⟨⟨hqueued, hnonempty, hdisjoint⟩, hrest⟩ := List.forall_mem_cons.mp hqueue
      obtain ⟨hothers, hpairwise⟩ := List.pairwise_cons.mp hpairwise
      obtain ⟨mid, hadd, hmid⟩ := h.addMessage hqueued hnonempty hdisjoint
      have hrest' : ∀ other ∈ queue, M.Queued other.1 other.2 ∧ other.2.Nonempty ∧
          Disjoint (T ∪ entry.2) other.2 := by
        intro other hother
        obtain ⟨hqueued, hnonempty, hdisjoint⟩ := hrest other hother
        exact ⟨hqueued, hnonempty, Finset.disjoint_union_left.mpr ⟨hdisjoint, hothers other hother⟩⟩
      obtain ⟨s', T', hrun, hbalanced⟩ := ih hmid hrest' hpairwise
      refine ⟨s', T', ?_, ?_⟩
      · rw [List.map_cons, List.foldlM_cons, hadd]
        exact hrun
      · rwa [List.map_cons, List.sum_cons, ← add_assoc]

/-- What a validator is not named in, it does not sign. -/
theorem sum_claims_apply {queue : List (SignedMessage P × Finset UInt64)} {root : P.Bytes32}
    {i : UInt64} (h : ∀ entry ∈ queue, i ∉ entry.2) :
    (queue.map fun entry => M.claim entry.1.signingRoot entry.2).sum root i = 0 := by
  induction queue with
  | nil => rfl
  | cons entry queue ih =>
      obtain ⟨hentry, hrest⟩ := List.forall_mem_cons.mp h
      rw [List.map_cons, List.sum_cons, Pi.add_apply, Pi.add_apply, ih hrest, add_zero, claim,
        Pi.single_apply]
      split
      · exact M.indicator_notMem hentry
      · rfl

/-- **Completeness of the multi-pairing**: messages that are each signed by whom they
name, nobody named twice, are accepted. -/
theorem millerAccumulator_accepts {queue : List (SignedMessage P × Finset UInt64)}
    (hne : queue ≠ []) (hqueue : ∀ entry ∈ queue, M.Queued entry.1 entry.2 ∧ entry.2.Nonempty)
    (hpairwise : queue.Pairwise fun a b => Disjoint a.2 b.2) :
    ∃ f, millerAccumulator (queue.map Prod.fst) = some f ∧ P.finalExpIsOne f = true := by
  have hstart : M.Balanced { groups := [], signatureSum := P.g2Identity } ∅ 0 :=
    ⟨by simp, rfl, M.g2Identity⟩
  obtain ⟨s, T, hrun, hbalanced⟩ := hstart.addMessages
    (fun entry hentry =>
      ⟨(hqueue entry hentry).1, (hqueue entry hentry).2, Finset.disjoint_empty_left _⟩)
    hpairwise
  rw [zero_add] at hbalanced
  have hsum : s.signatureSum ≠ P.g2Identity := by
    intro hidentity
    have hmade := hbalanced.sum.2
    rw [hidentity, M.g2Identity.2] at hmade
    -- a signer of the first message signs no other
    obtain ⟨entry, queue, rfl⟩ := List.exists_cons_of_ne_nil hne
    obtain ⟨i, hi⟩ := (hqueue entry List.mem_cons_self).2
    have hothers := (List.pairwise_cons.mp hpairwise).1
    have hone := congrFun (congrFun hmade entry.1.signingRoot) i
    rw [List.map_cons, List.sum_cons, Pi.add_apply, Pi.add_apply, sum_claims_apply fun other hother =>
      Finset.disjoint_left.mp (hothers other hother) hi, add_zero, claim, Pi.single_eq_same,
      M.indicator_mem hi] at hone
    exact zero_ne_one hone
  have hgroups : ∀ group ∈ s.groups, M.OnCurve group.2 ∧ group.2 ≠ P.g1Identity := by
    intro group hgroup
    obtain ⟨S, -, hS, hcurve, hcoeff⟩ := hbalanced.groups group hgroup
    refine ⟨hcurve, fun hidentity => M.indicator_ne_zero hS ?_⟩
    rw [← hcoeff, hidentity, M.g1Identity]
  refine ⟨P.millerLoopBatch (s.groups.map (fun group => P.neg group.2) ++ [P.g1Generator])
    (s.groups.map (fun group => P.hashToCurve group.1) ++ [s.signatureSum]), ?_, ?_⟩
  · have hany : (s.groups.any fun group => group.2 = P.g1Identity) = false := by
      rw [List.any_eq_false]
      intro group hgroup
      simpa using (hgroups group hgroup).2
    have hmap : queue.map Prod.fst ≠ [] := by simpa using hne
    simp [millerAccumulator, hmap, hrun, hsum, M.isOnSubgroupTwist _ hbalanced.sum.1, hany]
  · rw [M.finalExpIsOne _ _ (fun group hgroup => (hgroups group hgroup).1) hbalanced.sum.1]
    exact hbalanced.claims.trans hbalanced.sum.2.symm

end Accumulator

end SignatureModel
end Zkasper
