import Zkasper.Formal
import Zkasper.Library.GuardedSum
import Zkasper.StreamFinal

/-! # Folds

An epoch's count is joined up three times over in the source: by the aggregation
fold, by the justification fold, and by the final proof for the groups that came
too late to be folded. All three are the same guarded sum: what joins may not
share a slot with what was counted before. So an epoch comes out the same however
its groups are ordered, cut into folds, and left to the final proof
(`folds_invariant`), and two groups over one slot go through nowhere.

Balances are added as the machine adds them, in 64 bits. -/

namespace Zkasper

open GuardedSum

variable {P : Primitives}

/-! ## Counts as a monoid -/

/-- The multiplication of Miller-loop accumulators, as the count relies on it. -/
class CommutativeFp12 (P : Primitives) : Prop where
  fp12Mul_assoc : ∀ f g h, P.fp12Mul (P.fp12Mul f g) h = P.fp12Mul f (P.fp12Mul g h)
  fp12Mul_comm : ∀ f g, P.fp12Mul f g = P.fp12Mul g f
  fp12One_mul : ∀ f, P.fp12Mul P.fp12One f = f

/-- Masks of a union are disjoint from a third when both its parts are. -/
theorem or_and_eq_zero (a b c : UInt64) : (a ||| b) &&& c = 0 ↔ a &&& c = 0 ∧ b &&& c = 0 := by
  have hdistrib : (a ||| b) &&& c = (a &&& c) ||| (b &&& c) := by
    apply UInt64.toBitVec_inj.mp
    ext i
    simp [Bool.and_or_distrib_right]
  rw [hdistrib, UInt64.or_eq_zero_iff]

namespace Attested

instance : Add (Attested P) := ⟨join⟩

instance : Zero (Attested P) := ⟨zero⟩

theorem add_eq (a b : Attested P) : a + b = a.join b := rfl

@[simp] theorem add_miller (a b : Attested P) : (a + b).miller = P.fp12Mul a.miller b.miller := rfl

/-- Two counts are apart when they share no slot. -/
def Apart (a b : Attested P) : Prop := a.slotsMask &&& b.slotsMask = 0

instance : DecidableRel (Apart (P := P)) := fun a b =>
  inferInstanceAs (Decidable (a.slotsMask &&& b.slotsMask = 0))

variable [CommutativeFp12 P]

instance : AddCommMonoid (Attested P) where
  add_assoc a b c := by
    show (a.join b).join c = a.join (b.join c)
    simp only [join, UInt64.add_assoc, UInt64.or_assoc, CommutativeFp12.fp12Mul_assoc]
  zero_add a := by
    show Attested.zero.join a = a
    simp [join, zero, CommutativeFp12.fp12One_mul]
  add_zero a := by
    show a.join Attested.zero = a
    simp [join, zero, CommutativeFp12.fp12Mul_comm a.miller, CommutativeFp12.fp12One_mul]
  add_comm a b := by
    show a.join b = b.join a
    simp only [join, UInt64.add_comm a.attestingBalance, UInt64.or_comm a.slotsMask,
      CommutativeFp12.fp12Mul_comm a.miller]
  nsmul := nsmulRec

theorem apart : GuardedSum.Apart (Apart (P := P)) where
  symm a b h := by
    unfold Apart at h ⊢
    rwa [UInt64.and_comm]
  zero a := UInt64.zero_and
  add a b c := or_and_eq_zero _ _ _

end Attested

namespace Justified

instance : Add Justified :=
  ⟨fun a b => ⟨a.attestingBalance + b.attestingBalance, a.slotsMask ||| b.slotsMask⟩⟩

instance : Zero Justified := ⟨⟨0, 0⟩⟩

theorem add_eq (a b : Justified) :
    a + b = ⟨a.attestingBalance + b.attestingBalance, a.slotsMask ||| b.slotsMask⟩ := rfl

theorem zero_eq : (0 : Justified) = ⟨0, 0⟩ := rfl

def Apart (a b : Justified) : Prop := a.slotsMask &&& b.slotsMask = 0

instance : DecidableRel Apart := fun a b =>
  inferInstanceAs (Decidable (a.slotsMask &&& b.slotsMask = 0))

instance : AddCommMonoid Justified where
  add_assoc a b c := by simp only [add_eq, UInt64.add_assoc, UInt64.or_assoc]
  zero_add a := by simp [add_eq, zero_eq]
  add_zero a := by simp [add_eq, zero_eq]
  add_comm a b := by
    simp only [add_eq, UInt64.add_comm a.attestingBalance, UInt64.or_comm a.slotsMask]
  nsmul := nsmulRec

theorem apart : GuardedSum.Apart Apart where
  symm a b h := by
    unfold Apart at h ⊢
    rwa [UInt64.and_comm]
  zero a := UInt64.zero_and
  add a b c := or_and_eq_zero _ _ _

end Justified

/-- A loop that checks its element against the running sum and joins it is a guarded sum. -/
theorem Guest.foldlM_eq_run {M β : Type} [AddCommMonoid M] {D : M → M → Prop} [DecidableRel D]
    {f : M → β → Guest M} {count : β → M} (bs : List β)
    (hstep : ∀ b ∈ bs, ∀ running next,
      f running b = .ok next ↔ D running (count b) ∧ next = running + count b) :
    ∀ {running total : M},
      bs.foldlM f running = .ok total ↔ run D running (bs.map count) = some total := by
  induction bs with
  | nil =>
      intro running total
      rw [Guest.foldlM_nil, List.map_nil, run_nil, Option.some.injEq]
  | cons b bs ih =>
      intro running total
      obtain ⟨hb, hbs⟩ := List.forall_mem_cons.mp hstep
      rw [Guest.foldlM_cons, List.map_cons, run_cons]
      by_cases hD : D running (count b)
      · rw [if_pos hD, ← ih hbs]
        constructor
        · rintro ⟨mid, hfirst, hrest⟩
          obtain ⟨-, rfl⟩ := (hb _ _).mp hfirst
          exact hrest
        · intro hrest
          exact ⟨_, (hb _ _).mpr ⟨hD, rfl⟩, hrest⟩
      · rw [if_neg hD]
        constructor
        · rintro ⟨mid, hfirst, -⟩
          exact absurd ((hb _ _).mp hfirst).1 hD
        · intro h
          cases h

/-! ## Chains of folds

A fold takes what the chain has arrived at, if it has started, and some parts; what
it publishes encodes a sum. -/

section Chain

variable {M O β : Type}

/-- One fold after another, each on top of the one before. -/
def foldChain (fold : Option O → List β → Guest O) (folds : List (List β)) : Guest (Option O) :=
  folds.foldlM (fun before parts => some <$> fold before parts) none

/-- Everything the chain publishes on its way has been proven. -/
def LinksProven (Proven : O → Prop) (fold : Option O → List β → Guest O)
    (folds : List (List β)) : Prop :=
  ∀ done, done <+: folds → ∀ out, foldChain fold done = .ok (some out) → Proven out

/-- Where a chain of folds that counted so much has arrived. -/
def chainEnd (encode : M → O) (folds : List (List β)) (counted : M) : Option O :=
  if folds = [] then none else some (encode counted)

/-- What a chain has arrived at stands for a sum: nothing yet, or a proven output. -/
def StandsFor [Zero M] (encode : M → O) (Proven : O → Prop) (before : Option O) (counted : M) :
    Prop :=
  before = none ∧ counted = 0 ∨ before = some (encode counted) ∧ Proven (encode counted)

variable [AddCommMonoid M] {D : M → M → Prop} [DecidableRel D] {encode : M → O}
  {Proven : O → Prop} {count : β → M} {fold : Option O → List β → Guest O}

theorem standsFor_chainEnd {folds : List (List β)} (hproven : LinksProven Proven fold folds)
    {counted : M} (hrun : run D 0 (folds.flatten.map count) = some counted)
    (hchain : foldChain fold folds = .ok (chainEnd encode folds counted)) :
    StandsFor encode Proven (chainEnd encode folds counted) counted := by
  unfold chainEnd at hchain ⊢
  split
  · next hnil =>
      rw [hnil] at hrun
      exact .inl ⟨rfl, (Option.some.inj hrun).symm⟩
  · next hne =>
      rw [if_neg hne] at hchain
      exact .inr ⟨rfl, hproven folds List.prefix_rfl _ hchain⟩

/-- **A chain of folds is one guarded sum**, however it is cut. -/
theorem foldChain_eq_ok {folds : List (List β)} :
    (∀ parts ∈ folds, ∀ before counted out, StandsFor encode Proven before counted →
      (fold before parts = .ok out ↔
        ∃ total, run D counted (parts.map count) = some total ∧ out = encode total)) →
    LinksProven Proven fold folds → ∀ {before : Option O},
      foldChain fold folds = .ok before ↔
        ∃ counted, run D 0 (folds.flatten.map count) = some counted ∧
          before = chainEnd encode folds counted := by
  -- from the last fold back: the chain before it stands for what it counted
  induction folds using List.reverseRecOn with
  | nil =>
      intro _ _ before
      simp [foldChain, chainEnd, pure, Except.pure, eq_comm]
  | append_singleton folds parts ih =>
      intro hfolds hproven before
      obtain ⟨hbefore, hlast⟩ := List.forall_mem_append.mp hfolds
      have hfold := hlast parts List.mem_cons_self
      have hproven' : LinksProven Proven fold folds := fun done hdone =>
        hproven done (hdone.trans (List.prefix_append _ _))
      have hend : ∀ total, chainEnd encode (folds ++ [parts]) total = some (encode total) :=
        fun total => if_neg (List.append_ne_nil_of_right_ne_nil _ (List.cons_ne_nil _ _))
      have hstep : foldChain fold (folds ++ [parts]) = .ok before ↔
          ∃ mid, foldChain fold folds = .ok mid ∧
            ∃ out, fold mid parts = .ok out ∧ some out = before := by
        simp only [foldChain, List.foldlM_append, List.foldlM_cons, List.foldlM_nil, bind_pure,
          Guest.bind_eq_ok, map_eq_pure_bind, Guest.pure_eq_ok]
      rw [hstep, List.flatten_append, List.map_append, run_append]
      simp only [ih hbefore hproven', Option.bind_eq_some_iff, List.flatten_singleton]
      constructor
      · rintro ⟨_, ⟨counted, hcounted, rfl⟩, out, hout, rfl⟩
        have hstands := standsFor_chainEnd hproven' hcounted
          ((ih hbefore hproven').mpr ⟨counted, hcounted, rfl⟩)
        obtain ⟨total, htotal, rfl⟩ := (hfold _ _ out hstands).mp hout
        exact ⟨total, ⟨counted, hcounted, htotal⟩, (hend total).symm⟩
      · rintro ⟨total, ⟨counted, hcounted, htotal⟩, rfl⟩
        have hstands := standsFor_chainEnd hproven' hcounted
          ((ih hbefore hproven').mpr ⟨counted, hcounted, rfl⟩)
        have hout := (hfold _ _ (encode total) hstands).mpr ⟨total, htotal, rfl⟩
        exact ⟨_, ⟨counted, hcounted, rfl⟩, _, hout, (hend total).symm⟩

end Chain

/-! ## One fold of groups -/

/-- A group proof with its proof and the accumulator behind its commitment. -/
abbrev FoldedGroup (P : Primitives) := GroupProofOutput P × List UInt64 × P.Fp12

/-- What a group counts. -/
def FoldedGroup.count (group : FoldedGroup P) : Attested P :=
  ⟨group.1.attestingBalance, group.1.slotsMask, group.2.2⟩

/-- `verify_group` accepts the group, at some position of some fold. -/
def FoldedGroup.Verified (S : ProofSystem P) (accumulatorCommitment committeeRoot : P.Digest)
    (link : Link P) (group : FoldedGroup P) : Prop :=
  ∃ position, verifyGroup S group.1 group.2.1 accumulatorCommitment committeeRoot link group.2.2
    position = .ok ()

section Fold

variable {S : ProofSystem P} {accumulatorCommitment committeeRoot : P.Digest} {link : Link P}

/-- The position only names the group in the message of a failure. -/
theorem FoldedGroup.Verified.anywhere {group : FoldedGroup P}
    (h : group.Verified S accumulatorCommitment committeeRoot link) (position : ℕ) :
    verifyGroup S group.1 group.2.1 accumulatorCommitment committeeRoot link group.2.2 position =
      .ok () := by
  obtain ⟨_, h⟩ := h
  simp only [verifyGroup, requireBakedChild, Guest.bind_eq_ok, Guest.assert_eq_ok] at h ⊢
  exact h

variable [CommutativeFp12 P]

/-- The loop over verified groups is a guarded sum of their counts. -/
theorem absorbGroups_eq_run {groups : List (FoldedGroup P)}
    (hgroups : ∀ group ∈ groups, group.Verified S accumulatorCommitment committeeRoot link)
    {running total : Attested P} :
    absorbGroups S accumulatorCommitment committeeRoot link (groups.map (·.1))
        (groups.map (·.2.1)) (groups.map (·.2.2)) running = .ok total ↔
      run Attested.Apart running (groups.map FoldedGroup.count) = some total := by
  have hzip : (groups.map (·.1)).zip ((groups.map (·.2.1)).zip (groups.map (·.2.2))) = groups := by
    induction groups with
    | nil => rfl
    | cons group groups ih =>
        rw [List.map_cons, List.map_cons, List.map_cons, List.zip_cons_cons, List.zip_cons_cons,
          ih (List.forall_mem_cons.mp hgroups).2]
  have hcounts : groups.map FoldedGroup.count =
      groups.zipIdx.map fun entry => FoldedGroup.count entry.1 := by
    rw [← List.zipIdx_map_fst 0 groups, List.map_map, List.zipIdx_map_fst]
    rfl
  rw [absorbGroups, hzip, hcounts]
  apply Guest.foldlM_eq_run
  rintro ⟨⟨group, proof, miller⟩, i⟩ hmem running next
  have hverified := (hgroups _ (List.fst_mem_of_mem_zipIdx hmem)).anywhere i
  simp only [absorbGroup, hverified, Guest.bind_eq_ok, Guest.assert_eq_ok, Guest.pure_eq_ok,
    exists_const, true_and]
  constructor
  · rintro ⟨hmask, rfl⟩
    exact ⟨hmask, rfl⟩
  · rintro ⟨hmask, rfl⟩
    exact ⟨hmask, rfl⟩

end Fold

/-! ## The chain of an epoch

The epoch is given by the witness of its final proof: what a fold is handed besides
its groups is handed to the final proof too. The prover keeps the accumulator
behind each aggregate, and a proof of it. -/

/-- The aggregate a count comes out as. -/
def StreamFinalWitness.aggregateOf (w : StreamFinalWitness P) (anchor : EpochAnchor P)
    (counted : Attested P) : AggregateOutput P where
  accumulatorCommitment := w.accumulatorCommitment
  committeeRoot := anchor.committeeRoot
  previousAccumulatorCommitment := anchor.previousAccumulatorCommitment
  anchorStateRoot := anchor.anchorStateRoot
  targetEpoch := w.targetEpoch
  checkpointDigest := w.link.checkpointDigest
  attestingBalance := counted.attestingBalance
  slotsMask := counted.slotsMask
  millerCommitment := P.commitFp12 counted.miller
  programVk := aggregateProgramVk

/-- The aggregate with the accumulator behind it. -/
def StreamFinalWitness.encode (w : StreamFinalWitness P) (anchor : EpochAnchor P)
    (counted : Attested P) : AggregateOutput P × P.Fp12 :=
  (w.aggregateOf anchor counted, counted.miller)

/-- The witness of a fold over the groups, on top of an aggregate and the
accumulator behind it, or opening the epoch. -/
def StreamFinalWitness.fold (w : StreamFinalWitness P) (prove : AggregateOutput P → List UInt64)
    (before : Option (AggregateOutput P × P.Fp12)) (groups : List (FoldedGroup P)) :
    AggregateWitness P where
  accumulatorCommitment := w.accumulatorCommitment
  sourceEpoch := w.link.sourceEpoch
  sourceRoot := w.link.sourceRoot
  targetEpoch := w.targetEpoch
  targetRoot := w.targetRoot
  aggregateProgramVk := aggregateProgramVk
  epochDiff := w.epochDiff
  epochDiffProof := w.epochDiffProof
  committee := w.committee
  committeeProof := w.committeeProof
  previous := before.map (·.1)
  previousProof := before.elim [] fun aggregate => prove aggregate.1
  previousMiller := before.elim P.fp12One (·.2)
  groups := groups.map (·.1)
  groupProofs := groups.map (·.2.1)
  groupMillers := groups.map (·.2.2)

/-- The witness of the final proof over an aggregate and the groups it absorbs
itself, with no marginal slots. -/
def StreamFinalWitness.close (w : StreamFinalWitness P) (prove : AggregateOutput P → List UInt64)
    (before : Option (AggregateOutput P × P.Fp12)) (late : List (FoldedGroup P)) :
    StreamFinalWitness P :=
  { w with
    aggregate := before.map (·.1)
    aggregateProof := before.elim [] fun aggregate => prove aggregate.1
    aggregateMiller := before.elim P.fp12One (·.2)
    groups := late.map (·.1)
    groupProofs := late.map (·.2.1)
    groupMillers := late.map (·.2.2)
    tail := [] }

/-- The accumulator the prover keeps for a fold. -/
def foldMiller (before : Option (AggregateOutput P × P.Fp12)) (groups : List (FoldedGroup P)) :
    P.Fp12 :=
  groups.foldl (fun miller group => P.fp12Mul miller group.2.2) (before.elim P.fp12One (·.2))

/-- The fold itself, with the accumulator the prover keeps beside what it publishes. -/
def foldGroups (S : ProofSystem P) (w : StreamFinalWitness P)
    (prove : AggregateOutput P → List UInt64) (before : Option (AggregateOutput P × P.Fp12))
    (groups : List (FoldedGroup P)) : Guest (AggregateOutput P × P.Fp12) := do
  let out ← verifyAggregate S (w.fold prove before groups)
  return (out, foldMiller before groups)

/-- A chain of folds, and then the count of the final proof over what is left. -/
def foldAndClose (S : ProofSystem P) (w : StreamFinalWitness P)
    (prove : AggregateOutput P → List UInt64) (folds : List (List (FoldedGroup P)))
    (late : List (FoldedGroup P)) (accDepth : ℕ) : Guest (EpochAnchor P × Attested P) := do
  let aggregate ← foldChain (foldGroups S w prove) folds
  streamFinalCount S (w.close prove aggregate late) accDepth

/-- The aggregate is proven. -/
def AggregateProven (S : ProofSystem P) (prove : AggregateOutput P → List UInt64)
    (aggregate : AggregateOutput P × P.Fp12) : Prop :=
  verifyChild S (prove aggregate.1) aggregateProgramVk aggregate.1.publicBytes = true

section Groups

variable {S : ProofSystem P} {w : StreamFinalWitness P}
  {prove : AggregateOutput P → List UInt64} {anchor : EpochAnchor P}

theorem StandsFor.miller {before : Option (AggregateOutput P × P.Fp12)} {counted : Attested P}
    (h : StandsFor (w.encode anchor) (AggregateProven S prove) before counted) :
    before.elim P.fp12One (·.2) = counted.miller := by
  rcases h with ⟨rfl, rfl⟩ | ⟨rfl, -⟩
  · rfl
  · rfl

/-- Both ways of opening an epoch are tied to the same anchor. -/
theorem StandsFor.openEpoch {before : Option (AggregateOutput P × P.Fp12)} {counted : Attested P}
    (h : StandsFor (w.encode anchor) (AggregateProven S prove) before counted)
    (hopen : openEpoch S none w.epochDiff w.epochDiffProof w.committee w.committeeProof
      w.accumulatorCommitment w.targetEpoch = .ok anchor) :
    Zkasper.openEpoch S (before.map (·.1)) w.epochDiff w.epochDiffProof w.committee
      w.committeeProof w.accumulatorCommitment w.targetEpoch = .ok anchor := by
  rcases h with ⟨rfl, -⟩ | ⟨rfl, -⟩
  · exact hopen
  · rfl

/-- The count of an aggregate is taken over as it was. -/
theorem bindAggregate_aggregateOf (name : String) (counted : Attested P) :
    bindAggregate name (w.aggregateOf anchor counted) counted.miller w.accumulatorCommitment
      w.link = .ok counted := by
  simp only [bindAggregate, Guest.bind_eq_ok, Guest.assert_eq_ok, Guest.pure_eq_ok, exists_const]
  exact ⟨rfl, rfl, rfl, rfl, rfl⟩

theorem StandsFor.inheritPrevious {before : Option (AggregateOutput P × P.Fp12)}
    {counted : Attested P}
    (h : StandsFor (w.encode anchor) (AggregateProven S prove) before counted)
    (groups : List (FoldedGroup P)) :
    Zkasper.inheritPrevious S (w.fold prove before groups) = .ok counted := by
  rcases h with ⟨rfl, rfl⟩ | ⟨rfl, hproven⟩
  · rfl
  · simp only [Zkasper.inheritPrevious, StreamFinalWitness.fold, Option.map_some, Option.elim_some,
      Guest.bind_eq_ok]
    exact ⟨(), Guest.assert_eq_ok.mpr hproven, (), Guest.assert_eq_ok.mpr rfl,
      bindAggregate_aggregateOf _ counted⟩

theorem requireBakedChild_of_verifyChild {proof : List UInt64} {baked : ProgramVk}
    {publics : PublicBytes P} {message : String} (hbaked : baked ≠ unsetVk)
    (h : verifyChild S proof baked publics = true) :
    requireBakedChild S proof baked publics message = .ok () := by
  have hne : proof ≠ [] := by
    rintro rfl
    cases h
  simp only [requireBakedChild, verifyBakedChild, if_neg hne, Guest.bind_eq_ok, Guest.assert_eq_ok,
    Guest.pure_eq_ok]
  exact ⟨true, ⟨(), hbaked, h⟩, rfl⟩

theorem StandsFor.inheritAggregate {before : Option (AggregateOutput P × P.Fp12)}
    {counted : Attested P}
    (h : StandsFor (w.encode anchor) (AggregateProven S prove) before counted)
    (late : List (FoldedGroup P)) :
    Zkasper.inheritAggregate S (w.close prove before late) = .ok counted := by
  rcases h with ⟨rfl, rfl⟩ | ⟨rfl, hproven⟩
  · rfl
  · simp only [Zkasper.inheritAggregate, StreamFinalWitness.close, Option.map_some,
      Option.elim_some, Guest.bind_eq_ok]
    have hbaked : aggregateProgramVk ≠ unsetVk := by decide
    exact ⟨(), requireBakedChild_of_verifyChild hbaked hproven, (), Guest.assert_eq_ok.mpr rfl,
      bindAggregate_aggregateOf _ counted⟩

variable [CommutativeFp12 P]

/-- The accumulator the prover keeps is the one the guest arrives at. -/
theorem foldl_miller {groups : List (FoldedGroup P)} :
    ∀ {counted total : Attested P},
      run Attested.Apart counted (groups.map FoldedGroup.count) = some total →
        groups.foldl (fun miller group => P.fp12Mul miller group.2.2) counted.miller =
          total.miller := by
  induction groups with
  | nil =>
      intro counted total h
      exact congrArg Attested.miller (Option.some.inj h)
  | cons group groups ih =>
      intro counted total h
      rw [List.map_cons, run_cons] at h
      split at h
      · exact ih h
      · cases h

/-- **One fold**: over verified groups it goes through exactly when the guarded sum
does, and publishes it. -/
theorem verifyAggregate_fold
    (hopen : openEpoch S none w.epochDiff w.epochDiffProof w.committee w.committeeProof
      w.accumulatorCommitment w.targetEpoch = .ok anchor)
    {before : Option (AggregateOutput P × P.Fp12)} {counted : Attested P}
    (h : StandsFor (w.encode anchor) (AggregateProven S prove) before counted)
    {groups : List (FoldedGroup P)} (hne : groups ≠ [])
    (hgroups : ∀ group ∈ groups,
      group.Verified S w.accumulatorCommitment anchor.committeeRoot w.link)
    {out : AggregateOutput P} :
    verifyAggregate S (w.fold prove before groups) = .ok out ↔
      ∃ total, run Attested.Apart counted (groups.map FoldedGroup.count) = some total ∧
        out = w.aggregateOf anchor total := by
  have hgroupsNe : (w.fold prove before groups).groups ≠ [] := fun hnil =>
    hne (List.map_eq_nil_iff.mp hnil)
  have hlengths : checkGroupLengths (w.fold prove before groups).groups
      (w.fold prove before groups).groupProofs (w.fold prove before groups).groupMillers =
        .ok () := by
    simp only [checkGroupLengths, StreamFinalWitness.fold, List.length_map, Guest.bind_eq_ok,
      Guest.assert_eq_ok, exists_const, and_self]
  have hanchor : openEpoch S (w.fold prove before groups).previous w.epochDiff w.epochDiffProof
      w.committee w.committeeProof w.accumulatorCommitment w.targetEpoch = .ok anchor :=
    h.openEpoch hopen
  have hprevious := h.inheritPrevious groups
  have hrun : ∀ total, absorbGroups S w.accumulatorCommitment anchor.committeeRoot w.link
      (groups.map (·.1)) (groups.map (·.2.1)) (groups.map (·.2.2)) counted = .ok total ↔
        run Attested.Apart counted (groups.map FoldedGroup.count) = some total :=
    fun total => absorbGroups_eq_run hgroups
  unfold verifyAggregate
  simp only [Guest.bind_eq_ok, Guest.pure_eq_ok, hlengths, hprevious]
  constructor
  · rintro ⟨_, -, _, -, anchor', hanchor', counted', hcounted', total, htotal, rfl⟩
    obtain rfl := Except.ok.inj (hanchor.symm.trans hanchor')
    obtain rfl := Except.ok.inj hcounted'
    exact ⟨total, (hrun total).mp htotal, rfl⟩
  · rintro ⟨total, htotal, rfl⟩
    exact ⟨(), Guest.assert_eq_ok.mpr hgroupsNe, (), trivial, anchor, hanchor, counted, rfl, total,
      (hrun total).mpr htotal, rfl⟩

theorem foldGroups_eq_ok
    (hopen : openEpoch S none w.epochDiff w.epochDiffProof w.committee w.committeeProof
      w.accumulatorCommitment w.targetEpoch = .ok anchor)
    {before : Option (AggregateOutput P × P.Fp12)} {counted : Attested P}
    (h : StandsFor (w.encode anchor) (AggregateProven S prove) before counted)
    {groups : List (FoldedGroup P)} (hne : groups ≠ [])
    (hgroups : ∀ group ∈ groups,
      group.Verified S w.accumulatorCommitment anchor.committeeRoot w.link)
    {out : AggregateOutput P × P.Fp12} :
    foldGroups S w prove before groups = .ok out ↔
      ∃ total, run Attested.Apart counted (groups.map FoldedGroup.count) = some total ∧
        out = w.encode anchor total := by
  have hmiller : ∀ {total}, run Attested.Apart counted (groups.map FoldedGroup.count) =
      some total → foldMiller before groups = total.miller := by
    intro total htotal
    rw [foldMiller, h.miller, foldl_miller htotal]
  simp only [foldGroups, Guest.bind_eq_ok, Guest.pure_eq_ok,
    verifyAggregate_fold hopen h hne hgroups]
  constructor
  · rintro ⟨_, ⟨total, htotal, rfl⟩, rfl⟩
    exact ⟨total, htotal, Prod.ext rfl (hmiller htotal)⟩
  · rintro ⟨total, htotal, rfl⟩
    exact ⟨_, ⟨total, htotal, rfl⟩, Prod.ext rfl (hmiller htotal)⟩

/-- The final proof's own loop goes on where the folds stopped. -/
theorem streamFinalCount_close {accDepth : ℕ}
    (hcommitment : P.commitment w.accRoot w.totalActiveBalance = w.accumulatorCommitment)
    (hopen : openEpoch S none w.epochDiff w.epochDiffProof w.committee w.committeeProof
      w.accumulatorCommitment w.targetEpoch = .ok anchor)
    {before : Option (AggregateOutput P × P.Fp12)} {counted : Attested P}
    (h : StandsFor (w.encode anchor) (AggregateProven S prove) before counted)
    {late : List (FoldedGroup P)}
    (hlate : ∀ group ∈ late, group.Verified S w.accumulatorCommitment anchor.committeeRoot w.link)
    {anchor' : EpochAnchor P} {total : Attested P} :
    streamFinalCount S (w.close prove before late) accDepth = .ok (anchor', total) ↔
      anchor' = anchor ∧
        run Attested.Apart counted (late.map FoldedGroup.count) = some total := by
  have hlengths : checkGroupLengths (w.close prove before late).groups
      (w.close prove before late).groupProofs (w.close prove before late).groupMillers =
        .ok () := by
    simp only [checkGroupLengths, StreamFinalWitness.close, List.length_map, Guest.bind_eq_ok,
      Guest.assert_eq_ok, exists_const, and_self]
  have hanchor : openEpoch S (w.close prove before late).aggregate w.epochDiff w.epochDiffProof
      w.committee w.committeeProof w.accumulatorCommitment w.targetEpoch = .ok anchor :=
    h.openEpoch hopen
  have hrun : ∀ total, absorbGroups S w.accumulatorCommitment anchor.committeeRoot w.link
      (late.map (·.1)) (late.map (·.2.1)) (late.map (·.2.2)) counted = .ok total ↔
        run Attested.Apart counted (late.map FoldedGroup.count) = some total :=
    fun total => absorbGroups_eq_run hlate
  have htail : ∀ (root : P.Digest) (grouped : Attested P),
      countTail (w.close prove before late) root accDepth grouped = .ok grouped := fun _ _ => rfl
  unfold streamFinalCount
  simp only [Guest.bind_eq_ok, Guest.pure_eq_ok, hlengths, h.inheritAggregate late, htail]
  constructor
  · rintro ⟨_, -, anchor'', hanchor'', counted', hcounted', _, -, grouped, hgrouped, total',
      htotal', hpair⟩
    obtain rfl := Except.ok.inj (hanchor.symm.trans hanchor'')
    obtain rfl := Except.ok.inj hcounted'
    obtain rfl := Except.ok.inj htotal'
    obtain ⟨rfl, rfl⟩ := Prod.mk.inj hpair
    exact ⟨rfl, (hrun _).mp hgrouped⟩
  · rintro ⟨rfl, htotal⟩
    exact ⟨(), Guest.assert_eq_ok.mpr hcommitment, anchor', hanchor, counted, rfl, (), trivial,
      total, (hrun total).mpr htotal, total, rfl, rfl⟩

/-- **The whole epoch is one guarded sum** over the folded groups and the late ones. -/
theorem foldAndClose_eq_ok {accDepth : ℕ}
    (hcommitment : P.commitment w.accRoot w.totalActiveBalance = w.accumulatorCommitment)
    (hopen : openEpoch S none w.epochDiff w.epochDiffProof w.committee w.committeeProof
      w.accumulatorCommitment w.targetEpoch = .ok anchor)
    {folds : List (List (FoldedGroup P))} {late : List (FoldedGroup P)}
    (hne : ∀ groups ∈ folds, groups ≠ [])
    (hgroups : ∀ group ∈ folds.flatten ++ late,
      group.Verified S w.accumulatorCommitment anchor.committeeRoot w.link)
    (hproven : LinksProven (AggregateProven S prove) (foldGroups S w prove) folds)
    {anchor' : EpochAnchor P} {total : Attested P} :
    foldAndClose S w prove folds late accDepth = .ok (anchor', total) ↔
      anchor' = anchor ∧
        run Attested.Apart 0 ((folds.flatten ++ late).map FoldedGroup.count) = some total := by
  obtain ⟨hfolded, hlate⟩ := List.forall_mem_append.mp hgroups
  have hchain : ∀ {before}, foldChain (foldGroups S w prove) folds = .ok before ↔
      ∃ counted, run Attested.Apart 0 (folds.flatten.map FoldedGroup.count) = some counted ∧
        before = chainEnd (w.encode anchor) folds counted := by
    intro before
    apply foldChain_eq_ok _ hproven
    intro groups hmem before counted out hstands
    exact foldGroups_eq_ok hopen hstands (hne groups hmem) fun group hgroup =>
      hfolded group (List.mem_flatten.mpr ⟨groups, hmem, hgroup⟩)
  rw [List.map_append, run_append, foldAndClose, Guest.bind_eq_ok, Option.bind_eq_some_iff]
  constructor
  · rintro ⟨before, hbefore, hclose⟩
    obtain ⟨counted, hcounted, rfl⟩ := hchain.mp hbefore
    have hstands := standsFor_chainEnd hproven hcounted hbefore
    obtain ⟨hanchor, htotal⟩ := (streamFinalCount_close hcommitment hopen hstands hlate).mp hclose
    exact ⟨hanchor, counted, hcounted, htotal⟩
  · rintro ⟨hanchor, counted, hcounted, htotal⟩
    have hbefore := hchain.mpr ⟨counted, hcounted, rfl⟩
    have hstands := standsFor_chainEnd hproven hcounted hbefore
    exact ⟨_, hbefore, (streamFinalCount_close hcommitment hopen hstands hlate).mpr
      ⟨hanchor, htotal⟩⟩

end Groups

/-! ## One fold of slot proofs -/

/-- A slot proof with its proof. -/
abbrev FoldedSlot (P : Primitives) := SlotProofOutput P × List UInt64

/-- What a slot proof counts. -/
def FoldedSlot.count (slot : FoldedSlot P) : Justified :=
  ⟨slot.1.attestingBalance, slot.1.slotsMask⟩

/-- A slot proof that passes the checks of the loop that do not look at the sum. -/
structure FoldedSlot.Verified (S : ProofSystem P) (w : JustificationWitness P)
    (committeeRoot : P.Digest) (slot : FoldedSlot P) : Prop where
  proven : verifyBakedChild S slot.2 slotProgramVk slot.1.publicBytes = .ok true
  accumulator : slot.1.accumulatorCommitment = w.accumulatorCommitment
  committee : slot.1.committeeRoot = committeeRoot
  targetEpoch : slot.1.targetEpoch = w.targetEpoch
  targetRoot : slot.1.targetRoot = w.targetRoot
  sourceEpoch : slot.1.sourceEpoch = w.sourceEpoch
  sourceRoot : slot.1.sourceRoot = w.sourceRoot

/-- The justification a count comes out as. -/
def JustificationWitness.justificationOf (w : JustificationWitness P) (committeeRoot : P.Digest)
    (counted : Justified) : JustificationOutput P where
  accumulatorCommitment := w.accumulatorCommitment
  committeeRoot
  sourceEpoch := w.sourceEpoch
  sourceRoot := w.sourceRoot
  targetEpoch := w.targetEpoch
  targetRoot := w.targetRoot
  attestingBalance := counted.attestingBalance
  slotsMask := counted.slotsMask
  justified := decide (IsSupermajority counted.attestingBalance w.totalActiveBalance)
  programVk := w.justificationProgramVk

/-- The witness of a fold over the slot proofs, on top of a justification or
opening the epoch. -/
def JustificationWitness.fold (w : JustificationWitness P)
    (prove : JustificationOutput P → List UInt64) (before : Option (JustificationOutput P))
    (slots : List (FoldedSlot P)) : JustificationWitness P :=
  { w with
    previous := before
    previousProof := before.elim [] prove
    slotProofOutputs := slots.map (·.1)
    slotProofs := slots.map (·.2) }

/-- The fold itself. -/
def foldSlots (S : ProofSystem P) (w : JustificationWitness P)
    (prove : JustificationOutput P → List UInt64) (before : Option (JustificationOutput P))
    (slots : List (FoldedSlot P)) : Guest (JustificationOutput P) :=
  verifyJustification S (w.fold prove before slots)

/-- The justification is proven. -/
def JustificationProven (S : ProofSystem P) (w : JustificationWitness P)
    (prove : JustificationOutput P → List UInt64) (out : JustificationOutput P) : Prop :=
  verifyChild S (prove out) w.justificationProgramVk out.publicBytes = true

section Slots

variable {S : ProofSystem P} {w : JustificationWitness P}
  {prove : JustificationOutput P → List UInt64} {committeeRoot : P.Digest}

theorem absorbSlotProof_verified {slot : FoldedSlot P} (h : slot.Verified S w committeeRoot)
    (before : Option (JustificationOutput P)) (slots : List (FoldedSlot P)) (i : ℕ)
    (running next : Justified) :
    absorbSlotProof S (w.fold prove before slots) committeeRoot running (slot, i) = .ok next ↔
      Justified.Apart running slot.count ∧ next = running + slot.count := by
  obtain ⟨out, proof⟩ := slot
  simp only [absorbSlotProof, requireBakedChild, h.proven, Guest.bind_eq_ok, Guest.assert_eq_ok,
    Guest.pure_eq_ok, exists_const]
  constructor
  · rintro ⟨-, -, -, -, -, -, -, hmask, rfl⟩
    exact ⟨hmask, rfl⟩
  · rintro ⟨hmask, rfl⟩
    exact ⟨⟨true, rfl, rfl⟩, h.accumulator, h.committee, h.targetEpoch, h.targetRoot,
      h.sourceEpoch, h.sourceRoot, hmask, rfl⟩

/-- The count of a justification is taken over as it was. -/
theorem StandsFor.inheritJustification {before : Option (JustificationOutput P)}
    {counted : Justified}
    (h : StandsFor (w.justificationOf committeeRoot) (JustificationProven S w prove) before counted)
    (slots : List (FoldedSlot P)) :
    Zkasper.inheritJustification S (w.fold prove before slots) = .ok counted := by
  rcases h with ⟨rfl, rfl⟩ | ⟨rfl, hproven⟩
  · rfl
  · simp only [Zkasper.inheritJustification, JustificationWitness.fold,
      JustificationWitness.justificationOf, Option.elim_some, Guest.bind_eq_ok, Guest.assert_eq_ok,
      Guest.pure_eq_ok, exists_const, and_true]
    exact ⟨(), Guest.assert_eq_ok.mpr hproven⟩

/-- And so is its committee root. -/
theorem StandsFor.justificationCommittee {before : Option (JustificationOutput P)}
    {counted : Justified}
    (h : StandsFor (w.justificationOf committeeRoot) (JustificationProven S w prove) before counted)
    (hopen : committeeLink S w.committee w.committeeProof w.accumulatorCommitment w.targetEpoch =
      .ok committeeRoot) (slots : List (FoldedSlot P)) :
    Zkasper.justificationCommittee S (w.fold prove before slots) = .ok committeeRoot := by
  rcases h with ⟨rfl, -⟩ | ⟨rfl, -⟩
  · exact hopen
  · rfl

/-- **One fold** of slot proofs, the same way. -/
theorem foldSlots_eq_ok
    (hcommitment : P.commitment w.accRoot w.totalActiveBalance = w.accumulatorCommitment)
    (hopen : committeeLink S w.committee w.committeeProof w.accumulatorCommitment w.targetEpoch =
      .ok committeeRoot) {before : Option (JustificationOutput P)} {counted : Justified}
    (h : StandsFor (w.justificationOf committeeRoot) (JustificationProven S w prove) before counted)
    {slots : List (FoldedSlot P)} (hne : slots ≠ [])
    (hslots : ∀ slot ∈ slots, slot.Verified S w committeeRoot) {out : JustificationOutput P} :
    foldSlots S w prove before slots = .ok out ↔
      ∃ total, run Justified.Apart counted (slots.map FoldedSlot.count) = some total ∧
        out = w.justificationOf committeeRoot total := by
  have hslotsNe : (w.fold prove before slots).slotProofOutputs ≠ [] := fun hnil =>
    hne (List.map_eq_nil_iff.mp hnil)
  have hlengths : (w.fold prove before slots).slotProofOutputs.length =
      (w.fold prove before slots).slotProofs.length := by
    simp only [JustificationWitness.fold, List.length_map]
  have hzip : (slots.map (·.1)).zip (slots.map (·.2)) = slots :=
    (List.zip_of_prod rfl rfl).symm
  have hcounts : slots.map FoldedSlot.count =
      slots.zipIdx.map fun entry => FoldedSlot.count entry.1 := by
    rw [← List.zipIdx_map_fst 0 slots, List.map_map, List.zipIdx_map_fst]
    rfl
  have hrun : ∀ total, ((slots.map (·.1)).zip (slots.map (·.2))).zipIdx.foldlM
      (absorbSlotProof S (w.fold prove before slots) committeeRoot) counted = .ok total ↔
        run Justified.Apart counted (slots.map FoldedSlot.count) = some total := by
    intro total
    rw [hzip, hcounts]
    apply Guest.foldlM_eq_run
    intro entry hmem running next
    exact absorbSlotProof_verified (hslots _ (List.fst_mem_of_mem_zipIdx hmem)) before slots _ _ _
  unfold foldSlots verifyJustification
  simp only [Guest.bind_eq_ok, Guest.pure_eq_ok, h.inheritJustification slots,
    h.justificationCommittee hopen slots]
  constructor
  · rintro ⟨_, -, _, -, _, -, root, hroot, counted', hcounted', total, htotal, rfl⟩
    obtain rfl := Except.ok.inj hroot
    obtain rfl := Except.ok.inj hcounted'
    exact ⟨total, (hrun total).mp htotal, rfl⟩
  · rintro ⟨total, htotal, rfl⟩
    exact ⟨(), Guest.assert_eq_ok.mpr hslotsNe, (), Guest.assert_eq_ok.mpr hlengths, (),
      Guest.assert_eq_ok.mpr hcommitment, committeeRoot, rfl, counted, rfl, total,
      (hrun total).mpr htotal, rfl⟩

end Slots

/-! ## Every way of folding an epoch -/

/-- The groups together: their balances, their slots and their accumulators. -/
def FoldedGroup.total (groups : List (FoldedGroup P)) : Attested P where
  attestingBalance := (groups.map (·.1.attestingBalance)).sum
  slotsMask := (groups.map (·.1.slotsMask)).foldr (· ||| ·) 0
  miller := (groups.map (·.2.2)).foldr P.fp12Mul P.fp12One

/-- The slot proofs together. -/
def FoldedSlot.total (slots : List (FoldedSlot P)) : Justified where
  attestingBalance := (slots.map (·.1.attestingBalance)).sum
  slotsMask := (slots.map (·.1.slotsMask)).foldr (· ||| ·) 0

theorem FoldedGroup.sum_count [CommutativeFp12 P] (groups : List (FoldedGroup P)) :
    (groups.map FoldedGroup.count).sum = FoldedGroup.total groups := by
  induction groups with
  | nil => rfl
  | cons group groups ih =>
      rw [List.map_cons, List.sum_cons, ih]
      rfl

theorem FoldedSlot.sum_count (slots : List (FoldedSlot P)) :
    (slots.map FoldedSlot.count).sum = FoldedSlot.total slots := by
  induction slots with
  | nil => rfl
  | cons slot slots ih =>
      rw [List.map_cons, List.sum_cons, ih]
      rfl

/-- Groups that `verify_group` accepts, each against the accumulator of an epoch,
the committee root the epoch opens with, and its link. -/
structure GroupsOf (S : ProofSystem P) (w : StreamFinalWitness P) (anchor : EpochAnchor P)
    (groups : List (FoldedGroup P)) : Prop where
  commitment : P.commitment w.accRoot w.totalActiveBalance = w.accumulatorCommitment
  opens : openEpoch S none w.epochDiff w.epochDiffProof w.committee w.committeeProof
    w.accumulatorCommitment w.targetEpoch = .ok anchor
  verified : ∀ group ∈ groups,
    group.Verified S w.accumulatorCommitment anchor.committeeRoot w.link

/-- Slot proofs the justification accepts, the same way. -/
structure SlotsOf (S : ProofSystem P) (w : JustificationWitness P) (committeeRoot : P.Digest)
    (slots : List (FoldedSlot P)) : Prop where
  commitment : P.commitment w.accRoot w.totalActiveBalance = w.accumulatorCommitment
  opens : committeeLink S w.committee w.committeeProof w.accumulatorCommitment w.targetEpoch =
    .ok committeeRoot
  verified : ∀ slot ∈ slots, slot.Verified S w committeeRoot

section Invariance

variable {S : ProofSystem P}

/-- The groups of an epoch, cut into folds and a rest in any order. -/
theorem GroupsOf.foldAndClose [CommutativeFp12 P] {w : StreamFinalWitness P}
    {anchor : EpochAnchor P} {groups : List (FoldedGroup P)} (h : GroupsOf S w anchor groups)
    {prove : AggregateOutput P → List UInt64} {folds : List (List (FoldedGroup P))}
    {late : List (FoldedGroup P)} (hperm : (folds.flatten ++ late).Perm groups)
    (hne : ∀ part ∈ folds, part ≠ [])
    (hproven : LinksProven (AggregateProven S prove) (foldGroups S w prove) folds)
    {accDepth : ℕ} {anchor' : EpochAnchor P} {total : Attested P} :
    Zkasper.foldAndClose S w prove folds late accDepth = .ok (anchor', total) ↔
      groups.Pairwise (fun a b => a.1.slotsMask &&& b.1.slotsMask = 0) ∧
        anchor' = anchor ∧ total = FoldedGroup.total groups := by
  have hverified : ∀ group ∈ folds.flatten ++ late,
      group.Verified S w.accumulatorCommitment anchor.committeeRoot w.link :=
    fun group hgroup => h.verified group (hperm.mem_iff.mp hgroup)
  rw [foldAndClose_eq_ok h.commitment h.opens hne hverified hproven,
    run_zero_perm Attested.apart (hperm.map _), run_zero_eq_some Attested.apart, List.pairwise_map,
    FoldedGroup.sum_count]
  exact and_left_comm

/-- All of them in one fold. -/
theorem GroupsOf.single [CommutativeFp12 P] {w : StreamFinalWitness P} {anchor : EpochAnchor P}
    {groups : List (FoldedGroup P)} (h : GroupsOf S w anchor groups)
    (prove : AggregateOutput P → List UInt64) (hne : groups ≠ []) {out : AggregateOutput P} :
    verifyAggregate S (w.fold prove none groups) = .ok out ↔
      groups.Pairwise (fun a b => a.1.slotsMask &&& b.1.slotsMask = 0) ∧
        out = w.aggregateOf anchor (FoldedGroup.total groups) := by
  have hstands : StandsFor (w.encode anchor) (AggregateProven S prove) none 0 := .inl ⟨rfl, rfl⟩
  rw [verifyAggregate_fold h.opens hstands hne h.verified]
  simp only [run_zero_eq_some Attested.apart, List.pairwise_map, FoldedGroup.sum_count]
  constructor
  · rintro ⟨total, ⟨hpairwise, rfl⟩, rfl⟩
    exact ⟨hpairwise, rfl⟩
  · rintro ⟨hpairwise, rfl⟩
    exact ⟨_, ⟨hpairwise, rfl⟩, rfl⟩

/-- The slot proofs of an epoch, cut into folds in any order. -/
theorem SlotsOf.foldChain {w : JustificationWitness P} {committeeRoot : P.Digest}
    {slots : List (FoldedSlot P)} (h : SlotsOf S w committeeRoot slots)
    {prove : JustificationOutput P → List UInt64} {folds : List (List (FoldedSlot P))}
    (hsub : ∀ slot ∈ folds.flatten, slot ∈ slots) (hne : ∀ part ∈ folds, part ≠ [])
    (hproven : LinksProven (JustificationProven S w prove) (foldSlots S w prove) folds)
    {before : Option (JustificationOutput P)} :
    Zkasper.foldChain (foldSlots S w prove) folds = .ok before ↔
      folds.flatten.Pairwise (fun a b => a.1.slotsMask &&& b.1.slotsMask = 0) ∧
        before = chainEnd (w.justificationOf committeeRoot) folds
          (FoldedSlot.total folds.flatten) := by
  have hchain : Zkasper.foldChain (foldSlots S w prove) folds = .ok before ↔
      ∃ counted, run Justified.Apart 0 (folds.flatten.map FoldedSlot.count) = some counted ∧
        before = chainEnd (w.justificationOf committeeRoot) folds counted := by
    apply foldChain_eq_ok _ hproven
    intro part hpart before counted out hstands
    exact foldSlots_eq_ok h.commitment h.opens hstands (hne part hpart) fun slot hslot =>
      h.verified slot (hsub slot (List.mem_flatten.mpr ⟨part, hpart, hslot⟩))
  rw [hchain]
  simp only [run_zero_eq_some Justified.apart, List.pairwise_map, FoldedSlot.sum_count]
  constructor
  · rintro ⟨total, ⟨hpairwise, rfl⟩, rfl⟩
    exact ⟨hpairwise, rfl⟩
  · rintro ⟨hpairwise, rfl⟩
    exact ⟨_, ⟨hpairwise, rfl⟩, rfl⟩

/-- **Fold partition and order invariance.** However the groups of an epoch are
ordered, cut into folds and left to the final proof, they are accepted exactly when
no two share a slot, and come to what one fold of them all comes to. Slot proofs
fold the same way, and every link along their chain says truly whether two thirds
are behind it. -/
theorem folds_invariant [CommutativeFp12 P] {w : StreamFinalWitness P} {anchor : EpochAnchor P}
    {groups : List (FoldedGroup P)} (hgroups : GroupsOf S w anchor groups)
    {j : JustificationWitness P} {committeeRoot : P.Digest} {slots : List (FoldedSlot P)}
    (hslots : SlotsOf S j committeeRoot slots) :
    (∀ (prove : AggregateOutput P → List UInt64) (folds : List (List (FoldedGroup P)))
        (late : List (FoldedGroup P)),
      (folds.flatten ++ late).Perm groups → (∀ part ∈ folds, part ≠ []) →
      LinksProven (AggregateProven S prove) (foldGroups S w prove) folds →
      ∀ accDepth anchor' total,
        foldAndClose S w prove folds late accDepth = .ok (anchor', total) ↔
          groups.Pairwise (fun a b => a.1.slotsMask &&& b.1.slotsMask = 0) ∧
            anchor' = anchor ∧ total = FoldedGroup.total groups) ∧
    (groups ≠ [] → ∀ (prove : AggregateOutput P → List UInt64) out,
      verifyAggregate S (w.fold prove none groups) = .ok out ↔
        groups.Pairwise (fun a b => a.1.slotsMask &&& b.1.slotsMask = 0) ∧
          out = w.aggregateOf anchor (FoldedGroup.total groups)) ∧
    ∀ (prove : JustificationOutput P → List UInt64) (folds : List (List (FoldedSlot P))),
      folds.flatten.Perm slots → (∀ part ∈ folds, part ≠ []) →
      LinksProven (JustificationProven S j prove) (foldSlots S j prove) folds →
      (∀ before, foldChain (foldSlots S j prove) folds = .ok before ↔
        slots.Pairwise (fun a b => a.1.slotsMask &&& b.1.slotsMask = 0) ∧
          before = chainEnd (j.justificationOf committeeRoot) folds (FoldedSlot.total slots)) ∧
      ∀ done, done <+: folds → ∀ out, foldChain (foldSlots S j prove) done = .ok (some out) →
        out.attestingBalance = (FoldedSlot.total done.flatten).attestingBalance ∧
          (out.justified = true ↔
            3 * out.attestingBalance.toNat ≥ 2 * j.totalActiveBalance.toNat) := by
  refine ⟨?_, fun hne prove out => hgroups.single prove hne, ?_⟩
  · intro prove folds late hperm hne hproven accDepth anchor' total
    exact hgroups.foldAndClose hperm hne hproven
  · intro prove folds hperm hne hproven
    have hsub : ∀ slot ∈ folds.flatten, slot ∈ slots := fun slot => hperm.mem_iff.mp
    constructor
    · intro before
      have htotal : FoldedSlot.total folds.flatten = FoldedSlot.total slots := by
        rw [← FoldedSlot.sum_count, ← FoldedSlot.sum_count, (hperm.map _).sum_eq]
      have hpairwise := hperm.pairwise_iff
        (R := fun a b : FoldedSlot P => a.1.slotsMask &&& b.1.slotsMask = 0)
        fun hab => by rwa [UInt64.and_comm]
      rw [hslots.foldChain hsub hne hproven, htotal, hpairwise]
    · -- a link is where the chain of the folds up to it has arrived
      intro done hdone out hout
      have hsub' : ∀ slot ∈ done.flatten, slot ∈ slots := by
        intro slot hslot
        obtain ⟨part, hpart, hmem⟩ := List.mem_flatten.mp hslot
        exact hsub slot (List.mem_flatten.mpr ⟨part, hdone.subset hpart, hmem⟩)
      have hne' : ∀ part ∈ done, part ≠ [] := fun part hpart => hne part (hdone.subset hpart)
      have hproven' : LinksProven (JustificationProven S j prove) (foldSlots S j prove) done :=
        fun earlier hearlier => hproven earlier (hearlier.trans hdone)
      obtain ⟨-, hend⟩ := (hslots.foldChain hsub' hne' hproven').mp hout
      unfold chainEnd at hend
      split at hend
      · cases hend
      · obtain rfl := Option.some.inj hend
        refine ⟨rfl, ?_⟩
        rw [show (j.justificationOf committeeRoot (FoldedSlot.total done.flatten)).justified =
          decide (IsSupermajority _ _) from rfl, decide_eq_true_eq, IsSupermajority,
          Nat.mul_comm, Nat.mul_comm 2]
        rfl

end Invariance

/-! ## Three groups over the free instance

Accumulators are counted here instead of listed: what is kept of a product is how
many pairs went into it. -/

namespace Formal

/-- The free instance, with the exponent of a product for the product. -/
@[reducible] def counting : Primitives :=
  { formal {} with
    Fp12 := ℕ
    commitFp12 := fun n => .leaf (fun _ => n) 0
    millerLoopBatch := fun points twists => (pairs points twists).length
    fp12One := 0
    fp12Mul := (· + ·)
    finalExpIsOne := fun n => decide (n = 0) }

instance : CommutativeFp12 counting where
  fp12Mul_assoc := Nat.add_assoc
  fp12Mul_comm := Nat.add_comm
  fp12One_mul := Nat.zero_add

def epochRoot : Term := .bytes []

/-- The accumulator of the epoch. -/
def epochCommitment : Digest := .commitment .zero 60

def epochDiffOut : EpochDiffOutput counting :=
  ⟨.zero, epochRoot, 1, epochCommitment, .zero, 60, epochRoot, 2⟩

def epochCommittee : CommitteeOutput counting := ⟨epochCommitment, 2, .zero⟩

/-- A group of one slot, with as many pairs as its balance has tens. -/
def slotGroup (slot balance : UInt64) : FoldedGroup counting :=
  (⟨epochCommitment, .zero, 1, epochRoot, 2, epochRoot, balance, 1 <<< slot,
    .leaf (fun _ => (balance.toNat / 10 : ℕ)) 0⟩, [1], (balance.toNat / 10 : ℕ))

def threeGroups : List (FoldedGroup counting) := [slotGroup 0 10, slotGroup 1 20, slotGroup 2 30]

def slotOf (slot balance : UInt64) : FoldedSlot counting :=
  (⟨epochCommitment, .zero, 1, epochRoot, 2, epochRoot, balance, 1 <<< slot⟩, [1])

def threeSlots : List (FoldedSlot counting) := [slotOf 0 10, slotOf 1 20, slotOf 2 30]

/-- What is proven: the children of the epoch, and whatever its folds publish. -/
def epochSystem : ProofSystem counting := fun _ vk publics =>
  decide (vk = aggregateProgramVk ∨ vk = justificationProgramVk ∨ (vk, publics) ∈
    [(epochDiffProgramVk, epochDiffOut.publicBytes),
        (committeeProgramVk, epochCommittee.publicBytes)] ++
      threeGroups.map (fun group => (groupProgramVk, group.1.publicBytes)) ++
      threeSlots.map (fun slot => (slotProgramVk, slot.1.publicBytes)))

def epochFinal : StreamFinalWitness counting where
  accumulatorCommitment := epochCommitment
  targetEpoch := 2
  targetRoot := epochRoot
  signingDomain := epochRoot
  accRoot := .zero
  totalActiveBalance := 60
  streamProgramVk := ⟨1, 2, 3, 4⟩
  epochDiff := some epochDiffOut
  epochDiffProof := [1]
  committee := some epochCommittee
  committeeProof := [1]
  aggregate := none
  aggregateProof := []
  aggregateMiller := (0 : ℕ)
  groups := []
  groupProofs := []
  groupMillers := []
  tail := []
  tailAccMultiProof := []
  tailCommitteeMultiProof := []
  previousJustification :=
    .stream ⟨.zero, .zero, 0, epochRoot, epochRoot, 1, epochRoot, ⟨1, 2, 3, 4⟩⟩
  previousJustificationProof := [1]
  boundary := ⟨⟨0, 0, epochRoot, epochRoot, epochRoot⟩, [], []⟩

def epochJustification : JustificationWitness counting where
  accumulatorCommitment := epochCommitment
  sourceEpoch := 1
  sourceRoot := epochRoot
  targetEpoch := 2
  targetRoot := epochRoot
  totalActiveBalance := 60
  accRoot := .zero
  justificationProgramVk := justificationProgramVk
  committee := some epochCommittee
  committeeProof := [1]
  previous := none
  previousProof := []
  slotProofOutputs := []
  slotProofs := []

/-- The epoch is opened by a diff from nothing, against the empty committee tree. -/
def epochAnchor : EpochAnchor counting := ⟨.zero, epochRoot, .zero⟩

end Formal

/-- The last group in one fold, the first in the next, and the one between them late. -/
theorem folds_invariant_three :
    foldAndClose Formal.epochSystem Formal.epochFinal (fun _ => [1])
        [[Formal.slotGroup 2 30], [Formal.slotGroup 0 10]] [Formal.slotGroup 1 20] 1 =
      .ok (Formal.epochAnchor, ⟨60, 7, (6 : ℕ)⟩) := by
  have hgroups : GroupsOf Formal.epochSystem Formal.epochFinal Formal.epochAnchor
      Formal.threeGroups := {
    commitment := rfl
    opens := rfl
    verified := by
      simp only [Formal.threeGroups, List.forall_mem_cons]
      exact ⟨⟨0, rfl⟩, ⟨0, rfl⟩, ⟨0, rfl⟩, fun _ h => absurd h List.not_mem_nil⟩ }
  have hslots : SlotsOf Formal.epochSystem Formal.epochJustification .zero Formal.threeSlots := {
    commitment := rfl
    opens := rfl
    verified := by
      simp only [Formal.threeSlots, List.forall_mem_cons]
      exact ⟨⟨rfl, rfl, rfl, rfl, rfl, rfl, rfl⟩, ⟨rfl, rfl, rfl, rfl, rfl, rfl, rfl⟩,
        ⟨rfl, rfl, rfl, rfl, rfl, rfl, rfl⟩, fun _ h => absurd h List.not_mem_nil⟩ }
  apply ((folds_invariant hgroups hslots).1 (fun _ => [1]) _ _ _ _ _ 1 _ _).mpr
  · exact ⟨by decide, rfl, rfl⟩
  · show ([Formal.slotGroup 2 30] ++ [Formal.slotGroup 0 10, Formal.slotGroup 1 20]).Perm
      ([Formal.slotGroup 0 10, Formal.slotGroup 1 20] ++ [Formal.slotGroup 2 30])
    exact List.perm_append_comm
  · decide
  · intro done _ out _
    rfl

end Zkasper
