import Zkasper.Anchoring

/-! # Epoch after epoch

A chain of final proofs: the first reads a batch justification, each later one the
final proof before it. What links an epoch to the one before it reaches the final
proof by one of two ways. Where the epoch has no aggregate, the final proof
verifies the epoch diff and the committee proof itself; where it has one, the fold
that opened the epoch did, and what they published travels up the folds. The
invariant of a fold is that it is tied to its epoch (`EpochTied`), and the final
proof is tied the same way whichever way its links came.

Epochs are compared in 64-bit arithmetic, and in a release build it wraps. So the
chain counts epochs one by one up to the last epoch a `u64` holds
(`finalChain_linked`), and past it starts again at zero. -/

namespace Zkasper

variable {P : Primitives} {S : ProofSystem P} {d : ℕ} {slotsPerEpoch : UInt64}
  {streamVk : ProgramVk}

/-! ## What an epoch is tied to -/

/-- The links of an epoch, both proven: an epoch diff from the accumulator and the
state before, and the committee tree the epoch was counted over. -/
structure EpochTied (d : ℕ) (anchor : EpochAnchor P) (accumulatorCommitment : P.Digest)
    (targetEpoch : UInt64) : Prop where
  diff : ∃ diff : EpochDiffOutput P, EpochDiffAccepted d diff ∧
    diff.prevAccumulatorCommitment = anchor.previousAccumulatorCommitment ∧
    diff.accumulatorCommitment = accumulatorCommitment ∧
    diff.epoch1 + 1 = targetEpoch ∧ diff.epoch2 = targetEpoch ∧
    diff.stateRoot1 = anchor.anchorStateRoot
  committee : ∃ (witness : List UInt64) (committee : CommitteeOutput P),
    Committee.verify witness d = .ok committee ∧
    committee.accumulatorCommitment = accumulatorCommitment ∧
    committee.targetEpoch = targetEpoch ∧ committee.committeeRoot = anchor.committeeRoot

/-- Links that were verified are proven. -/
theorem openEpoch_tied (hS : S.Sound d slotsPerEpoch streamVk)
    {epochDiff : Option (EpochDiffOutput P)} {committee : Option (CommitteeOutput P)}
    {epochDiffProof committeeProof : List UInt64} {accumulatorCommitment : P.Digest}
    {targetEpoch : UInt64} {anchor : EpochAnchor P}
    (h : openEpoch S none epochDiff epochDiffProof committee committeeProof accumulatorCommitment
      targetEpoch = .ok anchor) : EpochTied d anchor accumulatorCommitment targetEpoch := by
  obtain ⟨hdiff, hcommittee⟩ := openEpoch_none_eq_ok h
  obtain ⟨diff, hproof, hacc, hend, hstart, hprevious, hstate⟩ := epochLink_eq_ok hdiff
  obtain ⟨out, hproof', hacc', hroot, hepoch⟩ := committeeLink_eq_ok hcommittee
  obtain ⟨witness, hrun⟩ := (hS _ _ _ hproof').committee_inv
  exact {
    diff := ⟨diff, (hS _ _ _ hproof).epochDiff_inv, hprevious, hacc, hstart, hend, hstate⟩
    committee := ⟨witness, out, hrun, hacc', hepoch, hroot⟩ }

/-- What an aggregate says its epoch is tied to. -/
def AggregateOutput.anchor (out : AggregateOutput P) : EpochAnchor P :=
  ⟨out.previousAccumulatorCommitment, out.anchorStateRoot, out.committeeRoot⟩

/-- **One fold**: it is tied to its epoch if what it extends is. -/
theorem verifyAggregate_tied (hS : S.Sound d slotsPerEpoch streamVk) {w : AggregateWitness P}
    {out : AggregateOutput P} (h : verifyAggregate S w = .ok out)
    (hbefore : ∀ before, out.Extends S before →
      EpochTied d before.anchor before.accumulatorCommitment before.targetEpoch) :
    EpochTied d out.anchor out.accumulatorCommitment out.targetEpoch := by
  obtain ⟨hopen, -, -, hextends⟩ := verifyAggregate_opens h
  cases hprevious : w.previous with
  | none =>
      rw [hprevious] at hopen
      exact openEpoch_tied hS hopen
  | some before =>
      have hext := hextends before hprevious
      have htied := hbefore before hext
      rw [hprevious] at hopen
      have hanchor : before.anchor = out.anchor := Guest.pure_eq_ok.mp hopen
      rwa [hanchor, hext.accumulator, hext.target] at htied

/-- **The chain of folds**, by induction on the tree of runs: every aggregate of a
chain pinned to the aggregation guest is tied to its epoch, however far below it
the fold is that opened it. -/
theorem Accepted.aggregate_tied {vk : ProgramVk} {publics : PublicBytes P}
    (h : Accepted d slotsPerEpoch streamVk vk publics) :
    ∀ out : AggregateOutput P, vk = aggregateProgramVk → publics = out.publicBytes →
      out.programVk = aggregateProgramVk →
        EpochTied d out.anchor out.accumulatorCommitment out.targetEpoch := by
  induction h with
  | aggregate children run ih =>
      intro out _ hpublics hprogram
      obtain rfl := AggregateOutput.publicBytes_injective hpublics
      apply verifyAggregate_tied children run
      intro before hext
      obtain ⟨proof, hproof⟩ := hext.proven
      exact ih proof _ _ hproof before hprogram rfl (hext.program.trans hprogram)
  | streamFinal =>
      intro out _ hpublics
      simp [AggregateOutput.publicBytes, StreamFinalOutput.publicBytes] at hpublics
  | other foreign =>
      rintro out rfl
      exact absurd (by simp [guestKeys]) foreign
  | _ =>
      intro out hvk
      cases hvk

/-- The final proof is tied to its epoch, by whichever of the two ways. -/
theorem streamFinalCount_tied (hS : S.Sound d slotsPerEpoch streamVk) {w : StreamFinalWitness P}
    {anchor : EpochAnchor P} {counted : Attested P}
    (h : streamFinalCount S w d = .ok (anchor, counted)) :
    EpochTied d anchor w.accumulatorCommitment w.targetEpoch := by
  obtain ⟨-, hanchor, aggregated, _, haggregate, -⟩ := streamFinalCount_eq_ok h
  rcases inheritAggregate_eq_ok haggregate with ⟨hnone, -⟩ |
    ⟨aggregate, hsome, ⟨proof, hproof⟩, hvk, hacc, hepoch, -⟩
  · rw [hnone] at hanchor
    exact openEpoch_tied hS hanchor
  · rw [hsome] at hanchor
    obtain rfl := Guest.pure_eq_ok.mp hanchor
    have htied := (hS _ _ _ hproof).aggregate_tied aggregate rfl rfl hvk
    rwa [hacc, hepoch] at htied

/-! ## What an epoch counts

A proof's outputs do not say which attestations are behind them; the run that
published them does. An attestation is counted when some run that published the
outputs counted it. -/

/-- Some run of the group guest with these outputs counts the attestation. -/
def GroupProofOutput.Counts (d : ℕ) (out : GroupProofOutput P) (data : AttestationData P) : Prop :=
  ∃ w, verifyGroupProofWithDepth w d = .ok out ∧
    ∃ slot ∈ w.slots, ∃ a ∈ slot.attestations, a.data = data

/-- Some tree of folds with these outputs counts the attestation, in a group one of
them folds. -/
inductive AggregateOutput.Counts (d : ℕ) : AggregateOutput P → AttestationData P → Prop
  | group {S : ProofSystem P} {w : AggregateWitness P} {out : AggregateOutput P}
      {group : GroupProofOutput P} {data : AttestationData P}
      (run : verifyAggregate S w = .ok out) (folded : group ∈ w.groups)
      (counts : group.Counts d data) : Counts d out data
  | previous {S : ProofSystem P} {w : AggregateWitness P} {out before : AggregateOutput P}
      {data : AttestationData P} (run : verifyAggregate S w = .ok out)
      (extended : w.previous = some before) (counts : Counts d before data) : Counts d out data

/-- The attestations of a final proof: its aggregate's, those of the groups it
absorbs, and those of its marginal slots. -/
def StreamFinalWitness.Counts (d : ℕ) (w : StreamFinalWitness P) (data : AttestationData P) :
    Prop :=
  (∃ aggregate, w.aggregate = some aggregate ∧ aggregate.Counts d data) ∨
    (∃ group ∈ w.groups, group.Counts d data) ∨
    ∃ slot ∈ w.tail, ∃ a ∈ slot.attestations, a.data = data

/-- A group counts for the link it publishes. -/
theorem GroupProofOutput.Counts.votes {out : GroupProofOutput P} {data : AttestationData P}
    (h : out.Counts d data) : data.VotesFor out.link := by
  obtain ⟨w, hrun, slot, hslot, a, ha, rfl⟩ := h
  simp only [verifyGroupProofWithDepth, attest, Guest.bind_eq_ok, Guest.assert_eq_ok,
    Guest.pure_eq_ok, exists_const] at hrun
  obtain ⟨attested, ⟨-, hattested⟩, rfl⟩ := hrun
  exact verifyAttestations_votes hattested slot hslot a ha

/-- A chain of folds counts for the link behind its digest. -/
theorem AggregateOutput.Counts.votes (hP : CollisionFree P) {out : AggregateOutput P}
    {data : AttestationData P} (h : out.Counts d data) {link : Link P}
    (hdigest : out.checkpointDigest = link.checkpointDigest) : data.VotesFor link := by
  induction h with
  | group run folded counts =>
      obtain ⟨-, hlink, hgroups, -⟩ := verifyAggregate_opens run
      obtain rfl := Link.checkpointDigest_injective hP (hlink.symm.trans hdigest)
      obtain ⟨miller, hbound⟩ := hgroups _ folded
      exact hbound.counts ▸ counts.votes
  | previous run extended _ ih =>
      obtain ⟨-, -, -, hextends⟩ := verifyAggregate_opens run
      apply ih
      rw [(hextends _ extended).checkpoint, hdigest]

/-- **Everything a final proof counts votes for its link**, from the checkpoint the
previous justification justified. -/
theorem streamFinalCount_votes (hP : CollisionFree P) {w : StreamFinalWitness P}
    {anchor : EpochAnchor P} {counted : Attested P}
    (h : streamFinalCount S w d = .ok (anchor, counted)) {data : AttestationData P}
    (hdata : w.Counts d data) : data.VotesFor w.link := by
  obtain ⟨hgroups, htail⟩ := streamFinalCount_counts h
  obtain ⟨-, -, aggregated, _, haggregate, -⟩ := streamFinalCount_eq_ok h
  rcases hdata with ⟨aggregate, hsome, hcounts⟩ | ⟨group, hgroup, hcounts⟩ |
    ⟨slot, hslot, a, ha, rfl⟩
  · rcases inheritAggregate_eq_ok haggregate with ⟨hnone, -⟩ |
      ⟨aggregate', hsome', -, -, -, -, hdigest, -⟩
    · rw [hnone] at hsome
      cases hsome
    · obtain rfl := Option.some.inj (hsome.symm.trans hsome')
      exact hcounts.votes hP hdigest
  · obtain ⟨miller, hbound⟩ := hgroups group hgroup
    exact hbound.counts ▸ hcounts.votes
  · exact htail slot hslot a ha

/-! ## Chains of final proofs -/

/-- One accepted final proof: a run over a sound proof system, pinned to the final
proof's own key by whoever consumes it. -/
structure FinalRun (P : Primitives) (d : ℕ) (slotsPerEpoch : UInt64) (streamVk : ProgramVk) where
  system : ProofSystem P
  witness : StreamFinalWitness P
  out : StreamFinalOutput P
  sound : system.Sound d slotsPerEpoch streamVk
  run : verifyStreamFinalWith system witness d slotsPerEpoch = .ok out
  pinned : out.programVk = streamVk

/-- **A chain of final proofs**: the first extends a batch justification, and each
later one the one before it. -/
structure FinalChain (runs : List (FinalRun P d slotsPerEpoch streamVk)) : Prop where
  opens : ∀ first, runs.head? = some first →
    ∃ batch, first.witness.previousJustification = .batch batch
  consumes : runs.IsChain fun before after =>
    after.witness.previousJustification = .stream before.out

/-- What one final proof of a chain is linked to. -/
structure FinalRun.Linked (r : FinalRun P d slotsPerEpoch streamVk) : Prop where
  /-- It finalizes the checkpoint the justification it consumes justified, against
  the same accumulator. -/
  finalizes : r.out.finalizedEpoch = r.witness.previousJustification.targetEpoch ∧
    r.out.finalizedRoot = r.witness.previousJustification.targetRoot ∧
    r.out.accumulatorCommitment = r.witness.previousJustification.accumulatorCommitment
  /-- It justifies the next epoch. -/
  justifies : r.out.justifiedEpoch.toNat = r.out.finalizedEpoch.toNat + 1
  /-- An epoch diff between the two epochs links the two accumulators, from the
  finalized state on. -/
  diff : ∃ diff : EpochDiffOutput P, EpochDiffAccepted d diff ∧
    diff.prevAccumulatorCommitment = r.out.accumulatorCommitment ∧
    diff.accumulatorCommitment = r.out.nextAccumulatorCommitment ∧
    diff.epoch1 = r.out.finalizedEpoch ∧ diff.epoch2 = r.out.justifiedEpoch ∧
    diff.stateRoot1 = r.out.finalizedStateRoot
  /-- A committee proof of the justified epoch covers the accumulator. -/
  committee : ∃ (witness : List UInt64) (committee : CommitteeOutput P),
    Committee.verify witness d = .ok committee ∧
    committee.accumulatorCommitment = r.out.nextAccumulatorCommitment ∧
    committee.targetEpoch = r.out.justifiedEpoch
  /-- Every attestation counted names the finalized checkpoint as its source. -/
  sources : ∀ data, r.witness.Counts d data →
    data.sourceEpoch = r.out.finalizedEpoch ∧ data.sourceRoot = r.out.finalizedRoot

/-- What a whole chain is linked by: each of its proofs, and every two consecutive ones. -/
structure FinalChain.Linked (runs : List (FinalRun P d slotsPerEpoch streamVk)) : Prop where
  each : ∀ r ∈ runs, r.Linked
  follows : runs.IsChain fun before after =>
    after.out.finalizedEpoch.toNat = before.out.finalizedEpoch.toNat + 1 ∧
    after.out.finalizedEpoch = before.out.justifiedEpoch ∧
    after.out.finalizedRoot = before.out.justifiedRoot ∧
    after.out.accumulatorCommitment = before.out.nextAccumulatorCommitment

/-- The next epoch is one more, unless this is the last one a `u64` holds. -/
theorem toNat_next_epoch (epoch : UInt64) :
    (epoch + 1).toNat = epoch.toNat + 1 ↔ epoch ≠ 18446744073709551615 := by
  have hlt := epoch.toNat_lt
  rw [UInt64.toNat_add, UInt64.toNat_one, Ne, ← UInt64.toNat_inj]
  show _ ↔ epoch.toNat ≠ 18446744073709551615
  omega

/-- **One link of the chain.** Nothing can fail of it but the count of epochs. -/
theorem FinalRun.linked_iff (hP : CollisionFree P) (r : FinalRun P d slotsPerEpoch streamVk) :
    r.Linked ↔ r.witness.previousJustification.targetEpoch ≠ 18446744073709551615 := by
  obtain ⟨anchor, counted, hcount, hepoch, hacc, hout⟩ := verifyStreamFinalWith_links r.run
  have htied := streamFinalCount_tied r.sound hcount
  have hjustified : r.out.justifiedEpoch = r.out.finalizedEpoch + 1 := by
    rw [hout]
    exact hepoch.symm
  have hfinalized : r.out.finalizedEpoch = r.witness.previousJustification.targetEpoch := by
    rw [hout]
  rw [← hfinalized, ← toNat_next_epoch, ← hjustified]
  refine ⟨fun h => h.justifies, fun hnext => ?_⟩
  refine { finalizes := ?_, justifies := hnext, diff := ?_, committee := ?_, sources := ?_ }
  · rw [hout]
    exact ⟨rfl, rfl, hacc.symm⟩
  · obtain ⟨diff, haccepted, hprevious, hafter, hstart, hend, hstate⟩ := htied.diff
    -- both epochs are one before the target, so they are one
    have hsame : diff.epoch1 = r.witness.previousJustification.targetEpoch :=
      (UInt64.add_left_inj 1).mp (hstart.trans hepoch.symm)
    rw [hout]
    exact ⟨diff, haccepted, hprevious, hafter, hsame, hend, hstate⟩
  · obtain ⟨witness, committee, hrun, hafter, htarget, -⟩ := htied.committee
    rw [hout]
    exact ⟨witness, committee, hrun, hafter, htarget⟩
  · intro data hdata
    obtain ⟨hsourceEpoch, hsourceRoot, -⟩ := streamFinalCount_votes hP hcount hdata
    rw [hout]
    exact ⟨hsourceEpoch, hsourceRoot⟩

/-- **Chains of every length**: every link of a chain holds, and every two
consecutive proofs agree, exactly when no proof of it finalizes the last epoch a
`u64` holds. -/
theorem finalChain_linked (hP : CollisionFree P)
    {runs : List (FinalRun P d slotsPerEpoch streamVk)} (h : FinalChain runs) :
    FinalChain.Linked runs ↔
      ∀ r ∈ runs, r.witness.previousJustification.targetEpoch ≠ 18446744073709551615 := by
  constructor
  · intro hlinked r hr
    exact (r.linked_iff hP).mp (hlinked.each r hr)
  · intro hepochs
    have heach : ∀ r ∈ runs, r.Linked := fun r hr => (r.linked_iff hP).mpr (hepochs r hr)
    refine ⟨heach, ?_⟩
    apply h.consumes.imp_of_mem_imp
    intro before after hbefore hafter hprevious
    obtain ⟨hepoch, hroot, hacc⟩ := (heach after hafter).finalizes
    rw [hprevious] at hepoch hroot hacc
    refine ⟨?_, hepoch, hroot, hacc⟩
    rw [hepoch]
    exact (heach before hbefore).justifies

/-! ## Two chains over the free instance

The chain of the fabricated validator set is linked like any other. The chain at
the end of the `u64` range is one proof long: in an instance where everybody signs
whatever they are asked to, a batch justifies the last epoch and the final proof
justifies epoch 0 after it. -/

namespace Formal

theorem exists_finalRun {S : Scenario} {system : ProofSystem (formal S)}
    (hsound : system.Sound 1 32 finalVk) (w : StreamFinalWitness (formal S))
    (out : StreamFinalOutput (formal S)) (hpinned : out.programVk = finalVk)
    (h : ∃ published, verifyStreamFinalWith system w 1 32 = .ok published ∧
      published.publicBytes = out.publicBytes) :
    ∃ r : FinalRun (formal S) 1 32 finalVk, r.witness = w ∧ r.out = out := by
  obtain ⟨published, run, hpublics⟩ := h
  obtain rfl := StreamFinalOutput.publicBytes_injective hpublics
  exact ⟨⟨system, w, published, hsound, run, hpinned⟩, rfl, rfl⟩

end Formal

/-- The two final proofs of the fabricated chain, linked. -/
theorem finalChain_linked_made :
    ∃ first second : FinalRun (Formal.formal Formal.twoKeys) 1 32 Formal.finalVk,
      first.out = Formal.madeFinal ∧ second.out = Formal.madeNextFinal ∧
        FinalChain.Linked [first, second] := by
  obtain ⟨first, hfirst, hfirstOut⟩ := Formal.exists_finalRun Formal.sound_madeTable
    (Formal.inlineFinal 0 1 (Formal.madeBlock Formal.twoKeys)
      (.batch Formal.genesisJustificationOut)) Formal.madeFinal rfl (by decide +kernel)
  obtain ⟨second, hsecond, hsecondOut⟩ := Formal.exists_finalRun Formal.sound_madeNextTable
    (Formal.inlineFinal 1 2 (Formal.madeNext Formal.twoKeys) (.stream Formal.madeFinal))
    Formal.madeNextFinal rfl (by decide +kernel)
  have hchain : FinalChain [first, second] := {
    opens := fun r hr => by
      obtain rfl := Option.some.inj hr
      exact ⟨_, congrArg StreamFinalWitness.previousJustification hfirst⟩
    consumes := by
      rw [List.isChain_pair, hsecond, hfirstOut]
      rfl }
  refine ⟨first, second, hfirstOut, hsecondOut, ?_⟩
  refine (finalChain_linked (Formal.formal_collisionFree _) hchain).mpr ?_
  rw [List.forall_mem_cons, List.forall_mem_singleton, hfirst, hsecond]
  exact ⟨by decide, by decide⟩

namespace Formal

/-! ### The last epoch -/

/-- Everybody signs whatever they are asked to. -/
def willing : Scenario := { twoKeys with signed := fun _ _ => true }

def lastEpoch : UInt64 := 18446744073709551615

/-- The proof system that accepts a table of outputs. -/
def willingTable (table : List (ProgramVk × PublicBytes (formal willing))) :
    ProofSystem (formal willing) :=
  fun _ vk publics => decide ((vk, publics) ∈ table)

def lastCommittee (k : ℕ) (epoch : UInt64) : CommitteeOutput (formal willing) :=
  ⟨commitmentAt k, epoch, committeeRootAt k⟩

/-- The whole committee of slot 0 attests the link. -/
def lastSlot (k : ℕ) (link : Link (formal willing)) : SlotComplementWitness (formal willing) where
  slotInEpoch := 0
  committee := ⟨(committeeAt k).pubkey, (committeeAt k).balance⟩
  primary := [⟨0, 0, link.targetRoot, link.sourceEpoch, link.sourceRoot, link.targetEpoch,
    link.targetRoot, zeroBytes 96, []⟩]
  secondary := []
  absentees := []

def lastSlotProof : SlotProofWitness (formal willing) where
  accumulatorCommitment := commitmentAt 0
  committeeRoot := committeeRootAt 0
  sourceEpoch := 0
  sourceRoot := genesisRoot
  targetEpoch := lastEpoch
  targetRoot := genesisRoot
  signingDomain := blank
  accRoot := accRootAt 0
  totalActiveBalance := totalAt 0
  slots := [lastSlot 0 ⟨0, genesisRoot, lastEpoch, genesisRoot⟩]
  accMultiProof := []
  committeeMultiProof := slotZeroProof

def lastSlotOut : SlotProofOutput (formal willing) :=
  ⟨commitmentAt 0, committeeRootAt 0, 0, genesisRoot, lastEpoch, genesisRoot, 32, 1⟩

def lastJustification : JustificationWitness (formal willing) where
  accumulatorCommitment := commitmentAt 0
  sourceEpoch := 0
  sourceRoot := genesisRoot
  targetEpoch := lastEpoch
  targetRoot := genesisRoot
  totalActiveBalance := totalAt 0
  accRoot := accRootAt 0
  justificationProgramVk := justificationProgramVk
  committee := some (lastCommittee 0 lastEpoch)
  committeeProof := [1]
  previous := none
  previousProof := []
  slotProofOutputs := [lastSlotOut]
  slotProofs := [[1]]

def lastJustificationOut : JustificationOutput (formal willing) :=
  ⟨commitmentAt 0, committeeRootAt 0, 0, genesisRoot, lastEpoch, genesisRoot, 32, 1, true,
    justificationProgramVk⟩

/-- A validator joins between the last epoch and epoch 0. -/
def lastDiff : EpochDiffWitness (formal willing) :=
  { EpochDiffWitness.between (P := formal willing) 1 1 (registries 0) (registries 2) lastEpoch 0
      [.ofRecords 1 true (validator 1 100) (validator 1 100) [Digest.leaf (key 0) 32]]
      [Ssz.validatorHashTreeRoot _ ((validator 0 32).fieldLeaves _)]
      [Ssz.validatorHashTreeRoot _ ((validator 0 32).fieldLeaves _)] with
    accRoot1 := accRootAt 0
    totalActiveBalance1 := totalAt 0 }

def lastDiffOut : EpochDiffOutput (formal willing) :=
  ⟨commitmentAt 0, stateRootAt 0, lastEpoch, commitmentAt 2, accRootAt 2, totalAt 2, stateRootAt 2,
    0⟩

/-- The last block of all, whose state records the boundary of the last epoch. -/
def lastBlock : Ssz.BoundaryAnchor (formal willing) :=
  recording willing lastEpoch (lastEpoch * 32) genesisRoot (stateRootAt 0) (blanks 13)

def lastRoot : Term := Ssz.blockHeaderRoot (formal willing) lastBlock.justifiedHeader

def lastFinal : StreamFinalWitness (formal willing) where
  accumulatorCommitment := commitmentAt 2
  targetEpoch := 0
  targetRoot := lastRoot
  signingDomain := blank
  accRoot := accRootAt 2
  totalActiveBalance := totalAt 2
  streamProgramVk := finalVk
  epochDiff := some lastDiffOut
  epochDiffProof := [1]
  committee := some (lastCommittee 2 0)
  committeeProof := [1]
  aggregate := none
  aggregateProof := []
  aggregateMiller := []
  groups := []
  groupProofs := []
  groupMillers := []
  tail := [lastSlot 2 ⟨lastEpoch, genesisRoot, 0, lastRoot⟩]
  tailAccMultiProof := []
  tailCommitteeMultiProof := slotZeroProof
  previousJustification := .batch lastJustificationOut
  previousJustificationProof := [1]
  boundary := lastBlock

def lastFinalOut : StreamFinalOutput (formal willing) :=
  ⟨commitmentAt 0, commitmentAt 2, lastEpoch, genesisRoot, stateRootAt 0, 0, lastRoot, finalVk⟩

theorem sound_willingTable {table : List (ProgramVk × PublicBytes (formal willing))}
    (h : ∀ entry ∈ table, Accepted d slotsPerEpoch streamVk entry.1 entry.2) :
    (willingTable table).Sound d slotsPerEpoch streamVk := by
  intro proof vk publics haccepted
  exact h (vk, publics) (of_decide_eq_true haccepted)

theorem accepted_lastCommittee {k : ℕ} {epoch : UInt64} (index sibling : UInt64)
    (h : ∃ out, Committee.verify (committeeWords k epoch index sibling) 1 = .ok out ∧
      out.publicBytes = (lastCommittee k epoch).publicBytes) :
    Accepted 1 32 finalVk committeeProgramVk (lastCommittee k epoch).publicBytes := by
  obtain ⟨out, run, hpublics⟩ := h
  exact hpublics ▸ .committee run

theorem accepted_lastJustification :
    Accepted 1 32 finalVk justificationProgramVk lastJustificationOut.publicBytes := by
  have hslot : Accepted 1 32 finalVk slotProgramVk lastSlotOut.publicBytes := by
    obtain ⟨out, run, hpublics⟩ : ∃ out, verifySlotProofWithDepth lastSlotProof 1 = .ok out ∧
        out.publicBytes = lastSlotOut.publicBytes := by decide +kernel
    exact hpublics ▸ .slot run
  have hcommittee : Accepted 1 32 finalVk committeeProgramVk
      (lastCommittee 0 lastEpoch).publicBytes := accepted_lastCommittee 0 6 (by decide +kernel)
  obtain ⟨out, run, hpublics⟩ : ∃ out, verifyJustification
      (willingTable [(slotProgramVk, lastSlotOut.publicBytes),
        (committeeProgramVk, (lastCommittee 0 lastEpoch).publicBytes)]) lastJustification =
          .ok out ∧ out.publicBytes = lastJustificationOut.publicBytes := by decide +kernel
  rw [← hpublics]
  exact .justification (sound_willingTable (by simp [hslot, hcommittee])) run

/-- Every child the last final proof stands on. -/
def lastTable : List (ProgramVk × PublicBytes (formal willing)) :=
  [(justificationProgramVk, lastJustificationOut.publicBytes),
    (committeeProgramVk, (lastCommittee 2 0).publicBytes),
    (epochDiffProgramVk, lastDiffOut.publicBytes)]

theorem sound_lastTable : (willingTable lastTable).Sound 1 32 finalVk := by
  have hcommittee : Accepted 1 32 finalVk committeeProgramVk (lastCommittee 2 0).publicBytes :=
    accepted_lastCommittee 1 7 (by decide +kernel)
  have hdiff : Accepted 1 32 finalVk epochDiffProgramVk lastDiffOut.publicBytes := by
    obtain ⟨out, run, hpublics⟩ : ∃ out, verifyEpochDiffWithDepth lastDiff 1 1 = .ok out ∧
        out.publicBytes = lastDiffOut.publicBytes := by decide +kernel
    exact .epochDiff ⟨lastDiff, 1, EpochDiffOutput.publicBytes_injective hpublics ▸ run⟩
  exact sound_willingTable (by simp [lastTable, accepted_lastJustification, hcommittee, hdiff])

end Formal

/-- **After the last epoch comes epoch 0**: the final proof that finalizes epoch
`2 ^ 64 - 1` is accepted, and justifies no later epoch. -/
theorem finalChain_wraps :
    ∃ r : FinalRun (Formal.formal Formal.willing) 1 32 Formal.finalVk,
      r.witness = Formal.lastFinal ∧ FinalChain [r] ∧
        r.out.finalizedEpoch = 18446744073709551615 ∧ r.out.justifiedEpoch = 0 ∧
        ¬ FinalChain.Linked [r] := by
  obtain ⟨r, hwitness, hout⟩ := Formal.exists_finalRun Formal.sound_lastTable
    Formal.lastFinal Formal.lastFinalOut rfl (by decide +kernel)
  refine ⟨r, hwitness, ⟨?_, List.isChain_singleton r⟩, by rw [hout]; rfl, by rw [hout]; rfl, ?_⟩
  · intro first hfirst
    obtain rfl := Option.some.inj hfirst
    exact ⟨_, congrArg StreamFinalWitness.previousJustification hwitness⟩
  · intro hlinked
    have hjustifies := (hlinked.each r List.mem_cons_self).justifies
    rw [hout] at hjustifies
    exact absurd hjustifies (by decide)

end Zkasper
