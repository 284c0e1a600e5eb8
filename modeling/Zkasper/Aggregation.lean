import Zkasper.SlotProof

/-! # Aggregation

The join of an epoch: it takes the aggregate of the previous join and however many
group proofs have finished since, and produces the next aggregate. What runs along
the chain is a count (`Attested`): the balance behind the target, the slots it
came from and the product of the Miller accumulators. The fold that opens the
epoch verifies the epoch diff and the committee proof; later ones inherit what
those published.

The final proof of an epoch reads the chain off its head and absorbs late groups
itself, so the links and the loop over the groups are shared with it.
`absorbGroups_induct` is the loop rule both use. -/

namespace Zkasper

open Ssz

variable {P : Primitives}

/-! ## Records -/

/-- Public outputs of an aggregation proof. -/
structure AggregateOutput (P : Primitives) where
  accumulatorCommitment : P.Digest
  committeeRoot : P.Digest
  /-- Accumulator the previous epoch was justified against, from the epoch diff. -/
  previousAccumulatorCommitment : P.Digest
  /-- The beacon state that accumulator was built from, from the same diff. -/
  anchorStateRoot : P.Bytes32
  targetEpoch : UInt64
  /-- The FFG link every folded group counted for. -/
  checkpointDigest : P.Bytes32
  attestingBalance : UInt64
  slotsMask : UInt64
  millerCommitment : P.Digest
  programVk : ProgramVk

/-- Witness for an aggregation proof. -/
structure AggregateWitness (P : Primitives) where
  accumulatorCommitment : P.Digest
  sourceEpoch : UInt64
  sourceRoot : P.Bytes32
  targetEpoch : UInt64
  targetRoot : P.Bytes32
  aggregateProgramVk : ProgramVk
  epochDiff : Option (EpochDiffOutput P)
  epochDiffProof : List UInt64
  committee : Option (CommitteeOutput P)
  committeeProof : List UInt64
  previous : Option (AggregateOutput P)
  previousProof : List UInt64
  previousMiller : P.Fp12
  groups : List (GroupProofOutput P)
  groupProofs : List (List UInt64)
  groupMillers : List P.Fp12

def AggregateOutput.publicBytes (o : AggregateOutput P) : PublicBytes P :=
  [.digest o.accumulatorCommitment, .digest o.committeeRoot,
    .digest o.previousAccumulatorCommitment, .bytes32 o.anchorStateRoot, .u64 o.targetEpoch,
    .bytes32 o.checkpointDigest, .u64 o.attestingBalance, .u64 o.slotsMask,
    .digest o.millerCommitment, .programVk o.programVk]

theorem AggregateOutput.publicBytes_injective :
    Function.Injective (AggregateOutput.publicBytes (P := P)) := by
  rintro ⟨⟩ ⟨⟩ h
  simpa [publicBytes] using h

/-- The FFG link of a witness. -/
def AggregateWitness.link (w : AggregateWitness P) : Link P :=
  ⟨w.sourceEpoch, w.sourceRoot, w.targetEpoch, w.targetRoot⟩

/-- The FFG link a group proof counted for. -/
def GroupProofOutput.link (o : GroupProofOutput P) : Link P :=
  ⟨o.sourceEpoch, o.sourceRoot, o.targetEpoch, o.targetRoot⟩

/-- `checkpoint_digest` of a link. -/
def Link.checkpointDigest (link : Link P) : P.Bytes32 :=
  Ssz.checkpointDigest P link.sourceEpoch link.sourceRoot link.targetEpoch link.targetRoot

theorem Link.checkpointDigest_injective (hP : CollisionFree P) :
    Function.Injective (Link.checkpointDigest (P := P)) := by
  rintro ⟨⟩ ⟨⟩ h
  obtain ⟨⟨rfl, rfl⟩, rfl, rfl⟩ := (checkpointDigest_inj hP).mp h
  rfl

/-! ## Running counts -/

namespace Attested

/-- Nothing counted, and an empty product. -/
def zero : Attested P := ⟨0, 0, P.fp12One⟩

/-- Two counts together. -/
def join (a b : Attested P) : Attested P :=
  ⟨a.attestingBalance + b.attestingBalance, a.slotsMask ||| b.slotsMask,
    P.fp12Mul a.miller b.miller⟩

end Attested

/-! ## The links of an epoch -/

/-- Verify the epoch diff that carries the previous epoch's accumulator to this
one's, and return what the finalization will need from it. -/
def epochLink (S : ProofSystem P) (diff : Option (EpochDiffOutput P)) (proof : List UInt64)
    (accumulatorCommitment : P.Digest) (targetEpoch : UInt64) : Guest (P.Digest × P.Bytes32) := do
  let diff ← Guest.expect diff "an epoch's first aggregation must carry the epoch diff"
  requireBakedChild S proof epochDiffProgramVk diff.publicBytes
    "epoch diff proof failed recursive verification"
  Guest.assert (diff.accumulatorCommitment = accumulatorCommitment)
    "epoch diff does not end at the accumulator this epoch is proven against"
  Guest.assert (diff.epoch2 = targetEpoch)
    s!"epoch diff ends at epoch {diff.epoch2} but epoch {targetEpoch} is being proven"
  Guest.assert (diff.epoch1 + 1 = targetEpoch)
    s!"epoch diff starts at epoch {diff.epoch1} rather than the epoch before {targetEpoch}"
  return (diff.prevAccumulatorCommitment, diff.stateRoot1)

/-- Verify the committee proof this epoch's slot buckets came from, and return the
root every group has to have counted against. -/
def committeeLink (S : ProofSystem P) (committee : Option (CommitteeOutput P))
    (proof : List UInt64) (accumulatorCommitment : P.Digest) (targetEpoch : UInt64) :
    Guest P.Digest := do
  let committee ← Guest.expect committee
    "an epoch's first aggregation must carry the committee proof"
  requireBakedChild S proof committeeProgramVk committee.publicBytes
    "committee proof failed recursive verification"
  Guest.assert (committee.accumulatorCommitment = accumulatorCommitment)
    "committee proof was built against a different accumulator"
  Guest.assert (committee.targetEpoch = targetEpoch)
    s!"committee proof covers epoch {committee.targetEpoch} but epoch {targetEpoch} is being proven"
  return committee.committeeRoot

/-- What an epoch is tied to. -/
structure EpochAnchor (P : Primitives) where
  previousAccumulatorCommitment : P.Digest
  anchorStateRoot : P.Bytes32
  committeeRoot : P.Digest

/-- Read the links off the aggregate being extended, or verify them where there is none. -/
def openEpoch (S : ProofSystem P) (aggregate : Option (AggregateOutput P))
    (epochDiff : Option (EpochDiffOutput P)) (epochDiffProof : List UInt64)
    (committee : Option (CommitteeOutput P)) (committeeProof : List UInt64)
    (accumulatorCommitment : P.Digest) (targetEpoch : UInt64) : Guest (EpochAnchor P) :=
  match aggregate with
  | some aggregate =>
      return ⟨aggregate.previousAccumulatorCommitment, aggregate.anchorStateRoot,
        aggregate.committeeRoot⟩
  | none => do
      let (previousAccumulatorCommitment, anchorStateRoot) ←
        epochLink S epochDiff epochDiffProof accumulatorCommitment targetEpoch
      let committeeRoot ←
        committeeLink S committee committeeProof accumulatorCommitment targetEpoch
      return ⟨previousAccumulatorCommitment, anchorStateRoot, committeeRoot⟩

/-! ## The circuit -/

/-- Bind a verified aggregate to this epoch, and take its count over. -/
def bindAggregate (name : String) (aggregate : AggregateOutput P) (miller : P.Fp12)
    (accumulatorCommitment : P.Digest) (link : Link P) : Guest (Attested P) := do
  Guest.assert (aggregate.accumulatorCommitment = accumulatorCommitment)
    s!"{name} accumulator mismatch"
  Guest.assert (aggregate.targetEpoch = link.targetEpoch) s!"{name} target_epoch mismatch"
  Guest.assert (aggregate.checkpointDigest = link.checkpointDigest) s!"{name} checkpoint mismatch"
  Guest.assert (P.commitFp12 miller = aggregate.millerCommitment)
    s!"{name} Miller accumulator does not match its commitment"
  return ⟨aggregate.attestingBalance, aggregate.slotsMask, miller⟩

/-- Verify one group proof and everything the parent needs to bind about it. -/
def verifyGroup (S : ProofSystem P) (group : GroupProofOutput P) (proof : List UInt64)
    (accumulatorCommitment committeeRoot : P.Digest) (link : Link P) (miller : P.Fp12)
    (position : ℕ) : Guest Unit := do
  requireBakedChild S proof groupProgramVk group.publicBytes
    s!"group proof {position} failed recursive verification"
  Guest.assert (group.accumulatorCommitment = accumulatorCommitment)
    s!"group proof {position} accumulator mismatch"
  Guest.assert (group.committeeRoot = committeeRoot) s!"group proof {position} committee mismatch"
  Guest.assert (group.sourceEpoch = link.sourceEpoch)
    s!"group proof {position} source_epoch mismatch"
  Guest.assert (group.sourceRoot = link.sourceRoot) s!"group proof {position} source_root mismatch"
  Guest.assert (group.targetEpoch = link.targetEpoch)
    s!"group proof {position} target_epoch mismatch"
  Guest.assert (group.targetRoot = link.targetRoot) s!"group proof {position} target_root mismatch"
  Guest.assert (P.commitFp12 miller = group.millerCommitment)
    s!"group proof {position} Miller accumulator does not match its commitment"

/-- One group of the loop, with its proof, its Miller accumulator and its position. -/
def absorbGroup (S : ProofSystem P) (accumulatorCommitment committeeRoot : P.Digest)
    (link : Link P) (running : Attested P) (entry : (GroupProofOutput P × List UInt64 × P.Fp12) × ℕ) :
    Guest (Attested P) := do
  let ((group, proof, miller), i) := entry
  verifyGroup S group proof accumulatorCommitment committeeRoot link miller i
  Guest.assert (running.slotsMask &&& group.slotsMask = 0)
    s!"group proof {i} counts a slot that was already counted"
  return running.join ⟨group.attestingBalance, group.slotsMask, miller⟩

/-- The loop over the groups. -/
def absorbGroups (S : ProofSystem P) (accumulatorCommitment committeeRoot : P.Digest)
    (link : Link P) (groups : List (GroupProofOutput P)) (groupProofs : List (List UInt64))
    (groupMillers : List P.Fp12) (running : Attested P) : Guest (Attested P) :=
  (groups.zip (groupProofs.zip groupMillers)).zipIdx.foldlM
    (absorbGroup S accumulatorCommitment committeeRoot link) running

/-- Every group comes with a proof and a Miller accumulator. -/
def checkGroupLengths (groups : List (GroupProofOutput P)) (groupProofs : List (List UInt64))
    (groupMillers : List P.Fp12) : Guest Unit := do
  Guest.assert (groups.length = groupProofs.length) "groups and proofs length mismatch"
  Guest.assert (groups.length = groupMillers.length)
    "groups and Miller accumulators length mismatch"

/-- The count of the aggregate being extended, none where the epoch opens here. -/
def inheritPrevious (S : ProofSystem P) (w : AggregateWitness P) : Guest (Attested P) :=
  match w.previous with
  | none => return .zero
  | some previous => do
      -- the aggregate's own key is not baked in: it is checked to be the one it publishes
      Guest.assert (verifyChild S w.previousProof w.aggregateProgramVk previous.publicBytes = true)
        "previous aggregate failed recursive verification"
      Guest.assert (previous.programVk = w.aggregateProgramVk)
        "previous aggregate was produced by a different program"
      bindAggregate "previous aggregate" previous w.previousMiller w.accumulatorCommitment w.link

/-- Fold group proofs into a running aggregate. -/
def verifyAggregate (S : ProofSystem P) (w : AggregateWitness P) : Guest (AggregateOutput P) := do
  Guest.assert (w.groups ≠ []) "aggregation proof folds no groups"
  checkGroupLengths w.groups w.groupProofs w.groupMillers
  let anchor ← openEpoch S w.previous w.epochDiff w.epochDiffProof w.committee w.committeeProof
    w.accumulatorCommitment w.targetEpoch
  let previous ← inheritPrevious S w
  let running ← absorbGroups S w.accumulatorCommitment anchor.committeeRoot w.link w.groups
    w.groupProofs w.groupMillers previous
  return {
    accumulatorCommitment := w.accumulatorCommitment
    committeeRoot := anchor.committeeRoot
    previousAccumulatorCommitment := anchor.previousAccumulatorCommitment
    anchorStateRoot := anchor.anchorStateRoot
    targetEpoch := w.targetEpoch
    checkpointDigest := w.link.checkpointDigest
    attestingBalance := running.attestingBalance
    slotsMask := running.slotsMask
    millerCommitment := P.commitFp12 running.miller
    programVk := w.aggregateProgramVk }

/-! ## Accepted links -/

variable {S : ProofSystem P} {accumulatorCommitment committeeRoot : P.Digest} {link : Link P}

/-- An epoch diff that was verified: it ends at this epoch's accumulator, and its
two epochs are this one and the one before. -/
theorem epochLink_eq_ok {diff : Option (EpochDiffOutput P)} {proof : List UInt64}
    {targetEpoch : UInt64} {previousAccumulatorCommitment : P.Digest} {anchorStateRoot : P.Bytes32}
    (h : epochLink S diff proof accumulatorCommitment targetEpoch =
      .ok (previousAccumulatorCommitment, anchorStateRoot)) :
    ∃ out : EpochDiffOutput P, S proof epochDiffProgramVk out.publicBytes = true ∧
      out.accumulatorCommitment = accumulatorCommitment ∧ out.epoch2 = targetEpoch ∧
      out.epoch1 + 1 = targetEpoch ∧
      out.prevAccumulatorCommitment = previousAccumulatorCommitment ∧
      out.stateRoot1 = anchorStateRoot := by
  simp only [epochLink, Guest.bind_eq_ok, Guest.expect_eq_ok, Guest.assert_eq_ok,
    Guest.pure_eq_ok, exists_const, Prod.mk.injEq] at h
  obtain ⟨out, -, _, hchild, hacc, hend, hstart, hprevious, hstate⟩ := h
  exact ⟨out, requireBakedChild_eq_ok hchild, hacc, hend, hstart, hprevious, hstate⟩

theorem committeeLink_eq_ok {committee : Option (CommitteeOutput P)} {proof : List UInt64}
    {targetEpoch : UInt64}
    (h : committeeLink S committee proof accumulatorCommitment targetEpoch = .ok committeeRoot) :
    ∃ out : CommitteeOutput P, S proof committeeProgramVk out.publicBytes = true ∧
      out.accumulatorCommitment = accumulatorCommitment ∧ out.committeeRoot = committeeRoot ∧
      out.targetEpoch = targetEpoch := by
  simp only [committeeLink, Guest.bind_eq_ok, Guest.expect_eq_ok, Guest.assert_eq_ok,
    Guest.pure_eq_ok, exists_const] at h
  obtain ⟨out, -, _, hchild, hacc, hepoch, hroot⟩ := h
  exact ⟨out, requireBakedChild_eq_ok hchild, hacc, hroot, hepoch⟩

/-- Where there is no aggregate, the epoch's committee root was proven. -/
theorem openEpoch_none_eq_ok {epochDiff : Option (EpochDiffOutput P)}
    {committee : Option (CommitteeOutput P)} {epochDiffProof committeeProof : List UInt64}
    {targetEpoch : UInt64} {anchor : EpochAnchor P}
    (h : openEpoch S none epochDiff epochDiffProof committee committeeProof accumulatorCommitment
      targetEpoch = .ok anchor) :
    epochLink S epochDiff epochDiffProof accumulatorCommitment targetEpoch =
        .ok (anchor.previousAccumulatorCommitment, anchor.anchorStateRoot) ∧
      committeeLink S committee committeeProof accumulatorCommitment targetEpoch =
        .ok anchor.committeeRoot := by
  simp only [openEpoch, Guest.bind_eq_ok, Guest.pure_eq_ok] at h
  obtain ⟨⟨commitment, stateRoot⟩, hdiff, root, hcommittee, rfl⟩ := h
  exact ⟨hdiff, hcommittee⟩

theorem bindAggregate_eq_ok {name : String} {aggregate : AggregateOutput P} {miller : P.Fp12}
    {running : Attested P}
    (h : bindAggregate name aggregate miller accumulatorCommitment link = .ok running) :
    aggregate.accumulatorCommitment = accumulatorCommitment ∧
      aggregate.targetEpoch = link.targetEpoch ∧
      aggregate.checkpointDigest = link.checkpointDigest ∧
      P.commitFp12 miller = aggregate.millerCommitment ∧
      running = ⟨aggregate.attestingBalance, aggregate.slotsMask, miller⟩ := by
  simp only [bindAggregate, Guest.bind_eq_ok, Guest.assert_eq_ok, Guest.pure_eq_ok,
    exists_const] at h
  obtain ⟨hacc, hepoch, hdigest, hmiller, rfl⟩ := h
  exact ⟨hacc, hepoch, hdigest, hmiller, rfl⟩

/-! ## The loop over the groups -/

/-- A group proof bound to this epoch, and the accumulator behind its commitment. -/
structure BoundGroup (S : ProofSystem P) (accumulatorCommitment committeeRoot : P.Digest)
    (link : Link P) (group : GroupProofOutput P) (miller : P.Fp12) : Prop where
  proven : ∃ proof, S proof groupProgramVk group.publicBytes = true
  accumulator : group.accumulatorCommitment = accumulatorCommitment
  committee : group.committeeRoot = committeeRoot
  counts : group.link = link
  miller : P.commitFp12 miller = group.millerCommitment

theorem verifyGroup_eq_ok {group : GroupProofOutput P} {proof : List UInt64} {miller : P.Fp12}
    {position : ℕ} {u : Unit}
    (h : verifyGroup S group proof accumulatorCommitment committeeRoot link miller position =
      .ok u) : BoundGroup S accumulatorCommitment committeeRoot link group miller := by
  simp only [verifyGroup, Guest.bind_eq_ok, Guest.assert_eq_ok, exists_const] at h
  obtain ⟨_, hchild, hacc, hcommittee, hse, hsr, hte, htr, hmiller⟩ := h
  refine ⟨⟨proof, requireBakedChild_eq_ok hchild⟩, hacc, hcommittee, ?_, hmiller⟩
  show Link.mk _ _ _ _ = link
  rw [hse, hsr, hte, htr]

theorem absorbGroup_eq_ok {running running' : Attested P}
    {entry : (GroupProofOutput P × List UInt64 × P.Fp12) × ℕ}
    (h : absorbGroup S accumulatorCommitment committeeRoot link running entry = .ok running') :
    ∃ group miller, BoundGroup S accumulatorCommitment committeeRoot link group miller ∧
      running.slotsMask &&& group.slotsMask = 0 ∧
      running' = running.join ⟨group.attestingBalance, group.slotsMask, miller⟩ := by
  obtain ⟨⟨group, proof, miller⟩, i⟩ := entry
  simp only [absorbGroup, Guest.bind_eq_ok, Guest.assert_eq_ok, Guest.pure_eq_ok,
    exists_const] at h
  obtain ⟨_, hgroup, hmask, rfl⟩ := h
  exact ⟨group, miller, verifyGroup_eq_ok hgroup, hmask, rfl⟩

/-- **The loop rule**: what joining a bound group over unused slots preserves, the
loop preserves. -/
theorem absorbGroups_induct {Inv : Attested P → Prop}
    (step : ∀ running group miller, Inv running →
      BoundGroup S accumulatorCommitment committeeRoot link group miller →
      running.slotsMask &&& group.slotsMask = 0 →
        Inv (running.join ⟨group.attestingBalance, group.slotsMask, miller⟩))
    {groups : List (GroupProofOutput P)} {groupProofs : List (List UInt64)}
    {groupMillers : List P.Fp12} {running running' : Attested P} (hstart : Inv running)
    (h : absorbGroups S accumulatorCommitment committeeRoot link groups groupProofs groupMillers
      running = .ok running') : Inv running' := by
  apply Guest.foldlM_invariant (fun _ r => Inv r) _ _ running running' hstart h
  intro entry _ r r' hinv hrun
  obtain ⟨group, miller, hgroup, hmask, rfl⟩ := absorbGroup_eq_ok hrun
  exact step r group miller hinv hgroup hmask

/-- Every group the loop was given is bound to the epoch. -/
theorem absorbGroups_bound {groups : List (GroupProofOutput P)} {groupProofs : List (List UInt64)}
    {groupMillers : List P.Fp12} {running running' : Attested P} {u : Unit}
    (hlengths : checkGroupLengths groups groupProofs groupMillers = .ok u)
    (h : absorbGroups S accumulatorCommitment committeeRoot link groups groupProofs groupMillers
      running = .ok running') :
    ∀ group ∈ groups, ∃ miller, BoundGroup S accumulatorCommitment committeeRoot link group
      miller := by
  simp only [checkGroupLengths, Guest.bind_eq_ok, Guest.assert_eq_ok, exists_const] at hlengths
  obtain ⟨hproofs, hmillers⟩ := hlengths
  have hentries : ∀ entry ∈ (groups.zip (groupProofs.zip groupMillers)).zipIdx,
      ∃ miller, BoundGroup S accumulatorCommitment committeeRoot link entry.1.1 miller := by
    refine Guest.foldlM_mem (fun entry running running' hstep => ?_) h
    obtain ⟨⟨group, proof, miller⟩, i⟩ := entry
    simp only [absorbGroup, Guest.bind_eq_ok] at hstep
    obtain ⟨_, hgroup, -⟩ := hstep
    exact ⟨miller, verifyGroup_eq_ok hgroup⟩
  -- the lists are of one length, so the loop leaves no group out
  intro group hgroup
  obtain ⟨i, hi, rfl⟩ := List.mem_iff_getElem.mp hgroup
  have hlt : i < (groups.zip (groupProofs.zip groupMillers)).length := by
    rw [List.length_zip, List.length_zip]
    omega
  have hmem := List.mk_mem_zipIdx_iff_getElem?.mpr (List.getElem?_eq_getElem hlt)
  obtain ⟨miller, hbound⟩ := hentries _ hmem
  simp only [List.getElem_zip] at hbound
  exact ⟨miller, hbound⟩

/-! ## Accepted aggregates -/

/-- What a fold checks of the aggregate it extends. -/
structure AggregateOutput.Extends (S : ProofSystem P) (out before : AggregateOutput P) : Prop where
  proven : ∃ proof, S proof out.programVk before.publicBytes = true
  program : before.programVk = out.programVk
  accumulator : before.accumulatorCommitment = out.accumulatorCommitment
  target : before.targetEpoch = out.targetEpoch
  checkpoint : before.checkpointDigest = out.checkpointDigest

/-- What a fold is tied to: it opens the epoch or takes over what opened it, and
all it folds is bound to the epoch. -/
theorem verifyAggregate_opens {w : AggregateWitness P} {out : AggregateOutput P}
    (h : verifyAggregate S w = .ok out) :
    openEpoch S w.previous w.epochDiff w.epochDiffProof w.committee w.committeeProof
        out.accumulatorCommitment out.targetEpoch =
        .ok ⟨out.previousAccumulatorCommitment, out.anchorStateRoot, out.committeeRoot⟩ ∧
      out.checkpointDigest = w.link.checkpointDigest ∧
      (∀ group ∈ w.groups, ∃ miller, BoundGroup S out.accumulatorCommitment out.committeeRoot
        w.link group miller) ∧
      ∀ before, w.previous = some before → out.Extends S before := by
  simp only [verifyAggregate, Guest.bind_eq_ok, Guest.assert_eq_ok, Guest.pure_eq_ok,
    exists_const] at h
  obtain ⟨-, _, hlengths, anchor, hanchor, previous, hprevious, running, hrun, rfl⟩ := h
  refine ⟨hanchor, rfl, absorbGroups_bound hlengths hrun, fun before hbefore => ?_⟩
  unfold inheritPrevious at hprevious
  rw [hbefore] at hprevious
  simp only [Guest.bind_eq_ok, Guest.assert_eq_ok, exists_const] at hprevious
  obtain ⟨hchild, hvk, hbind⟩ := hprevious
  obtain ⟨hacc, hepoch, hdigest, -, -⟩ := bindAggregate_eq_ok hbind
  exact {
    proven := ⟨_, verifyChild_eq_true hchild⟩
    program := hvk
    accumulator := hacc
    target := hepoch
    checkpoint := hdigest }

/-- **The chain of folds**: a fold either opens the epoch from nothing, with a
committee proof of its own, or extends an aggregate that was verified under the
key it publishes itself. -/
theorem verifyAggregate_eq_ok {w : AggregateWitness P} {out : AggregateOutput P}
    (h : verifyAggregate S w = .ok out) :
    ∃ previous running : Attested P,
      absorbGroups S out.accumulatorCommitment out.committeeRoot w.link w.groups w.groupProofs
        w.groupMillers previous = .ok running ∧
      out.checkpointDigest = w.link.checkpointDigest ∧
      out.attestingBalance = running.attestingBalance ∧ out.slotsMask = running.slotsMask ∧
      out.millerCommitment = P.commitFp12 running.miller ∧
      (previous = .zero ∧ (∃ proof, ∃ committee : CommitteeOutput P,
          S proof committeeProgramVk committee.publicBytes = true ∧
          committee.accumulatorCommitment = out.accumulatorCommitment ∧
          committee.committeeRoot = out.committeeRoot) ∨
        ∃ before : AggregateOutput P, (∃ proof, S proof out.programVk before.publicBytes = true) ∧
          before.programVk = out.programVk ∧ before.committeeRoot = out.committeeRoot ∧
          before.accumulatorCommitment = out.accumulatorCommitment ∧
          before.checkpointDigest = w.link.checkpointDigest ∧
          P.commitFp12 previous.miller = before.millerCommitment ∧
          previous.attestingBalance = before.attestingBalance ∧
          previous.slotsMask = before.slotsMask) := by
  simp only [verifyAggregate, Guest.bind_eq_ok, Guest.assert_eq_ok, Guest.pure_eq_ok,
    exists_const] at h
  obtain ⟨-, _, -, anchor, hanchor, previous, hprevious, running, hrun, rfl⟩ := h
  refine ⟨previous, running, hrun, rfl, rfl, rfl, rfl, ?_⟩
  unfold inheritPrevious at hprevious
  -- where the epoch's committee root came from is where the count came from
  cases hcase : w.previous with
  | none =>
      rw [hcase] at hprevious hanchor
      obtain ⟨-, hcommittee⟩ := openEpoch_none_eq_ok hanchor
      obtain ⟨committee, hproof, hacc, hroot, -⟩ := committeeLink_eq_ok hcommittee
      exact .inl ⟨(Guest.pure_eq_ok.mp hprevious).symm, _, committee, hproof, hacc, hroot⟩
  | some before =>
      rw [hcase] at hprevious hanchor
      simp only [Guest.bind_eq_ok, Guest.assert_eq_ok, exists_const] at hprevious
      obtain ⟨hchild, hvk, hbind⟩ := hprevious
      obtain ⟨hacc, -, hdigest, hmiller, rfl⟩ := bindAggregate_eq_ok hbind
      obtain rfl := Guest.pure_eq_ok.mp hanchor
      exact .inr ⟨before, ⟨_, verifyChild_eq_true hchild⟩, hvk, rfl, hacc, hdigest, hmiller, rfl,
        rfl⟩

end Zkasper
