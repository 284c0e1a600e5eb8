import Zkasper.Boundary
import Zkasper.Justification

/-! # The final proof of an epoch

The one proof on the critical path. It reads the running aggregate, absorbs the
group proofs that finished too late to be folded, counts the marginal slots
inline, runs the one final exponentiation that settles every signature of the
epoch, checks the supermajority, and turns the previous epoch's justification into
a finalization.

The count is a function of its own here (`streamFinalCount`), so that a statement
can speak of the balance that is compared with two thirds. -/

namespace Zkasper

open Ssz

variable {P : Primitives}

/-! ## Records -/

/-- Public outputs of the final proof of an epoch. -/
structure StreamFinalOutput (P : Primitives) where
  /-- Accumulator the finalized epoch was justified against. -/
  accumulatorCommitment : P.Digest
  /-- Accumulator the justified epoch was proven against. -/
  nextAccumulatorCommitment : P.Digest
  finalizedEpoch : UInt64
  finalizedRoot : P.Bytes32
  finalizedStateRoot : P.Bytes32
  justifiedEpoch : UInt64
  justifiedRoot : P.Bytes32
  programVk : ProgramVk

def StreamFinalOutput.publicBytes (o : StreamFinalOutput P) : PublicBytes P :=
  [.digest o.accumulatorCommitment, .digest o.nextAccumulatorCommitment, .u64 o.finalizedEpoch,
    .bytes32 o.finalizedRoot, .bytes32 o.finalizedStateRoot, .u64 o.justifiedEpoch,
    .bytes32 o.justifiedRoot, .programVk o.programVk]

theorem StreamFinalOutput.publicBytes_injective :
    Function.Injective (StreamFinalOutput.publicBytes (P := P)) := by
  rintro ⟨⟩ ⟨⟩ h
  simpa [publicBytes] using h

/-- A justification of the previous epoch, whichever program proved it. -/
inductive PreviousJustification (P : Primitives) where
  /-- Produced by `justification-guest`. -/
  | batch (o : JustificationOutput P)
  /-- Produced by `stream-final-guest`, for the previous epoch. -/
  | stream (o : StreamFinalOutput P)

namespace PreviousJustification

/-- Accumulator the justification it carries was proven against. -/
def accumulatorCommitment : PreviousJustification P → P.Digest
  | batch o => o.accumulatorCommitment
  | stream o => o.nextAccumulatorCommitment

def targetEpoch : PreviousJustification P → UInt64
  | batch o => o.targetEpoch
  | stream o => o.justifiedEpoch

def targetRoot : PreviousJustification P → P.Bytes32
  | batch o => o.targetRoot
  | stream o => o.justifiedRoot

/-- Whether the epoch this carries actually crossed two thirds. A stream final
proof only exists above it. -/
def isJustified : PreviousJustification P → Bool
  | batch o => o.justified
  | stream _ => true

def publicBytes : PreviousJustification P → PublicBytes P
  | batch o => o.publicBytes
  | stream o => o.publicBytes

end PreviousJustification

/-- Witness for the final proof of an epoch. -/
structure StreamFinalWitness (P : Primitives) where
  accumulatorCommitment : P.Digest
  targetEpoch : UInt64
  targetRoot : P.Bytes32
  signingDomain : P.Bytes32
  accRoot : P.Digest
  totalActiveBalance : UInt64
  streamProgramVk : ProgramVk
  epochDiff : Option (EpochDiffOutput P)
  epochDiffProof : List UInt64
  committee : Option (CommitteeOutput P)
  committeeProof : List UInt64
  aggregate : Option (AggregateOutput P)
  aggregateProof : List UInt64
  aggregateMiller : P.Fp12
  groups : List (GroupProofOutput P)
  groupProofs : List (List UInt64)
  groupMillers : List P.Fp12
  tail : List (SlotComplementWitness P)
  tailAccMultiProof : List P.Digest
  tailCommitteeMultiProof : List P.Digest
  previousJustification : PreviousJustification P
  previousJustificationProof : List UInt64
  boundary : BoundaryAnchor P

/-- The FFG link every attestation of the epoch has to name: from the checkpoint
the previous justification justified, to the target. -/
def StreamFinalWitness.link (w : StreamFinalWitness P) : Link P :=
  ⟨w.previousJustification.targetEpoch, w.previousJustification.targetRoot, w.targetEpoch,
    w.targetRoot⟩

/-! ## The circuit -/

/-- The count of the running aggregate, none where the whole epoch is proven inline. -/
def inheritAggregate (S : ProofSystem P) (w : StreamFinalWitness P) : Guest (Attested P) :=
  match w.aggregate with
  | none => return .zero
  | some aggregate => do
      requireBakedChild S w.aggregateProof aggregateProgramVk aggregate.publicBytes
        "aggregate failed recursive verification"
      Guest.assert (aggregate.programVk = aggregateProgramVk)
        "the aggregate folds a chain pinned to a different program"
      bindAggregate "aggregate" aggregate w.aggregateMiller w.accumulatorCommitment w.link

/-- Count the marginal slots inline. The mask is not read again. -/
def countTail (w : StreamFinalWitness P) (committeeRoot : P.Digest) (accDepth : ℕ)
    (running : Attested P) : Guest (Attested P) :=
  if w.tail = [] then return running
  else do
    let tail ← verifyAttestations w.tail w.accRoot w.tailAccMultiProof committeeRoot
      w.tailCommitteeMultiProof w.link w.signingDomain accDepth
    Guest.assert (running.slotsMask &&& tail.slotsMask = 0)
      "the marginal slot was already counted"
    return ⟨running.attestingBalance + tail.attestingBalance, running.slotsMask,
      P.fp12Mul running.miller tail.miller⟩

/-- Everything up to the final exponentiation: what the epoch is tied to, and what was counted. -/
def streamFinalCount (S : ProofSystem P) (w : StreamFinalWitness P) (accDepth : ℕ) :
    Guest (EpochAnchor P × Attested P) := do
  Guest.assert (P.commitment w.accRoot w.totalActiveBalance = w.accumulatorCommitment)
    "accumulator commitment mismatch"
  let anchor ← openEpoch S w.aggregate w.epochDiff w.epochDiffProof w.committee w.committeeProof
    w.accumulatorCommitment w.targetEpoch
  let aggregated ← inheritAggregate S w
  checkGroupLengths w.groups w.groupProofs w.groupMillers
  let grouped ← absorbGroups S w.accumulatorCommitment anchor.committeeRoot w.link w.groups
    w.groupProofs w.groupMillers aggregated
  let counted ← countTail w anchor.committeeRoot accDepth grouped
  return (anchor, counted)

/-- The previous epoch's justification comes from the program that makes such justifications. -/
def verifyPrevious (S : ProofSystem P) (w : StreamFinalWitness P) : Guest Unit :=
  match w.previousJustification with
  | .batch batch => do
      requireBakedChild S w.previousJustificationProof justificationProgramVk batch.publicBytes
        "previous justification failed recursive verification"
      Guest.assert (batch.programVk = justificationProgramVk)
        "the previous justification folds a chain pinned to a different program"
  | .stream stream => do
      Guest.assert
        (verifyChild S w.previousJustificationProof w.streamProgramVk stream.publicBytes = true)
        "previous justification failed recursive verification"
      Guest.assert (stream.programVk = w.streamProgramVk)
        "the previous epoch's final proof names a different program"

/-- Final-proof verification. -/
def verifyStreamFinalWith (S : ProofSystem P) (w : StreamFinalWitness P) (accDepth : ℕ)
    (slotsPerEpoch : UInt64) : Guest (StreamFinalOutput P) := do
  let (anchor, counted) ← streamFinalCount S w accDepth
  Guest.assert (P.finalExpIsOne counted.miller = true)
    "BLS aggregate signature verification failed"
  Guest.assert (IsSupermajority counted.attestingBalance w.totalActiveBalance)
    s!"insufficient attesting balance: {counted.attestingBalance} / {w.totalActiveBalance}"
  verifyPrevious S w
  let previous := w.previousJustification
  Guest.assert (previous.isJustified = true)
    "the previous epoch's justification is a partial fold, not a supermajority"
  Guest.assert (previous.targetEpoch + 1 = w.targetEpoch)
    s!"justification epochs not consecutive: {previous.targetEpoch} and {w.targetEpoch}"
  Guest.assert (previous.accumulatorCommitment = anchor.previousAccumulatorCommitment)
    "the finalized epoch was justified against an accumulator the epoch diff does not start from"
  openBoundary w.boundary previous.targetEpoch previous.targetRoot w.targetRoot
    anchor.anchorStateRoot slotsPerEpoch
  return {
    accumulatorCommitment := anchor.previousAccumulatorCommitment
    nextAccumulatorCommitment := w.accumulatorCommitment
    finalizedEpoch := previous.targetEpoch
    finalizedRoot := previous.targetRoot
    finalizedStateRoot := anchor.anchorStateRoot
    justifiedEpoch := w.targetEpoch
    justifiedRoot := w.targetRoot
    programVk := w.streamProgramVk }

/-! ## Accepted runs -/

variable {S : ProofSystem P} {w : StreamFinalWitness P} {accDepth : ℕ}

theorem inheritAggregate_eq_ok {running : Attested P} (h : inheritAggregate S w = .ok running) :
    w.aggregate = none ∧ running = .zero ∨
      ∃ aggregate, w.aggregate = some aggregate ∧
        (∃ proof, S proof aggregateProgramVk aggregate.publicBytes = true) ∧
        aggregate.programVk = aggregateProgramVk ∧
        aggregate.accumulatorCommitment = w.accumulatorCommitment ∧
        aggregate.targetEpoch = w.targetEpoch ∧
        aggregate.checkpointDigest = w.link.checkpointDigest ∧
        P.commitFp12 w.aggregateMiller = aggregate.millerCommitment ∧
        running = ⟨aggregate.attestingBalance, aggregate.slotsMask, w.aggregateMiller⟩ := by
  unfold inheritAggregate at h
  cases hcase : w.aggregate with
  | none =>
      rw [hcase] at h
      exact .inl ⟨rfl, (Guest.pure_eq_ok.mp h).symm⟩
  | some aggregate =>
      rw [hcase] at h
      simp only [Guest.bind_eq_ok, Guest.assert_eq_ok, exists_const] at h
      obtain ⟨_, hchild, hvk, hbind⟩ := h
      obtain ⟨hacc, hepoch, hdigest, hmiller, hrunning⟩ := bindAggregate_eq_ok hbind
      exact .inr ⟨aggregate, rfl, ⟨_, requireBakedChild_eq_ok hchild⟩, hvk, hacc, hepoch, hdigest,
        hmiller, hrunning⟩

/-- The marginal slots join the count, over a mask of their own. -/
theorem countTail_eq_ok {committeeRoot : P.Digest} {running counted : Attested P}
    (h : countTail w committeeRoot accDepth running = .ok counted) :
    counted = running ∨
      ∃ tail, verifyAttestations w.tail w.accRoot w.tailAccMultiProof committeeRoot
          w.tailCommitteeMultiProof w.link w.signingDomain accDepth = .ok tail ∧
        running.slotsMask &&& tail.slotsMask = 0 ∧
        counted.attestingBalance = running.attestingBalance + tail.attestingBalance ∧
        counted.miller = P.fp12Mul running.miller tail.miller := by
  unfold countTail at h
  split at h
  · exact .inl (Guest.pure_eq_ok.mp h).symm
  · simp only [Guest.bind_eq_ok, Guest.assert_eq_ok, Guest.pure_eq_ok, exists_const] at h
    obtain ⟨tail, htail, hmask, rfl⟩ := h
    exact .inr ⟨tail, htail, hmask, rfl, rfl⟩

theorem streamFinalCount_eq_ok {anchor : EpochAnchor P} {counted : Attested P}
    (h : streamFinalCount S w accDepth = .ok (anchor, counted)) :
    P.commitment w.accRoot w.totalActiveBalance = w.accumulatorCommitment ∧
      openEpoch S w.aggregate w.epochDiff w.epochDiffProof w.committee w.committeeProof
        w.accumulatorCommitment w.targetEpoch = .ok anchor ∧
      ∃ aggregated grouped, inheritAggregate S w = .ok aggregated ∧
        absorbGroups S w.accumulatorCommitment anchor.committeeRoot w.link w.groups w.groupProofs
          w.groupMillers aggregated = .ok grouped ∧
        countTail w anchor.committeeRoot accDepth grouped = .ok counted := by
  simp only [streamFinalCount, Guest.bind_eq_ok, Guest.assert_eq_ok, Guest.pure_eq_ok,
    exists_const, Prod.mk.injEq] at h
  obtain ⟨hcommitment, anchor, hanchor, aggregated, haggregate, _, -, grouped, hgroups, counted,
    htail, rfl, rfl⟩ := h
  exact ⟨hcommitment, hanchor, aggregated, grouped, haggregate, hgroups, htail⟩

/-- Everything the final proof counts itself is for its link: the groups it absorbs
are bound to it, and the marginal slots vote for it. -/
theorem streamFinalCount_counts {anchor : EpochAnchor P} {counted : Attested P}
    (h : streamFinalCount S w accDepth = .ok (anchor, counted)) :
    (∀ group ∈ w.groups, ∃ miller, BoundGroup S w.accumulatorCommitment anchor.committeeRoot
      w.link group miller) ∧
      ∀ slot ∈ w.tail, ∀ a ∈ slot.attestations, a.data.VotesFor w.link := by
  simp only [streamFinalCount, Guest.bind_eq_ok, Guest.assert_eq_ok, Guest.pure_eq_ok,
    exists_const, Prod.mk.injEq] at h
  obtain ⟨-, anchor, -, aggregated, -, _, hlengths, grouped, hgroups, _, htail, rfl, -⟩ := h
  refine ⟨absorbGroups_bound hlengths hgroups, ?_⟩
  unfold countTail at htail
  split at htail
  · next hempty =>
      rw [hempty]
      simp
  · obtain ⟨tail, hrun, -⟩ := Guest.bind_eq_ok.mp htail
    exact verifyAttestations_votes hrun

/-- What the final proof publishes, and the links it has checked. -/
theorem verifyStreamFinalWith_links {slotsPerEpoch : UInt64} {out : StreamFinalOutput P}
    (h : verifyStreamFinalWith S w accDepth slotsPerEpoch = .ok out) :
    ∃ anchor counted, streamFinalCount S w accDepth = .ok (anchor, counted) ∧
      w.previousJustification.targetEpoch + 1 = w.targetEpoch ∧
      w.previousJustification.accumulatorCommitment = anchor.previousAccumulatorCommitment ∧
      out = ⟨anchor.previousAccumulatorCommitment, w.accumulatorCommitment,
        w.previousJustification.targetEpoch, w.previousJustification.targetRoot,
        anchor.anchorStateRoot, w.targetEpoch, w.targetRoot, w.streamProgramVk⟩ := by
  simp only [verifyStreamFinalWith, Guest.bind_eq_ok, Guest.assert_eq_ok, Guest.pure_eq_ok,
    exists_const] at h
  obtain ⟨⟨anchor, counted⟩, hcount, -, -, _, -, -, hepoch, hacc, _, -, rfl⟩ := h
  exact ⟨anchor, counted, hcount, hepoch, hacc, rfl⟩

/-- An accepted final proof: its count passed both gates, and its boundary opened. -/
theorem verifyStreamFinalWith_eq_ok {slotsPerEpoch : UInt64} {out : StreamFinalOutput P}
    (h : verifyStreamFinalWith S w accDepth slotsPerEpoch = .ok out) :
    ∃ anchor counted, streamFinalCount S w accDepth = .ok (anchor, counted) ∧
      P.finalExpIsOne counted.miller = true ∧
      IsSupermajority counted.attestingBalance w.totalActiveBalance ∧
      openBoundary w.boundary out.finalizedEpoch out.finalizedRoot out.justifiedRoot
        out.finalizedStateRoot slotsPerEpoch = .ok () ∧
      out.nextAccumulatorCommitment = w.accumulatorCommitment ∧
      out.finalizedStateRoot = anchor.anchorStateRoot ∧ out.justifiedRoot = w.targetRoot := by
  simp only [verifyStreamFinalWith, Guest.bind_eq_ok, Guest.assert_eq_ok, Guest.pure_eq_ok,
    exists_const] at h
  obtain ⟨⟨anchor, counted⟩, hcount, hexp, hsuper, _, -, -, -, -, _, hboundary, rfl⟩ := h
  exact ⟨anchor, counted, hcount, hexp, hsuper, hboundary, rfl, rfl, rfl⟩

end Zkasper
