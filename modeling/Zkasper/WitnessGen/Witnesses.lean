import Zkasper.StreamFinal
import Zkasper.WitnessGen.Collector

/-! # Witness builders

How the host turns slot complements into the witnesses of a group proof, a fold and
the final proof of an epoch. Everything a witness needs that does not change within
an epoch is a `StreamContext`; the openings are built from the host's own trees. -/

namespace Zkasper.Streaming

variable (P : Primitives)

/-- What is fixed for an epoch. -/
structure StreamContext where
  accumulatorCommitment : P.Digest
  accRoot : P.Digest
  totalActiveBalance : UInt64
  targetEpoch : UInt64
  targetRoot : P.Bytes32
  sourceRoot : P.Bytes32
  signingDomain : P.Bytes32
  aggregateProgramVk : ProgramVk
  streamProgramVk : ProgramVk
  epochDiff : EpochDiffOutput P
  epochDiffProof : List UInt64
  committee : CommitteeOutput P
  committeeProof : List UInt64
  accDepth : ℕ

variable {P}

/-- Accumulator opening over every validator the units name. -/
def accMultiProof (tree : AccTree P) (units : List (SlotComplement P)) : List P.Digest :=
  tree.buildMultiProof (units.flatMap fun unit => unit.namedIndices.map UInt64.toNat)

/-- Committee-tree opening over the slots the units cover. -/
def committeeMultiProof (committees : EpochCommittees P) (units : List (SlotComplement P)) :
    List P.Digest :=
  committees.multiProof (units.map (·.witness.slotInEpoch))

namespace StreamContext

variable (context : StreamContext P)

/-- The epoch every attestation names as its source; `saturating_sub`. -/
def sourceEpoch : UInt64 := if context.targetEpoch = 0 then 0 else context.targetEpoch - 1

/-- Build the witness for one group proof. -/
def groupWitness (tree : AccTree P) (committees : EpochCommittees P)
    (units : List (SlotComplement P)) : SlotProofWitness P where
  accumulatorCommitment := context.accumulatorCommitment
  committeeRoot := committees.root
  sourceEpoch := context.sourceEpoch
  sourceRoot := context.sourceRoot
  targetEpoch := context.targetEpoch
  targetRoot := context.targetRoot
  signingDomain := context.signingDomain
  accRoot := context.accRoot
  totalActiveBalance := context.totalActiveBalance
  slots := units.map (·.witness)
  accMultiProof := accMultiProof tree units
  committeeMultiProof := committeeMultiProof committees units

/-- Build the witness that folds finished group proofs into the running aggregate.
Only the fold that opens the epoch needs the diff and the committee proof. -/
def aggregateWitness (previous : Option (AggregateOutput P)) (previousProof : List UInt64)
    (previousMiller : P.Fp12) (groups : List (GroupProofOutput P))
    (groupProofs : List (List UInt64)) (groupMillers : List P.Fp12) : AggregateWitness P where
  accumulatorCommitment := context.accumulatorCommitment
  targetEpoch := context.targetEpoch
  targetRoot := context.targetRoot
  sourceEpoch := context.sourceEpoch
  sourceRoot := context.sourceRoot
  aggregateProgramVk := context.aggregateProgramVk
  epochDiff := if previous.isNone then some context.epochDiff else none
  epochDiffProof := if previous.isNone then context.epochDiffProof else []
  committee := if previous.isNone then some context.committee else none
  committeeProof := if previous.isNone then context.committeeProof else []
  previous
  previousProof
  previousMiller
  groups
  groupProofs
  groupMillers

/-- Build the witness for the final proof of an epoch. -/
def finalWitness (tree : AccTree P) (committees : EpochCommittees P)
    (aggregate : Option (AggregateOutput P)) (aggregateProof : List UInt64)
    (aggregateMiller : P.Fp12) (groups : List (GroupProofOutput P))
    (groupProofs : List (List UInt64)) (groupMillers : List P.Fp12)
    (tail : List (SlotComplement P)) (previousJustification : PreviousJustification P)
    (previousJustificationProof : List UInt64) (boundary : Ssz.BoundaryAnchor P) :
    StreamFinalWitness P where
  accumulatorCommitment := context.accumulatorCommitment
  targetEpoch := context.targetEpoch
  targetRoot := context.targetRoot
  signingDomain := context.signingDomain
  accRoot := context.accRoot
  totalActiveBalance := context.totalActiveBalance
  streamProgramVk := context.streamProgramVk
  epochDiff := if aggregate.isNone then some context.epochDiff else none
  epochDiffProof := if aggregate.isNone then context.epochDiffProof else []
  committee := if aggregate.isNone then some context.committee else none
  committeeProof := if aggregate.isNone then context.committeeProof else []
  aggregate
  aggregateProof
  aggregateMiller
  groups
  groupProofs
  groupMillers
  tail := tail.map (·.witness)
  tailAccMultiProof := accMultiProof tree tail
  tailCommitteeMultiProof := committeeMultiProof committees tail
  previousJustification
  previousJustificationProof
  boundary

end StreamContext
end Zkasper.Streaming
