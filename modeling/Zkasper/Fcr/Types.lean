import Zkasper.Types

/-! # Fast-confirmation records

What the fast-confirmation circuits read and publish. Nothing in the finality
pipeline uses them. -/

namespace Zkasper.Fcr

variable (P : Primitives)

/-- One slot of a batch: a complement, and the block its head votes are counted
against, `none` when the slot was skipped. A `BlockHeaderWitness` has the five
fields of a `BlockHeaderFields`. -/
structure FcrSlotWitness where
  complement : SlotComplementWitness P
  headHeader : Option (BlockHeaderFields P)

/-- One proof over a run of consecutive slots. -/
structure FcrBatchWitness where
  accumulatorCommitment : P.Digest
  accRoot : P.Digest
  totalActiveBalance : UInt64
  committeeRoot : P.Digest
  accMultiProof : List P.Digest
  committeeMultiProof : List P.Digest
  signingDomain : P.Bytes32
  /-- Canonical head at the slot before the batch's first. -/
  parentHeadRoot : P.Bytes32
  parentHeadSlot : UInt64
  byzantineThreshold : UInt64
  proposerScoreBoost : UInt64
  /-- The slot the confirmation is being decided at. -/
  currentSlot : UInt64
  slots : List (FcrSlotWitness P)

/-- What a batch proof establishes. -/
structure FcrBatchOutput where
  accumulatorCommitment : P.Digest
  committeeRoot : P.Digest
  parentHeadRoot : P.Bytes32
  headRoot : P.Bytes32
  headSlot : UInt64
  support : UInt64
  totalActiveBalance : UInt64
  firstSlot : UInt64
  slotCount : UInt64
  threshold : UInt64
  confirmed : Bool
  byzantineThreshold : UInt64
  proposerScoreBoost : UInt64
  emptySlotSupport : UInt64

/-- What the committee proof of the fast confirmation rule establishes. -/
structure FcrCommitteeOutput where
  accumulatorCommitment : P.Digest
  seed : P.Bytes32
  epoch : UInt64
  committeeRoot : P.Digest
  activeCount : UInt64

end Zkasper.Fcr
