import Zkasper.Aggregation

/-! # Justification

The batch pipeline's fold: it takes the justification of the previous fold and the
slot proofs finished since, and publishes the running balance, the slots it came
from, and whether two thirds of the accumulator's balance is behind them yet. A
partial fold is a valid proof; whoever consumes a justification reads the flag. -/

namespace Zkasper

variable {P : Primitives}

/-! ## Records -/

/-- Public outputs of a justification proof. -/
structure JustificationOutput (P : Primitives) where
  accumulatorCommitment : P.Digest
  committeeRoot : P.Digest
  sourceEpoch : UInt64
  sourceRoot : P.Bytes32
  targetEpoch : UInt64
  targetRoot : P.Bytes32
  attestingBalance : UInt64
  slotsMask : UInt64
  /-- Computed, never asserted, and a consumer must check it. -/
  justified : Bool
  programVk : ProgramVk

/-- Witness for a justification proof. -/
structure JustificationWitness (P : Primitives) where
  accumulatorCommitment : P.Digest
  sourceEpoch : UInt64
  sourceRoot : P.Bytes32
  targetEpoch : UInt64
  targetRoot : P.Bytes32
  totalActiveBalance : UInt64
  accRoot : P.Digest
  justificationProgramVk : ProgramVk
  committee : Option (CommitteeOutput P)
  committeeProof : List UInt64
  previous : Option (JustificationOutput P)
  previousProof : List UInt64
  slotProofOutputs : List (SlotProofOutput P)
  slotProofs : List (List UInt64)

def JustificationOutput.publicBytes (o : JustificationOutput P) : PublicBytes P :=
  [.digest o.accumulatorCommitment, .digest o.committeeRoot, .u64 o.sourceEpoch,
    .bytes32 o.sourceRoot, .u64 o.targetEpoch, .bytes32 o.targetRoot, .u64 o.attestingBalance,
    .u64 o.slotsMask, .u64 (if o.justified then 1 else 0), .programVk o.programVk]

/-! ## The supermajority -/

/-- Casper's two thirds, in 128-bit arithmetic. -/
def IsSupermajority (attestingBalance totalActiveBalance : UInt64) : Prop :=
  attestingBalance.toNat * 3 ≥ totalActiveBalance.toNat * 2

instance (attestingBalance totalActiveBalance : UInt64) :
    Decidable (IsSupermajority attestingBalance totalActiveBalance) :=
  inferInstanceAs (Decidable (_ ≤ _))

/-! ## The circuit -/

/-- What a justification carries along its chain. -/
structure Justified where
  attestingBalance : UInt64
  slotsMask : UInt64

/-- The committee root the slot proofs must have counted against. -/
def justificationCommittee (S : ProofSystem P) (w : JustificationWitness P) : Guest P.Digest :=
  match w.previous with
  | some previous => return previous.committeeRoot
  | none => committeeLink S w.committee w.committeeProof w.accumulatorCommitment w.targetEpoch

/-- The count of the justification being extended, none where the epoch opens here. -/
def inheritJustification (S : ProofSystem P) (w : JustificationWitness P) : Guest Justified :=
  match w.previous with
  | none => return ⟨0, 0⟩
  | some previous => do
      Guest.assert
        (verifyChild S w.previousProof w.justificationProgramVk previous.publicBytes = true)
        "previous justification failed recursive verification"
      Guest.assert (previous.programVk = w.justificationProgramVk)
        "previous justification was produced by a different program"
      Guest.assert (previous.accumulatorCommitment = w.accumulatorCommitment)
        "previous justification accumulator mismatch"
      Guest.assert (previous.targetEpoch = w.targetEpoch)
        "previous justification target_epoch mismatch"
      Guest.assert (previous.targetRoot = w.targetRoot)
        "previous justification target_root mismatch"
      Guest.assert (previous.sourceEpoch = w.sourceEpoch)
        "previous justification source_epoch mismatch"
      Guest.assert (previous.sourceRoot = w.sourceRoot)
        "previous justification source_root mismatch"
      return ⟨previous.attestingBalance, previous.slotsMask⟩

/-- One slot proof of the loop, with its proof and its position. -/
def absorbSlotProof (S : ProofSystem P) (w : JustificationWitness P) (committeeRoot : P.Digest)
    (running : Justified) (entry : (SlotProofOutput P × List UInt64) × ℕ) : Guest Justified := do
  let ((slotOutput, proof), i) := entry
  requireBakedChild S proof slotProgramVk slotOutput.publicBytes
    s!"slot proof {i} failed recursive verification"
  Guest.assert (slotOutput.accumulatorCommitment = w.accumulatorCommitment)
    s!"slot proof {i} accumulator mismatch"
  Guest.assert (slotOutput.committeeRoot = committeeRoot) s!"slot proof {i} committee mismatch"
  Guest.assert (slotOutput.targetEpoch = w.targetEpoch) s!"slot proof {i} target_epoch mismatch"
  Guest.assert (slotOutput.targetRoot = w.targetRoot) s!"slot proof {i} target_root mismatch"
  Guest.assert (slotOutput.sourceEpoch = w.sourceEpoch) s!"slot proof {i} source_epoch mismatch"
  Guest.assert (slotOutput.sourceRoot = w.sourceRoot) s!"slot proof {i} source_root mismatch"
  Guest.assert (running.slotsMask &&& slotOutput.slotsMask = 0)
    s!"slot proof {i} counts a slot that was already counted"
  return ⟨running.attestingBalance + slotOutput.attestingBalance,
    running.slotsMask ||| slotOutput.slotsMask⟩

/-- Fold slot proofs into a running justification. -/
def verifyJustification (S : ProofSystem P) (w : JustificationWitness P) :
    Guest (JustificationOutput P) := do
  Guest.assert (w.slotProofOutputs ≠ []) "justification proof folds no slot proofs"
  Guest.assert (w.slotProofOutputs.length = w.slotProofs.length)
    "slot outputs and proofs length mismatch"
  Guest.assert (P.commitment w.accRoot w.totalActiveBalance = w.accumulatorCommitment)
    "accumulator commitment mismatch"
  let committeeRoot ← justificationCommittee S w
  let previous ← inheritJustification S w
  let running ← (w.slotProofOutputs.zip w.slotProofs).zipIdx.foldlM
    (absorbSlotProof S w committeeRoot) previous
  return {
    accumulatorCommitment := w.accumulatorCommitment
    committeeRoot
    sourceEpoch := w.sourceEpoch
    sourceRoot := w.sourceRoot
    targetEpoch := w.targetEpoch
    targetRoot := w.targetRoot
    attestingBalance := running.attestingBalance
    slotsMask := running.slotsMask
    justified := decide (IsSupermajority running.attestingBalance w.totalActiveBalance)
    programVk := w.justificationProgramVk }

end Zkasper
