import Zkasper.Justification
import Zkasper.Library.Logged
import Zkasper.WitnessGen.Witnesses

/-! # The batch pipeline

One epoch at a time, out of blocks. The walk takes a block at a time and closes the slot
below it; what is closed queues up and leaves in slot proofs, slot proofs queue up and
leave in links of the justification chain. Both widths stop counting once two thirds are
there: the end of the walk proves what is queued and folds it into the link that closes
the epoch.

What a tick finds outside the pipeline is its argument (`Tick`). A tick that fails drops
the epoch, and the next one opens it again; the log is what was handed to the prover up to
there. Timings, reports and publishing are left out. -/

namespace Zkasper.Batch

open Library

variable (P : Primitives)

/-! ## What a tick finds -/

/-- A proof, as the prover returns it. -/
abbrev Proof := List UInt64

/-- `Prover`: turns a witness into a proof of that witness, or fails. -/
structure Prover where
  proveSlot : SlotProofWitness P → Except String (SlotProofOutput P × Proof)
  proveJustification : JustificationWitness P → Except String (JustificationOutput P × Proof)

/-- A link of the justification chain, and its proof. -/
structure JustificationRecord where
  output : JustificationOutput P
  proof : Proof

/-- A finalized checkpoint. -/
structure Checkpoint where
  epoch : UInt64
  root : P.Bytes32

/-- What opening an epoch finds: its committees, proven, and the accumulator as it stands. -/
structure Opening where
  targetRoot : P.Bytes32
  sourceRoot : P.Bytes32
  signingDomain : P.Bytes32
  committees : EpochCommittees P
  committeeOutput : CommitteeOutput P
  committeeProof : Proof
  accRoot : P.Digest
  accCommitment : P.Digest
  totalActiveBalance : UInt64

/-- What one tick finds outside the pipeline. -/
structure Tick where
  cursorEpoch : UInt64
  /-- `open`, where it is asked for. -/
  opening : Except String (Opening P)
  headSlot : UInt64
  /-- `get_block_attestations`; none where the slot has no block. -/
  blocks : UInt64 → Option (List (AttestationResponse P))
  prover : Prover P
  /-- The accumulator tree of the snapshot. -/
  tree : AccTree P
  /-- Whether the artifacts of this name could be written. -/
  write : String → Except String Unit
  /-- `try_finalize`: pairs the record with the previous epoch's, if they can be. -/
  tryFinalize : JustificationRecord P → Except String (Option (Checkpoint P))
  /-- Whether the state could be saved. -/
  save : Except String Unit

/-- What a run is configured with. -/
structure Config where
  slotsPerEpoch : UInt64
  attestationLookaheadEpochs : UInt64
  slotGroupWidth : ℕ
  justificationFoldWidth : ℕ
  /-- `program_vk` of the prover's justification stage. -/
  justificationProgramVk : ProgramVk

/-! ## State -/

/-- One epoch's justification, part-built. -/
structure EpochAggregator [Ord P.Bytes32] (B : Blst) where
  targetEpoch : UInt64
  targetRoot : P.Bytes32
  /-- Checkpoint of the epoch before this one, which every counted attestation names. -/
  sourceRoot : P.Bytes32
  signingDomain : P.Bytes32
  accRoot : P.Digest
  accCommitment : P.Digest
  totalActiveBalance : UInt64
  committees : EpochCommittees P
  committeeOutput : CommitteeOutput P
  committeeProof : Proof
  stream : SlotStream P B
  /-- Next slot to ask the node for. -/
  nextSlot : UInt64
  /-- One past the last slot worth scanning for this checkpoint. -/
  scanEnd : UInt64
  attestingBalance : UInt64
  /-- The justification chain so far, absent until the first link is proven. -/
  justification : Option (JustificationRecord P)
  /-- Attestation slots closed but not yet proven, waiting for a group. -/
  slots : List (SlotComplement P)
  /-- Slot proofs the chain has not absorbed yet. -/
  unfolded : List (SlotProofOutput P)
  unfoldedProofs : List Proof
  slotGroups : ℕ
  folds : ℕ

/-- The batch pipeline, and the one epoch it may have part-built. -/
structure BatchPipeline [Ord P.Bytes32] (B : Blst) where
  pending : Option (EpochAggregator P B)

/-- A witness handed to the prover. -/
inductive Job where
  | slotProof (witness : SlotProofWitness P)
  | justification (witness : JustificationWitness P)

/-- How a tick ends that does not fail. -/
inductive Ending [Ord P.Bytes32] (B : Blst) where
  /-- The epoch is justified, and what it finalizes. -/
  | justified (record : JustificationRecord P) (finalized : Option (Checkpoint P))
  /-- The scan is over without two thirds. -/
  | gaveUpOn (targetEpoch : UInt64)
  /-- Waiting for more blocks. -/
  | waiting (aggregator : EpochAggregator P B)

variable {P} [Ord P.Bytes32] {B : Blst}

namespace EpochAggregator

/-- Casper's two thirds, in 128-bit arithmetic. -/
def thresholdReached (a : EpochAggregator P B) : Bool :=
  IsSupermajority a.attestingBalance a.totalActiveBalance

def exhausted (a : EpochAggregator P B) : Bool := a.scanEnd ≤ a.nextSlot

/-- `saturating_sub` -/
def sourceEpoch (a : EpochAggregator P B) : UInt64 :=
  if a.targetEpoch = 0 then 0 else a.targetEpoch - 1

/-- One slot proof over every slot waiting. -/
def slotProofWitness (a : EpochAggregator P B) (tree : AccTree P) : SlotProofWitness P where
  accumulatorCommitment := a.accCommitment
  committeeRoot := a.committeeOutput.committeeRoot
  sourceEpoch := a.sourceEpoch
  sourceRoot := a.sourceRoot
  targetEpoch := a.targetEpoch
  targetRoot := a.targetRoot
  signingDomain := a.signingDomain
  accRoot := a.accRoot
  totalActiveBalance := a.totalActiveBalance
  accMultiProof := Streaming.accMultiProof tree a.slots
  committeeMultiProof := Streaming.committeeMultiProof a.committees a.slots
  slots := a.slots.map (·.witness)

/-- One link over every slot proof waiting. Only the link that opens the epoch carries the
committee proof; every later one inherits the root it published. -/
def justificationWitness (a : EpochAggregator P B) (config : Config) : JustificationWitness P where
  accumulatorCommitment := a.accCommitment
  sourceEpoch := a.sourceEpoch
  sourceRoot := a.sourceRoot
  targetEpoch := a.targetEpoch
  targetRoot := a.targetRoot
  totalActiveBalance := a.totalActiveBalance
  accRoot := a.accRoot
  justificationProgramVk := config.justificationProgramVk
  committee := if a.justification.isNone then some a.committeeOutput else none
  committeeProof := if a.justification.isNone then a.committeeProof else []
  previous := a.justification.map (·.output)
  previousProof := a.justification.elim [] (·.proof)
  slotProofOutputs := a.unfolded
  slotProofs := a.unfoldedProofs

/-! ## Proving and folding -/

/-- What a finished slot proof leaves. -/
def adoptSlotProof (a : EpochAggregator P B) (proven : SlotProofOutput P × Proof) :
    EpochAggregator P B :=
  { a with
    slots := []
    unfolded := a.unfolded ++ [proven.1]
    unfoldedProofs := a.unfoldedProofs ++ [proven.2]
    slotGroups := a.slotGroups + 1 }

/-- What a finished link leaves. -/
def adoptJustification (a : EpochAggregator P B) (proven : JustificationOutput P × Proof) :
    EpochAggregator P B :=
  { a with
    justification := some ⟨proven.1, proven.2⟩
    unfolded := []
    unfoldedProofs := []
    folds := a.folds + 1 }

/-- Prove one slot proof over every slot waiting on the aggregator. -/
def proveSlotGroup (tick : Tick P) (a : EpochAggregator P B) :
    Logged (Job P) String (EpochAggregator P B) := do
  let first ← Logged.lift (Guest.expect a.slots.head? "a group with no slots")
  let witness := a.slotProofWitness tick.tree
  Logged.tell (.slotProof witness)
  let proven ← Logged.lift (tick.prover.proveSlot witness)
  Logged.lift (tick.write s!"slot_proof_{first.slot}")
  return a.adoptSlotProof proven

/-- Absorb the slot proofs waiting into the chain, and leave it one link longer. -/
def foldJustification (config : Config) (tick : Tick P) (a : EpochAggregator P B) :
    Logged (Job P) String (EpochAggregator P B) := do
  let witness := a.justificationWitness config
  Logged.tell (.justification witness)
  let proven ← Logged.lift (tick.prover.proveJustification witness)
  Logged.lift (tick.write s!"justification_{a.folds}")
  return a.adoptJustification proven

/-- A group leaves when it is wide enough, unless the epoch is over. -/
def proveIfWide (config : Config) (tick : Tick P) (a : EpochAggregator P B) :
    Logged (Job P) String (EpochAggregator P B) :=
  if config.slotGroupWidth ≤ a.slots.length && !a.thresholdReached then proveSlotGroup tick a
  else pure a

/-- Fold what has piled up, unless the epoch is over. -/
def foldIfWide (config : Config) (tick : Tick P) (a : EpochAggregator P B) :
    Logged (Job P) String (EpochAggregator P B) :=
  if config.justificationFoldWidth ≤ a.unfolded.length && !a.thresholdReached then
    foldJustification config tick a
  else pure a

/-! ## The walk -/

/-- One block, if the node has it. -/
def readBlock (a : EpochAggregator P B) (block : Option (List (AttestationResponse P))) :
    Except String (EpochAggregator P B) :=
  match block with
  | none => return a
  | some attestations => do
      let (stream, result) := a.stream.ingest attestations
      result
      return { a with stream }

/-- Attestations for a slot are included from the next block onwards, so a block closes the
slot below it, where that is a slot of the epoch. -/
def attestationSlot (config : Config) (a : EpochAggregator P B) (slot : UInt64) : Option UInt64 :=
  if slot = 0 then none
  else if slot - 1 < a.targetEpoch * config.slotsPerEpoch ∨
      (a.targetEpoch + 1) * config.slotsPerEpoch ≤ slot - 1 then none
  else some (slot - 1)

/-- A slot that was closed waits for a group. -/
def queue (a : EpochAggregator P B) (stream : SlotStream P B) (complement : SlotComplement P) :
    EpochAggregator P B :=
  { a with
    stream
    attestingBalance := a.attestingBalance + complement.marginalBalance
    slots := a.slots ++ [complement] }

/-- Close the slot below a block, and prove and fold what is wide enough. -/
def closeSlot (config : Config) (tick : Tick P) (a : EpochAggregator P B) (slot : UInt64) :
    Logged (Job P) String (EpochAggregator P B) :=
  match a.stream.close slot with
  | (stream, none) => pure { a with stream }
  | (stream, some complement) => do
      let a ← proveIfWide config tick (a.queue stream complement)
      foldIfWide config tick a

/-- One turn of the loop. -/
def scan (config : Config) (tick : Tick P) (a : EpochAggregator P B) :
    Logged (Job P) String (EpochAggregator P B) := do
  let slot := a.nextSlot
  let a ← Logged.lift (readBlock { a with nextSlot := slot + 1 } (tick.blocks slot))
  match attestationSlot config a slot with
  | none => pure a
  | some attestationSlot => closeSlot config tick a attestationSlot

/-- Whether the loop goes on. -/
def walking (tick : Tick P) (a : EpochAggregator P B) : Bool :=
  !a.thresholdReached && !a.exhausted && a.nextSlot ≤ tick.headSlot

/-- The loop. Every turn takes a slot below `scanEnd`, so `fuel` is their number. -/
def walk (config : Config) (tick : Tick P) : (fuel : ℕ) → EpochAggregator P B →
    Logged (Job P) String (EpochAggregator P B)
  | 0, a => pure a
  | fuel + 1, a =>
      if walking tick a then do
        let a ← scan config tick a
        walk config tick fuel a
      else pure a

/-! ## The end of an epoch -/

/-- The slots that crossed the threshold. -/
def closingGroup (tick : Tick P) (a : EpochAggregator P B) :
    Logged (Job P) String (EpochAggregator P B) :=
  if a.slots.isEmpty then pure a else proveSlotGroup tick a

/-- Close the epoch's justification chain. A closing link that comes back unjustified means
the host counted a balance the circuit did not. -/
def close (config : Config) (tick : Tick P) (a : EpochAggregator P B) :
    Logged (Job P) String (Ending P B) := do
  let a ← closingGroup tick a
  -- the link that absorbs them
  let a ← foldJustification config tick a
  let record ← Logged.lift
    (Guest.expect a.justification "the closing fold leaves a justification")
  Logged.lift (Guest.assert (record.output.justified = true)
    (s!"epoch {a.targetEpoch} closed with {record.output.attestingBalance} of " ++
      s!"{a.totalActiveBalance} attesting, which the circuit does not call a supermajority"))
  let finalized ← Logged.lift (tick.tryFinalize record)
  Logged.lift tick.save
  return .justified record finalized

/-- The end of a tick. -/
def settle (config : Config) (tick : Tick P) (a : EpochAggregator P B) :
    Logged (Job P) String (Ending P B) :=
  if a.thresholdReached then close config tick a
  else if a.exhausted then do
    Logged.lift tick.save
    return .gaveUpOn a.targetEpoch
  else return .waiting a

end EpochAggregator

namespace BatchPipeline

open EpochAggregator

/-- Start a new epoch's aggregation against the accumulator as it stands. -/
def openEpoch (config : Config) (targetEpoch : UInt64) (o : Opening P) : EpochAggregator P B where
  targetEpoch
  targetRoot := o.targetRoot
  sourceRoot := o.sourceRoot
  signingDomain := o.signingDomain
  accRoot := o.accRoot
  accCommitment := o.accCommitment
  totalActiveBalance := o.totalActiveBalance
  committees := o.committees
  committeeOutput := o.committeeOutput
  committeeProof := o.committeeProof
  stream := .new config.slotsPerEpoch o.committees targetEpoch o.targetRoot o.sourceRoot
  nextSlot := targetEpoch * config.slotsPerEpoch
  scanEnd := (targetEpoch + config.attestationLookaheadEpochs) * config.slotsPerEpoch
  attestingBalance := 0
  justification := none
  slots := []
  unfolded := []
  unfoldedProofs := []
  slotGroups := 0
  folds := 0

/-- `Default::default` -/
def empty : BatchPipeline P B := ⟨none⟩

/-- The epoch in flight, where it is the one the tick is for. -/
def resumed (s : BatchPipeline P B) (tick : Tick P) : Option (EpochAggregator P B) :=
  s.pending.filter fun a => a.targetEpoch = tick.cursorEpoch

/-- The epoch a tick works on: the one in flight, or one it opens. -/
def resume (config : Config) (tick : Tick P) (s : BatchPipeline P B) :
    Except String (EpochAggregator P B) :=
  match s.resumed tick with
  | some a => .ok a
  | none => tick.opening.map (openEpoch config tick.cursorEpoch)

/-- A tick up to where its loop ends: the epoch, and what it handed to the prover. -/
def walked (config : Config) (tick : Tick P) (s : BatchPipeline P B) :
    Logged (Job P) String (EpochAggregator P B) := do
  let a ← Logged.lift (s.resume config tick)
  walk config tick (a.scanEnd.toNat - a.nextSlot.toNat) a

/-- One tick. -/
def run (config : Config) (tick : Tick P) (s : BatchPipeline P B) :
    Logged (Job P) String (Ending P B) := do
  let a ← s.walked config tick
  settle config tick a

/-- The epoch a tick leaves part-built: none where it failed, or where the epoch is over. -/
def left : Except String (Ending P B) → Option (EpochAggregator P B)
  | .ok (.waiting a) => some a
  | _ => none

/-- `EpochPipeline::drive` -/
def drive (config : Config) (tick : Tick P) (s : BatchPipeline P B) : BatchPipeline P B :=
  ⟨left (s.run config tick).result⟩

/-- `EpochPipeline::forget` -/
def forget (_ : BatchPipeline P B) : BatchPipeline P B := ⟨none⟩

end BatchPipeline
end Zkasper.Batch
