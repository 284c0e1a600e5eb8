import Zkasper.WitnessGen.Schedule
import Zkasper.WitnessGen.Witnesses

/-! # The streaming pipeline

The daemon's loop over one epoch. Every tick takes in what gossip and blocks have
delivered, collects the proof in flight if it has landed, and otherwise decides:
slots that are complete are closed into units and proven in groups, a landed group is
folded into the running aggregate, and once the balance is there the trigger fires and
the final proof is built out of the aggregate, at most one group and an inline tail.

At most one proof is in flight. What a tick finds outside the pipeline is its
argument (`Tick`): arrivals, the chain's head, whether the proof has landed and what
the prover answered, and the trigger's wait, which the source decides on a clock. A
tick answers with the next state and the witness it handed to the prover, if any. -/

namespace Zkasper.Streaming

variable (P : Primitives)

/-! ## What a tick finds -/

/-- A proof, as the prover returns it. -/
abbrev Proof := List UInt64

/-- `Prover`: turns a witness into a proof of that witness, or fails. -/
structure Prover where
  proveGroup : SlotProofWitness P → Except String (GroupProofOutput P × P.Fp12 × Proof)
  proveAggregate : AggregateWitness P → Except String (AggregateOutput P × Proof)
  proveStreamFinal : StreamFinalWitness P → Except String (StreamFinalOutput P × Proof)

/-- What one drain of the gossip inbox delivers, and whether the stream reported a
reorg or a gap. -/
structure Drain where
  attestations : List (AttestationResponse P)
  reorg : Bool
  gap : Bool

/-- Nothing arrived. -/
def Drain.empty : Drain P := ⟨[], false, false⟩

/-- What opening an epoch finds. -/
structure Opening where
  targetRoot : P.Bytes32
  sourceRoot : P.Bytes32
  signingDomain : P.Bytes32
  committees : EpochCommittees P
  committeeOutput : CommitteeOutput P
  committeeProof : Proof
  accumulatorCommitment : P.Digest
  accRoot : P.Digest
  totalActiveBalance : UInt64
  aggregateProgramVk : ProgramVk
  streamProgramVk : ProgramVk
  epochDiff : EpochDiffOutput P
  epochDiffProof : Proof
  previous : PreviousJustification P
  previousProof : Proof
  boundary : Ssz.BoundaryAnchor P

/-- Unix milliseconds: what is read at the instants a tick stamps, and when the proof in flight
landed, which nothing reads. -/
structure Clock where
  /-- The crossing, as the top of the tick sees it. -/
  observed : UInt64
  /-- The prover found free. -/
  freed : UInt64
  /-- The crossing, as the trigger sees it. -/
  reobserved : UInt64
  /-- A proof handed to the prover off the critical path. -/
  queued : UInt64
  /-- The trigger fired. -/
  fired : UInt64
  /-- The final proof started. -/
  closing : UInt64
  /-- The proof in flight landed, where it has. -/
  landed : UInt64

/-- What one tick finds outside the pipeline. -/
structure Tick where
  cursorEpoch : UInt64
  /-- `open`, where it is asked for: none if it failed. -/
  opening : Option (Opening P)
  headSlot : UInt64
  /-- The drains of the tick in order; none where there is no gossip source. -/
  gossip : Option (List (Drain P))
  /-- `get_block_attestations`; none where the slot has no block. -/
  blocks : UInt64 → Option (List (AttestationResponse P))
  /-- Whether the proof in flight landed within the interval. -/
  landed : Bool
  prover : Prover P
  /-- Whether artifacts and state could be written. -/
  written : Bool
  /-- `checkpoint_root` of the epoch; none if the node did not answer. -/
  checkpointRoot : Option P.Bytes32
  /-- `StreamPolicy::worth_waiting` -/
  worthWaiting : Bool
  /-- The accumulator tree of the snapshot. -/
  tree : AccTree P
  clock : Clock

/-- What a run is configured with. -/
structure Config (𝕜 : Type) where
  slotsPerEpoch : UInt64
  attestationLookaheadEpochs : UInt64
  accTreeDepth : ℕ
  streamPolicy : StreamPolicy 𝕜

/-! ## State -/

/-- A finished group proof, waiting to be folded or handed to the final proof. -/
structure GroupProof where
  output : GroupProofOutput P
  miller : P.Fp12
  proof : Proof

/-- Some consecutive units. -/
structure Range where
  start : ℕ
  stop : ℕ

/-- The units of a range. -/
def Range.of {α : Type} (r : Range) (units : List α) : List α := (units.take r.stop).drop r.start

/-- One epoch's streaming aggregation, part-built. -/
structure StreamAggregator [Ord P.Bytes32] (B : Blst) where
  context : StreamContext P
  committees : EpochCommittees P
  stream : SlotStream P B
  /-- Next block to ask the node for while repairing from blocks. -/
  nextSlot : UInt64
  /-- One past the last slot worth scanning for this checkpoint. -/
  scanEnd : UInt64
  /-- Whether gossip has a hole in it that blocks have to fill. -/
  gap : Bool
  /-- Whether the node has reported a reorg that this epoch has not checked. -/
  reorged : Bool
  /-- Attestation slots closed so far, in order. -/
  units : List (SlotComplement P)
  /-- How many of them a group proof already covers. -/
  proved : ℕ
  attestingBalance : UInt64
  aggregate : Option (AggregateOutput P)
  aggregateProof : Proof
  /-- Miller accumulator behind the aggregate's commitment. -/
  aggregateMiller : P.Fp12
  foldedGroups : ℕ
  /-- A group proof that has landed and has not been folded, with the unit count it
  carries the epoch to. -/
  unfolded : Option (ℕ × GroupProof P)
  previous : PreviousJustification P
  previousProof : Proof
  boundary : Ssz.BoundaryAnchor P
  crossedUnixMillis : Option UInt64
  provingSince : Option UInt64
  blockedMillis : UInt64

/-- A group proof in flight. -/
structure GroupInFlight where
  range : Range
  witness : SlotProofWitness P

/-- What the trigger decided. -/
structure Fired where
  unixMillis : UInt64
  /-- Units the final proof carries inline. -/
  tail : Range

/-- What the tick that collects the final proof needs in order to report it. -/
structure Closing where
  firedUnixMillis : UInt64
  lateGroupMillis : UInt64
  lateGroups : ℕ
  tail : ℕ
  tailNamed : ℕ

/-- A proof this pipeline started and has not collected. -/
inductive Pending where
  /-- A group off the critical path. -/
  | group (group : GroupInFlight P)
  /-- The fold of a group that has landed; what `proved` becomes once it has too. -/
  | fold (index proved : ℕ) (witness : AggregateWitness P)
  /-- The backlog the trigger fired on top of. -/
  | late (group : GroupInFlight P) (fired : Fired)
  /-- The final proof. -/
  | final (closing : Closing) (witness : StreamFinalWitness P)

/-- The streaming pipeline, and the one epoch it may have part-built. -/
structure StreamPipeline [Ord P.Bytes32] (B : Blst) where
  aggregator : Option (StreamAggregator P B)
  pending : Option (Pending P)

/-- A witness handed to the prover. -/
inductive Job where
  | group (witness : SlotProofWitness P)
  | aggregate (witness : AggregateWitness P)
  | final (witness : StreamFinalWitness P)

/-- What one evaluation of the trigger sees. -/
structure Held where
  /-- Attested balance: closed units and still-filling slots together. -/
  balance : UInt64
  /-- The slot gossip is still filling, the leaves it would open and its aggregates. -/
  filling : Option (UInt64 × ℕ × ℕ)
  /-- Every slot gossip has reached, priced as if it closed now. -/
  openUnits : List (SlotComplement P)

variable {P} [Ord P.Bytes32] {B : Blst} {𝕜 : Type} [LinearOrder 𝕜] [AddCommGroup 𝕜]

/-- `u64` subtraction that stops at zero. -/
def saturatingSub (a b : UInt64) : UInt64 := if b ≤ a then a - b else 0

namespace StreamAggregator

/-! ## Reading the epoch -/

def exhausted (a : StreamAggregator P B) (headSlot : UInt64) : Bool := a.scanEnd ≤ headSlot

/-- The units the final proof carries inline: from where the aggregate, or the group
it will absorb, ends, to the unit that carries the epoch over the threshold. -/
def tail (a : StreamAggregator P B) (policy : StreamPolicy 𝕜) : Option Range := do
  let plan ← plan a.units a.context.totalActiveBalance policy
  if !plan.thresholdReached then none
  else do
    let crossing ← plan.covered.max?
    let start := a.unfolded.elim a.proved Prod.fst
    return ⟨min start (crossing + 1), crossing + 1⟩

/-- Price every slot gossip has reached as if it closed this instant. -/
def openUnits (a : StreamAggregator P B) (slotsPerEpoch : UInt64) : List (SlotComplement P) :=
  let epoch := a.context.targetEpoch
  (a.stream.openSlots.filter fun slot =>
    epoch * slotsPerEpoch ≤ slot && slot < (epoch + 1) * slotsPerEpoch).filterMap a.stream.peek

/-- The running balance of some units, in the `u64` the source keeps it in. -/
def balances (units : List (SlotComplement P)) : List UInt64 :=
  (units.map (·.marginalBalance)).scanl (· + ·) 0

def held (a : StreamAggregator P B) (slotsPerEpoch headSlot : UInt64)
    (policy : StreamPolicy 𝕜) : Held P :=
  let openUnits := a.openUnits slotsPerEpoch
  let target := policy.targetBalance a.context.totalActiveBalance
  let running := balances (a.units ++ openUnits)
  let crossing := running.tail.findIdx? fun balance => target ≤ balance.toNat
  -- only the frontier is still worth waiting on, and only while the threshold needs it
  let frontier := openUnits.getLast?.elim headSlot fun unit => max unit.slot headSlot
  { balance := running.getLast?.getD 0
    filling := ((openUnits.getLast?.filter fun unit => frontier ≤ unit.slot).filter fun _ =>
      crossing.all fun c => c + 1 = a.units.length + openUnits.length).map fun unit =>
        (unit.slot, unit.namedIndices.length, a.stream.aggregates unit.slot)
    openUnits }

/-! ## Arrivals -/

/-- Take everything gossip has delivered since the last call; the drains still to come.
A gap rewinds the block walk. -/
def absorbGossip (config : Config 𝕜) (a : StreamAggregator P B) (gossip : Option (List (Drain P))) :
    Except String (StreamAggregator P B × Option (List (Drain P))) :=
  match gossip with
  | none => return (a, none)
  | some drains => do
      let drain := drains.headD (Drain.empty P)
      let (stream, result) := a.stream.ingest drain.attestations
      result
      return ({ a with
          stream
          reorged := a.reorged || drain.reorg
          nextSlot := if drain.gap then a.context.targetEpoch * config.slotsPerEpoch else a.nextSlot
          gap := a.gap || drain.gap }, some drains.tail)

/-- One block of the repair, if the node has it. -/
def repairBlock (a : StreamAggregator P B) (block : Option (List (AttestationResponse P))) :
    Except String (StreamAggregator P B) :=
  match block with
  | none => return a
  | some attestations => do
      let (stream, result) := a.stream.ingest attestations
      result
      return { a with stream }

/-- The block walk. Every turn takes a slot below `scanEnd`, so `fuel` is their number. -/
def repairBlocks (config : Config 𝕜) (tick : Tick P) : (fuel : ℕ) → StreamAggregator P B →
    Option (List (Drain P)) → Except String (StreamAggregator P B × Option (List (Drain P)))
  | 0, a, gossip => return (a, gossip)
  | fuel + 1, a, gossip =>
      if a.gap || tick.headSlot < a.nextSlot || a.scanEnd ≤ a.nextSlot then return (a, gossip)
      else do
        let slot := a.nextSlot
        let a ← repairBlock { a with nextSlot := slot + 1 } (tick.blocks slot)
        let (a, gossip) ← absorbGossip config a gossip
        repairBlocks config tick fuel a gossip

/-- Fill in from blocks what gossip did not deliver. -/
def repairFromBlocks (config : Config 𝕜) (tick : Tick P) (a : StreamAggregator P B)
    (gossip : Option (List (Drain P))) :
    Except String (StreamAggregator P B × Option (List (Drain P))) :=
  repairBlocks config tick (a.scanEnd.toNat - a.nextSlot.toNat) { a with gap := false } gossip

/-- Stamp the instant the daemon first saw the epoch hold what the circuit insists on. -/
def observeCrossing (a : StreamAggregator P B) (balance now : UInt64) : StreamAggregator P B :=
  if a.crossedUnixMillis.isSome ∨ balance.toNat < quorumBalance a.context.totalActiveBalance then a
  else { a with crossedUnixMillis := some now }

/-- Charge the prover's own backlog to the proof that was running at the crossing. -/
def chargeBlocked (a : StreamAggregator P B) (now : UInt64) : StreamAggregator P B :=
  { a with
    provingSince := none
    blockedMillis := match a.crossedUnixMillis, a.provingSince with
      | some crossed, some since => a.blockedMillis + saturatingSub now (max since crossed)
      | _, _ => a.blockedMillis }

/-! ## Closing slots and starting proofs -/

/-- Close one slot into a unit. -/
def closeUnit (a : StreamAggregator P B) (unit : SlotComplement P) : StreamAggregator P B :=
  { a with
    stream := a.stream.forget unit.slot
    attestingBalance := a.attestingBalance + unit.marginalBalance
    units := a.units ++ [unit] }

def closeUnits (a : StreamAggregator P B) (units : List (SlotComplement P)) :
    StreamAggregator P B :=
  units.foldl closeUnit a

/-- Build one group's witness. -/
def startGroup (a : StreamAggregator P B) (tree : AccTree P) (range : Range) : GroupInFlight P :=
  ⟨range, a.context.groupWitness tree a.committees (range.of a.units)⟩

/-- Build the witness that folds a finished group into the running aggregate, whose
proof goes with it. -/
def startFold (a : StreamAggregator P B) (group : GroupProof P) :
    StreamAggregator P B × AggregateWitness P :=
  ({ a with aggregateProof := [] },
    a.context.aggregateWitness a.aggregate a.aggregateProof a.aggregateMiller [group.output]
      [group.proof] [group.miller])

/-- Build the final proof's witness. -/
def startFinal (a : StreamAggregator P B) (tick : Tick P) (late : Option (GroupProof P))
    (fired : Fired) : Closing × StreamFinalWitness P :=
  let tail := fired.tail.of a.units
  let groups := late.toList
  (⟨fired.unixMillis, saturatingSub tick.clock.closing fired.unixMillis, groups.length,
      tail.length, (tail.map (·.namedIndices.length)).sum⟩,
    a.context.finalWitness tick.tree a.committees a.aggregate a.aggregateProof a.aggregateMiller
      (groups.map (·.output)) (groups.map (·.proof)) (groups.map (·.miller)) tail a.previous
      a.previousProof a.boundary)

/-! ## Collecting proofs -/

/-- A finished group proof, written down. -/
def finishGroup (tick : Tick P) (group : GroupInFlight P) : Except String (GroupProof P) := do
  let (output, miller, proof) ← tick.prover.proveGroup group.witness
  Guest.assert (tick.written = true) "the group proof could not be written"
  return ⟨output, miller, proof⟩

/-- Adopt a finished fold: from here the aggregate covers `proved` units. -/
def finishFold (tick : Tick P) (a : StreamAggregator P B) (proved : ℕ)
    (witness : AggregateWitness P) : Except String (StreamAggregator P B) := do
  let (output, proof) ← tick.prover.proveAggregate witness
  Guest.assert (tick.written = true) "the aggregate could not be written"
  return { a with
    aggregateMiller := witness.groupMillers.foldl P.fp12Mul a.aggregateMiller
    attestingBalance := output.attestingBalance
    aggregate := some output
    aggregateProof := proof
    foldedGroups := a.foldedGroups + 1
    proved }

end StreamAggregator

namespace StreamPipeline

open StreamAggregator

/-- `Default::default` -/
def empty : StreamPipeline P B := ⟨none, none⟩

/-! ## One tick -/

/-- Whether the trigger has already fired on this epoch. -/
def fired : Option (Pending P) → Bool
  | some (.late ..) | some (.final ..) => true
  | _ => false

/-- Open an epoch. -/
def openEpoch (config : Config 𝕜) (targetEpoch : UInt64) (o : Opening P) : StreamAggregator P B where
  context :=
    { accumulatorCommitment := o.accumulatorCommitment
      accRoot := o.accRoot
      totalActiveBalance := o.totalActiveBalance
      targetEpoch
      targetRoot := o.targetRoot
      sourceRoot := o.sourceRoot
      signingDomain := o.signingDomain
      aggregateProgramVk := o.aggregateProgramVk
      streamProgramVk := o.streamProgramVk
      epochDiff := o.epochDiff
      epochDiffProof := o.epochDiffProof
      committee := o.committeeOutput
      committeeProof := o.committeeProof
      accDepth := config.accTreeDepth }
  committees := o.committees
  stream := .new config.slotsPerEpoch o.committees targetEpoch o.targetRoot o.sourceRoot
  nextSlot := targetEpoch * config.slotsPerEpoch
  scanEnd := (targetEpoch + config.attestationLookaheadEpochs) * config.slotsPerEpoch
  gap := true
  reorged := false
  units := []
  proved := 0
  attestingBalance := 0
  aggregate := none
  aggregateProof := []
  aggregateMiller := P.fp12One
  foldedGroups := 0
  unfolded := none
  previous := o.previous
  previousProof := o.previousProof
  boundary := o.boundary
  crossedUnixMillis := none
  provingSince := none
  blockedMillis := 0

/-- Blocks are asked for where gossip has a hole, until the trigger has fired. -/
def fillGap (config : Config 𝕜) (tick : Tick P) (a : StreamAggregator P B)
    (pending : Option (Pending P)) (gossip : Option (List (Drain P))) :
    Except String (StreamAggregator P B × Option (List (Drain P))) :=
  if a.gap && !fired pending then repairFromBlocks config tick a gossip else return (a, gossip)

/-- The top of a tick: what has arrived, and the crossing it may have brought. -/
def takeArrivals (config : Config 𝕜) (tick : Tick P) (a : StreamAggregator P B)
    (pending : Option (Pending P)) :
    Except String (StreamAggregator P B × Option (List (Drain P))) := do
  let a := { a with gap := a.gap || tick.gossip.isNone }
  let (a, gossip) ← absorbGossip config a tick.gossip
  let (a, gossip) ← fillGap config tick a pending gossip
  let a := if a.crossedUnixMillis.isSome then a
    else a.observeCrossing (a.held config.slotsPerEpoch tick.headSlot config.streamPolicy).balance
      tick.clock.observed
  return (a, gossip)

/-- How far a tick gets before the trigger is asked. -/
inductive Prepared (P : Primitives) [Ord P.Bytes32] (B : Blst) where
  /-- The tick is over: what it leaves, and what it handed to the prover. -/
  | over (s : StreamPipeline P B) (jobs : List (Job P))
  /-- The prover is free, and the view is as fresh as the decision. -/
  | free (a : StreamAggregator P B)

/-- The prover is free: check for a reorg that took the checkpoint out from under the
epoch, and take in what has arrived since the top of the tick. -/
def freshen (config : Config 𝕜) (tick : Tick P) (a : StreamAggregator P B)
    (gossip : Option (List (Drain P))) : Prepared P B :=
  if a.reorged && tick.checkpointRoot ≠ some a.context.targetRoot then .over ⟨none, none⟩ []
  else
    match absorbGossip config (({ a with reorged := false }).chargeBlocked tick.clock.freed)
      gossip with
    | .error _ => .over ⟨none, none⟩ []
    | .ok (a, _) => .free a

/-- Take a finished proof and do the next thing the epoch needs. A landed group is the
one result this does not act on. -/
def collect (config : Config 𝕜) (tick : Tick P) (a : StreamAggregator P B)
    (gossip : Option (List (Drain P))) : Pending P → Prepared P B
  | .group group =>
      match finishGroup tick group with
      | .error _ => .over ⟨none, none⟩ []
      | .ok proof => freshen config tick { a with unfolded := some (group.range.stop, proof) } gossip
  | .fold _ proved witness =>
      match finishFold tick a proved witness with
      | .error _ => .over ⟨none, none⟩ []
      | .ok a => .over ⟨some a, none⟩ []
  | .late group fired =>
      match finishGroup tick group with
      | .error _ => .over ⟨none, none⟩ []
      | .ok proof =>
          let (closing, witness) := a.startFinal tick (some proof) fired
          .over ⟨some a, some (.final closing witness)⟩ [.final witness]
  -- whatever becomes of the final proof, the epoch is over
  | .final .. => .over ⟨none, none⟩ []

/-- One tick of the epoch in flight, up to the trigger. A tick that fails drops the epoch. -/
def prepareEpoch (config : Config 𝕜) (tick : Tick P) (a : StreamAggregator P B)
    (pending : Option (Pending P)) : Prepared P B :=
  match takeArrivals config tick a pending with
  | .error _ => .over ⟨none, pending⟩ []
  | .ok (a, gossip) =>
      match pending with
      | none => freshen config tick a gossip
      | some inFlight =>
          if tick.landed then collect config tick a gossip inFlight
          else .over ⟨some a, some inFlight⟩ []

/-- One tick, up to the trigger. A proof in flight for another epoch is dropped. -/
def prepare (config : Config 𝕜) (tick : Tick P) (s : StreamPipeline P B) : Prepared P B :=
  match s.aggregator.filter fun a => a.context.targetEpoch = tick.cursorEpoch with
  | some a => prepareEpoch config tick a s.pending
  | none =>
      match tick.opening with
      | none => .over ⟨none, none⟩ []
      | some o => prepareEpoch config tick (openEpoch config tick.cursorEpoch o) none

/-- Start the next proof off the critical path, if there is anything to prove: the fold
of a landed group, or a group of everything closed since. -/
def startNext (tick : Tick P) (a : StreamAggregator P B) :
    StreamAggregator P B × Option (Pending P) × List (Job P) :=
  match a.unfolded with
  | some (proved, group) =>
      let (a, witness) := ({ a with unfolded := none }).startFold group
      ({ a with provingSince := some tick.clock.queued },
        some (.fold a.foldedGroups proved witness), [.aggregate witness])
  | none =>
      if a.proved < a.units.length then
        let group := a.startGroup tick.tree ⟨a.proved, a.units.length⟩
        ({ a with provingSince := some tick.clock.queued }, some (.group group),
          [.group group.witness])
      else (a, none, [])

/-- What is complete while the trigger holds back: every slot but the one still filling. -/
def complete (held : Held P) : List (SlotComplement P) :=
  held.openUnits.take (held.openUnits.length - if held.filling.isSome then 1 else 0)

/-- The end of a tick that held back: the epoch goes on for as long as its slots do. -/
def goOn (tick : Tick P) : StreamAggregator P B × Option (Pending P) × List (Job P) →
    StreamPipeline P B × List (Job P)
  | (a, pending, jobs) =>
      if a.exhausted tick.headSlot then
        -- the proof started above is abandoned with the epoch, once that is on record
        (⟨none, if tick.written then none else pending⟩, jobs)
      else (⟨some a, pending⟩, jobs)

/-- The trigger held back: close what is complete, and start the next proof unless the
epoch already holds enough. -/
def holdBack (tick : Tick P) (a : StreamAggregator P B) (held : Held P) (enough : Bool) :
    StreamPipeline P B × List (Job P) :=
  let a := a.closeUnits (complete held)
  goOn tick (if enough then (a, none, []) else startNext tick a)

/-- The trigger fired: close everything, and start the final proof. -/
def fire (config : Config 𝕜) (tick : Tick P) (a : StreamAggregator P B) (held : Held P) :
    StreamPipeline P B × List (Job P) :=
  let a := a.closeUnits held.openUnits
  match a.tail config.streamPolicy with
  | none => (⟨none, none⟩, [])
  | some tail =>
      let fired : Fired := ⟨tick.clock.fired, tail⟩
      let late := a.unfolded.map Prod.snd
      let a := { a with unfolded := none }
      if late.isNone && a.proved < tail.start then
        let group := a.startGroup tick.tree ⟨a.proved, tail.start⟩
        (⟨some a, some (.late group fired)⟩, [.group group.witness])
      else
        let (closing, witness) := a.startFinal tick late fired
        (⟨some a, some (.final closing witness)⟩, [.final witness])

/-- Ask the trigger. -/
def trigger (config : Config 𝕜) (tick : Tick P) (a : StreamAggregator P B) :
    StreamPipeline P B × List (Job P) :=
  let held := a.held config.slotsPerEpoch tick.headSlot config.streamPolicy
  let a := a.observeCrossing held.balance tick.clock.reobserved
  let enough : Bool :=
    config.streamPolicy.targetBalance a.context.totalActiveBalance ≤ held.balance.toNat
  if enough && !(held.filling.isSome && tick.worthWaiting) then fire config tick a held
  else holdBack tick a held enough

/-- `EpochPipeline::drive`: one tick, and the witness it handed to the prover, if any. -/
def drive (config : Config 𝕜) (tick : Tick P) (s : StreamPipeline P B) :
    StreamPipeline P B × List (Job P) :=
  match prepare config tick s with
  | .over s jobs => (s, jobs)
  | .free a => trigger config tick a

/-- `EpochPipeline::forget` -/
def forget (_ : StreamPipeline P B) : StreamPipeline P B := ⟨none, none⟩

end StreamPipeline
end Zkasper.Streaming
