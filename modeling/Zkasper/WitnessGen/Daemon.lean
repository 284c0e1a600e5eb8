import Zkasper.WitnessGen.Finalizing
import Zkasper.WitnessGen.Speculation
import Zkasper.WitnessGen.Stream

/-! # The daemon

The loop over everything: one tick justifies the epoch the accumulator sits on, with one of the
two pipelines, or moves the accumulator to the next epoch. The engine below keeps the
snapshot; a pipeline opens an epoch through it, and notes in it what it has proved.

What a tick finds is its argument (`Found`). A tick that fails ends the process, and the next
one starts from the state file: every change of the snapshot is saved before the tick is over,
so between ticks the file is the snapshot, and a restart keeps it and drops all else
(`restarted`). The task that proves the next epoch ahead runs beside the ticks, and so does
the trigger's way of starting it.

`closed` is what has been published of the epochs whose state was saved. No code reads it. -/

namespace Zkasper.Daemon

open Library Panics Ssz Store
open Orchestrator (Engine EngineConfig OpenEpoch World)
open Orchestrator.Engine (Progress)
open Streaming (StreamPolicy)
open RemoteProver (Proof Stage)
open SszState (StateConfig)

/-! ## Configuration -/

/-- Which pipeline an epoch is proven with. -/
inductive Pipeline where
  | batch
  | streaming
deriving DecidableEq

/-- What a run is configured with. -/
structure OrchestratorConfig (𝕜 : Type) where
  slotsPerEpoch : UInt64
  fuluForkEpoch : UInt64
  validatorsTreeDepth : ℕ
  accTreeDepth : ℕ
  pollInterval : ℕ
  attestationLookaheadEpochs : UInt64
  slotGroupWidth : ℕ
  justificationFoldWidth : ℕ
  pipeline : Pipeline
  streamPolicy : StreamPolicy 𝕜
  /-- `program_vk` of the prover the run is started with. -/
  programVk : Stage → ProgramVk

namespace OrchestratorConfig

variable {𝕜 : Type} (config : OrchestratorConfig 𝕜)

/-- The part the states are parsed by. -/
def state : StateConfig := ⟨config.slotsPerEpoch, config.fuluForkEpoch⟩

/-- The part the engine reads. -/
def engine : EngineConfig :=
  ⟨⟨config.validatorsTreeDepth, config.slotsPerEpoch⟩, config.pollInterval⟩

/-- The part the batch pipeline reads. -/
def batch : Batch.Config where
  slotsPerEpoch := config.slotsPerEpoch
  attestationLookaheadEpochs := config.attestationLookaheadEpochs
  slotGroupWidth := config.slotGroupWidth
  justificationFoldWidth := config.justificationFoldWidth
  justificationProgramVk := config.programVk .justification

/-- The part the streaming pipeline reads. -/
def stream : Streaming.Config 𝕜 where
  slotsPerEpoch := config.slotsPerEpoch
  attestationLookaheadEpochs := config.attestationLookaheadEpochs
  accTreeDepth := config.accTreeDepth
  streamPolicy := config.streamPolicy

end OrchestratorConfig

/-! ## State -/

variable (P : Primitives)

/-- What one tick finds outside the daemon. -/
structure Found where
  /-- What the engine finds: the clock, the head, the boundaries, the chain, its prover. -/
  world : World P
  /-- Where headers and raw states come from. -/
  api : Boundary.Node P
  /-- `get_block_attestations`; none where the slot has no block. -/
  blocks : UInt64 → Option (List (AttestationResponse P))
  /-- The drains of the tick in order; none where there is no gossip source. -/
  gossip : Option (List (Streaming.Drain P))
  batchProver : Batch.Prover P
  streamProver : Streaming.Prover P
  proveFinalization : Batch.Finalizer P
  /-- Whether the proof in flight landed within the interval. -/
  landed : Bool
  /-- `StreamPolicy::worth_waiting` -/
  worthWaiting : Bool
  clock : Streaming.Clock
  /-- Whether the artifacts of this name could be written. -/
  write : String → Except String Unit
  /-- Whether what a pipeline notes could be saved. -/
  save : Except String Unit
  /-- Whether artifacts and state of a streamed epoch could be written. -/
  written : Bool

/-- What is published of an epoch that closed: its checkpoint, and the one it finalizes. -/
structure ClosedEpoch where
  checkpoint : Checkpoint P
  finalized : Option (Checkpoint P)

/-- The engine and the two pipelines. -/
structure State [Ord P.Bytes32] (B : Blst) where
  engine : Engine P
  batch : Batch.BatchPipeline P B
  stream : Streaming.StreamPipeline P B
  /-- The epochs that closed, newest first. -/
  closed : List (ClosedEpoch P)

variable {P} [Ord P.Bytes32] {B : Blst} {𝕜 : Type} [LinearOrder 𝕜] [AddCommGroup 𝕜]

/-- A daemon on a snapshot, with nothing in flight. -/
def State.opened (snapshot : Snapshot P) (closed : List (ClosedEpoch P)) : State P B :=
  ⟨Engine.opened snapshot, .empty, .empty, closed⟩

/-- The daemon after a restart: the file, and nothing else. -/
def State.restarted (d : State P B) : State P B := .opened d.engine.snapshot d.closed

/-- The engine, with what a pipeline notes in the state. -/
def noted (s : Engine P) (progress : Progress P) : Engine P :=
  { s with snapshot := { s.snapshot with state := progress.note s.snapshot.state } }

/-- An epoch is over without two thirds. -/
def givenUp (s : StoreState P) : Progress P where
  justifiedThrough := s.justifiedThrough
  attemptedEpoch := some s.cursorEpoch
  lastJustification := s.lastJustification
  lastStreamFinal := s.lastStreamFinal
  finalized := s.finalized

section Tick

variable (node : ℕ → BeaconApi P) (config : OrchestratorConfig 𝕜)

/-- The epoch the cursor sits on is opened, unless it is in flight. -/
def openCursor (found : Found P) (inFlight : Bool) (s : Engine P) :
    Except String (OpenEpoch P) × Engine P :=
  if inFlight then (.error "the epoch is in flight", s)
  else
    match Engine.openEpoch node config.engine found.world s.snapshot.state.cursorEpoch s with
    | .ok o s => (.ok o, s)
    | .error e s => (.error e, s)

/-- A panic ends the process as an error does. -/
def orPanicked {α : Type} (x : Outcome String α) : Except String α :=
  x.mapError fun
    | .error e => e
    | .panicked => "panicked"

/-! ## The batch pipeline -/

/-- What the batch pipeline opens an epoch with. -/
def batchOpening (state : StoreState P) (o : OpenEpoch P) : Batch.Opening P where
  targetRoot := o.targetRoot
  sourceRoot := o.sourceRoot
  signingDomain := o.signingDomain
  committees := o.committees
  committeeOutput := o.committeeOutput
  committeeProof := o.committeeProof
  accRoot := state.accRoot
  accCommitment := state.accCommitment
  totalActiveBalance := state.totalActiveBalance

def batchTick (found : Found P) (snapshot : Snapshot P) (opened : Except String (OpenEpoch P)) :
    Batch.Tick P where
  cursorEpoch := snapshot.state.cursorEpoch
  opening := opened.map (batchOpening snapshot.state)
  headSlot := found.world.headSlot
  blocks := found.blocks
  prover := found.batchProver
  tree := snapshot.tree
  write := found.write
  tryFinalize record := orPanicked <| Batch.tryFinalize found.api config.state
    found.proveFinalization (found.write "finalization") snapshot record
  save := found.save

/-- What is noted of an epoch that closed in a batch. -/
def batchClosed (s : StoreState P) (record : Batch.JustificationRecord P)
    (finalized : Option (Checkpoint P)) : Progress P where
  justifiedThrough := some s.cursorEpoch
  attemptedEpoch := some s.cursorEpoch
  lastJustification := some record.stored
  lastStreamFinal := s.lastStreamFinal
  finalized := finalized <|> s.finalized

/-- The checkpoint, as the store keeps it. -/
def stored (checkpoint : Batch.Checkpoint P) : Checkpoint P := ⟨checkpoint.epoch, checkpoint.root⟩

/-- `BatchPipeline::drive` -/
def driveBatch (found : Found P) (d : State P B) : State P B :=
  let state := d.engine.snapshot.state
  let (opened, engine) := openCursor node config found
    (d.batch.pending.any fun a => a.targetEpoch = state.cursorEpoch) d.engine
  match (d.batch.run config.batch (batchTick config found d.engine.snapshot opened)).result with
  | .ok (.justified record finalized) =>
      let finalized := finalized.map stored
      { d with
        engine := noted engine (batchClosed state record finalized)
        batch := .empty
        closed := ⟨⟨state.cursorEpoch, record.output.targetRoot⟩, finalized⟩ :: d.closed }
  | .ok (.gaveUpOn _) => { d with engine := noted engine (givenUp state), batch := .empty }
  | .ok (.waiting a) => { d with engine, batch := ⟨some a⟩ }
  | .error _ => d.restarted

/-! ## The streaming pipeline -/

/-- Whether the epoch the cursor sits on can be streamed: the epoch before it left a
justification and an epoch diff behind. -/
def canStream (state : StoreState P) : Bool :=
  state.lastEpochDiff.isSome && (state.previousJustification state.cursorEpoch).isSome

/-- What the streaming pipeline opens an epoch with. -/
def streamOpening (found : Found P) (snapshot : Snapshot P) (o : OpenEpoch P) :
    Except String (Streaming.Opening P) := do
  let state := snapshot.state
  let epochDiff ← Guest.expect state.lastEpochDiff
    "no epoch diff on record to open the epoch against"
  let (previous, previousProof) ← Guest.expect (state.previousJustification state.cursorEpoch)
    "no justification for the previous epoch to finalize"
  let boundary ← orPanicked <| Batch.withContext "open the boundary of the epoch being finalized" <|
    Boundary.build found.api config.state o.targetRoot previous.targetEpoch previous.targetRoot
      epochDiff.output.stateRoot1 snapshot.epochState
  return {
    targetRoot := o.targetRoot
    sourceRoot := o.sourceRoot
    signingDomain := o.signingDomain
    committees := o.committees
    committeeOutput := o.committeeOutput
    committeeProof := o.committeeProof
    accumulatorCommitment := state.accCommitment
    accRoot := state.accRoot
    totalActiveBalance := state.totalActiveBalance
    aggregateProgramVk := config.programVk .aggregate
    streamProgramVk := config.programVk .streamFinal
    epochDiff := epochDiff.output
    epochDiffProof := epochDiff.proof
    previous
    previousProof
    boundary }

def streamTick (found : Found P) (snapshot : Snapshot P) (opened : Except String (OpenEpoch P)) :
    Streaming.Tick P where
  cursorEpoch := snapshot.state.cursorEpoch
  opening := (opened.bind (streamOpening config found snapshot)).toOption
  headSlot := found.world.headSlot
  gossip := found.gossip
  blocks := found.blocks
  landed := found.landed
  prover := found.streamProver
  written := found.written
  checkpointRoot := (found.world.checkpointRoot snapshot.state.cursorEpoch).toOption
  worthWaiting := found.worthWaiting
  tree := snapshot.tree
  clock := found.clock

omit [LinearOrder 𝕜] [AddCommGroup 𝕜] in
/-- The final proof a tick adopts, and the checkpoint it is of: it has landed, it is written
down, and the chain still has the checkpoint. -/
def adopted (config : Streaming.Config 𝕜) (tick : Streaming.Tick P)
    (s : Streaming.StreamPipeline P B) : Option (P.Bytes32 × StreamFinalOutput P × Proof) := do
  let a ← s.aggregator.filter fun a => a.context.targetEpoch = tick.cursorEpoch
  let (a, _) ← (Streaming.StreamPipeline.takeArrivals config tick a s.pending).toOption
  match s.pending with
  | some (.final _ witness) =>
      if tick.landed then do
        let (output, proof) ← (tick.prover.proveStreamFinal witness).toOption
        if tick.written ∧ tick.checkpointRoot = some a.context.targetRoot then
          some (a.context.targetRoot, output, proof)
        else none
      else none
  | _ => none

/-- Whether the tick gives the epoch up: the trigger is asked and holds back, the epoch's slots
are over, and that could be saved. -/
def givesUp (config : Streaming.Config 𝕜) (tick : Streaming.Tick P)
    (s : Streaming.StreamPipeline P B) : Bool :=
  match Streaming.StreamPipeline.prepare config tick s with
  | .over .. => false
  | .free a =>
      let held := a.held config.slotsPerEpoch tick.headSlot config.streamPolicy
      let enough : Bool :=
        config.streamPolicy.targetBalance a.context.totalActiveBalance ≤ held.balance.toNat
      !(enough && !(held.filling.isSome && tick.worthWaiting)) &&
        a.exhausted tick.headSlot && tick.written

/-- Whether nothing keeps the prover busy: nothing was in flight, or a group that has landed. -/
def idle (tick : Streaming.Tick P) : Option (Streaming.Pending P) → Bool
  | none => true
  | some (.group group) =>
      tick.landed && (Streaming.StreamAggregator.finishGroup tick group).toOption.isSome
  | some _ => false

/-- Whether the tick finds that the checkpoint was reorged out from under this epoch, with this in
flight. A checkpoint that cannot be read is an error, and no answer. -/
def reorgedUnder (config : Streaming.Config 𝕜) (tick : Streaming.Tick P)
    (a : Streaming.StreamAggregator P B) (pending : Option (Streaming.Pending P)) : Bool :=
  match Streaming.StreamPipeline.takeArrivals config tick a pending with
  | .error _ => false
  | .ok (a, _) => idle tick pending && a.reorged &&
      tick.checkpointRoot.any fun root => root ≠ a.context.targetRoot

/-- Whether the tick drops the epoch it is in, or has just opened. -/
def reopens (config : Streaming.Config 𝕜) (tick : Streaming.Tick P)
    (s : Streaming.StreamPipeline P B) : Bool :=
  match s.aggregator.filter fun a => a.context.targetEpoch = tick.cursorEpoch with
  | some a => reorgedUnder config tick a s.pending
  | none => tick.opening.any fun o =>
      let opened : Streaming.StreamAggregator P B :=
        Streaming.StreamPipeline.openEpoch config tick.cursorEpoch o
      reorgedUnder config tick opened none

/-- What is noted of an epoch that closed on a stream. -/
def streamClosed (s : StoreState P) (record : Record (StreamFinalOutput P)) : Progress P where
  justifiedThrough := some s.cursorEpoch
  attemptedEpoch := some s.cursorEpoch
  lastJustification := s.lastJustification
  lastStreamFinal := some record
  finalized := some ⟨record.output.finalizedEpoch, record.output.finalizedRoot⟩

/-- `StreamPipeline::drive`. A tick that fails leaves an empty pipeline; the restart that follows
it is an event of its own. -/
def driveStream (found : Found P) (d : State P B) : State P B :=
  let state := d.engine.snapshot.state
  let (opened, engine) := openCursor node config found
    (d.stream.aggregator.any fun a => a.context.targetEpoch = state.cursorEpoch) d.engine
  let tick := streamTick config found d.engine.snapshot opened
  let stream := (d.stream.drive config.stream tick).1
  match adopted config.stream tick d.stream with
  | some (targetRoot, output, proof) =>
      { d with
        engine := noted engine (streamClosed state ⟨output, proof⟩)
        stream
        closed := ⟨⟨state.cursorEpoch, targetRoot⟩,
          some ⟨output.finalizedEpoch, output.finalizedRoot⟩⟩ :: d.closed }
  | none =>
      if reopens config.stream tick d.stream then
        -- the committees ahead were summed out of a boundary that may have moved
        { d with engine := { engine with ahead := engine.ahead.forget }, stream }
      else if givesUp config.stream tick d.stream then
        { d with engine := noted engine (givenUp state), stream }
      else { d with engine, stream }

/-! ## One tick -/

/-- Move the accumulator to the next epoch, and drop whatever is part-built: every proof in an
epoch is bound to the accumulator it opened against. Nothing comes of it as long as the task
that proves the next epoch ahead has not ended. -/
def advance (found : Found P) (d : State P B) : Option (State P B) :=
  (Engine.advanceAccumulator node config.engine found.world
    (d.engine.snapshot.state.cursorEpoch + 1) d.engine).map fun engine =>
      match found.world.save engine.snapshot with
      | .ok () => { d with engine, batch := d.batch.forget, stream := d.stream.forget }
      | .error _ => d.restarted

/-- One unit of work: justify the epoch the accumulator sits on, or move the accumulator to the
next one. -/
def tickOnce (found : Found P) (d : State P B) : Option (State P B) :=
  let state := d.engine.snapshot.state
  -- `needs_justification`
  if state.attemptedEpoch ≠ some state.cursorEpoch then
    if config.pipeline = .streaming ∧ canStream state then some (driveStream node config found d)
    else some (driveBatch node config found d)
  else if state.cursorEpoch + 1 ≤ found.world.headSlot / config.slotsPerEpoch then
    advance node config found d
  else some d

end Tick

/-! ## Runs -/

/-- What can happen next. -/
inductive Event (P : Primitives) where
  | tick (found : Found P)
  /-- The trigger holds back, and has the next epoch proved ahead. -/
  | speculate (world : World P)
  /-- The task in flight runs to its end, on what the prover answers it. -/
  | complete (prover : Orchestrator.Prover P)
  /-- The task in flight is gone. -/
  | fail (error : String)
  /-- The process ends, and is started again. -/
  | restart

/-- A step of the daemon, or of the task in flight. -/
def step (node : ℕ → BeaconApi P) (config : OrchestratorConfig 𝕜) (d : State P B) :
    Event P → Option (State P B)
  | .tick found => tickOnce node config found d
  | .speculate world => some { d with
      engine := Engine.speculate node config.engine world (d.engine.snapshot.state.cursorEpoch + 1)
        d.engine }
  | .complete prover =>
      (d.engine.join fun task => .ok (Orchestrator.proveAhead config.engine.toDiffConfig prover
        task)).map fun engine => { d with engine }
  | .fail error => (d.engine.join fun _ => .error error).map fun engine => { d with engine }
  | .restart => some d.restarted

end Zkasper.Daemon
