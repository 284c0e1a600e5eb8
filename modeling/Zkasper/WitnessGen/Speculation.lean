import Zkasper.Library.Effects
import Zkasper.Library.Transition
import Zkasper.WitnessGen.BoundaryCache
import Zkasper.WitnessGen.RemoteProver
import Zkasper.WitnessGen.Store

/-! # Proving the next epoch ahead

The diff that opens an epoch and the epoch's committees are proved while the epoch before it
is still collecting. The engine builds the diff on a clone of the accumulator tree and hands
it to a task (`spawn`); the task proves it, builds the committees on the tree it left and
proves those. The two halves are taken at different moments: the diff when the accumulator
moves (`advanceAccumulator`), the committees when the epoch opens on the tick after
(`openEpoch`). In between the chain can reorg, the task can fail, and another epoch can be
started.

A half is found again by an epoch and a commitment, and a registry that does not change has
one commitment for many epochs. So what a half was made from is carried along with it
(`Task`), which no code reads; in every run it is what the one who takes the half asks for.

The node and the prover answer as they like, and differently every time they are asked: what
a call finds is its argument (`World`), and the node is one for every moment. Metrics, timings
and the files of the boundary cache are left out. -/

namespace Zkasper.Orchestrator

open Library Transition Store Boundaries
open RemoteProver (Stage Proof)

variable {P : Primitives}

instance : DecidableEq (CommitteeOutput P)
  | ⟨a, b, c⟩, ⟨a', b', c'⟩ =>
      decidable_of_iff (a = a' ∧ b = b' ∧ c = c') (by rw [CommitteeOutput.mk.injEq])

/-! ## What a task makes -/

/-- The part of the prover that opens an epoch: an answer, or why there is none. -/
structure Prover (P : Primitives) where
  proveEpochDiff : EpochDiffWitness P → Except String (EpochDiffOutput P × Proof)
  proveCommittee : CommitteeWitness P → Except String (CommitteeOutput P × Proof)
  /-- The outputs are those of the circuit, which every prover runs. -/
  circuit : ∀ {witness output proof}, proveEpochDiff witness = .ok (output, proof) →
    ∃ sszDepth accDepth, verifyEpochDiffWithDepth witness sszDepth accDepth = .ok output

/-- The registry of a boundary. -/
def registry (inputs : BoundaryInputs) : List ValidatorResponse :=
  inputs.validators.map (·.toValidatorResponse)

/-- What a task is started on. The code hands over the epoch, the diff and the boundary it
leads to; the rest says where they come from. -/
structure Task (P : Primitives) where
  /-- How many tasks were started before it. -/
  number : ℕ
  /-- The snapshot it starts from, and the boundary that one sits on. -/
  start : Snapshot P
  held : BoundaryInputs
  /-- When the node was asked. -/
  moment : ℕ
  epoch : UInt64
  /-- The witness, the tree, the epoch state, the total and the count. -/
  diff : HeldDiff P
  boundary : BoundaryInputs

/-- The epoch diff that opens an epoch, proved before the cursor reached it. -/
structure AheadDiff (P : Primitives) where
  task : Task P
  witness : EpochDiffWitness P
  output : EpochDiffOutput P
  proof : Proof
  /-- The accumulator this diff produced, ready to be adopted whole. -/
  tree : AccTree P
  epochState : EpochState P
  numValidators : UInt64

/-- An epoch's committee proof, made before the epoch opened. -/
structure AheadCommittee (P : Primitives) where
  task : Task P
  committees : EpochCommittees P
  output : CommitteeOutput P
  proof : Proof

/-- Both halves, as the task returns them. -/
structure Ahead (P : Primitives) where
  diff : AheadDiff P
  committee : AheadCommittee P

/-- What a task can end in: it returned, it failed, or it never finished. -/
abbrev Joined (P : Primitives) := Except String (Except String (Ahead P))

/-- A task, and what it ended in if it has. -/
structure JoinHandle (P : Primitives) where
  task : Task P
  joined : Option (Joined P)

/-- Prove the diff that opens an epoch and then that epoch's committees, against the
accumulator the diff just produced. -/
def proveAhead (config : DiffConfig) (prover : Prover P) (task : Task P) :
    Except String (Ahead P) := do
  let (output, proof) ← prover.proveEpochDiff task.diff.witness
  Guest.assert (output.accRoot = task.diff.accTree.root)
    s!"epoch diff circuit disagrees with the host accumulator tree at epoch {task.epoch}"
  Guest.assert (output.totalActiveBalance = task.diff.totalActiveBalance)
    s!"epoch diff circuit disagrees on the total active balance at epoch {task.epoch}"
  let committees ← EpochCommittees.build task.boundary.committees (registry task.boundary)
    task.diff.accTree config.slotsPerEpoch task.epoch task.epoch task.diff.totalActiveBalance
  let (committeeOutput, committeeProof) ← prover.proveCommittee committees.witness
  Guest.assert (committeeOutput = committees.output)
    s!"committee circuit disagrees with the host committee tree at epoch {task.epoch}"
  return {
    diff := {
      task
      witness := task.diff.witness
      output
      proof
      tree := task.diff.accTree
      epochState := task.diff.epochState
      numValidators := task.diff.numValidators }
    committee := ⟨task, committees, committeeOutput, committeeProof⟩ }

/-! ## What is in flight or held -/

/-- The next epoch's opening proofs: one in flight, or one half-consumed. -/
structure Speculation (P : Primitives) where
  /-- The epoch being proved ahead, the accumulator commitment the diff starts from, and the
  task proving it. -/
  running : Option (UInt64 × P.Digest × JoinHandle P) := none
  /-- The committee half, kept back for the `openEpoch` that wants it. -/
  committee : Option (UInt64 × P.Digest × AheadCommittee P) := none
  /-- When a start was last attempted. -/
  attempted : Option ℕ := none

namespace Speculation

variable (s : Speculation P)

/-- Whether an epoch is already proved ahead or being proved ahead. -/
def covers (epoch : UInt64) : Bool :=
  s.running.any (·.1 = epoch) || s.committee.any (·.1 = epoch)

/-- Whether enough time has passed to try starting one again, recording the attempt if so. -/
def mayAttempt (interval now : ℕ) : Bool × Speculation P :=
  if s.attempted.any (now - · < interval) then (false, s)
  else (true, { s with attempted := some now })

/-- Drop whatever is in flight or held. -/
def forget : Speculation P := { s with running := none, committee := none }

def start (epoch : UInt64) (fromCommitment : P.Digest) (handle : JoinHandle P) :
    Speculation P :=
  { s.forget with running := some (epoch, fromCommitment, handle) }

/-- The diff that opens an epoch, if this is proving one and it starts where the accumulator
now stands. Nothing comes of it as long as the task has not ended. -/
def takeDiff (epoch : UInt64) (commitment : P.Digest) :
    Option (Option (AheadDiff P) × Speculation P) :=
  match s.running with
  | none => some (none, s)
  | some (startedFor, fromCommitment, handle) =>
      if startedFor ≠ epoch ∨ fromCommitment ≠ commitment then some (none, s.forget)
      else match handle.joined with
        | none => none
        | some (.ok (.ok ahead)) =>
            some (some ahead.diff, { s with
              running := none
              committee := some (epoch, ahead.diff.output.accumulatorCommitment,
                ahead.committee) })
        | some _ => some (none, { s with running := none })

/-- The committee proof of an epoch, if one was made ahead against the accumulator the epoch
is actually opening on. -/
def takeCommittee (epoch : UInt64) (commitment : P.Digest) :
    Option (AheadCommittee P) × Speculation P :=
  match s.committee with
  | none => (none, s)
  | some (madeFor, committedTo, committee) =>
      if madeFor ≠ epoch ∨ committedTo ≠ commitment then (none, { s with committee := none })
      else (some committee, { s with committee := none })

end Speculation

/-! ## The engine -/

/-- What the engine does that is seen outside, and, for the record of a run, what it took of
what was made ahead. -/
inductive Entry (P : Primitives) where
  /-- A stage is announced before it runs. -/
  | begun (stage : Stage) (epoch : UInt64)
  | witness (stage : Stage) (epoch : UInt64)
  | proof (stage : Stage) (epoch : UInt64)
  | saved (snapshot : Snapshot P)
  | recorded (stage : Stage) (epoch : UInt64)
  | tookDiff (diff : AheadDiff P) (epoch : UInt64) (commitment : P.Digest)
  | tookCommittee (committee : AheadCommittee P) (epoch : UInt64) (commitment : P.Digest)

/-- Whether something is written: to the sink, the store or the manifest. -/
def Entry.writes : Entry P → Bool
  | .witness .. | .proof .. | .saved _ | .recorded .. => true
  | .begun .. | .tookDiff .. | .tookCommittee .. => false

structure Engine (P : Primitives) where
  snapshot : Snapshot P
  ahead : Speculation P
  log : List (Entry P)
  /-- Tasks started so far. -/
  spawned : ℕ

/-- What a call finds: the clock, the head, the boundaries, what the chain and the prover
answer, and whether what is written can be. -/
structure World (P : Primitives) where
  moment : ℕ
  headSlot : UInt64
  boundaryAt : UInt64 → Except String BoundaryInputs
  checkpointRoot : UInt64 → Except String P.Bytes32
  signingDomain : UInt64 → Except String P.Bytes32
  prover : Prover P
  writeWitness : Stage → UInt64 → Except String Unit
  writeProof : Stage → UInt64 → Except String Unit
  save : Snapshot P → Except String Unit

/-- The part of the configuration the engine reads. -/
structure EngineConfig extends DiffConfig where
  pollInterval : ℕ

/-- Everything an epoch needs before its first proof, but for the stream that collects it. -/
structure OpenEpoch (P : Primitives) where
  targetRoot : P.Bytes32
  sourceRoot : P.Bytes32
  signingDomain : P.Bytes32
  committees : EpochCommittees P
  committeeOutput : CommitteeOutput P
  committeeProof : Proof

namespace Engine

/-- A step of the engine: it may fail, and what it has done by then stays done. -/
abbrev Op (P : Primitives) (α : Type) := EStateM String (Engine P) α

def tell (entry : Entry P) : Op P Unit := modify fun s => { s with log := s.log ++ [entry] }

/-- Put something where it lasts. -/
def write (entry : Entry P) (result : Except String Unit) : Op P Unit := do
  tell entry
  attempt result

/-- Persist a proof next to the witness it proves: nothing where there are no words. -/
def writeProof (w : World P) (stage : Stage) (epoch : UInt64) (proof : Proof) : Op P Unit :=
  if proof = [] then pure ()
  else write (.proof stage epoch) (w.writeProof stage epoch)

/-- In memory first, then to disk. -/
def commit (w : World P) (snapshot : Snapshot P) : Op P Unit := do
  modify fun s => { s with snapshot }
  write (.saved snapshot) (w.save snapshot)

/-! ### Starting -/

section Start

variable (node : ℕ → BeaconApi P) (config : EngineConfig)

/-- Build an epoch's diff on a clone of the tree, from the boundary the accumulator sits on to
the one the epoch opens on. -/
def buildDiff (w : World P) (snapshot : Snapshot P) (held1 held2 : BoundaryInputs)
    (toEpoch : UInt64) : Except String (HeldDiff P) :=
  buildHeld (node w.moment) config.toDiffConfig snapshot.tree snapshot.epochState
    (registry held1) (registry held2) (toEpoch * config.slotsPerEpoch)
    snapshot.state.totalActiveBalance

/-- Build the next epoch's diff witness here, and hand it and the committees that follow from
it to a task of their own. -/
def startSpeculation (w : World P) (nextEpoch : UInt64) : Op P Unit := do
  let slot2 := nextEpoch * config.slotsPerEpoch
  if w.headSlot < slot2 then return ()
  else do
    let s ← get
    let held1 ← attempt ((w.boundaryAt s.snapshot.epochState.slot).mapError fun _ =>
      "open the boundary the accumulator sits on")
    let held2 ← attempt ((w.boundaryAt slot2).mapError fun _ =>
      "open the boundary the next epoch opens on")
    let diff ← attempt ((buildDiff node config w s.snapshot held1 held2 nextEpoch).mapError fun _ =>
      "build the next epoch's diff witness")
    attempt <| Guest.assert
      (diff.witness.epoch1 = s.snapshot.state.cursorEpoch ∧ diff.witness.epoch2 = nextEpoch) <|
      s!"the next epoch's diff spans {diff.witness.epoch1} -> {diff.witness.epoch2}, " ++
      s!"but the accumulator is at {s.snapshot.state.cursorEpoch}"
    tell (.begun .epochDiff nextEpoch)
    tell (.begun .committee nextEpoch)
    modify fun s => { s with
      ahead := s.ahead.start nextEpoch s.snapshot.state.accCommitment
        ⟨⟨s.spawned, s.snapshot, held1, w.moment, nextEpoch, diff, held2⟩, none⟩
      spawned := s.spawned + 1 }

/-- Start proving the epoch after this one, if nothing is proving it. Never fatal. -/
def speculate (w : World P) (nextEpoch : UInt64) (s : Engine P) : Engine P :=
  if s.ahead.covers nextEpoch then s
  else
    let (attempts, ahead) := s.ahead.mayAttempt config.pollInterval w.moment
    if attempts then leave (startSpeculation node config w nextEpoch) { s with ahead }
    else { s with ahead }

end Start

/-! ### Advancing -/

section Advance

variable (node : ℕ → BeaconApi P) (config : EngineConfig)

/-- The call of `advance` that a proved diff makes. -/
def advanceCall (toEpoch : UInt64) (output : EpochDiffOutput P) (proof : Proof)
    (numValidators : UInt64) : StoreState.Advance P where
  toEpoch
  accRoot := output.accRoot
  commitment := output.accumulatorCommitment
  totalActiveBalance := output.totalActiveBalance
  numValidators
  epochDiff := some ⟨output, proof⟩

/-- Move the accumulator onto a diff that was proved before the cursor reached it. -/
def adoptDiff (w : World P) (toEpoch : UInt64) (ahead : AheadDiff P) : Op P Unit := do
  let s ← get
  attempt <| Guest.assert
    (ahead.output.prevAccumulatorCommitment = s.snapshot.state.accCommitment)
    "epoch diff does not start from the accumulator the cursor sits on"
  write (.witness .epochDiff toEpoch) (w.writeWitness .epochDiff toEpoch)
  writeProof w .epochDiff toEpoch ahead.proof
  let (moved, state) := s.snapshot.state.advance
    (advanceCall toEpoch ahead.output ahead.proof ahead.numValidators)
  attempt moved
  commit w ⟨state, ahead.tree, ahead.epochState⟩
  tell (.recorded .epochDiff toEpoch)

/-- Prove the diff on the critical path, and move the accumulator onto it. -/
def proveDiff (w : World P) (toEpoch : UInt64) : Op P Unit := do
  tell (.begun .epochDiff toEpoch)
  let s ← get
  let held1 ← attempt ((w.boundaryAt s.snapshot.epochState.slot).mapError fun _ =>
    "open the boundary state the accumulator sits on")
  let held2 ← attempt ((w.boundaryAt (toEpoch * config.slotsPerEpoch)).mapError fun _ =>
    "open the boundary state the accumulator is moving to")
  let diff ← attempt ((buildDiff node config w s.snapshot held1 held2 toEpoch).mapError fun _ =>
    "build epoch diff witness")
  attempt <| Guest.assert
    (diff.witness.epoch1 = s.snapshot.state.cursorEpoch ∧ diff.witness.epoch2 = toEpoch) <|
    s!"epoch diff spans {diff.witness.epoch1} -> {diff.witness.epoch2}, but the accumulator " ++
    s!"is at {s.snapshot.state.cursorEpoch} and must move to {toEpoch}"
  let (output, proof) ← attempt (w.prover.proveEpochDiff diff.witness)
  attempt <| Guest.assert (output.accRoot = diff.accTree.root)
    s!"epoch diff circuit disagrees with the host accumulator tree at epoch {toEpoch}"
  attempt <| Guest.assert (output.totalActiveBalance = diff.totalActiveBalance)
    s!"epoch diff circuit disagrees on the total active balance at epoch {toEpoch}"
  attempt <| Guest.assert (output.prevAccumulatorCommitment = s.snapshot.state.accCommitment)
    "epoch diff does not start from the accumulator the cursor sits on"
  let (moved, state) := s.snapshot.state.advance
    (advanceCall toEpoch output proof diff.numValidators)
  attempt moved
  write (.witness .epochDiff toEpoch) (w.writeWitness .epochDiff toEpoch)
  writeProof w .epochDiff toEpoch proof
  commit w ⟨state, diff.accTree, diff.epochState⟩
  tell (.recorded .epochDiff toEpoch)

/-- Move the accumulator onto an epoch: on the diff proved ahead, if there is one, else on
one proved now. -/
def advanceAccumulator (w : World P) (toEpoch : UInt64) (s : Engine P) : Option (Engine P) :=
  (s.ahead.takeDiff toEpoch s.snapshot.state.accCommitment).map fun (taken, ahead) =>
    match taken with
    | some diff => leave (adoptDiff w toEpoch diff) { s with
        ahead
        log := s.log ++ [.tookDiff diff toEpoch s.snapshot.state.accCommitment] }
    | none => leave (proveDiff node config w toEpoch) { s with ahead }

end Advance

/-! ### Opening an epoch -/

section Open

variable (node : ℕ → BeaconApi P) (config : EngineConfig)

/-- Record a committee proof made before its epoch opened as the stage it is. -/
def adoptCommittee (w : World P) (targetEpoch : UInt64) (ready : AheadCommittee P) :
    Op P (EpochCommittees P × CommitteeOutput P × Proof) := do
  write (.witness .committee targetEpoch) (w.writeWitness .committee targetEpoch)
  writeProof w .committee targetEpoch ready.proof
  tell (.recorded .committee targetEpoch)
  return (ready.committees, ready.output, ready.proof)

/-- Prove the epoch's committees, summed out of the accumulator as it stands. -/
def proveCommittee (w : World P) (targetEpoch : UInt64) (boundary : BoundaryInputs) :
    Op P (EpochCommittees P × CommitteeOutput P × Proof) := do
  tell (.begun .committee targetEpoch)
  let s ← get
  let committees ← attempt <| EpochCommittees.build boundary.committees (registry boundary)
    s.snapshot.tree config.slotsPerEpoch targetEpoch targetEpoch
    s.snapshot.state.totalActiveBalance
  let (output, proof) ← attempt (w.prover.proveCommittee committees.witness)
  attempt <| Guest.assert (output = committees.output)
    s!"committee circuit disagrees with the host committee tree at epoch {targetEpoch}"
  write (.witness .committee targetEpoch) (w.writeWitness .committee targetEpoch)
  writeProof w .committee targetEpoch proof
  tell (.recorded .committee targetEpoch)
  return (committees, output, proof)

/-- Take what was made ahead of an epoch for it. -/
def takeCommittee (targetEpoch : UInt64) : Op P (Option (AheadCommittee P)) := do
  let s ← get
  let commitment := s.snapshot.state.accCommitment
  let (taken, ahead) := s.ahead.takeCommittee targetEpoch commitment
  modify fun s => { s with
    ahead
    log := s.log ++ (taken.map (.tookCommittee · targetEpoch commitment)).toList }
  return taken

/-- Resolve the epoch and prove its committees, against the accumulator as it stands. -/
def openEpoch (w : World P) (targetEpoch : UInt64) : Op P (OpenEpoch P) := do
  let targetRoot ← attempt (w.checkpointRoot targetEpoch)
  let sourceRoot ← attempt (w.checkpointRoot (if targetEpoch = 0 then 0 else targetEpoch - 1))
  let signingDomain ← attempt (w.signingDomain targetEpoch)
  let boundary ← attempt ((w.boundaryAt (targetEpoch * config.slotsPerEpoch)).mapError fun _ =>
    s!"open the boundary state of epoch {targetEpoch}")
  let taken ← takeCommittee targetEpoch
  let (committees, committeeOutput, committeeProof) ← match taken with
    | some ready => adoptCommittee w targetEpoch ready
    | none => proveCommittee config w targetEpoch boundary
  modify (speculate node config w (targetEpoch + 1))
  return { targetRoot, sourceRoot, signingDomain, committees, committeeOutput, committeeProof }

end Open

/-! ### Runs -/

/-- What the pipelines write down about an epoch they have proved. -/
structure Progress (P : Primitives) where
  justifiedThrough : Option UInt64
  attemptedEpoch : Option UInt64
  lastJustification : Option (Record (JustificationOutput P))
  lastStreamFinal : Option (Record (StreamFinalOutput P))
  finalized : Option (Checkpoint P)

/-- The state after a pipeline's note. -/
def Progress.note (p : Progress P) (s : StoreState P) : StoreState P :=
  { s with
    justifiedThrough := p.justifiedThrough
    attemptedEpoch := p.attemptedEpoch
    lastJustification := p.lastJustification
    lastStreamFinal := p.lastStreamFinal
    finalized := p.finalized }

/-- What can happen next. -/
inductive Event (P : Primitives) where
  | speculate (w : World P) (nextEpoch : UInt64)
  | start (w : World P) (nextEpoch : UInt64)
  /-- The task in flight runs to its end, on what the prover answers it. -/
  | complete (prover : Prover P)
  /-- The task in flight is gone. -/
  | fail (error : String)
  | forget
  | advance (w : World P) (toEpoch : UInt64)
  | openEpoch (w : World P) (targetEpoch : UInt64)
  | note (progress : Progress P)

/-- What the task in flight ends in. -/
def join (s : Engine P) (outcome : Task P → Joined P) : Option (Engine P) :=
  match s.ahead.running with
  | some (epoch, fromCommitment, ⟨task, none⟩) => some { s with
      ahead := { s.ahead with running := some (epoch, fromCommitment,
        ⟨task, some (outcome task)⟩) } }
  | _ => none

/-- A step of the engine, or of the task in flight. -/
def step (node : ℕ → BeaconApi P) (config : EngineConfig) (s : Engine P) :
    Event P → Option (Engine P)
  | .speculate w nextEpoch => some (speculate node config w nextEpoch s)
  | .start w nextEpoch => some (leave (startSpeculation node config w nextEpoch) s)
  | .complete prover => s.join fun task => .ok (proveAhead config.toDiffConfig prover task)
  | .fail error => s.join fun _ => .error error
  | .forget => some { s with ahead := s.ahead.forget }
  | .advance w toEpoch => advanceAccumulator node config w toEpoch s
  | .openEpoch w targetEpoch => some (leave (openEpoch node config w targetEpoch) s)
  | .note progress => some { s with
      snapshot := { s.snapshot with state := progress.note s.snapshot.state } }

/-- The engine on a snapshot, with nothing ahead of it. -/
def opened (snapshot : Snapshot P) : Engine P := ⟨snapshot, {}, [], 0⟩

end Engine

end Zkasper.Orchestrator
