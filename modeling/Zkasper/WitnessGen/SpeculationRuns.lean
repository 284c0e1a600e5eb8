import Zkasper.WitnessGen.Speculation

/-! # What is in flight or held

Every change of the accumulator takes whatever is in flight with it, so a task in flight was
started on the snapshot the engine still has, but for what the pipelines noted since. That is
the invariant (`Engine.Sound`), and it needs the epoch as well as the commitment, which may
repeat.

The committee half is kept under the commitment the circuit put out, which is that of the
tree the committees were summed out of: the task compared the root and the total before it
built them. -/

namespace Zkasper.Orchestrator

open Library Transition Store Boundaries
open RemoteProver (Stage Proof)

variable {P : Primitives}

/-! ## What a half was made from -/

section Made

variable (node : ℕ → BeaconApi P) (config : EngineConfig)

/-- One snapshot is another one, but for what the pipelines have noted since. -/
def Noted (before after : Snapshot P) : Prop :=
  ∃ progress : Engine.Progress P,
    after = { before with state := progress.note before.state }

/-- **A task was started** for an epoch, on a snapshot with a commitment: its diff is the one
from the boundary the snapshot sits on to the boundary of the epoch. -/
structure Task.Started (task : Task P) (epoch : UInt64) (commitment : P.Digest) : Prop where
  epoch_eq : task.epoch = epoch
  commitment_eq : task.start.state.accCommitment = commitment
  built : buildHeld (node task.moment) config.toDiffConfig task.start.tree
    task.start.epochState (registry task.held) (registry task.boundary)
    (epoch * config.slotsPerEpoch) task.start.state.totalActiveBalance = .ok task.diff
  epoch1 : task.diff.witness.epoch1 = task.start.state.cursorEpoch
  epoch2 : task.diff.witness.epoch2 = epoch
  /-- One slot has one boundary. -/
  oneBoundary : task.start.epochState.slot = epoch * config.slotsPerEpoch →
    task.held = task.boundary

/-- **A diff was made** for an epoch, from the snapshot with a commitment. -/
structure AheadDiff.Made (diff : AheadDiff P) (epoch : UInt64) (commitment : P.Digest) :
    Prop where
  started : diff.task.Started node config epoch commitment
  proved : ∃ prover committee,
    proveAhead config.toDiffConfig prover diff.task = .ok ⟨diff, committee⟩

/-- **A committee proof was made** for an epoch, on the accumulator with a commitment. -/
structure AheadCommittee.Made (committee : AheadCommittee P) (epoch : UInt64)
    (commitment : P.Digest) : Prop where
  started : ∃ fromCommitment, committee.task.Started node config epoch fromCommitment
  commitment_eq : P.commitment committee.task.diff.accTree.root
    committee.task.diff.totalActiveBalance = commitment
  built : EpochCommittees.build committee.task.boundary.committees
    (registry committee.task.boundary) committee.task.diff.accTree config.slotsPerEpoch epoch
    epoch committee.task.diff.totalActiveBalance = .ok committee.committees
  output : committee.output = committee.committees.output

theorem Noted.refl (snapshot : Snapshot P) : Noted snapshot snapshot :=
  ⟨⟨snapshot.state.justifiedThrough, snapshot.state.attemptedEpoch,
    snapshot.state.lastJustification, snapshot.state.lastStreamFinal, snapshot.state.finalized⟩,
    rfl⟩

theorem Noted.note {before after : Snapshot P} (h : Noted before after)
    (progress : Engine.Progress P) :
    Noted before { after with state := progress.note after.state } := by
  obtain ⟨_, rfl⟩ := h
  exact ⟨progress, rfl⟩

end Made

section Proved

variable {config : DiffConfig} {prover : Prover P} {task : Task P} {ahead : Ahead P}

/-- **What a task that returned has checked.** -/
theorem proveAhead_eq_ok (h : proveAhead config prover task = .ok ahead) :
    ahead.diff.task = task ∧ ahead.diff.witness = task.diff.witness ∧
      ahead.diff.tree = task.diff.accTree ∧ ahead.diff.epochState = task.diff.epochState ∧
      ahead.diff.numValidators = task.diff.numValidators ∧
      prover.proveEpochDiff task.diff.witness = .ok (ahead.diff.output, ahead.diff.proof) ∧
      ahead.diff.output.accRoot = task.diff.accTree.root ∧
      ahead.diff.output.totalActiveBalance = task.diff.totalActiveBalance ∧
      ahead.committee.task = task ∧
      EpochCommittees.build task.boundary.committees (registry task.boundary)
        task.diff.accTree config.slotsPerEpoch task.epoch task.epoch
        task.diff.totalActiveBalance = .ok ahead.committee.committees ∧
      ahead.committee.output = ahead.committee.committees.output := by
  simp only [proveAhead, Guest.bind_eq_ok, Guest.assert_eq_ok, Guest.pure_eq_ok,
    exists_const] at h
  obtain ⟨⟨output, proof⟩, hproved, hroot, htotal, committees, hbuilt, ⟨_, _⟩, -, hsame, rfl⟩ := h
  exact ⟨rfl, rfl, rfl, rfl, rfl, hproved, hroot, htotal, rfl, hbuilt, hsame⟩

/-- **The circuit's commitment** is that of the tree the diff left. -/
theorem commitment_of_proveAhead (h : proveAhead config prover task = .ok ahead) :
    P.commitment task.diff.accTree.root task.diff.totalActiveBalance =
      ahead.diff.output.accumulatorCommitment := by
  obtain ⟨-, -, -, -, -, hproved, hroot, htotal, -⟩ := proveAhead_eq_ok h
  obtain ⟨sszDepth, accDepth, hcircuit⟩ := prover.circuit hproved
  rw [← hroot, ← htotal]
  exact (verifyEpochDiff_commitments hcircuit).2.symm

end Proved

/-! ## What a step leaves alone -/

/-- An entry is about one stage of one epoch. -/
def Entry.Of (stage : Stage) (epoch : UInt64) : Entry P → Prop
  | .begun s e | .witness s e | .proof s e | .recorded s e => s = stage ∧ e = epoch
  | .saved snapshot => stage = .epochDiff ∧ snapshot.state.cursorEpoch = epoch
  | .tookDiff .. | .tookCommittee .. => False

/-- The task whose diff was taken, where one was. -/
def Entry.diffTask : Entry P → Option ℕ
  | .tookDiff diff _ _ => some diff.task.number
  | _ => none

/-- The task whose committees were taken, where they were. -/
def Entry.committeeTask : Entry P → Option ℕ
  | .tookCommittee committee _ _ => some committee.task.number
  | _ => none

namespace Engine

/-- The tasks whose diffs were taken, in order. -/
def diffsTaken (s : Engine P) : List ℕ := s.log.filterMap Entry.diffTask

/-- The tasks whose committees were taken, in order. -/
def committeesTaken (s : Engine P) : List ℕ := s.log.filterMap Entry.committeeTask

/-- **Nothing ahead is touched**, and what is logged is about one stage of one epoch. -/
structure Stays (stage : Stage) (epoch : UInt64) (s s' : Engine P) : Prop where
  ahead : s'.ahead = s.ahead
  spawned : s'.spawned = s.spawned
  log : ∃ new, s'.log = s.log ++ new ∧ ∀ entry ∈ new, entry.Of stage epoch

/-- And the snapshot stays as well. -/
structure Rests (stage : Stage) (epoch : UInt64) (s s' : Engine P) : Prop
    extends Stays stage epoch s s' where
  snapshot : s'.snapshot = s.snapshot

section Frame

variable {stage : Stage} {epoch : UInt64} {s s' : Engine P}

instance : IsPreorder (Engine P) (Stays stage epoch) where
  refl _ := ⟨rfl, rfl, [], (List.append_nil _).symm, by simp⟩
  trans a b c hab hbc := by
    obtain ⟨ahead, spawned, new, hlog, hnew⟩ := hab
    obtain ⟨ahead', spawned', new', hlog', hnew'⟩ := hbc
    refine ⟨ahead'.trans ahead, spawned'.trans spawned, new ++ new', ?_, ?_⟩
    · rw [hlog', hlog, List.append_assoc]
    · intro entry hentry
      exact (List.mem_append.mp hentry).elim (hnew entry) (hnew' entry)

instance : IsPreorder (Engine P) (Rests stage epoch) where
  refl s := ⟨refl s, rfl⟩
  trans _ _ _ hab hbc :=
    ⟨IsTrans.trans _ _ _ hab.toStays hbc.toStays, hbc.snapshot.trans hab.snapshot⟩

theorem Stays.diffsTaken (h : Stays stage epoch s s') : s'.diffsTaken = s.diffsTaken := by
  obtain ⟨-, -, new, hlog, hnew⟩ := h
  have hnone : new.filterMap Entry.diffTask = [] := by
    apply List.filterMap_eq_nil_iff.mpr
    intro entry hentry
    cases entry with
    | tookDiff => exact (hnew _ hentry).elim
    | _ => rfl
  rw [Engine.diffsTaken, Engine.diffsTaken, hlog, List.filterMap_append, hnone, List.append_nil]

theorem Stays.committeesTaken (h : Stays stage epoch s s') :
    s'.committeesTaken = s.committeesTaken := by
  obtain ⟨-, -, new, hlog, hnew⟩ := h
  have hnone : new.filterMap Entry.committeeTask = [] := by
    apply List.filterMap_eq_nil_iff.mpr
    intro entry hentry
    cases entry with
    | tookCommittee => exact (hnew _ hentry).elim
    | _ => rfl
  rw [Engine.committeesTaken, Engine.committeesTaken, hlog, List.filterMap_append, hnone,
    List.append_nil]

theorem moves_tell {entry : Entry P} (h : entry.Of stage epoch) :
    Moves (Rests stage epoch) (tell entry) :=
  Moves.modify fun s => ⟨⟨rfl, rfl, [entry], rfl, by simpa using h⟩, rfl⟩

theorem moves_write {entry : Entry P} (h : entry.Of stage epoch) (result : Except String Unit) :
    Moves (Rests stage epoch) (write entry result) :=
  (moves_tell h).bind fun _ => .attempt result

theorem moves_writeProof (w : World P) (proof : Proof) :
    Moves (Rests stage epoch) (writeProof w stage epoch proof) := by
  unfold writeProof
  split
  · exact .pure ()
  · exact moves_write (by exact ⟨rfl, rfl⟩) _

/-- What is written of a stage, and that it is recorded. -/
theorem moves_record {α : Type} (w : World P) (proof : Proof) (a : α) :
    Moves (Rests stage epoch) (do
      write (.witness stage epoch) (w.writeWitness stage epoch)
      writeProof w stage epoch proof
      tell (.recorded stage epoch)
      return a) := by
  refine (moves_write (by exact ⟨rfl, rfl⟩) _).bind fun _ => ?_
  refine (moves_writeProof w proof).bind fun _ => ?_
  exact (moves_tell (by exact ⟨rfl, rfl⟩)).bind fun _ => .pure a

theorem stays_of_rests {α : Type} {x : Op P α} (h : Moves (Rests stage epoch) x) :
    Moves (Stays stage epoch) x :=
  h.mono fun _ _ hs => hs.toStays

theorem moves_commit (w : World P) {snapshot : Snapshot P}
    (h : snapshot.state.cursorEpoch = epoch) :
    Moves (Stays .epochDiff epoch) (commit w snapshot) := by
  refine Moves.bind (Moves.modify fun s => ?_) fun _ =>
    stays_of_rests (moves_write (by exact ⟨rfl, h⟩) _)
  exact ⟨rfl, rfl, [], (List.append_nil _).symm, by simp⟩

end Frame

/-! ## What each step does -/

section Steps

variable {node : ℕ → BeaconApi P} {config : EngineConfig} {w : World P} {s s' : Engine P}

/-- The cursor is moved before anything is committed. -/
theorem moves_advanced {stage : Stage} {epoch : UInt64} {state state' : StoreState P}
    {call : StoreState.Advance P} {moved : Except String Unit} {x : Op P Unit}
    (hmoved : state.advance call = (moved, state'))
    (h : state'.cursorEpoch = call.toEpoch → Moves (Stays stage epoch) x) :
    Moves (Stays stage epoch) (do attempt moved; x) := by
  rcases advance_cases state call with ⟨message, hrefused⟩ | ⟨-, -, hdone⟩
  · obtain ⟨rfl, -⟩ := Prod.mk.inj (hmoved.symm.trans hrefused)
    intro s
    rw [leave_attempt_bind]
    exact refl s
  · obtain ⟨rfl, rfl⟩ := Prod.mk.inj (hmoved.symm.trans hdone)
    exact Moves.bind (.attempt _) fun _ => h rfl

/-- Adopting a diff touches nothing that is ahead. -/
theorem moves_adoptDiff {toEpoch : UInt64} {diff : AheadDiff P} :
    Moves (Stays .epochDiff toEpoch) (adoptDiff w toEpoch diff) := by
  apply Moves.get_bind
  intro s
  refine Moves.bind (.attempt _) (fun _ => ?_) s
  refine (stays_of_rests (moves_write (by exact ⟨rfl, rfl⟩) _)).bind fun _ => ?_
  refine (stays_of_rests (moves_writeProof w _)).bind fun _ => ?_
  cases hmoved : s.snapshot.state.advance
    (advanceCall toEpoch diff.output diff.proof diff.numValidators)
  refine moves_advanced hmoved fun hcursor => ?_
  exact (moves_commit w hcursor).bind fun _ => stays_of_rests (moves_tell (by exact ⟨rfl, rfl⟩))

/-- Proving one on the critical path does not either. -/
theorem moves_proveDiff {toEpoch : UInt64} :
    Moves (Stays .epochDiff toEpoch) (proveDiff node config w toEpoch) := by
  refine (stays_of_rests (moves_tell (by exact ⟨rfl, rfl⟩))).bind fun _ => Moves.get_bind ?_
  intro s
  refine Moves.bind (.attempt _) (fun held1 => ?_) s
  refine Moves.bind (.attempt _) fun held2 => ?_
  refine Moves.bind (.attempt _) fun diff => ?_
  refine Moves.bind (.attempt _) fun _ => Moves.bind (.attempt _) fun ⟨output, proof⟩ => ?_
  refine Moves.bind (.attempt _) fun _ => Moves.bind (.attempt _) fun _ => ?_
  refine Moves.bind (.attempt _) fun _ => ?_
  cases hmoved : s.snapshot.state.advance (advanceCall toEpoch output proof diff.numValidators)
  refine moves_advanced hmoved fun hcursor => ?_
  refine (stays_of_rests (moves_write (by exact ⟨rfl, rfl⟩) _)).bind fun _ => ?_
  refine (stays_of_rests (moves_writeProof w _)).bind fun _ => ?_
  exact (moves_commit w hcursor).bind fun _ => stays_of_rests (moves_tell (by exact ⟨rfl, rfl⟩))

theorem moves_adoptCommittee {targetEpoch : UInt64} {ready : AheadCommittee P} :
    Moves (Rests .committee targetEpoch) (adoptCommittee w targetEpoch ready) :=
  moves_record w _ _

theorem moves_proveCommittee {targetEpoch : UInt64} {boundary : BoundaryInputs} :
    Moves (Rests .committee targetEpoch) (proveCommittee config w targetEpoch boundary) := by
  refine (moves_tell (by exact ⟨rfl, rfl⟩)).bind fun _ => Moves.get_bind ?_
  intro s
  refine Moves.bind (.attempt _) (fun committees => ?_) s
  refine Moves.bind (.attempt _) fun ⟨output, proof⟩ => Moves.bind (.attempt _) fun _ => ?_
  exact moves_record w _ _

/-- **What starting does**: nothing, or it announces the two stages and puts a task in flight
on the snapshot as it is. -/
theorem startSpeculation_cases (node : ℕ → BeaconApi P) (config : EngineConfig) (w : World P)
    (s : Engine P) (nextEpoch : UInt64) :
    leave (startSpeculation node config w nextEpoch) s = s ∨
      ∃ task : Task P, task.number = s.spawned ∧ task.start = s.snapshot ∧
        task.Started node config nextEpoch s.snapshot.state.accCommitment ∧
        leave (startSpeculation node config w nextEpoch) s = { s with
          ahead := s.ahead.start nextEpoch s.snapshot.state.accCommitment ⟨task, none⟩
          log := s.log ++ [.begun .epochDiff nextEpoch, .begun .committee nextEpoch]
          spawned := s.spawned + 1 } := by
  simp only [startSpeculation]
  split
  · exact .inl rfl
  rw [leave_get_bind]
  rcases leave_attempt_cases _ _ s with h | ⟨held1, hheld1, h⟩
  · exact .inl h
  rw [h]
  rcases leave_attempt_cases _ _ s with h | ⟨held2, hheld2, h⟩
  · exact .inl h
  rw [h]
  rcases leave_attempt_cases _ _ s with h | ⟨diff, hdiff, h⟩
  · exact .inl h
  rw [h]
  rcases leave_attempt_cases _ _ s with h | ⟨_, hspans, h⟩
  · exact .inl h
  rw [h]
  rw [Guest.mapError_eq_ok] at hheld1 hheld2 hdiff
  obtain ⟨hepoch1, hepoch2⟩ := Guest.assert_eq_ok.mp hspans
  right
  refine ⟨⟨s.spawned, s.snapshot, held1, w.moment, nextEpoch, diff, held2⟩, rfl, rfl,
    ⟨rfl, rfl, hdiff, hepoch1, hepoch2, fun hslot => ?_⟩, ?_⟩
  · rw [hslot, hheld2] at hheld1
    exact (Except.ok.inj hheld1).symm
  · simp only [tell, leave_modify_bind, leave_modify, List.append_assoc, List.cons_append,
      List.nil_append]

/-- The engine once it has asked for what was made ahead of an epoch it opens. -/
def asked (s : Engine P) (targetEpoch : UInt64) : Engine P :=
  leave (Engine.takeCommittee targetEpoch) s

/-- A stage is recorded, and the engine changed if that succeeded. -/
theorem modify_cases {α β : Type} {stage : Stage} {epoch : UInt64} {x : Op P α}
    {g : Engine P → Engine P} {f : α → β} (hx : Moves (Rests stage epoch) x) :
    ∃ mid, Rests stage epoch s mid ∧
      (leave (do let a ← x; modify g; return f a) s = mid ∨
        leave (do let a ← x; modify g; return f a) s = g mid) := by
  refine ⟨leave x s, hx s, ?_⟩
  rw [leave_bind]
  cases hrun : x s with
  | ok a mid =>
      right
      rw [leave_of_ok hrun]
      exact leave_modify_bind _ _
  | error e mid =>
      left
      exact (leave_of_error hrun).symm

theorem takeCommittee_ok {targetEpoch : UInt64} :
    Engine.takeCommittee targetEpoch s =
      .ok (s.ahead.takeCommittee targetEpoch s.snapshot.state.accCommitment).1
        (s.asked targetEpoch) := rfl

/-- **What opening an epoch does**: nothing, or it asks for what was made ahead, records the
stage, and starts the epoch after. -/
theorem openEpoch_cases (node : ℕ → BeaconApi P) (config : EngineConfig) (w : World P)
    (s : Engine P) (targetEpoch : UInt64) :
    leave (openEpoch node config w targetEpoch) s = s ∨
      ∃ mid, Rests .committee targetEpoch (s.asked targetEpoch) mid ∧
        (leave (openEpoch node config w targetEpoch) s = mid ∨
          leave (openEpoch node config w targetEpoch) s =
            speculate node config w (targetEpoch + 1) mid) := by
  simp only [openEpoch]
  rcases leave_attempt_cases _ _ s with h | ⟨targetRoot, -, h⟩
  · exact .inl h
  rw [h]
  rcases leave_attempt_cases _ _ s with h | ⟨sourceRoot, -, h⟩
  · exact .inl h
  rw [h]
  rcases leave_attempt_cases _ _ s with h | ⟨signingDomain, -, h⟩
  · exact .inl h
  rw [h]
  rcases leave_attempt_cases _ _ s with h | ⟨boundary, -, h⟩
  · exact .inl h
  rw [h, leave_bind, takeCommittee_ok]
  right
  cases (s.ahead.takeCommittee targetEpoch s.snapshot.state.accCommitment).1 with
  | some ready => exact modify_cases moves_adoptCommittee
  | none => exact modify_cases moves_proveCommittee

end Steps
end Engine

/-! ## What is handed out -/

namespace Speculation

variable {s s' : Speculation P} {epoch : UInt64} {commitment : P.Digest}

/-- **Asking for a diff** leaves nothing in flight. A diff comes of a task that was started for
the epoch, on the commitment, and its committees are kept. -/
theorem takeDiff_cases {taken : Option (AheadDiff P)}
    (h : s.takeDiff epoch commitment = some (taken, s')) :
    s'.running = none ∧
      (taken = none ∧ (s'.committee = none ∨ s'.committee = s.committee) ∨
        ∃ handle ahead, s.running = some (epoch, commitment, handle) ∧
          handle.joined = some (.ok (.ok ahead)) ∧ taken = some ahead.diff ∧
          s'.committee = some (epoch, ahead.diff.output.accumulatorCommitment,
            ahead.committee)) := by
  unfold takeDiff at h
  split at h
  · next hrunning =>
      obtain ⟨rfl, rfl⟩ := Prod.mk.inj (Option.some.inj h)
      exact ⟨hrunning, .inl ⟨rfl, .inr rfl⟩⟩
  · next startedFor fromCommitment handle hrunning =>
      split at h
      · obtain ⟨rfl, rfl⟩ := Prod.mk.inj (Option.some.inj h)
        exact ⟨rfl, .inl ⟨rfl, .inl rfl⟩⟩
      · next hsame =>
          obtain ⟨rfl, rfl⟩ := not_or.mp hsame |>.imp not_ne_iff.mp not_ne_iff.mp
          split at h
          · cases h
          · next ahead hjoined =>
              obtain ⟨rfl, rfl⟩ := Prod.mk.inj (Option.some.inj h)
              exact ⟨rfl, .inr ⟨handle, ahead, hrunning, hjoined, rfl, rfl⟩⟩
          · obtain ⟨rfl, rfl⟩ := Prod.mk.inj (Option.some.inj h)
            exact ⟨rfl, .inl ⟨rfl, .inr rfl⟩⟩

/-- **Asking for committees** leaves none behind. Those that come were kept for the epoch, under
the commitment. -/
theorem takeCommittee_cases (s : Speculation P) (epoch : UInt64) (commitment : P.Digest) :
    (s.takeCommittee epoch commitment).2 = { s with committee := none } ∧
      ∀ committee, (s.takeCommittee epoch commitment).1 = some committee →
        s.committee = some (epoch, commitment, committee) := by
  obtain ⟨running, kept, attempted⟩ := s
  cases kept with
  | none => exact ⟨rfl, fun committee h => by cases h⟩
  | some kept =>
      obtain ⟨madeFor, committedTo, held⟩ := kept
      simp only [takeCommittee]
      split
      · exact ⟨rfl, fun committee h => by cases h⟩
      · next hsame =>
          obtain ⟨rfl, rfl⟩ := not_or.mp hsame |>.imp not_ne_iff.mp not_ne_iff.mp
          refine ⟨rfl, fun committee h => ?_⟩
          obtain rfl := Option.some.inj h
          rfl

end Speculation

/-! ## What holds in every run -/

section Runs

variable (node : ℕ → BeaconApi P) (config : EngineConfig)

/-- **A task in flight** was started on the snapshot there is, and what it returned it made. -/
structure InFlight (snapshot : Snapshot P) (epoch : UInt64) (fromCommitment : P.Digest)
    (handle : JoinHandle P) : Prop where
  started : handle.task.Started node config epoch fromCommitment
  noted : Noted handle.task.start snapshot
  returned : ∀ ahead, handle.joined = some (.ok (.ok ahead)) →
    ∃ prover, proveAhead config.toDiffConfig prover handle.task = .ok ahead

/-- **What is in flight or held is what it is kept as.** -/
structure Engine.Sound (s : Engine P) : Prop where
  running : ∀ epoch fromCommitment handle,
    s.ahead.running = some (epoch, fromCommitment, handle) →
      InFlight node config s.snapshot epoch fromCommitment handle
  committee : ∀ epoch commitment committee,
    s.ahead.committee = some (epoch, commitment, committee) →
      committee.Made node config epoch commitment

/-- Of the first so many numbers some have been handed out, each of them once. -/
structure Handed (count : ℕ) (numbers : List ℕ) : Prop where
  nodup : numbers.Nodup
  below : ∀ n ∈ numbers, n < count

theorem Handed.nil : Handed 0 [] := ⟨List.nodup_nil, by simp⟩

theorem Handed.succ {count : ℕ} {numbers : List ℕ} (h : Handed count numbers) :
    Handed (count + 1) numbers :=
  ⟨h.nodup, fun n hn => (h.below n hn).trans (Nat.lt_succ_self _)⟩

theorem Handed.fresh {count : ℕ} {numbers : List ℕ} (h : Handed count numbers) :
    count ∉ numbers :=
  fun hmem => lt_irrefl _ (h.below _ hmem)

theorem Handed.concat {count n : ℕ} {numbers : List ℕ} (h : Handed count numbers)
    (hcount : n < count) (hnew : n ∉ numbers) : Handed count (numbers ++ [n]) := by
  constructor
  · rw [← List.concat_eq_append]
    exact h.nodup.concat hnew
  · intro m hm
    rcases List.mem_append.mp hm with hm | hm
    · exact h.below m hm
    · rw [List.mem_singleton.mp hm]
      exact hcount

/-- **Nothing is handed out twice**, and what is in flight or held has not been. -/
structure Engine.Once (s : Engine P) : Prop where
  /-- The committees of one task are not held while another one is in flight. -/
  alone : s.ahead.running = none ∨ s.ahead.committee = none
  diffs : Handed s.spawned s.diffsTaken
  committees : Handed s.spawned s.committeesTaken
  running : ∀ epoch fromCommitment handle,
    s.ahead.running = some (epoch, fromCommitment, handle) →
      handle.task.number < s.spawned ∧ handle.task.number ∉ s.diffsTaken ∧
        handle.task.number ∉ s.committeesTaken
  committee : ∀ epoch commitment committee,
    s.ahead.committee = some (epoch, commitment, committee) →
      committee.task.number < s.spawned ∧ committee.task.number ∉ s.committeesTaken

variable {node config} {s s' : Engine P}

/-- The committees of a task that returned are kept under the commitment of the tree they were
summed out of. -/
theorem InFlight.committee {snapshot : Snapshot P} {epoch : UInt64} {fromCommitment : P.Digest}
    {handle : JoinHandle P} {ahead : Ahead P}
    (h : InFlight node config snapshot epoch fromCommitment handle)
    (hjoined : handle.joined = some (.ok (.ok ahead))) :
    ahead.committee.Made node config epoch ahead.diff.output.accumulatorCommitment := by
  obtain ⟨prover, hproved⟩ := h.returned ahead hjoined
  obtain ⟨-, -, -, -, -, -, -, -, htask, hbuilt, houtput⟩ := proveAhead_eq_ok hproved
  rw [h.started.epoch_eq, ← htask] at hbuilt
  refine ⟨⟨fromCommitment, htask ▸ h.started⟩, ?_, hbuilt, houtput⟩
  rw [htask]
  exact commitment_of_proveAhead hproved

theorem InFlight.diff {snapshot : Snapshot P} {epoch : UInt64} {fromCommitment : P.Digest}
    {handle : JoinHandle P} {ahead : Ahead P}
    (h : InFlight node config snapshot epoch fromCommitment handle)
    (hjoined : handle.joined = some (.ok (.ok ahead))) :
    ahead.diff.Made node config epoch fromCommitment := by
  obtain ⟨prover, hproved⟩ := h.returned ahead hjoined
  have htask := (proveAhead_eq_ok hproved).1
  exact ⟨htask ▸ h.started, prover, ahead.committee, htask ▸ hproved⟩

/-! ### One step -/

namespace Engine

/-- **The invariant.** -/
structure Inv (node : ℕ → BeaconApi P) (config : EngineConfig) (s : Engine P) : Prop where
  sound : s.Sound node config
  once : s.Once

theorem Inv.opened (snapshot : Snapshot P) : (opened snapshot).Inv node config := by
  constructor
  · constructor <;> exact fun _ _ _ h => by cases h
  · refine ⟨.inl rfl, .nil, .nil, ?_, ?_⟩ <;> exact fun _ _ _ h => by cases h

/-- What does not touch what is ahead keeps the invariant, unless it moves the accumulator
from under a task in flight. -/
theorem Inv.stays {stage : Stage} {epoch : UInt64} (h : s.Inv node config)
    (hstays : Stays stage epoch s s')
    (hsnapshot : s.ahead.running = none ∨ s'.snapshot = s.snapshot) : s'.Inv node config := by
  have hdiffs := hstays.diffsTaken
  have hcommittees := hstays.committeesTaken
  constructor
  · constructor
    · intro epoch fromCommitment handle hrunning
      rw [hstays.ahead] at hrunning
      rcases hsnapshot with hnone | hsame
      · rw [hnone] at hrunning
        cases hrunning
      · rw [hsame]
        exact h.sound.running _ _ _ hrunning
    · rw [hstays.ahead]
      exact h.sound.committee
  · constructor
    · rw [hstays.ahead]
      exact h.once.alone
    · rw [hdiffs, hstays.spawned]
      exact h.once.diffs
    · rw [hcommittees, hstays.spawned]
      exact h.once.committees
    · rw [hdiffs, hcommittees, hstays.spawned, hstays.ahead]
      exact h.once.running
    · rw [hcommittees, hstays.spawned, hstays.ahead]
      exact h.once.committee

/-- What is in flight and what is held may be dropped at any time. -/
theorem Inv.dropped {ahead : Speculation P} (h : s.Inv node config)
    (hrunning : ahead.running = none ∨ ahead.running = s.ahead.running)
    (hcommittee : ahead.committee = none ∨ ahead.committee = s.ahead.committee) :
    Inv node config { s with ahead } := by
  have hrunning' : ∀ x, ahead.running = some x → s.ahead.running = some x := by
    rintro x hx
    rcases hrunning with hnone | hsame
    · rw [hnone] at hx
      cases hx
    · rwa [← hsame]
  have hcommittee' : ∀ x, ahead.committee = some x → s.ahead.committee = some x := by
    rintro x hx
    rcases hcommittee with hnone | hsame
    · rw [hnone] at hx
      cases hx
    · rwa [← hsame]
  exact {
    sound := {
      running := fun _ _ _ hx => h.sound.running _ _ _ (hrunning' _ hx)
      committee := fun _ _ _ hx => h.sound.committee _ _ _ (hcommittee' _ hx) }
    once := {
      alone := by
        rcases hrunning with hnone | hsame
        · exact .inl hnone
        · rcases hcommittee with hnone | hsame'
          · exact .inr hnone
          · rw [hsame, hsame']
            exact h.once.alone
      diffs := h.once.diffs
      committees := h.once.committees
      running := fun _ _ _ hx => h.once.running _ _ _ (hrunning' _ hx)
      committee := fun _ _ _ hx => h.once.committee _ _ _ (hcommittee' _ hx) } }

theorem Inv.start {w : World P} {nextEpoch : UInt64} (h : s.Inv node config) :
    (leave (startSpeculation node config w nextEpoch) s).Inv node config := by
  rcases startSpeculation_cases node config w s nextEpoch with hsame |
    ⟨task, hnumber, hstart, hstarted, hs'⟩
  · rw [hsame]
    exact h
  have hdiffs : (leave (startSpeculation node config w nextEpoch) s).diffsTaken =
      s.diffsTaken := by
    rw [hs', diffsTaken, diffsTaken, List.filterMap_append]
    exact List.append_nil _
  have hcommittees : (leave (startSpeculation node config w nextEpoch) s).committeesTaken =
      s.committeesTaken := by
    rw [hs', committeesTaken, committeesTaken, List.filterMap_append]
    exact List.append_nil _
  rw [hs'] at hdiffs hcommittees ⊢
  constructor
  · constructor
    · intro epoch fromCommitment handle hrunning
      obtain ⟨rfl, rfl, rfl⟩ : nextEpoch = epoch ∧
          s.snapshot.state.accCommitment = fromCommitment ∧ ⟨task, none⟩ = handle := by
        simpa [Speculation.start] using hrunning
      exact ⟨hstarted, hstart ▸ .refl _, fun ahead h => by cases h⟩
    · intro epoch commitment committee hcommittee
      cases hcommittee
  · constructor
    · exact .inr rfl
    · rw [hdiffs]
      exact h.once.diffs.succ
    · rw [hcommittees]
      exact h.once.committees.succ
    · intro epoch fromCommitment handle hrunning
      obtain ⟨rfl, rfl, rfl⟩ : nextEpoch = epoch ∧
          s.snapshot.state.accCommitment = fromCommitment ∧ ⟨task, none⟩ = handle := by
        simpa [Speculation.start] using hrunning
      rw [hdiffs, hcommittees, hnumber]
      exact ⟨Nat.lt_succ_self _, h.once.diffs.fresh, h.once.committees.fresh⟩
    · intro epoch commitment committee hcommittee
      cases hcommittee

theorem Inv.speculate {w : World P} {nextEpoch : UInt64} (h : s.Inv node config) :
    (speculate node config w nextEpoch s).Inv node config := by
  unfold Engine.speculate
  split
  · exact h
  have hattempted : Inv node config { s with
      ahead := (s.ahead.mayAttempt config.pollInterval w.moment).2 } := by
    unfold Speculation.mayAttempt
    split
    · exact h
    · exact h.dropped (.inr rfl) (.inr rfl)
  cases hmay : s.ahead.mayAttempt config.pollInterval w.moment with
  | mk attempts ahead =>
      rw [hmay] at hattempted
      show Inv node config (if attempts = true then
        leave (startSpeculation node config w nextEpoch) { s with ahead } else { s with ahead })
      split
      · exact hattempted.start
      · exact hattempted

/-- A task that ends is still the one that was started; what it returned, it made. -/
theorem Inv.join {outcome : Task P → Joined P} (h : s.Inv node config)
    (houtcome : ∀ task ahead, outcome task = .ok (.ok ahead) →
      ∃ prover, proveAhead config.toDiffConfig prover task = .ok ahead)
    (hjoin : s.join outcome = some s') : s'.Inv node config := by
  unfold Engine.join at hjoin
  split at hjoin
  · next epoch fromCommitment task hrunning =>
      obtain rfl := Option.some.inj hjoin
      obtain ⟨hstarted, hnoted, -⟩ := h.sound.running _ _ _ hrunning
      constructor
      · refine ⟨fun epoch' fromCommitment' handle hnow => ?_, h.sound.committee⟩
        obtain ⟨rfl, rfl, rfl⟩ : epoch = epoch' ∧ fromCommitment = fromCommitment' ∧
            ⟨task, some (outcome task)⟩ = handle := by
          simpa using hnow
        refine ⟨hstarted, hnoted, fun ahead hreturned => ?_⟩
        exact houtcome task ahead (Option.some.inj hreturned)
      · refine ⟨.inr (h.once.alone.resolve_left (by simp [hrunning])), h.once.diffs,
          h.once.committees, fun epoch' fromCommitment' handle hnow => ?_, h.once.committee⟩
        obtain ⟨rfl, rfl, rfl⟩ : epoch = epoch' ∧ fromCommitment = fromCommitment' ∧
            ⟨task, some (outcome task)⟩ = handle := by
          simpa using hnow
        have hfresh := h.once.running _ _ _ hrunning
        exact hfresh
  · cases hjoin

theorem Inv.note (h : s.Inv node config) (progress : Progress P) :
    Inv node config { s with
      snapshot := { s.snapshot with state := progress.note s.snapshot.state } } := by
  constructor
  · refine ⟨fun epoch fromCommitment handle hrunning => ?_, h.sound.committee⟩
    obtain ⟨hstarted, hnoted, hreturned⟩ := h.sound.running _ _ _ hrunning
    exact ⟨hstarted, hnoted.note progress, hreturned⟩
  · exact ⟨h.once.alone, h.once.diffs, h.once.committees, h.once.running, h.once.committee⟩

/-- **The accumulator moves**, and whatever was in flight is gone. -/
theorem Inv.advance {w : World P} {toEpoch : UInt64} (h : s.Inv node config)
    (hadvance : advanceAccumulator node config w toEpoch s = some s') : s'.Inv node config := by
  obtain ⟨⟨taken, ahead⟩, htake, rfl⟩ := Option.map_eq_some_iff.mp hadvance
  obtain ⟨hnone, ⟨rfl, hcommittee⟩ | ⟨handle, both, hrunning, hjoined, rfl, hcommittee⟩⟩ :=
    Speculation.takeDiff_cases htake
  · exact (h.dropped (.inl hnone) hcommittee).stays (moves_proveDiff _) (.inl hnone)
  · refine Inv.stays ?_ (moves_adoptDiff _) (.inl hnone)
    have hflight := h.sound.running _ _ _ hrunning
    obtain ⟨hnumber, hdiff, hcommittees⟩ := h.once.running _ _ _ hrunning
    obtain ⟨prover, hproved⟩ := hflight.returned both hjoined
    obtain ⟨htask, -, -, -, -, -, -, -, htask', -⟩ := proveAhead_eq_ok hproved
    constructor
    · constructor
      · intro _ _ _ h
        rw [hnone] at h
        cases h
      · intro epoch commitment committee hkept
        rw [hcommittee] at hkept
        obtain ⟨rfl, rfl, rfl⟩ : toEpoch = epoch ∧
            both.diff.output.accumulatorCommitment = commitment ∧ both.committee = committee := by
          simpa using hkept
        exact hflight.committee hjoined
    · constructor
      · exact .inl hnone
      · rw [diffsTaken, List.filterMap_append]
        exact h.once.diffs.concat (htask ▸ hnumber) (htask ▸ hdiff)
      · rw [committeesTaken, List.filterMap_append]
        exact (List.append_nil s.committeesTaken).symm ▸ h.once.committees
      · intro _ _ _ h
        rw [hnone] at h
        cases h
      · intro epoch commitment committee hkept
        rw [hcommittee] at hkept
        obtain ⟨rfl, rfl, rfl⟩ : toEpoch = epoch ∧
            both.diff.output.accumulatorCommitment = commitment ∧ both.committee = committee := by
          simpa using hkept
        rw [htask', committeesTaken, List.filterMap_append]
        exact ⟨hnumber, (List.append_nil s.committeesTaken).symm ▸ hcommittees⟩

/-- What is held is handed out. -/
theorem Inv.asked (h : s.Inv node config) (targetEpoch : UInt64) :
    (s.asked targetEpoch).Inv node config := by
  obtain ⟨hdropped, hkept⟩ := Speculation.takeCommittee_cases s.ahead targetEpoch
    s.snapshot.state.accCommitment
  have hdrop : Inv node config { s with ahead := { s.ahead with committee := none } } :=
    h.dropped (.inr rfl) (.inl rfl)
  have hasked : s.asked targetEpoch = { s with
      ahead := { s.ahead with committee := none }
      log := s.log ++ ((s.ahead.takeCommittee targetEpoch s.snapshot.state.accCommitment).1.map
        (.tookCommittee · targetEpoch s.snapshot.state.accCommitment)).toList } := by
    rw [← hdropped]
    rfl
  rw [hasked]
  cases htaken : (s.ahead.takeCommittee targetEpoch s.snapshot.state.accCommitment).1 with
  | none =>
      simp only [Option.map_none, Option.toList_none, List.append_nil]
      exact hdrop
  | some committee =>
      obtain ⟨hnumber, hfresh⟩ := h.once.committee _ _ _ (hkept _ htaken)
      have hidle : s.ahead.running = none := by
        rcases h.once.alone with hnone | hnone
        · exact hnone
        · rw [hnone] at hkept
          cases hkept _ htaken
      refine ⟨⟨hdrop.sound.running, hdrop.sound.committee⟩, .inr rfl, ?_, ?_, ?_, ?_⟩
      · rw [diffsTaken, List.filterMap_append]
        exact (List.append_nil s.diffsTaken).symm ▸ h.once.diffs
      · rw [committeesTaken, List.filterMap_append]
        exact h.once.committees.concat hnumber hfresh
      · intro _ _ _ hrunning
        rw [hidle] at hrunning
        cases hrunning
      · intro _ _ _ hcommittee
        cases hcommittee

/-- **Opening an epoch** hands the committees out, and may put the next task in flight. -/
theorem Inv.openEpoch {w : World P} {targetEpoch : UInt64} (h : s.Inv node config) :
    (leave (openEpoch node config w targetEpoch) s).Inv node config := by
  rcases openEpoch_cases node config w s targetEpoch with hsame | ⟨mid, hrests, hend⟩
  · rw [hsame]
    exact h
  have hmid : mid.Inv node config :=
    (h.asked targetEpoch).stays hrests.toStays (.inr hrests.snapshot)
  rcases hend with hend | hend
  · rw [hend]
    exact hmid
  · rw [hend]
    exact hmid.speculate

/-- **Every step keeps the invariant.** -/
theorem Inv.step {event : Event P} (h : s.Inv node config)
    (hstep : step node config s event = some s') : s'.Inv node config := by
  cases event with
  | speculate w nextEpoch =>
      obtain rfl := Option.some.inj hstep
      exact h.speculate
  | start w nextEpoch =>
      obtain rfl := Option.some.inj hstep
      exact h.start
  | complete prover =>
      apply h.join (fun task ahead hreturned => ?_) hstep
      exact ⟨prover, Except.ok.inj hreturned⟩
  | fail error =>
      apply h.join (fun task ahead hreturned => ?_) hstep
      cases hreturned
  | forget =>
      obtain rfl := Option.some.inj hstep
      exact h.dropped (.inl rfl) (.inl rfl)
  | advance w toEpoch => exact h.advance hstep
  | openEpoch w targetEpoch =>
      obtain rfl := Option.some.inj hstep
      exact h.openEpoch
  | note progress =>
      obtain rfl := Option.some.inj hstep
      exact h.note progress

/-- **The invariant of every run.** -/
theorem inv_of_reached {snapshot : Snapshot P}
    (h : Reached (Engine.step node config) always (Engine.opened snapshot) s) :
    s.Inv node config :=
  h.invariant (Inv node config) (.opened snapshot) fun _ _ _ hinv _ hstep => hinv.step hstep

end Engine
end Runs

end Zkasper.Orchestrator
