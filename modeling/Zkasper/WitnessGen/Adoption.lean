import Zkasper.WitnessGen.CommitteesAgree
import Zkasper.WitnessGen.ProvableDiff
import Zkasper.WitnessGen.SpeculationRuns

/-! # Speculated openings are inline ones

A diff is adopted where the accumulator it starts from still is what the engine has, so the
inline path would build the same witness now. The two paths write and move the state in a
different order, and both end in the snapshot the diff leads to, or, if anything stands in
the way, in the one there was (`Settled`). -/

namespace Zkasper.Orchestrator

open Library Transition Store Boundaries
open RemoteProver (Stage Proof)

variable {P : Primitives}

/-! ## What is written, and when -/

section Written

variable {node : ℕ → BeaconApi P} {config : EngineConfig} {w : World P} {s s' s'' : Engine P}
  {allowed : Entry P → Prop}

/-- The stage that a step may write something of. -/
def Engine.Event.writesOf : Event P → Option (Stage × UInt64)
  | .advance _ toEpoch => some (.epochDiff, toEpoch)
  | .openEpoch _ targetEpoch => some (.committee, targetEpoch)
  | _ => none

namespace Engine

/-- The log has grown, by entries of some kind. -/
def Logs (allowed : Entry P → Prop) (s s' : Engine P) : Prop :=
  ∃ new, s'.log = s.log ++ new ∧ ∀ entry ∈ new, allowed entry

theorem Logs.refl (s : Engine P) : Logs allowed s s := ⟨[], (List.append_nil _).symm, by simp⟩

theorem Logs.trans (h : Logs allowed s s') (h' : Logs allowed s' s'') : Logs allowed s s'' := by
  obtain ⟨new, hlog, hnew⟩ := h
  obtain ⟨new', hlog', hnew'⟩ := h'
  refine ⟨new ++ new', by rw [hlog', hlog, List.append_assoc], fun entry hentry => ?_⟩
  exact (List.mem_append.mp hentry).elim (hnew entry) (hnew' entry)

theorem Logs.mono {allowed' : Entry P → Prop} (h : Logs allowed s s')
    (hweaker : ∀ entry, allowed entry → allowed' entry) : Logs allowed' s s' := by
  obtain ⟨new, hlog, hnew⟩ := h
  exact ⟨new, hlog, fun entry hentry => hweaker entry (hnew entry hentry)⟩

/-- **Starting writes nothing**, and the snapshot stays. -/
theorem startSpeculation_quiet (node : ℕ → BeaconApi P) (config : EngineConfig) (w : World P)
    (s : Engine P) (nextEpoch : UInt64) :
    (leave (startSpeculation node config w nextEpoch) s).snapshot = s.snapshot ∧
      Logs (fun entry => entry.writes = false) s
        (leave (startSpeculation node config w nextEpoch) s) := by
  rcases startSpeculation_cases node config w s nextEpoch with hsame | ⟨task, -, -, -, hs'⟩
  · rw [hsame]
    exact ⟨rfl, .refl s⟩
  · rw [hs']
    exact ⟨rfl, _, rfl, by simp [Entry.writes]⟩

theorem speculate_quiet (node : ℕ → BeaconApi P) (config : EngineConfig) (w : World P)
    (s : Engine P) (nextEpoch : UInt64) :
    (speculate node config w nextEpoch s).snapshot = s.snapshot ∧
      Logs (fun entry => entry.writes = false) s (speculate node config w nextEpoch s) := by
  unfold speculate
  split
  · exact ⟨rfl, .refl s⟩
  cases s.ahead.mayAttempt config.pollInterval w.moment with
  | mk attempts ahead =>
      show (if attempts = true then _ else _ : Engine P).snapshot = _ ∧ Logs _ s
        (if attempts = true then _ else _)
      split
      · exact startSpeculation_quiet node config w { s with ahead } nextEpoch
      · exact ⟨rfl, .refl s⟩

theorem join_quiet {outcome : Task P → Joined P} (h : s.join outcome = some s') :
    s'.snapshot = s.snapshot ∧ Logs (fun entry => entry.writes = false) s s' := by
  unfold join at h
  split at h
  · obtain rfl := Option.some.inj h
    exact ⟨rfl, .refl s⟩
  · cases h

theorem asked_quiet (s : Engine P) (targetEpoch : UInt64) :
    (s.asked targetEpoch).snapshot = s.snapshot ∧
      Logs (fun entry => entry.writes = false) s (s.asked targetEpoch) := by
  refine ⟨rfl, _, rfl, fun entry hentry => ?_⟩
  obtain ⟨committee, -, rfl⟩ := Option.map_eq_some_iff.mp (Option.mem_toList.mp hentry)
  rfl

theorem openEpoch_writes (node : ℕ → BeaconApi P) (config : EngineConfig) (w : World P)
    (s : Engine P) (targetEpoch : UInt64) :
    (leave (openEpoch node config w targetEpoch) s).snapshot = s.snapshot ∧
      Logs (fun entry => entry.writes = true → entry.Of .committee targetEpoch) s
        (leave (openEpoch node config w targetEpoch) s) := by
  have hquiet : ∀ entry : Entry P, entry.writes = false → entry.writes = true →
      entry.Of .committee targetEpoch := by
    intro entry hfalse htrue
    rw [hfalse] at htrue
    cases htrue
  rcases openEpoch_cases node config w s targetEpoch with hsame | ⟨mid, hrests, hend⟩
  · rw [hsame]
    exact ⟨rfl, .refl s⟩
  obtain ⟨hasked, haskedLog⟩ := asked_quiet s targetEpoch
  have hmid : Logs (fun entry => entry.writes = true → entry.Of .committee targetEpoch) s mid :=
    (haskedLog.mono hquiet).trans (Logs.mono hrests.log fun _ hof _ => hof)
  rcases hend with hend | hend
  · rw [hend]
    exact ⟨hrests.snapshot.trans hasked, hmid⟩
  · obtain ⟨hsame, hlog⟩ := speculate_quiet node config w mid (targetEpoch + 1)
    rw [hend]
    exact ⟨hsame.trans (hrests.snapshot.trans hasked), hmid.trans (hlog.mono hquiet)⟩

theorem advance_writes {toEpoch : UInt64}
    (h : advanceAccumulator node config w toEpoch s = some s') :
    Logs (fun entry => entry.writes = true → entry.Of .epochDiff toEpoch) s s' := by
  obtain ⟨⟨taken, ahead⟩, -, rfl⟩ := Option.map_eq_some_iff.mp h
  cases taken with
  | some diff =>
      have htook : Logs (fun entry => entry.writes = true → entry.Of .epochDiff toEpoch) s { s with
          ahead
          log := s.log ++ [.tookDiff diff toEpoch s.snapshot.state.accCommitment] } :=
        ⟨_, rfl, by simp [Entry.writes]⟩
      exact htook.trans (Logs.mono (moves_adoptDiff _).log fun _ hof _ => hof)
  | none => exact Logs.mono (moves_proveDiff { s with ahead }).log fun _ hof _ => hof

/-- **Only adopting and proving inline write**, each of its own stage and epoch, and only the
accumulator's move changes the snapshot under the pipelines. -/
theorem step_writes {event : Event P} (h : step node config s event = some s') :
    Logs (fun entry => entry.writes = true → ∃ stage epoch,
      event.writesOf = some (stage, epoch) ∧ entry.Of stage epoch) s s' ∧
    ((∀ w toEpoch, event ≠ .advance w toEpoch) → Noted s.snapshot s'.snapshot) := by
  have hquiet : ∀ entry : Entry P, entry.writes = false → entry.writes = true →
      ∃ stage epoch, event.writesOf = some (stage, epoch) ∧ entry.Of stage epoch := by
    intro entry hfalse htrue
    rw [hfalse] at htrue
    cases htrue
  cases event with
  | speculate w nextEpoch =>
      obtain rfl := Option.some.inj h
      obtain ⟨hsame, hlog⟩ := speculate_quiet node config w s nextEpoch
      exact ⟨hlog.mono hquiet, fun _ => hsame ▸ .refl _⟩
  | start w nextEpoch =>
      obtain rfl := Option.some.inj h
      obtain ⟨hsame, hlog⟩ := startSpeculation_quiet node config w s nextEpoch
      exact ⟨hlog.mono hquiet, fun _ => hsame ▸ .refl _⟩
  | complete prover =>
      obtain ⟨hsame, hlog⟩ := join_quiet h
      exact ⟨hlog.mono hquiet, fun _ => hsame ▸ .refl _⟩
  | fail error =>
      obtain ⟨hsame, hlog⟩ := join_quiet h
      exact ⟨hlog.mono hquiet, fun _ => hsame ▸ .refl _⟩
  | forget =>
      obtain rfl := Option.some.inj h
      exact ⟨.refl s, fun _ => .refl _⟩
  | advance w toEpoch =>
      refine ⟨(advance_writes h).mono fun entry hof hwrites => ?_, fun hnot => ?_⟩
      · exact ⟨_, _, rfl, hof hwrites⟩
      · exact absurd rfl (hnot w toEpoch)
  | openEpoch w targetEpoch =>
      obtain rfl := Option.some.inj h
      obtain ⟨hsame, hlog⟩ := openEpoch_writes node config w s targetEpoch
      exact ⟨hlog.mono fun entry hof hwrites => ⟨_, _, rfl, hof hwrites⟩,
        fun _ => hsame ▸ .refl _⟩
  | note progress =>
      obtain rfl := Option.some.inj h
      exact ⟨.refl s, fun _ => ⟨progress, rfl⟩⟩

end Engine
end Written

/-! ## Where a diff leaves the snapshot -/

section Settled

variable {node : ℕ → BeaconApi P} {config : EngineConfig} {w w' : World P} {s : Engine P}
  {toEpoch : UInt64} {diff : AheadDiff P}

/-- What is written of a stage can be. -/
def World.Writable (w : World P) (stage : Stage) (epoch : UInt64) (proof : Proof) : Prop :=
  w.writeWitness stage epoch = .ok () ∧ (proof = [] ∨ w.writeProof stage epoch = .ok ())

/-- What a proved diff needs to become the accumulator: it starts from it, the state moves,
and it can be written. -/
def Settles (w : World P) (toEpoch : UInt64) (snapshot : Snapshot P) (diff : AheadDiff P) : Prop :=
  diff.output.prevAccumulatorCommitment = snapshot.state.accCommitment ∧
    (snapshot.state.advance
      (Engine.advanceCall toEpoch diff.output diff.proof diff.numValidators)).1 = .ok () ∧
    w.Writable .epochDiff toEpoch diff.proof

/-- **The snapshot behind a proved diff**: the old one, or the one the diff leads to. -/
structure Settled (w : World P) (toEpoch : UInt64) (before : Snapshot P) (diff : AheadDiff P)
    (after : Snapshot P) : Prop where
  moved : Settles w toEpoch before diff → after = ⟨(before.state.advance
    (Engine.advanceCall toEpoch diff.output diff.proof diff.numValidators)).2,
      diff.tree, diff.epochState⟩
  stayed : ¬ Settles w toEpoch before diff → after = before

/-- There is one such snapshot. -/
theorem Settled.unique {before after after' : Snapshot P}
    (h : Settled w toEpoch before diff after) (h' : Settled w toEpoch before diff after') :
    after = after' := by
  by_cases hsettles : Settles w toEpoch before diff
  · rw [h.moved hsettles, h'.moved hsettles]
  · rw [h.stayed hsettles, h'.stayed hsettles]

/-- Only what can be written is asked of the world. -/
theorem Settled.congr {before after : Snapshot P} (h : Settled w toEpoch before diff after)
    (hwitness : w.writeWitness = w'.writeWitness) (hproof : w.writeProof = w'.writeProof) :
    Settled w' toEpoch before diff after := by
  have hsettles : Settles w' toEpoch before diff ↔ Settles w toEpoch before diff := by
    unfold Settles World.Writable
    rw [hwitness, hproof]
  exact ⟨fun hdone => h.moved (hsettles.mp hdone), fun hnot => h.stayed (hnot ∘ hsettles.mpr)⟩

namespace Engine

/-- Writing may end a step; it leaves the snapshot alone. -/
theorem write_cases (entry : Entry P) (result : Except String Unit) (x : Op P Unit)
    (s : Engine P) :
    ∃ s', s'.snapshot = s.snapshot ∧
      (result ≠ .ok () ∧ leave (do write entry result; x) s = s' ∨
        result = .ok () ∧ leave (do write entry result; x) s = leave x s') := by
  refine ⟨{ s with log := s.log ++ [entry] }, rfl, ?_⟩
  cases result with
  | ok u => exact .inr ⟨rfl, rfl⟩
  | error e => exact .inl ⟨by simp, rfl⟩

theorem persist_cases (stage : Stage) (epoch : UInt64) (proof : Proof) (x : Op P Unit)
    (s : Engine P) :
    ∃ s', s'.snapshot = s.snapshot ∧
      (¬ w.Writable stage epoch proof ∧
          leave (do
            write (.witness stage epoch) (w.writeWitness stage epoch)
            writeProof w stage epoch proof
            x) s = s' ∨
        w.Writable stage epoch proof ∧
          leave (do
            write (.witness stage epoch) (w.writeWitness stage epoch)
            writeProof w stage epoch proof
            x) s = leave x s') := by
  obtain ⟨s₁, hs₁, ⟨hfailed, h⟩ | ⟨hwitness, h⟩⟩ := write_cases (.witness stage epoch)
    (w.writeWitness stage epoch) (do writeProof w stage epoch proof; x) s
  · exact ⟨s₁, hs₁, .inl ⟨fun hwritable => hfailed hwritable.1, h⟩⟩
  · rw [h, writeProof]
    by_cases hproof : proof = []
    · rw [if_pos hproof]
      exact ⟨s₁, hs₁, .inr ⟨⟨hwitness, .inl hproof⟩, rfl⟩⟩
    · rw [if_neg hproof]
      obtain ⟨s₂, hs₂, ⟨hfailed, h⟩ | ⟨hwritten, h⟩⟩ := write_cases (.proof stage epoch)
        (w.writeProof stage epoch) x s₁
      · refine ⟨s₂, hs₂.trans hs₁, .inl ⟨fun hwritable => ?_, h⟩⟩
        exact hwritable.2.elim hproof hfailed
      · exact ⟨s₂, hs₂.trans hs₁, .inr ⟨⟨hwitness, .inr hwritten⟩, h⟩⟩

theorem commit_snapshot (snapshot : Snapshot P) (entry : Entry P) :
    (leave (do commit w snapshot; tell entry) s).snapshot = snapshot := by
  rw [leave_bind]
  unfold commit write
  cases hsave : w.save snapshot with
  | ok u => rfl
  | error e => rfl

/-- A check of the state ends a step, or leaves no trace. -/
theorem leave_assert_bind {α : Type} {c : Prop} [Decidable c] (message : String)
    (f : Unit → Op P α) :
    leave (attempt (Guest.assert c message) >>= f) s = if c then leave (f ()) s else s := by
  rw [leave_attempt_bind, Guest.assert]
  by_cases hc : c
  · simp only [if_pos hc]
  · simp only [if_neg hc]

/-- **Adopting** settles the diff. -/
theorem adoptDiff_settled (w : World P) (s : Engine P) (toEpoch : UInt64) (diff : AheadDiff P) :
    Settled w toEpoch s.snapshot diff (leave (adoptDiff w toEpoch diff) s).snapshot := by
  simp only [adoptDiff, leave_get_bind, leave_assert_bind]
  split
  · next hprevious =>
      obtain ⟨s₁, hs₁, ⟨hfailed, h⟩ | ⟨hwritable, h⟩⟩ := persist_cases (w := w) .epochDiff toEpoch
        diff.proof _ s
      · rw [h]
        exact ⟨fun hsettles => absurd hsettles.2.2 hfailed, fun _ => hs₁⟩
      rw [h]
      rcases advance_cases s.snapshot.state
        (advanceCall toEpoch diff.output diff.proof diff.numValidators) with
        ⟨message, hrefused⟩ | ⟨-, -, hmoved⟩
      · constructor
        · intro hsettles
          have hok := hsettles.2.1
          rw [hrefused] at hok
          cases hok
        · intro _
          rw [hrefused]
          exact hs₁
      · constructor
        · intro _
          rw [hmoved]
          exact commit_snapshot _ _
        · intro hnot
          exact absurd ⟨hprevious, by rw [hmoved], hwritable⟩ hnot
  · next hprevious => exact ⟨fun hsettles => absurd hsettles.1 hprevious, fun _ => rfl⟩

/-- **Proving inline** settles the same diff, where the boundaries, the node and the prover
answer what they answered the task. -/
theorem proveDiff_settled {prover : Prover P} {both : Ahead P} {task : Task P}
    (hstarted : task.Started node config toEpoch s.snapshot.state.accCommitment)
    (hnoted : Noted task.start s.snapshot)
    (hproved : proveAhead config.toDiffConfig prover task = .ok both)
    (hmoment : w.moment = task.moment)
    (hheld : w.boundaryAt s.snapshot.epochState.slot = .ok task.held)
    (hboundary : w.boundaryAt (toEpoch * config.slotsPerEpoch) = .ok task.boundary)
    (hprover : w.prover.proveEpochDiff both.diff.witness =
      .ok (both.diff.output, both.diff.proof)) :
    Settled w toEpoch s.snapshot both.diff
      (leave (proveDiff node config w toEpoch) s).snapshot := by
  obtain ⟨-, hwitness, htree, hepochState, hcount, -, hroot, htotal, -⟩ := proveAhead_eq_ok hproved
  obtain ⟨progress, hsnapshot⟩ := hnoted
  -- progress may have been noted since the task started, but the build does not read it
  have hdiff : buildDiff node config w s.snapshot task.held task.boundary toEpoch =
      .ok task.diff := by
    rw [buildDiff, hmoment, hsnapshot]
    exact hstarted.built
  have hcursor : task.start.state.cursorEpoch = s.snapshot.state.cursorEpoch := by
    rw [hsnapshot]
    rfl
  have hspans : task.diff.witness.epoch1 = s.snapshot.state.cursorEpoch ∧
      task.diff.witness.epoch2 = toEpoch := ⟨hstarted.epoch1.trans hcursor, hstarted.epoch2⟩
  rw [hwitness] at hprover
  simp only [proveDiff, tell, leave_modify_bind, leave_get_bind]
  rw [leave_attempt_ok_bind (Guest.mapError_eq_ok.mpr hheld),
    leave_attempt_ok_bind (Guest.mapError_eq_ok.mpr hboundary),
    leave_attempt_ok_bind (Guest.mapError_eq_ok.mpr hdiff), leave_assert_bind, if_pos hspans,
    leave_attempt_ok_bind hprover, leave_assert_bind, if_pos hroot, leave_assert_bind,
    if_pos htotal, leave_assert_bind]
  split
  · next hprevious =>
      rcases advance_cases s.snapshot.state
        (advanceCall toEpoch both.diff.output both.diff.proof task.diff.numValidators) with
        ⟨message, hrefused⟩ | ⟨-, -, hmoved⟩
      · constructor
        · intro hsettles
          have hok := hsettles.2.1
          rw [hcount, hrefused] at hok
          cases hok
        · intro _
          rw [hrefused]
          rfl
      · obtain ⟨s₁, hs₁, ⟨hfailed, h⟩ | ⟨hwritable, h⟩⟩ := persist_cases (w := w) .epochDiff
          toEpoch both.diff.proof (do
            commit w ⟨_, task.diff.accTree, task.diff.epochState⟩
            tell (.recorded .epochDiff toEpoch)) { s with
              log := s.log ++ [.begun .epochDiff toEpoch] }
        · constructor
          · intro hsettles
            exact absurd hsettles.2.2 hfailed
          · intro _
            rw [hmoved]
            exact (congrArg Engine.snapshot h).trans hs₁
        · constructor
          · intro _
            rw [hcount, htree, hepochState, hmoved]
            exact (congrArg Engine.snapshot h).trans (commit_snapshot _ _)
          · intro hnot
            exact absurd ⟨hprevious, by rw [hcount, hmoved], hwritable⟩ hnot
  · next hprevious => exact ⟨fun hsettles => absurd hsettles.1 hprevious, fun _ => rfl⟩

end Engine
end Settled

/-! ## Every run -/

section Replays

variable (node : ℕ → BeaconApi P) (config : EngineConfig)

/-- **The inline path is asked the same again**: the node and the boundaries are those of the
task, the prover answers what it answered the task, and what is written can be written alike. -/
structure World.Replays (w' w : World P) (snapshot : Snapshot P) (toEpoch : UInt64)
    (diff : AheadDiff P) : Prop where
  moment : w'.moment = diff.task.moment
  held : w'.boundaryAt snapshot.epochState.slot = .ok diff.task.held
  boundary : w'.boundaryAt (toEpoch * config.slotsPerEpoch) = .ok diff.task.boundary
  prover : w'.prover.proveEpochDiff diff.witness = .ok (diff.output, diff.proof)
  writeWitness : w'.writeWitness = w.writeWitness
  writeProof : w'.writeProof = w.writeProof

variable {node config}

/-- It can be. -/
theorem AheadDiff.Made.replays {w : World P} {snapshot : Snapshot P} {toEpoch : UInt64}
    {commitment : P.Digest} {diff : AheadDiff P} (h : diff.Made node config toEpoch commitment)
    (hnoted : Noted diff.task.start snapshot) :
    ∃ w', World.Replays config w' w snapshot toEpoch diff := by
  obtain ⟨prover, committee, hproved⟩ := h.proved
  obtain ⟨-, hwitness, -, -, -, hanswer, -⟩ := proveAhead_eq_ok hproved
  obtain ⟨progress, hsnapshot⟩ := hnoted
  refine ⟨{ w with
    moment := diff.task.moment
    boundaryAt := fun slot =>
      if slot = snapshot.epochState.slot then .ok diff.task.held else .ok diff.task.boundary
    prover }, rfl, if_pos rfl, ?_, ?_, rfl, rfl⟩
  · show (if _ then _ else _) = _
    split
    · next hslot =>
        rw [h.started.oneBoundary (by rw [hslot, hsnapshot])]
    · rfl
  · exact hwitness ▸ hanswer

/-- **What is made ahead is what it is taken for**, in every run of the engine and its tasks: a
diff comes of the snapshot with the commitment that is asked for, and for the epoch that is;
committees come of the accumulator with that commitment, for that epoch. Nothing is handed
out twice, nothing is written but by adopting and proving inline, and adopting a diff leaves
the snapshot that the inline path leaves. Written are the artifacts of a stage, the store and the
manifest (`Entry.writes`); that a stage is announced before it runs is not, nor is a boundary that
the node's answer leaves in its cache. -/
theorem speculation_inline {snapshot : Snapshot P} {s : Engine P}
    (h : Reached (Engine.step node config) always (Engine.opened snapshot) s) :
    (∀ epoch commitment diff ahead,
      s.ahead.takeDiff epoch commitment = some (some diff, ahead) →
        diff.Made node config epoch commitment ∧ Noted diff.task.start s.snapshot) ∧
    (∀ epoch commitment committee ahead,
      s.ahead.takeCommittee epoch commitment = (some committee, ahead) →
        committee.Made node config epoch commitment ∧
          committee.output.targetEpoch = epoch ∧
          committee.output.accumulatorCommitment = commitment) ∧
    s.diffsTaken.Nodup ∧ s.committeesTaken.Nodup ∧
    (∀ event s', Engine.step node config s event = some s' →
      Engine.Logs (fun entry => entry.writes = true → ∃ stage epoch,
        event.writesOf = some (stage, epoch) ∧ entry.Of stage epoch) s s' ∧
      ((∀ w toEpoch, event ≠ .advance w toEpoch) → Noted s.snapshot s'.snapshot)) ∧
    ∀ w toEpoch diff ahead s',
      s.ahead.takeDiff toEpoch s.snapshot.state.accCommitment = some (some diff, ahead) →
      Engine.advanceAccumulator node config w toEpoch s = some s' →
        (∃ w', World.Replays config w' w s.snapshot toEpoch diff) ∧
        ∀ w', World.Replays config w' w s.snapshot toEpoch diff →
          s'.snapshot = (leave (Engine.proveDiff node config w' toEpoch) s).snapshot := by
  have hinv := Engine.inv_of_reached h
  have hdiff : ∀ epoch commitment diff ahead,
      s.ahead.takeDiff epoch commitment = some (some diff, ahead) →
        diff.Made node config epoch commitment ∧ Noted diff.task.start s.snapshot := by
    intro epoch commitment diff ahead htake
    obtain ⟨-, ⟨htaken, -⟩ | ⟨handle, both, hrunning, hjoined, htaken, -⟩⟩ :=
      Speculation.takeDiff_cases htake
    · cases htaken
    · obtain rfl := Option.some.inj htaken
      have hflight := hinv.sound.running _ _ _ hrunning
      obtain ⟨prover, hproved⟩ := hflight.returned both hjoined
      exact ⟨hflight.diff hjoined, (proveAhead_eq_ok hproved).1 ▸ hflight.noted⟩
  refine ⟨hdiff, ?_, hinv.once.diffs.nodup, hinv.once.committees.nodup,
    fun event s' => Engine.step_writes, ?_⟩
  · intro epoch commitment committee ahead htake
    have hkept := (Speculation.takeCommittee_cases s.ahead epoch commitment).2 committee
      (by rw [htake])
    have hmade := hinv.sound.committee _ _ _ hkept
    rw [hmade.output, (EpochCommittees.build_witness hmade.built).2]
    exact ⟨hmade, rfl, hmade.commitment_eq⟩
  · intro w toEpoch diff ahead s' htake hadvance
    obtain ⟨hmade, hnoted⟩ := hdiff _ _ _ _ htake
    refine ⟨hmade.replays hnoted, fun w' hreplays => ?_⟩
    obtain ⟨prover, committee, hproved⟩ := hmade.proved
    have hinline := Engine.proveDiff_settled hmade.started hnoted hproved hreplays.moment
      hreplays.held hreplays.boundary hreplays.prover
    rw [Engine.advanceAccumulator, htake] at hadvance
    obtain rfl := Option.some.inj hadvance
    have hadopted := Engine.adoptDiff_settled w { s with
      ahead
      log := s.log ++ [.tookDiff diff toEpoch s.snapshot.state.accCommitment] } toEpoch diff
    exact (hadopted.congr hreplays.writeWitness.symm hreplays.writeProof.symm).unique hinline

end Replays
end Zkasper.Orchestrator

/-! ## An epoch that is opened ahead -/

namespace Zkasper.Formal

open Orchestrator Boundaries

/-- A prover that runs the circuits, in trees of two leaves, and makes no words. -/
def nativeProver : Orchestrator.Prover (formal {}) where
  proveEpochDiff w := (verifyEpochDiffWithDepth w 1 1).map fun output => (output, [])
  proveCommittee w := (Committee.root ((List.range Committee.maxSlots).map fun slot =>
      EpochCommittees.sumSlot (Committee.assigned w.members slot))).map fun root =>
    (⟨w.accumulatorCommitment, w.targetEpoch, root⟩, [])
  circuit := by
    intro w output proof h
    refine ⟨1, 1, ?_⟩
    cases hrun : verifyEpochDiffWithDepth w 1 1 with
    | ok out =>
        rw [hrun] at h
        rw [(Prod.mk.inj (Except.ok.inj h)).1]
    | error e =>
        rw [hrun] at h
        cases h

/-- The boundary at a slot, with the first `n` validators. -/
def rosterAt (slot : UInt64) (n : ℕ) (committees : List CommitteeResponse) : BoundaryInputs where
  slot
  validators := (roster n).mapIdx fun i v => ⟨v, .ofNat i⟩
  committees

/-- A second validator joins at slot 32, and both attest there. -/
def openingWorld : Orchestrator.World (formal {}) where
  moment := 0
  headSlot := 32
  boundaryAt slot :=
    .ok (if slot = 0 then rosterAt 0 1 [] else rosterAt 32 2 [⟨32, 0, [0, 1]⟩])
  checkpointRoot _ := .ok (formal {}).zeroChunk
  signingDomain _ := .ok (formal {}).zeroChunk
  prover := nativeProver
  writeWitness _ _ := .ok ()
  writeProof _ _ := .ok ()
  save _ := .ok ()

def openingTree : AccTree (formal {}) :=
  (AccTree.build ((roster 1).map (·.data)) 0 1).toOption.getD ⟨0, 0, [], []⟩

def openingSnapshot : Store.Snapshot (formal {}) :=
  ⟨.started "formal" 0 openingTree.root 32 1, openingTree, EpochState.empty 0 1⟩

end Zkasper.Formal

namespace Zkasper.Orchestrator

open Library Transition Formal

/-- A diff that was made ahead is adopted, and the committees that came with it are taken. -/
theorem speculation_inline_joined :
    ∃ s s' diff, ∃ committee : AheadCommittee (formal {}),
      Reached (Engine.step (fun _ => headerless) ⟨⟨1, 32⟩, 0⟩) always
        (Engine.opened openingSnapshot) s ∧
      diff.Made (fun _ => headerless) ⟨⟨1, 32⟩, 0⟩ 1 s.snapshot.state.accCommitment ∧
      Engine.advanceAccumulator (fun _ => headerless) ⟨⟨1, 32⟩, 0⟩ openingWorld 1 s = some s' ∧
      (∃ w', World.Replays ⟨⟨1, 32⟩, 0⟩ w' openingWorld s.snapshot 1 diff ∧
        s'.snapshot = (leave
          (Engine.proveDiff (fun _ => headerless) ⟨⟨1, 32⟩, 0⟩ w' 1) s).snapshot) ∧
      s'.snapshot.state.cursorEpoch = 1 ∧
      committee.Made (fun _ => headerless) ⟨⟨1, 32⟩, 0⟩ 1 s'.snapshot.state.accCommitment := by
  obtain ⟨s, hrun, htake, hadvance⟩ : ∃ s, run
        (Engine.step (fun _ => headerless) ⟨⟨1, 32⟩, 0⟩) always (Engine.opened openingSnapshot)
        [.start openingWorld 1, .complete nativeProver] = some s ∧
      (s.ahead.takeDiff 1 s.snapshot.state.accCommitment).any (·.1.isSome) = true ∧
      (Engine.advanceAccumulator (fun _ => headerless) ⟨⟨1, 32⟩, 0⟩ openingWorld 1 s).any
        (fun s' => s'.snapshot.state.cursorEpoch = 1 ∧
          (s'.ahead.takeCommittee 1 s'.snapshot.state.accCommitment).1.isSome = true) = true := by
    decide +kernel
  have hreached := Reached.of_run hrun
  obtain ⟨⟨taken, ahead⟩, htake, hsome⟩ := (Option.any_eq_true _ _).mp htake
  obtain ⟨diff, rfl⟩ := Option.isSome_iff_exists.mp hsome
  obtain ⟨s', hadvance, hend⟩ := (Option.any_eq_true _ _).mp hadvance
  obtain ⟨hcursor, hkept⟩ := of_decide_eq_true hend
  obtain ⟨committee, hcommittee⟩ := Option.isSome_iff_exists.mp hkept
  obtain ⟨hdiff, -, -, -, -, hinline⟩ := speculation_inline hreached
  obtain ⟨⟨w', hreplays⟩, hsame⟩ := hinline openingWorld 1 diff ahead s' htake hadvance
  have hnext : Reached (Engine.step (fun _ => headerless) ⟨⟨1, 32⟩, 0⟩) always
      (Engine.opened openingSnapshot) s' :=
    hreached.step (e := .advance openingWorld 1) trivial hadvance
  refine ⟨s, s', diff, committee, hreached, (hdiff _ _ _ _ htake).1, hadvance,
    ⟨w', hreplays, hsame w' hreplays⟩, hcursor, ?_⟩
  exact ((speculation_inline hnext).2.1 _ _ _ _ (Prod.ext hcommittee rfl)).1

end Zkasper.Orchestrator
