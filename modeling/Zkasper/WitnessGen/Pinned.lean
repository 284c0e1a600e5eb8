import Zkasper.WitnessGen.Adoption
import Zkasper.WitnessGen.Ledger
import Zkasper.WitnessGen.StreamRuns

/-! # What is bound to the accumulator

Every proof of an epoch is bound to the accumulator the epoch opened against. Said three times:
how the accumulator moves (`Advanced`), and for either pipeline that its epoch in flight, and
with it the record it closes in, is of the cursor and the commitment the tick found
(`Batch.Pinned`, `Streaming.Pinned`). -/

/-! ## The accumulator -/

namespace Zkasper.Orchestrator

open Library Transition Store Boundaries

variable {P : Primitives} {node : ℕ → BeaconApi P} {config : EngineConfig}

/-- **The accumulator has moved** on by one epoch, on a diff that starts where it stood and is on
record; what the pipelines noted stays. -/
def Advanced (before after : StoreState P) : Prop :=
  ∃ (record : Record (EpochDiffOutput P)) (accRoot accChainDigest : P.Digest)
    (totalActiveBalance numValidators : UInt64),
    record.output.epoch1 = before.cursorEpoch ∧ record.output.epoch2 = before.cursorEpoch + 1 ∧
      record.output.prevAccumulatorCommitment = before.accCommitment ∧
      after = { before with
        cursorEpoch := before.cursorEpoch + 1
        accRoot
        accCommitment := record.output.accumulatorCommitment
        accChainDigest
        totalActiveBalance
        numValidators
        lastEpochDiff := some record }

/-- The call a proved diff makes moves the state so, where it is not refused. -/
theorem advanced_of_call {s : StoreState P} {toEpoch : UInt64} {output : EpochDiffOutput P}
    {proof : RemoteProver.Proof} {numValidators : UInt64}
    (hepochs : output.epoch1 = s.cursorEpoch ∧ output.epoch2 = toEpoch)
    (hprevious : output.prevAccumulatorCommitment = s.accCommitment)
    (hmoved : (s.advance (Engine.advanceCall toEpoch output proof numValidators)).1 = .ok ()) :
    Advanced s (s.advance (Engine.advanceCall toEpoch output proof numValidators)).2 := by
  rcases advance_cases s (Engine.advanceCall toEpoch output proof numValidators) with
    ⟨message, hrefused⟩ | ⟨hnext, -, hstate⟩
  · rw [hrefused] at hmoved
    cases hmoved
  · obtain rfl : toEpoch = s.cursorEpoch + 1 := hnext
    rw [hstate]
    exact ⟨⟨output, proof⟩, _, _, _, _, hepochs.1, hepochs.2, hprevious, rfl⟩

/-- The circuit publishes the epochs it was given. -/
theorem Prover.epochs (prover : Prover P) {witness : EpochDiffWitness P}
    {output : EpochDiffOutput P} {proof : RemoteProver.Proof}
    (h : prover.proveEpochDiff witness = .ok (output, proof)) :
    output.epoch1 = witness.epoch1 ∧ output.epoch2 = witness.epoch2 := by
  obtain ⟨sszDepth, accDepth, hcircuit⟩ := prover.circuit h
  simp only [verifyEpochDiffWithDepth, Guest.bind_eq_ok, Guest.assert_eq_ok, Guest.pure_eq_ok,
    exists_const] at hcircuit
  obtain ⟨_, -, _, -, _, -, _, -, -, -, rfl⟩ := hcircuit
  exact ⟨rfl, rfl⟩

namespace Engine

variable {w : World P} {s s' : Engine P} {toEpoch : UInt64}

/-- A diff that is made ahead is of the snapshot it is taken on. -/
theorem Inv.taken {diff : AheadDiff P} {commitment : P.Digest} {ahead : Speculation P}
    (h : s.Inv node config)
    (htake : s.ahead.takeDiff toEpoch commitment = some (some diff, ahead)) :
    diff.output.epoch1 = s.snapshot.state.cursorEpoch ∧ diff.output.epoch2 = toEpoch := by
  obtain ⟨-, ⟨htaken, -⟩ | ⟨handle, both, hrunning, hjoined, htaken, -⟩⟩ :=
    Speculation.takeDiff_cases htake
  · cases htaken
  · obtain rfl := Option.some.inj htaken
    have hflight := h.sound.running _ _ _ hrunning
    obtain ⟨prover, hproved⟩ := hflight.returned both hjoined
    obtain ⟨-, -, -, -, -, hanswer, -⟩ := proveAhead_eq_ok hproved
    obtain ⟨hepoch1, hepoch2⟩ := prover.epochs hanswer
    obtain ⟨progress, hsnapshot⟩ := hflight.noted
    refine ⟨hepoch1.trans (hflight.started.epoch1.trans ?_),
      hepoch2.trans hflight.started.epoch2⟩
    rw [hsnapshot]
    rfl

/-- The accumulator stays, or has moved on. -/
def MayAdvance (s s' : Engine P) : Prop :=
  s'.snapshot = s.snapshot ∨ Advanced s.snapshot.state s'.snapshot.state

/-- **Adopting** a diff of the snapshot. -/
theorem adoptDiff_advances {diff : AheadDiff P}
    (hepochs : diff.output.epoch1 = s.snapshot.state.cursorEpoch ∧ diff.output.epoch2 = toEpoch) :
    MayAdvance s (leave (adoptDiff w toEpoch diff) s) := by
  have hsettled := adoptDiff_settled w s toEpoch diff
  by_cases hsettles : Settles w toEpoch s.snapshot diff
  · refine .inr ?_
    rw [hsettled.moved hsettles]
    exact advanced_of_call hepochs hsettles.1 hsettles.2.1
  · exact .inl (hsettled.stayed hsettles)

/-- **Proving inline**, whatever the node and the prover answer. -/
theorem proveDiff_advances : MayAdvance s (leave (proveDiff node config w toEpoch) s) := by
  simp only [proveDiff, tell, leave_modify_bind, leave_get_bind]
  -- whatever fails before the state has moved leaves the snapshot
  refine leave_attempt_rule (p := MayAdvance s) (.inl rfl) fun held _ => ?_
  refine leave_attempt_rule (p := MayAdvance s) (.inl rfl) fun boundary _ => ?_
  refine leave_attempt_rule (p := MayAdvance s) (.inl rfl) fun diff _ => ?_
  refine leave_attempt_rule (p := MayAdvance s) (.inl rfl) fun _ hspans => ?_
  refine leave_attempt_rule (p := MayAdvance s) (.inl rfl) fun answer hproved => ?_
  refine leave_attempt_rule (p := MayAdvance s) (.inl rfl) fun _ _ => ?_
  refine leave_attempt_rule (p := MayAdvance s) (.inl rfl) fun _ _ => ?_
  refine leave_attempt_rule (p := MayAdvance s) (.inl rfl) fun _ hprevious => ?_
  refine leave_attempt_rule (p := MayAdvance s) (.inl rfl) fun _ hmoved => ?_
  rw [Guest.assert_eq_ok] at hspans hprevious
  obtain ⟨hepoch1, hepoch2⟩ := w.prover.epochs hproved
  have hadvanced := advanced_of_call ⟨hepoch1.trans hspans.1, hepoch2.trans hspans.2⟩ hprevious
    hmoved
  obtain ⟨s₁, hs₁, ⟨-, h⟩ | ⟨-, h⟩⟩ := persist_cases (w := w) .epochDiff toEpoch answer.2
    (do
      commit w ⟨_, diff.accTree, diff.epochState⟩
      tell (.recorded .epochDiff toEpoch)) { s with log := s.log ++ [.begun .epochDiff toEpoch] }
  · exact .inl ((congrArg Engine.snapshot h).trans hs₁)
  · refine .inr ?_
    have hstate := (congrArg Engine.snapshot h).trans (commit_snapshot _ _)
    exact (congrArg (fun snapshot => Advanced s.snapshot.state snapshot.state) hstate).mpr hadvanced

/-- **How the accumulator moves**: not at all, or onto the next epoch. -/
theorem Inv.advances (h : s.Inv node config)
    (hadvance : advanceAccumulator node config w toEpoch s = some s') :
    MayAdvance s s' := by
  obtain ⟨⟨taken, ahead⟩, htake, rfl⟩ := Option.map_eq_some_iff.mp hadvance
  cases taken with
  | some diff => exact adoptDiff_advances (h.taken htake)
  | none => exact proveDiff_advances

end Engine
end Zkasper.Orchestrator

/-! ## The batch pipeline -/

namespace Zkasper.Batch

open Library EpochAggregator BatchPipeline

variable {P : Primitives} [Ord P.Bytes32] {B : Blst} {S : ProofSystem P} {accDepth : ℕ}
  {config : Config} {tick : Tick P} {epoch : UInt64} {commitment : P.Digest}
  {s : BatchPipeline P B}

/-- **An epoch in flight**, and the links of its chain, are of one epoch and one accumulator. -/
structure Pinned (epoch : UInt64) (commitment : P.Digest) (a : EpochAggregator P B) : Prop where
  ofEpoch : a.targetEpoch = epoch
  ofAccumulator : a.accCommitment = commitment
  chain : ∀ record, a.justification = some record →
    record.output.targetEpoch = epoch ∧ record.output.accumulatorCommitment = commitment

/-- A tick of the epoch and the accumulator, whose prover is honest. -/
structure Binds (S : ProofSystem P) (accDepth : ℕ) (epoch : UInt64) (commitment : P.Digest)
    (tick : Tick P) : Prop where
  cursor : tick.cursorEpoch = epoch
  opening : ∀ o, tick.opening = .ok o → o.accCommitment = commitment
  honest : Honest S accDepth tick.prover

omit [Ord P.Bytes32] in
/-- The circuit publishes the epoch and the accumulator it was given. -/
theorem verifyJustification_binds {w : JustificationWitness P} {out : JustificationOutput P}
    (h : verifyJustification S w = .ok out) :
    out.targetEpoch = w.targetEpoch ∧ out.accumulatorCommitment = w.accumulatorCommitment := by
  simp only [verifyJustification, Guest.bind_eq_ok, Guest.pure_eq_ok] at h
  obtain ⟨_, -, _, -, _, -, _, -, _, -, _, -, rfl⟩ := h
  exact ⟨rfl, rfl⟩

theorem pinned_preserved : Preserved config (Binds S accDepth epoch commitment) (fun _ => True)
    fun _ (a : EpochAggregator P B) => Pinned epoch commitment a where
  start := trivial
  opened hready hopening :=
    ⟨hready.cursor, hready.opening _ hopening, fun _ hnone => by cases hnone⟩
  read _ _ ha := ⟨ha.ofEpoch, ha.ofAccumulator, ha.chain⟩
  close ha _ _ := ⟨ha.ofEpoch, ha.ofAccumulator, ha.chain⟩
  prove _ _ ha _ := ⟨trivial, fun _ _ => ⟨ha.ofEpoch, ha.ofAccumulator, ha.chain⟩⟩
  fold {tick log a} hready _ ha := by
    refine ⟨trivial, fun proven hproven => ⟨ha.ofEpoch, ha.ofAccumulator, fun record hrecord => ?_⟩⟩
    obtain rfl := Option.some.inj hrecord
    obtain ⟨hepoch, hcommitment⟩ := verifyJustification_binds
      (hready.honest.justification _ _ _ hproven)
    exact ⟨hepoch.trans ha.ofEpoch, hcommitment.trans ha.ofAccumulator⟩

/-- What a tick leaves part-built. -/
theorem run_waiting {a : EpochAggregator P B} (hready : Binds S accDepth epoch commitment tick)
    (hs : ∀ a, s.pending = some a → Pinned epoch commitment a)
    (h : (s.run config tick).result = .ok (.waiting a)) : Pinned epoch commitment a := by
  have hholds : Holds (fun _ (a : EpochAggregator P B) => Pinned epoch commitment a) s [] := hs
  exact (pinned_preserved.run hready trivial hholds).ok _ h a rfl

/-- **The record an epoch closes in**, and what comes of it. -/
theorem run_justified {record : JustificationRecord P} {finalized : Option (Checkpoint P)}
    (hready : Binds S accDepth epoch commitment tick)
    (hs : ∀ a, s.pending = some a → Pinned epoch commitment a)
    (h : (s.run config tick).result = .ok (.justified record finalized)) :
    record.output.targetEpoch = epoch ∧ record.output.accumulatorCommitment = commitment ∧
      tick.tryFinalize record = .ok finalized := by
  have hkept : Preserved config (Binds S accDepth epoch commitment) (fun _ => True)
    fun _ (a : EpochAggregator P B) => Pinned epoch commitment a := pinned_preserved
  have hholds : Holds (fun _ (a : EpochAggregator P B) => Pinned epoch commitment a) s [] := hs
  obtain ⟨a, hwalked, hsettle⟩ := Logged.bind_result_eq_ok.mp h
  have ha : Pinned epoch commitment a :=
    (hkept.walked hready trivial hholds
      fun a => a.scanEnd.toNat - a.nextSlot.toNat).ok _ hwalked
  unfold settle at hsettle
  split at hsettle
  · obtain ⟨b, hgroup, hsettle⟩ := Logged.bind_result_eq_ok.mp hsettle
    have hb : Pinned epoch commitment b :=
      (@Preserved.closingGroup P _ B config _ _ _ tick [] a hkept hready trivial ha).ok _ hgroup
    obtain ⟨c, hfold, hsettle⟩ := Logged.bind_result_eq_ok.mp hsettle
    have hc : Pinned epoch commitment c :=
      (@Preserved.foldJustification P _ B config _ _ _ tick [] b hkept hready trivial hb).ok _
        hfold
    obtain ⟨closing, hclosing, hsettle⟩ := Logged.bind_result_eq_ok.mp hsettle
    obtain ⟨_, -, hsettle⟩ := Logged.bind_result_eq_ok.mp hsettle
    obtain ⟨made, hmade, hsettle⟩ := Logged.bind_result_eq_ok.mp hsettle
    obtain ⟨_, -, hsettle⟩ := Logged.bind_result_eq_ok.mp hsettle
    obtain ⟨rfl, rfl⟩ := Ending.justified.inj (Except.ok.inj hsettle)
    obtain ⟨hepoch, hcommitment⟩ := hc.chain _ (Guest.expect_eq_ok.mp hclosing)
    exact ⟨hepoch, hcommitment, hmade⟩
  · split at hsettle
    · obtain ⟨_, -, hsettle⟩ := Logged.bind_result_eq_ok.mp hsettle
      cases hsettle
    · cases hsettle

end Zkasper.Batch

/-! ## The streaming pipeline -/

namespace Zkasper.Streaming

open StreamAggregator StreamPipeline

variable {P : Primitives} [Ord P.Bytes32] {B : Blst} {𝕜 : Type} [LinearOrder 𝕜] [AddCommGroup 𝕜]
  {config : Config 𝕜} {tick : Tick P} {epoch : UInt64} {commitment : P.Digest}
  {Precedes : PreviousJustification P → Prop} {s : StreamPipeline P B}

/-- The final proof that is in flight is of the epoch, the accumulator and the checkpoint. -/
def FinalOf (epoch : UInt64) (commitment : P.Digest) (targetRoot : P.Bytes32)
    (Precedes : PreviousJustification P → Prop) : Option (Pending P) → Prop
  | some (.final _ witness) =>
      witness.targetEpoch = epoch ∧ witness.accumulatorCommitment = commitment ∧
        witness.targetRoot = targetRoot ∧ Precedes witness.previousJustification
  | some (.late ..) => False
  | _ => True

/-- **An epoch in flight**, and its final proof, are of one epoch and one accumulator, on top of a
justification that precedes it. -/
structure Pinned (epoch : UInt64) (commitment : P.Digest)
    (Precedes : PreviousJustification P → Prop) (a : StreamAggregator P B)
    (pending : Option (Pending P)) : Prop where
  ofEpoch : a.context.targetEpoch = epoch
  ofAccumulator : a.context.accumulatorCommitment = commitment
  previous : Precedes a.previous
  inFlight : FinalOf epoch commitment a.context.targetRoot Precedes pending

/-- A tick of the epoch, the accumulator and the justification. -/
structure Binds (epoch : UInt64) (commitment : P.Digest)
    (Precedes : PreviousJustification P → Prop) (tick : Tick P) (_ : StreamPipeline P B) :
    Prop where
  cursor : tick.cursorEpoch = epoch
  opening : ∀ o, tick.opening = some o →
    o.accumulatorCommitment = commitment ∧ Precedes o.previous

/-- What precedes an epoch goes on preceding it. -/
theorem Pinned.mono {Precedes' : PreviousJustification P → Prop} {a : StreamAggregator P B}
    {pending : Option (Pending P)} (h : Pinned epoch commitment Precedes a pending)
    (hweaker : ∀ previous, Precedes previous → Precedes' previous) :
    Pinned epoch commitment Precedes' a pending := by
  refine ⟨h.ofEpoch, h.ofAccumulator, hweaker _ h.previous, ?_⟩
  have hinFlight := h.inFlight
  unfold FinalOf at hinFlight ⊢
  split
  · exact ⟨hinFlight.1, hinFlight.2.1, hinFlight.2.2.1, hweaker _ hinFlight.2.2.2⟩
  · exact hinFlight
  · trivial

omit [LinearOrder 𝕜] [AddCommGroup 𝕜] in
theorem pinned_stable (pending : Option (Pending P)) :
    Stable fun a : StreamAggregator P B => Pinned epoch commitment Precedes a pending :=
  fun _ _ _ _ _ _ _ _ h => ⟨h.ofEpoch, h.ofAccumulator, h.previous, h.inFlight⟩

theorem pinned_preserved : Preserved config (Binds epoch commitment Precedes)
    (Pinned epoch commitment Precedes : StreamAggregator P B → Option (Pending P) → Prop) where
  stable := pinned_stable
  opened hready hopening :=
    ⟨hready.cursor, (hready.opening _ hopening).1, (hready.opening _ hopening).2, trivial⟩
  group _ h _ := ⟨h.ofEpoch, h.ofAccumulator, h.previous, trivial⟩
  fold _ h hfold := by
    simp only [finishFold, Guest.bind_eq_ok, Guest.assert_eq_ok, Guest.pure_eq_ok,
      exists_const] at hfold
    obtain ⟨_, -, -, rfl⟩ := hfold
    exact ⟨h.ofEpoch, h.ofAccumulator, h.previous, trivial⟩
  late h := h.inFlight
  close {tick s a units} _ _ h _ := by
    obtain ⟨stream, balance, heq⟩ := closeUnits_eq units a
    rw [heq]
    exact ⟨h.ofEpoch, h.ofAccumulator, h.previous, trivial⟩
  starts {tick s a a' pending jobs} _ h hstarts := by
    cases hstarts with
    | nothing => exact h
    | fold _ => exact ⟨h.ofEpoch, h.ofAccumulator, h.previous, trivial⟩
    | group _ _ => exact ⟨h.ofEpoch, h.ofAccumulator, h.previous, trivial⟩
    | final _ =>
        exact ⟨h.ofEpoch, h.ofAccumulator, h.previous, h.ofEpoch, h.ofAccumulator, rfl, h.previous⟩

end Zkasper.Streaming
