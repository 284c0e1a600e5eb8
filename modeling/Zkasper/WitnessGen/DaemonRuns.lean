import Zkasper.WitnessGen.Daemon
import Zkasper.WitnessGen.Latency
import Zkasper.WitnessGen.Pinned

/-! # What the daemon publishes

The closes of a run are a ledger (`Ledger`): their epochs go up, and each finalizes the one
before it exactly if that is of the epoch before. What carries it from tick to tick is what is
on record: the justification and the stream final are of closes, and whatever closed one epoch
back is linked to the accumulator by the diff on record (`Linked`). So the ways out that the
source has where a diff is missing, or does not fit, are never taken. -/

namespace Zkasper.Daemon

open Library Transition Store
open Orchestrator (Advanced Engine)
open Orchestrator.Engine (Progress)

variable {P : Primitives}

/-! ## The ledger -/

/-- What an epoch finalizes: the newest close, where it is of the epoch before. -/
def finalizes (closed : List (ClosedEpoch P)) (epoch : UInt64) : Option (Checkpoint P) :=
  (closed.head?.filter fun c => c.checkpoint.epoch + 1 = epoch).map (·.checkpoint)

/-- **Every close finalizes the one before it**, if that is of the epoch before, else nothing. -/
def Chained : List (ClosedEpoch P) → Prop
  | [] => True
  | c :: closed => c.finalized = finalizes closed c.checkpoint.epoch ∧ Chained closed

/-- An epoch that was proved against an accumulator is linked to the one of the state: it is the
same, or the diff on record leads from it. -/
structure Linked (s : StoreState P) (epoch : UInt64) (commitment : P.Digest) : Prop where
  here : epoch = s.cursorEpoch → commitment = s.accCommitment
  before : epoch + 1 = s.cursorEpoch → ∃ diff, s.lastEpochDiff = some diff ∧
    (diff.output.epoch1 = epoch ∧ diff.output.epoch2 = s.cursorEpoch) ∧
    diff.output.prevAccumulatorCommitment = commitment ∧
    diff.output.accumulatorCommitment = s.accCommitment

/-- What is on record of a checkpoint is of a close, and linked. -/
def Entered (s : StoreState P) (closed : List (ClosedEpoch P)) (checkpoint : Checkpoint P)
    (commitment : P.Digest) : Prop :=
  (∃ c ∈ closed, c.checkpoint = checkpoint) ∧ Linked s checkpoint.epoch commitment

/-- The justification that the newest close left is on record. -/
def OnRecord (s : StoreState P) (epoch : UInt64) : Prop :=
  (∃ record, s.lastJustification = some record ∧ record.output.targetEpoch = epoch) ∨
    ∃ record, s.lastStreamFinal = some record ∧ record.output.justifiedEpoch = epoch

/-- **The ledger**, and the state that keeps it. -/
structure Ledger (pipeline : Pipeline) (s : StoreState P) (closed : List (ClosedEpoch P)) :
    Prop where
  room : s.cursorEpoch.toNat + 1 < 2 ^ 64
  descending : closed.Pairwise fun c c' => c'.checkpoint.epoch < c.checkpoint.epoch
  behind : ∀ c ∈ closed, c.checkpoint.epoch ≤ s.cursorEpoch
  attempted : ∀ c ∈ closed, c.checkpoint.epoch = s.cursorEpoch →
    s.attemptedEpoch = some s.cursorEpoch
  chained : Chained closed
  finalized : s.finalized = closed.findSome? (·.finalized)
  justification : ∀ record, s.lastJustification = some record →
    Entered s closed ⟨record.output.targetEpoch, record.output.targetRoot⟩
      record.output.accumulatorCommitment
  streamFinal : ∀ record, s.lastStreamFinal = some record →
    Entered s closed ⟨record.output.justifiedEpoch, record.output.justifiedRoot⟩
      record.output.nextAccumulatorCommitment
  newest : ∀ c, closed.head? = some c → OnRecord s c.checkpoint.epoch
  batchOnly : pipeline = .batch → s.lastStreamFinal = none

/-! ### What it says -/

section Reading

variable {pipeline : Pipeline} {s : StoreState P} {closed : List (ClosedEpoch P)}

/-- An epoch of a close is before the cursor, as long as the cursor's has not been attempted. -/
theorem Ledger.lt_cursor (h : Ledger pipeline s closed)
    (hopen : s.attemptedEpoch ≠ some s.cursorEpoch) {c : ClosedEpoch P} (hc : c ∈ closed) :
    c.checkpoint.epoch < s.cursorEpoch :=
  UInt64.lt_of_le_of_ne (h.behind c hc) fun heq => hopen (h.attempted c hc heq)

/-- **The close of the epoch before** the cursor is the newest. -/
theorem Ledger.finalizes_of_mem (h : Ledger pipeline s closed)
    (hopen : s.attemptedEpoch ≠ some s.cursorEpoch) {c : ClosedEpoch P} (hc : c ∈ closed)
    (hnext : c.checkpoint.epoch + 1 = s.cursorEpoch) :
    finalizes closed s.cursorEpoch = some c.checkpoint := by
  cases closed with
  | nil => cases hc
  | cons head tail =>
      rcases List.mem_cons.mp hc with rfl | htail
      · simp [finalizes, hnext]
      · -- one between the two would be of the cursor's epoch
        exfalso
        have hlt := UInt64.lt_iff_toNat_lt.mp ((List.pairwise_cons.mp h.descending).1 c htail)
        have hhead := UInt64.lt_iff_toNat_lt.mp (h.lt_cursor hopen List.mem_cons_self)
        have hroom := h.room
        have hsucc := congrArg UInt64.toNat hnext
        rw [UInt64.toNat_add] at hsucc
        simp only [UInt64.reduceToNat] at hsucc
        omega

/-- What the state hands out for the cursor is of a close, the newest one. -/
theorem Ledger.previous (h : Ledger pipeline s closed) {previous : PreviousJustification P}
    {proof : List UInt64}
    (hprevious : s.previousJustification s.cursorEpoch = some (previous, proof)) :
    previous.targetEpoch + 1 = s.cursorEpoch ∧
      Entered s closed ⟨previous.targetEpoch, previous.targetRoot⟩
        previous.accumulatorCommitment := by
  obtain ⟨hepoch, ⟨record, hrecord, rfl, -⟩ | ⟨record, hrecord, rfl, -⟩⟩ :=
    previousJustification_eq_some hprevious
  · exact ⟨by rw [hepoch, UInt64.sub_add_cancel], h.streamFinal record hrecord⟩
  · exact ⟨by rw [hepoch, UInt64.sub_add_cancel], h.justification record hrecord⟩

/-- **A diff is never missing**: where there is a justification for the cursor, the diff on record
leads from its accumulator to that of the state. -/
theorem Ledger.linked (h : Ledger pipeline s closed) {previous : PreviousJustification P}
    {proof : List UInt64}
    (hprevious : s.previousJustification s.cursorEpoch = some (previous, proof)) :
    ∃ diff, s.lastEpochDiff = some diff ∧
      (diff.output.epoch1 = previous.targetEpoch ∧ diff.output.epoch2 = s.cursorEpoch) ∧
      diff.output.prevAccumulatorCommitment = previous.accumulatorCommitment ∧
      diff.output.accumulatorCommitment = s.accCommitment := by
  obtain ⟨hnext, -, hlinked⟩ := h.previous hprevious
  exact hlinked.before hnext

/-- So only a justification is asked for. -/
theorem Ledger.canStream_iff (h : Ledger pipeline s closed) :
    canStream s = true ↔ (s.previousJustification s.cursorEpoch).isSome = true := by
  rw [canStream, Bool.and_eq_true, and_iff_right_iff_imp]
  intro hsome
  obtain ⟨⟨previous, proof⟩, hprevious⟩ := Option.isSome_iff_exists.mp hsome
  obtain ⟨diff, hdiff, -⟩ := h.linked hprevious
  rw [hdiff]
  rfl

/-- **A pair** is of the newest close. -/
theorem Ledger.finalizes_of_pairing (h : Ledger pipeline s closed)
    (hopen : s.attemptedEpoch ≠ some s.cursorEpoch) {current : JustificationOutput P}
    {previous : Record (JustificationOutput P)} {diff : Record (EpochDiffOutput P)}
    (hepoch : current.targetEpoch = s.cursorEpoch)
    (hpair : Batch.pairing s current = some (previous, diff)) :
    finalizes closed s.cursorEpoch =
      some ⟨previous.output.targetEpoch, previous.output.targetRoot⟩ := by
  obtain ⟨hrecord, -, hnext, -⟩ := Batch.pairing_eq_some.mp hpair
  obtain ⟨⟨c, hc, hcheckpoint⟩, -⟩ := h.justification previous hrecord
  rw [← hcheckpoint]
  apply h.finalizes_of_mem hopen hc
  rw [hcheckpoint, ← hepoch, ← hnext]

/-- **Where there is no pair** and nothing to stream on, no close is of the epoch before. -/
theorem Ledger.finalizes_of_unpaired (h : Ledger pipeline s closed)
    (hbatch : ¬ (pipeline = .streaming ∧ canStream s = true)) {current : JustificationOutput P}
    (hepoch : current.targetEpoch = s.cursorEpoch)
    (hcommitment : current.accumulatorCommitment = s.accCommitment)
    (hpair : Batch.pairing s current = none) : finalizes closed s.cursorEpoch = none := by
  rw [finalizes, Option.map_eq_none_iff, Option.filter_eq_none_iff]
  intro c hc
  simp only [decide_eq_true_eq]
  intro hnext
  rcases h.newest c hc with ⟨record, hrecord, htarget⟩ | ⟨record, hrecord, htarget⟩
  · obtain ⟨-, hlinked⟩ := h.justification record hrecord
    obtain ⟨diff, hdiff, ⟨hepoch1, hepoch2⟩, hprev, hacc⟩ := hlinked.before (htarget ▸ hnext)
    have hpaired : Batch.pairing s current = some (record, diff) :=
      Batch.pairing_eq_some.mpr ⟨hrecord, hdiff, by rw [htarget, hnext, hepoch],
        ⟨hepoch1, hepoch2.trans hepoch.symm⟩, hprev, hacc.trans hcommitment.symm⟩
    rw [hpair] at hpaired
    cases hpaired
  · cases pipeline with
    | batch =>
        rw [h.batchOnly rfl] at hrecord
        cases hrecord
    | streaming =>
        refine hbatch ⟨rfl, h.canStream_iff.mpr ?_⟩
        rw [StoreState.previousJustification, hrecord]
        dsimp only
        rw [if_pos (by rw [htarget, hnext])]
        rfl

end Reading

/-! ### What keeps it -/

section Keeping

variable {pipeline : Pipeline} {s s' : StoreState P} {closed : List (ClosedEpoch P)}

theorem Ledger.started (pipeline : Pipeline) (chain : String) {epoch : UInt64} (accRoot : P.Digest)
    (totalActiveBalance numValidators : UInt64) (hroom : epoch.toNat + 1 < 2 ^ 64) :
    Ledger pipeline (.started chain epoch accRoot totalActiveBalance numValidators)
      ([] : List (ClosedEpoch P)) where
  room := hroom
  descending := .nil
  behind _ h := by cases h
  attempted _ h := by cases h
  chained := trivial
  finalized := rfl
  justification _ h := by cases h
  streamFinal _ h := by cases h
  newest _ h := by cases h
  batchOnly _ := rfl

/-- Giving an epoch up closes nothing. -/
theorem Ledger.givenUp (h : Ledger pipeline s closed) :
    Ledger pipeline ((givenUp s).note s) closed where
  room := h.room
  descending := h.descending
  behind := h.behind
  attempted _ _ _ := rfl
  chained := h.chained
  finalized := h.finalized
  justification record hrecord :=
    ⟨(h.justification record hrecord).1, (h.justification record hrecord).2.1,
      (h.justification record hrecord).2.2⟩
  streamFinal record hrecord :=
    ⟨(h.streamFinal record hrecord).1, (h.streamFinal record hrecord).2.1,
      (h.streamFinal record hrecord).2.2⟩
  newest := h.newest
  batchOnly := h.batchOnly

/-- **Closing the cursor's epoch**: its close goes on top, and what it left is on record. -/
theorem Ledger.close (h : Ledger pipeline s closed)
    (hopen : s.attemptedEpoch ≠ some s.cursorEpoch) {noted : Progress P} {c : ClosedEpoch P}
    (hepoch : c.checkpoint.epoch = s.cursorEpoch)
    (hfinalizes : c.finalized = finalizes closed s.cursorEpoch)
    (hattempted : noted.attemptedEpoch = some s.cursorEpoch)
    (hfinalized : noted.finalized = (c.finalized <|> s.finalized))
    (hjustification : ∀ record, noted.lastJustification = some record →
      s.lastJustification = some record ∨
        c.checkpoint = ⟨record.output.targetEpoch, record.output.targetRoot⟩ ∧
          record.output.accumulatorCommitment = s.accCommitment)
    (hstreamFinal : ∀ record, noted.lastStreamFinal = some record →
      s.lastStreamFinal = some record ∨
        c.checkpoint = ⟨record.output.justifiedEpoch, record.output.justifiedRoot⟩ ∧
          record.output.nextAccumulatorCommitment = s.accCommitment)
    (hnewest : OnRecord (noted.note s) s.cursorEpoch)
    (hbatchOnly : pipeline = .batch → noted.lastStreamFinal = none) :
    Ledger pipeline (noted.note s) (c :: closed) := by
  have hkept : ∀ {checkpoint commitment}, Entered s closed checkpoint commitment →
      Entered (noted.note s) (c :: closed) checkpoint commitment := by
    rintro checkpoint commitment ⟨⟨old, hold, hcheckpoint⟩, hhere, hbefore⟩
    exact ⟨⟨old, List.mem_cons_of_mem _ hold, hcheckpoint⟩, hhere, hbefore⟩
  have hentered : ∀ {commitment}, commitment = s.accCommitment →
      Entered (noted.note s) (c :: closed) c.checkpoint commitment := by
    intro commitment hcommitment
    refine ⟨⟨c, List.mem_cons_self, rfl⟩, fun _ => hcommitment, fun hnext => ?_⟩
    -- no epoch comes before itself
    have hsucc := congrArg UInt64.toNat ((congrArg (· + 1) hepoch).symm.trans hnext)
    have hroom := h.room
    change (s.cursorEpoch + 1).toNat = s.cursorEpoch.toNat at hsucc
    rw [UInt64.toNat_add] at hsucc
    simp only [UInt64.reduceToNat] at hsucc
    omega
  constructor
  · exact h.room
  · refine List.pairwise_cons.mpr ⟨fun old hold => ?_, h.descending⟩
    rw [hepoch]
    exact h.lt_cursor hopen hold
  · intro old hold
    rcases List.mem_cons.mp hold with rfl | hold
    · rw [hepoch]
      exact UInt64.le_refl _
    · exact h.behind old hold
  · intro _ _ _
    exact hattempted
  · exact ⟨hepoch ▸ hfinalizes, h.chained⟩
  · show noted.finalized = _
    rw [hfinalized, List.findSome?_cons, h.finalized]
    cases c.finalized <;> rfl
  · intro record hrecord
    rcases hjustification record hrecord with hold | ⟨hcheckpoint, hcommitment⟩
    · exact hkept (h.justification record hold)
    · exact hcheckpoint ▸ hentered hcommitment
  · intro record hrecord
    rcases hstreamFinal record hrecord with hold | ⟨hcheckpoint, hcommitment⟩
    · exact hkept (h.streamFinal record hold)
    · exact hcheckpoint ▸ hentered hcommitment
  · intro newest hhead
    obtain rfl := Option.some.inj hhead
    rw [hepoch]
    exact hnewest
  · exact hbatchOnly

/-- The close of a batch. -/
theorem Ledger.batchClosed (h : Ledger pipeline s closed)
    (hopen : s.attemptedEpoch ≠ some s.cursorEpoch) {record : Batch.JustificationRecord P}
    {finalized : Option (Checkpoint P)} (hepoch : record.output.targetEpoch = s.cursorEpoch)
    (hcommitment : record.output.accumulatorCommitment = s.accCommitment)
    (hfinalizes : finalized = finalizes closed s.cursorEpoch) :
    Ledger pipeline ((batchClosed s record finalized).note s)
      (⟨⟨s.cursorEpoch, record.output.targetRoot⟩, finalized⟩ :: closed) := by
  refine h.close hopen rfl hfinalizes rfl rfl ?_ (fun r hr => .inl hr) (.inl ⟨_, rfl, hepoch⟩)
    h.batchOnly
  intro r hr
  obtain rfl := Option.some.inj hr
  exact .inr ⟨congrArg (Checkpoint.mk · record.output.targetRoot) hepoch.symm, hcommitment⟩

/-- The close of a stream. -/
theorem Ledger.streamClosed (h : Ledger .streaming s closed)
    (hopen : s.attemptedEpoch ≠ some s.cursorEpoch) {record : Record (StreamFinalOutput P)}
    (hepoch : record.output.justifiedEpoch = s.cursorEpoch)
    (hcommitment : record.output.nextAccumulatorCommitment = s.accCommitment)
    (hfinalizes : some ⟨record.output.finalizedEpoch, record.output.finalizedRoot⟩ =
      finalizes closed s.cursorEpoch) :
    Ledger .streaming ((streamClosed s record).note s)
      (⟨⟨s.cursorEpoch, record.output.justifiedRoot⟩,
        some ⟨record.output.finalizedEpoch, record.output.finalizedRoot⟩⟩ :: closed) := by
  refine h.close hopen rfl hfinalizes rfl rfl (fun r hr => .inl hr) ?_ (.inr ⟨_, rfl, hepoch⟩)
    (fun hbatch => by cases hbatch)
  intro r hr
  obtain rfl := Option.some.inj hr
  exact .inr ⟨congrArg (Checkpoint.mk · record.output.justifiedRoot) hepoch.symm, hcommitment⟩

/-- **Moving on**: what closed at the cursor is linked by the diff that leads on. -/
theorem Ledger.advance (h : Ledger pipeline s closed) (hadvanced : Advanced s s')
    (hroom : s'.cursorEpoch.toNat + 1 < 2 ^ 64) : Ledger pipeline s' closed := by
  obtain ⟨record, accRoot, digest, total, count, hepoch1, hepoch2, hprevious, rfl⟩ := hadvanced
  have hsucc : (s.cursorEpoch + 1).toNat = s.cursorEpoch.toNat + 1 := by
    have hbefore := h.room
    rw [UInt64.toNat_add]
    simp only [UInt64.reduceToNat]
    omega
  have hnot : ∀ c ∈ closed, c.checkpoint.epoch ≠ s.cursorEpoch + 1 := by
    intro c hc heq
    have hle := UInt64.le_iff_toNat_le.mp (h.behind c hc)
    rw [heq, hsucc] at hle
    omega
  have hkept : ∀ {checkpoint commitment}, Entered s closed checkpoint commitment →
      Entered { s with
        cursorEpoch := s.cursorEpoch + 1
        accRoot
        accCommitment := record.output.accumulatorCommitment
        accChainDigest := digest
        totalActiveBalance := total
        numValidators := count
        lastEpochDiff := some record } closed checkpoint commitment := by
    rintro checkpoint commitment ⟨⟨c, hc, rfl⟩, hlinked⟩
    refine ⟨⟨c, hc, rfl⟩, fun hhere => absurd hhere (hnot c hc), fun hnext => ?_⟩
    obtain hsame : c.checkpoint.epoch = s.cursorEpoch := add_right_cancel hnext
    exact ⟨record, rfl, ⟨hepoch1.trans hsame.symm, hepoch2⟩,
      hprevious.trans (hlinked.here hsame).symm, rfl⟩
  exact {
    room := hroom
    descending := h.descending
    behind := fun c hc => by
      have hle := UInt64.le_iff_toNat_le.mp (h.behind c hc)
      rw [UInt64.le_iff_toNat_le]
      exact hle.trans (hsucc ▸ Nat.le_succ _)
    attempted := fun c hc heq => absurd heq (hnot c hc)
    chained := h.chained
    finalized := h.finalized
    justification := fun record hrecord => hkept (h.justification record hrecord)
    streamFinal := fun record hrecord => hkept (h.streamFinal record hrecord)
    newest := h.newest
    batchOnly := h.batchOnly }

end Keeping

/-! ## One tick -/

section Ticks

variable {𝕜 : Type} {node : ℕ → BeaconApi P} {config : OrchestratorConfig 𝕜} {S : ProofSystem P}
  {accDepth : ℕ} {found : Found P}

/-- **Provers that run the circuits.** -/
structure Found.Honest (S : ProofSystem P) (accDepth : ℕ) (slotsPerEpoch : UInt64)
    (found : Found P) : Prop where
  batch : Batch.Honest S accDepth found.batchProver
  streamFinal : ∀ {w out proof}, found.streamProver.proveStreamFinal w = .ok (out, proof) →
    verifyStreamFinalWith S w accDepth slotsPerEpoch = .ok out
  finalization : found.proveFinalization.Honest S slotsPerEpoch

/-- Opening the cursor's epoch leaves the snapshot. -/
theorem openCursor_snapshot (config : OrchestratorConfig 𝕜) (found : Found P) (inFlight : Bool)
    {s : Engine P} (h : s.Inv node config.engine) :
    (openCursor node config found inFlight s).2.snapshot = s.snapshot ∧
      (openCursor node config found inFlight s).2.Inv node config.engine := by
  have hopened : ∀ s', leave (Engine.openEpoch node config.engine found.world
      s.snapshot.state.cursorEpoch) s = s' →
        s'.snapshot = s.snapshot ∧ s'.Inv node config.engine := by
    rintro s' rfl
    exact ⟨(Engine.openEpoch_writes node config.engine found.world s _).1, h.openEpoch⟩
  unfold openCursor
  split
  · exact ⟨rfl, h⟩
  · split
    · next hrun => exact hopened _ (leave_of_ok hrun)
    · next hrun => exact hopened _ (leave_of_error hrun)

theorem toOption_eq_some {ε α : Type} {x : Except ε α} {a : α} :
    x.toOption = some a ↔ x = .ok a := by
  cases x <;> simp [Except.toOption]

theorem orPanicked_eq_ok {α : Type} {x : Panics.Outcome String α} {a : α} :
    orPanicked x = .ok a ↔ x = .ok a := Guest.mapError_eq_ok

/-- What a tick of the batch pipeline is of. -/
theorem batchTick_binds (hhonest : found.Honest S accDepth config.slotsPerEpoch)
    (snapshot : Snapshot P) (opened : Except String (Orchestrator.OpenEpoch P)) :
    Batch.Binds S accDepth snapshot.state.cursorEpoch snapshot.state.accCommitment
      (batchTick config found snapshot opened) where
  cursor := rfl
  opening o hopening := by
    cases opened with
    | error e => cases hopening
    | ok opening =>
        obtain rfl := Except.ok.inj hopening
        rfl
  honest := hhonest.batch

/-- **What a batch finalizes** is the close before it. -/
theorem Ledger.finalizes_of_tryFinalize {snapshot : Snapshot P} {closed : List (ClosedEpoch P)}
    (h : Ledger config.pipeline snapshot.state closed)
    (hopen : snapshot.state.attemptedEpoch ≠ some snapshot.state.cursorEpoch)
    (hbatch : ¬ (config.pipeline = .streaming ∧ canStream snapshot.state = true))
    (hhonest : found.Honest S accDepth config.slotsPerEpoch)
    {record : Batch.JustificationRecord P} {finalized : Option (Batch.Checkpoint P)}
    (hepoch : record.output.targetEpoch = snapshot.state.cursorEpoch)
    (hcommitment : record.output.accumulatorCommitment = snapshot.state.accCommitment)
    (hmade : Batch.tryFinalize found.api config.state found.proveFinalization
      (found.write "finalization") snapshot record = .ok finalized) :
    finalized.map stored = finalizes closed snapshot.state.cursorEpoch := by
  cases finalized with
  | none =>
      rw [h.finalizes_of_unpaired hbatch hepoch hcommitment (Batch.tryFinalize_eq_none.mp hmade)]
      rfl
  | some checkpoint =>
      have hcircuit : found.proveFinalization.Honest S config.state.slotsPerEpoch :=
        hhonest.finalization
      obtain ⟨previous, diff, hpair, -, -, rfl⟩ := Batch.tryFinalize_eq_some hcircuit hmade
      rw [h.finalizes_of_pairing hopen hepoch hpair]
      rfl

/-- A justification of the close that the epoch follows. -/
def Precedes (closed : List (ClosedEpoch P)) (epoch : UInt64)
    (previous : PreviousJustification P) : Prop :=
  previous.targetEpoch + 1 = epoch ∧
    ∃ c ∈ closed, c.checkpoint = ⟨previous.targetEpoch, previous.targetRoot⟩

/-- What a tick of the streaming pipeline is of. -/
theorem streamTick_opening {snapshot : Snapshot P} {closed : List (ClosedEpoch P)}
    (h : Ledger config.pipeline snapshot.state closed)
    {opened : Except String (Orchestrator.OpenEpoch P)} {o : Streaming.Opening P}
    (hopening : (streamTick config found snapshot opened).opening = some o) :
    o.accumulatorCommitment = snapshot.state.accCommitment ∧
      Precedes closed snapshot.state.cursorEpoch o.previous := by
  cases opened with
  | error e => cases hopening
  | ok opening =>
      have hrun : streamOpening config found snapshot opening = .ok o :=
        toOption_eq_some.mp hopening
      simp only [streamOpening, Guest.bind_eq_ok, Guest.expect_eq_ok, Guest.pure_eq_ok] at hrun
      obtain ⟨diff, -, ⟨previous, proof⟩, hprevious, boundary, -, rfl⟩ := hrun
      obtain ⟨hnext, hclose, -⟩ := h.previous hprevious
      exact ⟨rfl, hnext, hclose⟩

variable [Ord P.Bytes32] {B : Blst} {d d' : State P B}

/-- The provers of a tick run the circuits. The task's own does by what it is. -/
def HonestEvent (S : ProofSystem P) (accDepth : ℕ) (slotsPerEpoch : UInt64) (_ : State P B) :
    Event P → Prop
  | .tick found => found.Honest S accDepth slotsPerEpoch
  | _ => True

/-- **The invariant**: the ledger, and what is in flight is of the cursor and its accumulator. -/
structure Inv (node : ℕ → BeaconApi P) (config : OrchestratorConfig 𝕜) (d : State P B) :
    Prop where
  engine : d.engine.Inv node config.engine
  ledger : Ledger config.pipeline d.engine.snapshot.state d.closed
  batch : ∀ a, d.batch.pending = some a →
    Batch.Pinned d.engine.snapshot.state.cursorEpoch d.engine.snapshot.state.accCommitment a
  stream : Streaming.Holds (Streaming.Pinned d.engine.snapshot.state.cursorEpoch
    d.engine.snapshot.state.accCommitment
    (Precedes d.closed d.engine.snapshot.state.cursorEpoch)) d.stream

/-- With nothing in flight, the ledger is all. -/
theorem Inv.of_ledger {engine : Engine P} {closed : List (ClosedEpoch P)}
    (hengine : engine.Inv node config.engine)
    (hledger : Ledger config.pipeline engine.snapshot.state closed) :
    Inv node config (⟨engine, .empty, .empty, closed⟩ : State P B) where
  engine := hengine
  ledger := hledger
  batch _ h := by cases h
  stream _ h := by cases h

theorem Inv.restarted (h : Inv node config d) : Inv node config d.restarted := by
  have hengine : (Engine.opened d.engine.snapshot).Inv node config.engine := .opened _
  exact Inv.of_ledger hengine h.ledger

/-- What a tick of a pipeline leaves, where it notes nothing. -/
theorem Inv.same (h : Inv node config d) {engine : Engine P} {batch : Batch.BatchPipeline P B}
    {stream : Streaming.StreamPipeline P B} (hsnapshot : engine.snapshot = d.engine.snapshot)
    (hengine : engine.Inv node config.engine)
    (hbatch : ∀ a, batch.pending = some a →
      Batch.Pinned d.engine.snapshot.state.cursorEpoch d.engine.snapshot.state.accCommitment a)
    (hstream : Streaming.Holds (Streaming.Pinned d.engine.snapshot.state.cursorEpoch
      d.engine.snapshot.state.accCommitment
      (Precedes d.closed d.engine.snapshot.state.cursorEpoch)) stream) :
    Inv node config ⟨engine, batch, stream, d.closed⟩ := by
  constructor
  · exact hengine
  all_goals
    dsimp only
    rw [hsnapshot]
  · exact h.ledger
  · exact hbatch
  · exact hstream

/-- **What a tick of a pipeline leaves**, with its note. -/
theorem Inv.noted {engine : Engine P} {progress : Progress P} {batch : Batch.BatchPipeline P B}
    {stream : Streaming.StreamPipeline P B} {closed : List (ClosedEpoch P)}
    (hsnapshot : engine.snapshot = d.engine.snapshot) (hengine : engine.Inv node config.engine)
    (hledger : Ledger config.pipeline (progress.note d.engine.snapshot.state) closed)
    (hclosed : d.closed ⊆ closed)
    (hbatch : ∀ a, batch.pending = some a →
      Batch.Pinned d.engine.snapshot.state.cursorEpoch d.engine.snapshot.state.accCommitment a)
    (hstream : Streaming.Holds (Streaming.Pinned d.engine.snapshot.state.cursorEpoch
      d.engine.snapshot.state.accCommitment
      (Precedes d.closed d.engine.snapshot.state.cursorEpoch)) stream) :
    Inv node config ⟨noted engine progress, batch, stream, closed⟩ := by
  constructor
  · exact hengine.note progress
  all_goals
    dsimp only [Daemon.noted]
    rw [hsnapshot]
  · exact hledger
  · exact hbatch
  · intro a ha
    refine (hstream a ha).mono fun previous hprecedes => ⟨hprecedes.1, ?_⟩
    obtain ⟨c, hc, hcheckpoint⟩ := hprecedes.2
    exact ⟨c, hclosed hc, hcheckpoint⟩

/-- **A tick of the batch pipeline.** -/
theorem Inv.driveBatch (h : Inv node config d)
    (hhonest : found.Honest S accDepth config.slotsPerEpoch)
    (hopen : d.engine.snapshot.state.attemptedEpoch ≠ some d.engine.snapshot.state.cursorEpoch)
    (hbatch : ¬ (config.pipeline = .streaming ∧ canStream d.engine.snapshot.state = true)) :
    Inv node config (driveBatch node config found d) := by
  unfold Daemon.driveBatch
  dsimp only
  obtain ⟨hsnapshot, hengine⟩ := openCursor_snapshot config found
    (d.batch.pending.any fun a => a.targetEpoch = d.engine.snapshot.state.cursorEpoch) h.engine
  generalize openCursor node config found _ d.engine = cursor at hsnapshot hengine ⊢
  obtain ⟨opened, engine⟩ := cursor
  dsimp only at hsnapshot hengine ⊢
  have hbinds := batchTick_binds hhonest d.engine.snapshot opened
  split
  · next record finalized hrun =>
      obtain ⟨hepoch, hcommitment, hmade⟩ := Batch.run_justified hbinds h.batch hrun
      have hfinalizes := h.ledger.finalizes_of_tryFinalize hopen hbatch hhonest hepoch hcommitment
        (orPanicked_eq_ok.mp hmade)
      exact .noted hsnapshot hengine (h.ledger.batchClosed hopen hepoch hcommitment hfinalizes)
        (List.subset_cons_self _ _) (fun _ hnone => by cases hnone) h.stream
  · exact .noted hsnapshot hengine h.ledger.givenUp (List.Subset.refl _)
      (fun _ hnone => by cases hnone) h.stream
  · next a hrun =>
      refine h.same hsnapshot hengine (fun b hb => ?_) h.stream
      obtain rfl := Option.some.inj hb
      exact Batch.run_waiting hbinds h.batch hrun
  · exact h.restarted

variable [LinearOrder 𝕜] [AddCommGroup 𝕜]

omit [LinearOrder 𝕜] [AddCommGroup 𝕜] in
/-- **The final proof a tick adopts** is of the epoch, the accumulator and the checkpoint, and
finalizes what the epoch was opened on. -/
theorem adopted_eq_some {config : Streaming.Config 𝕜} {tick : Streaming.Tick P}
    {s : Streaming.StreamPipeline P B} {epoch slotsPerEpoch : UInt64} {commitment : P.Digest}
    {Before : PreviousJustification P → Prop} {targetRoot : P.Bytes32}
    {output : StreamFinalOutput P} {proof : RemoteProver.Proof}
    (hs : Streaming.Holds (Streaming.Pinned epoch commitment Before) s)
    (hcircuit : ∀ {w out proof}, tick.prover.proveStreamFinal w = .ok (out, proof) →
      verifyStreamFinalWith S w accDepth slotsPerEpoch = .ok out)
    (h : adopted config tick s = some (targetRoot, output, proof)) :
    output.justifiedEpoch = epoch ∧ output.justifiedRoot = targetRoot ∧
      output.nextAccumulatorCommitment = commitment ∧
      ∃ previous, Before previous ∧ output.finalizedEpoch = previous.targetEpoch ∧
        output.finalizedRoot = previous.targetRoot := by
  obtain ⟨a, ha, h⟩ := Option.bind_eq_some_iff.mp h
  obtain ⟨⟨b, gossip⟩, harrivals, h⟩ := Option.bind_eq_some_iff.mp h
  have hpinned := hs a (Option.filter_eq_some_iff.mp ha).1
  have harrived : Streaming.Pinned epoch commitment Before b s.pending :=
    (Streaming.pinned_stable s.pending).takeArrivals hpinned (toOption_eq_some.mp harrivals)
  have hfinal := harrived.inFlight
  dsimp only at h
  split at h
  · next closing witness hpending =>
      rw [hpending] at hfinal
      obtain ⟨hepoch, hcommitment, htarget, hprevious⟩ := hfinal
      split at h
      · obtain ⟨⟨out, words⟩, hproved, h⟩ := Option.bind_eq_some_iff.mp h
        obtain ⟨-, hsome⟩ := Option.ite_none_right_eq_some.mp h
        obtain ⟨rfl, rfl, rfl⟩ : b.context.targetRoot = targetRoot ∧ out = output ∧
            words = proof := by
          simpa using hsome
        obtain ⟨anchor, counted, -, -, -, rfl⟩ :=
          verifyStreamFinalWith_links (hcircuit (toOption_eq_some.mp hproved))
        exact ⟨hepoch, htarget, hcommitment, _, hprevious, rfl, rfl⟩
      · cases h
  · cases h

omit [LinearOrder 𝕜] [AddCommGroup 𝕜] in
/-- A reorg that is found ends the tick. -/
theorem freshen_of_reorged {config : Streaming.Config 𝕜} {tick : Streaming.Tick P}
    {a : Streaming.StreamAggregator P B} {gossip : Option (List (Streaming.Drain P))}
    (hreorged : a.reorged = true) (hroot : tick.checkpointRoot ≠ some a.context.targetRoot) :
    Streaming.StreamPipeline.freshen config tick a gossip = .over ⟨none, none⟩ [] :=
  if_pos (by rw [hreorged, Bool.true_and]; exact decide_eq_true hroot)

omit [LinearOrder 𝕜] [AddCommGroup 𝕜] in
theorem prepareEpoch_of_idle {config : Streaming.Config 𝕜} {tick : Streaming.Tick P}
    {a b : Streaming.StreamAggregator P B} {pending : Option (Streaming.Pending P)}
    {gossip : Option (List (Streaming.Drain P))}
    (harrivals : Streaming.StreamPipeline.takeArrivals config tick a pending = .ok (b, gossip))
    (hidle : idle tick pending = true) (hreorged : b.reorged = true)
    (hroot : tick.checkpointRoot ≠ some b.context.targetRoot) :
    Streaming.StreamPipeline.prepareEpoch config tick a pending = .over ⟨none, none⟩ [] := by
  unfold Streaming.StreamPipeline.prepareEpoch
  rw [harrivals]
  match pending, hidle with
  | none, _ => exact freshen_of_reorged hreorged hroot
  | some (.group group), hidle =>
      obtain ⟨hlanded, hfinished⟩ := Bool.and_eq_true_iff.mp hidle
      dsimp only
      rw [if_pos hlanded, Streaming.StreamPipeline.collect]
      cases hgroup : Streaming.StreamAggregator.finishGroup tick group with
      | error e => exact absurd hfinished (by rw [hgroup]; exact Bool.false_ne_true)
      | ok proof => exact freshen_of_reorged hreorged hroot

omit [LinearOrder 𝕜] [AddCommGroup 𝕜] in
theorem prepareEpoch_of_reorgedUnder {config : Streaming.Config 𝕜} {tick : Streaming.Tick P}
    {a : Streaming.StreamAggregator P B} {pending : Option (Streaming.Pending P)}
    (h : reorgedUnder config tick a pending = true) :
    Streaming.StreamPipeline.prepareEpoch config tick a pending = .over ⟨none, none⟩ [] := by
  unfold reorgedUnder at h
  split at h
  · cases h
  · next b gossip harrivals =>
      simp only [Bool.and_eq_true] at h
      obtain ⟨⟨hidle, hreorged⟩, hany⟩ := h
      refine prepareEpoch_of_idle harrivals hidle hreorged fun hroot => ?_
      rw [hroot] at hany
      simp at hany

/-- **A tick that reopens the epoch leaves nothing of it**, and hands nothing to the prover. -/
theorem drive_of_reopens {config : Streaming.Config 𝕜} {tick : Streaming.Tick P}
    {s : Streaming.StreamPipeline P B} (h : reopens config tick s = true) :
    s.drive config tick = (⟨none, none⟩, []) := by
  have hprepare : Streaming.StreamPipeline.prepare config tick s = .over ⟨none, none⟩ [] := by
    unfold reopens at h
    unfold Streaming.StreamPipeline.prepare
    cases hheld : s.aggregator.filter fun a => a.context.targetEpoch = tick.cursorEpoch with
    | some a =>
        rw [hheld] at h
        exact prepareEpoch_of_reorgedUnder h
    | none =>
        rw [hheld] at h
        cases hopening : tick.opening with
        | none => rfl
        | some o =>
            rw [hopening] at h
            exact prepareEpoch_of_reorgedUnder h
  rw [Streaming.StreamPipeline.drive, hprepare]

/-- **A tick of the streaming pipeline.** -/
theorem Inv.driveStream (h : Inv node config d)
    (hhonest : found.Honest S accDepth config.slotsPerEpoch)
    (hopen : d.engine.snapshot.state.attemptedEpoch ≠ some d.engine.snapshot.state.cursorEpoch)
    (hstreaming : config.pipeline = .streaming) :
    Inv node config (driveStream node config found d) := by
  unfold Daemon.driveStream
  dsimp only
  obtain ⟨hsnapshot, hengine⟩ := openCursor_snapshot config found
    (d.stream.aggregator.any fun a =>
      a.context.targetEpoch = d.engine.snapshot.state.cursorEpoch) h.engine
  generalize openCursor node config found _ d.engine = cursor at hsnapshot hengine ⊢
  obtain ⟨opened, engine⟩ := cursor
  dsimp only at hsnapshot hengine ⊢
  have hbinds : Streaming.Binds d.engine.snapshot.state.cursorEpoch
      d.engine.snapshot.state.accCommitment
      (Precedes d.closed d.engine.snapshot.state.cursorEpoch)
      (streamTick config found d.engine.snapshot opened) d.stream :=
    ⟨rfl, fun o hopening => streamTick_opening h.ledger hopening⟩
  obtain ⟨hdriven, -⟩ : Streaming.Holds (Streaming.Pinned _ _ _)
      (d.stream.drive config.stream (streamTick config found d.engine.snapshot opened)).1 ∧ _ :=
    Streaming.pinned_preserved.drive hbinds h.stream
  split
  · next targetRoot output proof hadopted =>
      obtain ⟨hepoch, rfl, hcommitment, previous, ⟨hnext, c, hc, hcheckpoint⟩, hfinal, hroot⟩ :=
        adopted_eq_some h.stream hhonest.streamFinal hadopted
      have hfinalizes : some ⟨output.finalizedEpoch, output.finalizedRoot⟩ =
          finalizes d.closed d.engine.snapshot.state.cursorEpoch := by
        rw [h.ledger.finalizes_of_mem hopen hc (by rw [hcheckpoint, hnext]), hcheckpoint, hfinal,
          hroot]
      have hledger := h.ledger
      rw [hstreaming] at hledger
      refine .noted hsnapshot hengine ?_ (List.subset_cons_self _ _) h.batch hdriven
      rw [hstreaming]
      exact hledger.streamClosed hopen hepoch hcommitment hfinalizes
  · split
    · next hreopens =>
        rw [drive_of_reopens hreopens]
        exact h.same hsnapshot (hengine.dropped (.inl rfl) (.inl rfl)) h.batch
          fun a ha => by cases ha
    split
    · exact .noted hsnapshot hengine h.ledger.givenUp (List.Subset.refl _) h.batch hdriven
    · exact h.same hsnapshot hengine h.batch hdriven

omit [LinearOrder 𝕜] [AddCommGroup 𝕜] in
/-- **Moving the accumulator.** -/
theorem Inv.advance (h : Inv node config d) (hslots : 2 ≤ config.slotsPerEpoch)
    (hreached : d.engine.snapshot.state.cursorEpoch + 1 ≤
      found.world.headSlot / config.slotsPerEpoch)
    (hadvance : advance node config found d = some d') : Inv node config d' := by
  obtain ⟨engine, hmoved, rfl⟩ := Option.map_eq_some_iff.mp hadvance
  split
  · refine .of_ledger (h.engine.advance hmoved) ?_
    rcases h.engine.advances hmoved with hsame | hadvanced
    · rw [hsame]
      exact h.ledger
    · refine h.ledger.advance hadvanced ?_
      -- the head is a slot, and an epoch has two
      have hnext : engine.snapshot.state.cursorEpoch =
          d.engine.snapshot.state.cursorEpoch + 1 := by
        obtain ⟨_, _, _, _, _, -, -, -, hstate⟩ := hadvanced
        rw [hstate]
      have hle := UInt64.le_iff_toNat_le.mp hreached
      rw [UInt64.toNat_div] at hle
      have hslots' := UInt64.le_iff_toNat_le.mp hslots
      have hhead := found.world.headSlot.toNat_lt
      have hdiv : found.world.headSlot.toNat / config.slotsPerEpoch.toNat ≤
          found.world.headSlot.toNat / 2 := Nat.div_le_div_left hslots' (by decide)
      rw [hnext]
      omega
  · exact h.restarted

/-- **One tick.** -/
theorem Inv.tick (h : Inv node config d) (hslots : 2 ≤ config.slotsPerEpoch)
    (hhonest : found.Honest S accDepth config.slotsPerEpoch)
    (htick : tickOnce node config found d = some d') : Inv node config d' := by
  unfold tickOnce at htick
  dsimp only at htick
  split at htick
  · next hopen =>
      split at htick
      · next hstream =>
          obtain rfl := Option.some.inj htick
          exact h.driveStream hhonest hopen hstream.1
      · next hbatch =>
          obtain rfl := Option.some.inj htick
          exact h.driveBatch hhonest hopen hbatch
  · split at htick
    · next hreached => exact h.advance hslots hreached htick
    · obtain rfl := Option.some.inj htick
      exact h

/-- **Every step keeps the invariant.** -/
theorem Inv.step {event : Event P} (h : Inv node config d) (hslots : 2 ≤ config.slotsPerEpoch)
    (hhonest : HonestEvent S accDepth config.slotsPerEpoch d event)
    (hstep : step node config d event = some d') : Inv node config d' := by
  cases event with
  | tick found => exact h.tick hslots hhonest hstep
  | speculate world =>
      obtain rfl := Option.some.inj hstep
      exact h.same (Engine.speculate_quiet node config.engine world d.engine _).1
        h.engine.speculate h.batch h.stream
  | complete prover =>
      obtain ⟨engine, hjoin, rfl⟩ := Option.map_eq_some_iff.mp hstep
      refine h.same (Engine.join_quiet hjoin).1 ?_ h.batch h.stream
      apply h.engine.join (fun task ahead hreturned => ?_) hjoin
      exact ⟨prover, Except.ok.inj hreturned⟩
  | fail error =>
      obtain ⟨engine, hjoin, rfl⟩ := Option.map_eq_some_iff.mp hstep
      refine h.same (Engine.join_quiet hjoin).1 ?_ h.batch h.stream
      apply h.engine.join (fun task ahead hreturned => ?_) hjoin
      cases hreturned
  | restart =>
      obtain rfl := Option.some.inj hstep
      exact h.restarted

end Ticks

/-! ## Every run -/

/-- In a chain every close is followed by what it finalizes. -/
theorem Chained.split : ∀ {newer : List (ClosedEpoch P)} {c : ClosedEpoch P}
    {older : List (ClosedEpoch P)}, Chained (newer ++ c :: older) →
      c.finalized = finalizes older c.checkpoint.epoch := by
  intro newer
  induction newer with
  | nil => exact fun h => h.1
  | cons _ newer ih => exact fun h => ih h.2

section Runs

variable [Ord P.Bytes32] {B : Blst} {𝕜 : Type} [LinearOrder 𝕜] [AddCommGroup 𝕜]

/-- **The closes of a run are a ledger**, whatever the order of ticks, restarts and the task that
runs beside them, and whatever the chain, the clock and the disk answer, as long as the
provers run the circuits: the epochs go up, none is closed twice or after the cursor; each close
finalizes the one before it, with the root that one was published with, if that is of the epoch
before, and nothing otherwise; the state keeps the last of what was finalized. And wherever
there is a justification to finalize, there is the diff on record that leads from its
accumulator to the one that the state has. -/
theorem closes_in_order (node : ℕ → BeaconApi P) (config : OrchestratorConfig 𝕜)
    (hslots : 2 ≤ config.slotsPerEpoch) {S : ProofSystem P} {accDepth : ℕ} {chain : String}
    {epoch : UInt64} {accRoot : P.Digest} {totalActiveBalance numValidators : UInt64}
    {tree : AccTree P} {epochState : EpochState P} (hroom : epoch.toNat + 1 < 2 ^ 64)
    {d : State P B}
    (h : Reached (step node config) (HonestEvent S accDepth config.slotsPerEpoch)
      (.opened ⟨.started chain epoch accRoot totalActiveBalance numValidators, tree, epochState⟩
        []) d) :
    d.closed.Pairwise (fun c c' => c'.checkpoint.epoch < c.checkpoint.epoch) ∧
      (∀ c ∈ d.closed, c.checkpoint.epoch ≤ d.engine.snapshot.state.cursorEpoch) ∧
      (∀ newer c older, d.closed = newer ++ c :: older →
        c.finalized = (older.head?.filter fun before =>
          before.checkpoint.epoch + 1 = c.checkpoint.epoch).map (·.checkpoint)) ∧
      d.engine.snapshot.state.finalized = d.closed.findSome? (·.finalized) ∧
      ∀ previous proof, d.engine.snapshot.state.previousJustification
          d.engine.snapshot.state.cursorEpoch = some (previous, proof) →
        (∃ c ∈ d.closed, c.checkpoint = ⟨previous.targetEpoch, previous.targetRoot⟩) ∧
          ∃ diff, d.engine.snapshot.state.lastEpochDiff = some diff ∧
            diff.output.epoch1 = previous.targetEpoch ∧
            diff.output.epoch2 = d.engine.snapshot.state.cursorEpoch ∧
            diff.output.prevAccumulatorCommitment = previous.accumulatorCommitment ∧
            diff.output.accumulatorCommitment = d.engine.snapshot.state.accCommitment := by
  have hinv : Inv node config d := by
    refine h.invariant (Inv node config) ?_ fun _ _ _ hinv hhonest hstep =>
      hinv.step hslots hhonest hstep
    exact .of_ledger (.opened _) (.started config.pipeline chain accRoot totalActiveBalance
      numValidators hroom)
  have hledger := hinv.ledger
  refine ⟨hledger.descending, hledger.behind, ?_, hledger.finalized, ?_⟩
  · rintro newer c older heq
    have hchained := hledger.chained
    rw [heq] at hchained
    exact hchained.split
  · intro previous proof hprevious
    obtain ⟨-, hclose, -⟩ := hledger.previous hprevious
    obtain ⟨diff, hdiff, ⟨hepoch1, hepoch2⟩, hprev, hacc⟩ := hledger.linked hprevious
    exact ⟨hclose, diff, hdiff, hepoch1, hepoch2, hprev, hacc⟩

end Runs
end Zkasper.Daemon

/-! ## Two epochs that close -/

namespace Zkasper.Formal

open Orchestrator Boundaries Daemon

/-- A prover that runs the circuits. -/
def closingProver : Orchestrator.Prover (formal willing) where
  proveEpochDiff w := do
    let output ← verifyEpochDiffWithDepth w 2 2
    return (output, [1])
  proveCommittee w := (Committee.root ((List.range Committee.maxSlots).map fun slot =>
      EpochCommittees.sumSlot (Committee.assigned w.members slot))).map fun root =>
    (⟨w.accumulatorCommitment, w.targetEpoch, root⟩, [1])
  circuit h := by
    obtain ⟨output, hrun, hret⟩ := Guest.bind_eq_ok.mp h
    obtain ⟨rfl, -⟩ := Prod.mk.inj (Guest.pure_eq_ok.mp hret)
    exact ⟨2, 2, hrun⟩

/-- The registry at epoch 3, by when a fourth validator has joined. -/
def joinedRegistry : List ValidatorResponse := slotted ++ [validator 3 32]

/-- The data tree of a registry, two levels deep. -/
def dataRoot (R : List ValidatorResponse) : Term :=
  PerfectTree.root (formal willing).sha256Pair 2 (registryLeaf (formal willing) R)

/-- The history that the state at the boundary of epoch 3 keeps: the block of epoch 2, and the
state it is over. -/
def joinedHistory : SlotHistory (formal willing) :=
  ⟨64, nextRoot, (makeStateProof (P := formal willing) (dataRoot slotted) 3
    ⟨0, (formal willing).zeroChunk, (formal willing).zeroChunk⟩).1⟩

/-- The block of slot 96. -/
def joinedHeader : BlockHeaderFields (formal willing) :=
  ⟨96, 0, blank, (Boundary.makeBoundaryProof (P := formal willing) (dataRoot joinedRegistry) 4
    joinedHistory).stateRoot, blank⟩

def joinedRoot : Term := Ssz.blockHeaderRoot (formal willing) joinedHeader

/-- Validator `slot - 96` votes for epoch 3. -/
def joinedVote (slot : UInt64) : AttestationResponse (formal willing) :=
  ⟨[1], [1], none, slot, 0, joinedRoot, 2, nextRoot, 3, joinedRoot, zeroBytes 96⟩

/-- What a tick finds with the chain's head at this slot. -/
def closingFound (headSlot : UInt64) : Found (formal willing) where
  world := {
    moment := 0
    headSlot
    boundaryAt := fun slot => .ok <| if slot = 64 then
      ⟨64, slotted.mapIdx fun i v => ⟨v, .ofNat i⟩, [⟨64, 0, [0]⟩, ⟨65, 0, [1]⟩, ⟨66, 0, [2]⟩]⟩
    else
      ⟨96, joinedRegistry.mapIdx fun i v => ⟨v, .ofNat i⟩,
        [⟨96, 0, [0]⟩, ⟨97, 0, [1]⟩, ⟨98, 0, [2]⟩, ⟨99, 0, [3]⟩]⟩
    checkpointRoot := fun epoch => .ok <|
      if epoch = 3 then joinedRoot else if epoch = 2 then nextRoot else genesisRoot
    signingDomain := fun _ => .ok blank
    prover := closingProver
    writeWitness := fun _ _ => .ok ()
    writeProof := fun _ _ => .ok ()
    save := fun _ => .ok () }
  api := ⟨fun root => if root = joinedRoot then .ok joinedHeader else .error "not found",
    fun _ => .ok none⟩
  blocks slot := if 97 ≤ slot ∧ slot ≤ 100 then some [joinedVote (slot - 1)]
    else (batchTick willing 96 headSlot (.ok ())).blocks slot
  gossip := none
  batchProver := batchCircuits willing
  streamProver := willingCircuits
  proveFinalization w := do
    let output ← verifyFinalizationWithSlots (fun _ _ _ => true) w 32
    return (output, [1])
  landed := false
  worthWaiting := false
  clock := ⟨0, 0, 0, 0, 0, 0, 0⟩
  write _ := .ok ()
  save := .ok ()
  written := true

/-- The batch pipeline, a slot per proof. -/
def batchOnly : OrchestratorConfig ℤ where
  slotsPerEpoch := 32
  fuluForkEpoch := 100
  validatorsTreeDepth := 2
  accTreeDepth := 2
  pollInterval := 0
  attestationLookaheadEpochs := 2
  slotGroupWidth := 1
  justificationFoldWidth := 1
  pipeline := .batch
  streamPolicy := twoThirds.streamPolicy
  programVk _ := justificationProgramVk

def noStates : BeaconApi (formal willing) where
  RawState := Empty
  getStateSsz := fun _ => .ok none
  getStateRoot := fun _ => .ok none
  getHeader := fun _ => .error "not found"
  fieldHtrs := fun _ _ => .error "not found"

def closingSnapshot : Store.Snapshot (formal willing) :=
  ⟨.started "formal" 2 (batchTree willing).root 96 3, batchTree willing,
    ⟨64, blank, [], [], blank, 3⟩⟩

end Zkasper.Formal

namespace Zkasper.Daemon
open Formal Transition

theorem closingFound_honest (headSlot : UInt64) :
    (closingFound headSlot).Honest (fun _ _ _ => true) 2 32 where
  batch := batchCircuits_honest willing
  streamFinal h := by
    obtain ⟨output, hrun, hret⟩ := Guest.bind_eq_ok.mp h
    obtain ⟨rfl, -⟩ := Prod.mk.inj (Guest.pure_eq_ok.mp hret)
    exact hrun
  finalization h := by
    obtain ⟨output, hrun, hret⟩ := Guest.bind_eq_ok.mp h
    obtain ⟨rfl, -⟩ := Prod.mk.inj (Guest.pure_eq_ok.mp hret)
    exact hrun

/-- Two of three validators close epoch 2. The process is started again, advances the accumulator
to four validators, and three of them close epoch 3, which finalizes epoch 2. -/
theorem closes_in_order_twice : ∃ d : State (formal willing) lone,
    Reached (step (fun _ => noStates) batchOnly)
      (HonestEvent (fun _ _ _ => true) 2 batchOnly.slotsPerEpoch)
      (.opened closingSnapshot []) d ∧
    d.closed.map (·.checkpoint) = [⟨3, joinedRoot⟩, ⟨2, nextRoot⟩] ∧
    d.closed.map (·.finalized) = [some ⟨2, nextRoot⟩, none] ∧
    d.engine.snapshot.state.finalized = some ⟨2, nextRoot⟩ := by
  obtain ⟨d₁, hfirst, d₂, hadvance, d₃, hsecond, hclosed⟩ :
      ∃ d₁ : State (formal willing) lone, step (fun _ => noStates) batchOnly
        (.opened closingSnapshot []) (.tick (closingFound 68)) = some d₁ ∧
      ∃ d₂, step (fun _ => noStates) batchOnly d₁.restarted (.tick (closingFound 102)) = some d₂ ∧
      ∃ d₃, step (fun _ => noStates) batchOnly d₂ (.tick (closingFound 102)) = some d₃ ∧
        d₃.closed.map (·.checkpoint) = [⟨3, joinedRoot⟩, ⟨2, nextRoot⟩] := by
    decide +kernel
  have hreached : Reached (step (fun _ => noStates) batchOnly)
      (HonestEvent (fun _ _ _ => true) 2 batchOnly.slotsPerEpoch)
      (.opened closingSnapshot []) d₃ := by
    have hclosing : Reached (step (fun _ => noStates) batchOnly)
        (HonestEvent (fun _ _ _ => true) 2 batchOnly.slotsPerEpoch) (.opened closingSnapshot [])
        d₁ := .step (e := .tick (closingFound 68)) .start (closingFound_honest 68) hfirst
    have hstarted : Reached (step (fun _ => noStates) batchOnly)
        (HonestEvent (fun _ _ _ => true) 2 batchOnly.slotsPerEpoch) (.opened closingSnapshot [])
        d₁.restarted := .step (e := .restart) hclosing trivial rfl
    exact .step (e := .tick (closingFound 102))
      (.step (e := .tick (closingFound 102)) hstarted (closingFound_honest 102) hadvance)
      (closingFound_honest 102) hsecond
  obtain ⟨-, -, hchained, hfinalized, -⟩ :=
    closes_in_order (fun _ => noStates) batchOnly (by decide) (by decide) hreached
  obtain ⟨late, early, hd⟩ := List.length_eq_two.mp (by simpa using congrArg List.length hclosed)
  rw [hd, List.map_cons, List.map_singleton] at hclosed
  obtain ⟨hlate, hearly⟩ : late.checkpoint = ⟨3, joinedRoot⟩ ∧
      early.checkpoint = ⟨2, nextRoot⟩ := by
    simpa using hclosed
  have hlater : late.finalized = some ⟨2, nextRoot⟩ := by
    rw [hchained [] late [early] hd, List.head?_cons, hlate,
      Option.filter_some_pos (by rw [hearly]; decide), Option.map_some, hearly]
  have hnone : early.finalized = none := hchained [late] early [] hd
  refine ⟨d₃, hreached, ?_, ?_, ?_⟩
  · rw [hd, List.map_cons, List.map_singleton, hlate, hearly]
  · rw [hd, List.map_cons, List.map_singleton, hlater, hnone]
  · rw [hfinalized, hd, List.findSome?_cons, hlater]

end Zkasper.Daemon
