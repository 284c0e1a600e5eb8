import Zkasper.Finalization
import Zkasper.WitnessGen.Batch
import Zkasper.WitnessGen.BoundaryBuild
import Zkasper.WitnessGen.Store

/-! # Pairing two justifications

How the batch pipeline comes to a finalization (`try_finalize`): the justification that closes
an epoch is paired with the one on record, if that is of the epoch before and the diff on
record carries the one's accumulator to the other's; the boundary between them is opened, and
the pair is proved.

The two are paired by their epochs and accumulators. That the second votes from the
checkpoint of the first is for the circuit to find out (`tryFinalize_eq_some`), and then the
justification is lost with the finalization (`tryFinalize_isSome_iff`). -/

namespace Zkasper.Batch

open Panics Ssz Store
open SszState (StateConfig)

variable {P : Primitives}

/-! ## The pair -/

/-- `with_context`: the message goes before the error. -/
def withContext {α : Type} (message : String) (x : Outcome String α) : Outcome String α :=
  x.mapError fun
    | .error e => .error s!"{message}: {e}"
    | .panicked => .panicked

/-- A link of the chain, as the store keeps it. -/
def JustificationRecord.stored (record : JustificationRecord P) : Record (JustificationOutput P) :=
  ⟨record.output, record.proof⟩

/-- The diff carries the accumulator of one justification to that of the other. -/
def Carries (diff : EpochDiffOutput P) (previous current : JustificationOutput P) : Prop :=
  (diff.epoch1 = previous.targetEpoch ∧ diff.epoch2 = current.targetEpoch) ∧
    diff.prevAccumulatorCommitment = previous.accumulatorCommitment ∧
    diff.accumulatorCommitment = current.accumulatorCommitment

instance (diff : EpochDiffOutput P) (previous current : JustificationOutput P) :
    Decidable (Carries diff previous current) :=
  inferInstanceAs (Decidable (_ ∧ _))

/-- What the record is paired with: the justification of the epoch before it, and the diff that
links their accumulators. The source warns where there is the one without the other. -/
def pairing (state : StoreState P) (current : JustificationOutput P) :
    Option (Record (JustificationOutput P) × Record (EpochDiffOutput P)) := do
  let previous ← state.lastJustification
  if previous.output.targetEpoch + 1 ≠ current.targetEpoch then none
  else do
    let diff ← state.lastEpochDiff
    if Carries diff.output previous.output current then some (previous, diff) else none

/-- The witness of the pair. -/
def finalizationWitness (boundary : BoundaryAnchor P) (previous : Record (JustificationOutput P))
    (diff : Record (EpochDiffOutput P)) (current : JustificationRecord P) :
    FinalizationWitness P where
  boundary
  justificationOutputs := [previous.output, current.output]
  justificationProofs := [previous.proof, current.proof]
  epochDiffOutput := diff.output
  epochDiffProof := diff.proof

/-- The finalizing stage of the prover. -/
abbrev Finalizer (P : Primitives) :=
  FinalizationWitness P → Except String (FinalizationOutput P × Proof)

/-- Pair the new justification with the previous epoch's, if they can be. -/
def tryFinalize (api : Boundary.Node P) (config : StateConfig) (proveFinalization : Finalizer P)
    (write : Except String Unit) (snapshot : Snapshot P) (current : JustificationRecord P) :
    Outcome String (Option (Checkpoint P)) :=
  match pairing snapshot.state current.output with
  | none => return none
  | some (previous, diff) => do
      let epoch := previous.output.targetEpoch
      let boundary ← withContext s!"open the boundary of epoch {epoch}" <|
        Boundary.build api config current.output.targetRoot epoch previous.output.targetRoot
          diff.output.stateRoot1 snapshot.epochState
      let (output, _) ← ofResult <|
        proveFinalization (finalizationWitness boundary previous diff current)
      ofResult write
      return some ⟨output.finalizedEpoch, output.finalizedRoot⟩

/-! ## What a pair is -/

section Pairing

variable {state : StoreState P} {current : JustificationOutput P}
  {previous : Record (JustificationOutput P)} {diff : Record (EpochDiffOutput P)}

@[simp] theorem withContext_eq_ok {α : Type} {message : String} {x : Outcome String α} {a : α} :
    withContext message x = .ok a ↔ x = .ok a := Guest.mapError_eq_ok

theorem pairing_eq_some :
    pairing state current = some (previous, diff) ↔
      state.lastJustification = some previous ∧ state.lastEpochDiff = some diff ∧
        previous.output.targetEpoch + 1 = current.targetEpoch ∧
        Carries diff.output previous.output current := by
  unfold pairing
  constructor
  · intro h
    obtain ⟨record, hrecord, h⟩ := Option.bind_eq_some_iff.mp h
    split at h
    · cases h
    · next hepoch =>
        obtain ⟨linking, hlinking, h⟩ := Option.bind_eq_some_iff.mp h
        obtain ⟨hcarries, hpair⟩ := Option.ite_none_right_eq_some.mp h
        obtain ⟨rfl, rfl⟩ := Prod.mk.inj (Option.some.inj hpair)
        exact ⟨hrecord, hlinking, not_ne_iff.mp hepoch, hcarries⟩
  · rintro ⟨hrecord, hlinking, hepoch, hcarries⟩
    simp [hrecord, hlinking, hepoch, hcarries]

end Pairing

/-! ## What comes of it -/

section Finalize

variable {S : ProofSystem P} {api : Boundary.Node P} {config : StateConfig}
  {proveFinalization : Finalizer P} {write : Except String Unit} {snapshot : Snapshot P}
  {current : JustificationRecord P}

/-- A prover that runs the circuit: what it returns is the circuit's. -/
def Finalizer.Honest (S : ProofSystem P) (slotsPerEpoch : UInt64)
    (proveFinalization : Finalizer P) : Prop :=
  ∀ {w out proof}, proveFinalization w = .ok (out, proof) →
    verifyFinalizationWithSlots S w slotsPerEpoch = .ok out

/-- **Nothing is finalized exactly if there is no pair.** -/
theorem tryFinalize_eq_none :
    tryFinalize api config proveFinalization write snapshot current = .ok none ↔
      pairing snapshot.state current.output = none := by
  unfold tryFinalize
  cases hpair : pairing snapshot.state current.output with
  | none => simp [pure, Except.pure]
  | some pair =>
      simp only [Guest.bind_eq_ok, Guest.pure_eq_ok, reduceCtorEq, and_false, exists_false]

/-- **A pair that is finalized** is a link of the chain: the second votes from the checkpoint of
the first, which is what is finalized. -/
theorem tryFinalize_eq_some {checkpoint : Checkpoint P}
    (hhonest : proveFinalization.Honest S config.slotsPerEpoch)
    (h : tryFinalize api config proveFinalization write snapshot current = .ok (some checkpoint)) :
    ∃ previous diff, pairing snapshot.state current.output = some (previous, diff) ∧
      current.output.sourceEpoch = previous.output.targetEpoch ∧
      current.output.sourceRoot = previous.output.targetRoot ∧
      checkpoint = ⟨previous.output.targetEpoch, previous.output.targetRoot⟩ := by
  unfold tryFinalize at h
  cases hpair : pairing snapshot.state current.output with
  | none =>
      rw [hpair] at h
      cases h
  | some pair =>
      obtain ⟨previous, diff⟩ := pair
      simp only [hpair, Guest.bind_eq_ok, Guest.pure_eq_ok, ofResult_eq_ok, withContext_eq_ok] at h
      obtain ⟨boundary, -, ⟨out, proof⟩, hprove, _, -, hcheckpoint⟩ := h
      obtain ⟨justE, justE1, hfinalizes, rfl⟩ := verifyFinalizationWithSlots_eq_ok.mp
        (hhonest hprove)
      obtain ⟨rfl, rfl⟩ : previous.output = justE ∧ current.output = justE1 := by
        simpa [finalizationWitness] using hfinalizes.outputs
      exact ⟨previous, diff, rfl, hfinalizes.source.1, hfinalizes.source.2,
        (Option.some.inj hcheckpoint).symm⟩

/-- **When a pair is finalized**: with proven records and an anchor that was built, exactly if the
second votes from the checkpoint of the first, and the header the node answered with is that of
the second, in the window. The host checks none of these. -/
theorem tryFinalize_isSome_iff {previous : Record (JustificationOutput P)}
    {diff : Record (EpochDiffOutput P)}
    (hpair : pairing snapshot.state current.output = some (previous, diff))
    (hproves : ∀ w, (∃ answer, proveFinalization w = .ok answer) ↔
      ∃ out, verifyFinalizationWithSlots S w config.slotsPerEpoch = .ok out)
    (hrecords : ProvenBy S (previous.proof, previous.output) ∧
      ProvenBy S (current.proof, current.output))
    (hjustified : previous.output.justified = true ∧ current.output.justified = true)
    (hdiff : diff.proof ≠ [] ∧ S diff.proof epochDiffProgramVk diff.output.publicBytes = true)
    {anchor : BoundaryAnchor P} (hbuild : Boundary.build api config current.output.targetRoot
      previous.output.targetEpoch previous.output.targetRoot diff.output.stateRoot1
      snapshot.epochState = .ok anchor)
    (hwrite : write = .ok ()) :
    (∃ checkpoint, tryFinalize api config proveFinalization write snapshot current =
        .ok (some checkpoint)) ↔
      (current.output.sourceEpoch = previous.output.targetEpoch ∧
        current.output.sourceRoot = previous.output.targetRoot) ∧
      ∃ header, api.getHeader current.output.targetRoot = .ok header ∧
        blockHeaderRoot P header = current.output.targetRoot ∧
        RecordsSlot header.slot (previous.output.targetEpoch * config.slotsPerEpoch) := by
  obtain ⟨-, -, hconsecutive, ⟨hepochs, haccumulators⟩⟩ := pairing_eq_some.mp hpair
  obtain ⟨header, hheader, -, haccepted⟩ := Boundary.build_accepted hbuild
  -- what is left of the circuit's checks
  have hruns : (∃ out, verifyFinalizationWithSlots S (finalizationWitness anchor previous diff
      current) config.slotsPerEpoch = .ok out) ↔
        (current.output.sourceEpoch = previous.output.targetEpoch ∧
          current.output.sourceRoot = previous.output.targetRoot) ∧
        blockHeaderRoot P header = current.output.targetRoot ∧
        RecordsSlot header.slot (previous.output.targetEpoch * config.slotsPerEpoch) := by
    constructor
    · rintro ⟨out, hrun⟩
      obtain ⟨justE, justE1, hfinalizes, -⟩ := verifyFinalizationWithSlots_eq_ok.mp hrun
      obtain ⟨rfl, rfl⟩ : previous.output = justE ∧ current.output = justE1 := by
        simpa [finalizationWitness] using hfinalizes.outputs
      exact ⟨hfinalizes.source, haccepted.mp hfinalizes.boundary⟩
    · rintro ⟨hsource, hopens⟩
      refine ⟨_, verifyFinalizationWithSlots_eq_ok.mpr ⟨previous.output, current.output, ?_, rfl⟩⟩
      exact {
        outputs := rfl
        proven := by simpa [finalizationWitness] using hrecords
        justified := hjustified
        consecutive := hconsecutive.symm
        source := hsource
        diff := hdiff
        accumulators := haccumulators
        epochs := hepochs
        boundary := haccepted.mpr hopens }
  constructor
  · rintro ⟨checkpoint, h⟩
    simp only [tryFinalize, hpair, Guest.bind_eq_ok, ofResult_eq_ok, withContext_eq_ok] at h
    obtain ⟨built, hbuilt, answer, hprove, -⟩ := h
    obtain rfl : anchor = built := Except.ok.inj (hbuild.symm.trans hbuilt)
    obtain ⟨hsource, hopens⟩ := hruns.mp ((hproves _).mp ⟨answer, hprove⟩)
    exact ⟨hsource, header, hheader, hopens⟩
  · rintro ⟨hsource, answered, hanswered, hopens⟩
    obtain rfl : header = answered := Except.ok.inj (hheader.symm.trans hanswered)
    obtain ⟨⟨out, proof⟩, hprove⟩ := (hproves _).mpr (hruns.mpr ⟨hsource, hopens⟩)
    refine ⟨⟨out.finalizedEpoch, out.finalizedRoot⟩, ?_⟩
    simp only [tryFinalize, hpair, Guest.bind_eq_ok, ofResult_eq_ok, withContext_eq_ok,
      Guest.pure_eq_ok]
    exact ⟨anchor, hbuild, (out, proof), hprove, (), hwrite, rfl⟩

end Finalize
end Zkasper.Batch

/-! ## A pair that is finalized -/

namespace Zkasper.Formal

open Store

def fixtureRoot : (formal {}).Bytes32 := Ssz.blockHeaderRoot _ (fixtureHeader 97)

/-- The accumulator of both epochs. -/
def fixtureCommitment : (formal {}).Digest := .commitment .zero 0

def fixtureJustification (sourceEpoch targetEpoch : UInt64)
    (sourceRoot targetRoot : (formal {}).Bytes32) : JustificationOutput (formal {}) :=
  ⟨fixtureCommitment, .zero, sourceEpoch, sourceRoot, targetEpoch, targetRoot, 0, 0, true,
    justificationProgramVk⟩

def fixturePrevious : Record (JustificationOutput (formal {})) :=
  ⟨fixtureJustification 2 3 (formal {}).zeroChunk ((formal {}).chunk 1), [1]⟩

def fixtureDiff : Record (EpochDiffOutput (formal {})) :=
  ⟨⟨fixtureCommitment, (formal {}).chunk 2, 3, fixtureCommitment, .zero, 0,
    (formal {}).zeroChunk, 4⟩, [1]⟩

/-- Epoch 3 is justified, and the diff to epoch 4 is on record. -/
def fixtureSnapshot : Snapshot (formal {}) where
  state := {
    (.started "formal" 4 .zero 0 0 : StoreState (formal {})) with
    lastJustification := some fixturePrevious
    lastEpochDiff := some fixtureDiff }
  tree := ⟨0, 0, [], []⟩
  epochState := fixtureState

/-- Epoch 4 is, from epoch 3. -/
def fixtureCurrent : Batch.JustificationRecord (formal {}) :=
  ⟨fixtureJustification 3 4 ((formal {}).chunk 1) fixtureRoot, [1]⟩

/-- The circuit, over a proof system that accepts everything. -/
def finalizer : Batch.Finalizer (formal {}) := fun w =>
  (verifyFinalizationWithSlots (fun _ _ _ => true) w 32).map fun output => (output, [1])

end Zkasper.Formal

namespace Zkasper.Batch

open Formal

theorem finalizer_runs (w : FinalizationWitness (formal {})) :
    (∃ answer, finalizer w = .ok answer) ↔ ∃ out, verifyFinalizationWithSlots
      (fun _ _ _ => true) w (⟨32, 0⟩ : SszState.StateConfig).slotsPerEpoch = .ok out := by
  show (∃ answer, Except.map _ (verifyFinalizationWithSlots (fun _ _ _ => true) w 32) = _) ↔
    ∃ out, verifyFinalizationWithSlots (fun _ _ _ => true) w 32 = _
  cases verifyFinalizationWithSlots (fun _ _ _ => true) w 32 <;> simp [Except.map]

theorem fixture_proven {output : JustificationOutput (formal {})}
    (h : output.programVk = justificationProgramVk) :
    ProvenBy (fun _ _ _ => true) ([1], output) :=
  ⟨⟨List.cons_ne_nil _ _, rfl⟩, h⟩

/-- Epoch 4 finalizes epoch 3, from which it votes. -/
theorem tryFinalize_isSome_next : ∃ checkpoint,
    tryFinalize (fixtureNode 97) ⟨32, 0⟩ finalizer (.ok ()) fixtureSnapshot fixtureCurrent =
      .ok (some checkpoint) := by
  obtain ⟨anchor, hbuild⟩ := fixture_builds 97 fixtureRoot
  have hpair : pairing fixtureSnapshot.state fixtureCurrent.output =
      some (fixturePrevious, fixtureDiff) :=
    pairing_eq_some.mpr ⟨rfl, rfl, rfl, ⟨rfl, rfl⟩, rfl, rfl⟩
  apply (tryFinalize_isSome_iff hpair finalizer_runs ⟨fixture_proven rfl, fixture_proven rfl⟩
    ⟨rfl, rfl⟩ ⟨List.cons_ne_nil _ _, rfl⟩ hbuild rfl).mpr
  exact ⟨⟨rfl, rfl⟩, fixtureHeader 97, rfl, rfl, by decide⟩

end Zkasper.Batch
