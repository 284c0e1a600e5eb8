import Zkasper.Fcr.Rule
import Zkasper.Fcr.Types
import Zkasper.Formal
import Zkasper.Guest

/-! # Confirming a block from batch proofs

The light client's side: `accumulate` joins a run of published batches into one
window, and `isConfirmed` judges the window's support against the specification's
threshold.

Two things the window carries never meet the call that judges it. The slots the
threshold is sized for are arguments of the call, so a verdict is a verdict over
the caller's range and says nothing of the window's own slots unless the range
contains them (`isConfirmed_threshold`). And an `Assignment` keeps of a committee
proof its root alone, so the epoch and the accumulator the proof was made for are
for the caller to compare (`isConfirmed_root`). -/

namespace Zkasper.Fcr

variable {P : Primitives}

/-! ## The verifier -/

/-- Why a run of batches is not a window, or a window not judged. -/
inductive Error where
  | empty
  | accumulatorMismatch
  | committeeRootMismatch
  | totalActiveBalanceMismatch
  | chainBroken (atSlot : UInt64)
  | slotGap (expected found : UInt64)
  | overflow
  | assignmentNotProven
  | assignmentRootMismatch
  | unsupportedSlotsPerEpoch (slotsPerEpoch : UInt64)
  deriving DecidableEq

/-- Where a window's committee root came from. -/
structure Assignment (P : Primitives) where
  root : P.Digest
  shuffleProven : Bool

namespace Assignment

/-- From a committee proof, which establishes the assignment. -/
def fromCommitteeProof (proof : FcrCommitteeOutput P) : Assignment P := ⟨proof.committeeRoot, true⟩

/-- A committee root asserted to come from a proven assignment. -/
def proven (root : P.Digest) : Assignment P := ⟨root, true⟩

end Assignment

/-- Chain parameters the rule needs and a proof does not carry. -/
structure Params where
  slotsPerEpoch : UInt64 := 32
  byzantineThreshold : UInt64 := 25
  proposerScoreBoost : UInt64 := 40

/-- A contiguous run of batches, joined and checked. -/
structure Window (P : Primitives) where
  accumulatorCommitment : P.Digest
  committeeRoot : P.Digest
  totalActiveBalance : UInt64
  firstSlot : UInt64
  lastSlot : UInt64
  parentHeadRoot : P.Bytes32
  headRoot : P.Bytes32
  headSlot : UInt64
  support : UInt64

/-- The window of one batch. -/
def Window.start (first : FcrBatchOutput P) : Window P where
  accumulatorCommitment := first.accumulatorCommitment
  committeeRoot := first.committeeRoot
  totalActiveBalance := first.totalActiveBalance
  firstSlot := first.firstSlot
  lastSlot := first.firstSlot + first.slotCount - 1
  parentHeadRoot := first.parentHeadRoot
  headRoot := first.headRoot
  headSlot := first.headSlot
  support := first.support

/-- Join one more batch to a window. -/
def Window.extend (window : Window P) (batch : FcrBatchOutput P) : Except Error (Window P) :=
  if batch.accumulatorCommitment ≠ window.accumulatorCommitment then .error .accumulatorMismatch
  else if batch.committeeRoot ≠ window.committeeRoot then .error .committeeRootMismatch
  else if batch.totalActiveBalance ≠ window.totalActiveBalance then
    .error .totalActiveBalanceMismatch
  else if batch.parentHeadRoot ≠ window.headRoot then .error (.chainBroken batch.firstSlot)
  else if batch.firstSlot ≠ window.lastSlot + 1 then
    .error (.slotGap (window.lastSlot + 1) batch.firstSlot)
  else
    match toU64? (window.support.toNat + batch.support.toNat) with
    | none => .error .overflow
    | some support => .ok { window with
        support := support
        lastSlot := batch.firstSlot + batch.slotCount - 1
        headRoot := batch.headRoot
        headSlot := batch.headSlot }

/-- Join a run of batch proofs, in slot order, into one window. -/
def accumulate : List (FcrBatchOutput P) → Except Error (Window P)
  | [] => .error .empty
  | first :: rest => rest.foldlM Window.extend (Window.start first)

/-- `?` on the dependency's errors, all of which are overflows. -/
def orOverflow {α : Type} (o : Option α) : Except Error α :=
  match o with
  | some a => .ok a
  | none => .error .overflow

/-- `estimate_committee_weight_between_slots`, for the numbers of slots per epoch
the verifier was built for. -/
def estimateCommitteeWeightBetweenSlots (fc : FastConfirmation)
    (totalActiveBalance startSlot endSlot slotsPerEpoch : UInt64) : Except Error UInt64 :=
  if slotsPerEpoch = 32 ∨ slotsPerEpoch = 16 ∨ slotsPerEpoch = 8 ∨ slotsPerEpoch = 4 then
    orOverflow (fc.estimateCommitteeWeightBetweenSlots slotsPerEpoch totalActiveBalance startSlot
      endSlot)
  else .error (.unsupportedSlotsPerEpoch slotsPerEpoch)

/-- `u64::saturating_add(1)` -/
def saturatingSucc (n : UInt64) : UInt64 := if n = 18446744073709551615 then n else n + 1

/-- `u64::saturating_sub(1)` -/
def saturatingPred (n : UInt64) : UInt64 := if n = 0 then 0 else n - 1

/-- The specification's safety threshold for this window. -/
def safetyThreshold (fc : FastConfirmation) (window : Window P) (parentSlot currentSlot : UInt64)
    (params : Params) : Except Error UInt64 := do
  let t := window.totalActiveBalance
  let spe := params.slotsPerEpoch
  let maximumSupport ← estimateCommitteeWeightBetweenSlots fc t (saturatingSucc parentSlot)
    (saturatingPred currentSlot) spe
  let proposerScore ← orOverflow (fc.computeProposerScore t spe params.proposerScoreBoost)
  let maxAdversarial ← orOverflow
    (fc.maxAdversarialWeight maximumSupport params.byzantineThreshold)
  let adversarial := fc.adversarialWeight maxAdversarial 0
  orOverflow (fc.safetyThreshold maximumSupport proposerScore adversarial 0)

/-- Whether the window confirms its head, under the specification's own rule. -/
def isConfirmed (fc : FastConfirmation) (window : Window P) (assignment : Assignment P)
    (parentSlot currentSlot : UInt64) (params : Params) : Except Error Bool :=
  if assignment.root ≠ window.committeeRoot then .error .assignmentRootMismatch
  else if !assignment.shuffleProven then .error .assignmentNotProven
  else do
    let threshold ← safetyThreshold fc window parentSlot currentSlot params
    return fc.isOneConfirmed false window.support threshold

/-! ## What a join keeps -/

theorem Window.extend_eq_ok {window window' : Window P} {batch : FcrBatchOutput P}
    (h : window.extend batch = .ok window') :
    batch.committeeRoot = window.committeeRoot ∧ window'.committeeRoot = window.committeeRoot := by
  unfold Window.extend at h
  split_ifs at h with hacc hroot htotal hhead hslot
  split at h
  · cases h
  · obtain rfl := Except.ok.inj h
    exact ⟨not_not.mp hroot, rfl⟩

/-- A run of joins leaves the root where it was, and every batch it joined had it. -/
theorem extendAll_committeeRoot : ∀ {rest : List (FcrBatchOutput P)} {s s' : Window P},
    rest.foldlM Window.extend s = .ok s' →
      s'.committeeRoot = s.committeeRoot ∧ ∀ b ∈ rest, b.committeeRoot = s.committeeRoot := by
  intro rest
  induction rest with
  | nil =>
      intro s s' h
      obtain rfl := Guest.foldlM_nil.mp h
      exact ⟨rfl, by simp⟩
  | cons b rest ih =>
      intro s s' h
      obtain ⟨mid, hstep, h⟩ := Guest.foldlM_cons.mp h
      obtain ⟨hb, hmid⟩ := Window.extend_eq_ok hstep
      obtain ⟨hroot, hrest⟩ := ih h
      refine ⟨hroot.trans hmid, fun b' hb' => ?_⟩
      rcases List.mem_cons.mp hb' with rfl | hb'
      · exact hb
      · exact (hrest b' hb').trans hmid

/-- Every batch of a window was proved against the window's committee root. -/
theorem accumulate_committeeRoot {batches : List (FcrBatchOutput P)} {w : Window P}
    (h : accumulate batches = .ok w) : ∀ b ∈ batches, b.committeeRoot = w.committeeRoot := by
  cases batches with
  | nil => cases h
  | cons first rest =>
      obtain ⟨hroot, hrest⟩ := extendAll_committeeRoot h
      intro b hb
      rcases List.mem_cons.mp hb with rfl | hb
      · exact hroot.symm
      · exact (hrest b hb).trans hroot.symm

/-! ## What a verdict says -/

theorem orOverflow_eq_ok {α : Type} {o : Option α} {a : α} (h : orOverflow o = .ok a) :
    o = some a := by
  cases o with
  | none => cases h
  | some b => exact congrArg some (Except.ok.inj h)

/-- What the threshold of a window is computed from, the discount being zero. -/
def Window.ruleInput (w : Window P) (params : Params) : RuleInput where
  slotsPerEpoch := params.slotsPerEpoch.toNat
  totalActiveBalance := w.totalActiveBalance.toNat
  byzantineThreshold := params.byzantineThreshold.toNat
  proposerScoreBoost := params.proposerScoreBoost.toNat
  emptySlotSupport := 0

/-- The threshold the verifier computes is the specification's, for the caller's range. -/
theorem safetyThreshold_eq {fc : FastConfirmation} {R : RuleSpec} (hfc : fc.Implements R)
    {w : Window P} {parentSlot currentSlot : UInt64} {params : Params} {t : UInt64}
    (h : safetyThreshold fc w parentSlot currentSlot params = .ok t) :
    t.toNat = R.threshold (w.ruleInput params) (saturatingSucc parentSlot).toNat
      (saturatingPred currentSlot).toNat := by
  simp only [safetyThreshold, Guest.bind_eq_ok] at h
  obtain ⟨m, hm, p, hp, a, ha, ht⟩ := h
  unfold estimateCommitteeWeightBetweenSlots at hm
  split at hm
  · -- each number of the rule is what its specification says it is
    rw [hfc.safetyThreshold _ _ _ _ _ (orOverflow_eq_ok ht), hfc.adversarialWeight,
      hfc.estimate _ _ _ _ _ (orOverflow_eq_ok hm),
      hfc.proposerScore _ _ _ _ (orOverflow_eq_ok hp),
      hfc.maxAdversarialWeight _ _ _ (orOverflow_eq_ok ha),
      hfc.estimate _ _ _ _ _ (orOverflow_eq_ok hm)]
    simp [RuleSpec.threshold, Window.ruleInput]
  · cases hm

theorem isConfirmed_eq_ok {fc : FastConfirmation} {w : Window P} {a : Assignment P}
    {parentSlot currentSlot : UInt64} {params : Params} {b : Bool}
    (h : isConfirmed fc w a parentSlot currentSlot params = .ok b) :
    a.root = w.committeeRoot ∧ ∃ t, safetyThreshold fc w parentSlot currentSlot params = .ok t ∧
      b = fc.isOneConfirmed false w.support t := by
  unfold isConfirmed at h
  split_ifs at h with hroot hproven
  obtain ⟨t, ht, hret⟩ := Guest.bind_eq_ok.mp h
  exact ⟨not_not.mp hroot, t, ht, (Guest.pure_eq_ok.mp hret).symm⟩

/-- **A verdict is a verdict over the caller's range.** A confirmed window's
support exceeds the specification's threshold of the slots the caller named, and
so of every range inside them: of the window's own slots where the caller's range
contains them. -/
theorem isConfirmed_threshold {fc : FastConfirmation} {R : RuleSpec} (hfc : fc.Implements R)
    (batches : List (FcrBatchOutput P)) (w : Window P) (_ : accumulate batches = .ok w)
    (assignment : Assignment P) (parentSlot currentSlot : UInt64) (params : Params)
    (h : isConfirmed fc w assignment parentSlot currentSlot params = .ok true) :
    R.threshold (w.ruleInput params) (saturatingSucc parentSlot).toNat
        (saturatingPred currentSlot).toNat < w.support.toNat ∧
      ∀ startSlot endSlot, (saturatingSucc parentSlot).toNat ≤ startSlot →
        endSlot ≤ (saturatingPred currentSlot).toNat →
          R.threshold (w.ruleInput params) startSlot endSlot < w.support.toNat := by
  obtain ⟨-, t, ht, hconfirmed⟩ := isConfirmed_eq_ok h
  rw [hfc.isOneConfirmed, eq_comm, Bool.not_false, Bool.true_and, decide_eq_true_eq,
    UInt64.lt_iff_toNat_lt, safetyThreshold_eq hfc ht] at hconfirmed
  exact ⟨hconfirmed, fun s e hs he => (R.threshold_mono _ hs he).trans_lt hconfirmed⟩

/-- **A verdict binds an assignment by its root alone.** A window judged under a
committee proof's assignment was counted against the proof's committee root, every
batch of it, and any other proof with that root gives the same verdict. -/
theorem isConfirmed_root (fc : FastConfirmation) (proof : FcrCommitteeOutput P)
    (batches : List (FcrBatchOutput P)) (w : Window P) (hw : accumulate batches = .ok w)
    (parentSlot currentSlot : UInt64) (params : Params) (b : Bool)
    (h : isConfirmed fc w (Assignment.fromCommitteeProof proof) parentSlot currentSlot params =
      .ok b) :
    w.committeeRoot = proof.committeeRoot ∧
      (∀ batch ∈ batches, batch.committeeRoot = proof.committeeRoot) ∧
      ∀ other : FcrCommitteeOutput P, other.committeeRoot = proof.committeeRoot →
        isConfirmed fc w (Assignment.fromCommitteeProof other) parentSlot currentSlot params =
          .ok b := by
  have hroot : proof.committeeRoot = w.committeeRoot := (isConfirmed_eq_ok h).1
  refine ⟨hroot.symm, fun batch hbatch => ?_, fun other hother => ?_⟩
  · rw [accumulate_committeeRoot hw batch hbatch, hroot]
  · rw [Assignment.fromCommitteeProof, hother]
    exact h

/-! ## One window, judged as another -/

/-- A batch over `slotCount` slots from `firstSlot`, with `support` behind it. -/
def sampleBatch (firstSlot slotCount support : UInt64) : FcrBatchOutput (Formal.formal {}) where
  accumulatorCommitment := .commitment .zero 3200
  committeeRoot := .zero
  parentHeadRoot := .bytes [1]
  headRoot := .bytes [2]
  headSlot := firstSlot + slotCount - 1
  support := support
  totalActiveBalance := 3200
  firstSlot := firstSlot
  slotCount := slotCount
  threshold := 0
  confirmed := false
  byzantineThreshold := 25
  proposerScoreBoost := 40
  emptySlotSupport := 0

/-- The window that `sampleBatch` alone makes. -/
def sampleWindow (firstSlot slotCount support : UInt64) : Window (Formal.formal {}) :=
  Window.start (sampleBatch firstSlot slotCount support)

/-- A committee proof of epoch 7, over another accumulator than `sampleBatch`'s. -/
def sampleProof : FcrCommitteeOutput (Formal.formal {}) where
  accumulatorCommitment := .commitment .zero 1
  seed := .bytes [3]
  epoch := 7
  committeeRoot := .zero
  activeCount := 100

/-- Two committees' worth of support over the 32 slots from 0 confirm as a window
of the one slot 32: the verdict is `Ok(true)`, the window's slots are not in the
caller's range, and its support is below the threshold of its own slots. -/
theorem isConfirmed_other_range :
    (FastConfirmation.ofSpec flatRule).Implements flatRule ∧
    accumulate [sampleBatch 0 32 200] = .ok (sampleWindow 0 32 200) ∧
    isConfirmed (FastConfirmation.ofSpec flatRule) (sampleWindow 0 32 200)
      (Assignment.proven Formal.Digest.zero) 31 33 {} = .ok true ∧
    ¬ ((31 : ℕ) + 1 ≤ (sampleWindow 0 32 200).firstSlot.toNat ∧
      (sampleWindow 0 32 200).lastSlot.toNat ≤ 33 - 1) ∧
    (sampleWindow 0 32 200).support.toNat <
      flatRule.threshold ((sampleWindow 0 32 200).ruleInput {})
        (sampleWindow 0 32 200).firstSlot.toNat (sampleWindow 0 32 200).lastSlot.toNat :=
  ⟨FastConfirmation.ofSpec_implements _, rfl, by decide +kernel, by decide, by decide⟩

/-- A window judged over its own slots. -/
theorem isConfirmed_threshold_own_range :
    flatRule.threshold ((sampleWindow 1 1 200).ruleInput {}) 1 1 < 200 :=
  (isConfirmed_threshold (FastConfirmation.ofSpec_implements flatRule) [sampleBatch 1 1 200]
    (sampleWindow 1 1 200) rfl (Assignment.proven Formal.Digest.zero) 0 2 {} (by decide +kernel)).2
    1 1 (by decide) (by decide)

/-- The window of slots 0 to 31 is judged under a committee proof of epoch 7 and
of another accumulator. -/
theorem isConfirmed_other_epoch :
    accumulate [sampleBatch 0 32 200] = .ok (sampleWindow 0 32 200) ∧
    (∃ b, isConfirmed (FastConfirmation.ofSpec flatRule) (sampleWindow 0 32 200)
      (Assignment.fromCommitteeProof sampleProof) 31 33 {} = .ok b ∧ True) ∧
    (sampleWindow 0 32 200).firstSlot / slotsPerEpoch ≠ sampleProof.epoch ∧
    (sampleWindow 0 32 200).accumulatorCommitment ≠ sampleProof.accumulatorCommitment :=
  ⟨rfl, by decide +kernel, by decide, by decide⟩

/-- The root it is judged under is its own. -/
theorem isConfirmed_root_sample :
    (sampleWindow 0 32 200).committeeRoot = sampleProof.committeeRoot :=
  (isConfirmed_root (FastConfirmation.ofSpec flatRule) sampleProof [sampleBatch 0 32 200]
    (sampleWindow 0 32 200) rfl 31 33 {} true (by decide +kernel)).1

end Zkasper.Fcr
