import Zkasper.FinalityChain
import Zkasper.Recursion.Words

/-! # Finalization in a batch

The batch pipeline's last proof: two justifications of consecutive epochs, the
second from the checkpoint of the first, and the epoch diff that links the
accumulators they were counted against.

A justification settles every signature it counts, slot proof by slot proof, so
its count is worth what the claims behind it are (`Settled`), and by induction on
the tree of runs so is the count of every fold. A finalization of two of them is
two quorums (`verifyFinalization_sound`).

The guest pairs proofs with outputs and asks for two outputs only. A witness with
fewer proofs than outputs is accepted with the rest of them unread, and with no
proofs at all it finalizes whatever it names (`verifyFinalization_unproven`). -/

namespace Zkasper

open Bls Ssz Merkle

variable {P : Primitives} {S : ProofSystem P} {slotsPerEpoch : UInt64}

/-! ## The circuit -/

/-- Witness for a finalization proof: it pairs two consecutive justifications. -/
structure FinalizationWitness (P : Primitives) where
  /-- The finalized epoch's boundary, opened out of the justified checkpoint. -/
  boundary : BoundaryAnchor P
  justificationOutputs : List (JustificationOutput P)
  justificationProofs : List (List UInt64)
  epochDiffOutput : EpochDiffOutput P
  epochDiffProof : List UInt64

/-- One justification proof, bound to program and outputs. -/
def verifyJustificationProof (S : ProofSystem P)
    (entry : (List UInt64 × JustificationOutput P) × ℕ) : Guest Unit := do
  let ((proof, output), i) := entry
  requireBakedChild S proof justificationProgramVk output.publicBytes
    s!"justification proof {i} failed recursive verification"
  Guest.assert (output.programVk = justificationProgramVk)
    s!"justification proof {i} folds a chain pinned to a different program"

/-- A partial link of a fold chain is a valid proof of a partial count. -/
def requireJustified (entry : JustificationOutput P × ℕ) : Guest Unit := do
  let (output, i) := entry
  Guest.assert (output.justified = true)
    (s!"justification proof {i} counts {output.attestingBalance} of the active balance, " ++
      "which is not a supermajority")

/-- Finalization verification on a chain whose epoch may not be 32 slots long. -/
def verifyFinalizationWithSlots (S : ProofSystem P) (w : FinalizationWitness P)
    (slotsPerEpoch : UInt64) : Guest (FinalizationOutput P) :=
  match w.justificationOutputs with
  | [justE, justE1] => do
      -- the pairing stops with the shorter of the two lists
      (w.justificationProofs.zip w.justificationOutputs).zipIdx.forM (verifyJustificationProof S)
      w.justificationOutputs.zipIdx.forM requireJustified
      Guest.assert (justE1.targetEpoch = justE.targetEpoch + 1)
        s!"justification epochs not consecutive: {justE.targetEpoch} and {justE1.targetEpoch}"
      Guest.assert (justE1.sourceEpoch = justE.targetEpoch)
        (s!"epoch {justE1.targetEpoch} was justified from epoch {justE1.sourceEpoch} " ++
          s!"rather than from {justE.targetEpoch}")
      Guest.assert (justE1.sourceRoot = justE.targetRoot)
        (s!"epoch {justE1.targetEpoch} was justified from a different checkpoint of " ++
          s!"epoch {justE.targetEpoch}")
      let diff := w.epochDiffOutput
      requireBakedChild S w.epochDiffProof epochDiffProgramVk diff.publicBytes
        "epoch diff proof failed recursive verification"
      Guest.assert (diff.prevAccumulatorCommitment = justE.accumulatorCommitment)
        "epoch diff does not start from the accumulator epoch E was justified against"
      Guest.assert (diff.accumulatorCommitment = justE1.accumulatorCommitment)
        "epoch diff does not end at the accumulator epoch E+1 was justified against"
      Guest.assert (diff.epoch1 = justE.targetEpoch)
        s!"epoch diff starts at epoch {diff.epoch1} but epoch {justE.targetEpoch} was justified"
      Guest.assert (diff.epoch2 = justE1.targetEpoch)
        s!"epoch diff ends at epoch {diff.epoch2} but epoch {justE1.targetEpoch} was justified"
      openBoundary w.boundary justE.targetEpoch justE.targetRoot justE1.targetRoot diff.stateRoot1
        slotsPerEpoch
      return {
        accumulatorCommitment := justE.accumulatorCommitment
        nextAccumulatorCommitment := justE1.accumulatorCommitment
        finalizedEpoch := justE.targetEpoch
        finalizedRoot := justE.targetRoot
        finalizedStateRoot := diff.stateRoot1 }
  | _ => .error "finalization requires exactly 2 justification outputs"

/-- Finalization verification on mainnet. -/
def verifyFinalization (S : ProofSystem P) (w : FinalizationWitness P) :
    Guest (FinalizationOutput P) :=
  verifyFinalizationWithSlots S w 32

/-! ### Accepted runs -/

theorem requireBakedChild_eq_ok_iff {proof : List UInt64} {baked : ProgramVk}
    {publics : PublicBytes P} {message : String} (hbaked : baked ≠ unsetVk) :
    requireBakedChild S proof baked publics message = .ok () ↔
      proof ≠ [] ∧ S proof baked publics = true := by
  by_cases hproof : proof = []
  · simp [requireBakedChild, verifyBakedChild, hproof, Guest.assert_eq_ok]
  · simp [requireBakedChild, verifyBakedChild, verifyChild, hproof, hbaked, Guest.bind_eq_ok,
      Guest.assert_eq_ok]

/-- A check that does not read the position. -/
theorem forM_zipIdx_eq_ok {α : Type} {f : α × ℕ → Guest Unit} {Q : α → Prop}
    (hf : ∀ entry, f entry = .ok () ↔ Q entry.1) {as : List α} {u : Unit} :
    as.zipIdx.forM f = .ok u ↔ ∀ a ∈ as, Q a := by
  rw [Guest.forM_eq_ok]
  calc (∀ entry ∈ as.zipIdx, f entry = .ok ())
      ↔ ∀ entry ∈ as.zipIdx, Q entry.1 := by simp only [hf]
    _ ↔ ∀ a ∈ as.zipIdx.map Prod.fst, Q a := List.forall_mem_map.symm
    _ ↔ ∀ a ∈ as, Q a := by rw [List.zipIdx_map_fst]

/-- The proof is a justification guest's, of a chain pinned to that guest. -/
def ProvenBy (S : ProofSystem P) (entry : List UInt64 × JustificationOutput P) : Prop :=
  (entry.1 ≠ [] ∧ S entry.1 justificationProgramVk entry.2.publicBytes = true) ∧
    entry.2.programVk = justificationProgramVk

theorem verifyJustificationProof_eq_ok (entry : (List UInt64 × JustificationOutput P) × ℕ) :
    verifyJustificationProof S entry = .ok () ↔ ProvenBy S entry.1 := by
  obtain ⟨⟨proof, output⟩, i⟩ := entry
  simp only [verifyJustificationProof, Guest.bind_eq_ok, Guest.assert_eq_ok, ProvenBy]
  rw [← requireBakedChild_eq_ok_iff (by decide)]
  exact ⟨fun ⟨_, hchild, hvk⟩ => ⟨hchild, hvk⟩, fun ⟨hchild, hvk⟩ => ⟨(), hchild, hvk⟩⟩

theorem requireJustified_eq_ok (entry : JustificationOutput P × ℕ) :
    requireJustified entry = .ok () ↔ entry.1.justified = true := by
  obtain ⟨output, i⟩ := entry
  simp only [requireJustified, Guest.assert_eq_ok]

/-- **What a run checks** of two justifications, the diff between them and the boundary. -/
structure Finalizes (S : ProofSystem P) (w : FinalizationWitness P) (slotsPerEpoch : UInt64)
    (justE justE1 : JustificationOutput P) : Prop where
  outputs : w.justificationOutputs = [justE, justE1]
  proven : ∀ entry ∈ w.justificationProofs.zip [justE, justE1], ProvenBy S entry
  justified : justE.justified = true ∧ justE1.justified = true
  consecutive : justE1.targetEpoch = justE.targetEpoch + 1
  source : justE1.sourceEpoch = justE.targetEpoch ∧ justE1.sourceRoot = justE.targetRoot
  diff : w.epochDiffProof ≠ [] ∧
    S w.epochDiffProof epochDiffProgramVk w.epochDiffOutput.publicBytes = true
  accumulators : w.epochDiffOutput.prevAccumulatorCommitment = justE.accumulatorCommitment ∧
    w.epochDiffOutput.accumulatorCommitment = justE1.accumulatorCommitment
  epochs : w.epochDiffOutput.epoch1 = justE.targetEpoch ∧
    w.epochDiffOutput.epoch2 = justE1.targetEpoch
  boundary : openBoundary w.boundary justE.targetEpoch justE.targetRoot justE1.targetRoot
    w.epochDiffOutput.stateRoot1 slotsPerEpoch = .ok ()

theorem verifyFinalizationWithSlots_eq_ok {w : FinalizationWitness P}
    {out : FinalizationOutput P} :
    verifyFinalizationWithSlots S w slotsPerEpoch = .ok out ↔
      ∃ justE justE1, Finalizes S w slotsPerEpoch justE justE1 ∧
        out = ⟨justE.accumulatorCommitment, justE1.accumulatorCommitment, justE.targetEpoch,
          justE.targetRoot, w.epochDiffOutput.stateRoot1⟩ := by
  constructor
  · intro h
    rcases houtputs : w.justificationOutputs with _ | ⟨justE, _ | ⟨justE1, _ | ⟨extra, rest⟩⟩⟩ <;>
      simp only [verifyFinalizationWithSlots, houtputs, reduceCtorEq] at h
    simp only [Guest.bind_eq_ok, Guest.assert_eq_ok, Guest.pure_eq_ok, exists_const] at h
    obtain ⟨_, hproven, _, hjustified, hconsecutive, hsource, hroot, _, hdiff, hprev, hnext,
      hfrom, hto, _, hboundary, rfl⟩ := h
    rw [forM_zipIdx_eq_ok verifyJustificationProof_eq_ok] at hproven
    rw [forM_zipIdx_eq_ok (Q := fun output => output.justified = true)
      requireJustified_eq_ok] at hjustified
    refine ⟨justE, justE1, ?_, rfl⟩
    exact {
      outputs := houtputs
      proven := hproven
      justified := ⟨hjustified _ (by simp), hjustified _ (by simp)⟩
      consecutive := hconsecutive
      source := ⟨hsource, hroot⟩
      diff := (requireBakedChild_eq_ok_iff (by decide)).mp hdiff
      accumulators := ⟨hprev, hnext⟩
      epochs := ⟨hfrom, hto⟩
      boundary := hboundary }
  · rintro ⟨justE, justE1, h, rfl⟩
    simp only [verifyFinalizationWithSlots, h.outputs, Guest.bind_eq_ok, Guest.assert_eq_ok,
      Guest.pure_eq_ok, exists_const]
    refine ⟨(), (forM_zipIdx_eq_ok verifyJustificationProof_eq_ok).mpr h.proven, (),
      (forM_zipIdx_eq_ok (Q := fun output => output.justified = true)
        requireJustified_eq_ok).mpr ?_, h.consecutive, h.source.1, h.source.2, (),
      (requireBakedChild_eq_ok_iff (by decide)).mpr h.diff, h.accumulators.1, h.accumulators.2,
      h.epochs.1, h.epochs.2, (), h.boundary, trivial⟩
    simp [h.justified]

/-- With two proofs, both justifications are proven. -/
theorem Finalizes.both {w : FinalizationWitness P} {justE justE1 : JustificationOutput P}
    (h : Finalizes S w slotsPerEpoch justE justE1) (hproofs : 2 ≤ w.justificationProofs.length) :
    (∃ proof, ProvenBy S (proof, justE)) ∧ ∃ proof, ProvenBy S (proof, justE1) := by
  obtain ⟨first, second, rest, hcons⟩ :
      ∃ first second rest, w.justificationProofs = first :: second :: rest := by
    rcases hlist : w.justificationProofs with _ | ⟨first, _ | ⟨second, rest⟩⟩
    · simp [hlist] at hproofs
    · simp [hlist] at hproofs
    · exact ⟨first, second, rest, rfl⟩
  have hproven := h.proven
  rw [hcons] at hproven
  exact ⟨⟨first, hproven _ (by simp)⟩, second, hproven _ (by simp)⟩

/-! ## Settled counts

The batch pipeline has no accumulator to carry: each slot proof finishes its own
pairing, so what it counts is signed for already. -/

/-- The FFG link a slot proof counts for. -/
def SlotProofOutput.link (out : SlotProofOutput P) : Link P :=
  ⟨out.sourceEpoch, out.sourceRoot, out.targetEpoch, out.targetRoot⟩

/-- The FFG link a justification counts for. -/
def JustificationOutput.link (out : JustificationOutput P) : Link P :=
  ⟨out.sourceEpoch, out.sourceRoot, out.targetEpoch, out.targetRoot⟩

/-- The FFG link of a witness. -/
def JustificationWitness.link (w : JustificationWitness P) : Link P :=
  ⟨w.sourceEpoch, w.sourceRoot, w.targetEpoch, w.targetRoot⟩

section Settled

variable {M : KeyModel P} {d : ℕ} {t : Contents P} {streamVk : ProgramVk}
  {committees : List (Option (CommitteeAggregate P))} {K : Keyring M d t}
  {B : Buckets M d t committees} {link : Link P}

/-- A count with claims behind it, all of them signed. -/
def Settled (K : Keyring M d t) (B : Buckets M d t committees) (link : Link P)
    (balance mask : UInt64) : Prop :=
  ∃ claims, Backed K B link balance mask claims ∧ ∀ m k, claims m k ≠ 0 → M.Signed k m

theorem Settled.zero : Settled K B link 0 0 := ⟨0, .zero, fun _ _ h => absurd rfl h⟩

/-- Counts over disjoint slots add up. -/
theorem Settled.join {balance mask balance' mask' : UInt64} (h : Settled K B link balance mask)
    (h' : Settled K B link balance' mask') (hmask : mask &&& mask' = 0) :
    Settled K B link (balance + balance') (mask ||| mask') := by
  obtain ⟨claims, hbacked, hsigned⟩ := h
  obtain ⟨claims', hbacked', hsigned'⟩ := h'
  refine ⟨claims + claims', hbacked.join hbacked' hmask, fun m k hclaimed => ?_⟩
  by_cases hzero : claims m k = 0
  · apply hsigned'
    intro hzero'
    apply hclaimed
    rw [Finsupp.add_apply, Pi.add_apply, hzero, hzero', add_zero]
  · exact hsigned m k hzero

/-- The settled balance is the stake of validators that attested the link. -/
theorem Settled.le_attesters {balance mask : UInt64} (h : Settled K B link balance mask) :
    balance.toNat ≤ ∑ i ∈ attesters K link, (t.balance i).toNat := by
  obtain ⟨claims, hbacked, hsigned⟩ := h
  exact hbacked.le_attesters hsigned

/-! ### Slot proofs -/

theorem Accepted.slot_inv {out : SlotProofOutput P}
    (h : Accepted d slotsPerEpoch streamVk slotProgramVk out.publicBytes) :
    ∃ w, verifySlotProofWithDepth w d = .ok out := by
  generalize hvk : slotProgramVk = vk at h
  generalize hpublics : out.publicBytes = publics at h
  cases h with
  | slot run => exact ⟨_, SlotProofOutput.publicBytes_injective hpublics ▸ run⟩
  | streamFinal => simp [SlotProofOutput.publicBytes, StreamFinalOutput.publicBytes] at hpublics
  | other foreign => exact absurd (by simp [guestKeys, ← hvk]) foreign
  | _ => cases hvk

/-- **A slot proof is settled**: it has done the final exponentiation itself. -/
theorem Accepted.slot_settled (hP : CollisionFree P) {out : SlotProofOutput P} {total : UInt64}
    (h : Accepted d slotsPerEpoch streamVk slotProgramVk out.publicBytes)
    (hacc : out.accumulatorCommitment = P.commitment (t.accRoot d) total)
    (hroot : Committee.root committees = .ok out.committeeRoot) :
    Settled K B out.link out.attestingBalance out.slotsMask := by
  obtain ⟨w, hrun⟩ := h.slot_inv
  simp only [verifySlotProofWithDepth, attest, Guest.bind_eq_ok, Guest.assert_eq_ok,
    Guest.pure_eq_ok, exists_const] at hrun
  obtain ⟨attested, ⟨hcommitment, hattested⟩, hexp, rfl⟩ := hrun
  obtain ⟨haccRoot, -⟩ := hP.commitment (hcommitment.trans hacc)
  exact ⟨_, verifyAttestations_backed hP K B haccRoot hroot hattested,
    (M.finalExpIsOne_iff _).mp hexp⟩

/-! ### The fold -/

/-- What the loop over the slot proofs has checked of one of them. -/
theorem absorbSlotProof_eq_ok {w : JustificationWitness P} {committeeRoot : P.Digest}
    {running running' : Justified} {entry : (SlotProofOutput P × List UInt64) × ℕ}
    (h : absorbSlotProof S w committeeRoot running entry = .ok running') :
    ∃ out : SlotProofOutput P, (∃ proof, S proof slotProgramVk out.publicBytes = true) ∧
      out.accumulatorCommitment = w.accumulatorCommitment ∧ out.committeeRoot = committeeRoot ∧
      out.link = w.link ∧
      running.slotsMask &&& out.slotsMask = 0 ∧
      running' = ⟨running.attestingBalance + out.attestingBalance,
        running.slotsMask ||| out.slotsMask⟩ := by
  obtain ⟨⟨out, proof⟩, i⟩ := entry
  simp only [absorbSlotProof, Guest.bind_eq_ok, Guest.assert_eq_ok, Guest.pure_eq_ok,
    exists_const] at h
  obtain ⟨_, hchild, hacc, hcommittee, hte, htr, hse, hsr, hmask, rfl⟩ := h
  refine ⟨out, ⟨proof, requireBakedChild_eq_ok hchild⟩, hacc, hcommittee, ?_, hmask, rfl⟩
  rw [SlotProofOutput.link, hse, hsr, hte, htr, JustificationWitness.link]

/-- What a fold starts from: the committee proof of an epoch that opens here, or
the fold before it. -/
theorem inheritJustification_eq_ok {w : JustificationWitness P} {committeeRoot : P.Digest}
    {previous : Justified} (hcommittee : justificationCommittee S w = .ok committeeRoot)
    (h : inheritJustification S w = .ok previous) :
    (previous = ⟨0, 0⟩ ∧ ∃ (proof : List UInt64) (committee : CommitteeOutput P),
      S proof committeeProgramVk committee.publicBytes = true ∧
      committee.accumulatorCommitment = w.accumulatorCommitment ∧
      committee.committeeRoot = committeeRoot) ∨
    ∃ (proof : List UInt64) (before : JustificationOutput P),
      S proof w.justificationProgramVk before.publicBytes = true ∧
      before.programVk = w.justificationProgramVk ∧
      before.accumulatorCommitment = w.accumulatorCommitment ∧
      before.committeeRoot = committeeRoot ∧
      before.link = w.link ∧
      previous = ⟨before.attestingBalance, before.slotsMask⟩ := by
  cases hprevious : w.previous with
  | none =>
      simp only [justificationCommittee, inheritJustification, hprevious,
        Guest.pure_eq_ok] at hcommittee h
      obtain ⟨committee, hproof, hacc, hroot, -⟩ := committeeLink_eq_ok hcommittee
      exact .inl ⟨h.symm, _, committee, hproof, hacc, hroot⟩
  | some before =>
      simp only [justificationCommittee, inheritJustification, hprevious, Guest.bind_eq_ok,
        Guest.assert_eq_ok, Guest.pure_eq_ok, exists_const] at hcommittee h
      obtain ⟨hchild, hvk, hacc, hte, htr, hse, hsr, rfl⟩ := h
      refine .inr ⟨_, before, verifyChild_eq_true hchild, hvk, hacc, hcommittee, ?_, rfl⟩
      rw [JustificationOutput.link, hse, hsr, hte, htr, JustificationWitness.link]

/-- What a justification is worth: whatever contents its commitment stands for, it
counted over one committee tree of those contents, everything it counts is settled,
and the flag compares with the total they are committed with. -/
def JustificationOutput.Settled (M : KeyModel P) (d : ℕ) (out : JustificationOutput P) : Prop :=
  ∀ (t : Contents P) (total : UInt64) (K : Keyring M d t),
    out.accumulatorCommitment = P.commitment (t.accRoot d) total →
      (∃ committees, Committee.root committees = .ok out.committeeRoot ∧
        ∃ B : Buckets M d t committees,
          Zkasper.Settled K B out.link out.attestingBalance out.slotsMask) ∧
      (out.justified = true → IsSupermajority out.attestingBalance total)

/-- **One fold**: what it extends is settled, so what it publishes is. -/
theorem verifyJustification_settled (hP : CollisionFree P)
    (hS : S.Sound d slotsPerEpoch streamVk) {w : JustificationWitness P}
    {out : JustificationOutput P} (h : verifyJustification S w = .ok out)
    (hbefore : ∀ before : JustificationOutput P, (∃ proof, S proof out.programVk before.publicBytes =
      true) → before.programVk = out.programVk → before.Settled M d) : out.Settled M d := by
  intro t total K hacc
  simp only [verifyJustification, Guest.bind_eq_ok, Guest.assert_eq_ok, Guest.pure_eq_ok,
    exists_const] at h
  obtain ⟨-, -, hcommitment, committeeRoot, hcommittee, previous, hinherit, running, hloop, rfl⟩ :=
    h
  have hacc : w.accumulatorCommitment = P.commitment (t.accRoot d) total := hacc
  obtain ⟨-, htotal⟩ := hP.commitment (hcommitment.trans hacc)
  refine ⟨?_, fun hflag => ?_⟩
  · suffices hprevious : ∃ committees, Committee.root committees = .ok committeeRoot ∧
        ∃ B : Buckets M d t committees,
          Zkasper.Settled K B w.link previous.attestingBalance previous.slotsMask by
      obtain ⟨committees, hroot, B, hstart⟩ := hprevious
      refine ⟨committees, hroot, B, ?_⟩
      apply Guest.foldlM_invariant (fun _ running =>
        Zkasper.Settled K B w.link running.attestingBalance running.slotsMask) _ _ _ _ hstart hloop
      intro entry _ running running' hrunning hstep
      obtain ⟨slotOut, ⟨proof, hproof⟩, hslotAcc, rfl, hlink, hmask, rfl⟩ :=
        absorbSlotProof_eq_ok hstep
      have hslot := (hS _ _ _ hproof).slot_settled (K := K) (B := B) hP
        (hslotAcc.trans hacc) hroot
      rw [hlink] at hslot
      exact hrunning.join hslot hmask
    rcases inheritJustification_eq_ok hcommittee hinherit with
      ⟨rfl, proof, committee, hproof, hcommitteeAcc, rfl⟩ |
        ⟨proof, before, hproof, hvk, hbeforeAcc, hroot, hlink, rfl⟩
    · -- The epoch opens here: nothing is counted yet, over the tree of its committee proof.
      obtain ⟨committees, hroot, ⟨B⟩⟩ :=
        committee_buckets (M := M) hP hS hproof (hcommitteeAcc.trans hacc)
      exact ⟨committees, hroot, B, .zero⟩
    · obtain ⟨⟨committees, hbeforeRoot, B, hsettled⟩, -⟩ :=
        hbefore before ⟨proof, hproof⟩ hvk t total K (hbeforeAcc.trans hacc)
      rw [hlink] at hsettled
      exact ⟨committees, hroot ▸ hbeforeRoot, B, hsettled⟩
  · have hsuper := of_decide_eq_true hflag
    rwa [htotal] at hsuper

/-- **The chain of folds**, by induction on the tree of runs: every justification of
a chain pinned to the justification guest is settled. -/
theorem Accepted.justification_settled (hP : CollisionFree P) (M : KeyModel P) {vk : ProgramVk}
    {publics : PublicBytes P} (h : Accepted d slotsPerEpoch streamVk vk publics) :
    ∀ out : JustificationOutput P, vk = justificationProgramVk → publics = out.publicBytes →
      out.programVk = justificationProgramVk → out.Settled M d := by
  induction h with
  | @justification S w published children run ih =>
      intro out _ hpublics hprogram
      obtain rfl := JustificationOutput.publicBytes_injective hpublics
      apply verifyJustification_settled hP children run
      rintro before ⟨proof, hproof⟩ hvk
      exact ih proof _ _ hproof before hprogram rfl (hvk.trans hprogram)
  | streamFinal =>
      intro out _ hpublics
      simp [JustificationOutput.publicBytes, StreamFinalOutput.publicBytes] at hpublics
  | other foreign =>
      rintro out rfl
      exact absurd (by simp [guestKeys]) foreign
  | _ =>
      intro out hvk
      cases hvk

/-- Two thirds of whatever the commitment stands for signed for the link. -/
def TwoThirds (M : KeyModel P) (d : ℕ) (commitment : P.Digest) (link : Link P) : Prop :=
  ∀ (t : Contents P) (total : UInt64) (K : Keyring M d t),
    commitment = P.commitment (t.accRoot d) total →
      2 * total.toNat ≤ 3 * ∑ i ∈ attesters K link, (t.balance i).toNat

/-- The links that are proven justified: a proof of the justification guest, of a
chain pinned to it, that says so. -/
def ProvenJustification (d : ℕ) (slotsPerEpoch : UInt64) (streamVk : ProgramVk)
    (out : JustificationOutput P) : Prop :=
  Accepted d slotsPerEpoch streamVk justificationProgramVk out.publicBytes ∧
    out.programVk = justificationProgramVk ∧ out.justified = true

/-- **A justification is a quorum.** -/
theorem ProvenJustification.twoThirds (hP : CollisionFree P) (M : KeyModel P)
    {out : JustificationOutput P} (h : ProvenJustification d slotsPerEpoch streamVk out) :
    TwoThirds M d out.accumulatorCommitment out.link := by
  intro t total K hacc
  obtain ⟨haccepted, hvk, hjustified⟩ := h
  obtain ⟨⟨committees, -, B, hsettled⟩, hflag⟩ :=
    haccepted.justification_settled hP M out rfl rfl hvk t total K hacc
  have hsuper := hflag hjustified
  have hle := hsettled.le_attesters
  unfold IsSupermajority at hsuper
  omega

end Settled

/-! ## What a finalization is worth -/

section Sound

variable {M : KeyModel P} {d : ℕ} {streamVk : ProgramVk} {w : FinalizationWitness P}
  {out : FinalizationOutput P}

/-- A finalization by two links, one into the checkpoint and one on from it. -/
structure Finalized (M : KeyModel P) (d : ℕ) (slotsPerEpoch : UInt64) (out : FinalizationOutput P)
    (into onward : Link P) : Prop where
  target : into.targetEpoch = out.finalizedEpoch ∧ into.targetRoot = out.finalizedRoot
  source : onward.sourceEpoch = out.finalizedEpoch ∧ onward.sourceRoot = out.finalizedRoot
  next : onward.targetEpoch = out.finalizedEpoch + 1
  /-- Each was justified by two thirds of the accumulator it was counted against. -/
  quorums : TwoThirds M d out.accumulatorCommitment into ∧
    TwoThirds M d out.nextAccumulatorCommitment onward
  /-- The two accumulators are the ends of one registry transition. -/
  diff : ∃ diff : EpochDiffOutput P, EpochDiffAccepted d diff ∧
    diff.prevAccumulatorCommitment = out.accumulatorCommitment ∧
    diff.accumulatorCommitment = out.nextAccumulatorCommitment ∧
    diff.epoch1 = out.finalizedEpoch ∧ diff.epoch2 = onward.targetEpoch ∧
    diff.stateRoot1 = out.finalizedStateRoot
  /-- The block that the second link voted for records the boundary. -/
  boundary : ∃ header : BlockHeaderFields P, blockHeaderRoot P header = onward.targetRoot ∧
    RecordsSlot header.slot (out.finalizedEpoch * slotsPerEpoch) ∧
    History blockRootsField (out.finalizedEpoch * slotsPerEpoch) out.finalizedRoot
      header.stateRoot ∧
    History stateRootsField (out.finalizedEpoch * slotsPerEpoch) out.finalizedStateRoot
      header.stateRoot

/-- What an accepted proof of a supermajority stands for. -/
theorem ProvenBy.provenJustification (hS : S.Sound d slotsPerEpoch streamVk) {proof : List UInt64}
    {justification : JustificationOutput P} (h : ProvenBy S (proof, justification))
    (hjustified : justification.justified = true) :
    ProvenJustification d slotsPerEpoch streamVk justification :=
  ⟨hS _ _ _ h.1.2, h.2, hjustified⟩

/-- **A finalization of two proofs is two quorums**, over accumulators that one
proven registry transition links, and of the chain that records its boundary. -/
theorem verifyFinalization_sound (hP : CollisionFree P) (hS : S.Sound d slotsPerEpoch streamVk)
    (hproofs : 2 ≤ w.justificationProofs.length)
    (h : verifyFinalizationWithSlots S w slotsPerEpoch = .ok out) :
    ∃ into onward, Finalized M d slotsPerEpoch out into onward := by
  obtain ⟨justE, justE1, hfinal, rfl⟩ := verifyFinalizationWithSlots_eq_ok.mp h
  obtain ⟨⟨proof, hproof⟩, proof', hproof'⟩ := hfinal.both hproofs
  have hinto := hproof.provenJustification hS hfinal.justified.1
  have honward := hproof'.provenJustification hS hfinal.justified.2
  refine ⟨justE.link, justE1.link, ?_⟩
  exact {
    target := ⟨rfl, rfl⟩
    source := hfinal.source
    next := hfinal.consecutive
    quorums := ⟨hinto.twoThirds hP M, honward.twoThirds hP M⟩
    diff := ⟨w.epochDiffOutput, (hS _ _ _ hfinal.diff.2).epochDiff_inv, hfinal.accumulators.1,
      hfinal.accumulators.2, hfinal.epochs.1, hfinal.epochs.2, rfl⟩
    boundary := openBoundary_eq_ok hfinal.boundary }

end Sound

/-! ### Epochs 1 and 2 of the free instance

Validator 0 alone has justified the first block, and it justifies the second from
it. -/

namespace Formal

/-- A slot proof of an epoch over the first registry, which counts slot 0 of it. -/
def nextSlot : SlotProofWitness (formal twoKeys) where
  accumulatorCommitment := commitmentAt 0
  committeeRoot := committeeRootAt 0
  sourceEpoch := 1
  sourceRoot := genesisRoot
  targetEpoch := 2
  targetRoot := nextRoot
  signingDomain := blank
  accRoot := accRootAt 0
  totalActiveBalance := totalAt 0
  slots := [wholeSlot 0 64 ⟨1, genesisRoot, 2, nextRoot⟩]
  accMultiProof := []
  committeeMultiProof := slotZeroProof

def nextSlotOut : SlotProofOutput (formal twoKeys) :=
  ⟨commitmentAt 0, committeeRootAt 0, 1, genesisRoot, 2, nextRoot, 32, 1⟩

def nextJustification : JustificationWitness (formal twoKeys) where
  accumulatorCommitment := commitmentAt 0
  sourceEpoch := 1
  sourceRoot := genesisRoot
  targetEpoch := 2
  targetRoot := nextRoot
  totalActiveBalance := totalAt 0
  accRoot := accRootAt 0
  justificationProgramVk := justificationProgramVk
  committee := some (committeeOutAt 0 2)
  committeeProof := [1]
  previous := none
  previousProof := []
  slotProofOutputs := [nextSlotOut]
  slotProofs := [[1]]

def nextJustificationOut : JustificationOutput (formal twoKeys) :=
  ⟨commitmentAt 0, committeeRootAt 0, 1, genesisRoot, 2, nextRoot, 32, 1, true,
    justificationProgramVk⟩

theorem accepted_nextJustification :
    Accepted 1 slotsPerEpoch finalVk justificationProgramVk nextJustificationOut.publicBytes := by
  have hslot : Accepted 1 slotsPerEpoch finalVk slotProgramVk nextSlotOut.publicBytes := by
    obtain ⟨out, run, hpublics⟩ : ∃ out, verifySlotProofWithDepth nextSlot 1 = .ok out ∧
        out.publicBytes = nextSlotOut.publicBytes := by decide +kernel
    exact hpublics ▸ .slot run
  have hcommittee : Accepted 1 slotsPerEpoch finalVk committeeProgramVk
      (committeeOutAt 0 2).publicBytes := accepted_committeeOutAt 0 6 (by decide +kernel)
  obtain ⟨out, run, hpublics⟩ : ∃ out, verifyJustification
      (ofTable [(slotProgramVk, nextSlotOut.publicBytes),
        (committeeProgramVk, (committeeOutAt 0 2).publicBytes)]) nextJustification = .ok out ∧
      out.publicBytes = nextJustificationOut.publicBytes := by decide +kernel
  rw [← hpublics]
  exact .justification (sound_ofTable (by simp [hslot, hcommittee])) run

/-- The two justifications, and the diff between them. -/
def batchTable : List (ProgramVk × PublicBytes (formal twoKeys)) :=
  [(justificationProgramVk, genesisJustificationOut.publicBytes),
    (justificationProgramVk, nextJustificationOut.publicBytes),
    (epochDiffProgramVk, (diffOut 0 0 1).publicBytes)]

theorem sound_batchTable : (ofTable batchTable).Sound 1 32 finalVk := by
  have hdiff : Accepted 1 32 finalVk epochDiffProgramVk (diffOut 0 0 1).publicBytes :=
    .epochDiff accepted_idleDiff
  apply sound_ofTable
  simp [batchTable, accepted_genesisJustification, accepted_nextJustification, hdiff]

/-- The pair, at the boundary of epoch 1. -/
def batchFinalization : FinalizationWitness (formal twoKeys) where
  boundary := nextBlock twoKeys
  justificationOutputs := [genesisJustificationOut, nextJustificationOut]
  justificationProofs := [[1], [1]]
  epochDiffOutput := diffOut 0 0 1
  epochDiffProof := [1]

def batchFinalizationOut : FinalizationOutput (formal twoKeys) :=
  ⟨commitmentAt 0, commitmentAt 0, 1, genesisRoot, stateRootAt 0⟩

theorem batchFinalization_accepted :
    verifyFinalizationWithSlots (ofTable batchTable) batchFinalization 32 =
      .ok batchFinalizationOut := by
  obtain ⟨out, run, hpublics⟩ : ∃ out,
      verifyFinalizationWithSlots (ofTable batchTable) batchFinalization 32 = .ok out ∧
        out.publicBytes = batchFinalizationOut.publicBytes := by decide +kernel
  rwa [FinalizationOutput.publicBytes_injective hpublics] at run

/-- The first block is finalized by two quorums. -/
theorem verifyFinalization_sound_next : ∃ into onward,
    Finalized (keyModel twoKeys) 1 32 batchFinalizationOut into onward :=
  verifyFinalization_sound (formal_collisionFree _) sound_batchTable (by decide)
    batchFinalization_accepted

end Formal

/-! ## What nobody has to prove -/

/-- Any two entries of a slot open out of one state root. -/
theorem exists_histories (P : Primitives) (slot : UInt64) (blockRoot stateRoot : P.Bytes32) :
    ∃ root, History blockRootsField slot blockRoot root ∧
      History stateRootsField slot stateRoot root := by
  let zeros (n : ℕ) : List P.Bytes32 := List.replicate n P.zeroChunk
  have hlow : (slot % slotsPerHistoricalRoot).toNat < 2 ^ 13 := by
    rw [UInt64.toNat_mod]
    exact Nat.mod_lt _ (by decide)
  have hindex : historyIndex blockRootsField slot / 2 ^ 13 = 5 ∧
      historyIndex stateRootsField slot / 2 ^ 13 = 6 := by
    unfold historyIndex
    rw [UInt64.toNat_add, UInt64.toNat_add]
    show (40960 + (slot % slotsPerHistoricalRoot).toNat) % 2 ^ 64 / 2 ^ 13 = 5 ∧
      (49152 + (slot % slotsPerHistoricalRoot).toNat) % 2 ^ 64 / 2 ^ 13 = 6
    omega
  -- each buffer over zeros, and each beside the other where their branches meet
  let block := computeRoot P.sha256Pair blockRoot (historyIndex blockRootsField slot) (zeros 13)
  let state := computeRoot P.sha256Pair stateRoot (historyIndex stateRootsField slot) (zeros 13)
  have hzeros : (zeros 13).length = 13 := List.length_replicate
  refine ⟨_, ⟨zeros 13 ++ ([P.zeroChunk, P.sha256Pair state P.zeroChunk] ++ zeros 4), rfl⟩,
    zeros 13 ++ ([P.zeroChunk, P.sha256Pair P.zeroChunk block] ++ zeros 4), ?_⟩
  have hblock (above : List P.Bytes32) : computeRoot P.sha256Pair blockRoot
      (historyIndex blockRootsField slot) (zeros 13 ++ above) =
        computeRoot P.sha256Pair block 5 above := by
    rw [computeRoot_append, hzeros, hindex.1]
  have hstate (above : List P.Bytes32) : computeRoot P.sha256Pair stateRoot
      (historyIndex stateRootsField slot) (zeros 13 ++ above) =
        computeRoot P.sha256Pair state 6 above := by
    rw [computeRoot_append, hzeros, hindex.2]
  show Except.ok (computeRoot P.sha256Pair _ _ _) = Except.ok (computeRoot P.sha256Pair _ _ _)
  rw [hblock, hstate]
  rfl

/-- **A finalization nobody voted for.** A witness without justification proofs is
accepted: for every epoch diff between consecutive epochs there is one that
finalizes, at the first of them, whatever root is asked for. -/
theorem verifyFinalization_unproven {diff : EpochDiffOutput P} {proof : List UInt64}
    (hproof : proof ≠ []) (hdiff : S proof epochDiffProgramVk diff.publicBytes = true)
    (hepochs : diff.epoch2 = diff.epoch1 + 1)
    (hslot : diff.epoch1 * slotsPerEpoch ≠ 18446744073709551615) (root : P.Bytes32) :
    ∃ w : FinalizationWitness P, w.justificationProofs = [] ∧
      verifyFinalizationWithSlots S w slotsPerEpoch =
        .ok ⟨diff.prevAccumulatorCommitment, diff.accumulatorCommitment, diff.epoch1, root,
          diff.stateRoot1⟩ := by
  obtain ⟨stateRoot, ⟨blockSiblings, hblock⟩, stateSiblings, hstate⟩ :=
    exists_histories P (diff.epoch1 * slotsPerEpoch) root diff.stateRoot1
  let header : BlockHeaderFields P :=
    ⟨diff.epoch1 * slotsPerEpoch + 1, 0, P.zeroChunk, stateRoot, P.zeroChunk⟩
  let just (source target : UInt64) (sourceRoot targetRoot : P.Bytes32)
      (commitment : P.Digest) : JustificationOutput P :=
    ⟨commitment, commitment, source, sourceRoot, target, targetRoot, 0, 0, true, unsetVk⟩
  let justE := just 0 diff.epoch1 root root diff.prevAccumulatorCommitment
  let justE1 := just diff.epoch1 diff.epoch2 root (blockHeaderRoot P header)
    diff.accumulatorCommitment
  refine ⟨⟨⟨header, blockSiblings, stateSiblings⟩, [justE, justE1], [], diff, proof⟩, rfl, ?_⟩
  apply verifyFinalizationWithSlots_eq_ok.mpr
  refine ⟨justE, justE1, ?_, rfl⟩
  have hrecords : RecordsSlot header.slot (diff.epoch1 * slotsPerEpoch) := by
    have hnext := (toNat_next_epoch (diff.epoch1 * slotsPerEpoch)).mpr hslot
    constructor
    · apply UInt64.lt_iff_toNat_lt.mpr
      rw [hnext]
      exact Nat.lt_succ_self _
    · rw [add_sub_cancel_left]
      decide
  exact {
    outputs := rfl
    proven := by simp
    justified := ⟨rfl, rfl⟩
    consecutive := hepochs
    source := ⟨rfl, rfl⟩
    diff := ⟨hproof, hdiff⟩
    accumulators := ⟨rfl, rfl⟩
    epochs := ⟨rfl, rfl⟩
    boundary := by
      simp only [openBoundary, Guest.bind_eq_ok, Guest.assert_eq_ok, exists_const]
      exact ⟨rfl, hrecords, _, hblock, rfl, _, hstate, rfl⟩ }

/-- Over the diff of the free instance a block is finalized that nobody has seen. -/
theorem verifyFinalization_unproven_blank :
    ∃ w : FinalizationWitness (Formal.formal Formal.twoKeys), w.justificationProofs = [] ∧
      verifyFinalizationWithSlots (Formal.ofTable Formal.batchTable) w 32 =
        .ok ⟨Formal.commitmentAt 0, Formal.commitmentAt 0, 1, Formal.blank,
          Formal.stateRootAt 0⟩ :=
  @verifyFinalization_unproven (Formal.formal Formal.twoKeys) (Formal.ofTable Formal.batchTable) 32
    (Formal.diffOut 0 0 1) [1] (by decide) (by decide +kernel) (by decide) (by decide) Formal.blank

end Zkasper
