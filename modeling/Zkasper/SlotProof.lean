import Zkasper.Backing
import Zkasper.Recursion

/-! # Slot and group proofs

The circuit that counts attestation slots by complement, in its two forms: a slot
proof finishes the pairing itself, a group proof publishes a commitment to its
Miller-loop accumulator and leaves the final exponentiation to whoever closes the
epoch. The final proof of an epoch runs the same `verify_attestations` on its
marginal slots.

Every message is pinned to one FFG link, and a secondary signer keeps its balance:
it attested the target all the same. `verifyAttestations_backed` is what a run is
worth. -/

namespace Zkasper

open Bls Ssz Merkle Slot

variable {P : Primitives}

/-! ## Records -/

/-- Witness for a slot proof: the complement of one or more attestation slots. -/
structure SlotProofWitness (P : Primitives) where
  accumulatorCommitment : P.Digest
  committeeRoot : P.Digest
  sourceEpoch : UInt64
  sourceRoot : P.Bytes32
  targetEpoch : UInt64
  targetRoot : P.Bytes32
  signingDomain : P.Bytes32
  accRoot : P.Digest
  totalActiveBalance : UInt64
  slots : List (SlotComplementWitness P)
  accMultiProof : List P.Digest
  committeeMultiProof : List P.Digest

/-- Public outputs of a slot proof. -/
structure SlotProofOutput (P : Primitives) where
  accumulatorCommitment : P.Digest
  committeeRoot : P.Digest
  sourceEpoch : UInt64
  sourceRoot : P.Bytes32
  targetEpoch : UInt64
  targetRoot : P.Bytes32
  attestingBalance : UInt64
  slotsMask : UInt64

/-- Public outputs of a group proof: a slot proof's, and the commitment to its
Miller-loop accumulator. -/
structure GroupProofOutput (P : Primitives) where
  accumulatorCommitment : P.Digest
  committeeRoot : P.Digest
  sourceEpoch : UInt64
  sourceRoot : P.Bytes32
  targetEpoch : UInt64
  targetRoot : P.Bytes32
  attestingBalance : UInt64
  slotsMask : UInt64
  millerCommitment : P.Digest

def SlotProofOutput.publicBytes (o : SlotProofOutput P) : PublicBytes P :=
  [.digest o.accumulatorCommitment, .digest o.committeeRoot, .u64 o.sourceEpoch,
    .bytes32 o.sourceRoot, .u64 o.targetEpoch, .bytes32 o.targetRoot, .u64 o.attestingBalance,
    .u64 o.slotsMask]

def GroupProofOutput.publicBytes (o : GroupProofOutput P) : PublicBytes P :=
  [.digest o.accumulatorCommitment, .digest o.committeeRoot, .u64 o.sourceEpoch,
    .bytes32 o.sourceRoot, .u64 o.targetEpoch, .bytes32 o.targetRoot, .u64 o.attestingBalance,
    .u64 o.slotsMask, .digest o.millerCommitment]

theorem GroupProofOutput.publicBytes_injective :
    Function.Injective (GroupProofOutput.publicBytes (P := P)) := by
  rintro ⟨⟩ ⟨⟩ h
  simpa [publicBytes] using h

/-! ## The circuit -/

/-- What verifying a set of attestation slots establishes. -/
structure Attested (P : Primitives) where
  attestingBalance : UInt64
  slotsMask : UInt64
  miller : P.Fp12

/-- A message must name the FFG link; a secondary signer keeps its balance. -/
def attestationRules (link : Link P) : Rules P where
  checkMessage attestation := do
    Guest.assert (attestation.dataSourceEpoch = link.sourceEpoch)
      "attestation source_epoch mismatch"
    Guest.assert (attestation.dataSourceRoot = link.sourceRoot) "attestation source_root mismatch"
    Guest.assert (attestation.dataTargetEpoch = link.targetEpoch)
      "attestation target_epoch mismatch"
    Guest.assert (attestation.dataTargetRoot = link.targetRoot) "attestation target_root mismatch"
  dropsSecondary := false

/-- What the loop over the slots carries. -/
structure AttestState (P : Primitives) where
  attestingBalance : UInt64
  slotsMask : UInt64
  tally : Tally P
  committeeLeaves : List (P.Digest × ℕ)
  previousSlot : Option UInt64

/-- Attestation slots come strictly increasing. -/
def checkIncreasing (previousSlot : Option UInt64) (slotInEpoch : UInt64) : Guest Unit :=
  match previousSlot with
  | none => return ()
  | some previous =>
      Guest.assert (slotInEpoch > previous)
        s!"attestation slots must be strictly increasing: {slotInEpoch} followed {previous}"

/-- One slot of the loop. -/
def attestSlot (link : Link P) (signingDomain : P.Bytes32) (s : AttestState P)
    (slot : SlotComplementWitness P) : Guest (AttestState P) := do
  checkIncreasing s.previousSlot slot.slotInEpoch
  Guest.assert (slot.slotInEpoch.toNat < Committee.maxSlots)
    s!"slot {slot.slotInEpoch} is past the {Committee.maxSlots} a committee tree holds"
  let _ ← checkPrimary slot
  let (support, tally) ← countComplement (attestationRules link) signingDomain slot s.tally
  return {
    attestingBalance := s.attestingBalance + support
    slotsMask := s.slotsMask ||| (1 <<< slot.slotInEpoch)
    tally
    committeeLeaves :=
      s.committeeLeaves ++ [(Committee.leaf slot.committee, slot.slotInEpoch.toNat)]
    previousSlot := some slot.slotInEpoch }

/-- Verify attestation slots by complement and accumulate their pairings. -/
def verifyAttestations (slots : List (SlotComplementWitness P)) (accRoot : P.Digest)
    (accMultiProof : List P.Digest) (committeeRoot : P.Digest) (committeeMultiProof : List P.Digest)
    (link : Link P) (signingDomain : P.Bytes32) (accDepth : ℕ) : Guest (Attested P) := do
  let s ← slots.foldlM (attestSlot link signingDomain) ⟨0, 0, ⟨[], []⟩, [], none⟩
  openNamed s.tally.opened accRoot accMultiProof accDepth
  openCommittees s.committeeLeaves committeeRoot committeeMultiProof
  let miller ← Guest.expect (millerAccumulator s.tally.messages) "BLS pairing inputs rejected"
  return ⟨s.attestingBalance, s.slotsMask, miller⟩

/-- The FFG link of a witness. -/
def SlotProofWitness.link (w : SlotProofWitness P) : Link P :=
  ⟨w.sourceEpoch, w.sourceRoot, w.targetEpoch, w.targetRoot⟩

/-- Run a slot or group witness's checks, Miller accumulator included. -/
def attest (w : SlotProofWitness P) (accDepth : ℕ) : Guest (Attested P) := do
  Guest.assert (P.commitment w.accRoot w.totalActiveBalance = w.accumulatorCommitment)
    "accumulator commitment mismatch"
  verifyAttestations w.slots w.accRoot w.accMultiProof w.committeeRoot w.committeeMultiProof w.link
    w.signingDomain accDepth

/-- Slot-proof verification: the whole-slot form, which finishes the pairing itself. -/
def verifySlotProofWithDepth (w : SlotProofWitness P) (accDepth : ℕ) :
    Guest (SlotProofOutput P) := do
  let attested ← attest w accDepth
  Guest.assert (P.finalExpIsOne attested.miller = true)
    "BLS aggregate signature verification failed"
  return ⟨w.accumulatorCommitment, w.committeeRoot, w.sourceEpoch, w.sourceRoot, w.targetEpoch,
    w.targetRoot, attested.attestingBalance, attested.slotsMask⟩

/-- Group-proof verification: the streaming form, which stops before the final exponentiation. -/
def verifyGroupProofWithDepth (w : SlotProofWitness P) (accDepth : ℕ) :
    Guest (GroupProofOutput P) := do
  let attested ← attest w accDepth
  return ⟨w.accumulatorCommitment, w.committeeRoot, w.sourceEpoch, w.sourceRoot, w.targetEpoch,
    w.targetRoot, attested.attestingBalance, attested.slotsMask, P.commitFp12 attested.miller⟩

/-! ## What the slots claim -/

section Claims

variable {M : KeyModel P} {d : ℕ} {t : Contents P}
  {committees : List (Option (CommitteeAggregate P))} {link : Link P} {signingDomain : P.Bytes32}

theorem checkMessage_eq_ok {a : AttestationWitness P} {u : Unit}
    (h : (attestationRules link).checkMessage a = .ok u) : a.data.VotesFor link := by
  simp only [attestationRules, Guest.bind_eq_ok, Guest.assert_eq_ok, exists_const] at h
  exact h

/-- All over, the secondary messages of a slot claim the keys they name. -/
theorem total_secondaryClaims : ∀ (secondary : List (AttestationWitness P)),
    M.total (secondaryClaims M signingDomain secondary) =
      keySum M (secondary.flatMap (·.attestingValidators))
  | [] => M.total_zero
  | a :: secondary => by
      have ih := total_secondaryClaims secondary
      rw [show secondaryClaims M signingDomain (a :: secondary) = _ + _ from List.sum_cons,
        KeyModel.total_add, KeyModel.total_single, List.flatMap_cons, keySum_append, ← ih]
      rfl

/-- **What a slot claims of one validator over all messages is its share**: a
secondary signer moves between messages and is claimed all the same. -/
theorem total_slotClaims (K : Keyring M d t) (B : Buckets M d t committees)
    {slot : SlotComplementWitness P} {first : AttestationWitness P}
    (h : Checked d t committees (attestationRules link) slot) {i : ℕ} (hi : i < 2 ^ d)
    (hocc : (t i).isSome) :
    M.total (slotClaims M signingDomain first slot) (K.owner i) =
      B.share (attestationRules link) slot i := by
  have hsecondary : Opened d t (slot.secondary.flatMap (·.attestingValidators)) :=
    fun v hv => h.opened v (List.mem_append_left _ hv)
  -- the named signers cancel, and what is left are the absentees
  rw [slotClaims, KeyModel.total_add, KeyModel.total_single, Pi.add_apply,
    B.primary_coeff K h hi hocc, total_secondaryClaims, K.keySum_owner hsecondary hi hocc,
    SlotComplementWitness.named, timesNamed_append]
  show _ = B.member slot.slotInEpoch.toNat i - (timesNamed d slot.absentees i : ℤ)
  omega

theorem total_slotsClaims (K : Keyring M d t) (B : Buckets M d t committees) {i : ℕ}
    (hi : i < 2 ^ d) (hocc : (t i).isSome) : ∀ {slots : List (SlotComplementWitness P)},
      (∀ slot ∈ slots, Checked d t committees (attestationRules link) slot ∧
        slot.primary.head?.isSome) →
        M.total (slotsClaims M signingDomain slots) (K.owner i) =
          (slots.map fun slot => B.share (attestationRules link) slot i).sum
  | [], _ => congrFun M.total_zero _
  | slot :: slots, h => by
      obtain ⟨⟨hslot, hsome⟩, hslots⟩ := List.forall_mem_cons.mp h
      obtain ⟨first, hfirst⟩ := Option.isSome_iff_exists.mp hsome
      have ih := total_slotsClaims K B hi hocc hslots
      rw [slotsClaims_cons, hfirst, Option.elim_some, KeyModel.total_add, Pi.add_apply,
        total_slotClaims K B hslot hi hocc, ih, List.map_cons, List.sum_cons]

/-- Messages for the link claim nothing else. -/
theorem covers_secondaryClaims : ∀ {secondary : List (AttestationWitness P)},
    (∀ a ∈ secondary, a.data.VotesFor link) →
      link.Covers (secondaryClaims M signingDomain secondary)
  | [], _ => .zero
  | a :: secondary, h => by
      obtain ⟨ha, hrest⟩ := List.forall_mem_cons.mp h
      rw [show secondaryClaims M signingDomain (a :: secondary) = _ + _ from List.sum_cons]
      exact (Link.Covers.single ⟨a.data, ha, signingDomain, rfl⟩ _).add
        (covers_secondaryClaims hrest)

theorem covers_slotsClaims : ∀ {slots : List (SlotComplementWitness P)},
    (∀ slot ∈ slots, (∀ first, slot.primary.head? = some first → first.data.VotesFor link) ∧
      ∀ a ∈ slot.secondary, a.data.VotesFor link) →
      link.Covers (slotsClaims M signingDomain slots)
  | [], _ => .zero
  | slot :: slots, h => by
      obtain ⟨⟨hprimary, hsecondary⟩, hslots⟩ := List.forall_mem_cons.mp h
      rw [slotsClaims_cons]
      refine Link.Covers.add ?_ (covers_slotsClaims hslots)
      cases hfirst : slot.primary.head? with
      | none => exact .zero
      | some first =>
          exact (Link.Covers.single ⟨first.data, hprimary first hfirst, signingDomain, rfl⟩ _).add
            (covers_secondaryClaims hsecondary)

/-! ## What an accepted run collected -/

theorem attestSlot_eq_ok {s s' : AttestState P} {slot : SlotComplementWitness P}
    (h : attestSlot link signingDomain s slot = .ok s') :
    ∃ support,
      countComplement (attestationRules link) signingDomain slot s.tally =
        .ok (support, s'.tally) ∧
      (∀ previous, s.previousSlot = some previous →
        previous.toNat < slot.slotInEpoch.toNat) ∧
      slot.slotInEpoch.toNat < Committee.maxSlots ∧
      s'.attestingBalance = s.attestingBalance + support ∧
      s'.slotsMask = s.slotsMask ||| (1 <<< slot.slotInEpoch) ∧
      s'.committeeLeaves = s.committeeLeaves ++
        [(Committee.leaf slot.committee, slot.slotInEpoch.toNat)] ∧
      s'.previousSlot = some slot.slotInEpoch := by
  simp only [attestSlot, Guest.bind_eq_ok, Guest.assert_eq_ok, Guest.pure_eq_ok, exists_const] at h
  obtain ⟨_, hincreasing, hlt, first, -, ⟨support, tally⟩, hcount, rfl⟩ := h
  refine ⟨support, hcount, fun previous hprevious => ?_, hlt, rfl, rfl, rfl, rfl⟩
  rw [hprevious] at hincreasing
  exact UInt64.lt_iff_toNat_lt.mp (Guest.assert_eq_ok.mp hincreasing)

/-- Everything a slot counts votes for the link. -/
theorem attestSlot_votes {s s' : AttestState P} {slot : SlotComplementWitness P}
    (h : attestSlot link signingDomain s slot = .ok s') :
    ∀ a ∈ slot.attestations, a.data.VotesFor link := by
  simp only [attestSlot, Guest.bind_eq_ok, Guest.assert_eq_ok, Guest.pure_eq_ok, exists_const] at h
  obtain ⟨_, -, -, first, hprimary, _, hcount, -⟩ := h
  obtain ⟨hfirst, hsecondary⟩ := countComplement_checked hcount
  intro a ha
  rcases List.mem_append.mp ha with ha | ha
  · rw [checkPrimary_data hprimary a ha]
    exact checkMessage_eq_ok (hfirst first (checkPrimary_eq_ok hprimary))
  · exact checkMessage_eq_ok (hsecondary a ha)

/-- The committee leaves a run collects, every one of a slot the tree has. -/
theorem attestSlots_leaves :
    ∀ {slots : List (SlotComplementWitness P)} {s s' : AttestState P},
      slots.foldlM (attestSlot link signingDomain) s = .ok s' →
        s'.committeeLeaves = s.committeeLeaves ++ slots.map (fun slot =>
            (Committee.leaf slot.committee, slot.slotInEpoch.toNat)) ∧
          ∀ slot ∈ slots, slot.slotInEpoch.toNat < Committee.maxSlots := by
  intro slots
  induction slots with
  | nil =>
      intro s s' h
      obtain rfl := Guest.foldlM_nil.mp h
      simp
  | cons slot slots ih =>
      intro s s' h
      obtain ⟨mid, hstep, hrest⟩ := Guest.foldlM_cons.mp h
      obtain ⟨-, -, -, hlt, -, -, hleaves, -⟩ := attestSlot_eq_ok hstep
      obtain ⟨ihleaves, ihlt⟩ := ih hrest
      refine ⟨?_, List.forall_mem_cons.mpr ⟨hlt, ihlt⟩⟩
      rw [ihleaves, hleaves, List.map_cons, List.append_assoc, List.singleton_append]

/-- **The run of the loop.** -/
theorem attestSlots_spec (M : KeyModel P) :
    ∀ {slots : List (SlotComplementWitness P)} {s s' : AttestState P},
      slots.foldlM (attestSlot link signingDomain) s = .ok s' →
        s'.tally.opened = s.tally.opened ++ (slots.flatMap (·.named)).map openedLeaf ∧
          s'.committeeLeaves = s.committeeLeaves ++ slots.map (fun slot =>
            (Committee.leaf slot.committee, slot.slotInEpoch.toNat)) ∧
          M.messageClaims s'.tally.messages =
            M.messageClaims s.tally.messages + slotsClaims M signingDomain slots ∧
          (∀ slot ∈ slots, slot.slotInEpoch.toNat < Committee.maxSlots ∧
            balanceSum (dropped (attestationRules link) slot) ≤ slot.committee.balance.toNat ∧
            ∃ first, slot.primary.head? = some first ∧ first.data.VotesFor link ∧
              ∀ a ∈ slot.secondary, a.data.VotesFor link) ∧
          s'.attestingBalance.toNat ≤ s.attestingBalance.toNat +
            (slots.map (counted (attestationRules link))).sum ∧
          slotsOf s'.slotsMask = slotsOf s.slotsMask ∪
            (slots.map (·.slotInEpoch.toNat)).toFinset ∧
          (∀ previous, s.previousSlot = some previous →
            ∀ slot ∈ slots, previous.toNat < slot.slotInEpoch.toNat) ∧
          (slots.map (·.slotInEpoch.toNat)).Pairwise (· < ·) := by
  intro slots
  induction slots with
  | nil =>
      intro s s' h
      obtain rfl := Guest.foldlM_nil.mp h
      simp
  | cons slot slots ih =>
      intro s s' h
      obtain ⟨mid, hstep, hrest⟩ := Guest.foldlM_cons.mp h
      obtain ⟨support, hcount, hprevious, hlt, hbalance, hmask, hleaves, hlast⟩ :=
        attestSlot_eq_ok hstep
      obtain ⟨first, hfirst, hopened, hclaims, hsupport, hcheck, hsecondary⟩ :=
        countComplement_spec (M := M) hcount
      obtain ⟨ihopened, ihleaves, ihclaims, ihslots, ihbalance, ihmask, ihprevious, ihpairwise⟩ :=
        ih hrest
      have hafter := ihprevious _ hlast
      refine ⟨?_, ?_, ?_, ?_, ?_, ?_, ?_, ?_⟩
      · rw [ihopened, hopened, List.flatMap_cons, List.map_append, List.append_assoc]
      · rw [ihleaves, hleaves, List.map_cons, List.append_assoc, List.singleton_append]
      · rw [ihclaims, hclaims, slotsClaims_cons, hfirst, Option.elim_some, add_assoc]
      · exact List.forall_mem_cons.mpr ⟨⟨hlt, by omega, first, hfirst, checkMessage_eq_ok hcheck,
          fun a ha => checkMessage_eq_ok (hsecondary a ha)⟩, ihslots⟩
      · have hcounted : counted (attestationRules link) slot = support.toNat := by
          unfold counted
          omega
        -- the running balance is 64 bits: if it wraps, it only loses
        have hwrap : mid.attestingBalance.toNat ≤ s.attestingBalance.toNat + support.toNat := by
          rw [hbalance]
          exact toNat_add_le _ _
        rw [List.map_cons, List.sum_cons, hcounted]
        omega
      · have hbit : slotsOf (1 <<< slot.slotInEpoch) = {slot.slotInEpoch.toNat} :=
          slotsOf_bit (hlt.trans (by decide))
        rw [ihmask, hmask, slotsOf_or, hbit, List.map_cons, List.toFinset_cons, Finset.insert_eq,
          Finset.union_assoc]
      · intro previous hprev other hother
        rcases List.mem_cons.mp hother with rfl | hother
        · exact hprevious previous hprev
        · exact (hprevious previous hprev).trans (hafter other hother)
      · rw [List.map_cons, List.pairwise_cons]
        refine ⟨fun x hx => ?_, ihpairwise⟩
        obtain ⟨other, hother, rfl⟩ := List.mem_map.mp hx
        exact hafter other hother

theorem verifyAttestations_eq_ok {slots : List (SlotComplementWitness P)} {accRoot : P.Digest}
    {accMultiProof : List P.Digest} {committeeRoot : P.Digest} {committeeMultiProof : List P.Digest}
    {accDepth : ℕ} {a : Attested P}
    (h : verifyAttestations slots accRoot accMultiProof committeeRoot committeeMultiProof link
      signingDomain accDepth = .ok a) :
    ∃ s, slots.foldlM (attestSlot link signingDomain) ⟨0, 0, ⟨[], []⟩, [], none⟩ = .ok s ∧
      openNamed s.tally.opened accRoot accMultiProof accDepth = .ok () ∧
      openCommittees s.committeeLeaves committeeRoot committeeMultiProof = .ok () ∧
      millerAccumulator s.tally.messages = some a.miller ∧
      a.attestingBalance = s.attestingBalance ∧ a.slotsMask = s.slotsMask := by
  simp only [verifyAttestations, Guest.bind_eq_ok, Guest.expect_eq_ok, Guest.pure_eq_ok] at h
  obtain ⟨s, hloop, _, hopened, _, hcommittees, miller, hmiller, rfl⟩ := h
  exact ⟨s, hloop, hopened, hcommittees, hmiller, rfl, rfl⟩

/-- Everything a run counts votes for its link. -/
theorem verifyAttestations_votes {slots : List (SlotComplementWitness P)} {accRoot : P.Digest}
    {accMultiProof : List P.Digest} {committeeRoot : P.Digest} {committeeMultiProof : List P.Digest}
    {accDepth : ℕ} {attested : Attested P}
    (h : verifyAttestations slots accRoot accMultiProof committeeRoot committeeMultiProof link
      signingDomain accDepth = .ok attested) :
    ∀ slot ∈ slots, ∀ a ∈ slot.attestations, a.data.VotesFor link := by
  obtain ⟨s, hloop, -⟩ := verifyAttestations_eq_ok h
  exact Guest.foldlM_mem (fun _ _ _ hstep => attestSlot_votes hstep) hloop

/-- **A run opens the committee tree at its own slots**, whatever the auxiliaries. -/
theorem verifyAttestations_committees (hP : CollisionFree P)
    {slots : List (SlotComplementWitness P)} {accRoot : P.Digest} {accMultiProof : List P.Digest}
    {committeeRoot : P.Digest} {committeeMultiProof : List P.Digest} {accDepth : ℕ}
    {a : Attested P} (hroot : Committee.root committees = .ok committeeRoot)
    (h : verifyAttestations slots accRoot accMultiProof committeeRoot committeeMultiProof link
      signingDomain accDepth = .ok a) :
    ∀ slot ∈ slots, committees[slot.slotInEpoch.toNat]?.join = some slot.committee := by
  obtain ⟨s, hloop, -, hcommittees, -⟩ := verifyAttestations_eq_ok h
  obtain ⟨hleaves, hlt⟩ := attestSlots_leaves hloop
  rw [hleaves, List.nil_append] at hcommittees
  exact openCommittees_spec hP hroot hlt hcommittees

/-- An accepted run before anything is summed: its slots are checked against the
accumulator and the committee tree, everything they carry votes for the link, and
the accumulator claims what they claim. -/
theorem verifyAttestations_spec (hP : CollisionFree P) (M : KeyModel P)
    {slots : List (SlotComplementWitness P)} {accRoot : P.Digest} {accMultiProof : List P.Digest}
    {committeeRoot : P.Digest} {committeeMultiProof : List P.Digest} {a : Attested P}
    (hacc : accRoot = t.accRoot d) (hroot : Committee.root committees = .ok committeeRoot)
    (h : verifyAttestations slots accRoot accMultiProof committeeRoot committeeMultiProof link
      signingDomain d = .ok a) :
    (∀ slot ∈ slots, Checked d t committees (attestationRules link) slot ∧
      ∃ first, slot.primary.head? = some first ∧ first.data.VotesFor link ∧
        ∀ a ∈ slot.secondary, a.data.VotesFor link) ∧
      M.claims a.miller = slotsClaims M signingDomain slots ∧
      a.attestingBalance.toNat ≤ (slots.map (counted (attestationRules link))).sum ∧
      slotsOf a.slotsMask = (slots.map (·.slotInEpoch.toNat)).toFinset ∧
      (slots.map (·.slotInEpoch.toNat)).Nodup := by
  obtain ⟨s, hloop, hopened, hcommittees, hmiller, hbalance, hmask⟩ := verifyAttestations_eq_ok h
  obtain ⟨hnamed, hleaves, hclaims, hslots, hsupport, hbits, -, hpairwise⟩ :=
    attestSlots_spec M hloop
  simp only [List.nil_append] at hnamed hleaves
  rw [hnamed, hacc] at hopened
  rw [hleaves] at hcommittees
  have hopen := (openNamed_spec hP hopened).1
  have hcommittee := openCommittees_spec hP hroot (fun slot hslot => (hslots slot hslot).1)
    hcommittees
  refine ⟨fun slot hslot => ?_, ?_, ?_, ?_, hpairwise.imp fun hlt => ne_of_lt hlt⟩
  · obtain ⟨-, hdropped, hvotes⟩ := hslots slot hslot
    exact ⟨{
      opened := fun v hv => hopen v (List.mem_flatMap.mpr ⟨slot, hslot, hv⟩)
      committee := hcommittee slot hslot
      balance := hdropped }, hvotes⟩
  · rw [M.millerAccumulator_claims hmiller, hclaims]
    exact zero_add _
  · rw [hbalance]
    simpa using hsupport
  · rw [hmask, hbits, slotsOf_zero, Finset.empty_union]

/-- **What a run of `verify_attestations` is worth**: its balance, its mask and
its accumulator are a backed count for the link. -/
theorem verifyAttestations_backed (hP : CollisionFree P) (K : Keyring M d t)
    (B : Buckets M d t committees) {slots : List (SlotComplementWitness P)} {accRoot : P.Digest}
    {accMultiProof : List P.Digest} {committeeRoot : P.Digest} {committeeMultiProof : List P.Digest}
    {a : Attested P} (hacc : accRoot = t.accRoot d)
    (hroot : Committee.root committees = .ok committeeRoot)
    (h : verifyAttestations slots accRoot accMultiProof committeeRoot committeeMultiProof link
      signingDomain d = .ok a) :
    Backed K B link a.attestingBalance a.slotsMask (M.claims a.miller) := by
  obtain ⟨hslots, hclaims, hbalance, hmask, hnodup⟩ := verifyAttestations_spec hP M hacc hroot h
  have htotal : ∀ i < 2 ^ d, (t i).isSome → M.total (M.claims a.miller) (K.owner i) =
      (slots.map fun slot => B.share (attestationRules link) slot i).sum := by
    intro i hi hocc
    rw [hclaims]
    apply total_slotsClaims K B hi hocc
    intro slot hslot
    obtain ⟨hchecked, first, hfirst, -⟩ := hslots slot hslot
    refine ⟨hchecked, ?_⟩
    rw [hfirst]
    rfl
  refine ⟨?_, fun i hi hocc => ?_, ?_⟩
  · have hsum := B.counted_sum_le fun slot hslot => (hslots slot hslot).1
    have hle : (a.attestingBalance.toNat : ℤ) ≤
        ((slots.map (counted (attestationRules link))).sum : ℕ) := by exact_mod_cast hbalance
    refine (hle.trans hsum).trans (le_of_eq ?_)
    apply Finset.sum_congr rfl
    intro i hi
    by_cases hocc : (t i).isSome
    · rw [htotal i (Finset.mem_range.mp hi) hocc]
    · rw [balance_of_empty hocc]
      simp
  · -- each slot of the mask gives its committee once; naming absentees only takes away
    rw [htotal i hi hocc, hmask, List.sum_toFinset _ hnodup, List.map_map]
    apply List.sum_le_sum
    intro slot _
    show B.member slot.slotInEpoch.toNat i - _ ≤ B.member slot.slotInEpoch.toNat i
    omega
  · rw [hclaims]
    apply covers_slotsClaims
    intro slot hslot
    obtain ⟨-, first, hfirst, hvotes, hsecondary⟩ := hslots slot hslot
    refine ⟨fun first' hfirst' => ?_, hsecondary⟩
    obtain rfl := Option.some.inj (hfirst.symm.trans hfirst')
    exact hvotes

end Claims
end Zkasper
