import Zkasper.Fcr.Rule
import Zkasper.Fcr.Types
import Zkasper.Formal
import Zkasper.Slot

/-! # The fast-confirmation batch proof

One proof over a run of consecutive slots: the circuit counts every slot by
complement, walks the chain of headers beside them, checks the signatures of all
slots together, and judges what it counted. Its two halves are apart here.
`countBatch` ends with the pairing check and needs no rule; `judge` is the rule's
arithmetic over what was counted.

Two numbers of the output are not what the counting fixed. The slots are
consecutive as positions in their epoch only (`verifyFcrBatchWithDepth_slots`),
and the range the threshold is sized for comes from the witness
(`verifyFcrBatchWithDepth_threshold`). -/

namespace Zkasper.Fcr

open Bls Ssz Merkle Slot

variable {P : Primitives}

/-! ## The circuit -/

/-- Counting a head vote pins no checkpoint, and a minority vote loses its balance. -/
def batchRules : Rules P := ⟨fun _ => return (), true⟩

/-- What the loop over the slots carries. -/
structure BatchState (P : Primitives) where
  support : UInt64
  emptySlotSupport : UInt64
  tally : Tally P
  committeeLeaves : List (P.Digest × ℕ)
  headRoot : P.Bytes32
  headSlot : UInt64
  previousSlot : Option UInt64

/-- Contiguous, not merely increasing. -/
def checkContiguous (previousSlot : Option UInt64) (slotInEpoch : UInt64) : Guest Unit :=
  match previousSlot with
  | none => return ()
  | some previous =>
      Guest.assert (slotInEpoch = previous + 1)
        s!"an FCR batch covers a contiguous run of slots; {slotInEpoch} followed {previous}"

/-- A skipped slot leaves the head where it was; a block must extend it. -/
def advanceHead (headRoot : P.Bytes32) (headSlot : UInt64) :
    Option (BlockHeaderFields P) → Guest (P.Bytes32 × UInt64)
  | none => return (headRoot, headSlot)
  | some header => do
      Guest.assert (header.parentRoot = headRoot)
        s!"the block at slot {header.slot} does not extend this batch's chain"
      Guest.assert (header.slot > headSlot)
        s!"the block at slot {header.slot} does not advance past head slot {headSlot}"
      return (blockHeaderRoot P header, header.slot)

/-- The committee bucket, the message and the block must name one slot. -/
def checkSlot (slotInEpoch dataSlot : UInt64) (header : Option (BlockHeaderFields P)) :
    Guest Unit := do
  Guest.assert (dataSlot % slotsPerEpoch = slotInEpoch)
    s!"slot {slotInEpoch} is paired against a message for slot {dataSlot}"
  match header with
  | none => return ()
  | some header =>
      Guest.assert (header.slot = dataSlot)
        s!"the block proposed at slot {header.slot} is paired against a message for slot {dataSlot}"

/-- One slot of the batch. -/
def countSlot (signingDomain : P.Bytes32) (s : BatchState P) (entry : FcrSlotWitness P) :
    Guest (BatchState P) := do
  let slot := entry.complement
  checkContiguous s.previousSlot slot.slotInEpoch
  Guest.assert (slot.slotInEpoch.toNat < Committee.maxSlots)
    s!"slot {slot.slotInEpoch} is past the {Committee.maxSlots} a committee tree holds"
  let (headRoot, headSlot) ← advanceHead s.headRoot s.headSlot entry.headHeader
  let first ← checkPrimary slot
  checkSlot slot.slotInEpoch first.dataSlot entry.headHeader
  let (counted, tally) ← countComplement batchRules signingDomain slot s.tally
  -- The drop rule: a vote for anything but the canonical head is verified and not counted.
  let canonical := first.dataBeaconBlockRoot = headRoot
  return {
    support := if canonical ∧ entry.headHeader.isSome then s.support + counted else s.support
    emptySlotSupport :=
      if canonical ∧ ¬ entry.headHeader.isSome then s.emptySlotSupport + counted
      else s.emptySlotSupport
    tally
    committeeLeaves :=
      s.committeeLeaves ++ [(Committee.leaf slot.committee, slot.slotInEpoch.toNat)]
    headRoot
    headSlot
    previousSlot := some slot.slotInEpoch }

/-- What the loop over the slots starts from. -/
def BatchState.start (w : FcrBatchWitness P) : BatchState P :=
  ⟨0, 0, ⟨[], []⟩, [], w.parentHeadRoot, w.parentHeadSlot, none⟩

/-- Everything up to the verdict. -/
def countBatch (w : FcrBatchWitness P) (accDepth : ℕ) : Guest (BatchState P) := do
  Guest.assert (P.commitment w.accRoot w.totalActiveBalance = w.accumulatorCommitment)
    "accumulator commitment mismatch"
  Guest.assert (w.slots ≠ []) "an FCR batch covers no slots"
  let s ← w.slots.foldlM (countSlot w.signingDomain) (BatchState.start w)
  openNamed s.tally.opened w.accRoot w.accMultiProof accDepth
  openCommittees s.committeeLeaves w.committeeRoot w.committeeMultiProof
  let f ← Guest.expect (millerAccumulator s.tally.messages) "BLS pairing inputs rejected"
  Guest.assert (P.finalExpIsOne f = true) "BLS aggregate signature verification failed"
  return s

/-- The primary message counted at position `i`. -/
def FcrBatchWitness.primaryAt (w : FcrBatchWitness P) (i : ℕ) : Option (AttestationWitness P) :=
  w.slots[i]?.bind fun entry => entry.complement.primary.head?

/-- The verdict, computed by the rule's own implementation. -/
def judge (fc : FastConfirmation) (w : FcrBatchWitness P) (s : BatchState P) :
    Guest (FcrBatchOutput P) := do
  let maximumSupport ← Guest.expect
    (fc.estimateCommitteeWeightBetweenSlots slotsPerEpoch w.totalActiveBalance
      (w.parentHeadSlot + 1) (w.currentSlot - 1))
    "committee weight estimate overflowed"
  let proposerScore ← Guest.expect
    (fc.computeProposerScore w.totalActiveBalance slotsPerEpoch w.proposerScoreBoost)
    "proposer score overflowed"
  let maxAdversarial ← Guest.expect (fc.maxAdversarialWeight maximumSupport w.byzantineThreshold)
    "adversarial weight overflowed"
  let adversarial := fc.adversarialWeight maxAdversarial 0
  let supportDiscount := fc.adversarialWeight s.emptySlotSupport adversarial
  let threshold ← Guest.expect
    (fc.safetyThreshold maximumSupport proposerScore adversarial supportDiscount)
    "safety threshold overflowed"
  let first ← Guest.expect (w.primaryAt 0) "index out of bounds: the len is 0 but the index is 0"
  return {
    threshold
    emptySlotSupport := s.emptySlotSupport
    confirmed := fc.isOneConfirmed false s.support threshold
    byzantineThreshold := w.byzantineThreshold
    proposerScoreBoost := w.proposerScoreBoost
    accumulatorCommitment := w.accumulatorCommitment
    committeeRoot := w.committeeRoot
    parentHeadRoot := w.parentHeadRoot
    headRoot := s.headRoot
    headSlot := s.headSlot
    support := s.support
    totalActiveBalance := w.totalActiveBalance
    firstSlot := first.dataSlot
    slotCount := UInt64.ofNat w.slots.length }

/-- Verify a batch. -/
def verifyFcrBatchWithDepth (fc : FastConfirmation) (w : FcrBatchWitness P) (accDepth : ℕ) :
    Guest (FcrBatchOutput P) := do
  let s ← countBatch w accDepth
  judge fc w s

/-! ## What one slot does -/

/-- The head a slot leaves behind. -/
def extendHead (headRoot : P.Bytes32) (entry : FcrSlotWitness P) : P.Bytes32 :=
  entry.headHeader.elim headRoot (blockHeaderRoot P)

theorem advanceHead_eq_ok {headRoot : P.Bytes32} {headSlot : UInt64}
    {header : Option (BlockHeaderFields P)} {r : P.Bytes32 × UInt64}
    (h : advanceHead headRoot headSlot header = .ok r) :
    r.1 = header.elim headRoot (blockHeaderRoot P) := by
  cases header with
  | none =>
      obtain rfl := Guest.pure_eq_ok.mp h
      rfl
  | some header =>
      simp only [advanceHead, Guest.bind_eq_ok, Guest.assert_eq_ok, Guest.pure_eq_ok] at h
      obtain ⟨_, -, _, -, rfl⟩ := h
      rfl

/-- **One slot of the batch**: its position follows the one before, its primary
message names that position, and its balance is support exactly when the message
votes for the head of the slot. -/
theorem countSlot_eq_ok {signingDomain : P.Bytes32} {s s' : BatchState P}
    {entry : FcrSlotWitness P} (h : countSlot signingDomain s entry = .ok s') :
    ∃ first counted, entry.complement.primary.head? = some first ∧
      countComplement batchRules signingDomain entry.complement s.tally = .ok (counted, s'.tally) ∧
      (∀ previous, s.previousSlot = some previous → entry.complement.slotInEpoch = previous + 1) ∧
      entry.complement.slotInEpoch.toNat < Committee.maxSlots ∧
      first.dataSlot % slotsPerEpoch = entry.complement.slotInEpoch ∧
      s'.headRoot = extendHead s.headRoot entry ∧
      s'.support = (if first.dataBeaconBlockRoot = s'.headRoot ∧ entry.headHeader.isSome
        then s.support + counted else s.support) ∧
      s'.emptySlotSupport = (if first.dataBeaconBlockRoot = s'.headRoot ∧ ¬ entry.headHeader.isSome
        then s.emptySlotSupport + counted else s.emptySlotSupport) ∧
      s'.committeeLeaves = s.committeeLeaves ++
        [(Committee.leaf entry.complement.committee, entry.complement.slotInEpoch.toNat)] ∧
      s'.previousSlot = some entry.complement.slotInEpoch := by
  simp only [countSlot, checkSlot, Guest.bind_eq_ok, Guest.assert_eq_ok, Guest.pure_eq_ok,
    exists_const] at h
  obtain ⟨_, hcontiguous, hlt, ⟨headRoot, headSlot⟩, hhead, first, hfirst, _, ⟨hslot, -⟩,
    ⟨counted, tally⟩, hcount, rfl⟩ := h
  refine ⟨first, counted, checkPrimary_eq_ok hfirst, hcount, fun previous hprevious => ?_, hlt,
    hslot, advanceHead_eq_ok hhead, rfl, rfl, rfl, rfl⟩
  rw [hprevious] at hcontiguous
  exact Guest.assert_eq_ok.mp hcontiguous

theorem countBatch_eq_ok {w : FcrBatchWitness P} {accDepth : ℕ} {s : BatchState P}
    (h : countBatch w accDepth = .ok s) :
    w.slots ≠ [] ∧ w.slots.foldlM (countSlot w.signingDomain) (BatchState.start w) = .ok s ∧
      openNamed s.tally.opened w.accRoot w.accMultiProof accDepth = .ok () ∧
      openCommittees s.committeeLeaves w.committeeRoot w.committeeMultiProof = .ok () ∧
      ∃ f, millerAccumulator s.tally.messages = some f ∧ P.finalExpIsOne f = true := by
  simp only [countBatch, Guest.bind_eq_ok, Guest.assert_eq_ok, Guest.expect_eq_ok,
    Guest.pure_eq_ok, exists_const] at h
  obtain ⟨-, hne, s', hloop, _, hopened, _, hcommittees, f, hf, hone, rfl⟩ := h
  exact ⟨hne, hloop, hopened, hcommittees, f, hf, hone⟩

/-- **Consecutive positions.** The slots of an accepted loop take consecutive
positions, and every primary message has its own. -/
theorem countSlots_positions {signingDomain : P.Bytes32} :
    ∀ {entries : List (FcrSlotWitness P)} {s s' : BatchState P},
      (∀ previous, s.previousSlot = some previous → previous.toNat < Committee.maxSlots) →
      entries.foldlM (countSlot signingDomain) s = .ok s' →
        ∃ base, (∀ previous, s.previousSlot = some previous → base = previous.toNat + 1) ∧
          ∀ i entry, entries[i]? = some entry →
            entry.complement.slotInEpoch.toNat = base + i ∧ base + i < Committee.maxSlots ∧
              ∃ first, entry.complement.primary.head? = some first ∧
                first.dataSlot.toNat % 32 = base + i := by
  intro entries
  induction entries with
  | nil =>
      intro s s' _ _
      -- nothing is counted, but the next slot's position is already settled
      cases hprevious : s.previousSlot with
      | none => exact ⟨0, by simp⟩
      | some previous => exact ⟨previous.toNat + 1, by simp⟩
  | cons entry entries ih =>
      intro s s' hlt h
      obtain ⟨mid, hstep, hrest⟩ := Guest.foldlM_cons.mp h
      obtain ⟨first, counted, hfirst, -, hnext, hmax, hslot, -, -, -, -, hprev⟩ :=
        countSlot_eq_ok hstep
      obtain ⟨base, hbase, hpos⟩ := ih (by rw [hprev]; simpa using hmax) hrest
      have hbase := hbase _ hprev
      have hmod : first.dataSlot.toNat % 32 = entry.complement.slotInEpoch.toNat := by
        rw [← hslot]
        rfl
      refine ⟨entry.complement.slotInEpoch.toNat, fun previous hprevious => ?_, fun i e he => ?_⟩
      · -- a position below the tree's width has a successor that does not wrap
        have hp := hlt previous hprevious
        rw [hnext previous hprevious, UInt64.toNat_add, UInt64.toNat_one]
        exact Nat.mod_eq_of_lt (by unfold Committee.maxSlots Committee.treeDepth at hp; omega)
      · cases i with
        | zero =>
            obtain rfl := Option.some.inj he
            exact ⟨rfl, hmax, first, hfirst, hmod⟩
        | succ i =>
            have hi := hpos i e (by simpa using he)
            rw [hbase, Nat.add_right_comm, Nat.add_assoc] at hi
            exact hi

/-- The positions of an accepted batch: `base` onwards, one a slot, all below 32. -/
theorem countBatch_positions {w : FcrBatchWitness P} {accDepth : ℕ} {s : BatchState P}
    (h : countBatch w accDepth = .ok s) :
    ∃ base, base + w.slots.length ≤ 32 ∧ ∀ i < w.slots.length,
      ∃ entry, w.slots[i]? = some entry ∧ entry.complement.slotInEpoch.toNat = base + i ∧
        ∃ first, w.primaryAt i = some first ∧ first.dataSlot.toNat % 32 = base + i := by
  obtain ⟨hne, hloop, -⟩ := countBatch_eq_ok h
  obtain ⟨base, -, hpos⟩ := countSlots_positions (by simp [BatchState.start]) hloop
  refine ⟨base, ?_, fun i hi => ?_⟩
  · have hlen : 0 < w.slots.length := List.length_pos_iff.mpr hne
    obtain ⟨-, hlast, -⟩ := hpos (w.slots.length - 1) _ (List.getElem?_eq_getElem (by omega))
    unfold Committee.maxSlots Committee.treeDepth at hlast
    omega
  · obtain ⟨hslot, -, first, hfirst, hmod⟩ := hpos i _ (List.getElem?_eq_getElem hi)
    refine ⟨_, List.getElem?_eq_getElem hi, hslot, first, ?_, hmod⟩
    simpa [FcrBatchWitness.primaryAt, List.getElem?_eq_getElem hi] using hfirst

/-- A batch is no longer than the tree is wide, so its length is published as it is. -/
theorem countBatch_length {w : FcrBatchWitness P} {accDepth : ℕ} {s : BatchState P}
    (h : countBatch w accDepth = .ok s) :
    0 < w.slots.length ∧ (UInt64.ofNat w.slots.length).toNat = w.slots.length := by
  obtain ⟨base, hmax, -⟩ := countBatch_positions h
  refine ⟨List.length_pos_iff.mpr (countBatch_eq_ok h).1, ?_⟩
  rw [UInt64.toNat_ofNat', Nat.mod_eq_of_lt (by omega)]

theorem lt_length_of_primaryAt {w : FcrBatchWitness P} {i : ℕ} {a : AttestationWitness P}
    (h : w.primaryAt i = some a) : i < w.slots.length := by
  by_contra hge
  rw [FcrBatchWitness.primaryAt, List.getElem?_eq_none (not_lt.mp hge)] at h
  cases h

/-- Slots of one epoch. -/
theorem epoch_eq_iff {a b : UInt64} :
    a / slotsPerEpoch = b / slotsPerEpoch ↔ a.toNat / 32 = b.toNat / 32 := by
  rw [← UInt64.toNat_inj, UInt64.toNat_div, UInt64.toNat_div]
  rfl

theorem judge_eq_ok {fc : FastConfirmation} {w : FcrBatchWitness P} {s : BatchState P}
    {out : FcrBatchOutput P} (h : judge fc w s = .ok out) :
    ∃ first m p a t, w.primaryAt 0 = some first ∧
      fc.estimateCommitteeWeightBetweenSlots slotsPerEpoch w.totalActiveBalance
        (w.parentHeadSlot + 1) (w.currentSlot - 1) = some m ∧
      fc.computeProposerScore w.totalActiveBalance slotsPerEpoch w.proposerScoreBoost = some p ∧
      fc.maxAdversarialWeight m w.byzantineThreshold = some a ∧
      fc.safetyThreshold m p (fc.adversarialWeight a 0)
        (fc.adversarialWeight s.emptySlotSupport (fc.adversarialWeight a 0)) = some t ∧
      out = {
        threshold := t
        emptySlotSupport := s.emptySlotSupport
        confirmed := fc.isOneConfirmed false s.support t
        byzantineThreshold := w.byzantineThreshold
        proposerScoreBoost := w.proposerScoreBoost
        accumulatorCommitment := w.accumulatorCommitment
        committeeRoot := w.committeeRoot
        parentHeadRoot := w.parentHeadRoot
        headRoot := s.headRoot
        headSlot := s.headSlot
        support := s.support
        totalActiveBalance := w.totalActiveBalance
        firstSlot := first.dataSlot
        slotCount := UInt64.ofNat w.slots.length } := by
  simp only [judge, Guest.bind_eq_ok, Guest.expect_eq_ok, Guest.pure_eq_ok] at h
  obtain ⟨m, hm, p, hp, a, ha, t, ht, first, hfirst, rfl⟩ := h
  exact ⟨first, m, p, a, t, hfirst, hm, hp, ha, ht, rfl⟩

theorem verifyFcrBatchWithDepth_eq_ok {fc : FastConfirmation} {w : FcrBatchWitness P}
    {accDepth : ℕ} {out : FcrBatchOutput P} :
    verifyFcrBatchWithDepth fc w accDepth = .ok out ↔
      ∃ s, countBatch w accDepth = .ok s ∧ judge fc w s = .ok out :=
  Guest.bind_eq_ok

/-! ## The slots a batch counts -/

/-- **A batch counts the slots it claims exactly when its messages are of one
epoch.** The positions are consecutive and tied to the messages modulo 32, so what
remains open is which epoch each message is of. -/
theorem verifyFcrBatchWithDepth_slots (fc : FastConfirmation) (w : FcrBatchWitness P) (accDepth : ℕ)
    (out : FcrBatchOutput P) (h : verifyFcrBatchWithDepth fc w accDepth = .ok out) :
    (∀ i < w.slots.length, ∃ a, w.primaryAt i = some a ∧
        a.dataSlot.toNat = out.firstSlot.toNat + i) ↔
      ∀ i a first, w.primaryAt i = some a → w.primaryAt 0 = some first →
        a.dataSlot / slotsPerEpoch = first.dataSlot / slotsPerEpoch := by
  obtain ⟨s, hcount, hjudge⟩ := verifyFcrBatchWithDepth_eq_ok.mp h
  obtain ⟨first, -, -, -, -, hfirst, -, -, -, -, rfl⟩ := judge_eq_ok hjudge
  obtain ⟨base, hmax, hpos⟩ := countBatch_positions hcount
  have hlen := (countBatch_length hcount).1
  have hbase : first.dataSlot.toNat % 32 = base := by
    obtain ⟨-, -, -, first', hfirst', hmod⟩ := hpos 0 hlen
    obtain rfl := Option.some.inj (hfirst.symm.trans hfirst')
    exact hmod
  constructor
  · intro hall i a first' ha hfirst'
    obtain rfl := Option.some.inj (hfirst.symm.trans hfirst')
    have hi := lt_length_of_primaryAt ha
    obtain ⟨a', ha', heq⟩ := hall i hi
    obtain rfl := Option.some.inj (ha.symm.trans ha')
    rw [epoch_eq_iff, heq]
    -- the batch ends before the epoch does
    show (first.dataSlot.toNat + i) / 32 = first.dataSlot.toNat / 32
    omega
  · intro hepoch i hi
    obtain ⟨-, -, -, a, ha, hmod⟩ := hpos i hi
    have hsame := epoch_eq_iff.mp (hepoch i a first ha hfirst)
    refine ⟨a, ha, ?_⟩
    show a.dataSlot.toNat = first.dataSlot.toNat + i
    omega

/-! ## One batch over two epochs -/

section Samples

open Formal

variable {S : Scenario}

/-- A block at `slot` on top of `parentRoot`. -/
def sampleHeader (parentRoot : Term) (slot : UInt64) : BlockHeaderFields (formal S) :=
  ⟨slot, 0, parentRoot, .bytes [], .bytes []⟩

/-- A slot with a block on top of `parentRoot`, for which the committee votes but
for the absentees. -/
def sampleSlot (committee : CommitteeAggregate (formal S))
    (absentees : List (OpenedValidator (formal S))) (parentRoot : Term) (slot : UInt64) :
    FcrSlotWitness (formal S) where
  complement := {
    slotInEpoch := slot % slotsPerEpoch
    committee := committee
    primary := [⟨slot, 0, blockHeaderRoot (formal S) (sampleHeader parentRoot slot), 0,
      .bytes [], 1, .bytes [], zeroBytes 96, []⟩]
    secondary := []
    absentees := absentees }
  headHeader := some (sampleHeader parentRoot slot)

/-- The root of the block at `slot` on top of `parentRoot`. -/
def sampleRoot (parentRoot : Term) (slot : UInt64) : Term :=
  blockHeaderRoot (formal {}) (sampleHeader parentRoot slot)

/-- A batch over `slots` on top of the block at slot `parentSlot`, decided at
`currentSlot`. Nobody is absent, so the accumulator is not opened. -/
def sampleWitness (committees : List (Option (CommitteeAggregate (formal S))))
    (committeeMultiProof : List Digest) (parentSlot currentSlot : UInt64)
    (slots : Term → List (FcrSlotWitness (formal S))) : FcrBatchWitness (formal S) where
  accumulatorCommitment := .commitment .zero 3200
  accRoot := .zero
  totalActiveBalance := 3200
  committeeRoot :=
    PerfectTree.root Digest.node Committee.treeDepth (Committee.slotLeaf committees)
  accMultiProof := []
  committeeMultiProof := committeeMultiProof
  signingDomain := .bytes []
  parentHeadRoot := sampleRoot (.bytes []) parentSlot
  parentHeadSlot := parentSlot
  byzantineThreshold := 25
  proposerScoreBoost := 40
  currentSlot := currentSlot
  slots := slots (sampleRoot (.bytes []) parentSlot)

/-- The scenario in which every key signs everything. -/
def allSign : Scenario := { signed := fun _ _ => true }

/-- The committee of one slot: the owner of key `k`, with a balance of 60. -/
def sampleCommittee (k : Fin 4) : CommitteeAggregate (formal allSign) := ⟨Formal.key k, 60⟩

/-- Slots `33` and `slot`, the block of the one on top of the block of the other. -/
def pairWitness (slot : UInt64) : FcrBatchWitness (formal allSign) :=
  sampleWitness [none, some (sampleCommittee 0), some (sampleCommittee 1)]
    [.zero, .zero, emptyRoot 2, emptyRoot 3, emptyRoot 4] 32 (slot + 1) fun parentRoot =>
      [sampleSlot (sampleCommittee 0) [] parentRoot 33,
        sampleSlot (sampleCommittee 1) [] (sampleRoot parentRoot 33) slot]

/-- Slot 10 on top of the block of slot 9, decided at `currentSlot`. -/
def singleWitness (currentSlot : UInt64) : FcrBatchWitness (formal allSign) :=
  sampleWitness (List.replicate 10 none ++ [some (sampleCommittee 0)])
    [.zero, emptyRoot 1, emptyRoot 2, emptyRoot 3, emptyRoot 4] 9 currentSlot fun parentRoot =>
      [sampleSlot (sampleCommittee 0) [] parentRoot 10]

end Samples

/-- A batch that publishes the two slots from 33 counts slot 66 at its second
position: the slots are positions 1 and 2 of different epochs. -/
theorem verifyFcrBatchWithDepth_two_epochs :
    ∃ out, verifyFcrBatchWithDepth (FastConfirmation.ofSpec flatRule) (pairWitness 66) 40 = .ok out ∧
      out.firstSlot = 33 ∧ out.slotCount = 2 ∧ out.support = 120 ∧
      ((pairWitness 66).primaryAt 1).map (·.dataSlot) = some 66 := by
  decide +kernel

/-- Slots 33 and 34 are counted as what they are. -/
theorem verifyFcrBatchWithDepth_slots_one_epoch :
    ∃ a, (pairWitness 34).primaryAt 1 = some a ∧ a.dataSlot.toNat = 33 + 1 := by
  obtain ⟨out, h, hfirst⟩ : ∃ out, verifyFcrBatchWithDepth (FastConfirmation.ofSpec flatRule)
      (pairWitness 34) 40 = .ok out ∧ out.firstSlot = 33 := by decide +kernel
  have hslots := (verifyFcrBatchWithDepth_slots _ _ _ out h).mpr fun i a first ha hfirst => by
    obtain rfl := Option.some.inj hfirst
    rcases i with _ | _ | i
    · obtain rfl := Option.some.inj ha
      rfl
    · obtain rfl := Option.some.inj ha
      rfl
    · cases ha
  rw [hfirst] at hslots
  exact hslots 1 (by decide)

/-! ## The threshold a batch publishes -/

/-- What the threshold of a batch is computed from. -/
def FcrBatchOutput.ruleInput (out : FcrBatchOutput P) : RuleInput where
  slotsPerEpoch := slotsPerEpoch.toNat
  totalActiveBalance := out.totalActiveBalance.toNat
  byzantineThreshold := out.byzantineThreshold.toNat
  proposerScoreBoost := out.proposerScoreBoost.toNat
  emptySlotSupport := out.emptySlotSupport.toNat

/-- The last slot a batch claims to count. -/
def FcrBatchOutput.lastSlot (out : FcrBatchOutput P) : ℕ :=
  out.firstSlot.toNat + out.slotCount.toNat - 1

/-- **A verdict bound to what was counted**: some range starts right after the
parent block, contains every slot the batch counted, and has a specification
threshold no higher than the published one; so a confirmed batch's support exceeds
it. -/
def FcrBatchOutput.Bound (R : RuleSpec) (parentSlot : ℕ) (out : FcrBatchOutput P) : Prop :=
  ∃ endSlot, (parentSlot + 1 ≤ out.firstSlot.toNat ∧ out.lastSlot ≤ endSlot) ∧
    R.threshold out.ruleInput (parentSlot + 1) endSlot ≤ out.threshold.toNat ∧
    (out.confirmed = true →
      R.threshold out.ruleInput (parentSlot + 1) endSlot < out.support.toNat)

/-- The published threshold is the specification's, for the range of the witness. -/
theorem judge_threshold {fc : FastConfirmation} {R : RuleSpec} (hfc : fc.Implements R)
    {w : FcrBatchWitness P} {s : BatchState P} {out : FcrBatchOutput P}
    (h : judge fc w s = .ok out) :
    out.threshold.toNat = R.threshold out.ruleInput (w.parentHeadSlot + 1).toNat
        (w.currentSlot - 1).toNat ∧
      (out.confirmed = true → out.threshold < out.support) := by
  obtain ⟨first, m, p, a, t, -, hm, hp, ha, ht, rfl⟩ := judge_eq_ok h
  refine ⟨?_, fun hconfirmed => ?_⟩
  · rw [hfc.safetyThreshold _ _ _ _ _ ht]
    simp only [hfc.adversarialWeight, UInt64.toNat_zero, Nat.sub_zero]
    rw [hfc.maxAdversarialWeight _ _ _ ha, hfc.proposerScore _ _ _ _ hp, hfc.estimate _ _ _ _ _ hm]
    rfl
  · simpa [hfc.isOneConfirmed] using hconfirmed

/-- The rule that sizes a range at `weight` exactly when it contains
`startSlot..=endSlot`, and charges the adversary that much again. -/
def probeRule (startSlot endSlot weight : ℕ) (hle : startSlot ≤ endSlot) : RuleSpec where
  maximumSupport _ _ s e := if s ≤ startSlot ∧ endSlot ≤ e then weight else 0
  proposerScore _ _ _ := 0
  maxAdversarialWeight m _ := m
  maximumSupport_mono _ _ s e s' e' hs he := by
    split
    · rw [if_pos (by omega)]
    · exact Nat.zero_le _
  maximumSupport_empty _ _ s e h := if_neg (by omega)
  maxAdversarialWeight_mono _ _ _ h := h

/-- Outside its range the probe costs nothing, so every batch passes its arithmetic. -/
theorem judge_probe (weight : ℕ) {startSlot endSlot : ℕ} (hle : startSlot ≤ endSlot)
    {w : FcrBatchWitness P} {s : BatchState P} {first : AttestationWitness P}
    (hfirst : w.primaryAt 0 = some first)
    (hout : ¬ ((w.parentHeadSlot + 1).toNat ≤ startSlot ∧ endSlot ≤ (w.currentSlot - 1).toNat)) :
    ∃ out, judge (FastConfirmation.ofSpec (probeRule startSlot endSlot weight hle)) w s = .ok out ∧
      out.firstSlot = first.dataSlot ∧ out.slotCount = UInt64.ofNat w.slots.length ∧
      out.threshold = 0 := by
  have hzero : toU64? 0 = some 0 := rfl
  have hthreshold : (0 + 0 + 2 * 0 - s.emptySlotSupport.toNat) / 2 = 0 := by omega
  simp only [judge, FastConfirmation.ofSpec, probeRule, if_neg hout, hzero, hfirst, Guest.expect]
  simp [bind, Except.bind, pure, Except.pure, hzero]

/-- **What a probe tells.** A witness that misses the probed range publishes a
threshold of zero, so a bound verdict puts the parent block before the counted
slots, and some range around them costs nothing under the probe. -/
theorem bound_probe (weight : ℕ) {w : FcrBatchWitness P} {accDepth : ℕ} {s : BatchState P}
    (hcount : countBatch w accDepth = .ok s) {first : AttestationWitness P}
    (hfirst : w.primaryAt 0 = some first) {parentSlot startSlot endSlot : ℕ}
    (hle : startSlot ≤ endSlot)
    (hout : ¬ ((w.parentHeadSlot + 1).toNat ≤ startSlot ∧ endSlot ≤ (w.currentSlot - 1).toNat))
    (hbound : ∀ fc R, fc.Implements R → ∀ out, verifyFcrBatchWithDepth fc w accDepth = .ok out →
      out.Bound R parentSlot) :
    parentSlot < first.dataSlot.toNat ∧ ∃ e i,
      first.dataSlot.toNat + w.slots.length ≤ e + 1 ∧ i.emptySlotSupport < 2 ^ 64 ∧
        (probeRule startSlot endSlot weight hle).threshold i (parentSlot + 1) e ≤ 0 := by
  obtain ⟨out, hjudge, hf, hc, ht⟩ := judge_probe weight hle (s := s) hfirst hout
  obtain ⟨e, ⟨hlo, hhi⟩, hle', -⟩ := hbound _ _ (FastConfirmation.ofSpec_implements _) out
    (verifyFcrBatchWithDepth_eq_ok.mpr ⟨s, hcount, hjudge⟩)
  rw [FcrBatchOutput.lastSlot, hf, hc, (countBatch_length hcount).2] at hhi
  rw [hf] at hlo
  rw [ht] at hle'
  exact ⟨hlo, e, out.ruleInput, by omega, UInt64.toNat_lt _, hle'⟩

/-- **When a published threshold is bound to what was counted.** For every
implementation of the rule the verdict of an accepted batch is bound to the
counted slots, exactly when the parent block lies before the first of them and the
range of the witness contains the range from the parent block to the last of them. -/
theorem verifyFcrBatchWithDepth_threshold (w : FcrBatchWitness P) (accDepth : ℕ)
    (s : BatchState P) (hcount : countBatch w accDepth = .ok s) (first : AttestationWitness P)
    (hfirst : w.primaryAt 0 = some first) (parent : BlockHeaderFields P)
    (_ : blockHeaderRoot P parent = w.parentHeadRoot) :
    (∀ fc R, fc.Implements R → ∀ out, verifyFcrBatchWithDepth fc w accDepth = .ok out →
        out.Bound R parent.slot.toNat) ↔
      parent.slot.toNat < first.dataSlot.toNat ∧
        (w.parentHeadSlot + 1).toNat ≤ parent.slot.toNat + 1 ∧
        first.dataSlot.toNat + w.slots.length ≤ (w.currentSlot - 1).toNat + 1 := by
  obtain ⟨hlen, hlength⟩ := countBatch_length hcount
  constructor
  · intro hbound
    have hparent : parent.slot.toNat < first.dataSlot.toNat :=
      (bound_probe 0 hcount hfirst le_rfl
        (by omega : ¬ (_ ∧ (w.currentSlot - 1).toNat + 1 ≤ _)) hbound).1
    refine ⟨hparent, ?_⟩
    -- a rule that prices the counted run and nothing else tells whether the run was priced
    by_contra hrange
    have hle : parent.slot.toNat + 1 ≤ first.dataSlot.toNat + w.slots.length - 1 := by omega
    obtain ⟨-, e, i, he, hempty, hzero⟩ :=
      bound_probe (2 ^ 64) hcount hfirst hle (by omega) hbound
    have hpriced : parent.slot.toNat + 1 ≤ parent.slot.toNat + 1 ∧
        first.dataSlot.toNat + w.slots.length - 1 ≤ e := by omega
    simp only [RuleSpec.threshold, probeRule, if_pos hpriced] at hzero
    omega
  · rintro ⟨hparent, hstart, hend⟩ fc R hfc out h
    obtain ⟨s', hcount', hjudge⟩ := verifyFcrBatchWithDepth_eq_ok.mp h
    obtain ⟨hthreshold, hconfirmed⟩ := judge_threshold hfc hjudge
    obtain ⟨first', _, _, _, _, hfirst', _, _, _, _, hout⟩ := judge_eq_ok hjudge
    obtain rfl := Option.some.inj (hfirst.symm.trans hfirst')
    have hlast : out.lastSlot = first.dataSlot.toNat + w.slots.length - 1 := by
      rw [FcrBatchOutput.lastSlot, hout, hlength]
    have hle : R.threshold out.ruleInput (parent.slot.toNat + 1) out.lastSlot ≤
        out.threshold.toNat := by
      rw [hthreshold]
      exact R.threshold_mono _ hstart (by omega)
    refine ⟨out.lastSlot, ⟨by rw [hout]; exact hparent, le_rfl⟩, hle, fun hc => ?_⟩
    exact hle.trans_lt (UInt64.lt_iff_toNat_lt.mp (hconfirmed hc))

/-! ## A threshold for an empty range -/

/-- Decided at slot 5 the range is empty: support 60 confirms against a published
threshold of 20, where the threshold of slot 10 is 95, and no range that contains
slot 10 has a lower one. -/
theorem verifyFcrBatchWithDepth_empty_range :
    blockHeaderRoot _ (sampleHeader (.bytes []) 9) = (singleWitness 5).parentHeadRoot ∧
    (FastConfirmation.ofSpec flatRule).Implements flatRule ∧
    ∃ out, verifyFcrBatchWithDepth (FastConfirmation.ofSpec flatRule) (singleWitness 5) 40 = .ok out ∧
      out.confirmed = true ∧ out.support = 60 ∧ out.threshold = 20 ∧
      ¬ out.Bound flatRule 9 := by
  refine ⟨rfl, FastConfirmation.ofSpec_implements _, ?_⟩
  obtain ⟨out, h, hconfirmed, hsupport, hthreshold, hlast, hown⟩ :
      ∃ out, verifyFcrBatchWithDepth (FastConfirmation.ofSpec flatRule) (singleWitness 5) 40 =
        .ok out ∧ out.confirmed = true ∧ out.support = 60 ∧ out.threshold = 20 ∧
          out.lastSlot = 10 ∧ flatRule.threshold out.ruleInput 10 10 = 95 := by decide +kernel
  refine ⟨out, h, hconfirmed, hsupport, hthreshold, ?_⟩
  rintro ⟨e, ⟨-, hend⟩, hle, -⟩
  have hmono := flatRule.threshold_mono out.ruleInput (le_refl 10) (hlast ▸ hend)
  rw [hown] at hmono
  have hle := hmono.trans hle
  rw [hthreshold] at hle
  exact absurd hle (by decide)

/-- Decided at slot 11 the range is slot 10, and the verdict is bound to it. -/
theorem verifyFcrBatchWithDepth_threshold_own_range :
    ∃ out, verifyFcrBatchWithDepth (FastConfirmation.ofSpec flatRule) (singleWitness 11) 40 =
      .ok out ∧ out.Bound flatRule 9 := by
  obtain ⟨s, hcount, -⟩ : ∃ s, countBatch (singleWitness 11) 40 = .ok s ∧ True := by decide +kernel
  obtain ⟨out, h, -⟩ : ∃ out, verifyFcrBatchWithDepth (FastConfirmation.ofSpec flatRule)
      (singleWitness 11) 40 = .ok out ∧ True := by decide +kernel
  exact ⟨out, h, (verifyFcrBatchWithDepth_threshold (singleWitness 11) 40 s hcount _ rfl
    (sampleHeader (.bytes []) 9) rfl).mpr (by decide) _ _ (FastConfirmation.ofSpec_implements _)
      out h⟩

end Zkasper.Fcr
