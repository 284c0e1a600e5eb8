import Zkasper.Runs

/-! # The supermajority is real stake

Soundness of the finality count over whole trees of runs. Each part of an epoch —
a group proof, a fold over group proofs, the final proof itself — carries a
balance, a mask and a Miller accumulator, and the invariant is the same for all of
them: together they are a backed count for the epoch's link, over the one
committee tree the epoch was opened with (`Backed`). Group proofs establish it,
folds preserve it by joining over disjoint masks, and the final exponentiation
cashes it in. -/

namespace Zkasper

open Bls

variable {P : Primitives} {M : KeyModel P} {S : ProofSystem P} {d : ℕ} {slotsPerEpoch : UInt64}
  {streamVk : ProgramVk}

/-! ## Counts over one committee tree -/

section Count

variable {t : Contents P} {committees : List (Option (CommitteeAggregate P))}
  {K : Keyring M d t} {B : Buckets M d t committees} {link : Link P}

/-- A running count of the source is backed. -/
def Attested.Backed (K : Keyring M d t) (B : Buckets M d t committees) (link : Link P)
    (a : Attested P) : Prop :=
  Zkasper.Backed K B link a.attestingBalance a.slotsMask (M.claims a.miller)

theorem Attested.Backed.zero : (Attested.zero : Attested P).Backed K B link := by
  show Zkasper.Backed K B link 0 0 (M.claims P.fp12One)
  rw [M.claims_fp12One]
  exact .zero

theorem Attested.Backed.join {a b : Attested P} (ha : a.Backed K B link) (hb : b.Backed K B link)
    (hmask : a.slotsMask &&& b.slotsMask = 0) : (a.join b).Backed K B link := by
  show Zkasper.Backed K B link _ _ (M.claims (P.fp12Mul a.miller b.miller))
  rw [M.claims_fp12Mul]
  exact Zkasper.Backed.join ha hb hmask

/-- **A group proof is backed**, by the accumulator behind its commitment. -/
theorem BoundGroup.backed (hP : CollisionFree P) (hS : S.Sound d slotsPerEpoch streamVk)
    {committeeRoot : P.Digest} {total : UInt64} {group : GroupProofOutput P} {miller : P.Fp12}
    (hroot : Committee.root committees = .ok committeeRoot)
    (h : BoundGroup S (P.commitment (t.accRoot d) total) committeeRoot link group miller) :
    Attested.Backed K B link ⟨group.attestingBalance, group.slotsMask, miller⟩ := by
  obtain ⟨proof, hproof⟩ := h.proven
  obtain ⟨w, hrun⟩ := (hS _ _ _ hproof).group_inv
  simp only [verifyGroupProofWithDepth, attest, Guest.bind_eq_ok, Guest.assert_eq_ok,
    Guest.pure_eq_ok, exists_const] at hrun
  obtain ⟨attested, ⟨hcommitment, hattested⟩, rfl⟩ := hrun
  -- The group's public fields pin its witness to this accumulator, committee tree and link.
  obtain ⟨hacc, -⟩ := hP.commitment (hcommitment.trans h.accumulator)
  obtain rfl : w.committeeRoot = committeeRoot := h.committee
  obtain rfl : w.link = link := h.counts
  obtain rfl : miller = attested.miller := hP.commitFp12 h.miller
  exact verifyAttestations_backed hP K B hacc hroot hattested

/-- The loop over the groups keeps a count backed. -/
theorem absorbGroups_backed (hP : CollisionFree P) (hS : S.Sound d slotsPerEpoch streamVk)
    {committeeRoot : P.Digest} {total : UInt64} {groups : List (GroupProofOutput P)}
    {groupProofs : List (List UInt64)} {groupMillers : List P.Fp12} {running running' : Attested P}
    (hroot : Committee.root committees = .ok committeeRoot) (hstart : running.Backed K B link)
    (h : absorbGroups S (P.commitment (t.accRoot d) total) committeeRoot link groups groupProofs
      groupMillers running = .ok running') : running'.Backed K B link := by
  have hstep : ∀ running group miller, Attested.Backed K B link running →
      BoundGroup S (P.commitment (t.accRoot d) total) committeeRoot link group miller →
      running.slotsMask &&& group.slotsMask = 0 →
        (running.join ⟨group.attestingBalance, group.slotsMask, miller⟩).Backed K B link := by
    intro running group miller hrunning hgroup hmask
    exact hrunning.join (hgroup.backed hP hS hroot) hmask
  exact absorbGroups_induct hstep hstart h

end Count

/-! ## Aggregates -/

/-- What an aggregate is worth: whatever contents and link its digests stand for,
it counted over one committee tree of those contents, and the accumulator behind
its commitment backs the count. -/
def AggregateOutput.Backed (M : KeyModel P) (d : ℕ) (out : AggregateOutput P) : Prop :=
  ∀ (t : Contents P) (total : UInt64) (K : Keyring M d t) (link : Link P),
    out.accumulatorCommitment = P.commitment (t.accRoot d) total →
    out.checkpointDigest = link.checkpointDigest →
      ∃ committees, Committee.root committees = .ok out.committeeRoot ∧
        ∃ B : Buckets M d t committees, ∀ miller, P.commitFp12 miller = out.millerCommitment →
          Attested.Backed K B link ⟨out.attestingBalance, out.slotsMask, miller⟩

/-- An epoch opened with a committee proof has a committee tree. -/
theorem committee_buckets (hP : CollisionFree P) (hS : S.Sound d slotsPerEpoch streamVk)
    {t : Contents P} {total : UInt64} {proof : List UInt64} {committee : CommitteeOutput P}
    (hproof : S proof committeeProgramVk committee.publicBytes = true)
    (hacc : committee.accumulatorCommitment = P.commitment (t.accRoot d) total) :
    ∃ committees, Committee.root committees = .ok committee.committeeRoot ∧
      Nonempty (Buckets M d t committees) := by
  obtain ⟨witness, hrun⟩ := (hS _ _ _ hproof).committee_inv
  exact Committee.verify_buckets hP M hrun hacc

/-- **One fold**: what it extends is backed, so what it publishes is. -/
theorem verifyAggregate_backed (hP : CollisionFree P) (hS : S.Sound d slotsPerEpoch streamVk)
    {w : AggregateWitness P} {out : AggregateOutput P} (h : verifyAggregate S w = .ok out)
    (hbefore : ∀ before : AggregateOutput P, (∃ proof, S proof out.programVk before.publicBytes =
      true) → before.programVk = out.programVk → before.Backed M d) : out.Backed M d := by
  intro t total K link hacc hdigest
  obtain ⟨previous, running, hrun, hlink, hbalance, hmask, hmiller, hopened⟩ :=
    verifyAggregate_eq_ok h
  obtain rfl := Link.checkpointDigest_injective hP (hlink.symm.trans hdigest)
  suffices hprevious : ∃ committees, Committee.root committees = .ok out.committeeRoot ∧
      ∃ B : Buckets M d t committees, previous.Backed K B w.link by
    obtain ⟨committees, hroot, B, hB⟩ := hprevious
    refine ⟨committees, hroot, B, fun miller hcommit => ?_⟩
    rw [hacc] at hrun
    have hrunning := absorbGroups_backed hP hS hroot hB hrun
    rw [hmiller] at hcommit
    rw [hbalance, hmask, hP.commitFp12 hcommit]
    exact hrunning
  rcases hopened with ⟨rfl, proof, committee, hproof, hcommittee, hcommitteeRoot⟩ |
    ⟨before, hproof, hvk, hroot, hcommitment, hbeforeDigest, hbeforeMiller, hb, hm⟩
  · -- The epoch opens here: nothing is counted yet, over the tree of its committee proof.
    obtain ⟨committees, hroot, ⟨B⟩⟩ :=
      committee_buckets (M := M) hP hS hproof (hcommittee.trans hacc)
    exact ⟨committees, hcommitteeRoot ▸ hroot, B, .zero⟩
  · obtain ⟨committees, hbeforeRoot, B, hB⟩ := hbefore before hproof hvk t total K w.link
      (hcommitment.trans hacc) hbeforeDigest
    refine ⟨committees, hroot ▸ hbeforeRoot, B, ?_⟩
    have hpair := hB previous.miller hbeforeMiller
    rw [← hb, ← hm] at hpair
    exact hpair

/-- **The chain of folds**, by induction on the tree of runs: every aggregate of a
chain pinned to the aggregation guest is backed. -/
theorem Accepted.aggregate_backed (hP : CollisionFree P) (M : KeyModel P) {vk : ProgramVk}
    {publics : PublicBytes P} (h : Accepted d slotsPerEpoch streamVk vk publics) :
    ∀ out : AggregateOutput P, vk = aggregateProgramVk → publics = out.publicBytes →
      out.programVk = aggregateProgramVk → out.Backed M d := by
  induction h with
  | @aggregate S w published children run ih =>
      intro out _ hpublics hprogram
      obtain rfl := AggregateOutput.publicBytes_injective hpublics
      apply verifyAggregate_backed hP children run
      intro before hproof hvk
      obtain ⟨proof, hproof⟩ := hproof
      exact ih proof _ _ hproof before hprogram rfl (hvk.trans hprogram)
  | streamFinal =>
      intro out _ hpublics
      simp [AggregateOutput.publicBytes, StreamFinalOutput.publicBytes] at hpublics
  | other foreign =>
      rintro out rfl
      exact absurd (by simp [guestKeys]) foreign
  | _ =>
      intro out hvk
      cases hvk

/-! ## The final proof -/

/-- What the final proof starts counting from is backed, over the tree the epoch
was opened with. -/
theorem inheritAggregate_backed (hP : CollisionFree P) (hS : S.Sound d slotsPerEpoch streamVk)
    {w : StreamFinalWitness P} {t : Contents P} {total : UInt64} (K : Keyring M d t)
    {anchor : EpochAnchor P} {running : Attested P}
    (hacc : w.accumulatorCommitment = P.commitment (t.accRoot d) total)
    (hanchor : openEpoch S w.aggregate w.epochDiff w.epochDiffProof w.committee w.committeeProof
      w.accumulatorCommitment w.targetEpoch = .ok anchor)
    (h : inheritAggregate S w = .ok running) :
    ∃ committees, Committee.root committees = .ok anchor.committeeRoot ∧
      ∃ B : Buckets M d t committees, running.Backed K B w.link := by
  rcases inheritAggregate_eq_ok h with ⟨hnone, rfl⟩ |
    ⟨aggregate, hsome, ⟨proof, hproof⟩, hvk, hcommitment, -, hdigest, hmiller, rfl⟩
  · rw [hnone] at hanchor
    obtain ⟨committee, hproof, hcommittee, hroot, -⟩ :=
      committeeLink_eq_ok (openEpoch_none_eq_ok hanchor).2
    obtain ⟨committees, hcommittees, ⟨B⟩⟩ :=
      committee_buckets (M := M) hP hS hproof (hcommittee.trans hacc)
    exact ⟨committees, hroot ▸ hcommittees, B, .zero⟩
  · rw [hsome] at hanchor
    obtain rfl := Guest.pure_eq_ok.mp hanchor
    obtain ⟨committees, hroot, B, hB⟩ := (hS _ _ _ hproof).aggregate_backed hP M aggregate rfl rfl
      hvk t total K w.link (hcommitment.trans hacc) hdigest
    exact ⟨committees, hroot, B, hB _ hmiller⟩

/-- The whole count of a final proof is at most what its Miller accumulator makes
the attesters' stake, once the final exponentiation has passed. -/
theorem streamFinalCount_le (hP : CollisionFree P) (hS : S.Sound d slotsPerEpoch streamVk)
    {w : StreamFinalWitness P} {t : Contents P} (K : Keyring M d t) {anchor : EpochAnchor P}
    {counted : Attested P} (hacc : w.accRoot = t.accRoot d)
    (h : streamFinalCount S w d = .ok (anchor, counted))
    (hexp : P.finalExpIsOne counted.miller = true) :
    counted.attestingBalance.toNat ≤ ∑ i ∈ attesters K w.link, (t.balance i).toNat := by
  obtain ⟨hcommitment, hanchor, aggregated, grouped, haggregated, hgroups, htail⟩ :=
    streamFinalCount_eq_ok h
  rw [hacc] at hcommitment
  obtain ⟨committees, hroot, B, hB⟩ :=
    inheritAggregate_backed hP hS K hcommitment.symm hanchor haggregated
  rw [← hcommitment] at hgroups
  have hgrouped := absorbGroups_backed hP hS hroot hB hgroups
  have hsigned := (M.finalExpIsOne_iff _).mp hexp
  rcases countTail_eq_ok htail with rfl | ⟨tail, hrun, hmask, hbalance, hmiller⟩
  · exact Backed.le_attesters hgrouped hsigned
  · have hcounted : (grouped.join tail).Backed K B w.link :=
      hgrouped.join (verifyAttestations_backed hP K B hacc hroot hrun) hmask
    rw [hmiller] at hsigned
    rw [hbalance]
    exact Backed.le_attesters hcounted hsigned

/-- **Supermajority soundness.** Over every tree of runs, the balance a final
proof compares with two thirds of the total is at most the stake of the validators
of the accumulator that signed an attestation from the previous justified
checkpoint to the target, each counted once. -/
theorem verifyStreamFinalWith_supermajority (hP : CollisionFree P)
    (hS : S.Sound d slotsPerEpoch streamVk) {w : StreamFinalWitness P} {out : StreamFinalOutput P}
    {t : Contents P} (K : Keyring M d t) (hacc : w.accRoot = t.accRoot d)
    (h : verifyStreamFinalWith S w d slotsPerEpoch = .ok out) :
    ∃ anchor counted, streamFinalCount S w d = .ok (anchor, counted) ∧
      IsSupermajority counted.attestingBalance w.totalActiveBalance ∧
      counted.attestingBalance.toNat ≤ ∑ i ∈ attesters K w.link, (t.balance i).toNat := by
  obtain ⟨anchor, counted, hcount, hexp, hsuper, -⟩ := verifyStreamFinalWith_eq_ok h
  exact ⟨anchor, counted, hcount, hsuper, streamFinalCount_le hP hS K hacc hcount hexp⟩

/-! ## An epoch over the free instance

Two keys. Validator 0 has signed two attestations, one for each of two blocks; the
other key signs whatever it is asked to. Validator 0 alone is the registry of
epochs 1 and 2, which it justifies, the first in a batch and the second in a final
proof. -/

namespace Formal

/-- The final proof's key. -/
def finalVk : ProgramVk := ⟨1, 2, 3, 4⟩

/-- A chunk nothing depends on. -/
def blank : Term := .bytes []

def blanks (n : ℕ) : List Term := List.replicate n blank

/-- Registries: validator 0 alone, and beside a validator with the other key. -/
def registries : ℕ → List ValidatorResponse
  | 0 => [validator 0 32]
  | 1 => [validator 0 32, validator 1 96]
  | _ => [validator 0 32, validator 1 100]

/-- The accumulator of a registry. Everyone in it is active at every epoch. -/
def contentsAt (S : Scenario) (k : ℕ) : Contents (formal S) := registryContents _ (registries k) 1

def accRootAt (k : ℕ) : Digest := (contentsAt {} k).accRoot 1

def totalAt (k : ℕ) : UInt64 := (contentsAt {} k).totalActiveBalance 1

def commitmentAt (k : ℕ) : Digest := .commitment (accRootAt k) (totalAt k)

def stateRootAt (k : ℕ) : Term := stateRootOver (formal {}) 1 (registries k)

/-- The first block. -/
def genesis (S : Scenario) : BlockHeaderFields (formal S) := ⟨0, 0, blank, blank, blank⟩

def genesisRoot : Term := Ssz.blockHeaderRoot (formal {}) (genesis {})

/-- A header whose state records a slot: its block root beside nothing else, and
its state root beside the siblings `beside` of its ring buffer. -/
def recording (S : Scenario) (slot recorded : UInt64) (blockRoot stateRoot : Term)
    (beside : List Term) : Ssz.BoundaryAnchor (formal S) :=
  let block := Merkle.computeRoot Term.pair blockRoot (recorded % 8192).toNat (blanks 13)
  let state := Merkle.computeRoot Term.pair stateRoot (recorded % 8192).toNat beside
  -- Fields 5 and 6 have different parents, which are siblings.
  let blockSiblings := blanks 13 ++ [blank, .pair state blank] ++ blanks 4
  { justifiedHeader := ⟨slot, 0, blank, Merkle.computeRoot Term.pair blockRoot
      (Ssz.historyIndex Ssz.blockRootsField recorded) blockSiblings, blank⟩
    blockRootsSiblings := blockSiblings
    stateRootsSiblings := beside ++ [blank, .pair blank block] ++ blanks 4 }

/-- The siblings of slot 32's entry where slot 0 is blank and so is everything
else, and those of slot 0's. -/
def besideGenesis : List Term :=
  blanks 5 ++ [Merkle.computeRoot Term.pair blank 0 (blanks 5)] ++ blanks 7

/-- The second block, at slot 64. -/
def nextBlock (S : Scenario) : Ssz.BoundaryAnchor (formal S) :=
  recording S 64 32 genesisRoot (stateRootAt 0) besideGenesis

def nextRoot : Term := Ssz.blockHeaderRoot (formal {}) (nextBlock {}).justifiedHeader

def genesisVote (S : Scenario) : AttestationData (formal S) :=
  ⟨32, 0, genesisRoot, 0, genesisRoot, 1, genesisRoot⟩

def nextVote (S : Scenario) : AttestationData (formal S) :=
  ⟨64, 0, nextRoot, 1, genesisRoot, 2, nextRoot⟩

/-- What is signed for an attestation. -/
def voteRoot (data : AttestationData (formal {})) : Term :=
  computeSigningRoot (formal {}) (Ssz.attestationDataRoot (formal {}) data) blank

/-- The digests the committee witnesses name, and who signed what. -/
def twoKeys : Scenario where
  digests := [commitmentAt 0, accRootAt 0, commitmentAt 1, accRootAt 1, commitmentAt 2, accRootAt 2,
    .zero, .leaf (key 0) 32]
  signed k m := k = 0 && (m = voteRoot (genesisVote {}) || m = voteRoot (nextVote {})) || k = 1

/-- The committee of slot 0: validator 0 alone, or the other one alone where there is one. -/
def committeeAt (k : ℕ) : CommitteeAggregate (formal twoKeys) :=
  if k = 0 then ⟨key 0, 32⟩ else ⟨key 1, totalAt k - 32⟩

def committeeRootAt (k : ℕ) : Digest :=
  PerfectTree.root Digest.node Committee.treeDepth (Committee.slotLeaf [some (committeeAt k)])

/-- One member in slot 0, opened beside one sibling. -/
def committeeWords (k : ℕ) (epoch index sibling : UInt64) : List UInt64 :=
  [UInt64.ofNat (2 * k), 0, 0, 0, UInt64.ofNat (2 * k + 1), 0, 0, 0, epoch, totalAt k, 1, 1] ++
    (index :: index :: List.replicate 11 0) ++ [(committeeAt k).balance, 0] ++ [sibling, 0, 0, 0]

def committeeOutAt (k : ℕ) (epoch : UInt64) : CommitteeOutput (formal twoKeys) :=
  ⟨commitmentAt k, epoch, committeeRootAt k⟩

/-- The slot every epoch counts: the whole committee of slot 0 attests the link. -/
def wholeSlot (k : ℕ) (slot : UInt64) (link : Link (formal twoKeys)) :
    SlotComplementWitness (formal twoKeys) where
  slotInEpoch := 0
  committee := committeeAt k
  primary := [⟨slot, 0, link.targetRoot, link.sourceEpoch, link.sourceRoot, link.targetEpoch,
    link.targetRoot, zeroBytes 96, []⟩]
  secondary := []
  absentees := []

/-- What opens slot 0 of a committee tree with no other slot. -/
def slotZeroProof : List Digest := [.zero, emptyRoot 1, emptyRoot 2, emptyRoot 3, emptyRoot 4]

/-- The proof system that accepts a table of outputs. -/
def ofTable (table : List (ProgramVk × PublicBytes (formal twoKeys))) :
    ProofSystem (formal twoKeys) :=
  fun _ vk publics => decide ((vk, publics) ∈ table)

theorem sound_ofTable {table : List (ProgramVk × PublicBytes (formal twoKeys))}
    (h : ∀ entry ∈ table, Accepted d slotsPerEpoch streamVk entry.1 entry.2) :
    (ofTable table).Sound d slotsPerEpoch streamVk := by
  intro proof vk publics haccepted
  exact h (vk, publics) (of_decide_eq_true haccepted)

theorem accepted_committeeOutAt {k : ℕ} {epoch : UInt64} (index sibling : UInt64)
    (h : ∃ out, Committee.verify (committeeWords k epoch index sibling) 1 = .ok out ∧
      out.publicBytes = (committeeOutAt k epoch).publicBytes) :
    Accepted 1 slotsPerEpoch streamVk committeeProgramVk (committeeOutAt k epoch).publicBytes := by
  obtain ⟨out, run, hpublics⟩ := h
  exact hpublics ▸ .committee run

/-! ### Epoch 1, justified in a batch -/

def genesisSlot : SlotProofWitness (formal twoKeys) where
  accumulatorCommitment := commitmentAt 0
  committeeRoot := committeeRootAt 0
  sourceEpoch := 0
  sourceRoot := genesisRoot
  targetEpoch := 1
  targetRoot := genesisRoot
  signingDomain := blank
  accRoot := accRootAt 0
  totalActiveBalance := totalAt 0
  slots := [wholeSlot 0 32 ⟨0, genesisRoot, 1, genesisRoot⟩]
  accMultiProof := []
  committeeMultiProof := slotZeroProof

def genesisSlotOut : SlotProofOutput (formal twoKeys) :=
  ⟨commitmentAt 0, committeeRootAt 0, 0, genesisRoot, 1, genesisRoot, 32, 1⟩

def genesisJustification : JustificationWitness (formal twoKeys) where
  accumulatorCommitment := commitmentAt 0
  sourceEpoch := 0
  sourceRoot := genesisRoot
  targetEpoch := 1
  targetRoot := genesisRoot
  totalActiveBalance := totalAt 0
  accRoot := accRootAt 0
  justificationProgramVk := justificationProgramVk
  committee := some (committeeOutAt 0 1)
  committeeProof := [1]
  previous := none
  previousProof := []
  slotProofOutputs := [genesisSlotOut]
  slotProofs := [[1]]

def genesisJustificationOut : JustificationOutput (formal twoKeys) :=
  ⟨commitmentAt 0, committeeRootAt 0, 0, genesisRoot, 1, genesisRoot, 32, 1, true,
    justificationProgramVk⟩

/-- The justification, over its slot proof and its committee proof. -/
theorem accepted_genesisJustification :
    Accepted 1 slotsPerEpoch streamVk justificationProgramVk
      genesisJustificationOut.publicBytes := by
  have hslot : Accepted 1 slotsPerEpoch streamVk slotProgramVk genesisSlotOut.publicBytes := by
    obtain ⟨out, run, hpublics⟩ : ∃ out, verifySlotProofWithDepth genesisSlot 1 = .ok out ∧
        out.publicBytes = genesisSlotOut.publicBytes := by decide +kernel
    exact hpublics ▸ .slot run
  have hcommittee : Accepted 1 slotsPerEpoch streamVk committeeProgramVk
      (committeeOutAt 0 1).publicBytes := accepted_committeeOutAt 0 6 (by decide +kernel)
  obtain ⟨out, run, hpublics⟩ : ∃ out, verifyJustification
      (ofTable [(slotProgramVk, genesisSlotOut.publicBytes),
        (committeeProgramVk, (committeeOutAt 0 1).publicBytes)]) genesisJustification = .ok out ∧
      out.publicBytes = genesisJustificationOut.publicBytes := by decide +kernel
  rw [← hpublics]
  exact .justification (sound_ofTable (by simp [hslot, hcommittee])) run

/-! ### Epoch 2, justified in a final proof -/

/-- What a diff between two of the registries publishes. -/
def diffOut (j k : ℕ) (epoch : UInt64) : EpochDiffOutput (formal twoKeys) :=
  ⟨commitmentAt j, stateRootAt j, epoch, commitmentAt k, accRootAt k, totalAt k, stateRootAt k,
    epoch + 1⟩

theorem accepted_diffOut {j k : ℕ} {epoch : UInt64} (w : EpochDiffWitness (formal twoKeys))
    (h : ∃ out, verifyEpochDiffWithDepth w 1 1 = .ok out ∧
      out.publicBytes = (diffOut j k epoch).publicBytes) :
    EpochDiffAccepted 1 (diffOut j k epoch) := by
  obtain ⟨out, run, hpublics⟩ := h
  exact ⟨w, 1, EpochDiffOutput.publicBytes_injective hpublics ▸ run⟩

/-- Validator 0 is written again as it was. -/
def idleDiff : EpochDiffWitness (formal twoKeys) :=
  .between 1 1 (registries 0) (registries 0) 1 2
    [.ofRecords 0 false (validator 0 32) (validator 0 32) [.zero]] [.bytes (zeroBytes 32).1]
    [.bytes (zeroBytes 32).1]

/-- A final proof that counts slot 0 of its epoch inline and nothing else. -/
def inlineFinal (j k : ℕ) (boundary : Ssz.BoundaryAnchor (formal twoKeys))
    (previous : PreviousJustification (formal twoKeys)) : StreamFinalWitness (formal twoKeys) :=
  let targetEpoch := previous.targetEpoch + 1
  let targetRoot := Ssz.blockHeaderRoot (formal twoKeys) boundary.justifiedHeader
  { accumulatorCommitment := commitmentAt k
    targetEpoch
    targetRoot
    signingDomain := blank
    accRoot := accRootAt k
    totalActiveBalance := totalAt k
    streamProgramVk := finalVk
    epochDiff := some (diffOut j k previous.targetEpoch)
    epochDiffProof := [1]
    committee := some (committeeOutAt k targetEpoch)
    committeeProof := [1]
    aggregate := none
    aggregateProof := []
    aggregateMiller := []
    groups := []
    groupProofs := []
    groupMillers := []
    tail := [wholeSlot k boundary.justifiedHeader.slot
      ⟨previous.targetEpoch, previous.targetRoot, targetEpoch, targetRoot⟩]
    tailAccMultiProof := []
    tailCommitteeMultiProof := slotZeroProof
    previousJustification := previous
    previousJustificationProof := [1]
    boundary }

def nextFinal : StreamFinalWitness (formal twoKeys) :=
  inlineFinal 0 0 (nextBlock twoKeys) (.batch genesisJustificationOut)

/-- Every child the final proof stands on. -/
def nextTable : List (ProgramVk × PublicBytes (formal twoKeys)) :=
  [(justificationProgramVk, genesisJustificationOut.publicBytes),
    (committeeProgramVk, (committeeOutAt 0 2).publicBytes),
    (epochDiffProgramVk, (diffOut 0 0 1).publicBytes)]

theorem accepted_idleDiff : EpochDiffAccepted 1 (diffOut 0 0 1) :=
  accepted_diffOut idleDiff (by decide +kernel)

theorem sound_nextTable : (ofTable nextTable).Sound 1 slotsPerEpoch finalVk := by
  have hcommittee : Accepted 1 slotsPerEpoch finalVk committeeProgramVk
      (committeeOutAt 0 2).publicBytes := accepted_committeeOutAt 0 6 (by decide +kernel)
  have hdiff : Accepted 1 slotsPerEpoch finalVk epochDiffProgramVk (diffOut 0 0 1).publicBytes :=
    .epochDiff accepted_idleDiff
  exact sound_ofTable (by simp [nextTable, accepted_genesisJustification, hcommittee, hdiff])

/-! ### A second validator joins -/

/-- A validator with the other key joins. -/
def joins : EpochDiffWitness (formal twoKeys) :=
  .between 1 1 (registries 0) (registries 1) 1 2
    [.ofRecords 1 true (validator 1 96) (validator 1 96) [.leaf (key 0) 32]]
    [Ssz.validatorHashTreeRoot _ ((validator 0 32).fieldLeaves _)]
    [Ssz.validatorHashTreeRoot _ ((validator 0 32).fieldLeaves _)]

theorem accepted_joins : EpochDiffAccepted 1 (diffOut 0 1 1) :=
  accepted_diffOut joins (by decide +kernel)

/-- Both validators sit in slot 0 of epoch 2. -/
def bothCommittee : CommitteeAggregate (formal twoKeys) := ⟨fun i => key 0 i + key 1 i, 128⟩

def bothOut : CommitteeOutput (formal twoKeys) :=
  ⟨commitmentAt 1, 2,
    PerfectTree.root Digest.node Committee.treeDepth (Committee.slotLeaf [some bothCommittee])⟩

def bothWords : List UInt64 :=
  [2, 0, 0, 0, 3, 0, 0, 0, 2, totalAt 1, 2, 0] ++ (0 :: 0 :: List.replicate 11 0) ++ [32, 0] ++
    (1 :: 1 :: List.replicate 11 0) ++ [96, 0]

theorem accepted_bothOut :
    Accepted 1 slotsPerEpoch finalVk committeeProgramVk bothOut.publicBytes := by
  obtain ⟨out, run, hpublics⟩ : ∃ out, Committee.verify bothWords 1 = .ok out ∧
      out.publicBytes = bothOut.publicBytes := by decide +kernel
  exact hpublics ▸ .committee run

/-- The final proof of epoch 2: the second validator attests, and the first one, who is opened in
the accumulator beside it, is absent. -/
def joinedFinal : StreamFinalWitness (formal twoKeys) :=
  { inlineFinal 0 1 (nextBlock twoKeys) (.batch genesisJustificationOut) with
    committee := some bothOut
    tail := [{ wholeSlot 1 64 ⟨1, genesisRoot, 2, nextRoot⟩ with
      committee := bothCommittee
      absentees := [⟨0, key 0, 32⟩] }]
    tailAccMultiProof := [.leaf (key 1) 96] }

def joinedTable : List (ProgramVk × PublicBytes (formal twoKeys)) :=
  [(justificationProgramVk, genesisJustificationOut.publicBytes),
    (committeeProgramVk, bothOut.publicBytes),
    (epochDiffProgramVk, (diffOut 0 1 1).publicBytes)]

theorem sound_joinedTable : (ofTable joinedTable).Sound 1 slotsPerEpoch finalVk := by
  have hdiff : Accepted 1 slotsPerEpoch finalVk epochDiffProgramVk (diffOut 0 1 1).publicBytes :=
    .epochDiff accepted_joins
  exact sound_ofTable (by
    simp [joinedTable, accepted_genesisJustification, accepted_bothOut, hdiff])

/-! ### Who owns what -/

/-- Validator `i` of every one of the registries has key `i`. -/
theorem contentsAt_eq_some {k i : ℕ} {l : AccLeaf (formal twoKeys)}
    (h : contentsAt twoKeys k i = some l) : ∃ hi : i < 4, l.pubkey = key ⟨i, hi⟩ := by
  match k, i with
  | 0, 0 | 1, 0 | _ + 2, 0 | 1, 1 | _ + 2, 1 =>
      obtain rfl := Option.some.inj h
      exact ⟨by decide, rfl⟩
  | 0, _ + 1 | 1, _ + 2 | _ + 2, _ + 2 => cases h

/-- And owns it. -/
def registryKeyring (k : ℕ) : Keyring (keyModel twoKeys) 1 (contentsAt twoKeys k) where
  owner := Fin.ofNat 4
  owner_inj i hi j hj _ _ h := by
    have hmod : i % 4 = j % 4 := congrArg Fin.val h
    omega
  coeff_owner i _ l hl := by
    obtain ⟨hi, hkey⟩ := contentsAt_eq_some hl
    show l.pubkey _ = 1
    rw [hkey]
    exact if_pos (Fin.ext (Nat.mod_eq_of_lt hi))
  coeff_other i _ l hl k hk := by
    obtain ⟨hi, hkey⟩ := contentsAt_eq_some hl
    show l.pubkey _ = 0
    rw [hkey]
    exact if_neg fun h => hk (h.trans (Fin.ext (Nat.mod_eq_of_lt hi).symm))

end Formal

/-- The final proof of epoch 2 compares 96 of 128, and 96 is at most the stake of its attesters. -/
theorem verifyStreamFinalWith_supermajority_joined :
    ∃ anchor counted, streamFinalCount (Formal.ofTable Formal.joinedTable) Formal.joinedFinal 1 =
        .ok (anchor, counted) ∧
      IsSupermajority counted.attestingBalance 128 ∧
      counted.attestingBalance.toNat ≤
        ∑ i ∈ attesters (Formal.registryKeyring 1) Formal.joinedFinal.link,
          ((Formal.contentsAt Formal.twoKeys 1).balance i).toNat := by
  obtain ⟨out, run, -⟩ : ∃ out, verifyStreamFinalWith (Formal.ofTable Formal.joinedTable)
      Formal.joinedFinal 1 32 = .ok out ∧ out.justifiedEpoch = 2 := by decide +kernel
  exact verifyStreamFinalWith_supermajority (Formal.formal_collisionFree _)
    Formal.sound_joinedTable (Formal.registryKeyring 1) rfl run

end Zkasper
