import Zkasper.Supermajority

/-! # Anchoring the accumulator

An epoch diff proves a registry delta between two claimed states and not that the
second is the successor of the first, so a prover can branch the accumulator onto
a fabricated validator set. What is meant to stop it is the consumer: every state
root the diffs passed through must be named as finalized by a final proof, and the
argument is that nobody can have that done without two thirds of the real
validator set.

Each final proof is counted against the accumulator its own epoch's diff has just
produced, though. `Confirms.anchored` is what the rule is worth: as long as the
prover's keys hold less than two thirds of every accumulator that a final proof
was counted against, only states of the canonical chain are named. Where they hold
more it is worth nothing, and two diffs and two final proofs confirm a fabricated
validator set (`Formal.confirms_fabricated`). -/

namespace Zkasper

open Bls Ssz Merkle

variable {P : Primitives} {M : KeyModel P}

/-! ## The canonical chain -/

/-- **A chain of blocks**: which headers are its blocks, and its state root at the
boundary of every epoch. The state of a block records the chain's own boundaries,
as far as it keeps them. -/
structure CanonicalChain (P : Primitives) (slotsPerEpoch : UInt64) where
  IsBlock : BlockHeaderFields P → Prop
  boundaryRoot : UInt64 → P.Bytes32
  records : ∀ h, IsBlock h → ∀ epoch, RecordsSlot h.slot (epoch * slotsPerEpoch) →
    History stateRootsField (epoch * slotsPerEpoch) (boundaryRoot epoch) h.stateRoot

namespace CanonicalChain

variable {slotsPerEpoch : UInt64} (chain : CanonicalChain P slotsPerEpoch)

/-- The root of one of the chain's blocks. -/
def HasRoot (root : P.Bytes32) : Prop := ∃ h, chain.IsBlock h ∧ blockHeaderRoot P h = root

/-- The owner of the key signs nothing but attestations of this chain: head and
target are blocks of it. -/
def OnlySigns (M : KeyModel P) (k : M.Key) : Prop :=
  ∀ m, M.Signed k m → ∃ (data : AttestationData P) (domain : P.Bytes32),
    m = computeSigningRoot P (attestationDataRoot P data) domain ∧
      chain.HasRoot data.beaconBlockRoot ∧ chain.HasRoot data.targetRoot

/-- The state root is the chain's at the boundary of the epoch, and a block of the
chain records it. -/
def Recorded (epoch : UInt64) (stateRoot : P.Bytes32) : Prop :=
  stateRoot = chain.boundaryRoot epoch ∧
    ∃ h, chain.IsBlock h ∧ RecordsSlot h.slot (epoch * slotsPerEpoch)

variable {chain}

/-- The target of an attestation such an owner signed, under whatever domain. -/
theorem OnlySigns.target (hP : CollisionFree P) {k : M.Key} (h : chain.OnlySigns M k)
    {data : AttestationData P} {domain : P.Bytes32}
    (hsigned : M.Signed k (computeSigningRoot P (attestationDataRoot P data) domain)) :
    chain.HasRoot data.targetRoot := by
  obtain ⟨data', domain', hroot, -, htarget⟩ := h _ hsigned
  obtain rfl := attestationDataRoot_injective hP (hP.sha256Pair hroot).1
  exact htarget

end CanonicalChain

/-! ## The prover's stake -/

section Stake

variable {d : ℕ} {t : Contents P}

open Classical in
/-- The balance of the leaves whose keys the prover owns. -/
noncomputable def ownedBalance (K : Keyring M d t) (owned : Set M.Key) : ℕ :=
  ∑ i ∈ (Finset.range (2 ^ d)).filter fun i => K.owner i ∈ owned, (t.balance i).toNat

/-- The prover's keys are short of two thirds of the total the accumulator commits to. -/
def ShortOfSupermajority (K : Keyring M d t) (owned : Set M.Key) : Prop :=
  3 * ownedBalance K owned < 2 * (t.totalActiveBalance d).toNat

/-- A supermajority that the prover's keys do not hold has an attester of another key. -/
theorem exists_attester_notMem {K : Keyring M d t} {owned : Set M.Key} {link : Link P}
    {attestingBalance : UInt64} (hshort : ShortOfSupermajority K owned)
    (hsuper : IsSupermajority attestingBalance (t.totalActiveBalance d))
    (hle : attestingBalance.toNat ≤ ∑ i ∈ attesters K link, (t.balance i).toNat) :
    ∃ i ∈ attesters K link, K.owner i ∉ owned := by
  classical
  by_contra hall
  have howned : attesters K link ⊆ (Finset.range (2 ^ d)).filter fun i => K.owner i ∈ owned := by
    intro i hi
    rw [Finset.mem_filter, Finset.mem_range]
    refine ⟨(mem_attesters.mp hi).1, ?_⟩
    by_contra hno
    exact hall ⟨i, hi, hno⟩
  have hsum : ∑ i ∈ attesters K link, (t.balance i).toNat ≤ ownedBalance K owned :=
    Finset.sum_le_sum_of_subset howned
  unfold ShortOfSupermajority at hshort
  unfold IsSupermajority at hsuper
  omega

/-- Contents with one commitment hold the same leaves. -/
theorem Contents.eq_of_boundCommitment (hP : CollisionFree P) {s t : Contents P}
    (h : s.boundCommitment d = t.boundCommitment d) : ∀ i < 2 ^ d, s i = t i := by
  intro i hi
  have hdigest := Contents.eq_of_accRoot hP (hP.commitment h).1 i hi
  cases ht : t i with
  | none =>
      rw [Contents.digest.eq_def t, ht] at hdigest
      exact Contents.eq_none_of_zero hP hdigest.symm
  | some l =>
      rw [Contents.digest.eq_def t, ht] at hdigest
      exact Contents.eq_of_leaf hP hdigest.symm

/-- Being short of two thirds is a property of the commitment. -/
theorem ShortOfSupermajority.of_eq (hP : CollisionFree P) {s : Contents P} {K : Keyring M d s}
    {owned : Set M.Key} (hshort : ShortOfSupermajority K owned)
    (h : s.boundCommitment d = t.boundCommitment d) :
    ∃ K' : Keyring M d t, ShortOfSupermajority K' owned := by
  classical
  have hsame := Contents.eq_of_boundCommitment hP h
  refine ⟨K.congr hsame, ?_⟩
  have howned : ownedBalance K owned = ownedBalance (K.congr hsame) owned := by
    unfold ownedBalance
    apply Finset.sum_congr rfl
    intro i hi
    have hlt : i < 2 ^ d := Finset.mem_range.mp (Finset.mem_filter.mp hi).1
    rw [Contents.balance, Contents.balance, hsame i hlt]
  unfold ShortOfSupermajority at hshort ⊢
  rw [← howned, ← (hP.commitment h).2]
  exact hshort

end Stake

/-! ## One final proof -/

section Final

variable {S : ProofSystem P} {d : ℕ} {slotsPerEpoch : UInt64} {streamVk : ProgramVk}
  {chain : CanonicalChain P slotsPerEpoch} {owned : Set M.Key}

/-- **What one final proof names**: counted against an accumulator in which the
prover's keys are short of two thirds, it names the chain's state at the boundary
it finalizes. -/
theorem StreamFinalAccepted.recorded (hP : CollisionFree P)
    (hsigners : ∀ k ∉ owned, chain.OnlySigns M k) {out : StreamFinalOutput P} {t : Contents P}
    (h : StreamFinalAccepted d slotsPerEpoch streamVk out)
    (hacc : out.nextAccumulatorCommitment = t.boundCommitment d) {K : Keyring M d t}
    (hshort : ShortOfSupermajority K owned) :
    chain.Recorded out.finalizedEpoch out.finalizedStateRoot := by
  obtain ⟨-, S, w, hS, hrun⟩ := h
  obtain ⟨anchor, counted, hcount, hexp, hsuper, hboundary, hnext, -, hjustified⟩ :=
    verifyStreamFinalWith_eq_ok hrun
  obtain ⟨hroot, htotal⟩ :=
    hP.commitment ((streamFinalCount_eq_ok hcount).1.trans (hnext.symm.trans hacc))
  rw [htotal] at hsuper
  -- Somebody else attested the target, so it is a block of the chain.
  obtain ⟨i, hi, hnot⟩ := exists_attester_notMem hshort hsuper
    (streamFinalCount_le hP hS K hroot hcount hexp)
  obtain ⟨data, ⟨-, -, -, htarget⟩, domain, hsigned⟩ := (mem_attesters.mp hi).2
  obtain ⟨h, hblock, hheader⟩ := (hsigners _ hnot).target hP hsigned
  -- The header that was opened is that block's, and its state has one entry for the boundary.
  obtain ⟨h', hheader', hslot, -, hstate⟩ := openBoundary_eq_ok hboundary
  have htargetRoot : data.targetRoot = out.justifiedRoot := htarget.trans hjustified.symm
  obtain rfl : h' = h :=
    blockHeaderRoot_injective hP (hheader'.trans (hheader.trans htargetRoot).symm)
  exact ⟨hstate.unique hP (chain.records h' hblock _ hslot), h', hblock, hslot⟩

end Final

/-! ## Whole chains of diffs -/

/-- **What a consumer confirms.** From the accumulator of a real registry, at a
boundary of the canonical chain, a list of accepted diffs linked by commitment,
state root and epoch, and accepted final proofs, the `k`-th over the two
accumulators of the `k`-th diff, such that every state root the diffs passed
through except the newest is named as finalized. The prover owns some keys, none
of them the registry's; whoever owns another key only signs attestations of the
canonical chain. -/
structure Confirms {slotsPerEpoch : UInt64} (chain : CanonicalChain P slotsPerEpoch)
    (owned : Set M.Key) (accDepth : ℕ) (streamVk : ProgramVk) (R : List ValidatorResponse)
    (epoch : UInt64)
    (diffs : List (EpochDiffOutput P)) (finals : List (StreamFinalOutput P)) : Prop where
  signers : ∀ k ∉ owned, chain.OnlySigns M k
  keys : ∃ K : Keyring M accDepth (registryContents P R epoch),
    ∀ i < 2 ^ accDepth, (registryContents P R epoch i).isSome → K.owner i ∉ owned
  boundary : ∃ sszDepth branch, HashesInto P sszDepth branch R (chain.boundaryRoot epoch)
  start : ∀ diff ∈ diffs.head?,
    diff.prevAccumulatorCommitment = (registryContents P R epoch).boundCommitment accDepth ∧
      diff.stateRoot1 = chain.boundaryRoot epoch ∧ diff.epoch1 = epoch
  accepted : ∀ diff ∈ diffs, EpochDiffAccepted accDepth diff
  linked : diffs.IsChain fun a b => a.accumulatorCommitment = b.prevAccumulatorCommitment ∧
    a.stateRoot2 = b.stateRoot1 ∧ a.epoch2 = b.epoch1
  finalized : ∀ final ∈ finals, StreamFinalAccepted accDepth slotsPerEpoch streamVk final
  paired : ∀ (k : ℕ) (final : StreamFinalOutput P), finals[k]? = some final →
    ∃ diff, diffs[k]? = some diff ∧ final.accumulatorCommitment = diff.prevAccumulatorCommitment ∧
      final.nextAccumulatorCommitment = diff.accumulatorCommitment
  named : ∀ diff ∈ diffs, ∃ final ∈ finals, final.finalizedStateRoot = diff.stateRoot1

namespace Confirms

variable {d : ℕ} {slotsPerEpoch : UInt64} {streamVk : ProgramVk}
  {chain : CanonicalChain P slotsPerEpoch} {owned : Set M.Key} {R : List ValidatorResponse}
  {epoch : UInt64} {diffs : List (EpochDiffOutput P)} {finals : List (StreamFinalOutput P)}

/-- Every final proof was counted against the commitment of some contents to their own sum. -/
theorem contents (hP : CollisionFree P)
    (h : Confirms chain owned d streamVk R epoch diffs finals)
    {final : StreamFinalOutput P} (hfinal : final ∈ finals) :
    ∃ t : Contents P, final.nextAccumulatorCommitment = t.boundCommitment d := by
  obtain ⟨k, hk⟩ := List.mem_iff_getElem?.mp hfinal
  obtain ⟨diff, hdiff, -, hnext⟩ := h.paired k final hk
  obtain ⟨-, t, -, -, hbound⟩ := diffChain_bound hP diffs (registryContents P R epoch) h.accepted
    (h.linked.imp fun _ _ hlink => hlink.1) (fun diff hhead => (h.start diff hhead).1) diff
    (List.mem_iff_getElem?.mpr ⟨k, hdiff⟩)
  exact ⟨t, hnext.trans hbound⟩

/-- **Anchoring.** In every confirmed chain of diffs: if the keys of every
accumulator that a final proof was counted against are distinct and independent,
and the prover's are short of two thirds of it, then every state root that is
named as finalized, those the diffs arrive at included, is the canonical chain's
at the boundary it is named for. -/
theorem anchored (hP : CollisionFree P)
    (h : Confirms chain owned d streamVk R epoch diffs finals)
    (hstake : ∀ final ∈ finals, ∀ t : Contents P,
      final.nextAccumulatorCommitment = t.boundCommitment d →
        ∃ K : Keyring M d t, ShortOfSupermajority K owned) :
    ∀ diff ∈ diffs, ∀ final ∈ finals, final.finalizedStateRoot = diff.stateRoot2 →
      chain.Recorded final.finalizedEpoch diff.stateRoot2 := by
  intro diff _ final hfinal hnames
  obtain ⟨t, ht⟩ := h.contents hP hfinal
  obtain ⟨K, hshort⟩ := hstake final hfinal t ht
  rw [← hnames]
  exact (h.finalized final hfinal).recorded hP h.signers ht hshort

end Confirms

/-! ## Two blocks, and two ways on from the first

Over the canonical chain the registry stays what it is and validator 0 justifies
the second block. The prover owns the other key: it branches the accumulator onto
a registry in which that key holds more than two thirds, and from there signs for
blocks of its own. -/

namespace Formal

/-- What opens slot 0 of the second block's state. -/
def slotZeroSiblings : List Term :=
  blanks 5 ++ [Merkle.computeRoot Term.pair (stateRootAt 0) 0 (blanks 5)] ++ blanks 7 ++
    [blank, .pair blank (Merkle.computeRoot Term.pair genesisRoot 32 (blanks 13))] ++ blanks 4

/-- A boundary before slot 64 is slot 0 or slot 32. -/
theorem boundary_lt {epoch : UInt64} (h : 64 > epoch * 32) : epoch * 32 = 0 ∨ epoch * 32 = 32 := by
  have hlt : (epoch * 32).toNat < 64 := UInt64.lt_iff_toNat_lt.mp h
  have hmul : (epoch * 32).toNat = epoch.toNat * 32 % 2 ^ 64 := UInt64.toNat_mul epoch 32
  rw [← UInt64.toNat_inj, ← UInt64.toNat_inj]
  show (epoch * 32).toNat = 0 ∨ (epoch * 32).toNat = 32
  omega

/-- The canonical chain. -/
def twoBlocks : CanonicalChain (formal twoKeys) 32 where
  IsBlock h := h = genesis twoKeys ∨ h = (nextBlock twoKeys).justifiedHeader
  boundaryRoot epoch := if epoch * 32 = 32 then stateRootAt 0 else blank
  records := by
    rintro h (rfl | rfl) epoch ⟨hlt, -⟩
    · exact absurd (UInt64.lt_iff_toNat_lt.mp hlt) (Nat.not_lt_zero _)
    · rcases boundary_lt hlt with hslot | hslot
      · rw [hslot, if_neg (by decide)]
        exact ⟨slotZeroSiblings, rfl⟩
      · rw [hslot, if_pos rfl]
        exact ⟨(nextBlock twoKeys).stateRootsSiblings, rfl⟩

/-- The prover's key. -/
def proverKeys : Set (keyModel twoKeys).Key := {k | k = (1 : Fin 4)}

/-- Nobody else signs anything but the two attestations. -/
theorem onlySigns : ∀ k ∉ proverKeys, twoBlocks.OnlySigns (keyModel twoKeys) k := by
  intro k hk m hm
  have hgenesis : twoBlocks.HasRoot genesisRoot := ⟨genesis twoKeys, .inl rfl, rfl⟩
  have hnext : twoBlocks.HasRoot nextRoot :=
    ⟨(nextBlock twoKeys).justifiedHeader, .inr rfl, rfl⟩
  have hsigned : twoKeys.signed k m = true := hm
  simp only [twoKeys, Bool.or_eq_true, Bool.and_eq_true, decide_eq_true_eq] at hsigned
  rcases hsigned with ⟨-, rfl | rfl⟩ | hprover
  · exact ⟨genesisVote twoKeys, blank, rfl, hgenesis, hgenesis⟩
  · exact ⟨nextVote twoKeys, blank, rfl, hnext, hnext⟩
  · exact absurd hprover hk

/-- The registry the chain starts from. -/
theorem keys_registry : ∃ K : Keyring (keyModel twoKeys) 1 (registryContents _ (registries 0) 1),
    ∀ i < 2 ^ 1, (registryContents (formal twoKeys) (registries 0) 1 i).isSome →
      K.owner i ∉ proverKeys := by
  refine ⟨registryKeyring 0, fun i _ hocc => ?_⟩
  match i with
  | 0 => exact (by decide : ¬ (0 : Fin 4) = 1)
  | _ + 1 => cases hocc

/-- It is the registry of the boundary of epoch 1. -/
theorem boundary_registry : ∃ sszDepth branch,
    HashesInto (formal twoKeys) sszDepth branch (registries 0) (twoBlocks.boundaryRoot 1) :=
  ⟨1, 6, by decide, List.replicate 6 (Primitives.zeroChunk _), rfl, rfl⟩

theorem accepted_final {table : List (ProgramVk × PublicBytes (formal twoKeys))}
    {w : StreamFinalWitness (formal twoKeys)} {out : StreamFinalOutput (formal twoKeys)}
    (hsound : (ofTable table).Sound 1 32 finalVk) (hvk : out.programVk = finalVk)
    (h : ∃ out', verifyStreamFinalWith (ofTable table) w 1 32 = .ok out' ∧
      out'.publicBytes = out.publicBytes) : StreamFinalAccepted 1 32 finalVk out := by
  obtain ⟨out', run, hpublics⟩ := h
  exact ⟨hvk, ofTable table, w, hsound, StreamFinalOutput.publicBytes_injective hpublics ▸ run⟩

/-! ### The canonical way -/

def nextFinalOut : StreamFinalOutput (formal twoKeys) :=
  ⟨commitmentAt 0, commitmentAt 0, 1, genesisRoot, stateRootAt 0, 2, nextRoot, finalVk⟩

/-- One diff, which changes nothing, and the final proof of its epoch. -/
theorem confirms_next : Confirms twoBlocks proverKeys 1 finalVk (registries 0) 1 [diffOut 0 0 1]
    [nextFinalOut] where
  signers := onlySigns
  keys := keys_registry
  boundary := boundary_registry
  start diff hdiff := by
    obtain rfl := Option.some.inj hdiff
    exact ⟨rfl, rfl, rfl⟩
  accepted diff hdiff := by
    obtain rfl := List.mem_singleton.mp hdiff
    exact accepted_idleDiff
  linked := List.isChain_singleton _
  finalized final hfinal := by
    obtain rfl := List.mem_singleton.mp hfinal
    exact accepted_final (w := nextFinal) sound_nextTable rfl (by decide +kernel)
  paired k final hfinal := by
    match k with
    | 0 =>
        obtain rfl := Option.some.inj hfinal
        exact ⟨_, rfl, rfl, rfl⟩
    | _ + 1 => cases hfinal
  named diff hdiff := by
    obtain rfl := List.mem_singleton.mp hdiff
    exact ⟨_, List.mem_singleton_self _, rfl⟩

/-- The prover owns nothing of the registry. -/
theorem short_registry : ShortOfSupermajority (registryKeyring 0) proverKeys := by
  classical
  have hzero : ownedBalance (registryKeyring 0) proverKeys = 0 := by
    unfold ownedBalance
    apply Finset.sum_eq_zero
    intro i hi
    obtain ⟨-, howned⟩ := Finset.mem_filter.mp hi
    match i with
    | 0 => exact absurd howned (by decide : ¬ (0 : Fin 4) = 1)
    | _ + 1 => rfl
  unfold ShortOfSupermajority
  rw [hzero]
  exact (by decide : 0 < 2 * (totalAt 0).toNat)

/-- The state the diff arrives at is named, and it is the canonical chain's. -/
theorem anchored_next : twoBlocks.Recorded 1 (stateRootAt 0) := by
  refine confirms_next.anchored (formal_collisionFree _) ?_ (diffOut 0 0 1)
    (List.mem_singleton_self _) nextFinalOut (List.mem_singleton_self _) rfl
  intro final hfinal t ht
  obtain rfl := List.mem_singleton.mp hfinal
  exact short_registry.of_eq (formal_collisionFree _) ht

/-! ### The prover's way -/

/-- The balance of the validator with the prover's key grows. -/
def grows : EpochDiffWitness (formal twoKeys) :=
  .between 1 1 (registries 1) (registries 2) 2 3
    [.ofRecords 1 false (validator 1 96) (validator 1 100) [.leaf (key 0) 32]]
    [validatorHashTreeRoot _ ((validator 0 32).fieldLeaves _)]
    [validatorHashTreeRoot _ ((validator 0 32).fieldLeaves _)]

/-- A block of the prover's own, at slot 64, whose state records the first block
and its real state. -/
def madeBlock (S : Scenario) : BoundaryAnchor (formal S) :=
  recording S 64 32 genesisRoot (stateRootAt 0) (blanks 13)

def madeRoot : Term := blockHeaderRoot (formal {}) (madeBlock {}).justifiedHeader

/-- The next one, whose state records a made-up one. -/
def madeNext (S : Scenario) : BoundaryAnchor (formal S) :=
  recording S 96 64 madeRoot (stateRootAt 1) (blanks 13)

/-- The real first block is finalized, against the accumulator the prover's diff
has just produced. -/
def madeFinal : StreamFinalOutput (formal twoKeys) :=
  ⟨commitmentAt 0, commitmentAt 1, 1, genesisRoot, stateRootAt 0, 2, madeRoot, finalVk⟩

/-- And then the made one. -/
def madeNextFinal : StreamFinalOutput (formal twoKeys) :=
  ⟨commitmentAt 1, commitmentAt 2, 2, madeRoot, stateRootAt 1, 3,
    blockHeaderRoot (formal twoKeys) (madeNext twoKeys).justifiedHeader, finalVk⟩

def madeTable : List (ProgramVk × PublicBytes (formal twoKeys)) :=
  [(justificationProgramVk, genesisJustificationOut.publicBytes),
    (committeeProgramVk, (committeeOutAt 1 2).publicBytes),
    (epochDiffProgramVk, (diffOut 0 1 1).publicBytes)]

def madeNextTable : List (ProgramVk × PublicBytes (formal twoKeys)) :=
  [(finalVk, madeFinal.publicBytes), (committeeProgramVk, (committeeOutAt 2 3).publicBytes),
    (epochDiffProgramVk, (diffOut 1 2 2).publicBytes)]

/-- Both diffs are accepted. -/
theorem accepted_madeDiffs :
    EpochDiffAccepted 1 (diffOut 0 1 1) ∧ EpochDiffAccepted 1 (diffOut 1 2 2) := by
  constructor
  · exact accepted_joins
  · exact accepted_diffOut grows (by decide +kernel)

/-- And so are the committees of the made-up registries. -/
theorem accepted_madeCommittees :
    Accepted 1 32 finalVk committeeProgramVk (committeeOutAt 1 2).publicBytes ∧
      Accepted 1 32 finalVk committeeProgramVk (committeeOutAt 2 3).publicBytes := by
  constructor
  · exact accepted_committeeOutAt 1 7 (by decide +kernel)
  · exact accepted_committeeOutAt 1 7 (by decide +kernel)

theorem sound_madeTable : (ofTable madeTable).Sound 1 32 finalVk := by
  have hdiff : Accepted 1 32 finalVk epochDiffProgramVk (diffOut 0 1 1).publicBytes :=
    .epochDiff accepted_madeDiffs.1
  exact sound_ofTable (by
    simp [madeTable, accepted_genesisJustification, accepted_madeCommittees.1, hdiff])

theorem accepted_madeFinal : StreamFinalAccepted 1 32 finalVk madeFinal :=
  accepted_final (w := inlineFinal 0 1 (madeBlock twoKeys) (.batch genesisJustificationOut))
    sound_madeTable rfl (by decide +kernel)

theorem sound_madeNextTable : (ofTable madeNextTable).Sound 1 32 finalVk := by
  have hprevious : Accepted 1 32 finalVk finalVk madeFinal.publicBytes := by
    obtain ⟨-, S, w, hsound, run⟩ := accepted_madeFinal
    exact .streamFinal hsound run
  have hdiff : Accepted 1 32 finalVk epochDiffProgramVk (diffOut 1 2 2).publicBytes :=
    .epochDiff accepted_madeDiffs.2
  exact sound_ofTable (by simp [madeNextTable, hprevious, accepted_madeCommittees.2, hdiff])

theorem accepted_madeNextFinal : StreamFinalAccepted 1 32 finalVk madeNextFinal :=
  accepted_final (w := inlineFinal 1 2 (madeNext twoKeys) (.stream madeFinal)) sound_madeNextTable
    rfl (by decide +kernel)

/-- **A fabricated validator set, confirmed**: everything the consumer asks for is
there, and the state the first diff arrives at, which a final proof names, is the
canonical chain's at no boundary. -/
theorem confirms_fabricated :
    Confirms twoBlocks proverKeys 1 finalVk (registries 0) 1 [diffOut 0 1 1, diffOut 1 2 2]
        [madeFinal, madeNextFinal] ∧
      ¬ ∀ diff ∈ [diffOut 0 1 1, diffOut 1 2 2], ∀ final ∈ [madeFinal, madeNextFinal],
        final.finalizedStateRoot = diff.stateRoot2 →
          ∃ epoch, twoBlocks.Recorded epoch diff.stateRoot2 := by
  constructor
  · exact {
      signers := onlySigns
      keys := keys_registry
      boundary := boundary_registry
      start := fun diff hdiff => by
        obtain rfl := Option.some.inj hdiff
        exact ⟨rfl, rfl, rfl⟩
      accepted := List.forall_mem_cons.mpr
        ⟨accepted_madeDiffs.1, List.forall_mem_singleton.mpr accepted_madeDiffs.2⟩
      linked := List.isChain_pair.mpr ⟨rfl, rfl, rfl⟩
      finalized := List.forall_mem_cons.mpr
        ⟨accepted_madeFinal, List.forall_mem_singleton.mpr accepted_madeNextFinal⟩
      paired := fun k final hfinal => by
        match k with
        | 0 | 1 =>
            obtain rfl := Option.some.inj hfinal
            exact ⟨_, rfl, rfl, rfl⟩
        | _ + 2 => cases hfinal
      named := List.forall_mem_cons.mpr ⟨⟨madeFinal, List.mem_cons_self, rfl⟩,
        List.forall_mem_singleton.mpr
          ⟨madeNextFinal, List.mem_cons_of_mem _ List.mem_cons_self, rfl⟩⟩ }
  · intro hall
    obtain ⟨epoch, hroot, -⟩ := hall (diffOut 0 1 1) List.mem_cons_self madeNextFinal
      (List.mem_cons_of_mem _ List.mem_cons_self) rfl
    have hstate : stateRootAt 1 ≠ stateRootAt 0 := by decide
    have hblank : stateRootAt 1 ≠ blank := by decide
    have hcases : twoBlocks.boundaryRoot epoch = stateRootAt 0 ∨
        twoBlocks.boundaryRoot epoch = blank := ite_eq_or_eq _ _ _
    rcases hcases with h | h
    · exact hstate (hroot.trans h)
    · exact hblank (hroot.trans h)

end Formal
end Zkasper
