import Zkasper.EpochDiff
import Zkasper.WitnessGen.StateDiff

/-! # Assembling an epoch diff

`build_held`: from two registries, the accumulator tree of the first and what the last
epoch cached, the witness the epoch-diff circuit takes, the tree moved on to the second
registry, and the cache for the epoch after.

Three things are computed on this side in another way than in the circuit: the total is
a full sum, the SSZ root comes from patching the cached roots, and the accumulator from
one update after another. They agree (`buildHeld_agrees_iff`) wherever both sides read the
keys of the changed validators alike: what is assembled is accepted, and the tree left behind
is the one a build over the second registry gives, so a step leaves what the next one starts
from. The host reads a key with `blst` and the circuit with its own library, and the two do
not take the same bytes for a key. -/

namespace Zkasper

open Merkle PerfectTree Ssz

variable {P : Primitives}

/-! ## What it reads and what it caches -/

/-- The node: what it answers about a state, and the field roots of a raw one. Which fields
a raw state has besides its registry is nothing the diff looks into. -/
structure BeaconApi (P : Primitives) where
  /-- A raw SSZ-encoded state. -/
  RawState : Type
  getStateSsz : UInt64 → Except String (Option RawState)
  getStateRoot : UInt64 → Except String (Option P.Bytes32)
  getHeader : UInt64 → Except String (BlockHeaderFields P)
  /-- The hash tree roots of the fields, in the layout of the fork at a slot. -/
  fieldHtrs : RawState → UInt64 → Except String (ℕ → P.Bytes32)

/-- Cached state from a processed epoch, used to speed up the next epoch diff. -/
structure EpochState (P : Primitives) where
  slot : UInt64
  stateRoot : P.Bytes32
  stateToValidatorsSiblings : List P.Bytes32
  /-- Per-validator hash tree roots, one per validator. -/
  validatorRoots : List P.Bytes32
  /-- Root of the validators data tree, before its length is mixed in. -/
  sszDataRoot : P.Bytes32
  numValidators : UInt64

/-- The part of the chain's configuration the diff reads. -/
structure DiffConfig where
  validatorsTreeDepth : ℕ
  slotsPerEpoch : UInt64

/-! ## State proofs -/

/-- Parse a raw state and compute its root and the branch of the validators field, whose own
root is handed in. -/
def parseStateProof (api : BeaconApi P) (raw : api.RawState) (validatorsHtr : P.Bytes32)
    (slot : UInt64) : Except String (P.Bytes32 × List P.Bytes32) := do
  let fieldHtrs ← api.fieldHtrs raw slot
  return buildStateTreeAndExtract
    (Function.update fieldHtrs beaconStateValidatorsFieldIndex validatorsHtr)
    beaconStateValidatorsFieldIndex

/-- The root the node has for a slot: its own answer, or the header's of a node without one. -/
def expectedStateRoot (api : BeaconApi P) (slot : UInt64) (context : String) :
    Except String P.Bytes32 := do
  match ← api.getStateRoot slot with
  | some root => return root
  | none =>
      let header ← (api.getHeader slot).mapError fun _ => context
      return header.stateRoot

/-- The proof out of a raw state, checked against the root the node has for its slot. -/
def checkedStateProof (api : BeaconApi P) (raw : api.RawState) (validatorsHtr : P.Bytes32)
    (slot : UInt64) (context mismatch : String) : Except String (P.Bytes32 × List P.Bytes32) := do
  let expected ← expectedStateRoot api slot context
  let (stateRoot, siblings) ← parseStateProof api raw validatorsHtr slot
  Guest.assert (stateRoot = expected) mismatch
  return (stateRoot, siblings)

/-- The old state proof: from the cache if available. -/
def oldStateProof (api : BeaconApi P) (oldState : EpochState P) (oldDataRoot : P.Bytes32) :
    Except String (P.Bytes32 × List P.Bytes32) := do
  if oldState.stateToValidatorsSiblings ≠ [] then
    return (oldState.stateRoot, oldState.stateToValidatorsSiblings)
  else
    match ← api.getStateSsz oldState.slot with
    | some raw =>
        checkedStateProof api raw (listHashTreeRoot P oldDataRoot oldState.numValidators)
          oldState.slot "fetch header at slot_1" "SSZ state root mismatch at slot_1"
    | none =>
        return makeStateProof oldDataRoot oldState.numValidators ⟨0, P.zeroChunk, P.zeroChunk⟩

/-- The new state proof: always computed fresh. A synthetic state records the boundary before
it. -/
def newStateProof (api : BeaconApi P) (slot1 slot2 : UInt64) (stateRoot1 newDataRoot : P.Bytes32)
    (numValidators2 : UInt64) : Except String (P.Bytes32 × List P.Bytes32) := do
  match ← api.getStateSsz slot2 with
  | some raw =>
      checkedStateProof api raw (listHashTreeRoot P newDataRoot numValidators2) slot2
        "fetch header at slot_2" "SSZ state root mismatch at slot_2"
  | none =>
      let blockRoot := match api.getHeader slot1 with
        | .ok header => blockHeaderRoot P header
        | .error _ => P.zeroChunk
      return makeStateProof newDataRoot numValidators2 ⟨slot1, blockRoot, stateRoot1⟩

/-! ## Mutations -/

/-- The mutation of one index: its leaf is written into the tree, and the siblings from before
that go into the mutation. -/
def buildMutation (validators1 validators2 : List ValidatorResponse) (epoch2 : UInt64)
    (accTree : AccTree P) (idx : ℕ) : Except String (ValidatorMutation P × AccTree P) := do
  let newV ← Guest.index validators2 idx
  let newData := newV.data
  let newActiveBalance := newData.activeEffectiveBalance epoch2
  let point ← Guest.expect (Pubkey.decompress P newData.pubkey)
    "decompress validator public key"
  let (accSiblings, accTree) ← accTree.updateLeaf idx (P.leaf point newActiveBalance)
  if validators1.length ≤ idx then
    return ({
      validatorIndex := UInt64.ofNat idx
      isNew := true
      oldData := ⟨zeroBytes 48, 0, 0, 0⟩
      newData
      oldFieldLeaves := fun _ => P.zeroChunk
      newFieldLeaves := newV.fieldLeaves P
      oldPubkeyChunks := fun _ => zeroBytes 32
      newPubkeyChunks := newV.pubkeyChunks
      accSiblings }, accTree)
  else do
    let oldV ← Guest.index validators1 idx
    return ({
      validatorIndex := UInt64.ofNat idx
      isNew := false
      oldData := oldV.data
      newData
      oldFieldLeaves := oldV.fieldLeaves P
      newFieldLeaves := newV.fieldLeaves P
      oldPubkeyChunks := oldV.pubkeyChunks
      newPubkeyChunks := newV.pubkeyChunks
      accSiblings }, accTree)

/-- Build the mutations, one after the other, so that each has the siblings of its turn. -/
def buildMutations (validators1 validators2 : List ValidatorResponse) (epoch2 : UInt64) :
    AccTree P → List ℕ → Except String (List (ValidatorMutation P) × AccTree P)
  | accTree, [] => return ([], accTree)
  | accTree, idx :: indices => do
      let (mutation, accTree) ← buildMutation validators1 validators2 epoch2 accTree idx
      let (mutations, accTree) ← buildMutations validators1 validators2 epoch2 accTree indices
      return (mutation :: mutations, accTree)

/-- The new roots: the old ones, with those of the mutated validators computed afresh. -/
def patchRoots (oldRoots : List P.Bytes32) (validators2 : List ValidatorResponse)
    (mutationIndices : List ℕ) : Except String (List P.Bytes32) :=
  mutationIndices.foldlM (fun newRoots idx => do
      let v ← Guest.index validators2 idx
      Guest.setIndex newRoots idx (validatorHashTreeRoot P (v.fieldLeaves P)))
    ((oldRoots ++ List.replicate validators2.length P.zeroChunk).take validators2.length)

/-- The sum of the active balances of a registry, in 64-bit arithmetic. -/
def activeBalance (validators : List ValidatorResponse) (epoch : UInt64) : UInt64 :=
  (validators.map fun v => v.data.activeEffectiveBalance epoch).foldl (· + ·) 0

/-! ## The witness -/

/-- What a build returns, and the tree it leaves. -/
structure HeldDiff (P : Primitives) where
  witness : EpochDiffWitness P
  epochState : EpochState P
  totalActiveBalance : UInt64
  numValidators : UInt64
  accTree : AccTree P

/-- Build an epoch-diff witness from two registries and update the tree in place. -/
def buildHeld (api : BeaconApi P) (config : DiffConfig) (accTree : AccTree P)
    (oldState : EpochState P) (validators1 validators2 : List ValidatorResponse) (slot2 : UInt64)
    (totalActiveBalance1 : UInt64) : Except String (HeldDiff P) := do
  let sszDepth := config.validatorsTreeDepth
  let epoch1 := oldState.slot / config.slotsPerEpoch
  let epoch2 := slot2 / config.slotsPerEpoch
  let numValidators2 := UInt64.ofNat validators2.length
  let mutationIndices := findMutations validators1 validators2 epoch1 epoch2
  Guest.assert (mutationIndices ≠ []) "no mutations found between states"
  let oldRoots := if oldState.validatorRoots.isEmpty then buildValidatorRoots P validators1
    else oldState.validatorRoots
  let (oldDataRoot, sszMultiProof1) ← buildValidatorsSszTree oldRoots sszDepth mutationIndices
  let newRoots ← patchRoots oldRoots validators2 mutationIndices
  let (newDataRoot, sszMultiProof2) ← buildValidatorsSszTree newRoots sszDepth mutationIndices
  let (stateRoot1, stateSiblings1) ← oldStateProof api oldState oldDataRoot
  let (stateRoot2, stateSiblings2) ←
    newStateProof api oldState.slot slot2 stateRoot1 newDataRoot numValidators2
  let accRoot1 := accTree.root
  let (mutations, accTree) ←
    buildMutations validators1 validators2 epoch2 accTree mutationIndices
  return {
    witness := {
      stateRoot1
      stateRoot2
      accRoot1
      totalActiveBalance1
      epoch1
      epoch2
      stateToValidatorsSiblings1 := stateSiblings1
      stateToValidatorsSiblings2 := stateSiblings2
      validatorsListLength1 := oldState.numValidators
      validatorsListLength2 := numValidators2
      mutations
      sszMultiProof1
      sszMultiProof2 }
    epochState := {
      slot := slot2
      stateRoot := stateRoot2
      stateToValidatorsSiblings := stateSiblings2
      validatorRoots := newRoots
      sszDataRoot := newDataRoot
      numValidators := numValidators2 }
    totalActiveBalance := activeBalance validators2 epoch2
    numValidators := numValidators2
    accTree }

/-! ## Records check against themselves -/

theorem verifyFieldLeavesNoPubkeyHash_self (v : ValidatorResponse) :
    verifyFieldLeavesNoPubkeyHash P v.data (v.fieldLeaves P) v.pubkeyChunks = .ok () := by
  have hrest : (v.pubkey.1.drop 32).length = 16 := by
    rw [List.length_drop, v.pubkey.2]
  simp only [verifyFieldLeavesNoPubkeyHash, Guest.bind_eq_ok, Guest.assert_eq_ok, exists_const]
  refine ⟨?_, ?_, ?_, rfl, rfl, rfl⟩
  · exact List.take_take.trans rfl
  · exact List.take_append_of_le_length (le_of_eq hrest.symm)
  · exact List.drop_left' hrest

theorem verifyFieldLeaves_self (v : ValidatorResponse) :
    verifyFieldLeaves P v.data (v.fieldLeaves P) v.pubkeyChunks = .ok () := by
  simp only [verifyFieldLeaves, Guest.bind_eq_ok, Guest.assert_eq_ok, exists_const]
  exact ⟨rfl, verifyFieldLeavesNoPubkeyHash_self v⟩

/-- One key, one key leaf. -/
theorem ValidatorResponse.fieldLeaves_zero {v v' : ValidatorResponse} (h : v.pubkey = v'.pubkey) :
    v.fieldLeaves P 0 = v'.fieldLeaves P 0 := by
  have hchunk : ∀ i, v.pubkeyChunks i = v'.pubkeyChunks i := by
    intro i
    unfold ValidatorResponse.pubkeyChunks
    simp only [h]
  show P.sha256Pair _ _ = P.sha256Pair _ _
  rw [hchunk, hchunk]

/-! ## The two loops in step -/

section Loop

variable {R1 R2 : List ValidatorResponse} {epoch1 epoch2 : UInt64} {tree tree' : AccTree P}
  {m : ValidatorMutation P} {idx : ℕ}

/-- What a mutation was built from. -/
theorem buildMutation_eq_ok
    (h : buildMutation R1 R2 epoch2 tree idx = .ok (m, tree')) :
    ∃ new point, R2[idx]? = some new ∧ Pubkey.decompress P new.pubkey = some point ∧
      tree.updateLeaf idx (P.leaf point (new.data.activeEffectiveBalance epoch2)) =
        .ok (m.accSiblings, tree') ∧
      m.validatorIndex = UInt64.ofNat idx ∧ m.newData = new.data ∧
      m.newFieldLeaves = new.fieldLeaves P ∧ m.newPubkeyChunks = new.pubkeyChunks ∧
      (m.isNew = true ∧ R1[idx]? = none ∨ ∃ old, m.isNew = false ∧ R1[idx]? = some old ∧
        m.oldData = old.data ∧ m.oldFieldLeaves = old.fieldLeaves P ∧
        m.oldPubkeyChunks = old.pubkeyChunks) := by
  simp only [buildMutation, Guest.bind_eq_ok, Guest.index_eq_ok, Guest.expect_eq_ok] at h
  obtain ⟨new, hnew, point, hpoint, ⟨siblings, next⟩, hupdate, h⟩ := h
  by_cases hlength : R1.length ≤ idx
  · rw [if_pos hlength] at h
    obtain ⟨rfl, rfl⟩ := Prod.mk.inj (Guest.pure_eq_ok.mp h)
    exact ⟨new, point, hnew, hpoint, hupdate, rfl, rfl, rfl, rfl,
      .inl ⟨rfl, List.getElem?_eq_none hlength⟩⟩
  · rw [if_neg hlength] at h
    simp only [Guest.bind_eq_ok, Guest.index_eq_ok] at h
    obtain ⟨old, hold, h⟩ := h
    obtain ⟨rfl, rfl⟩ := Prod.mk.inj (Guest.pure_eq_ok.mp h)
    exact ⟨new, point, hnew, hpoint, hupdate, rfl, rfl, rfl, rfl,
      .inr ⟨old, rfl, hold, rfl, rfl, rfl⟩⟩

/-- The accumulator between the two registries: moved on at the indices that are done. -/
def midway (P : Primitives) (R1 R2 : List ValidatorResponse) (epoch1 epoch2 : UInt64)
    (done : List ℕ) : Contents P :=
  fun i => if i ∈ done then hostContents P R2 epoch2 i else hostContents P R1 epoch1 i

theorem midway_append {l : AccLeaf P} (done : List ℕ)
    (hl : hostContents P R2 epoch2 idx = some l) :
    midway P R1 R2 epoch1 epoch2 (done ++ [idx]) =
      Function.update (midway P R1 R2 epoch1 epoch2 done) idx (some l) := by
  funext i
  by_cases hi : i = idx
  · subst hi
    rw [Function.update_self, midway, if_pos (by simp), hl]
  · rw [Function.update_of_ne hi, midway, midway]
    simp only [List.mem_append, List.mem_singleton, hi, or_false]

theorem midway_nil : midway P R1 R2 epoch1 epoch2 [] = hostContents P R1 epoch1 := by
  funext i
  exact if_neg List.not_mem_nil

/-- What the diff leaves out has not moved. -/
theorem midway_findMutations (hgrow : Grows R1 R2) :
    midway P R1 R2 epoch1 epoch2 (findMutations R1 R2 epoch1 epoch2) =
      hostContents P R2 epoch2 := by
  funext i
  by_cases hi : i ∈ findMutations R1 R2 epoch1 epoch2
  · exact if_pos hi
  · rw [midway, if_neg hi, hostContents_of_unchanged hgrow hi]

/-- The host after the mutations of `done`: its tree holds the accumulator midway. -/
structure HostAt (tree : AccTree P) (R1 R2 : List ValidatorResponse) (epoch1 epoch2 : UInt64)
    (done : List ℕ) (host : AccTree P) : Prop where
  keeps : host.Keeps (midway P R1 R2 epoch1 epoch2 done).digest
  depth : host.depth = tree.depth
  dense : host.denseDepth = tree.denseDepth

/-- **One mutation of the host's**: its siblings lead from the leaf that was there to the root
before it, and from the leaf that is written to the root after it. -/
theorem HostAt.step {start : AccTree P} {done : List ℕ} {new : ValidatorResponse}
    {point : P.G1Point} (h : HostAt start R1 R2 epoch1 epoch2 done tree) (hidx : idx ∉ done)
    (hbuild : buildMutation R1 R2 epoch2 tree idx = .ok (m, tree')) (hnew : R2[idx]? = some new)
    (hpoint : Pubkey.decompress P new.pubkey = some point) :
    m.accSiblings.length = start.depth ∧ idx < 2 ^ start.depth ∧
      computeRoot P.compress ((hostContents P R1 epoch1).digest idx) idx m.accSiblings =
        tree.root ∧
      computeRoot P.compress (P.leaf point (new.data.activeEffectiveBalance epoch2)) idx
        m.accSiblings = tree'.root ∧
      HostAt start R1 R2 epoch1 epoch2 (done ++ [idx]) tree' := by
  obtain ⟨_, _, hnew', hpoint', hupdate, -⟩ := buildMutation_eq_ok hbuild
  obtain rfl := Option.some.inj (hnew.symm.trans hnew')
  obtain rfl := Option.some.inj (hpoint.symm.trans hpoint')
  have hcontents : hostContents P R2 epoch2 idx = _ := contentsBy_of_some hnew hpoint
  have hlt := h.keeps.lt_of_updateLeaf hupdate
  have hdepth : idx < 2 ^ tree.depth :=
    hlt.trans_le (Nat.pow_le_pow_right (by omega) h.keeps.dense_le)
  obtain ⟨next, hnext, hkeeps, hnextDepth, hnextDense⟩ := h.keeps.updateLeaf hlt
    (P.leaf point (new.data.activeEffectiveBalance epoch2))
  obtain ⟨hsiblings, rfl⟩ : siblingPath P.compress tree.depth
      (midway P R1 R2 epoch1 epoch2 done).digest idx = m.accSiblings ∧ next = tree' := by
    rw [hnext] at hupdate
    injection hupdate with hpair
    exact Prod.mk.inj hpair
  have hmid : midway P R1 R2 epoch1 epoch2 done idx = hostContents P R1 epoch1 idx :=
    if_neg hidx
  refine ⟨by rw [← hsiblings, siblingPath_length, h.depth], h.depth ▸ hdepth, ?_, ?_, ?_⟩
  · have hclimb : computeRoot P.compress
        (tile tree.depth (midway P R1 R2 epoch1 epoch2 done).digest idx) idx _ = _ :=
      computeRoot_siblingPath tree.depth (midway P R1 R2 epoch1 epoch2 done).digest idx
    rw [tile, Nat.mod_eq_of_lt hdepth, Contents.digest, hmid] at hclimb
    rw [← hsiblings, Contents.digest, hclimb, h.keeps.root_eq]
  · rw [← hsiblings, computeRoot_siblingPath_update hdepth, hkeeps.root_eq, hnextDepth]
  · refine ⟨?_, hnextDepth.trans h.depth, hnextDense.trans h.dense⟩
    rw [midway_append done hcontents, Contents.digest_update]
    exact hkeeps

/-- **Host and circuit in step** after the mutations of `done`: the tree holds the accumulator
midway, and the circuit has its root, its total and the two leaves of every mutation. -/
structure InStep (tree : AccTree P) (R1 R2 : List ValidatorResponse) (epoch1 epoch2 : UInt64)
    (total1 : UInt64) (done : List ℕ) (host : AccTree P) (s : DiffState P) : Prop where
  held : HostAt tree R1 R2 epoch1 epoch2 done host
  root : s.accRoot = host.root
  total : total1 = (hostContents P R1 epoch1).totalActiveBalance tree.depth →
    s.totalActiveBalance =
      (midway P R1 R2 epoch1 epoch2 done).totalActiveBalance tree.depth
  old : s.oldSszLeaves = done.map fun i => (registryLeaf P R1 i, i)
  new : s.newSszLeaves = done.map fun i => (registryLeaf P R2 i, i)

/-- Host and circuit read a validator's key alike. -/
def KeyAgrees (P : Primitives) (R : List ValidatorResponse) (i : ℕ) : Prop :=
  ∀ v, R[i]? = some v → Bls.decompressPubkey P v.pubkey = Pubkey.decompress P v.pubkey

/-- An index a mutation is built for is the one the circuit sees. -/
theorem buildMutation_index (hsize : R2.length < 2 ^ 64)
    (hbuild : buildMutation R1 R2 epoch2 tree idx = .ok (m, tree')) :
    m.validatorIndex.toNat = idx := by
  obtain ⟨new, _, hnew, -, -, hindex, -⟩ := buildMutation_eq_ok hbuild
  have hin := (List.getElem?_eq_some_iff.mp hnew).1
  rw [hindex, UInt64.toNat_ofNat']
  exact Nat.mod_eq_of_lt (by omega)

/-- **One mutation**: what the host built over a key the circuit reads alike the circuit accepts,
and they stay in step. -/
theorem InStep.step {start : AccTree P} {total1 : UInt64} {done : List ℕ} {s : DiffState P}
    (h : InStep start R1 R2 epoch1 epoch2 total1 done tree s) (hgrow : Grows R1 R2)
    (hsize : R2.length < 2 ^ 64) (hidx : idx ∉ done) (hagrees : KeyAgrees P R2 idx)
    (hbuild : buildMutation R1 R2 epoch2 tree idx = .ok (m, tree')) :
    m.accSiblings.length = start.depth ∧ (∃ l, hostContents P R2 epoch2 idx = some l) ∧
      ∃ s', applyMutation epoch1 epoch2 s m = .ok s' ∧
        InStep start R1 R2 epoch1 epoch2 total1 (done ++ [idx]) tree' s' := by
  obtain ⟨new, point, hnew, hpoint, -, -, hdata, hleaves, hchunks, hold⟩ :=
    buildMutation_eq_ok hbuild
  have hread : Bls.decompressPubkey P new.pubkey = some point := (hagrees new hnew).trans hpoint
  have hcontents : hostContents P R2 epoch2 idx = _ := contentsBy_of_some hnew hpoint
  have htoNat := buildMutation_index hsize hbuild
  obtain ⟨hlength, hdepth, hopens, hwrites, hhost⟩ := h.held.step hidx hbuild hnew hpoint
  rw [← h.root] at hopens
  have hmid : midway P R1 R2 epoch1 epoch2 done idx = hostContents P R1 epoch1 idx :=
    if_neg hidx
  -- what the host puts into the mutation is what the circuit checks, added or changed
  have hopen : openMutation epoch1 s.accRoot m point =
      .ok (registryLeaf P R1 idx, registryLeaf P R2 idx) := by
    unfold openMutation
    rcases hold with ⟨hisNew, hnone⟩ | ⟨old, hisNew, hsome, holdData, holdLeaves, holdChunks⟩
    · have hempty : (hostContents P R1 epoch1).digest idx = P.zero := by
        rw [Contents.digest, hostContents, contentsBy_of_none hnone]
      rw [hempty] at hopens
      simp only [hisNew, if_true, htoNat, hdata, hleaves, hchunks, Guest.bind_eq_ok,
        Guest.assert_eq_ok, exists_const, Guest.pure_eq_ok]
      refine ⟨hopens, (), verifyFieldLeaves_self new, ?_⟩
      rw [registryLeaf, registryLeaf, hnone, hnew]
    · have hkey := hgrow.pubkey _ _ _ hsome hnew
      have hleaf : (hostContents P R1 epoch1).digest idx =
          P.leaf point (old.data.activeEffectiveBalance epoch1) := by
        rw [Contents.digest, hostContents, contentsBy_of_some hsome (hkey ▸ hpoint)]
      rw [hleaf] at hopens
      simp only [hisNew, if_false, Bool.false_eq_true, htoNat, hdata, hleaves, hchunks, holdData,
        holdLeaves, holdChunks, Guest.bind_eq_ok, Guest.assert_eq_ok, exists_const,
        Guest.pure_eq_ok, validatorHashTreeRootPair_eq]
      refine ⟨(), verifyFieldLeaves_self new, (), verifyFieldLeavesNoPubkeyHash_self old,
        ValidatorResponse.fieldLeaves_zero hkey, hopens, ?_⟩
      rw [registryLeaf, registryLeaf, hsome, hnew]
  -- the total drops what the position held midway, which nobody has touched so far
  have hbalance : (if m.isNew then 0 else m.oldData.activeEffectiveBalance epoch1) =
      (midway P R1 R2 epoch1 epoch2 done).balance idx := by
    rw [Contents.balance, hmid, hostContents]
    rcases hold with ⟨hisNew, hnone⟩ | ⟨old, hisNew, hsome, holdData, -, -⟩
    · rw [if_pos hisNew, contentsBy_of_none hnone]
      rfl
    · rw [if_neg (by simp [hisNew]), holdData, contentsBy_of_some hsome
        (hgrow.pubkey _ _ _ hsome hnew ▸ hpoint)]
      rfl
  have hstep : applyMutation epoch1 epoch2 s m = .ok {
      accRoot := tree'.root
      totalActiveBalance := s.totalActiveBalance -
        (midway P R1 R2 epoch1 epoch2 done).balance idx + new.data.activeEffectiveBalance epoch2
      oldSszLeaves := s.oldSszLeaves ++ [(registryLeaf P R1 idx, idx)]
      newSszLeaves := s.newSszLeaves ++ [(registryLeaf P R2 idx, idx)] } := by
    simp only [applyMutation, hdata, Guest.bind_eq_ok, Guest.expect_eq_ok, Guest.pure_eq_ok]
    refine ⟨point, hread, _, hopen, ?_⟩
    rw [htoNat, hwrites, hbalance]
  refine ⟨hlength, ⟨_, hcontents⟩, _, hstep, hhost, rfl, fun htotal => ?_, ?_, ?_⟩
  · rw [midway_append done hcontents, Contents.totalActiveBalance_update _ _ hdepth,
      ← h.total htotal]
  · show s.oldSszLeaves ++ _ = _
    rw [h.old, List.map_append]
    rfl
  · show s.newSszLeaves ++ _ = _
    rw [h.new, List.map_append]
    rfl

/-- **The whole loop.** -/
theorem InStep.run {start : AccTree P} {total1 : UInt64} (hgrow : Grows R1 R2)
    (hsize : R2.length < 2 ^ 64) :
    ∀ {indices done : List ℕ} {tree : AccTree P} {s : DiffState P}
      {ms : List (ValidatorMutation P)}, (done ++ indices).Nodup →
      (∀ i ∈ indices, KeyAgrees P R2 i) →
      InStep start R1 R2 epoch1 epoch2 total1 done tree s →
      buildMutations R1 R2 epoch2 tree indices = .ok (ms, tree') →
        (∀ m ∈ ms, m.accSiblings.length = start.depth) ∧
        (∀ i ∈ indices, ∃ l, hostContents P R2 epoch2 i = some l) ∧
        ∃ s', ms.foldlM (applyMutation epoch1 epoch2) s = .ok s' ∧
          InStep start R1 R2 epoch1 epoch2 total1 (done ++ indices) tree' s' := by
  intro indices
  induction indices with
  | nil =>
      intro done tree s ms _ _ h hbuild
      obtain ⟨rfl, rfl⟩ := Prod.mk.inj (Guest.pure_eq_ok.mp hbuild)
      exact ⟨by simp, by simp, s, rfl, by rwa [List.append_nil]⟩
  | cons idx indices ih =>
      intro done tree s ms hnodup hagrees h hbuild
      obtain ⟨hfirstKey, hagrees⟩ := List.forall_mem_cons.mp hagrees
      simp only [buildMutations, Guest.bind_eq_ok, Guest.pure_eq_ok] at hbuild
      obtain ⟨⟨m, mid⟩, hfirst, ⟨rest, last⟩, hrest, hpair⟩ := hbuild
      obtain ⟨rfl, rfl⟩ := Prod.mk.inj hpair
      have hidx : idx ∉ done := by
        intro hmem
        exact (List.nodup_append.mp hnodup).2.2 idx hmem idx List.mem_cons_self rfl
      obtain ⟨hlength, hcontents, s₁, hstep, hs₁⟩ :=
        h.step hgrow hsize hidx hfirstKey hfirst
      have hdone : done ++ idx :: indices = done ++ [idx] ++ indices := by simp
      rw [hdone] at hnodup ⊢
      obtain ⟨hlengths, hall, s', hrun, hs'⟩ := ih hnodup hagrees hs₁ hrest
      refine ⟨List.forall_mem_cons.mpr ⟨hlength, hlengths⟩,
        List.forall_mem_cons.mpr ⟨hcontents, hall⟩, s', ?_, hs'⟩
      exact Guest.foldlM_cons.mpr ⟨s₁, hstep, hrun⟩

/-- **One mutation, backwards**: where the circuit comes out at the host's root, it read the key
alike and had come in at the host's root. -/
theorem KeyAgrees.of_step (hP : CollisionFree P) {start : AccTree P} {done : List ℕ}
    {s s' : DiffState P} (h : HostAt start R1 R2 epoch1 epoch2 done tree) (hgrow : Grows R1 R2)
    (hsize : R2.length < 2 ^ 64) (hidx : idx ∉ done)
    (hbuild : buildMutation R1 R2 epoch2 tree idx = .ok (m, tree'))
    (happly : applyMutation epoch1 epoch2 s m = .ok s') (hroot : s'.accRoot = tree'.root) :
    KeyAgrees P R2 idx ∧ s.accRoot = tree.root := by
  obtain ⟨new, point, hnew, hpoint, -, -, hdata, -, -, hold⟩ := buildMutation_eq_ok hbuild
  have htoNat := buildMutation_index hsize hbuild
  obtain ⟨-, -, hopens, hwrites, -⟩ := h.step hidx hbuild hnew hpoint
  obtain ⟨read, oldRoot, newRoot, hread, hopen, rfl⟩ := applyMutation_eq_ok happly
  have hopened := openMutation_opens hopen
  rw [htoNat] at hopened
  -- both climb to one root along one path, so from one leaf
  have hclimbs : computeRoot P.compress (P.leaf read (new.data.activeEffectiveBalance epoch2)) idx
      m.accSiblings = computeRoot P.compress
        (P.leaf point (new.data.activeEffectiveBalance epoch2)) idx m.accSiblings := by
    rw [hwrites, ← hroot, htoNat, hdata]
  obtain ⟨rfl, -⟩ := hP.leaf (computeRoot_injective hP.compress rfl hclimbs).1
  refine ⟨?_, ?_⟩
  · intro v hv
    obtain rfl := Option.some.inj (hnew.symm.trans hv)
    rw [hpoint, ← hread, hdata]
    rfl
  · rw [← hopened, ← hopens, Contents.digest, hostContents]
    rcases hold with ⟨hisNew, hnone⟩ | ⟨old, hisNew, hsome, holdData, -, -⟩
    · rw [if_pos hisNew, contentsBy_of_none hnone]
    · rw [if_neg (by simp [hisNew]), holdData, contentsBy_of_some hsome
        (hgrow.pubkey _ _ _ hsome hnew ▸ hpoint)]

/-- **The whole loop, backwards.** -/
theorem KeyAgrees.of_run (hP : CollisionFree P) {start : AccTree P} (hgrow : Grows R1 R2)
    (hsize : R2.length < 2 ^ 64) :
    ∀ {indices done : List ℕ} {tree : AccTree P} {s s' : DiffState P}
      {ms : List (ValidatorMutation P)}, (done ++ indices).Nodup →
      HostAt start R1 R2 epoch1 epoch2 done tree →
      buildMutations R1 R2 epoch2 tree indices = .ok (ms, tree') →
      ms.foldlM (applyMutation epoch1 epoch2) s = .ok s' → s'.accRoot = tree'.root →
        (∀ i ∈ indices, KeyAgrees P R2 i) ∧ s.accRoot = tree.root := by
  intro indices
  induction indices with
  | nil =>
      intro done tree s s' ms _ _ hbuild hrun hroot
      obtain ⟨rfl, rfl⟩ := Prod.mk.inj (Guest.pure_eq_ok.mp hbuild)
      obtain rfl := Guest.foldlM_nil.mp hrun
      exact ⟨by simp, hroot⟩
  | cons idx indices ih =>
      intro done tree s s' ms hnodup h hbuild hrun hroot
      simp only [buildMutations, Guest.bind_eq_ok, Guest.pure_eq_ok] at hbuild
      obtain ⟨⟨m, mid⟩, hfirst, ⟨rest, last⟩, hrest, hpair⟩ := hbuild
      obtain ⟨rfl, rfl⟩ := Prod.mk.inj hpair
      obtain ⟨s₁, hstep, hrun⟩ := Guest.foldlM_cons.mp hrun
      have hidx : idx ∉ done := by
        intro hmem
        exact (List.nodup_append.mp hnodup).2.2 idx hmem idx List.mem_cons_self rfl
      have hdone : done ++ idx :: indices = done ++ [idx] ++ indices := by simp
      rw [hdone] at hnodup
      obtain ⟨new, point, hnew, hpoint, -⟩ := buildMutation_eq_ok hfirst
      obtain ⟨-, -, -, -, hnext⟩ := h.step hidx hfirst hnew hpoint
      -- from the last mutation to the first
      obtain ⟨hagrees, hroot₁⟩ := ih hnodup hnext hrest hrun hroot
      obtain ⟨hfirstKey, hstart⟩ := KeyAgrees.of_step hP h hgrow hsize hidx hfirst hstep hroot₁
      exact ⟨List.forall_mem_cons.mpr ⟨hfirstKey, hagrees⟩, hstart⟩

end Loop

/-! ## The registries' totals and roots -/

/-- A registry's full sum is the total of its accumulator. -/
theorem totalActiveBalance_registry {R : List ValidatorResponse} {epoch : UInt64} {d : ℕ}
    (hfits : R.length ≤ 2 ^ d)
    (hkeys : ∀ v ∈ R, ∃ point, Pubkey.decompress P v.pubkey = some point) :
    (hostContents P R epoch).totalActiveBalance d = activeBalance R epoch := by
  have hsum : ∀ n, UInt64.ofNat
      (∑ i ∈ Finset.range n, ((hostContents P R epoch).balance i).toNat) =
        ((List.range n).map (hostContents P R epoch).balance).foldl (· + ·) 0 := by
    intro n
    induction n with
    | zero => rfl
    | succ n ih =>
        rw [Finset.sum_range_succ, UInt64.ofNat_add, ih, UInt64.ofNat_toNat, List.range_succ,
          List.map_append, List.foldl_append]
        rfl
  have hbeyond : ∑ i ∈ Finset.range (2 ^ d), ((hostContents P R epoch).balance i).toNat =
      ∑ i ∈ Finset.range R.length, ((hostContents P R epoch).balance i).toNat := by
    symm
    apply Finset.sum_subset (Finset.range_subset_range.mpr hfits)
    intro i _ hi
    rw [Finset.mem_range, not_lt] at hi
    rw [Contents.balance, hostContents, contentsBy_of_none (List.getElem?_eq_none hi)]
    rfl
  have hrow : (List.range R.length).map (hostContents P R epoch).balance =
      R.map fun v => v.data.activeEffectiveBalance epoch := by
    apply List.ext_getElem (by simp)
    intro i hi hi'
    rw [List.length_map] at hi'
    obtain ⟨point, hpoint⟩ := hkeys R[i] (List.getElem_mem hi')
    rw [List.getElem_map, List.getElem_map, List.getElem_range, Contents.balance,
      hostContents, contentsBy_of_some (List.getElem?_eq_getElem hi') hpoint]
    rfl
  rw [Contents.totalActiveBalance, hbeyond, hsum, hrow, activeBalance]

theorem buildValidatorRoots_eq_map (R : List ValidatorResponse) :
    buildValidatorRoots P R = (List.range R.length).map (registryLeaf P R) := by
  apply List.ext_getElem (by simp [buildValidatorRoots])
  intro i hi hi'
  have hrow := buildValidatorRoots_getD (P := P) R i
  rw [List.getD_eq_getElem?_getD, List.getElem?_eq_getElem hi, Option.getD_some] at hrow
  rw [hrow, List.getElem_map, List.getElem_range]

/-- The roots between the two registries: computed afresh at the indices that are done. -/
def patched (P : Primitives) (R1 R2 : List ValidatorResponse) (done : List ℕ) : List P.Bytes32 :=
  (List.range R2.length).map fun i =>
    if i ∈ done then registryLeaf P R2 i else registryLeaf P R1 i

section Patch

variable {R1 R2 : List ValidatorResponse}

theorem patched_nil : patched P R1 R2 [] =
    (buildValidatorRoots P R1 ++ List.replicate R2.length P.zeroChunk).take R2.length := by
  have hlength : (buildValidatorRoots P R1).length = R1.length := by simp [buildValidatorRoots]
  apply List.ext_getElem?
  intro i
  by_cases hi : i < R2.length
  · rw [patched, List.getElem?_take_of_lt hi, List.getElem?_map, List.getElem?_range hi,
      Option.map_some, if_neg (by simp), ← buildValidatorRoots_getD, List.getD_eq_getElem?_getD]
    by_cases hin : i < R1.length
    · rw [List.getElem?_append_left (by omega), List.getElem?_eq_getElem (by omega)]
      rfl
    · rw [List.getElem?_append_right (by omega), List.getElem?_replicate, if_pos (by omega),
        List.getElem?_eq_none (by omega)]
      rfl
  · rw [patched, List.getElem?_take_eq_none (by omega), List.getElem?_eq_none (by simpa using hi)]

theorem patched_step {done : List ℕ} {idx : ℕ} {v : ValidatorResponse} (hv : R2[idx]? = some v) :
    Guest.setIndex (patched P R1 R2 done) idx (validatorHashTreeRoot P (v.fieldLeaves P)) =
      .ok (patched P R1 R2 (done ++ [idx])) := by
  have hleaf : validatorHashTreeRoot P (v.fieldLeaves P) = registryLeaf P R2 idx := by
    rw [registryLeaf, hv]
  have hrow := map_range_set (n := R2.length) (j := idx)
    (f := fun i => if i ∈ done then registryLeaf P R2 i else registryLeaf P R1 i)
    (g := fun i => if i ∈ done ++ [idx] then registryLeaf P R2 i else registryLeaf P R1 i)
    fun i hi => by simp [hi]
  rw [if_pos (by simp)] at hrow
  rw [Guest.setIndex_eq_ok, hleaf]
  exact ⟨by simpa [patched] using (List.getElem?_eq_some_iff.mp hv).1, hrow⟩

theorem patched_run : ∀ {indices : List ℕ} (done : List ℕ), (∀ i ∈ indices, i < R2.length) →
    indices.foldlM (fun newRoots idx => do
        let v ← Guest.index R2 idx
        Guest.setIndex newRoots idx (validatorHashTreeRoot P (v.fieldLeaves P)))
      (patched P R1 R2 done) = (.ok (patched P R1 R2 (done ++ indices)) : Except String _) := by
  intro indices
  induction indices with
  | nil =>
      intro done _
      rw [List.append_nil]
      rfl
  | cons idx indices ih =>
      intro done hlt
      obtain ⟨hidx, hlt⟩ := List.forall_mem_cons.mp hlt
      have hv := List.getElem?_eq_getElem hidx
      rw [Guest.foldlM_cons]
      refine ⟨patched P R1 R2 (done ++ [idx]), ?_, ?_⟩
      · exact Guest.bind_eq_ok.mpr ⟨_, Guest.index_eq_ok.mpr hv, patched_step hv⟩
      · rw [ih _ hlt, List.append_assoc]
        rfl

/-- **The cache stays exact**: the old roots patched at the mutations are the new roots. -/
theorem patchRoots_eq {epoch1 epoch2 : UInt64} (hgrow : Grows R1 R2) :
    patchRoots (buildValidatorRoots P R1) R2 (findMutations R1 R2 epoch1 epoch2) =
      .ok (buildValidatorRoots P R2) := by
  rw [patchRoots, ← patched_nil, patched_run _ fun i hi => lt_of_mem_findMutations hi,
    List.nil_append, buildValidatorRoots_eq_map, patched]
  congr 1
  apply List.map_congr_left
  intro i _
  by_cases hi : i ∈ findMutations R1 R2 epoch1 epoch2
  · rw [if_pos hi]
  · rw [if_neg hi, registryLeaf_of_unchanged hgrow hi]

end Patch

/-! ## State proofs open -/

section Proofs

variable {api : BeaconApi P} {stateRoot : P.Bytes32} {siblings : List P.Bytes32}

theorem checkedStateProof_opens {raw : api.RawState} {validatorsHtr : P.Bytes32} {slot : UInt64}
    {context mismatch : String}
    (h : checkedStateProof api raw validatorsHtr slot context mismatch =
      .ok (stateRoot, siblings)) :
    computeSszMerkleRoot P validatorsHtr beaconStateValidatorsFieldIndex siblings = stateRoot := by
  simp only [checkedStateProof, parseStateProof, Guest.bind_eq_ok, Guest.assert_eq_ok,
    Guest.pure_eq_ok, exists_const] at h
  obtain ⟨_, -, ⟨root, path⟩, ⟨fields, -, hextract⟩, -, hpair⟩ := h
  obtain ⟨rfl, rfl⟩ := Prod.mk.inj hpair
  have hopens := buildStateTreeAndExtract_opens _ (by decide) hextract
  rwa [Function.update_self] at hopens

/-- **A cache the next epoch can start from**: the registry's roots, or none, and a branch from
the registry to the state root, or none. -/
structure EpochState.Valid (s : EpochState P) (sszDepth : ℕ) (R : List ValidatorResponse) :
    Prop where
  numValidators : s.numValidators = UInt64.ofNat R.length
  validatorRoots : s.validatorRoots = [] ∨ s.validatorRoots = buildValidatorRoots P R
  stateRoot : s.stateToValidatorsSiblings = [] ∨
    computeSszMerkleRoot P (registryRoot P sszDepth R) beaconStateValidatorsFieldIndex
      s.stateToValidatorsSiblings = s.stateRoot

theorem oldStateProof_opens {oldState : EpochState P} {sszDepth : ℕ}
    {R : List ValidatorResponse} (hvalid : oldState.Valid sszDepth R)
    (h : oldStateProof api oldState (root P.sha256Pair sszDepth (registryLeaf P R)) =
      .ok (stateRoot, siblings)) :
    computeSszMerkleRoot P (registryRoot P sszDepth R) beaconStateValidatorsFieldIndex siblings =
      stateRoot := by
  unfold oldStateProof at h
  by_cases hcached : oldState.stateToValidatorsSiblings ≠ []
  · rw [if_pos hcached] at h
    obtain ⟨rfl, rfl⟩ := Prod.mk.inj (Guest.pure_eq_ok.mp h)
    exact hvalid.stateRoot.resolve_left hcached
  · rw [if_neg hcached, Guest.bind_eq_ok] at h
    obtain ⟨raw, -, h⟩ := h
    rw [registryRoot, ← hvalid.numValidators]
    cases raw with
    | none => exact makeStateProof_opens (Guest.pure_eq_ok.mp h)
    | some raw => exact checkedStateProof_opens h

theorem newStateProof_opens {slot1 slot2 : UInt64} {stateRoot1 newDataRoot : P.Bytes32}
    {numValidators2 : UInt64}
    (h : newStateProof api slot1 slot2 stateRoot1 newDataRoot numValidators2 =
      .ok (stateRoot, siblings)) :
    computeSszMerkleRoot P (listHashTreeRoot P newDataRoot numValidators2)
      beaconStateValidatorsFieldIndex siblings = stateRoot := by
  rw [newStateProof, Guest.bind_eq_ok] at h
  obtain ⟨raw, -, h⟩ := h
  cases raw with
  | none => exact makeStateProof_opens (Guest.pure_eq_ok.mp h)
  | some raw => exact checkedStateProof_opens h

end Proofs

/-! ## What is assembled is accepted -/

section Assembled

variable {api : BeaconApi P} {config : DiffConfig} {tree : AccTree P} {oldState : EpochState P}
  {R1 R2 : List ValidatorResponse} {slot2 total1 epoch1 epoch2 : UInt64} {d : HeldDiff P}

/-- The roots the diff starts from are the registry's, cached or not. -/
theorem EpochState.Valid.oldRoots {sszDepth : ℕ} (h : oldState.Valid sszDepth R1) :
    (if oldState.validatorRoots.isEmpty then buildValidatorRoots P R1
      else oldState.validatorRoots) = buildValidatorRoots P R1 := by
  rcases h.validatorRoots with hempty | hroots
  · rw [hempty]
    rfl
  · rw [hroots]
    split
    · rfl
    · rfl

/-- Every index the diff names is stored on both sides of it. -/
theorem findMutations_stored (hgrow : Grows R1 R2)
    (hroom : R2.length ≤ 2 ^ max (Nat.clog 2 R1.length) 1) {sszDepth : ℕ}
    (hfits : R2.length ≤ 2 ^ sszDepth) {R : List ValidatorResponse} (hR : R = R1 ∨ R = R2) :
    ∀ i ∈ findMutations R1 R2 epoch1 epoch2,
      i < 2 ^ max (Nat.clog 2 R.length) 1 ∧ i < 2 ^ sszDepth := by
  intro i hi
  have hlt := lt_of_mem_findMutations hi
  have hmono : Nat.clog 2 R1.length ≤ Nat.clog 2 R2.length := Nat.clog_mono_right 2 hgrow.length_le
  have hle : max (Nat.clog 2 R1.length) 1 ≤ max (Nat.clog 2 R.length) 1 := by
    rcases hR with rfl | rfl
    · exact le_rfl
    · exact max_le_max hmono le_rfl
  exact ⟨hlt.trans_le (hroom.trans (Nat.pow_le_pow_right (by omega) hle)), hlt.trans_le hfits⟩

/-- **An assembled diff, taken apart**: where every record's key is unchanged and every index
has room. -/
theorem buildHeld_eq_ok (hgrow : Grows R1 R2)
    (hroom : R2.length ≤ 2 ^ max (Nat.clog 2 R1.length) 1)
    (hvalid : oldState.Valid config.validatorsTreeDepth R1)
    (h1 : epoch1 = oldState.slot / config.slotsPerEpoch)
    (h2 : epoch2 = slot2 / config.slotsPerEpoch)
    (hrun : buildHeld api config tree oldState R1 R2 slot2 total1 = .ok d) :
    ∃ stateRoot1 siblings1 stateRoot2 siblings2 mutations accTree,
      findMutations R1 R2 epoch1 epoch2 ≠ [] ∧ R2.length ≤ 2 ^ config.validatorsTreeDepth ∧
      computeSszMerkleRoot P (registryRoot P config.validatorsTreeDepth R1)
        beaconStateValidatorsFieldIndex siblings1 = stateRoot1 ∧
      computeSszMerkleRoot P (registryRoot P config.validatorsTreeDepth R2)
        beaconStateValidatorsFieldIndex siblings2 = stateRoot2 ∧
      buildMutations R1 R2 epoch2 tree (findMutations R1 R2 epoch1 epoch2) =
        .ok (mutations, accTree) ∧
      d = {
        witness := {
          stateRoot1
          stateRoot2
          accRoot1 := tree.root
          totalActiveBalance1 := total1
          epoch1
          epoch2
          stateToValidatorsSiblings1 := siblings1
          stateToValidatorsSiblings2 := siblings2
          validatorsListLength1 := UInt64.ofNat R1.length
          validatorsListLength2 := UInt64.ofNat R2.length
          mutations
          sszMultiProof1 := canonicalAuxiliaries P.sha256Pair config.validatorsTreeDepth
            (registryLeaf P R1) (findMutations R1 R2 epoch1 epoch2)
          sszMultiProof2 := canonicalAuxiliaries P.sha256Pair config.validatorsTreeDepth
            (registryLeaf P R2) (findMutations R1 R2 epoch1 epoch2) }
        epochState := {
          slot := slot2
          stateRoot := stateRoot2
          stateToValidatorsSiblings := siblings2
          validatorRoots := buildValidatorRoots P R2
          sszDataRoot := root P.sha256Pair config.validatorsTreeDepth (registryLeaf P R2)
          numValidators := UInt64.ofNat R2.length }
        totalActiveBalance := activeBalance R2 epoch2
        numValidators := UInt64.ofNat R2.length
        accTree } := by
  simp only [buildHeld, ← h1, ← h2, hvalid.oldRoots, patchRoots_eq hgrow, Guest.bind_eq_ok,
    Guest.assert_eq_ok, exists_const, Guest.pure_eq_ok, Except.ok.injEq, exists_eq_left'] at hrun
  obtain ⟨hne, ⟨root1, aux1⟩, htree1, ⟨root2, aux2⟩, htree2, ⟨stateRoot1, siblings1⟩, hstate1,
    ⟨stateRoot2, siblings2⟩, hstate2, ⟨mutations, accTree⟩, hmutations, rfl⟩ := hrun
  have hlength : ∀ R : List ValidatorResponse, (buildValidatorRoots P R).length = R.length :=
    fun R => by simp [buildValidatorRoots]
  have hfits := length_le_of_buildValidatorsSszTree htree2
  rw [hlength] at hfits
  rw [buildValidatorsSszTree_eq (hgrow.length_le.trans hfits) findMutations_pairwise
    (findMutations_stored hgrow hroom hfits (.inl rfl))] at htree1
  rw [buildValidatorsSszTree_eq hfits findMutations_pairwise
    (findMutations_stored hgrow hroom hfits (.inr rfl))] at htree2
  -- both trees are over the same indices, those that `findMutations` lists
  obtain ⟨rfl, rfl⟩ := Prod.mk.inj (Except.ok.inj htree1)
  obtain ⟨rfl, rfl⟩ := Prod.mk.inj (Except.ok.inj htree2)
  refine ⟨stateRoot1, siblings1, stateRoot2, siblings2, mutations, accTree, hne, hfits,
    oldStateProof_opens hvalid hstate1, newStateProof_opens hstate2, hmutations, ?_⟩
  rw [hvalid.numValidators]

/-- **The circuit accepts what the host assembled**, and ends where the host's tree does. -/
theorem buildHeld_accepted (hgrow : Grows R1 R2) (hsize : R2.length < 2 ^ 64)
    (hagrees : ∀ i ∈ findMutations R1 R2 epoch1 epoch2, KeyAgrees P R2 i)
    (hkeeps : tree.Keeps (hostContents P R1 epoch1).digest)
    (hroom : R2.length ≤ 2 ^ max (Nat.clog 2 R1.length) 1)
    (hvalid : oldState.Valid config.validatorsTreeDepth R1)
    (h1 : epoch1 = oldState.slot / config.slotsPerEpoch)
    (h2 : epoch2 = slot2 / config.slotsPerEpoch)
    (hrun : buildHeld api config tree oldState R1 R2 slot2 total1 = .ok d) :
    (∃ out, verifyEpochDiffWithDepth d.witness config.validatorsTreeDepth tree.depth = .ok out ∧
      out.accRoot = d.accTree.root ∧
      (total1 = (hostContents P R1 epoch1).totalActiveBalance tree.depth →
        out.totalActiveBalance = (hostContents P R2 epoch2).totalActiveBalance tree.depth)) ∧
    d.accTree.Keeps (hostContents P R2 epoch2).digest ∧ d.accTree.depth = tree.depth ∧
    d.accTree.denseDepth = tree.denseDepth ∧
    (∀ i ∈ findMutations R1 R2 epoch1 epoch2, ∃ l, hostContents P R2 epoch2 i = some l) ∧
    d.totalActiveBalance = activeBalance R2 epoch2 ∧
    d.epochState.slot = slot2 ∧ d.epochState.Valid config.validatorsTreeDepth R2 := by
  obtain ⟨stateRoot1, siblings1, stateRoot2, siblings2, mutations, accTree, hne, hfits, hopens1,
    hopens2, hmutations, rfl⟩ := buildHeld_eq_ok hgrow hroom hvalid h1 h2 hrun
  have hnodup : ([] ++ findMutations R1 R2 epoch1 epoch2).Nodup :=
    findMutations_pairwise.imp fun h => ne_of_lt h
  have hstart : InStep tree R1 R2 epoch1 epoch2 total1 [] tree ⟨tree.root, total1, [], []⟩ := by
    refine ⟨⟨?_, rfl, rfl⟩, rfl, fun h => ?_, rfl, rfl⟩
    · rwa [midway_nil]
    · rwa [midway_nil]
  obtain ⟨hlengths, hcontents, s, hloop, hend⟩ :=
    InStep.run hgrow hsize hnodup hagrees hstart hmutations
  rw [List.nil_append] at hend
  have hmulti : ∀ R : List ValidatorResponse, (R = R1 ∨ R = R2) →
      verifySszMultiProof P
        ((findMutations R1 R2 epoch1 epoch2).map fun i => (registryLeaf P R i, i))
        (canonicalAuxiliaries P.sha256Pair config.validatorsTreeDepth (registryLeaf P R)
          (findMutations R1 R2 epoch1 epoch2)) config.validatorsTreeDepth =
        .ok (root P.sha256Pair config.validatorsTreeDepth (registryLeaf P R)) :=
    fun R hR => batchRoot_canonical hne findMutations_pairwise fun i hi =>
      (findMutations_stored hgrow hroom hfits hR i hi).2
  have hkeeps2 := midway_findMutations (P := P) hgrow ▸ hend.held.keeps
  refine ⟨⟨{
      prevAccumulatorCommitment := P.commitment tree.root total1
      stateRoot1
      epoch1
      accumulatorCommitment := P.commitment s.accRoot s.totalActiveBalance
      accRoot := s.accRoot
      totalActiveBalance := s.totalActiveBalance
      stateRoot2
      epoch2 }, ?_, hend.root, fun h => midway_findMutations (P := P) hgrow ▸ hend.total h⟩,
    hkeeps2, hend.held.depth, hend.held.dense, hcontents, rfl, rfl, ⟨rfl, .inr rfl, .inr hopens2⟩⟩
  simp only [verifyEpochDiffWithDepth, Guest.bind_eq_ok, Guest.assert_eq_ok, Guest.forM_eq_ok,
    Guest.pure_eq_ok, exists_const]
  exact ⟨hlengths, s, hloop, _, hend.old ▸ hmulti R1 (.inl rfl), _,
    hend.new ▸ hmulti R2 (.inr rfl), hopens1, hopens2, rfl⟩

/-- Validators that fit the power of two their predecessors rounded up to round up to the same
one. -/
theorem denseDepth_eq {n1 n2 depth : ℕ} (hle : n1 ≤ n2)
    (hroom : n2 ≤ 2 ^ min (max (Nat.clog 2 n1) 1) depth) :
    min (max (Nat.clog 2 n2) 1) depth = min (max (Nat.clog 2 n1) 1) depth := by
  have hmono : Nat.clog 2 n1 ≤ Nat.clog 2 n2 := Nat.clog_mono_right 2 hle
  have hclog : Nat.clog 2 n2 ≤ min (max (Nat.clog 2 n1) 1) depth := Nat.clog_le_of_le_pow hroom
  omega

/-- What the circuit makes of an assembled diff is what the host has: it is accepted, the root it
publishes is that of the tree left behind, which is the one a build over the second registry
gives; the total it publishes is the host's full sum, if it started from one; and what is cached
is a cache the next epoch can start from. -/
structure HeldDiff.Agrees (d : HeldDiff P) (config : DiffConfig) (depth : ℕ)
    (R1 R2 : List ValidatorResponse) (slot1 slot2 total1 : UInt64) : Prop where
  accepted : ∃ out, verifyEpochDiffWithDepth d.witness config.validatorsTreeDepth depth = .ok out ∧
    out.accRoot = d.accTree.root ∧
    (total1 = activeBalance R1 (slot1 / config.slotsPerEpoch) →
      out.totalActiveBalance = d.totalActiveBalance)
  accTree : AccTree.build (R2.map (·.data)) (slot2 / config.slotsPerEpoch) depth = .ok d.accTree
  totalActiveBalance : d.totalActiveBalance = activeBalance R2 (slot2 / config.slotsPerEpoch)
  numValidators : d.numValidators = UInt64.ofNat R2.length
  slot : d.epochState.slot = slot2
  epochState : d.epochState.Valid config.validatorsTreeDepth R2

/-- **Every key of the second registry can be read**, where those of the first can and every
changed position got a leaf: an old validator kept its key, and a new one was read for its leaf. -/
theorem decompress_of_grows (hgrow : Grows R1 R2)
    (hkeys : ∀ v ∈ R1, ∃ point, Pubkey.decompress P v.pubkey = some point)
    (hnamed : ∀ i ∈ findMutations R1 R2 epoch1 epoch2, ∃ l, hostContents P R2 epoch2 i = some l) :
    ∀ v ∈ R2, ∃ point, Pubkey.decompress P v.pubkey = some point := by
  intro v hv
  obtain ⟨i, hi, rfl⟩ := List.getElem_of_mem hv
  have hnew := List.getElem?_eq_getElem hi
  by_cases hin : i < R1.length
  · rw [← hgrow.pubkey _ _ _ (List.getElem?_eq_getElem hin) hnew]
    exact hkeys _ (List.getElem_mem hin)
  · obtain ⟨l, hl⟩ := hnamed i (mem_findMutations_of_new (not_lt.mp hin) hi)
    rcases hpoint : Pubkey.decompress P R2[i].pubkey with _ | point
    · simp [hostContents, contentsBy, hnew, hpoint] at hl
    · exact ⟨point, rfl⟩

/-- What the tree of the first registry stores reaches as far as the second. -/
theorem stored_of_room {depth : ℕ} {n : ℕ}
    (htree : AccTree.build (R1.map (·.data)) epoch1 depth = .ok tree)
    (hroom : n ≤ 2 ^ tree.denseDepth) :
    n ≤ 2 ^ tree.depth ∧ n ≤ 2 ^ max (Nat.clog 2 R1.length) 1 := by
  obtain ⟨-, hdense, -, hholds⟩ := AccTree.build_padded htree
  rw [List.length_map] at hdense
  exact ⟨hroom.trans (Nat.pow_le_pow_right (by omega) hholds.dense_le),
    hroom.trans (Nat.pow_le_pow_right (by omega) (hdense ▸ min_le_left _ _))⟩

theorem buildHeld_agrees {depth : ℕ} (hgrow : Grows R1 R2) (hsize : R2.length < 2 ^ 64)
    (htree : AccTree.build (R1.map (·.data)) (oldState.slot / config.slotsPerEpoch) depth =
      .ok tree)
    (hroom : R2.length ≤ 2 ^ tree.denseDepth)
    (hvalid : oldState.Valid config.validatorsTreeDepth R1)
    (hrun : buildHeld api config tree oldState R1 R2 slot2 total1 = .ok d)
    (hagrees : ∀ i ∈ findMutations R1 R2 (oldState.slot / config.slotsPerEpoch)
      (slot2 / config.slotsPerEpoch), KeyAgrees P R2 i) :
    d.Agrees config depth R1 R2 oldState.slot slot2 total1 := by
  obtain ⟨hdepth, hstored⟩ := stored_of_room htree hroom
  obtain ⟨rfl, hdense, hcount, hholds⟩ := AccTree.build_padded htree
  have hdepth1 := hgrow.length_le.trans hdepth
  rw [List.length_map] at hdense
  rw [hdense] at hroom
  obtain ⟨⟨out, hverify, hroot, htotal⟩, hkeeps, hdepth2, hdense2, hnamed, hsum, hslot, hnext⟩ :=
    buildHeld_accepted hgrow hsize hagrees
      (AccTree.paddedLeaves_registry hdepth1 ▸ ⟨hholds, hcount⟩) hstored hvalid rfl rfl hrun
  have hkeys1 : ∀ v ∈ R1, ∃ point, Pubkey.decompress P v.pubkey = some point := by
    intro v hv
    exact AccTree.build_isOk_iff.mp ⟨tree, htree⟩ v.data (List.mem_map_of_mem hv)
  have hkeys2 := decompress_of_grows hgrow hkeys1 hnamed
  obtain ⟨rebuilt, hrebuilt⟩ : ∃ rebuilt : AccTree P,
      AccTree.build (R2.map (·.data)) (slot2 / config.slotsPerEpoch) tree.depth = .ok rebuilt := by
    apply AccTree.build_isOk_iff.mpr
    intro v hv
    obtain ⟨r, hr, rfl⟩ := List.mem_map.mp hv
    exact hkeys2 r hr
  obtain ⟨hdepth', hdense', hcount', hholds'⟩ := AccTree.build_padded hrebuilt
  rw [AccTree.paddedLeaves_registry hdepth] at hholds'
  rw [List.length_map, denseDepth_eq hgrow.length_le hroom, ← hdense] at hdense'
  have hsame : rebuilt = d.accTree :=
    AccTree.Keeps.unique ⟨hholds', hcount'⟩ hkeeps (hdepth'.trans hdepth2.symm)
      (hdense'.trans hdense2.symm)
  refine ⟨⟨out, hverify, hroot, fun hstart => ?_⟩, hsame ▸ hrebuilt, hsum, ?_, hslot, hnext⟩
  · rw [hsum, ← totalActiveBalance_registry hdepth hkeys2]
    apply htotal
    rw [totalActiveBalance_registry hdepth1 hkeys1, hstart]
  · obtain ⟨_, _, _, _, _, _, _, _, _, _, _, rfl⟩ :=
      buildHeld_eq_ok hgrow hstored hvalid rfl rfl hrun
    rfl

/-- **Host and circuit agree exactly on the keys they read alike**: an epoch diff assembled over a
tree with room is one the circuit makes the same of, if and only if both read the key of every
validator that joined, changed, or flipped its activity alike. -/
theorem buildHeld_agrees_iff (hP : CollisionFree P) {depth : ℕ} (hgrow : Grows R1 R2)
    (hsize : R2.length < 2 ^ 64)
    (htree : AccTree.build (R1.map (·.data)) (oldState.slot / config.slotsPerEpoch) depth =
      .ok tree)
    (hroom : R2.length ≤ 2 ^ tree.denseDepth)
    (hvalid : oldState.Valid config.validatorsTreeDepth R1)
    (hrun : buildHeld api config tree oldState R1 R2 slot2 total1 = .ok d) :
    d.Agrees config depth R1 R2 oldState.slot slot2 total1 ↔
      ∀ i, Changed R1 R2 (oldState.slot / config.slotsPerEpoch) (slot2 / config.slotsPerEpoch) i →
        KeyAgrees P R2 i := by
  simp only [← mem_findMutations_iff hgrow]
  constructor
  · intro hagrees
    obtain ⟨hdepth, hstored⟩ := stored_of_room htree hroom
    obtain ⟨rfl, -, hcount, hholds⟩ := AccTree.build_padded htree
    rw [AccTree.paddedLeaves_registry (hgrow.length_le.trans hdepth)] at hholds
    obtain ⟨out, hverify, hroot, -⟩ := hagrees.accepted
    obtain ⟨_, _, _, _, mutations, accTree, -, -, -, -, hmutations, rfl⟩ :=
      buildHeld_eq_ok hgrow hstored hvalid rfl rfl hrun
    obtain ⟨s, -, -, -, hloop, -, -, -, -, rfl⟩ := verifyEpochDiff_eq_ok hverify
    have hstart : HostAt tree R1 R2 (oldState.slot / config.slotsPerEpoch)
        (slot2 / config.slotsPerEpoch) [] tree := by
      refine ⟨?_, rfl, rfl⟩
      rw [midway_nil]
      exact ⟨hholds, hcount⟩
    have hnodup : ([] ++ findMutations R1 R2 (oldState.slot / config.slotsPerEpoch)
        (slot2 / config.slotsPerEpoch)).Nodup := findMutations_pairwise.imp fun h => ne_of_lt h
    exact (KeyAgrees.of_run hP hgrow hsize hnodup hstart hmutations hloop hroot).1
  · exact buildHeld_agrees hgrow hsize htree hroom hvalid hrun

end Assembled

namespace Formal

/-- A node that serves no raw states. -/
def headerless : BeaconApi (formal {}) where
  RawState := Empty
  getStateSsz := fun _ => .ok none
  getStateRoot := fun _ => .ok none
  getHeader := fun _ => .error "not found"
  fieldHtrs := fun _ _ => .error "not found"

/-- One record, and the same validator's beside another's. -/
theorem grows_joined {v v' w : ValidatorResponse} (hkey : v.pubkey = v'.pubkey) :
    Grows [v] [v', w] := by
  refine ⟨by simp, fun i old new hold hnew => ?_⟩
  obtain rfl : i = 0 := by
    have := (List.getElem?_eq_some_iff.mp hold).1
    simpa using this
  obtain rfl := Option.some.inj hold
  obtain rfl := Option.some.inj hnew
  exact hkey

/-- Nothing cached but the slot and the length. -/
def EpochState.empty (slot numValidators : UInt64) : EpochState (formal {}) where
  slot := slot
  stateRoot := (formal {}).zeroChunk
  stateToValidatorsSiblings := []
  validatorRoots := []
  sszDataRoot := (formal {}).zeroChunk
  numValidators := numValidators

end Formal

/-- One validator loses a unit of balance and another one joins, in trees of two leaves. -/
theorem buildHeld_agrees_iff_growth : ∃ (tree : AccTree (Formal.formal {})) (d : HeldDiff _),
    AccTree.build [(Formal.validator 0 32).data] 0 1 = .ok tree ∧
    buildHeld Formal.headerless ⟨1, 32⟩ tree (Formal.EpochState.empty 0 1)
      [Formal.validator 0 32] [Formal.validator 0 31, Formal.validator 1 32] 32 32 = .ok d ∧
    d.Agrees ⟨1, 32⟩ 1 [Formal.validator 0 32] [Formal.validator 0 31, Formal.validator 1 32] 0
      32 32 := by
  obtain ⟨tree, htree, d, hrun, -⟩ : ∃ tree : AccTree (Formal.formal {}),
      AccTree.build [(Formal.validator 0 32).data] 0 1 = .ok tree ∧
      ∃ d, buildHeld Formal.headerless ⟨1, 32⟩ tree (Formal.EpochState.empty 0 1)
        [Formal.validator 0 32] [Formal.validator 0 31, Formal.validator 1 32] 32 32 = .ok d ∧
          True := by
    decide +kernel
  have hdense : tree.denseDepth = 1 := (AccTree.build_padded htree).2.1
  have hbuilt : AccTree.build ([Formal.validator 0 32].map (·.data))
      ((Formal.EpochState.empty 0 1).slot / (⟨1, 32⟩ : DiffConfig).slotsPerEpoch) 1 = .ok tree := by
    rw [show (Formal.EpochState.empty 0 1).slot / (⟨1, 32⟩ : DiffConfig).slotsPerEpoch = 0 by
      decide]
    exact htree
  have hvalid : (Formal.EpochState.empty 0 1).Valid 1 [Formal.validator 0 32] :=
    ⟨rfl, .inl rfl, .inl rfl⟩
  have hgrow : Grows [Formal.validator 0 32] [Formal.validator 0 31, Formal.validator 1 32] :=
    Formal.grows_joined rfl
  refine ⟨tree, d, htree, hrun, (buildHeld_agrees_iff (Formal.formal_collisionFree {}) hgrow
    (by decide) hbuilt (by rw [hdense]; decide) hvalid hrun).mpr fun i _ v hv => ?_⟩
  rcases i with _ | _ | i
  · obtain rfl := Option.some.inj hv
    rfl
  · obtain rfl := Option.some.inj hv
    rfl
  · cases hv

/-- **A key that only the host reads**: a validator joins with the point at infinity for its key.
The host assembles the diff, and the circuit refuses it. -/
theorem buildHeld_not_agrees :
    Grows [Formal.validator 0 32] [Formal.validator 0 32, Formal.validator 0xc0 32] ∧
    (Formal.EpochState.empty 0 1).Valid 1 [Formal.validator 0 32] ∧
    ∃ (tree : AccTree (Formal.formal {})) (d : HeldDiff _),
      AccTree.build [(Formal.validator 0 32).data] 0 1 = .ok tree ∧ 2 ≤ 2 ^ tree.denseDepth ∧
      buildHeld Formal.headerless ⟨1, 32⟩ tree (Formal.EpochState.empty 0 1)
        [Formal.validator 0 32] [Formal.validator 0 32, Formal.validator 0xc0 32] 32 32 = .ok d ∧
      ∀ out, verifyEpochDiffWithDepth d.witness 1 1 ≠ .ok out := by
  obtain ⟨tree, htree, hroom, d, hrun, hrefused⟩ : ∃ tree : AccTree (Formal.formal {}),
      AccTree.build [(Formal.validator 0 32).data] 0 1 = .ok tree ∧ 2 ≤ 2 ^ tree.denseDepth ∧
      ∃ d, buildHeld Formal.headerless ⟨1, 32⟩ tree (Formal.EpochState.empty 0 1)
        [Formal.validator 0 32] [Formal.validator 0 32, Formal.validator 0xc0 32] 32 32 = .ok d ∧
          (verifyEpochDiffWithDepth d.witness 1 1).isOk = false := by
    decide +kernel
  refine ⟨Formal.grows_joined rfl, ⟨rfl, .inl rfl, .inl rfl⟩, tree, d, htree, hroom, hrun,
    fun out hout => ?_⟩
  rw [hout] at hrefused
  cases hrefused

end Zkasper
