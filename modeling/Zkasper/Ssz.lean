import Zkasper.Merkle
import Zkasper.Types

/-! # SSZ hashing

`hash_tree_root` of the containers the circuits recompute, over SHA-256, and the
check that ties a validator's claimed data to its field leaves. Under collision
freedom each of them determines the fields it was computed from; that is stated
once here, beside each definition, and the circuits never unfold a tree. -/

namespace Zkasper.Ssz

open Merkle

variable (P : Primitives)

/-! ## Validators -/

/-- The eight field leaves of a validator, merkleized. -/
def validatorHashTreeRoot (fieldLeaves : Fin 8 → P.Bytes32) : P.Bytes32 :=
  let n0 := P.sha256Pair (fieldLeaves 0) (fieldLeaves 1)
  let n1 := P.sha256Pair (fieldLeaves 2) (fieldLeaves 3)
  let n2 := P.sha256Pair (fieldLeaves 4) (fieldLeaves 5)
  let n3 := P.sha256Pair (fieldLeaves 6) (fieldLeaves 7)
  let n4 := P.sha256Pair n0 n1
  let n5 := P.sha256Pair n2 n3
  P.sha256Pair n4 n5

/-- Hash two pairs, but compute only once if both pairs are identical. -/
def sharedSha256Pair (oldL oldR newL newR : P.Bytes32) : P.Bytes32 × P.Bytes32 :=
  if oldL = newL ∧ oldR = newR then
    let h := P.sha256Pair newL newR
    (h, h)
  else (P.sha256Pair oldL oldR, P.sha256Pair newL newR)

/-- Both roots of a validator, old and new, sharing the subtrees they have in common. -/
def validatorHashTreeRootPair (oldLeaves newLeaves : Fin 8 → P.Bytes32) :
    P.Bytes32 × P.Bytes32 :=
  let (oldN0, newN0) := sharedSha256Pair P (oldLeaves 0) (oldLeaves 1) (newLeaves 0) (newLeaves 1)
  let (oldN1, newN1) := sharedSha256Pair P (oldLeaves 2) (oldLeaves 3) (newLeaves 2) (newLeaves 3)
  let (oldN2, newN2) := sharedSha256Pair P (oldLeaves 4) (oldLeaves 5) (newLeaves 4) (newLeaves 5)
  let (oldN3, newN3) := sharedSha256Pair P (oldLeaves 6) (oldLeaves 7) (newLeaves 6) (newLeaves 7)
  let (oldN4, newN4) := sharedSha256Pair P oldN0 oldN1 newN0 newN1
  let (oldN5, newN5) := sharedSha256Pair P oldN2 oldN3 newN2 newN3
  sharedSha256Pair P oldN4 oldN5 newN4 newN5

/-- The check `verify_field_leaves` and its variant share: the claimed data is
what the chunks and the leaves encode. -/
def verifyFieldLeavesNoPubkeyHash (data : ValidatorData) (fieldLeaves : Fin 8 → P.Bytes32)
    (pubkeyChunks : Fin 2 → Bytes 32) : Guest Unit := do
  Guest.assert ((pubkeyChunks 0).1.take 32 = data.pubkey.1.take 32) "pubkey chunk 0 mismatch"
  Guest.assert ((pubkeyChunks 1).1.take 16 = (data.pubkey.1.drop 32).take 16)
    "pubkey chunk 1 mismatch"
  Guest.assert ((pubkeyChunks 1).1.drop 16 = List.replicate 16 0)
    "pubkey chunk 1 padding not zero"
  Guest.assert (fieldLeaves 2 = P.chunk data.effectiveBalance) "effective_balance leaf mismatch"
  Guest.assert (fieldLeaves 5 = P.chunk data.activationEpoch) "activation_epoch leaf mismatch"
  Guest.assert (fieldLeaves 6 = P.chunk data.exitEpoch) "exit_epoch leaf mismatch"

/-- Verify that the SSZ field leaves are consistent with the claimed
`ValidatorData`, the public key's hash included. Leaves 1, 3, 4 and 7 are opaque. -/
def verifyFieldLeaves (data : ValidatorData) (fieldLeaves : Fin 8 → P.Bytes32)
    (pubkeyChunks : Fin 2 → Bytes 32) : Guest Unit := do
  Guest.assert
    (fieldLeaves 0 = P.sha256Pair (P.ofBytes (pubkeyChunks 0)) (P.ofBytes (pubkeyChunks 1)))
    "pubkey leaf mismatch"
  verifyFieldLeavesNoPubkeyHash P data fieldLeaves pubkeyChunks

/-! ## Lists, states and proofs -/

/-- `BEACON_STATE_VALIDATORS_FIELD_INDEX` -/
def beaconStateValidatorsFieldIndex : ℕ := 11

/-- SSZ list root: `sha256(data_tree_root || le_pad32(length))`. -/
def listHashTreeRoot (dataTreeRoot : P.Bytes32) (length : UInt64) : P.Bytes32 :=
  P.sha256Pair dataTreeRoot (P.chunk length)

/-- Compute a SHA-256 Merkle root from leaf, index, and siblings. -/
def computeSszMerkleRoot (leaf : P.Bytes32) (index : ℕ) (siblings : List P.Bytes32) : P.Bytes32 :=
  computeRoot P.sha256Pair leaf index siblings

/-- Recompute the SSZ root covering many leaves at once. -/
def verifySszMultiProof (leaves : List (P.Bytes32 × ℕ)) (auxiliaries : List P.Bytes32)
    (depth : ℕ) : Guest P.Bytes32 :=
  batchRoot P.sha256Pair leaves auxiliaries depth

/-! ## Attestations and headers -/

/-- `hash_tree_root(Checkpoint)` from its two fields. -/
def checkpointLeaf (epoch : UInt64) (root : P.Bytes32) : P.Bytes32 :=
  P.sha256Pair (P.chunk epoch) root

/-- The FFG link an attestation votes for, as one digest. -/
def checkpointDigest (sourceEpoch : UInt64) (sourceRoot : P.Bytes32) (targetEpoch : UInt64)
    (targetRoot : P.Bytes32) : P.Bytes32 :=
  P.sha256Pair (checkpointLeaf P sourceEpoch sourceRoot) (checkpointLeaf P targetEpoch targetRoot)

/-- `hash_tree_root(AttestationData)`: five fields in an eight-leaf tree. -/
def attestationDataRoot (d : AttestationData P) : P.Bytes32 :=
  let zero := P.zeroChunk
  let field3 := checkpointLeaf P d.sourceEpoch d.sourceRoot
  let field4 := checkpointLeaf P d.targetEpoch d.targetRoot
  let n0 := P.sha256Pair (P.chunk d.slot) (P.chunk d.index)
  let n1 := P.sha256Pair d.beaconBlockRoot field3
  let n2 := P.sha256Pair field4 zero
  let n3 := P.sha256Pair zero zero
  let n4 := P.sha256Pair n0 n1
  let n5 := P.sha256Pair n2 n3
  P.sha256Pair n4 n5

/-- `hash_tree_root(BeaconBlockHeader)` from its five fields. -/
def blockHeaderRoot (h : BlockHeaderFields P) : P.Bytes32 :=
  let zero := P.zeroChunk
  let n0 := P.sha256Pair (P.chunk h.slot) (P.chunk h.proposerIndex)
  let n1 := P.sha256Pair h.parentRoot h.stateRoot
  let n2 := P.sha256Pair h.bodyRoot zero
  let n3 := P.sha256Pair zero zero
  P.sha256Pair (P.sha256Pair n0 n1) (P.sha256Pair n2 n3)

variable {P}

theorem attestationDataRoot_injective (hP : CollisionFree P) :
    Function.Injective (attestationDataRoot P) := by
  rintro ⟨s, i, b, se, sr, te, tr⟩ ⟨s', i', b', se', sr', te', tr'⟩ h
  simp only [attestationDataRoot, checkpointLeaf, hP.sha256Pair_inj, hP.chunk_inj] at h
  simp only [AttestationData.mk.injEq]
  tauto

/-- SHA-256 alone binds a header: no other hash is on its way. -/
theorem blockHeaderRoot_injective_of_sha256 (hbytes : Function.Injective P.ofBytes)
    (hsha : Function.Injective2 P.sha256Pair) : Function.Injective (blockHeaderRoot P) := by
  have hchunk : Function.Injective P.chunk := fun _ _ h => u64ToChunk_injective (hbytes h)
  rintro ⟨s, i, p, r, b⟩ ⟨s', i', p', r', b'⟩ h
  simp only [blockHeaderRoot, hsha.eq_iff, hchunk.eq_iff] at h
  simp only [BlockHeaderFields.mk.injEq]
  tauto

theorem blockHeaderRoot_injective (hP : CollisionFree P) :
    Function.Injective (blockHeaderRoot P) :=
  blockHeaderRoot_injective_of_sha256 hP.ofBytes hP.sha256Pair

theorem checkpointDigest_inj (hP : CollisionFree P) {se te se' te' : UInt64}
    {sr tr sr' tr' : P.Bytes32} :
    checkpointDigest P se sr te tr = checkpointDigest P se' sr' te' tr' ↔
      (se = se' ∧ sr = sr') ∧ te = te' ∧ tr = tr' := by
  simp only [checkpointDigest, checkpointLeaf, hP.sha256Pair_inj, hP.chunk_inj]

end Zkasper.Ssz
