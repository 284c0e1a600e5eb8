import Zkasper.Accumulator
import Zkasper.Bls
import Zkasper.Ssz
import Mathlib.Tactic.FinCases

/-! # Validator registries

The records a beacon state holds and the two trees built over them: the SSZ
registry, whose root the state commits to, and the accumulator at an epoch. The
circuit sees neither list; it sees field leaves, and a leaf set that hashes to a
record's root is that record's. -/

namespace Zkasper

open PerfectTree Merkle Ssz

variable (P : Primitives)

/-- A validator as the beacon state records it. -/
structure ValidatorResponse where
  pubkey : BlsPubkey
  effectiveBalance : UInt64
  activationEpoch : UInt64
  exitEpoch : UInt64
  withdrawalCredentials : Bytes 32
  slashed : Bool
  activationEligibilityEpoch : UInt64
  withdrawableEpoch : UInt64

namespace ValidatorResponse

/-- The fields the circuits read. -/
def data (v : ValidatorResponse) : ValidatorData :=
  ⟨v.pubkey, v.effectiveBalance, v.activationEpoch, v.exitEpoch⟩

/-- Split a 48-byte public key into two 32-byte SSZ chunks. -/
def pubkeyChunks (v : ValidatorResponse) : Fin 2 → Bytes 32
  | 0 => ⟨v.pubkey.1.take 32, by rw [List.length_take, v.pubkey.2]; rfl⟩
  | 1 => ⟨v.pubkey.1.drop 32 ++ List.replicate 16 0, by
      rw [List.length_append, List.length_drop, v.pubkey.2, List.length_replicate]⟩

/-- The eight field leaves of the record. -/
def fieldLeaves (v : ValidatorResponse) : Fin 8 → P.Bytes32
  | 0 => P.sha256Pair (P.ofBytes (v.pubkeyChunks 0)) (P.ofBytes (v.pubkeyChunks 1))
  | 1 => P.ofBytes v.withdrawalCredentials
  | 2 => P.chunk v.effectiveBalance
  | 3 => P.chunk (if v.slashed then 1 else 0)
  | 4 => P.chunk v.activationEligibilityEpoch
  | 5 => P.chunk v.activationEpoch
  | 6 => P.chunk v.exitEpoch
  | 7 => P.chunk v.withdrawableEpoch

end ValidatorResponse

/-! ## The two trees of a registry -/

/-- The leaf of the registry's SSZ data tree: a record's root, zero beyond the list. -/
def registryLeaf (R : List ValidatorResponse) (i : ℕ) : P.Bytes32 :=
  match R[i]? with
  | some v => validatorHashTreeRoot P (v.fieldLeaves P)
  | none => P.zeroChunk

/-- `hash_tree_root` of the registry, a list of at most `2 ^ sszDepth` records. -/
def registryRoot (sszDepth : ℕ) (R : List ValidatorResponse) : P.Bytes32 :=
  listHashTreeRoot P (root P.sha256Pair sszDepth (registryLeaf P R)) (UInt64.ofNat R.length)

/-- The registry hashes into a state root: it fits its list, and its root sits
under the state root at the validators field, along a branch of `branch` nodes. -/
def HashesInto (sszDepth branch : ℕ) (R : List ValidatorResponse) (stateRoot : P.Bytes32) : Prop :=
  R.length ≤ 2 ^ sszDepth ∧ ∃ siblings, siblings.length = branch ∧
    computeSszMerkleRoot P (registryRoot P sszDepth R) beaconStateValidatorsFieldIndex siblings =
      stateRoot

/-- The record of a position, or its activity, is not the same in the two states. -/
def Changed (R1 R2 : List ValidatorResponse) (epoch1 epoch2 : UInt64) (i : ℕ) : Prop :=
  R1[i]? ≠ R2[i]? ∨
    (R1[i]?.map fun v => v.data.isActive epoch1) ≠ R2[i]?.map fun v => v.data.isActive epoch2

variable {P}

/-- The accumulator of a registry at an epoch, under some reading of keys: each validator's key
with its active effective balance, nothing beyond the list. A key that cannot be read has no
leaf; no beacon state holds one. -/
def contentsBy (read : BlsPubkey → Option P.G1Point) (R : List ValidatorResponse)
    (epoch : UInt64) : Contents P := fun i => do
  let v ← R[i]?
  let point ← read v.pubkey
  return ⟨point, v.data.activeEffectiveBalance epoch⟩

section ContentsBy

variable {read : BlsPubkey → Option P.G1Point} {R R1 R2 : List ValidatorResponse}
  {epoch epoch1 epoch2 : UInt64} {i : ℕ}

theorem contentsBy_of_none (h : R[i]? = none) : contentsBy read R epoch i = none := by
  rw [contentsBy, h]
  rfl

theorem contentsBy_of_some {v : ValidatorResponse} {point : P.G1Point} (h : R[i]? = some v)
    (hpoint : read v.pubkey = some point) :
    contentsBy read R epoch i = some ⟨point, v.data.activeEffectiveBalance epoch⟩ := by
  rw [contentsBy, h, Option.bind_eq_bind, Option.bind_some, hpoint]
  rfl

/-- A position that holds a validator is within the list. -/
theorem lt_length_of_contentsBy {l : AccLeaf P} (h : contentsBy read R epoch i = some l) :
    i < R.length := by
  by_contra hlt
  rw [contentsBy_of_none (List.getElem?_eq_none (by omega))] at h
  cases h

/-- A position that has not changed has the leaf it had. -/
theorem contentsBy_of_not_changed (h : ¬ Changed R1 R2 epoch1 epoch2 i) :
    contentsBy read R1 epoch1 i = contentsBy read R2 epoch2 i := by
  obtain ⟨hrecord, hactivity⟩ := not_or.mp h
  have hsame := not_ne_iff.mp hrecord
  rw [not_ne_iff, hsame] at hactivity
  rw [contentsBy, contentsBy, hsame]
  cases hv : R2[i]? with
  | none => rfl
  | some v =>
      rw [hv] at hactivity
      have hactive : v.data.isActive epoch1 = v.data.isActive epoch2 := Option.some.inj hactivity
      have hbalance :
          v.data.activeEffectiveBalance epoch1 = v.data.activeEffectiveBalance epoch2 := by
        unfold ValidatorData.activeEffectiveBalance
        rw [hactive]
      simp only [Option.bind_eq_bind, Option.bind_some, hbalance]

end ContentsBy

variable (P) in
/-- The accumulator of a registry at an epoch, as the circuits read its keys. -/
def registryContents (R : List ValidatorResponse) (epoch : UInt64) : Contents P :=
  contentsBy (Bls.decompressPubkey P) R epoch

theorem registryContents_of_none {R : List ValidatorResponse} {epoch : UInt64} {i : ℕ}
    (h : R[i]? = none) : registryContents P R epoch i = none :=
  contentsBy_of_none h

theorem registryContents_of_some {R : List ValidatorResponse} {epoch : UInt64} {i : ℕ}
    {v : ValidatorResponse} {point : P.G1Point} (h : R[i]? = some v)
    (hpoint : Bls.decompressPubkey P v.pubkey = some point) :
    registryContents P R epoch i = some ⟨point, v.data.activeEffectiveBalance epoch⟩ :=
  contentsBy_of_some h hpoint

theorem lt_length_of_registryContents {R : List ValidatorResponse} {epoch : UInt64} {i : ℕ}
    {l : AccLeaf P} (h : registryContents P R epoch i = some l) : i < R.length :=
  lt_length_of_contentsBy h

/-! ## Field leaves bind the record -/

theorem validatorHashTreeRoot_injective (hP : CollisionFree P) :
    Function.Injective (validatorHashTreeRoot P) := by
  intro a b h
  simp only [validatorHashTreeRoot, hP.sha256Pair_inj] at h
  obtain ⟨⟨⟨h0, h1⟩, h2, h3⟩, ⟨h4, h5⟩, h6, h7⟩ := h
  funext i
  fin_cases i
  exacts [h0, h1, h2, h3, h4, h5, h6, h7]

theorem validatorHashTreeRoot_ne_zeroChunk (hP : CollisionFree P) (a : Fin 8 → P.Bytes32) :
    validatorHashTreeRoot P a ≠ P.zeroChunk :=
  hP.sha256Pair_ne_zero _ _

@[simp] theorem sharedSha256Pair_eq (oldL oldR newL newR : P.Bytes32) :
    sharedSha256Pair P oldL oldR newL newR = (P.sha256Pair oldL oldR, P.sha256Pair newL newR) := by
  unfold sharedSha256Pair
  split
  · next h => rw [h.1, h.2]
  · rfl

/-- Sharing the common subtrees computes the same two roots. -/
theorem validatorHashTreeRootPair_eq (a b : Fin 8 → P.Bytes32) :
    validatorHashTreeRootPair P a b = (validatorHashTreeRoot P a, validatorHashTreeRoot P b) := by
  simp [validatorHashTreeRootPair, validatorHashTreeRoot]

/-- **Data checked against a record's own leaves is the record's data.** -/
theorem verifyFieldLeaves_eq_ok (hP : CollisionFree P) {data : ValidatorData}
    {v : ValidatorResponse} {chunks : Fin 2 → Bytes 32} {u : Unit}
    (h : verifyFieldLeaves P data (v.fieldLeaves P) chunks = .ok u) : data = v.data := by
  simp only [verifyFieldLeaves, verifyFieldLeavesNoPubkeyHash, Guest.bind_eq_ok,
    Guest.assert_eq_ok, exists_const] at h
  obtain ⟨hleaf, h0, h1, -, hbalance, hactivation, hexit⟩ := h
  obtain ⟨hc0, hc1⟩ := hP.sha256Pair_inj.mp hleaf
  have hchunk0 : (chunks 0).1 = v.pubkey.1.take 32 :=
    congrArg Subtype.val (hP.ofBytes hc0).symm
  have hchunk1 : (chunks 1).1 = v.pubkey.1.drop 32 ++ List.replicate 16 0 :=
    congrArg Subtype.val (hP.ofBytes hc1).symm
  have hlen : ∀ k : BlsPubkey, (k.1.drop 32).take 16 = k.1.drop 32 := fun k =>
    List.take_of_length_le (by rw [List.length_drop, k.2])
  -- the chunks hold the key's first 32 and last 16 bytes
  have htake : v.pubkey.1.take 32 = data.pubkey.1.take 32 := by
    rw [← h0, hchunk0, List.take_take]
    rfl
  have hdrop : v.pubkey.1.drop 32 = data.pubkey.1.drop 32 := by
    rw [← hlen data.pubkey, ← h1, hchunk1,
      List.take_append_of_le_length (by rw [List.length_drop, v.pubkey.2]), hlen]
  have hkey : v.pubkey = data.pubkey := Subtype.ext (by
    rw [← List.take_append_drop 32 v.pubkey.1, htake, hdrop, List.take_append_drop])
  obtain ⟨pubkey, effectiveBalance, activationEpoch, exitEpoch⟩ := data
  rw [ValidatorResponse.data, ValidatorData.mk.injEq]
  exact ⟨hkey.symm, (hP.chunk_injective hbalance).symm, (hP.chunk_injective hactivation).symm,
    (hP.chunk_injective hexit).symm⟩

end Zkasper
