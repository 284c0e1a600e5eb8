import Zkasper.Bytes
import Mathlib.Logic.Function.Basic

/-! # What the circuits are built from

The hashes and the curve, which the prover's virtual machine supplies: Poseidon2
over the accumulator's digests, SHA-256 over 32-byte values, and the BLS12-381
library. A `Primitives` is any implementation of them, and every circuit below is
written over one.

Their value types are abstract, not byte arrays. No function from pairs of 32-byte
arrays to 32-byte arrays is injective, so a development over the real types could
only assume something false of the real hashes; over abstract types
`CollisionFree` says what the circuits rely on, and the free instance used for the
concrete runs satisfies it. Where the source reads raw bytes or words as a value —
an integer chunk, a public key in a witness, a digest in a word array — the value
is `ofBytes` or `ofWords` of them, the identity on the real types. -/

namespace Zkasper

structure Primitives where
  /-- `acc::Digest` -/
  Digest : Type
  /-- `[u8; 32]`, where it is a hash or is hashed -/
  Bytes32 : Type
  /-- `acc::G1Point` -/
  G1Point : Type
  /-- A point of the twist, which signatures and hashed messages are. -/
  G2Point : Type
  /-- `bls::Fp12` -/
  Fp12 : Type
  decEqDigest : DecidableEq Digest
  decEqBytes32 : DecidableEq Bytes32
  decEqG1Point : DecidableEq G1Point
  decEqG2Point : DecidableEq G2Point
  /-- `acc::ZERO` -/
  zero : Digest
  /-- `acc::compress` -/
  compress : Digest → Digest → Digest
  /-- `acc::leaf` -/
  leaf : G1Point → UInt64 → Digest
  /-- `acc::commitment` -/
  commitment : Digest → UInt64 → Digest
  /-- `acc::commit_fp12` -/
  commitFp12 : Fp12 → Digest
  /-- A digest read out of four words. -/
  digestOfWords : List UInt64 → Digest
  /-- A point read out of twelve words. -/
  pointOfWords : List UInt64 → G1Point
  /-- A 32-byte value given by its bytes. -/
  ofBytes : Bytes 32 → Bytes32
  /-- `ssz::sha256_pair` -/
  sha256Pair : Bytes32 → Bytes32 → Bytes32
  /-- `decompress_bls12_381`: the point, and whether it is the one at infinity. -/
  decompress : Bytes 48 → Option (G1Point × Bool)
  /-- `blst`'s `PublicKey::from_bytes`, by which the host reads a key: the point in the limbs that
  `decompress_bls12_381` writes it in. -/
  publicKeyFromBytes : Bytes 48 → Option G1Point
  /-- Whether two points share their `x` coordinate. -/
  sameX : G1Point → G1Point → Bool
  /-- `syscall_bls12_381_curve_add`, undefined on points that share their `x` coordinate. -/
  curveAdd : G1Point → G1Point → G1Point
  /-- `neg_bls12_381` -/
  neg : G1Point → G1Point
  /-- `add_complete_safe_bls12_381` -/
  addCompleteSafe : G1Point → G1Point → Option G1Point
  /-- `G1_IDENTITY` -/
  g1Identity : G1Point
  /-- `G1_GENERATOR` -/
  g1Generator : G1Point
  /-- `decompress_twist_bls12_381`: the point, and whether it is the one at infinity. -/
  decompressTwist : Bytes 96 → Option (G2Point × Bool)
  /-- `add_complete_safe_twist_bls12_381` -/
  addCompleteSafeTwist : G2Point → G2Point → Option G2Point
  /-- `G2_IDENTITY` -/
  g2Identity : G2Point
  /-- `is_on_subgroup_twist_bls12_381` -/
  isOnSubgroupTwist : G2Point → Bool
  /-- `hash_to_curve_g2_bls12_381` under the signature scheme's domain. -/
  hashToCurve : Bytes32 → G2Point
  /-- `miller_loop_batch` -/
  millerLoopBatch : List G1Point → List G2Point → Fp12
  /-- `FP12_ONE` -/
  fp12One : Fp12
  /-- `fp12_mul` -/
  fp12Mul : Fp12 → Fp12 → Fp12
  /-- `final_exp_is_one` -/
  finalExpIsOne : Fp12 → Bool

variable {P : Primitives}

instance : DecidableEq P.Digest := P.decEqDigest
instance : DecidableEq P.Bytes32 := P.decEqBytes32
instance : DecidableEq P.G1Point := P.decEqG1Point
instance : DecidableEq P.G2Point := P.decEqG2Point

namespace Primitives

variable (P)

/-- `[0u8; 32]` -/
def zeroChunk : P.Bytes32 := P.ofBytes (zeroBytes 32)

/-- `ssz::u64_to_chunk` -/
def chunk (val : UInt64) : P.Bytes32 := P.ofBytes (u64ToChunk val)

end Primitives

/-- **Collision freedom**: every hash is injective, a 32-byte value determines its
bytes, and neither zero value is a hash. The last is what makes an empty leaf
different from any leaf with a preimage: "an empty leaf cannot be opened as a
committee because no aggregate hashes to the zero digest". -/
structure CollisionFree (P : Primitives) : Prop where
  compress : Function.Injective2 P.compress
  leaf : Function.Injective2 P.leaf
  commitment : Function.Injective2 P.commitment
  commitFp12 : Function.Injective P.commitFp12
  ofBytes : Function.Injective P.ofBytes
  sha256Pair : Function.Injective2 P.sha256Pair
  leaf_ne_zero : ∀ p b, P.leaf p b ≠ P.zero
  sha256Pair_ne_zero : ∀ a b, P.sha256Pair a b ≠ P.zeroChunk

namespace CollisionFree

variable (hP : CollisionFree P)
include hP

theorem chunk_injective : Function.Injective P.chunk :=
  fun _ _ h => u64ToChunk_injective (hP.ofBytes h)

theorem chunk_inj {v w : UInt64} : P.chunk v = P.chunk w ↔ v = w :=
  hP.chunk_injective.eq_iff

theorem sha256Pair_inj {a b c d : P.Bytes32} :
    P.sha256Pair a b = P.sha256Pair c d ↔ a = c ∧ b = d :=
  hP.sha256Pair.eq_iff

end CollisionFree
end Zkasper
