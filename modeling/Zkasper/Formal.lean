import Zkasper.Library.PerfectTree
import Zkasper.Primitives
import Mathlib.Data.Fintype.Basic
import Mathlib.Algebra.Group.Pi.Basic
import Mathlib.Algebra.Ring.Int.Defs

/-! # The free instance

Primitives in which every hash is a constructor. A 32-byte value is a raw byte
string or a pair, a digest is the expression that computed it, a point is a formal
integer combination of four key generators, and a Miller-loop accumulator is the
list of what was paired against which message. The final exponentiation reads that
list, so it knows exactly whose keys are in it.

It is collision free by construction (`formal_collisionFree`), and everything in
it evaluates, so the circuits can be run on it. A run picks three things: the
digests and the points that words stand for, and who signed what. -/

namespace Zkasper.Formal

/-- A 32-byte value: raw bytes, or a hash. -/
inductive Term where
  | bytes (raw : List UInt8)
  | pair (left right : Term)
  deriving DecidableEq

/-- A combination of four key generators. -/
abbrev Point := Fin 4 → ℤ

/-- The public key of one generator. -/
def key (k : Fin 4) : Point := fun i => if i = k then 1 else 0

/-- What was paired against which message. -/
abbrev Pairing := List (Term × Point)

/-- An accumulator digest, as the expression that computed it. -/
inductive Digest where
  | zero
  | node (left right : Digest)
  | leaf (point : Point) (balance : UInt64)
  | commitment (root : Digest) (total : UInt64)
  | fp12 (f : Pairing)
  deriving DecidableEq

/-- The root over `2 ^ d` empty leaves. -/
def emptyRoot (d : ℕ) : Digest := PerfectTree.root Digest.node d fun _ => .zero

/-- A point of the twist: the identity, a hashed message, or some signature. -/
inductive Twist where
  | identity
  | message (m : Term)
  | signature
  deriving DecidableEq

/-- What one run fixes: the digests its words stand for, and who signed what. -/
structure Scenario where
  digests : List Digest := []
  signed : Fin 4 → Term → Bool := fun _ _ => false

/-- The key a word or a byte stands for. -/
def keyAt (n : ℕ) : Option Point := if h : n < 4 then some (key ⟨n, h⟩) else none

/-- The coefficient of key `k` in what is paired against `m`. -/
def coefficient (f : Pairing) (m : Term) (k : Fin 4) : ℤ :=
  (f.map fun entry => if entry.1 = m then entry.2 k else 0).sum

/-- The pairs of a batch that pair a point against a hashed message. -/
def pairs : List Point → List Twist → Pairing
  | p :: ps, .message m :: qs => (m, fun k => -p k) :: pairs ps qs
  | _ :: ps, _ :: qs => pairs ps qs
  | _, _ => []

/-- The primitives of a scenario. -/
@[reducible] def formal (S : Scenario) : Primitives where
  Digest := Digest
  Bytes32 := Term
  G1Point := Point
  G2Point := Twist
  Fp12 := Pairing
  decEqDigest := inferInstance
  decEqBytes32 := inferInstance
  decEqG1Point := inferInstance
  decEqG2Point := inferInstance
  zero := .zero
  compress := .node
  leaf := .leaf
  commitment := .commitment
  commitFp12 := .fp12
  digestOfWords words := S.digests.getD (words.headD 0).toNat .zero
  pointOfWords words := (keyAt (words.headD 0).toNat).getD fun _ => 0
  ofBytes raw := .bytes raw.1
  sha256Pair := .pair
  decompress raw :=
    if raw.1.headD 0 = 0xc0 then some (fun _ => 0, true)
    else (keyAt (raw.1.headD 0).toNat).map fun p => (p, false)
  publicKeyFromBytes raw :=
    if raw.1.headD 0 = 0xc0 then some fun _ => 0 else keyAt (raw.1.headD 0).toNat
  sameX p q := decide (p = q ∨ p = fun k => -q k)
  curveAdd p q k := p k + q k
  neg p k := -p k
  addCompleteSafe p q := some fun k => p k + q k
  g1Identity _ := 0
  g1Generator _ := 0
  decompressTwist _ := some (.signature, false)
  addCompleteSafeTwist _ _ := some .signature
  g2Identity := .identity
  isOnSubgroupTwist _ := true
  hashToCurve := .message
  millerLoopBatch := pairs
  fp12One := []
  fp12Mul := (· ++ ·)
  finalExpIsOne f :=
    f.all fun entry => (List.finRange 4).all fun k =>
      coefficient f entry.1 k = 0 || S.signed k entry.1

theorem formal_collisionFree (S : Scenario) : CollisionFree (formal S) where
  compress _ _ _ _ h := Digest.node.inj h
  leaf _ _ _ _ h := Digest.leaf.inj h
  commitment _ _ _ _ h := Digest.commitment.inj h
  commitFp12 _ _ h := Digest.fp12.inj h
  ofBytes _ _ h := Subtype.ext (Term.bytes.inj h)
  sha256Pair _ _ _ _ h := Term.pair.inj h
  leaf_ne_zero _ _ h := Digest.noConfusion h
  sha256Pair_ne_zero _ _ h := Term.noConfusion h

end Zkasper.Formal
