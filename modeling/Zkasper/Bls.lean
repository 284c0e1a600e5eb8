import Zkasper.Types

/-! # BLS signatures

The half of a multi-pairing every proof computes: sums of public keys, the
grouping of signed messages by signing root, and the Miller-loop accumulator over
them. The final exponentiation is a separate step, because the proofs of one epoch
share one. -/

namespace Zkasper.Bls

variable (P : Primitives)

/-- `signing_root = sha256(attestation_data_root || domain)`. -/
def computeSigningRoot (attestationDataRoot domain : P.Bytes32) : P.Bytes32 :=
  P.sha256Pair attestationDataRoot domain

/-- Decompress a 48-byte public key into the form the accumulator leaf commits to. -/
def decompressPubkey (compressed : BlsPubkey) : Option P.G1Point := do
  let (point, isInfinity) ← P.decompress compressed
  if isInfinity then none else some point

/-! ## Sums of public keys -/

/-- A running sum of public keys, `none` while nothing has been added. -/
structure PointSum where
  value : Option P.G1Point := none

namespace PointSum

variable {P}

/-- Start from a point that is already a sum. -/
def fromPoint (point : P.G1Point) : PointSum P := ⟨some point⟩

/-- Add a point; `none` where the precompile is undefined, on a shared `x` coordinate. -/
def add (s : PointSum P) (point : P.G1Point) : Option (PointSum P) :=
  match s.value with
  | none => some ⟨some point⟩
  | some current =>
      if P.sameX current point then none else some ⟨some (P.curveAdd current point)⟩

def sub (s : PointSum P) (point : P.G1Point) : Option (PointSum P) := s.add (P.neg point)

/-- The sum so far, or `none` if nothing was ever added. -/
def get (s : PointSum P) : Option P.G1Point := s.value

end PointSum

/-- Aggregate public keys: every attester of one aggregate signs the same message. -/
def aggregatePoints (points : List P.G1Point) : Option P.G1Point := do
  let sum ← points.foldlM PointSum.add ⟨none⟩
  sum.get

/-! ## The Miller loop -/

/-- One message's signature check: who signed it, what they signed, and the
aggregate signatures over it. -/
structure SignedMessage where
  pubkeys : List P.G1Point
  signingRoot : P.Bytes32
  signatures : List BlsSignature

/-- What `miller_accumulator` carries from message to message: the distinct
signing roots so far, each with the sum of the keys paired against it, and the sum
of all the signatures. -/
structure Grouping where
  groups : List (P.Bytes32 × P.G1Point)
  signatureSum : P.G2Point

variable {P}

/-- Add one signature to the running sum. -/
def addSignature (sum : P.G2Point) (signature : BlsSignature) : Option P.G2Point := do
  let (sig, isInfinity) ← P.decompressTwist signature
  if isInfinity then none else P.addCompleteSafeTwist sum sig

/-- Fold a key into the group of its signing root, or open a new group at the end. -/
def foldGroup (root : P.Bytes32) (agg : P.G1Point) :
    List (P.Bytes32 × P.G1Point) → Option (List (P.Bytes32 × P.G1Point))
  | [] => some [(root, agg)]
  | (r, a) :: groups =>
      if r = root then do
        let merged ← P.addCompleteSafe a agg
        return (r, merged) :: groups
      else do
        let groups ← foldGroup root agg groups
        return (r, a) :: groups

/-- One message of the loop. -/
def addMessage (s : Grouping P) (m : SignedMessage P) : Option (Grouping P) :=
  if m.pubkeys = [] then none
  else do
    let agg ← aggregatePoints P m.pubkeys
    if m.signatures = [] then none
    else do
      let signatureSum ← m.signatures.foldlM addSignature s.signatureSum
      let groups ← foldGroup m.signingRoot agg s.groups
      return { groups, signatureSum }

/-- The Miller-loop half of a batch verification: everything except the final exponentiation. -/
def millerAccumulator (messages : List (SignedMessage P)) : Option P.Fp12 :=
  if messages = [] then none
  else do
    let s ← messages.foldlM addMessage { groups := [], signatureSum := P.g2Identity }
    if s.signatureSum = P.g2Identity ∨ !P.isOnSubgroupTwist s.signatureSum then none
    else if s.groups.any fun group => group.2 = P.g1Identity then none
    else
      return P.millerLoopBatch (s.groups.map (fun group => P.neg group.2) ++ [P.g1Generator])
        (s.groups.map (fun group => P.hashToCurve group.1) ++ [s.signatureSum])

/-- Verify many attestations with a single multi-pairing. -/
def verifyAttestationBatch (messages : List (SignedMessage P)) : Bool :=
  match millerAccumulator messages with
  | some f => P.finalExpIsOne f
  | none => false

end Zkasper.Bls
