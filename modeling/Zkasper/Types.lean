import Zkasper.Primitives

/-! # Records

The validators, openings and attestations the circuits share, field for field. A
witness that only one circuit reads is defined beside that circuit, and so is what
it publishes. -/

namespace Zkasper

/-- 48-byte BLS public key. -/
abbrev BlsPubkey := Bytes 48

/-- 96-byte BLS signature. -/
abbrev BlsSignature := Bytes 96

/-- Minimal validator data: only the fields the circuits need. -/
structure ValidatorData where
  pubkey : BlsPubkey
  effectiveBalance : UInt64
  activationEpoch : UInt64
  exitEpoch : UInt64

namespace ValidatorData

/-- Whether this validator is active at the given epoch. -/
def isActive (v : ValidatorData) (epoch : UInt64) : Bool :=
  v.activationEpoch ≤ epoch && epoch < v.exitEpoch

/-- `effective_balance` if active, else 0. -/
def activeEffectiveBalance (v : ValidatorData) (epoch : UInt64) : UInt64 :=
  if v.isActive epoch then v.effectiveBalance else 0

end ValidatorData

variable (P : Primitives)

/-- A validator named in a witness, with the leaf preimage that opens it against
the accumulator. -/
structure OpenedValidator where
  validatorIndex : UInt64
  pubkey : P.G1Point
  activeEffectiveBalance : UInt64

/-- What an attestation says, field for field: the head it votes for, and the FFG link. -/
structure AttestationData where
  slot : UInt64
  index : UInt64
  beaconBlockRoot : P.Bytes32
  sourceEpoch : UInt64
  sourceRoot : P.Bytes32
  targetEpoch : UInt64
  targetRoot : P.Bytes32

/-- One aggregated attestation. -/
structure AttestationWitness where
  dataSlot : UInt64
  dataIndex : UInt64
  dataBeaconBlockRoot : P.Bytes32
  dataSourceEpoch : UInt64
  dataSourceRoot : P.Bytes32
  dataTargetEpoch : UInt64
  dataTargetRoot : P.Bytes32
  signature : BlsSignature
  /-- Signers whose keys are enumerated and opened; none for an aggregate whose key is derived. -/
  attestingValidators : List (OpenedValidator P)

/-- One slot's committee, summed: the universe its attesters are the complement of. -/
structure CommitteeAggregate where
  pubkey : P.G1Point
  balance : UInt64

/-- One attestation slot, proven by complement: `secondary` and `absentees` name
everyone who is not a signer of `primary`, and `primary`'s aggregate key is what
is left over. -/
structure SlotComplementWitness where
  slotInEpoch : UInt64
  committee : CommitteeAggregate P
  primary : List (AttestationWitness P)
  secondary : List (AttestationWitness P)
  absentees : List (OpenedValidator P)

/-- The five fields of a `BeaconBlockHeader`, enough to recompute its root. -/
structure BlockHeaderFields where
  slot : UInt64
  proposerIndex : UInt64
  parentRoot : P.Bytes32
  stateRoot : P.Bytes32
  bodyRoot : P.Bytes32

/-- Public outputs of an epoch-diff proof. -/
structure EpochDiffOutput where
  prevAccumulatorCommitment : P.Digest
  stateRoot1 : P.Bytes32
  epoch1 : UInt64
  accumulatorCommitment : P.Digest
  accRoot : P.Digest
  totalActiveBalance : UInt64
  stateRoot2 : P.Bytes32
  epoch2 : UInt64

/-- Public outputs of a finalization proof. -/
structure FinalizationOutput where
  /-- Accumulator epoch E was justified against. -/
  accumulatorCommitment : P.Digest
  /-- Accumulator epoch E+1 was justified against. -/
  nextAccumulatorCommitment : P.Digest
  finalizedEpoch : UInt64
  finalizedRoot : P.Bytes32
  /-- Beacon state root at the first slot of the finalized epoch. -/
  finalizedStateRoot : P.Bytes32

/-- Public outputs of a committee proof. -/
structure CommitteeOutput where
  accumulatorCommitment : P.Digest
  targetEpoch : UInt64
  /-- Root of the tree of per-slot aggregates. -/
  committeeRoot : P.Digest

variable {P}

/-- The `AttestationData` an aggregate carries. -/
def AttestationWitness.data (a : AttestationWitness P) : AttestationData P :=
  ⟨a.dataSlot, a.dataIndex, a.dataBeaconBlockRoot, a.dataSourceEpoch, a.dataSourceRoot,
    a.dataTargetEpoch, a.dataTargetRoot⟩

/-- The attestations a slot is counted by: its primary aggregates, then its other messages. -/
def SlotComplementWitness.attestations (s : SlotComplementWitness P) : List (AttestationWitness P) :=
  s.primary ++ s.secondary

/-- Everyone a slot names: the signers of its other messages, then the absentees. -/
def SlotComplementWitness.named (s : SlotComplementWitness P) : List (OpenedValidator P) :=
  s.secondary.flatMap (·.attestingValidators) ++ s.absentees

end Zkasper
