import Zkasper.Library.SimpleSerialize
import Zkasper.WitnessGen.SszState

/-! # A beacon state, as the consensus layer has it

The containers of an Electra or Fulu state on mainnet, and the codec of each: its fields in
their order, and for every field its type. Nothing here is taken from the table that
`ssz_state.rs` cuts a state by; that the table is the layout of this codec is a theorem. -/

namespace Zkasper.SszState

open SimpleSerialize SimpleSerialize.Codec

/-! ## Containers -/

/-- `Vector[α, n]` -/
abbrev Vec (α : Type) (n : ℕ) := { as : List α // as.length = n }

/-- `List[α, limit]` -/
abbrev Bounded (α : Type) (limit : ℕ) := { as : List α // as.length ≤ limit }

structure Fork where
  previousVersion : Bytes 4
  currentVersion : Bytes 4
  epoch : UInt64

structure BeaconBlockHeader where
  slot : UInt64
  proposerIndex : UInt64
  parentRoot : Bytes 32
  stateRoot : Bytes 32
  bodyRoot : Bytes 32

structure Eth1Data where
  depositRoot : Bytes 32
  depositCount : UInt64
  blockHash : Bytes 32

structure Checkpoint where
  epoch : UInt64
  root : Bytes 32

structure SyncCommittee where
  pubkeys : Vec (Bytes 48) 512
  aggregatePubkey : Bytes 48

structure ExecutionPayloadHeader where
  parentHash : Bytes 32
  feeRecipient : Bytes 20
  stateRoot : Bytes 32
  receiptsRoot : Bytes 32
  logsBloom : Bytes 256
  prevRandao : Bytes 32
  blockNumber : UInt64
  gasLimit : UInt64
  gasUsed : UInt64
  timestamp : UInt64
  extraData : Bounded UInt8 32
  baseFeePerGas : BitVec 256
  blockHash : Bytes 32
  transactionsRoot : Bytes 32
  withdrawalsRoot : Bytes 32
  blobGasUsed : UInt64
  excessBlobGas : UInt64

structure HistoricalSummary where
  blockSummaryRoot : Bytes 32
  stateSummaryRoot : Bytes 32

structure PendingDeposit where
  pubkey : Bytes 48
  withdrawalCredentials : Bytes 32
  amount : UInt64
  signature : Bytes 96
  slot : UInt64

structure PendingPartialWithdrawal where
  validatorIndex : UInt64
  amount : UInt64
  withdrawableEpoch : UInt64

structure PendingConsolidation where
  sourceIndex : UInt64
  targetIndex : UInt64

/-- A state of the Electra fork. -/
structure ElectraState where
  genesisTime : UInt64
  genesisValidatorsRoot : Bytes 32
  slot : UInt64
  fork : Fork
  latestBlockHeader : BeaconBlockHeader
  blockRoots : Vec (Bytes 32) 8192
  stateRoots : Vec (Bytes 32) 8192
  historicalRoots : Bounded (Bytes 32) (2 ^ 24)
  eth1Data : Eth1Data
  eth1DataVotes : Bounded Eth1Data 2048
  eth1DepositIndex : UInt64
  validators : Bounded ValidatorResponse (2 ^ 40)
  balances : Bounded UInt64 (2 ^ 40)
  randaoMixes : Vec (Bytes 32) 65536
  slashings : Vec UInt64 8192
  previousEpochParticipation : Bounded UInt8 (2 ^ 40)
  currentEpochParticipation : Bounded UInt8 (2 ^ 40)
  justificationBits : Vec Bool 4
  previousJustifiedCheckpoint : Checkpoint
  currentJustifiedCheckpoint : Checkpoint
  finalizedCheckpoint : Checkpoint
  inactivityScores : Bounded UInt64 (2 ^ 40)
  currentSyncCommittee : SyncCommittee
  nextSyncCommittee : SyncCommittee
  latestExecutionPayloadHeader : ExecutionPayloadHeader
  nextWithdrawalIndex : UInt64
  nextWithdrawalValidatorIndex : UInt64
  historicalSummaries : Bounded HistoricalSummary (2 ^ 24)
  depositRequestsStartIndex : UInt64
  depositBalanceToConsume : UInt64
  exitBalanceToConsume : UInt64
  earliestExitEpoch : UInt64
  consolidationBalanceToConsume : UInt64
  earliestConsolidationEpoch : UInt64
  pendingDeposits : Bounded PendingDeposit (2 ^ 27)
  pendingPartialWithdrawals : Bounded PendingPartialWithdrawal (2 ^ 27)
  pendingConsolidations : Bounded PendingConsolidation (2 ^ 18)

/-- A state of the Fulu fork. -/
structure FuluState extends ElectraState where
  proposerLookahead : Vec UInt64 64

/-- A state of a fork. -/
abbrev ForkedState : ConsensusFork → Type
  | .electra => ElectraState
  | .fulu => FuluState

/-- What a state of either fork has. -/
def ForkedState.electra {fork : ConsensusFork} (s : ForkedState fork) : ElectraState :=
  match fork, s with
  | .electra, s => s
  | .fulu, s => s.toElectraState

/-! ## Their codecs -/

section Codecs

variable {T : Type} (h : Hasher T)

def forkCodec : Codec T Fork :=
  container h [(bytes h 4).of Fork.previousVersion, (bytes h 4).of Fork.currentVersion,
    (uint64 h).of Fork.epoch]

def beaconBlockHeaderCodec : Codec T BeaconBlockHeader :=
  container h [(uint64 h).of BeaconBlockHeader.slot, (uint64 h).of BeaconBlockHeader.proposerIndex,
    (bytes h 32).of BeaconBlockHeader.parentRoot, (bytes h 32).of BeaconBlockHeader.stateRoot,
    (bytes h 32).of BeaconBlockHeader.bodyRoot]

def eth1DataCodec : Codec T Eth1Data :=
  container h [(bytes h 32).of Eth1Data.depositRoot, (uint64 h).of Eth1Data.depositCount,
    (bytes h 32).of Eth1Data.blockHash]

def checkpointCodec : Codec T Checkpoint :=
  container h [(uint64 h).of Checkpoint.epoch, (bytes h 32).of Checkpoint.root]

def syncCommitteeCodec : Codec T SyncCommittee :=
  container h [(vector h (bytes h 48) 512).of SyncCommittee.pubkeys,
    (bytes h 48).of SyncCommittee.aggregatePubkey]

def executionPayloadHeaderFields : List (Codec T ExecutionPayloadHeader) :=
  [(bytes h 32).of (·.parentHash), (bytes h 20).of (·.feeRecipient), (bytes h 32).of (·.stateRoot),
    (bytes h 32).of (·.receiptsRoot), (bytes h 256).of (·.logsBloom),
    (bytes h 32).of (·.prevRandao), (uint64 h).of (·.blockNumber), (uint64 h).of (·.gasLimit),
    (uint64 h).of (·.gasUsed), (uint64 h).of (·.timestamp),
    (list h (uint8 h) 32).of (·.extraData), (uint256 h).of (·.baseFeePerGas),
    (bytes h 32).of (·.blockHash), (bytes h 32).of (·.transactionsRoot),
    (bytes h 32).of (·.withdrawalsRoot), (uint64 h).of (·.blobGasUsed),
    (uint64 h).of (·.excessBlobGas)]

def executionPayloadHeaderCodec : Codec T ExecutionPayloadHeader :=
  container h (executionPayloadHeaderFields h)

def historicalSummaryCodec : Codec T HistoricalSummary :=
  container h [(bytes h 32).of HistoricalSummary.blockSummaryRoot,
    (bytes h 32).of HistoricalSummary.stateSummaryRoot]

def pendingDepositCodec : Codec T PendingDeposit :=
  container h [(bytes h 48).of PendingDeposit.pubkey,
    (bytes h 32).of PendingDeposit.withdrawalCredentials, (uint64 h).of PendingDeposit.amount,
    (bytes h 96).of PendingDeposit.signature, (uint64 h).of PendingDeposit.slot]

def pendingPartialWithdrawalCodec : Codec T PendingPartialWithdrawal :=
  container h [(uint64 h).of PendingPartialWithdrawal.validatorIndex,
    (uint64 h).of PendingPartialWithdrawal.amount,
    (uint64 h).of PendingPartialWithdrawal.withdrawableEpoch]

def pendingConsolidationCodec : Codec T PendingConsolidation :=
  container h [(uint64 h).of PendingConsolidation.sourceIndex,
    (uint64 h).of PendingConsolidation.targetIndex]

def validatorCodec : Codec T ValidatorResponse :=
  container h [(bytes h 48).of (·.pubkey), (bytes h 32).of (·.withdrawalCredentials),
    (uint64 h).of (·.effectiveBalance), (boolean h).of (·.slashed),
    (uint64 h).of (·.activationEligibilityEpoch), (uint64 h).of (·.activationEpoch),
    (uint64 h).of (·.exitEpoch), (uint64 h).of (·.withdrawableEpoch)]

/-- `List[Validator, VALIDATOR_REGISTRY_LIMIT]` -/
def validatorsCodec : Codec T (Bounded ValidatorResponse (2 ^ 40)) :=
  list h (validatorCodec h) (2 ^ 40)

/-- The fields of an Electra state, in their order. -/
def electraFields : List (Codec T ElectraState) :=
  [(uint64 h).of (·.genesisTime), (bytes h 32).of (·.genesisValidatorsRoot),
    (uint64 h).of (·.slot), (forkCodec h).of (·.fork),
    (beaconBlockHeaderCodec h).of (·.latestBlockHeader),
    (vector h (bytes h 32) 8192).of (·.blockRoots),
    (vector h (bytes h 32) 8192).of (·.stateRoots),
    (list h (bytes h 32) (2 ^ 24)).of (·.historicalRoots), (eth1DataCodec h).of (·.eth1Data),
    (list h (eth1DataCodec h) 2048).of (·.eth1DataVotes), (uint64 h).of (·.eth1DepositIndex),
    (validatorsCodec h).of (·.validators), (list h (uint64 h) (2 ^ 40)).of (·.balances),
    (vector h (bytes h 32) 65536).of (·.randaoMixes), (vector h (uint64 h) 8192).of (·.slashings),
    (list h (uint8 h) (2 ^ 40)).of (·.previousEpochParticipation),
    (list h (uint8 h) (2 ^ 40)).of (·.currentEpochParticipation),
    (bitvector h 4).of (·.justificationBits),
    (checkpointCodec h).of (·.previousJustifiedCheckpoint),
    (checkpointCodec h).of (·.currentJustifiedCheckpoint),
    (checkpointCodec h).of (·.finalizedCheckpoint),
    (list h (uint64 h) (2 ^ 40)).of (·.inactivityScores),
    (syncCommitteeCodec h).of (·.currentSyncCommittee),
    (syncCommitteeCodec h).of (·.nextSyncCommittee),
    (executionPayloadHeaderCodec h).of (·.latestExecutionPayloadHeader),
    (uint64 h).of (·.nextWithdrawalIndex), (uint64 h).of (·.nextWithdrawalValidatorIndex),
    (list h (historicalSummaryCodec h) (2 ^ 24)).of (·.historicalSummaries),
    (uint64 h).of (·.depositRequestsStartIndex), (uint64 h).of (·.depositBalanceToConsume),
    (uint64 h).of (·.exitBalanceToConsume), (uint64 h).of (·.earliestExitEpoch),
    (uint64 h).of (·.consolidationBalanceToConsume),
    (uint64 h).of (·.earliestConsolidationEpoch),
    (list h (pendingDepositCodec h) (2 ^ 27)).of (·.pendingDeposits),
    (list h (pendingPartialWithdrawalCodec h) (2 ^ 27)).of (·.pendingPartialWithdrawals),
    (list h (pendingConsolidationCodec h) (2 ^ 18)).of (·.pendingConsolidations)]

/-- Fulu adds the proposer lookahead. -/
def fuluFields : List (Codec T FuluState) :=
  (electraFields h).map (·.of FuluState.toElectraState) ++
    [(vector h (uint64 h) 64).of FuluState.proposerLookahead]

def stateFields : (fork : ConsensusFork) → List (Codec T (ForkedState fork))
  | .electra => electraFields h
  | .fulu => fuluFields h

def stateCodec (fork : ConsensusFork) : Codec T (ForkedState fork) :=
  container h (stateFields h fork)

end Codecs
end Zkasper.SszState
