import Zkasper.Library.Chunks
import Zkasper.Library.Panics
import Zkasper.WitnessGen.StateDiff
import Mathlib.Data.Fin.VecNotation
import Mathlib.Data.Nat.Size
import Mathlib.Tactic.IntervalCases

/-! # Reading a raw state

`ssz_state.rs`: a serialised `BeaconState` is cut into its fields by a table of their sizes
and by the offsets found in it, and every field is hashed by a function of its own. The bytes
come from a node, and every slice taken of them is one that may be out of range.

The functions that hash return plain values, so where they do not return they panic; each is
a partial function here, and its lemma says on which bytes it returns. -/

namespace Zkasper

open Merkle PerfectTree Ssz Panics

namespace SszState

/-! ## The layout of a fork -/

inductive ConsensusFork where
  | electra
  | fulu
deriving DecidableEq

/-- The part of the chain's configuration that says how a state is laid out. -/
structure StateConfig where
  slotsPerEpoch : UInt64
  /-- First epoch at which the Fulu fork is active. -/
  fuluForkEpoch : UInt64

/-- The consensus fork active at `slot`. No chain has epochs of no slots: the source's division by
zero would end the process, and here it gives epoch 0. -/
def StateConfig.forkAtSlot (config : StateConfig) (slot : UInt64) : ConsensusFork :=
  if config.fuluForkEpoch ≤ slot / config.slotsPerEpoch then .fulu else .electra

/-- Indices of variable-size fields, the same for both forks. -/
def variableFieldIndices : List ℕ := [7, 9, 11, 12, 15, 16, 21, 24, 27, 34, 35, 36]

/-- Fixed-portion sizes for the first 37 fields; a variable one has an offset there. -/
def fieldFixedSizesElectra : List ℕ :=
  [8, 32, 8, 16, 112, 262144, 262144, 4, 72, 4, 8, 4, 4, 2097152, 65536, 4, 4, 1, 40, 40, 40, 4,
    24624, 24624, 4, 8, 8, 4, 8, 8, 8, 8, 8, 8, 4, 4, 4]

/-- Fulu adds field 37, the proposer lookahead. -/
def fuluExtraFieldSize : ℕ := 512

def fieldCount : ConsensusFork → ℕ
  | .electra => 37
  | .fulu => 38

def fieldFixedSizes (fork : ConsensusFork) : List ℕ :=
  fieldFixedSizesElectra ++ if fork = .fulu then [fuluExtraFieldSize] else []

/-- Where a field, or its offset, stands in the fixed portion. -/
def fieldStart (fork : ConsensusFork) (i : ℕ) : ℕ := ((fieldFixedSizes fork).take i).sum

/-- Read the slot (field 2), always at offset 40. -/
def extractSlot (raw : List UInt8) : Option UInt64 := do
  return UInt64.ofNat (fromLeBytes (← slice raw 40 48))

/-- Give every variable field its range: from its offset to the next one, and the last to the
end. -/
def assignRanges (stop : ℕ) : List (ℕ × ℕ) → List (ℕ × ℕ) → List (ℕ × ℕ)
  | [], ranges => ranges
  | (fieldIdx, start) :: offsets, ranges =>
      assignRanges stop offsets (ranges.set fieldIdx (start, (offsets.head?.map (·.2)).getD stop))

/-- Extract the byte ranges of each field from a raw state. -/
def parseFieldRanges (raw : List UInt8) (fork : ConsensusFork) :
    Outcome String (List (ℕ × ℕ)) := do
  let sizes := fieldFixedSizes fork
  ensure (sizes.sum ≤ raw.length) "SSZ state too small"
  let indices := List.range (fieldCount fork)
  let fixedRanges := indices.map fun i =>
    if i ∈ variableFieldIndices then (0, 0)
    else (fieldStart fork i, fieldStart fork i + sizes.getD i 0)
  let variableOffsets ← ofPanics <| (indices.filter (· ∈ variableFieldIndices)).mapM fun i => do
    return (i, fromLeBytes (← slice raw (fieldStart fork i) (fieldStart fork i + 4)))
  -- stable, as the source's sort is
  let sorted := variableOffsets.insertionSort (·.2 ≤ ·.2)
  return assignRanges raw.length sorted fixedRanges

/-! ## Hashing -/

section Hashing

variable (P : Primitives)

/-- Pad a byte slice to a 32-byte chunk. -/
def padToChunk (data : List UInt8) : P.Bytes32 :=
  P.ofBytes ⟨data.take 32 ++ List.replicate (32 - data.length) 0, by simp; omega⟩

/-- Merkleize chunks into a tree of a depth, hashing only the part under the next power of
two; it panics on more chunks than the tree has leaves. -/
def merkleizeChunks (chunks : List P.Bytes32) (depth : ℕ) : Option P.Bytes32 :=
  if depth = 0 then some (chunks.headD P.zeroChunk)
  else
    let zeroHashes := List.iterate (fun zero => P.sha256Pair zero zero) P.zeroChunk (depth + 1)
    if chunks.isEmpty then some (zeroHashes.getD depth P.zeroChunk)
    else
      let denseDepth := min (max (Nat.clog 2 chunks.length) 1) depth
      if chunks.length ≤ 2 ^ denseDepth then
        let leaves := chunks ++ List.replicate (2 ^ denseDepth - chunks.length) P.zeroChunk
        let levels := List.iterate (parents P.sha256Pair) leaves (denseDepth + 1)
        some <| (List.range' denseDepth (depth - denseDepth)).foldl
          (fun root d => P.sha256Pair root (zeroHashes.getD d P.zeroChunk))
          ((levels.getD denseDepth []).getD 0 P.zeroChunk)
      else none

/-- Merkleize exactly 8 fixed fields. -/
def merkleizeFixedFields (fields : Fin 8 → P.Bytes32) : P.Bytes32 :=
  let n0 := P.sha256Pair (fields 0) (fields 1)
  let n1 := P.sha256Pair (fields 2) (fields 3)
  let n2 := P.sha256Pair (fields 4) (fields 5)
  let n3 := P.sha256Pair (fields 6) (fields 7)
  let n4 := P.sha256Pair n0 n1
  let n5 := P.sha256Pair n2 n3
  P.sha256Pair n4 n5

/-- Mix in the list length. -/
def mixInLength (dataRoot : P.Bytes32) (length : UInt64) : P.Bytes32 :=
  P.sha256Pair dataRoot (P.chunk length)

/-! ### Primitive values -/

def htrUint64 (data : List UInt8) : Option P.Bytes32 := do
  return padToChunk P (← slice data 0 8)

def htrBytes32 (data : List UInt8) : Option P.Bytes32 := do
  return padToChunk P (← slice data 0 32)

def htrBitvector4 (data : List UInt8) : Option P.Bytes32 := do
  return padToChunk P (← slice data 0 1)

/-- 48 bytes, two chunks. -/
def htrBlsPubkey (data : List UInt8) : Option P.Bytes32 := do
  let chunk0 := padToChunk P (← slice data 0 32)
  let chunk1 := padToChunk P (← slice data 32 48)
  return P.sha256Pair chunk0 chunk1

/-- 96 bytes, three chunks. -/
def htrBlsSignature (data : List UInt8) : Option P.Bytes32 := do
  let chunk0 := padToChunk P (← slice data 0 32)
  let chunk1 := padToChunk P (← slice data 32 64)
  let chunk2 := padToChunk P (← slice data 64 96)
  let n0 := P.sha256Pair chunk0 chunk1
  let n1 := P.sha256Pair chunk2 P.zeroChunk
  return P.sha256Pair n0 n1

/-! ### Containers -/

/-- `Fork`: both versions and the epoch. -/
def htrFork (data : List UInt8) : Option P.Bytes32 := do
  let previousVersion := padToChunk P (← slice data 0 4)
  let currentVersion := padToChunk P (← slice data 4 8)
  let epoch := padToChunk P (← slice data 8 16)
  return P.sha256Pair (P.sha256Pair previousVersion currentVersion)
    (P.sha256Pair epoch P.zeroChunk)

def htrBeaconBlockHeader (data : List UInt8) : Option P.Bytes32 := do
  let slot := padToChunk P (← slice data 0 8)
  let proposerIndex := padToChunk P (← slice data 8 16)
  let parentRoot ← htrBytes32 P (← slice data 16 48)
  let stateRoot ← htrBytes32 P (← slice data 48 80)
  let bodyRoot ← htrBytes32 P (← slice data 80 112)
  let zero := P.zeroChunk
  return merkleizeFixedFields P
    ![slot, proposerIndex, parentRoot, stateRoot, bodyRoot, zero, zero, zero]

def htrEth1Data (data : List UInt8) : Option P.Bytes32 := do
  let depositRoot ← htrBytes32 P (← slice data 0 32)
  let depositCount := padToChunk P (← slice data 32 40)
  let blockHash ← htrBytes32 P (← slice data 40 72)
  return P.sha256Pair (P.sha256Pair depositRoot depositCount)
    (P.sha256Pair blockHash P.zeroChunk)

def htrCheckpoint (data : List UInt8) : Option P.Bytes32 := do
  let epoch := padToChunk P (← slice data 0 8)
  let root ← htrBytes32 P (← slice data 8 40)
  return P.sha256Pair epoch root

def htrHistoricalSummary (data : List UInt8) : Option P.Bytes32 := do
  let blockRoot ← htrBytes32 P (← slice data 0 32)
  let stateRoot ← htrBytes32 P (← slice data 32 64)
  return P.sha256Pair blockRoot stateRoot

def htrPendingDeposit (data : List UInt8) : Option P.Bytes32 := do
  let pubkey ← htrBlsPubkey P (← slice data 0 48)
  let withdrawalCredentials ← htrBytes32 P (← slice data 48 80)
  let amount := padToChunk P (← slice data 80 88)
  let signature ← htrBlsSignature P (← slice data 88 184)
  let slot := padToChunk P (← slice data 184 192)
  let zero := P.zeroChunk
  return merkleizeFixedFields P
    ![pubkey, withdrawalCredentials, amount, signature, slot, zero, zero, zero]

def htrPendingPartialWithdrawal (data : List UInt8) : Option P.Bytes32 := do
  let validatorIndex := padToChunk P (← slice data 0 8)
  let amount := padToChunk P (← slice data 8 16)
  let withdrawableEpoch := padToChunk P (← slice data 16 24)
  return P.sha256Pair (P.sha256Pair validatorIndex amount)
    (P.sha256Pair withdrawableEpoch P.zeroChunk)

def htrPendingConsolidation (data : List UInt8) : Option P.Bytes32 := do
  let source := padToChunk P (← slice data 0 8)
  let target := padToChunk P (← slice data 8 16)
  return P.sha256Pair source target

/-- One SSZ validator, 121 bytes: the hash the loop of `compute_validators_htr` takes. -/
def htrValidator (data : List UInt8) : Option P.Bytes32 := do
  let pubkey ← htrBlsPubkey P (← slice data 0 48)
  let withdrawalCredentials ← htrBytes32 P (← slice data 48 80)
  let effectiveBalance := padToChunk P (← slice data 80 88)
  let slashed := padToChunk P (← slice data 88 89)
  let activationEligibilityEpoch := padToChunk P (← slice data 89 97)
  let activationEpoch := padToChunk P (← slice data 97 105)
  let exitEpoch := padToChunk P (← slice data 105 113)
  let withdrawableEpoch := padToChunk P (← slice data 113 121)
  return merkleizeFixedFields P ![pubkey, withdrawalCredentials, effectiveBalance, slashed,
    activationEligibilityEpoch, activationEpoch, exitEpoch, withdrawableEpoch]

/-! ### Vectors and lists -/

/-- The roots of the first `count` items of a size, one after the other. -/
def itemRoots (htrItem : List UInt8 → Option P.Bytes32) (itemSize count : ℕ)
    (data : List UInt8) : Option (List P.Bytes32) :=
  (List.range count).mapM fun i => do htrItem (← slice data (i * itemSize) (i * itemSize + itemSize))

/-- A list of composite items: as many as fit, under a tree of the limit's depth. -/
def htrList (htrItem : List UInt8 → Option P.Bytes32) (itemSize : ℕ) (data : List UInt8)
    (limitLog2 : ℕ) : Option P.Bytes32 := do
  let count := data.length / itemSize
  let htrs ← itemRoots P htrItem itemSize count data
  let dataRoot ← merkleizeChunks P htrs limitLog2
  return mixInLength P dataRoot (UInt64.ofNat count)

def htrListRoots := htrList P (htrBytes32 P) 32

def htrListEth1Data := htrList P (htrEth1Data P) 72

def htrListPendingDeposits := htrList P (htrPendingDeposit P) 192

def htrListPendingPartialWithdrawals := htrList P (htrPendingPartialWithdrawal P) 24

def htrListPendingConsolidations := htrList P (htrPendingConsolidation P) 16

def htrListHistoricalSummaries := htrList P (htrHistoricalSummary P) 64

def htrVectorRoots (data : List UInt8) (count : ℕ) : Option P.Bytes32 := do
  let chunks ← itemRoots P (htrBytes32 P) 32 count data
  merkleizeChunks P chunks (Nat.clog 2 count)

/-- `count` integers, four to a chunk. -/
def gweiChunks (data : List UInt8) (count : ℕ) : Option (List P.Bytes32) :=
  (List.range ((count + 3) / 4)).mapM fun i => do
    let words ← ((List.range 4).filter (i * 4 + · < count)).mapM fun j =>
      slice data ((i * 4 + j) * 8) ((i * 4 + j) * 8 + 8)
    return padToChunk P words.flatten

def htrVectorGwei (data : List UInt8) (count : ℕ) : Option P.Bytes32 := do
  let chunks ← gweiChunks P data count
  merkleizeChunks P chunks (Nat.clog 2 ((count + 3) / 4))

def htrListGwei (data : List UInt8) (limitLog2 : ℕ) : Option P.Bytes32 := do
  let count := data.length / 8
  let chunks ← gweiChunks P data count
  let dataRoot ← merkleizeChunks P chunks (limitLog2 - 2)
  return mixInLength P dataRoot (UInt64.ofNat count)

def htrListUint8 (data : List UInt8) (limitLog2 : ℕ) : Option P.Bytes32 := do
  let count := data.length
  let chunks ← (List.range ((count + 31) / 32)).mapM fun i => do
    return padToChunk P (← slice data (i * 32) (min (i * 32 + 32) count))
  let dataRoot ← merkleizeChunks P chunks (limitLog2 - 5)
  return mixInLength P dataRoot (UInt64.ofNat count)

/-- `SyncCommittee`: 512 public keys and their aggregate. -/
def htrSyncCommittee (data : List UInt8) : Option P.Bytes32 := do
  let pubkeyHtrs ← itemRoots P (htrBlsPubkey P) 48 512 data
  let pubkeysRoot ← merkleizeChunks P pubkeyHtrs 9
  let aggRoot ← htrBlsPubkey P (← slice data 24576 24624)
  return P.sha256Pair pubkeysRoot aggRoot

/-! ### The execution payload header -/

/-- Fixed-portion sizes of an `ExecutionPayloadHeader`; field 10, the extra data, has an offset
there. -/
def ephFixedSizes : List ℕ := [32, 20, 32, 32, 256, 32, 8, 8, 8, 8, 4, 32, 32, 32, 32, 8, 8]

def ephStart (i : ℕ) : ℕ := (ephFixedSizes.take i).sum

/-- The range of a field of the header: the extra data runs from its offset to the end. -/
def ephRange (extraDataOffset length i : ℕ) : ℕ × ℕ :=
  if i = 10 then (extraDataOffset, length)
  else (ephStart i, ephStart i + ephFixedSizes.getD i 0)

/-- The root of one field of the header. -/
def htrPayloadField (i : ℕ) (fieldData : List UInt8) : Option P.Bytes32 :=
  match i with
  | 0 | 2 | 3 | 5 | 12 | 13 | 14 | 11 => htrBytes32 P fieldData
  | 1 | 6 | 7 | 8 | 9 | 15 | 16 => some (padToChunk P fieldData)
  -- the logs bloom, eight chunks
  | 4 => do
      let chunks ← itemRoots P (htrBytes32 P) 32 8 fieldData
      return merkleizeFixedFields P fun j => chunks.getD j P.zeroChunk
  -- the extra data, of which one chunk is hashed
  | 10 => some (mixInLength P (padToChunk P fieldData) (UInt64.ofNat fieldData.length))
  | _ => none

def htrExecutionPayloadHeaderDeneb (data : List UInt8) : Option P.Bytes32 := do
  let extraDataOffset := fromLeBytes (← slice data (ephStart 10) (ephStart 10 + 4))
  let fields ← (List.range 17).mapM fun i => do
    let range := ephRange extraDataOffset data.length i
    htrPayloadField P i (← slice data range.1 range.2)
  merkleizeChunks P (fields ++ List.replicate 15 P.zeroChunk) 5

/-! ### The fields of a state -/

/-- Bits of the limit of the eth1 votes, 64 epochs of slots. -/
def eth1VotesLimitDepth (config : StateConfig) : ℕ := Nat.size (64 * config.slotsPerEpoch - 1).toNat

/-- The root of a single field, by its index. -/
def computeFieldHtr (config : StateConfig) (i : ℕ) (data : List UInt8) : Option P.Bytes32 :=
  match i with
  | 0 | 2 | 10 | 25 | 26 | 28 | 29 | 30 | 31 | 32 | 33 => htrUint64 P data
  | 1 => htrBytes32 P data
  | 3 => htrFork P data
  | 4 => htrBeaconBlockHeader P data
  | 5 | 6 => htrVectorRoots P data 8192
  | 7 => htrListRoots P data 24
  | 8 => htrEth1Data P data
  | 9 => htrListEth1Data P data (eth1VotesLimitDepth config)
  | 12 | 21 => htrListGwei P data 40
  | 13 => htrVectorRoots P data 65536
  | 14 => htrVectorGwei P data 8192
  | 15 | 16 => htrListUint8 P data 40
  | 17 => htrBitvector4 P data
  | 18 | 19 | 20 => htrCheckpoint P data
  | 22 | 23 => htrSyncCommittee P data
  | 24 => htrExecutionPayloadHeaderDeneb P data
  | 27 => htrListHistoricalSummaries P data 24
  | 34 => htrListPendingDeposits P data 27
  | 35 => htrListPendingPartialWithdrawals P data 27
  | 36 => htrListPendingConsolidations P data 18
  | 37 => htrVectorGwei P data 64
  -- `unreachable!`
  | _ => none

/-- Size of one SSZ validator in bytes. -/
def sszValidatorSize : ℕ := 121

/-- The root of the validators list, which is never an error. The number of validators is a
length, and no conversion of it loses anything. -/
def computeValidatorsHtr (data : List UInt8) (numValidators : ℕ) : Option P.Bytes32 := do
  let roots ← itemRoots P (htrValidator P) sszValidatorSize numValidators data
  let dataRoot ← merkleizeChunks P roots 40
  return mixInLength P dataRoot (UInt64.ofNat numValidators)

end Hashing

/-! ## Entry points -/

variable {P : Primitives}

/-- The roots of all fields: of the known ones as they are, of any other from its range. -/
def fieldHtrs (config : StateConfig) (raw : List UInt8) (ranges : List (ℕ × ℕ)) (count : ℕ)
    (known : ℕ → Option (Option P.Bytes32)) : Option (List P.Bytes32) :=
  (List.range count).mapM fun i =>
    match known i with
    | some htr => htr
    | none => do
        let range := ranges.getD i (0, 0)
        computeFieldHtr P config i (← slice raw range.1 range.2)

/-- The 64 leaves of the state's tree. -/
def stateLeaves (htrs : List P.Bytes32) (i : ℕ) : P.Bytes32 := htrs.getD i P.zeroChunk

/-- The registry's root is known, and no other. -/
def registryKnown (validatorsHtr : P.Bytes32) (i : ℕ) : Option (Option P.Bytes32) :=
  if i = beaconStateValidatorsFieldIndex then some (some validatorsHtr) else none

/-- Parse a raw state and compute the branch of its validators, whose root is handed in. -/
def parseStateProof (config : StateConfig) (raw : List UInt8) (validatorsHtr : P.Bytes32)
    (slot : UInt64) : Outcome String (P.Bytes32 × List P.Bytes32) := do
  let fork := config.forkAtSlot slot
  let ranges ← parseFieldRanges raw fork
  ofPanics do
    let htrs ← fieldHtrs config raw ranges (fieldCount fork) (registryKnown validatorsHtr)
    return buildStateTreeAndExtract (stateLeaves htrs) beaconStateValidatorsFieldIndex

/-- The registry's root out of its range of the bytes, and the number of its validators. -/
def registryHtr (raw : List UInt8) (range : ℕ × ℕ) : Option (P.Bytes32 × ℕ) := do
  let validatorsData ← slice raw range.1 range.2
  let numValidators := validatorsData.length / sszValidatorSize
  return (← computeValidatorsHtr P validatorsData numValidators, numValidators)

/-- Parse a raw state and compute its root, with the number of its validators. -/
def computeStateRoot (config : StateConfig) (raw : List UInt8) :
    Outcome String (P.Bytes32 × UInt64) := do
  let slot ← ofPanics (extractSlot raw)
  let fork := config.forkAtSlot slot
  let ranges ← parseFieldRanges raw fork
  ofPanics do
    let (validatorsHtr, numValidators) ←
      registryHtr raw (ranges.getD beaconStateValidatorsFieldIndex (0, 0))
    let htrs ← fieldHtrs config raw ranges (fieldCount fork) (registryKnown validatorsHtr)
    return ((buildStateTreeAndExtract (stateLeaves htrs) beaconStateValidatorsFieldIndex).1,
      UInt64.ofNat numValidators)

/-- What a state records about one slot it has passed. -/
structure BoundaryProof (P : Primitives) where
  /-- Root of the state the entries were opened from. -/
  stateRoot : P.Bytes32
  blockRoot : P.Bytes32
  boundaryStateRoot : P.Bytes32
  blockRootsSiblings : List P.Bytes32
  stateRootsSiblings : List P.Bytes32

/-- Climb from a level to its root, collecting the siblings of a node on the way. A round halves
the level, so it takes fewer rounds than there are nodes; all of them are even. -/
def climbLevels : (rounds : ℕ) → List P.Bytes32 → ℕ → Option (P.Bytes32 × List P.Bytes32)
  | 0, level, _ => do return (← level[0]?, [])
  | rounds + 1, level, idx =>
      if 1 < level.length then do
        let sibling ← level[siblingOf idx]?
        let (root, siblings) ← climbLevels rounds (parents P.sha256Pair level) (idx / 2)
        return (root, sibling :: siblings)
      else do return (← level[0]?, [])

/-- Merkle root of a vector of roots, with the sibling path to one entry. -/
def vectorRootAndProof (data : List UInt8) (count index : ℕ) :
    Option (P.Bytes32 × List P.Bytes32) := do
  let level ← itemRoots P (htrBytes32 P) 32 count data
  climbLevels level.length level index

/-- The root of a ring, and the path to one of its entries. -/
def ringVector (raw : List UInt8) (range : ℕ × ℕ) (ring : ℕ) :
    Option (P.Bytes32 × List P.Bytes32) := do
  vectorRootAndProof (← slice raw range.1 range.2) slotsPerHistoricalRoot.toNat ring

/-- One entry of a ring. -/
def ringEntry (raw : List UInt8) (range : ℕ × ℕ) (ring : ℕ) : Option P.Bytes32 := do
  htrBytes32 P (← slice raw (range.1 + ring * 32) (range.1 + ring * 32 + 32))

/-- The roots that a boundary proof does not take as any other field's: the rings' are computed
already, and the registry's is handed in or hashed. -/
def boundaryKnown (raw : List UInt8) (ranges : List (ℕ × ℕ)) (validatorsHtr : Option P.Bytes32)
    (blockRootsHtr stateRootsHtr : P.Bytes32) (i : ℕ) : Option (Option P.Bytes32) :=
  if i = blockRootsField.toNat then some (some blockRootsHtr)
  else if i = stateRootsField.toNat then some (some stateRootsHtr)
  else if i = beaconStateValidatorsFieldIndex then
    some (validatorsHtr <|> (registryHtr raw (ranges.getD i (0, 0))).map Prod.fst)
  else none

/-- Open what a raw state records for `slot` out of its two rings. -/
def parseBoundaryProof (config : StateConfig) (raw : List UInt8)
    (validatorsHtr : Option P.Bytes32) (slot : UInt64) : Outcome String (BoundaryProof P) := do
  let stateSlot ← ofPanics (extractSlot raw)
  ensure (RecordsSlot stateSlot slot) s!"the state at slot {stateSlot} does not record slot {slot}"
  let fork := config.forkAtSlot stateSlot
  let ranges ← parseFieldRanges raw fork
  ofPanics do
    let ring := (slot % slotsPerHistoricalRoot).toNat
    let blockRoots := ranges.getD blockRootsField.toNat (0, 0)
    let stateRoots := ranges.getD stateRootsField.toNat (0, 0)
    let (blockRootsHtr, blockRootsSiblings) ← ringVector raw blockRoots ring
    let (stateRootsHtr, stateRootsSiblings) ← ringVector raw stateRoots ring
    let htrs ← fieldHtrs config raw ranges (fieldCount fork)
      (boundaryKnown raw ranges validatorsHtr blockRootsHtr stateRootsHtr)
    let (stateRoot, blockFieldSiblings) :=
      buildStateTreeAndExtract (stateLeaves htrs) blockRootsField.toNat
    let (_, stateFieldSiblings) :=
      buildStateTreeAndExtract (stateLeaves htrs) stateRootsField.toNat
    return {
      stateRoot
      blockRoot := ← ringEntry raw blockRoots ring
      boundaryStateRoot := ← ringEntry raw stateRoots ring
      blockRootsSiblings := blockRootsSiblings ++ blockFieldSiblings
      stateRootsSiblings := stateRootsSiblings ++ stateFieldSiblings }

/-! ## On which bytes they return -/

section Returns

variable {config : StateConfig} {chunks : List P.Bytes32} {depth : ℕ} {data : List UInt8}

/-- **Sparse merkleization**: chunks a tree has room for are the leaves of that tree. -/
theorem merkleizeChunks_eq (hfits : chunks.length ≤ 2 ^ depth) :
    merkleizeChunks P chunks depth =
      some (root P.sha256Pair depth fun i => chunks.getD i P.zeroChunk) := by
  unfold merkleizeChunks
  split
  · next hdepth =>
      subst hdepth
      cases chunks <;> rfl
  · split
    · next hempty =>
        obtain rfl := List.isEmpty_iff.mp hempty
        have hzero : nodeAt P.sha256Pair (fun i => ([] : List P.Bytes32).getD i P.zeroChunk) depth 0 =
            (fun zero => P.sha256Pair zero zero)^[depth] P.zeroChunk :=
          nodeAt_of_const fun _ _ => rfl
        rw [root_eq_nodeAt, hzero]
        show some ((List.iterate _ _ (depth + 1)).getD depth P.zeroChunk) = _
        rw [List.getD_eq_getElem?_getD, List.getElem?_iterate _ _ _ _ (Nat.lt_succ_self _)]
        rfl
    · have hroom := le_two_pow_dense hfits
      rw [if_pos hroom]
      exact congrArg some (dense_padded (min_le_right _ _) hroom).root_eq

theorem merkleizeChunks_isSome (hdepth : depth ≠ 0) :
    (merkleizeChunks P chunks depth).isSome ↔ chunks.length ≤ 2 ^ depth := by
  constructor
  · intro h
    by_contra hfits
    rw [merkleizeChunks, if_neg hdepth, if_neg, if_neg] at h
    · cases h
    · intro hroom
      exact hfits (hroom.trans (Nat.pow_le_pow_right (by omega) (min_le_right _ _)))
    · intro hempty
      rw [List.isEmpty_iff.mp hempty] at hfits
      exact hfits (Nat.zero_le _)
  · intro hfits
    rw [merkleizeChunks_eq hfits]
    rfl

theorem htrBytes32_eq (h : 32 ≤ data.length) :
    htrBytes32 P data = some (padToChunk P (data.take 32)) := by
  rw [htrBytes32, slice_of_le (Nat.zero_le _) h]
  rfl

theorem htrUint64_isSome (h : 8 ≤ data.length) : (htrUint64 P data).isSome := by
  simp (disch := omega) [htrUint64, slice_of_le]

theorem htrBitvector4_isSome (h : 1 ≤ data.length) : (htrBitvector4 P data).isSome := by
  simp (disch := omega) [htrBitvector4, slice_of_le]

theorem htrBytes32_isSome (h : 32 ≤ data.length) : (htrBytes32 P data).isSome := by
  rw [htrBytes32_eq h]
  rfl

theorem htrBlsPubkey_isSome (h : 48 ≤ data.length) : (htrBlsPubkey P data).isSome := by
  simp (disch := omega) [htrBlsPubkey, slice_of_le]

theorem htrFork_isSome (h : 16 ≤ data.length) : (htrFork P data).isSome := by
  simp (disch := omega) [htrFork, slice_of_le]

theorem htrBeaconBlockHeader_isSome (h : 112 ≤ data.length) :
    (htrBeaconBlockHeader P data).isSome := by
  simp (disch := first | omega | simp only [List.length_drop, List.length_take]; omega)
    [htrBeaconBlockHeader, slice_of_le, htrBytes32_eq]

theorem htrEth1Data_isSome (h : 72 ≤ data.length) : (htrEth1Data P data).isSome := by
  simp (disch := first | omega | simp only [List.length_drop, List.length_take]; omega)
    [htrEth1Data, slice_of_le, htrBytes32_eq]

theorem htrCheckpoint_isSome (h : 40 ≤ data.length) : (htrCheckpoint P data).isSome := by
  simp (disch := first | omega | simp only [List.length_drop, List.length_take]; omega)
    [htrCheckpoint, slice_of_le, htrBytes32_eq]

theorem htrHistoricalSummary_isSome (h : 64 ≤ data.length) :
    (htrHistoricalSummary P data).isSome := by
  simp (disch := first | omega | simp only [List.length_drop, List.length_take]; omega)
    [htrHistoricalSummary, slice_of_le, htrBytes32_eq]

theorem htrPendingDeposit_isSome (h : 192 ≤ data.length) : (htrPendingDeposit P data).isSome := by
  simp (disch := first | omega | simp only [List.length_drop, List.length_take]; omega)
    [htrPendingDeposit, htrBlsPubkey, htrBlsSignature, slice_of_le, htrBytes32_eq]

theorem htrPendingPartialWithdrawal_isSome (h : 24 ≤ data.length) :
    (htrPendingPartialWithdrawal P data).isSome := by
  simp (disch := omega) [htrPendingPartialWithdrawal, slice_of_le]

theorem htrPendingConsolidation_isSome (h : 16 ≤ data.length) :
    (htrPendingConsolidation P data).isSome := by
  simp (disch := omega) [htrPendingConsolidation, slice_of_le]

theorem htrValidator_isSome (h : 121 ≤ data.length) : (htrValidator P data).isSome := by
  simp (disch := first | omega | simp only [List.length_drop, List.length_take]; omega)
    [htrValidator, htrBlsPubkey, slice_of_le, htrBytes32_eq]

/-- A slice of 32 bytes read as a value. -/
theorem slice_bind_htrBytes32 {start stop : ℕ} (hstart : stop = start + 32)
    (hstop : stop ≤ data.length) :
    (slice data start stop >>= fun s => htrBytes32 P s) =
      some (padToChunk P ((data.take stop).drop start)) := by
  have hlength : ((data.take stop).drop start).length = 32 := by
    rw [List.length_drop, List.length_take]
    omega
  rw [slice_of_le (by omega) hstop]
  show htrBytes32 P ((data.take stop).drop start) = _
  rw [htrBytes32_eq hlength.ge, List.take_of_length_le hlength.le]

/-! ### Vectors and lists -/

variable {htrItem : List UInt8 → Option P.Bytes32} {itemSize count : ℕ}

/-- Every item is within the bytes there are, so all of them are hashed. -/
theorem itemRoots_isSome (hitem : ∀ item, itemSize ≤ item.length → (htrItem item).isSome)
    (hfits : count * itemSize ≤ data.length) : (itemRoots P htrItem itemSize count data).isSome := by
  rw [itemRoots, mapM_isSome]
  intro i hi
  have hlt := List.mem_range.mp hi
  have hstop : i * itemSize + itemSize ≤ data.length := by
    rw [← Nat.succ_mul]
    exact (Nat.mul_le_mul_right _ hlt).trans hfits
  rw [slice_of_le (Nat.le_add_right _ _) hstop]
  apply hitem
  rw [List.length_drop, List.length_take, min_eq_left hstop]
  omega

theorem length_of_itemRoots {roots : List P.Bytes32}
    (h : itemRoots P htrItem itemSize count data = some roots) : roots.length = count := by
  rw [length_of_mapM h, List.length_range]

/-- **A list is hashed if it is within its limit**, and panics past it. -/
theorem htrList_isSome (hitem : ∀ item, itemSize ≤ item.length → (htrItem item).isSome)
    (hdepth : depth ≠ 0) :
    (htrList P htrItem itemSize data depth).isSome ↔ data.length / itemSize ≤ 2 ^ depth := by
  have hitems : (itemRoots P htrItem itemSize (data.length / itemSize) data).isSome :=
    itemRoots_isSome hitem (Nat.div_mul_le_self _ _)
  obtain ⟨roots, hroots⟩ := Option.isSome_iff_exists.mp hitems
  rw [← length_of_itemRoots hroots, ← merkleizeChunks_isSome (P := P) hdepth, htrList, hroots]
  exact isSome_bind_of_forall fun _ => Option.isSome_some

theorem gweiChunks_isSome (hfits : count * 8 ≤ data.length) : (gweiChunks P data count).isSome := by
  rw [gweiChunks, mapM_isSome]
  intro i _
  have hwords : (((List.range 4).filter (i * 4 + · < count)).mapM fun j =>
      slice data ((i * 4 + j) * 8) ((i * 4 + j) * 8 + 8)).isSome := by
    rw [mapM_isSome]
    intro j hj
    have hlt : i * 4 + j < count := by simpa using (List.mem_filter.mp hj).2
    exact slice_isSome.mpr ⟨by omega, by omega⟩
  obtain ⟨words, hwords⟩ := Option.isSome_iff_exists.mp hwords
  rw [hwords]
  rfl

theorem length_of_gweiChunks (h : gweiChunks P data count = some chunks) :
    chunks.length = (count + 3) / 4 := by
  rw [length_of_mapM h, List.length_range]

/-- Four to a chunk, a list within its limit takes a quarter of the limit in chunks. -/
theorem htrListGwei_isSome (hdepth : 2 < depth) :
    (htrListGwei P data depth).isSome ↔ data.length / 8 ≤ 2 ^ depth := by
  have hchunks : (gweiChunks P data (data.length / 8)).isSome :=
    gweiChunks_isSome (Nat.div_mul_le_self _ _)
  obtain ⟨chunks, hchunks⟩ := Option.isSome_iff_exists.mp hchunks
  have hlimit : 2 ^ depth = 2 ^ 2 * 2 ^ (depth - 2) := by
    rw [← pow_add, Nat.add_sub_cancel' hdepth.le]
  have hcount : data.length / 8 ≤ 2 ^ depth ↔ chunks.length ≤ 2 ^ (depth - 2) := by
    rw [length_of_gweiChunks hchunks, hlimit]
    omega
  rw [hcount, ← merkleizeChunks_isSome (P := P) (by omega), htrListGwei, hchunks]
  exact isSome_bind_of_forall fun _ => Option.isSome_some

theorem htrListUint8_isSome (hdepth : 5 < depth) :
    (htrListUint8 P data depth).isSome ↔ data.length ≤ 2 ^ depth := by
  have hchunks : ((List.range ((data.length + 31) / 32)).mapM fun i => do
      return padToChunk P (← slice data (i * 32) (min (i * 32 + 32) data.length))).isSome := by
    rw [mapM_isSome]
    intro i hi
    have hlt := List.mem_range.mp hi
    simp (disch := omega) [slice_of_le]
  obtain ⟨chunks, hchunks⟩ := Option.isSome_iff_exists.mp hchunks
  have hlength : chunks.length = (data.length + 31) / 32 := by
    rw [length_of_mapM hchunks, List.length_range]
  have hlimit : 2 ^ depth = 2 ^ 5 * 2 ^ (depth - 5) := by
    rw [← pow_add, Nat.add_sub_cancel' hdepth.le]
  have hcount : data.length ≤ 2 ^ depth ↔ chunks.length ≤ 2 ^ (depth - 5) := by
    rw [hlength, hlimit]
    omega
  rw [hcount, ← merkleizeChunks_isSome (P := P) (by omega), htrListUint8, hchunks]
  exact isSome_bind_of_forall fun _ => Option.isSome_some

/-- A vector of bytes enough is always hashed: its tree has the depth of its length. -/
theorem htrVectorRoots_isSome (h : count * 32 ≤ data.length) :
    (htrVectorRoots P data count).isSome := by
  obtain ⟨chunks, hchunks⟩ := Option.isSome_iff_exists.mp
    (itemRoots_isSome (fun _ => htrBytes32_isSome (P := P)) h)
  rw [htrVectorRoots, hchunks]
  simp only [Option.bind_eq_bind, Option.bind_some]
  rw [merkleizeChunks_eq]
  · rfl
  · rw [length_of_itemRoots hchunks]
    exact Nat.le_pow_clog (by omega) _

theorem htrVectorGwei_isSome (h : count * 8 ≤ data.length) :
    (htrVectorGwei P data count).isSome := by
  obtain ⟨chunks, hchunks⟩ := Option.isSome_iff_exists.mp (gweiChunks_isSome (P := P) h)
  rw [htrVectorGwei, hchunks]
  simp only [Option.bind_eq_bind, Option.bind_some]
  rw [merkleizeChunks_eq]
  · rfl
  · rw [length_of_gweiChunks hchunks]
    exact Nat.le_pow_clog (by omega) _

theorem htrSyncCommittee_isSome (h : 24624 ≤ data.length) :
    (htrSyncCommittee P data).isSome := by
  have hkeys : (itemRoots P (htrBlsPubkey P) 48 512 data).isSome :=
    itemRoots_isSome (fun _ => htrBlsPubkey_isSome) (by omega)
  obtain ⟨roots, hroots⟩ := Option.isSome_iff_exists.mp hkeys
  have hfits : roots.length ≤ 2 ^ 9 := by
    rw [length_of_itemRoots hroots]
    decide
  have hagg : (htrBlsPubkey P ((data.take 24624).drop 24576)).isSome := by
    apply htrBlsPubkey_isSome
    rw [List.length_drop, List.length_take]
    omega
  obtain ⟨agg, hagg⟩ := Option.isSome_iff_exists.mp hagg
  rw [htrSyncCommittee, hroots, slice_of_le (by omega) h]
  simp [merkleizeChunks_eq hfits, hagg]

/-! ### The execution payload header -/

/-- The offset of the extra data, where there is one. -/
def extraDataOffset (data : List UInt8) : ℕ := fromLeBytes ((data.take 440).drop 436)

/-- A payload header with its fixed portion, and its extra data inside. -/
structure PayloadFits (data : List UInt8) : Prop where
  fixed : 584 ≤ data.length
  extraData : extraDataOffset data ≤ data.length

theorem htrPayloadField_isSome {i : ℕ} (hi : i < 17)
    (hlength : i ≠ 10 → ephFixedSizes.getD i 0 ≤ data.length) : (htrPayloadField P i data).isSome := by
  by_cases hbloom : i = 4
  · subst hbloom
    have hchunks : (itemRoots P (htrBytes32 P) 32 8 data).isSome :=
      itemRoots_isSome (fun _ => htrBytes32_isSome) (hlength (by decide))
    obtain ⟨chunks, hchunks⟩ := Option.isSome_iff_exists.mp hchunks
    rw [htrPayloadField, hchunks]
    rfl
  · interval_cases i
    all_goals first
      | rfl
      | exact htrBytes32_isSome (hlength (by decide))
      | exact absurd rfl hbloom

/-- A field of a header that fits is read, and is as long as its place. -/
theorem ephRange_fits (h : PayloadFits data) {i : ℕ} (hi : i < 17) :
    ∃ fieldData, slice data (ephRange (extraDataOffset data) data.length i).1
        (ephRange (extraDataOffset data) data.length i).2 = some fieldData ∧
      (i ≠ 10 → ephFixedSizes.getD i 0 ≤ fieldData.length) := by
  by_cases hextra : i = 10
  · rw [ephRange, if_pos hextra]
    exact ⟨_, slice_of_le h.extraData le_rfl, fun hne => absurd hextra hne⟩
  · have hstop : ephStart i + ephFixedSizes.getD i 0 ≤ data.length := by
      refine le_trans ?_ h.fixed
      interval_cases i <;> decide
    rw [ephRange, if_neg hextra]
    refine ⟨_, slice_of_le (Nat.le_add_right _ _) hstop, fun _ => ?_⟩
    rw [List.length_drop, List.length_take, min_eq_left hstop]
    omega

/-- **A payload header is hashed exactly if it fits.** -/
theorem htrExecutionPayloadHeaderDeneb_isSome :
    (htrExecutionPayloadHeaderDeneb P data).isSome ↔ PayloadFits data := by
  constructor
  · intro h
    obtain ⟨htr, h⟩ := Option.isSome_iff_exists.mp h
    rw [htrExecutionPayloadHeaderDeneb, Option.bind_eq_bind, Option.bind_eq_some_iff] at h
    obtain ⟨offset, hoffset, h⟩ := h
    obtain ⟨-, rfl⟩ := slice_eq_some.mp hoffset
    obtain ⟨fields, hfields, -⟩ := Option.bind_eq_some_iff.mp h
    have hround := mapM_isSome.mp (Option.isSome_iff_exists.mpr ⟨fields, hfields⟩)
    -- the last field of the fixed portion is read, and the extra data
    constructor
    · have hlast := hround 16 (by decide)
      obtain ⟨_, hlast⟩ := Option.isSome_iff_exists.mp hlast
      obtain ⟨_, hslice, -⟩ := Option.bind_eq_some_iff.mp hlast
      exact (slice_eq_some.mp hslice).1.2
    · have hextra := hround 10 (by decide)
      obtain ⟨_, hextra⟩ := Option.isSome_iff_exists.mp hextra
      obtain ⟨_, hslice, -⟩ := Option.bind_eq_some_iff.mp hextra
      exact (slice_eq_some.mp hslice).1.1
  · intro h
    have hfields : ((List.range 17).mapM fun i => do
        let range := ephRange (extraDataOffset data) data.length i
        htrPayloadField P i (← slice data range.1 range.2)).isSome := by
      rw [mapM_isSome]
      intro i hi
      have hi := List.mem_range.mp hi
      obtain ⟨fieldData, hslice, hlength⟩ := ephRange_fits h hi
      show (slice data _ _ >>= fun fieldData => htrPayloadField P i fieldData).isSome
      rw [hslice]
      exact htrPayloadField_isSome hi hlength
    obtain ⟨fields, hfields⟩ := Option.isSome_iff_exists.mp hfields
    have hlength : (fields ++ List.replicate 15 P.zeroChunk).length ≤ 2 ^ 5 := by
      rw [List.length_append, length_of_mapM hfields, List.length_replicate]
      decide
    rw [htrExecutionPayloadHeaderDeneb, slice_of_le (by decide) (by
      show 440 ≤ data.length
      exact le_trans (by decide) h.fixed)]
    show ((List.range 17).mapM _ >>= fun fields =>
      merkleizeChunks P (fields ++ List.replicate 15 P.zeroChunk) 5).isSome
    have hoffset : fromLeBytes ((data.take (ephStart 10 + 4)).drop (ephStart 10)) =
        extraDataOffset data := rfl
    rw [hoffset, hfields]
    show (merkleizeChunks P (fields ++ List.replicate 15 P.zeroChunk) 5).isSome
    rw [merkleizeChunks_eq hlength]
    rfl

/-! ### The fields of a state -/

/-- The size of a list's items, and the logarithm of its limit. -/
def listLimit (config : StateConfig) : ℕ → ℕ × ℕ
  | 7 => (32, 24)
  | 9 => (72, eth1VotesLimitDepth config)
  | 11 => (sszValidatorSize, 40)
  | 12 | 21 => (8, 40)
  | 15 | 16 => (1, 40)
  | 27 => (64, 24)
  | 34 => (192, 27)
  | 35 => (24, 27)
  | 36 => (16, 18)
  | _ => (1, 0)

/-- **A variable field that can be hashed**: a list within its limit, or a payload header that
fits. -/
def FieldFits (config : StateConfig) (i : ℕ) (data : List UInt8) : Prop :=
  if i = 24 then PayloadFits data
  else data.length / (listLimit config i).1 ≤ 2 ^ (listLimit config i).2

theorem eth1VotesLimitDepth_ne_zero (config : StateConfig) : eth1VotesLimitDepth config ≠ 0 := by
  intro h
  have hzero := Nat.size_eq_zero.mp h
  rw [UInt64.toNat_sub, UInt64.toNat_mul] at hzero
  have h64 : (64 : UInt64).toNat = 64 := rfl
  have h1 : (1 : UInt64).toNat = 1 := rfl
  rw [h64, h1] at hzero
  omega

/-- A fixed field is always hashed. -/
theorem computeFieldHtr_isSome_of_fixed {i : ℕ} (hi : i < 38)
    (hfixed : i ∉ variableFieldIndices)
    (hlength : (fieldFixedSizes .fulu).getD i 0 ≤ data.length) :
    (computeFieldHtr P config i data).isSome := by
  interval_cases i
  all_goals try exact absurd (by decide) hfixed
  all_goals
    simp only [computeFieldHtr]
    first
      | with_reducible apply htrUint64_isSome
      | with_reducible apply htrBytes32_isSome
      | with_reducible apply htrFork_isSome
      | with_reducible apply htrBeaconBlockHeader_isSome
      | with_reducible apply htrVectorRoots_isSome
      | with_reducible apply htrEth1Data_isSome
      | with_reducible apply htrVectorGwei_isSome
      | with_reducible apply htrBitvector4_isSome
      | with_reducible apply htrCheckpoint_isSome
      | with_reducible apply htrSyncCommittee_isSome
    exact le_trans (by decide) hlength

/-- **A variable field is hashed exactly if it fits.** -/
theorem computeFieldHtr_isSome_of_variable {i : ℕ}
    (hi : i ∈ variableFieldIndices) (hregistry : i ≠ beaconStateValidatorsFieldIndex) :
    (computeFieldHtr P config i data).isSome ↔ FieldFits config i data := by
  simp only [variableFieldIndices, List.mem_cons, List.not_mem_nil, or_false] at hi
  rcases hi with rfl | rfl | rfl | rfl | rfl | rfl | rfl | rfl | rfl | rfl | rfl | rfl
  · exact htrList_isSome (fun _ => htrBytes32_isSome) (by decide)
  · exact htrList_isSome (fun _ => htrEth1Data_isSome) (eth1VotesLimitDepth_ne_zero config)
  · exact absurd rfl hregistry
  · exact htrListGwei_isSome (by decide)
  · rw [FieldFits, if_neg (by decide), listLimit, Nat.div_one]
    exact htrListUint8_isSome (by decide)
  · rw [FieldFits, if_neg (by decide), listLimit, Nat.div_one]
    exact htrListUint8_isSome (by decide)
  · exact htrListGwei_isSome (by decide)
  · exact htrExecutionPayloadHeaderDeneb_isSome
  · exact htrList_isSome (fun _ => htrHistoricalSummary_isSome) (by decide)
  · exact htrList_isSome (fun _ => htrPendingDeposit_isSome) (by decide)
  · exact htrList_isSome (fun _ => htrPendingPartialWithdrawal_isSome) (by decide)
  · exact htrList_isSome (fun _ => htrPendingConsolidation_isSome) (by decide)

/-- A registry is hashed exactly if it is within its limit. -/
theorem computeValidatorsHtr_isSome :
    (computeValidatorsHtr P data (data.length / sszValidatorSize)).isSome ↔
      FieldFits config beaconStateValidatorsFieldIndex data := by
  have hitems : (itemRoots P (htrValidator P) sszValidatorSize (data.length / sszValidatorSize)
      data).isSome :=
    itemRoots_isSome (fun _ => htrValidator_isSome) (Nat.div_mul_le_self _ _)
  obtain ⟨roots, hroots⟩ := Option.isSome_iff_exists.mp hitems
  have hfits : FieldFits config beaconStateValidatorsFieldIndex data ↔ roots.length ≤ 2 ^ 40 := by
    rw [length_of_itemRoots hroots]
    exact Iff.rfl
  rw [hfits, ← merkleizeChunks_isSome (P := P) (by decide), computeValidatorsHtr, hroots]
  exact isSome_bind_of_forall fun _ => Option.isSome_some

/-- **A vector is climbed like its tree**: its root, and the path of the entry. -/
theorem climbLevels_eq {rounds d : ℕ} (hrounds : d ≤ rounds) (t : ℕ → P.Bytes32) {idx : ℕ}
    (hidx : idx < 2 ^ d) :
    climbLevels rounds ((List.range (2 ^ d)).map t) idx =
      some (root P.sha256Pair d t, siblingPath P.sha256Pair d t idx) := by
  induction d generalizing rounds t idx with
  | zero => cases rounds <;> rfl
  | succ d ih =>
      obtain ⟨rounds, rfl⟩ : ∃ n, rounds = n + 1 := ⟨rounds - 1, by omega⟩
      have hlength : 1 < ((List.range (2 ^ (d + 1))).map t).length := by
        rw [List.length_map, List.length_range]
        exact Nat.one_lt_two_pow (Nat.succ_ne_zero d)
      have hparents : parents P.sha256Pair ((List.range (2 ^ (d + 1))).map t) =
          (List.range (2 ^ d)).map (above P.sha256Pair t) :=
        @parents_iterate _ _ _ 1 _ (Nat.le_add_left 1 d)
      have hsibling : ((List.range (2 ^ (d + 1))).map t)[siblingOf idx]? =
          some (t (siblingOf idx)) := by
        rw [List.getElem?_map, List.getElem?_range (siblingOf_lt hidx)]
        rfl
      rw [climbLevels, if_pos hlength, hsibling, hparents,
        ih (Nat.le_of_succ_le_succ hrounds) _ (half_lt_two_pow hidx), siblingPath, tile,
        Nat.mod_eq_of_lt (siblingOf_lt hidx)]
      rfl

/-- So the opening of a vector is its root, and the path of the entry. -/
theorem vectorRootAndProof_eq {roots : List P.Bytes32} {d count index : ℕ}
    (hroots : itemRoots P (htrBytes32 P) 32 count data = some roots) (hcount : count = 2 ^ d)
    (hindex : index < 2 ^ d) :
    vectorRootAndProof data count index =
      some (root P.sha256Pair d fun i => roots.getD i P.zeroChunk,
        siblingPath P.sha256Pair d (fun i => roots.getD i P.zeroChunk) index) := by
  have hlength : roots.length = 2 ^ d := (length_of_itemRoots hroots).trans hcount
  have hclimb := climbLevels_eq (P := P) (Nat.lt_two_pow_self (n := d)).le
    (fun i => roots.getD i P.zeroChunk) hindex
  rw [Chunks.map_range_getD hlength] at hclimb
  rw [vectorRootAndProof, hroots]
  show climbLevels roots.length roots index = _
  rw [hlength, hclimb]

end Returns

end SszState

end Zkasper
