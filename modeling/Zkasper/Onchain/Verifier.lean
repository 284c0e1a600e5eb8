import Zkasper.Guest
import Mathlib.Data.UInt

/-! # The contract

`ZkasperVerifier`: the accumulator it stands at, the checkpoint it finalized last,
and the three transactions that move them. A revert is a failed run, and leaves
the storage as it was (`apply`).

The proofs are checked outside. What a proof published is an array of 32-bit
words, and `extractBytes32` is all the contract ever reads out of one. -/

namespace Zkasper.Onchain

/-- `bytes32`: 256 bits, the first byte the most significant. -/
abbrev Word256 := BitVec 256

/-- The three `IZiskVerifier`s: which proof is accepted for which public outputs. -/
structure Verifiers where
  epochDiffVerifier : List UInt8 → List UInt32 → Bool
  finalityVerifier : List UInt8 → List UInt32 → Bool
  bootstrapVerifier : List UInt8 → List UInt32 → Bool

/-- The contract's storage. -/
structure Storage where
  accumulatorCommitment : Word256
  latestStateRoot : Word256
  latestFinalizedStateRoot : Word256
  latestFinalizedBlockRoot : Word256
  initialized : Bool
  deriving DecidableEq

/-- The storage a deployed contract starts with. -/
def Storage.deployed : Storage := ⟨0, 0, 0, 0, false⟩

/-! ## Public-output layout, in 32-bit words -/

def bootCommitment : ℕ := 0
def bootStateRoot : ℕ := 18

def diffCommitment1 : ℕ := 0
def diffStateRoot1 : ℕ := 8
def diffCommitment2 : ℕ := 18
def diffStateRoot2 : ℕ := 36

def finCommitment : ℕ := 0
def finNextCommitment : ℕ := 8
def finRoot : ℕ := 18
def finStateRoot : ℕ := 26

def bootWords : ℕ := 28
def diffWords : ℕ := 46
def finWords : ℕ := 34

/-! ## The transactions -/

/-- One round of `_extractBytes32`. -/
def extractWord (data : List UInt32) (offset : ℕ) (result : Word256) (i : ℕ) : Guest Word256 := do
  let word ← Guest.expect data[offset + i]? "array out-of-bounds access"
  return result ||| (BitVec.ofNat 256 word.toNat <<< (i * 32))

/-- `_extractBytes32`: eight words from `offset` on, the first of them lowest. -/
def extractBytes32 (data : List UInt32) (offset : ℕ) : Guest Word256 :=
  (List.range 8).foldlM (extractWord data offset) 0

/-- One-time initialization from a trusted state root. -/
def bootstrap (V : Verifiers) (proof : List UInt8) (publicOutputs : List UInt32) (s : Storage) :
    Guest Storage := do
  Guest.assert (s.initialized = false) "already initialized"
  Guest.assert (publicOutputs.length ≥ bootWords) "invalid outputs length"
  Guest.assert (V.bootstrapVerifier proof publicOutputs = true) "invalid proof"
  let accumulatorCommitment ← extractBytes32 publicOutputs bootCommitment
  let latestStateRoot ← extractBytes32 publicOutputs bootStateRoot
  return { s with accumulatorCommitment, latestStateRoot, initialized := true }

/-- Submit an epoch diff proof to advance the accumulator. -/
def submitEpochDiff (V : Verifiers) (proof : List UInt8) (publicOutputs : List UInt32)
    (s : Storage) : Guest Storage := do
  Guest.assert (s.initialized = true) "not initialized"
  Guest.assert (publicOutputs.length ≥ diffWords) "invalid outputs length"
  Guest.assert (V.epochDiffVerifier proof publicOutputs = true) "invalid proof"
  let commitment1 ← extractBytes32 publicOutputs diffCommitment1
  Guest.assert (commitment1 = s.accumulatorCommitment)
    "epoch diff does not start from the current accumulator"
  let stateRoot1 ← extractBytes32 publicOutputs diffStateRoot1
  Guest.assert (stateRoot1 = s.latestStateRoot) "state root 1 mismatch"
  let accumulatorCommitment ← extractBytes32 publicOutputs diffCommitment2
  let latestStateRoot ← extractBytes32 publicOutputs diffStateRoot2
  return { s with accumulatorCommitment, latestStateRoot }

/-- Submit a finality proof. -/
def submitFinality (V : Verifiers) (proof : List UInt8) (publicOutputs : List UInt32)
    (s : Storage) : Guest Storage := do
  Guest.assert (s.initialized = true) "not initialized"
  Guest.assert (publicOutputs.length ≥ finWords) "invalid outputs length"
  Guest.assert (V.finalityVerifier proof publicOutputs = true) "invalid proof"
  -- either endpoint of the proof may be the accumulator the contract holds
  let commitment ← extractBytes32 publicOutputs finCommitment
  let nextCommitment ← extractBytes32 publicOutputs finNextCommitment
  Guest.assert (commitment = s.accumulatorCommitment ∨ nextCommitment = s.accumulatorCommitment)
    "accumulator mismatch"
  let latestFinalizedBlockRoot ← extractBytes32 publicOutputs finRoot
  let latestFinalizedStateRoot ← extractBytes32 publicOutputs finStateRoot
  return { s with latestFinalizedBlockRoot, latestFinalizedStateRoot }

/-- A transaction, whoever sends it. -/
inductive Transaction where
  | bootstrap (proof : List UInt8) (publicOutputs : List UInt32)
  | submitEpochDiff (proof : List UInt8) (publicOutputs : List UInt32)
  | submitFinality (proof : List UInt8) (publicOutputs : List UInt32)

/-- Run a transaction's function. -/
def Transaction.run (V : Verifiers) (s : Storage) : Transaction → Guest Storage
  | .bootstrap proof publicOutputs => Onchain.bootstrap V proof publicOutputs s
  | .submitEpochDiff proof publicOutputs => Onchain.submitEpochDiff V proof publicOutputs s
  | .submitFinality proof publicOutputs => Onchain.submitFinality V proof publicOutputs s

/-- The storage after a transaction: a revert leaves it as it was. -/
def Transaction.apply (V : Verifiers) (s : Storage) (tx : Transaction) : Storage :=
  match tx.run V s with
  | .ok s' => s'
  | .error _ => s

/-! ## What a transaction that went through did -/

variable {V : Verifiers} {proof : List UInt8} {publicOutputs : List UInt32} {s s' : Storage}

theorem bootstrap_eq_ok (h : bootstrap V proof publicOutputs s = .ok s') :
    s.initialized = false ∧ V.bootstrapVerifier proof publicOutputs = true ∧
      extractBytes32 publicOutputs bootCommitment = .ok s'.accumulatorCommitment ∧
      extractBytes32 publicOutputs bootStateRoot = .ok s'.latestStateRoot ∧
      s' = { s with
        accumulatorCommitment := s'.accumulatorCommitment
        latestStateRoot := s'.latestStateRoot
        initialized := true } := by
  simp only [bootstrap, Guest.bind_eq_ok, Guest.assert_eq_ok, Guest.pure_eq_ok, exists_const] at h
  obtain ⟨hinit, -, hverify, c, hc, r, hr, rfl⟩ := h
  exact ⟨hinit, hverify, hc, hr, rfl⟩

theorem submitEpochDiff_eq_ok (h : submitEpochDiff V proof publicOutputs s = .ok s') :
    s.initialized = true ∧ V.epochDiffVerifier proof publicOutputs = true ∧
      extractBytes32 publicOutputs diffCommitment1 = .ok s.accumulatorCommitment ∧
      extractBytes32 publicOutputs diffStateRoot1 = .ok s.latestStateRoot ∧
      extractBytes32 publicOutputs diffCommitment2 = .ok s'.accumulatorCommitment ∧
      extractBytes32 publicOutputs diffStateRoot2 = .ok s'.latestStateRoot ∧
      s' = { s with
        accumulatorCommitment := s'.accumulatorCommitment
        latestStateRoot := s'.latestStateRoot } := by
  simp only [submitEpochDiff, Guest.bind_eq_ok, Guest.assert_eq_ok, Guest.pure_eq_ok,
    exists_const] at h
  obtain ⟨hinit, -, hverify, _, hc1, rfl, _, hr1, rfl, c, hc, r, hr, rfl⟩ := h
  exact ⟨hinit, hverify, hc1, hr1, hc, hr, rfl⟩

theorem submitFinality_eq_ok (h : submitFinality V proof publicOutputs s = .ok s') :
    s.initialized = true ∧ V.finalityVerifier proof publicOutputs = true ∧
      (extractBytes32 publicOutputs finCommitment = .ok s.accumulatorCommitment ∨
        extractBytes32 publicOutputs finNextCommitment = .ok s.accumulatorCommitment) ∧
      extractBytes32 publicOutputs finRoot = .ok s'.latestFinalizedBlockRoot ∧
      extractBytes32 publicOutputs finStateRoot = .ok s'.latestFinalizedStateRoot ∧
      s' = { s with
        latestFinalizedStateRoot := s'.latestFinalizedStateRoot
        latestFinalizedBlockRoot := s'.latestFinalizedBlockRoot } := by
  simp only [submitFinality, Guest.bind_eq_ok, Guest.assert_eq_ok, Guest.pure_eq_ok,
    exists_const] at h
  obtain ⟨hinit, -, hverify, c, hc, c', hc', hmatch, b, hb, r, hr, rfl⟩ := h
  refine ⟨hinit, hverify, ?_, hb, hr, rfl⟩
  rcases hmatch with rfl | rfl
  · exact .inl hc
  · exact .inr hc'

end Zkasper.Onchain
