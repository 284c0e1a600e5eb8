import Zkasper.Guest
import Zkasper.Types

/-! # Recursive verification

Which program a child proof came from, and what it published. A guest asks the
proof system whether a buffer of words proves that some program published some
bytes; the answer is a `ProofSystem`, and what makes an answer trustworthy is a
property of the whole tree of runs, stated where the trees are.

Public outputs are laid out with fixed widths, so two outputs of one program agree
in bytes exactly when they agree field by field. Here they are lists of fields,
each with its kind. -/

namespace Zkasper

/-- Identifies which guest program produced a proof. -/
structure ProgramVk where
  w0 : UInt64
  w1 : UInt64
  w2 : UInt64
  w3 : UInt64
  deriving DecidableEq

/-- A child key a guest was built without. No program has it. -/
def unsetVk : ProgramVk := ⟨0, 0, 0, 0⟩

/-! ## The keys the guests were built with -/

def groupProgramVk : ProgramVk :=
  ⟨1565486971772027417, 2285946323872289419, 12956213914023253875, 66241587489961970⟩

def epochDiffProgramVk : ProgramVk :=
  ⟨7172082185357583530, 3170201351238257296, 8344270706284046120, 17984450014720544533⟩

def committeeProgramVk : ProgramVk :=
  ⟨4550671581005412342, 823033030672811239, 1310771570228369056, 12577876604990165545⟩

def slotProgramVk : ProgramVk :=
  ⟨11801805035756213316, 6649233382649588221, 16988928389271073279, 190818128282058430⟩

def aggregateProgramVk : ProgramVk :=
  ⟨3781962061384985600, 8295092089734019428, 6821034076193943148, 2669516197799956909⟩

def justificationProgramVk : ProgramVk :=
  ⟨18190389716866650475, 15570977105188299102, 10271774781051341667, 8543167455539231661⟩

/-! ## Public outputs -/

/-- One field written by a `PublicWriter`. -/
inductive PublicField (P : Primitives) where
  | u64 (v : UInt64)
  | bytes32 (v : P.Bytes32)
  | digest (v : P.Digest)
  | programVk (v : ProgramVk)
  deriving DecidableEq

/-- What a proof publishes. -/
abbrev PublicBytes (P : Primitives) := List (PublicField P)

variable {P : Primitives}

def CommitteeOutput.publicBytes (o : CommitteeOutput P) : PublicBytes P :=
  [.digest o.accumulatorCommitment, .u64 o.targetEpoch, .digest o.committeeRoot]

def EpochDiffOutput.publicBytes (o : EpochDiffOutput P) : PublicBytes P :=
  [.digest o.prevAccumulatorCommitment, .bytes32 o.stateRoot1, .u64 o.epoch1,
    .digest o.accumulatorCommitment, .digest o.accRoot, .u64 o.totalActiveBalance,
    .bytes32 o.stateRoot2, .u64 o.epoch2]

def FinalizationOutput.publicBytes (o : FinalizationOutput P) : PublicBytes P :=
  [.digest o.accumulatorCommitment, .digest o.nextAccumulatorCommitment, .u64 o.finalizedEpoch,
    .bytes32 o.finalizedRoot, .bytes32 o.finalizedStateRoot]

theorem CommitteeOutput.publicBytes_injective :
    Function.Injective (CommitteeOutput.publicBytes (P := P)) := by
  rintro ⟨⟩ ⟨⟩ h
  simpa [publicBytes] using h

theorem EpochDiffOutput.publicBytes_injective :
    Function.Injective (EpochDiffOutput.publicBytes (P := P)) := by
  rintro ⟨⟩ ⟨⟩ h
  simpa [publicBytes] using h

/-! ## Verifying a child -/

/-- Which buffers prove that a program published some bytes. -/
abbrev ProofSystem (P : Primitives) := List UInt64 → ProgramVk → PublicBytes P → Bool

/-- Verify a child proof and bind it to the program and outputs the caller
expects. Inside a guest an empty proof is rejected. -/
def verifyChild (S : ProofSystem P) (proof : List UInt64) (expectedVk : ProgramVk)
    (expectedPublics : PublicBytes P) : Bool :=
  if proof = [] then false else S proof expectedVk expectedPublics

/-- The same against a key the parent was compiled with rather than one it was handed. -/
def verifyBakedChild (S : ProofSystem P) (proof : List UInt64) (baked : ProgramVk)
    (expectedPublics : PublicBytes P) : Guest Bool :=
  if proof = [] then return false
  else do
    Guest.assert (baked ≠ unsetVk)
      "this guest was built before its children had keys; run scripts/bake_child_vks.sh"
    return verifyChild S proof baked expectedPublics

/-- `assert!(verify_baked_child(..), message)` -/
def requireBakedChild (S : ProofSystem P) (proof : List UInt64) (baked : ProgramVk)
    (expectedPublics : PublicBytes P) (message : String) : Guest Unit := do
  let ok ← verifyBakedChild S proof baked expectedPublics
  Guest.assert (ok = true) message

theorem verifyChild_eq_true {S : ProofSystem P} {proof : List UInt64} {vk : ProgramVk}
    {publics : PublicBytes P} (h : verifyChild S proof vk publics = true) :
    S proof vk publics = true := by
  unfold verifyChild at h
  split at h
  · cases h
  · exact h

theorem requireBakedChild_eq_ok {S : ProofSystem P} {proof : List UInt64} {baked : ProgramVk}
    {publics : PublicBytes P} {message : String} {u : Unit}
    (h : requireBakedChild S proof baked publics message = .ok u) :
    S proof baked publics = true := by
  simp only [requireBakedChild, verifyBakedChild, Guest.bind_eq_ok, Guest.assert_eq_ok] at h
  obtain ⟨ok, hok, rfl⟩ := h
  split at hok
  · cases hok
  · obtain ⟨_, -, hret⟩ := Guest.bind_eq_ok.mp hok
    exact verifyChild_eq_true (Guest.pure_eq_ok.mp hret)

end Zkasper
