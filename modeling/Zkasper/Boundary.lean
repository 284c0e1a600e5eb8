import Zkasper.Ssz

/-! # Opening a boundary

The finalized epoch's boundary, opened out of the justified checkpoint's state. A
`BeaconState` keeps two ring buffers over the last 8192 slots, the block roots and
the state roots, and the one block after the boundary that a finality proof
already trusts is the justified one, because its root is what the stake signed as
its target.

`openBoundary_eq_ok` takes an accepted opening apart. `History.unique` says what
it is worth: a header has one state root, and one state root has one entry for a
slot. -/

namespace Zkasper.Ssz

open Merkle

variable (P : Primitives)

/-- Slots of history a `BeaconState` keeps: `SLOTS_PER_HISTORICAL_ROOT`. -/
def slotsPerHistoricalRoot : UInt64 := 8192

/-- `BLOCK_ROOTS_FIELD` -/
def blockRootsField : UInt64 := 5

/-- `STATE_ROOTS_FIELD` -/
def stateRootsField : UInt64 := 6

/-- Depth of a `Vector[Root, 8192]`, plus the six levels of the 64-leaf state tree above it. -/
def historyProofDepth : ℕ := 13 + 6

/-- Index of a slot's entry in the joined tree. -/
def historyIndex (field slot : UInt64) : ℕ :=
  (field * slotsPerHistoricalRoot + slot % slotsPerHistoricalRoot).toNat

/-- Recompute the `BeaconState` root that holds `entry` for `slot` in one of the
two ring buffers. -/
def stateRootFromHistory (field slot : UInt64) (entry : P.Bytes32) (siblings : List P.Bytes32) :
    Guest P.Bytes32 := do
  Guest.assert (siblings.length = historyProofDepth)
    "history proof is not the depth of a BeaconState ring buffer"
  return computeSszMerkleRoot P entry (historyIndex field slot) siblings

/-- The justified checkpoint's header, and the two openings rooted in its state. -/
structure BoundaryAnchor where
  justifiedHeader : BlockHeaderFields P
  blockRootsSiblings : List P.Bytes32
  stateRootsSiblings : List P.Bytes32

variable {P}

/-- A state of slot `h` records slot `n` from `n + 1` on and keeps it for 8192 slots. -/
def RecordsSlot (h n : UInt64) : Prop := h > n ∧ h - n ≤ slotsPerHistoricalRoot

instance (h n : UInt64) : Decidable (RecordsSlot h n) := inferInstanceAs (Decidable (_ ∧ _))

/-- Open the finalized epoch's boundary out of the justified checkpoint's state. -/
def openBoundary (anchor : BoundaryAnchor P) (finalizedEpoch : UInt64)
    (finalizedRoot justifiedRoot boundaryStateRoot : P.Bytes32) (slotsPerEpoch : UInt64) :
    Guest Unit := do
  let h := anchor.justifiedHeader
  Guest.assert (blockHeaderRoot P h = justifiedRoot)
    "justified header does not hash to the justified root"
  let boundarySlot := finalizedEpoch * slotsPerEpoch
  Guest.assert (RecordsSlot h.slot boundarySlot)
    "the justified checkpoint's state does not record the boundary it is asked to open"
  let blockRoot ← stateRootFromHistory P blockRootsField boundarySlot finalizedRoot
    anchor.blockRootsSiblings
  Guest.assert (blockRoot = h.stateRoot)
    "the finalized checkpoint is not the block at the boundary of the justified chain"
  let stateRoot ← stateRootFromHistory P stateRootsField boundarySlot boundaryStateRoot
    anchor.stateRootsSiblings
  Guest.assert (stateRoot = h.stateRoot)
    "the finalized epoch's accumulator was built from a different state than the boundary"

/-! ## What an opening says -/

/-- The state with this root holds `entry` for `slot` in the ring buffer of `field`. -/
def History (field slot : UInt64) (entry stateRoot : P.Bytes32) : Prop :=
  ∃ siblings, stateRootFromHistory P field slot entry siblings = .ok stateRoot

/-- One state root has one entry for a slot: SHA-256 alone binds it. -/
theorem History.unique_of_sha256 (hsha : Function.Injective2 P.sha256Pair) {field slot : UInt64}
    {entry entry' stateRoot : P.Bytes32} (h : History field slot entry stateRoot)
    (h' : History field slot entry' stateRoot) : entry = entry' := by
  obtain ⟨siblings, h⟩ := h
  obtain ⟨siblings', h'⟩ := h'
  simp only [stateRootFromHistory, Guest.bind_eq_ok, Guest.assert_eq_ok, Guest.pure_eq_ok,
    exists_const] at h h'
  obtain ⟨hlen, hroot⟩ := h
  obtain ⟨hlen', hroot'⟩ := h'
  exact (computeRoot_injective hsha (hlen.trans hlen'.symm) (hroot.trans hroot'.symm)).1

theorem History.unique (hP : CollisionFree P) {field slot : UInt64}
    {entry entry' stateRoot : P.Bytes32} (h : History field slot entry stateRoot)
    (h' : History field slot entry' stateRoot) : entry = entry' :=
  h.unique_of_sha256 hP.sha256Pair h'

/-- An accepted opening: the header, and both entries of its state. -/
theorem openBoundary_eq_ok {anchor : BoundaryAnchor P} {finalizedEpoch : UInt64}
    {finalizedRoot justifiedRoot boundaryStateRoot : P.Bytes32} {slotsPerEpoch : UInt64} {u : Unit}
    (h : openBoundary anchor finalizedEpoch finalizedRoot justifiedRoot boundaryStateRoot
      slotsPerEpoch = .ok u) :
    ∃ header : BlockHeaderFields P, blockHeaderRoot P header = justifiedRoot ∧
      RecordsSlot header.slot (finalizedEpoch * slotsPerEpoch) ∧
      History blockRootsField (finalizedEpoch * slotsPerEpoch) finalizedRoot header.stateRoot ∧
      History stateRootsField (finalizedEpoch * slotsPerEpoch) boundaryStateRoot
        header.stateRoot := by
  simp only [openBoundary, Guest.bind_eq_ok, Guest.assert_eq_ok, exists_const] at h
  obtain ⟨hheader, hslot, blockRoot, hblock, rfl, stateRoot, hstate, hroot⟩ := h
  refine ⟨anchor.justifiedHeader, hheader, hslot, ⟨_, hblock⟩, anchor.stateRootsSiblings, ?_⟩
  rw [hstate, hroot]

end Zkasper.Ssz
