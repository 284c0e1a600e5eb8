import Zkasper.Boundary
import Zkasper.Formal

/-! # The state behind a boundary

What `openBoundary` reads, a `BeaconState`, as its root sees it: the two rings of
the last 8192 slots under their leaves of a 64-leaf tree, and the roots of the
fields no opening looks into.

A 19-node path is a path up a ring and then one up the state, and the joined index
takes the two apart again (`historyIndex_eq`), so an accepted opening reads the
entry of its slot (`stateRootFromHistory_eq_ok`) and the state's own siblings are
accepted (`openBoundary_canonical`). -/

namespace Zkasper.Ssz

open Merkle PerfectTree

variable (P : Primitives)

/-! ## The state -/

/-- Depth of a `Vector[Root, 8192]`. -/
def ringDepth : ℕ := 13

/-- Depth of the 64-leaf tree a state's fields are merkleized in. -/
def stateDepth : ℕ := 6

/-- A `BeaconState`: the entries of its two rings, of which the first 8192 are
read, and the root of every other field, a zero chunk past the last. -/
structure BeaconState where
  blockRoots : ℕ → P.Bytes32
  stateRoots : ℕ → P.Bytes32
  fieldRoots : ℕ → P.Bytes32

variable {P}

namespace BeaconState

/-- The leaf of a field in the state's own tree. -/
def fieldLeaf (s : BeaconState P) (i : ℕ) : P.Bytes32 :=
  if i = blockRootsField.toNat then root P.sha256Pair ringDepth s.blockRoots
  else if i = stateRootsField.toNat then root P.sha256Pair ringDepth s.stateRoots
  else s.fieldRoots i

/-- `hash_tree_root(BeaconState)` -/
def hashTreeRoot (s : BeaconState P) : P.Bytes32 := root P.sha256Pair stateDepth s.fieldLeaf

/-- The ring a field holds, where it holds one: a field of the state, and its entries. -/
structure Ring (s : BeaconState P) (field : UInt64) (entries : ℕ → P.Bytes32) : Prop where
  field_lt : field.toNat < 2 ^ stateDepth
  leaf : s.fieldLeaf field.toNat = root P.sha256Pair ringDepth entries

theorem ring_blockRoots (s : BeaconState P) : s.Ring blockRootsField s.blockRoots :=
  ⟨by decide, if_pos rfl⟩

theorem ring_stateRoots (s : BeaconState P) : s.Ring stateRootsField s.stateRoots :=
  ⟨by decide, (if_neg (by decide)).trans (if_pos rfl)⟩

end BeaconState

/-! ## The joined index -/

theorem slotsPerHistoricalRoot_toNat : slotsPerHistoricalRoot.toNat = 2 ^ ringDepth := by decide

/-- A field's place in the state, then a slot's place in the ring; nothing overflows. -/
theorem historyIndex_eq {field : UInt64} (slot : UInt64) (h : field.toNat < 2 ^ stateDepth) :
    historyIndex field slot = field.toNat * 2 ^ ringDepth + slot.toNat % 2 ^ ringDepth := by
  have hmod : slot.toNat % 2 ^ ringDepth < 2 ^ ringDepth := Nat.mod_lt _ (by decide)
  simp only [historyIndex, UInt64.toNat_add, UInt64.toNat_mul, UInt64.toNat_mod,
    slotsPerHistoricalRoot_toNat]
  simp only [ringDepth, stateDepth] at *
  omega

theorem historyIndex_div {field : UInt64} (slot : UInt64) (h : field.toNat < 2 ^ stateDepth) :
    historyIndex field slot / 2 ^ ringDepth = field.toNat := by
  rw [historyIndex_eq slot h]
  simp only [ringDepth]
  omega

theorem historyIndex_mod {field : UInt64} (slot : UInt64) (h : field.toNat < 2 ^ stateDepth) :
    historyIndex field slot % 2 ^ ringDepth = slot.toNat % 2 ^ ringDepth := by
  rw [historyIndex_eq slot h]
  simp only [ringDepth]
  omega

/-- The state leaf a joined index passes is the field's. -/
theorem tile_historyIndex_div {field : UInt64} (slot : UInt64) (h : field.toNat < 2 ^ stateDepth)
    (t : ℕ → P.Bytes32) :
    tile stateDepth t (historyIndex field slot / 2 ^ ringDepth) = t field.toNat := by
  rw [historyIndex_div slot h, tile, Nat.mod_eq_of_lt h]

theorem tile_historyIndex {field : UInt64} (slot : UInt64) (h : field.toNat < 2 ^ stateDepth)
    (t : ℕ → P.Bytes32) :
    tile ringDepth t (historyIndex field slot) = t (slot.toNat % 2 ^ ringDepth) := by
  rw [tile, historyIndex_mod slot h]

/-! ## Opening a ring -/

/-- **An opening of a state reads its ring**: whatever the siblings, the entry is
the one the ring holds at the slot's place. -/
theorem stateRootFromHistory_eq_ok (hsha : Function.Injective2 P.sha256Pair) {s : BeaconState P}
    {field slot : UInt64} {entries : ℕ → P.Bytes32} (hring : s.Ring field entries)
    {entry : P.Bytes32} {siblings : List P.Bytes32}
    (h : stateRootFromHistory P field slot entry siblings = .ok s.hashTreeRoot) :
    entry = entries (slot.toNat % 2 ^ ringDepth) := by
  simp only [stateRootFromHistory, Guest.bind_eq_ok, Guest.assert_eq_ok, Guest.pure_eq_ok,
    exists_const] at h
  obtain ⟨hlen, hroot⟩ := h
  -- the first thirteen siblings climb the ring, the other six the state
  have hlow : (siblings.take ringDepth).length = ringDepth := by
    rw [List.length_take, hlen]
    rfl
  have hhigh : (siblings.drop ringDepth).length = stateDepth := by
    rw [List.length_drop, hlen]
    rfl
  rw [computeSszMerkleRoot, ← List.take_append_drop ringDepth siblings, computeRoot_append,
    hlow] at hroot
  have hfield := (computeRoot_eq_root hsha hhigh hroot).1
  rw [tile_historyIndex_div slot hring.field_lt, hring.leaf] at hfield
  have hentry := (computeRoot_eq_root hsha hlow hfield).1
  rwa [tile_historyIndex slot hring.field_lt] at hentry

/-- The siblings of a slot's entry in the joined tree. -/
def historySiblings (s : BeaconState P) (field slot : UInt64) (entries : ℕ → P.Bytes32) :
    List P.Bytes32 :=
  siblingPath P.sha256Pair ringDepth entries (historyIndex field slot) ++
    siblingPath P.sha256Pair stateDepth s.fieldLeaf (historyIndex field slot / 2 ^ ringDepth)

theorem stateRootFromHistory_canonical {s : BeaconState P} {field : UInt64} (slot : UInt64)
    {entries : ℕ → P.Bytes32} (hring : s.Ring field entries) :
    stateRootFromHistory P field slot (entries (slot.toNat % 2 ^ ringDepth))
      (historySiblings s field slot entries) = .ok s.hashTreeRoot := by
  simp only [stateRootFromHistory, Guest.bind_eq_ok, Guest.assert_eq_ok, Guest.pure_eq_ok,
    exists_const]
  constructor
  · simp [historySiblings, historyProofDepth, ringDepth, stateDepth]
  · rw [computeSszMerkleRoot, historySiblings, computeRoot_append, siblingPath_length,
      ← tile_historyIndex slot hring.field_lt entries, computeRoot_siblingPath, ← hring.leaf,
      ← tile_historyIndex_div slot hring.field_lt s.fieldLeaf, computeRoot_siblingPath]
    rfl

/-! ## Opening a boundary of a state -/

theorem recordsSlot_iff {h n : UInt64} :
    RecordsSlot h n ↔ n.toNat < h.toNat ∧ h.toNat ≤ n.toNat + 8192 := by
  have hwindow : slotsPerHistoricalRoot.toNat = 8192 := by decide
  unfold RecordsSlot
  rw [gt_iff_lt, UInt64.lt_iff_toNat_lt, UInt64.le_iff_toNat_le, hwindow]
  apply and_congr_right
  intro hlt
  rw [UInt64.toNat_sub_of_le _ _ (UInt64.le_iff_toNat_le.mpr (le_of_lt hlt))]
  omega

/-- The anchor a state makes for a boundary slot. -/
def BeaconState.anchor (s : BeaconState P) (header : BlockHeaderFields P) (slot : UInt64) :
    BoundaryAnchor P where
  justifiedHeader := header
  blockRootsSiblings := historySiblings s blockRootsField slot s.blockRoots
  stateRootsSiblings := historySiblings s stateRootsField slot s.stateRoots

/-- **A boundary still in the rings opens**: under a header of the state, the
entries at its place are accepted. -/
theorem openBoundary_canonical {s : BeaconState P} {header : BlockHeaderFields P}
    {finalizedEpoch slotsPerEpoch : UInt64} (hheader : header.stateRoot = s.hashTreeRoot)
    (hslot : RecordsSlot header.slot (finalizedEpoch * slotsPerEpoch)) :
    openBoundary (s.anchor header (finalizedEpoch * slotsPerEpoch)) finalizedEpoch
      (s.blockRoots ((finalizedEpoch * slotsPerEpoch).toNat % 2 ^ ringDepth))
      (blockHeaderRoot P header)
      (s.stateRoots ((finalizedEpoch * slotsPerEpoch).toNat % 2 ^ ringDepth)) slotsPerEpoch =
        .ok () := by
  simp only [openBoundary, Guest.bind_eq_ok, Guest.assert_eq_ok, exists_const]
  exact ⟨rfl, hslot, _, stateRootFromHistory_canonical _ s.ring_blockRoots, hheader.symm,
    _, stateRootFromHistory_canonical _ s.ring_stateRoots, hheader.symm⟩

/-- **A boundary opens one way, and inside the window.** Whatever the anchor, a
justified root admits one finalized root and one state root for an epoch; and
under the header of a state they are the entries of the boundary slot in its two
rings, written already and not yet overwritten. -/
theorem openBoundary_unique_in_range (hbytes : Function.Injective P.ofBytes)
    (hsha : Function.Injective2 P.sha256Pair) (justifiedRoot : P.Bytes32)
    (finalizedEpoch slotsPerEpoch : UInt64)
    (hslot : finalizedEpoch.toNat * slotsPerEpoch.toNat < 2 ^ 64) :
    (∀ anchor anchor' finalizedRoot finalizedRoot' boundaryStateRoot boundaryStateRoot',
      openBoundary anchor finalizedEpoch finalizedRoot justifiedRoot boundaryStateRoot
          slotsPerEpoch = .ok () →
        openBoundary anchor' finalizedEpoch finalizedRoot' justifiedRoot boundaryStateRoot'
          slotsPerEpoch = .ok () →
        finalizedRoot = finalizedRoot' ∧ boundaryStateRoot = boundaryStateRoot') ∧
    (∀ (anchor : BoundaryAnchor P) (finalizedRoot boundaryStateRoot : P.Bytes32)
      (state : BeaconState P) (b : ℕ),
      openBoundary anchor finalizedEpoch finalizedRoot justifiedRoot boundaryStateRoot
          slotsPerEpoch = .ok () →
        anchor.justifiedHeader.stateRoot = state.hashTreeRoot →
        b = finalizedEpoch.toNat * slotsPerEpoch.toNat →
        finalizedRoot = state.blockRoots (b % 8192) ∧
          boundaryStateRoot = state.stateRoots (b % 8192) ∧
          b < anchor.justifiedHeader.slot.toNat ∧
          anchor.justifiedHeader.slot.toNat ≤ b + 8192) := by
  have hring : 8192 = 2 ^ ringDepth := by decide
  have hboundary : (finalizedEpoch * slotsPerEpoch).toNat =
      finalizedEpoch.toNat * slotsPerEpoch.toNat := by
    rw [UInt64.toNat_mul, Nat.mod_eq_of_lt hslot]
  constructor
  · intro anchor anchor' finalizedRoot finalizedRoot' boundaryStateRoot boundaryStateRoot' h h'
    obtain ⟨header, hheader, -, hblock, hstate⟩ := openBoundary_eq_ok h
    obtain ⟨header', hheader', -, hblock', hstate'⟩ := openBoundary_eq_ok h'
    -- one root, one header, and so one state root under both openings
    obtain rfl : header = header' :=
      blockHeaderRoot_injective_of_sha256 hbytes hsha (hheader.trans hheader'.symm)
    exact ⟨hblock.unique_of_sha256 hsha hblock', hstate.unique_of_sha256 hsha hstate'⟩
  · rintro anchor finalizedRoot boundaryStateRoot state b h hroot rfl
    simp only [openBoundary, Guest.bind_eq_ok, Guest.assert_eq_ok, exists_const] at h
    obtain ⟨-, hwindow, blockRoot, hblock, hblockRoot, stateRoot, hstate, hstateRoot⟩ := h
    rw [hblockRoot, hroot] at hblock
    rw [hstateRoot, hroot] at hstate
    rw [hring, ← hboundary]
    exact ⟨stateRootFromHistory_eq_ok hsha state.ring_blockRoots hblock,
      stateRootFromHistory_eq_ok hsha state.ring_stateRoots hstate, recordsSlot_iff.mp hwindow⟩

/-- One boundary run: epoch 2 of 32 slots, justified at slot 96, every slot's block
root its number and every state root the number after it. -/
theorem openBoundary_unique_in_range_free :
    let P := Formal.formal {}
    let state : BeaconState P := ⟨fun i => P.chunk (.ofNat i), fun i => P.chunk (.ofNat (i + 1)),
      fun _ => P.zeroChunk⟩
    let header : BlockHeaderFields P :=
      ⟨96, 7, P.zeroChunk, state.hashTreeRoot, P.zeroChunk⟩
    openBoundary (state.anchor header (2 * 32)) 2 (P.chunk 64) (blockHeaderRoot P header)
        (P.chunk 65) 32 = .ok () ∧
      (∀ anchor finalizedRoot boundaryStateRoot,
        openBoundary anchor 2 finalizedRoot (blockHeaderRoot P header) boundaryStateRoot 32 =
          .ok () → P.chunk 64 = finalizedRoot ∧ P.chunk 65 = boundaryStateRoot) ∧
      P.chunk 64 = state.blockRoots (64 % 8192) ∧ 64 < header.slot.toNat := by
  intro P state header
  have hopen : openBoundary (state.anchor header (2 * 32)) 2 (P.chunk 64)
      (blockHeaderRoot P header) (P.chunk 65) 32 = .ok () :=
    openBoundary_canonical rfl (by decide)
  have hP := Formal.formal_collisionFree {}
  obtain ⟨hunique, hrange⟩ := openBoundary_unique_in_range hP.ofBytes hP.sha256Pair
    (blockHeaderRoot P header) 2 32 (by decide)
  obtain ⟨hblock, -, hlt, -⟩ := hrange _ _ _ state 64 hopen rfl rfl
  exact ⟨hopen, fun _ _ _ h => hunique _ _ _ _ _ _ hopen h, hblock, hlt⟩

end Zkasper.Ssz
