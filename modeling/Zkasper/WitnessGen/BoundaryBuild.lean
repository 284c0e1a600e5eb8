import Zkasper.WitnessGen.HostDiff
import Zkasper.WitnessGen.MalformedStates

/-! # Building an anchor

`boundary.rs`: the finalized epoch's boundary, opened out of the justified checkpoint. The
siblings come out of the raw state the node serves for it, a path through a ring and one
through the state, or out of a synthetic state where the node serves none.

The circuit walks the two paths as one (`historySiblings_eq`), so what a state records in its
window is accepted under the header of that state. What is built is checked against the header
that was fetched, but not that the header is the one asked for, nor that its slot is in the
window: those two are what an anchor is accepted by (`build_accepted`). -/

namespace Zkasper

open Merkle PerfectTree Ssz Panics
open SszState (StateConfig)

variable {P : Primitives}

/-! ## The joined path -/

namespace Ssz

/-- The path in the joined tree: through the ring, then through the state. -/
theorem historySiblings_eq (s : BeaconState P) {field : UInt64} (slot : UInt64)
    (entries : ℕ → P.Bytes32) (h : field.toNat < 2 ^ stateDepth) :
    historySiblings s field slot entries =
      siblingPath P.sha256Pair ringDepth entries (slot.toNat % 2 ^ ringDepth) ++
        siblingPath P.sha256Pair stateDepth s.fieldLeaf field.toNat := by
  rw [historySiblings, historyIndex_div slot h, ← siblingPath_mod ringDepth,
    historyIndex_mod slot h]

end Ssz

/-! ## The host -/

namespace Boundary

/-- What a state is asked for by. -/
inductive StateId (P : Primitives) where
  | root (stateRoot : P.Bytes32)
  | slot (slot : UInt64)

/-- The node: the header of a block root, and the raw state of an id, where it has one. -/
structure Node (P : Primitives) where
  getHeader : P.Bytes32 → Except String (BlockHeaderFields P)
  getStateSsz : StateId P → Except String (Option (List UInt8))

/-- Open a synthetic state's ring buffers the way a real one's are. -/
def makeBoundaryProof (dataTreeRoot : P.Bytes32) (listLength : UInt64) (history : SlotHistory P) :
    SszState.BoundaryProof P :=
  let leaves := syntheticStateLeaves dataTreeRoot listLength history
  let (stateRoot, blockFieldSiblings) := buildStateTreeAndExtract leaves blockRootsField.toNat
  let (_, stateFieldSiblings) := buildStateTreeAndExtract leaves stateRootsField.toNat
  { stateRoot
    blockRoot := history.blockRoot
    boundaryStateRoot := history.stateRoot
    blockRootsSiblings := ringSiblings ++ blockFieldSiblings
    stateRootsSiblings := ringSiblings ++ stateFieldSiblings }

/-- What a node answers to a state it does not have. -/
def stateNotServed : String := "NOT_FOUND: beacon state at slot"

/-- The proof out of the state that is served, or out of a synthetic one that has to be the
header's own. -/
def boundaryProof (config : StateConfig) (justifiedHeader : BlockHeaderFields P)
    (served : Option (List UInt8)) (boundarySlot : UInt64)
    (finalizedRoot boundaryStateRoot : P.Bytes32) (current : EpochState P) :
    Outcome String (SszState.BoundaryProof P) :=
  match served with
  | some raw =>
      let known := if current.slot = justifiedHeader.slot then
        some (listHashTreeRoot P current.sszDataRoot current.numValidators) else none
      SszState.parseBoundaryProof config raw known boundarySlot
  | none => do
      let synthetic := makeBoundaryProof current.sszDataRoot current.numValidators
        ⟨boundarySlot, finalizedRoot, boundaryStateRoot⟩
      ensure (synthetic.stateRoot = justifiedHeader.stateRoot) <|
        s!"{stateNotServed} {justifiedHeader.slot} — the justified checkpoint's own state is " ++
          "the only state that opens the boundary 2/3 of the stake signed, and none other " ++
          "stands in for it"
      return synthetic

/-- Build the anchor that ties the finalized epoch's boundary to the justified checkpoint. -/
def build (api : Node P) (config : StateConfig) (justifiedRoot : P.Bytes32)
    (finalizedEpoch : UInt64) (finalizedRoot boundaryStateRoot : P.Bytes32)
    (current : EpochState P) : Outcome String (BoundaryAnchor P) := do
  let justifiedHeader ← ofResult <| (api.getHeader justifiedRoot).mapError fun _ =>
    "fetch the header of the justified checkpoint block"
  let boundarySlot := finalizedEpoch * config.slotsPerEpoch
  -- by the header's own state root, and by its slot only if the node does not answer that
  let served ← ofResult <| do
    match ← api.getStateSsz (.root justifiedHeader.stateRoot) with
    | some raw => return some raw
    | none => api.getStateSsz (.slot justifiedHeader.slot)
  let proof ← boundaryProof config justifiedHeader served boundarySlot finalizedRoot
    boundaryStateRoot current
  ensure (proof.stateRoot = justifiedHeader.stateRoot)
    s!"the state at slot {justifiedHeader.slot} is not the one the justified checkpoint produced"
  ensure (proof.blockRoot = finalizedRoot)
    s!"the justified chain has a different checkpoint at slot {boundarySlot}"
  ensure (proof.boundaryStateRoot = boundaryStateRoot)
    s!"the accumulator was built from a different state than slot {boundarySlot} produced"
  return {
    justifiedHeader
    blockRootsSiblings := proof.blockRootsSiblings
    stateRootsSiblings := proof.stateRootsSiblings }

/-! ## A proof that opens -/

/-- **A proof opens a state at a slot**: there is a state with its root whose rings hold its two
entries at the slot's place, and its siblings are the paths to them. -/
def Opens (proof : SszState.BoundaryProof P) (slot : UInt64) : Prop :=
  ∃ s : BeaconState P, s.hashTreeRoot = proof.stateRoot ∧
    s.blockRoots (slot.toNat % 2 ^ ringDepth) = proof.blockRoot ∧
    s.stateRoots (slot.toNat % 2 ^ ringDepth) = proof.boundaryStateRoot ∧
    historySiblings s blockRootsField slot s.blockRoots = proof.blockRootsSiblings ∧
    historySiblings s stateRootsField slot s.stateRoots = proof.stateRootsSiblings

/-- **Such a proof is accepted** under a header of its state, exactly if the header is the
justified one and in the window. -/
theorem Opens.accepted_iff {proof : SszState.BoundaryProof P} {finalizedEpoch slotsPerEpoch : UInt64}
    (h : Opens proof (finalizedEpoch * slotsPerEpoch)) {header : BlockHeaderFields P}
    (hheader : header.stateRoot = proof.stateRoot) (justifiedRoot : P.Bytes32) :
    openBoundary ⟨header, proof.blockRootsSiblings, proof.stateRootsSiblings⟩ finalizedEpoch
        proof.blockRoot justifiedRoot proof.boundaryStateRoot slotsPerEpoch = .ok () ↔
      blockHeaderRoot P header = justifiedRoot ∧
        RecordsSlot header.slot (finalizedEpoch * slotsPerEpoch) := by
  constructor
  · intro haccepted
    simp only [openBoundary, Guest.bind_eq_ok, Guest.assert_eq_ok, exists_const] at haccepted
    exact ⟨haccepted.1, haccepted.2.1⟩
  · rintro ⟨rfl, hslot⟩
    obtain ⟨s, hroot, hblock, hstate, hblocks, hstates⟩ := h
    have hcanonical := openBoundary_canonical (hheader.trans hroot.symm) hslot
    rwa [BeaconState.anchor, hblock, hstate, hblocks, hstates] at hcanonical

/-- The two paths through leaves that hold the rings open the state of those leaves. -/
theorem opens_of_leaves {leaves blockRoots stateRoots : ℕ → P.Bytes32}
    (hblocks : leaves blockRootsField.toNat = root P.sha256Pair ringDepth blockRoots)
    (hstates : leaves stateRootsField.toNat = root P.sha256Pair ringDepth stateRoots)
    (slot : UInt64) :
    Opens {
      stateRoot := root P.sha256Pair stateDepth leaves
      blockRoot := blockRoots (slot.toNat % 2 ^ ringDepth)
      boundaryStateRoot := stateRoots (slot.toNat % 2 ^ ringDepth)
      blockRootsSiblings :=
        siblingPath P.sha256Pair ringDepth blockRoots (slot.toNat % 2 ^ ringDepth) ++
          siblingPath P.sha256Pair stateDepth leaves blockRootsField.toNat
      stateRootsSiblings :=
        siblingPath P.sha256Pair ringDepth stateRoots (slot.toNat % 2 ^ ringDepth) ++
          siblingPath P.sha256Pair stateDepth leaves stateRootsField.toNat } slot := by
  let s : BeaconState P := ⟨blockRoots, stateRoots, leaves⟩
  have hleaf : s.fieldLeaf = leaves := by
    funext i
    unfold BeaconState.fieldLeaf
    split
    · next heq => rw [heq, hblocks]
    · split
      · next heq => rw [heq, hstates]
      · rfl
  refine ⟨s, ?_, rfl, rfl, ?_, ?_⟩
  · rw [BeaconState.hashTreeRoot, hleaf]
  · rw [historySiblings_eq s slot _ (by decide), hleaf]
  · rw [historySiblings_eq s slot _ (by decide), hleaf]

/-- The zero subtrees are the path to any place among zeros. -/
theorem ringSiblings_eq {k : ℕ} (hk : k < 2 ^ ringDepth) (entry : P.Bytes32) :
    (ringSiblings : List P.Bytes32) = siblingPath P.sha256Pair ringDepth
      (Function.update (fun _ => P.zeroChunk) k entry) k := by
  rw [siblingPath_update hk, siblingPath_eq_map hk, ringSiblings]
  apply List.ext_getElem
  · simp
  · intro i hi hi'
    rw [List.getElem_map, nodeAt_of_const (z := P.zeroChunk) fun _ _ => rfl, List.getElem_iterate,
      List.getElem_range]

theorem ringRoot_eq (slot : UInt64) (entry : P.Bytes32) :
    ringRoot slot entry = root P.sha256Pair ringDepth
      (Function.update (fun _ => P.zeroChunk) (slot.toNat % 2 ^ ringDepth) entry) := by
  have hk : slot.toNat % 2 ^ ringDepth < 2 ^ ringDepth := Nat.mod_lt _ (Nat.two_pow_pos _)
  rw [ringRoot, UInt64.toNat_mod, slotsPerHistoricalRoot_toNat, computeSszMerkleRoot,
    ringSiblings_eq hk entry, siblingPath_update hk, computeRoot_siblingPath_update hk]

/-- **A synthetic state opens at the slot it records**: its rings hold one entry each, among
zeros. -/
theorem makeBoundaryProof_opens (dataTreeRoot : P.Bytes32) (listLength : UInt64)
    (history : SlotHistory P) :
    Opens (makeBoundaryProof dataTreeRoot listLength history) history.slot := by
  have hk : history.slot.toNat % 2 ^ ringDepth < 2 ^ ringDepth :=
    Nat.mod_lt _ (Nat.two_pow_pos _)
  have hblocks : syntheticStateLeaves dataTreeRoot listLength history blockRootsField.toNat = _ :=
    ringRoot_eq history.slot history.blockRoot
  have hstates : syntheticStateLeaves dataTreeRoot listLength history stateRootsField.toNat = _ :=
    ringRoot_eq history.slot history.stateRoot
  have hopens := opens_of_leaves hblocks hstates history.slot
  simp only [Function.update_self, ← ringSiblings_eq hk] at hopens
  rw [makeBoundaryProof]
  dsimp only
  rw [buildStateTreeAndExtract_eq _ (by decide), buildStateTreeAndExtract_eq _ (by decide)]
  exact hopens

/-! ## What the parser extracts -/

/-- The leaves a boundary proof opens by hold the rings of the bytes. -/
theorem boundaryHtrs_rings {config : StateConfig} {raw : List UInt8}
    {fork : SszState.ConsensusFork} {known : Option P.Bytes32} {htrs : List P.Bytes32}
    (h : SszState.boundaryHtrs config raw fork known = some htrs) :
    SszState.stateLeaves htrs blockRootsField.toNat = root P.sha256Pair ringDepth
        (SszState.ringRoots P raw blockRootsField.toNat) ∧
      SszState.stateLeaves htrs stateRootsField.toNat = root P.sha256Pair ringDepth
        (SszState.ringRoots P raw stateRootsField.toNat) := by
  have hround : ∀ i < SszState.fieldCount fork, (List.range (SszState.fieldCount fork))[i]? =
      some i := fun i hi => List.getElem?_range hi
  constructor
  · have hlt : blockRootsField.toNat < SszState.fieldCount fork := by cases fork <;> decide
    rw [SszState.stateLeaves, List.getD_eq_getElem?_getD, getElem_of_mapM h (hround _ hlt)]
    rfl
  · have hlt : stateRootsField.toNat < SszState.fieldCount fork := by cases fork <;> decide
    rw [SszState.stateLeaves, List.getD_eq_getElem?_getD, getElem_of_mapM h (hround _ hlt)]
    rfl

section Parsed

variable {config : StateConfig} {raw : List UInt8} {fork : SszState.ConsensusFork}
  {known : Option P.Bytes32} {slot : UInt64} {proof : SszState.BoundaryProof P}

theorem parseBoundaryProof_eq_ok
    (h : SszState.parseBoundaryProof config raw known slot = .ok proof) :
    48 ≤ raw.length ∧ RecordsSlot (SszState.slotOf raw) slot ∧
      (SszState.fieldFixedSizes (config.forkAtSlot (SszState.slotOf raw))).sum ≤ raw.length ∧
      ∃ htrs, SszState.boundaryHtrs config raw (config.forkAtSlot (SszState.slotOf raw)) known =
          some htrs ∧
        SszState.boundaryProofOf raw (slot % slotsPerHistoricalRoot).toNat htrs = proof := by
  by_cases hlength : 48 ≤ raw.length
  · by_cases hrecords : RecordsSlot (SszState.slotOf raw) slot
    · rw [SszState.parseBoundaryProof_eq known hlength hrecords, SszState.parseFieldRanges_eq] at h
      split at h
      · next hsize =>
          rw [ok_bind, ofPanics_eq_ok, Option.map_eq_some_iff] at h
          exact ⟨hlength, hrecords, hsize, h⟩
      · cases h
    · rw [SszState.parseBoundaryProof, SszState.extractSlot_eq, if_pos hlength, ofPanics_some_bind,
        ensure_bind_of_neg hrecords] at h
      cases h
  · rw [SszState.parseBoundaryProof, SszState.extractSlot_eq, if_neg hlength] at h
    cases h

/-- **What is parsed opens the state it was parsed from**, at the slot. -/
theorem parseBoundaryProof_opens
    (h : SszState.parseBoundaryProof config raw known slot = .ok proof) : Opens proof slot := by
  obtain ⟨-, -, -, htrs, hhtrs, rfl⟩ := parseBoundaryProof_eq_ok h
  obtain ⟨hblocks, hstates⟩ := boundaryHtrs_rings hhtrs
  have hopens := opens_of_leaves hblocks hstates slot
  rw [← slotsPerHistoricalRoot_toNat, ← UInt64.toNat_mod] at hopens
  exact hopens

/-- The registry's root a boundary proof goes by: the one handed in, or the bytes' own. -/
def registryRoot? (raw : List UInt8) (fork : SszState.ConsensusFork) (known : Option P.Bytes32) :
    Option P.Bytes32 :=
  known <|> (SszState.registryHtr raw
    ((SszState.fieldRanges raw fork).getD beaconStateValidatorsFieldIndex (0, 0))).map Prod.fst

/-- Its leaves are those every other entry point hashes under that root. -/
theorem boundaryHtrs_eq (hsize : (SszState.fieldFixedSizes fork).sum ≤ raw.length)
    {htrs : List P.Bytes32} (h : SszState.boundaryHtrs config raw fork known = some htrs) :
    ∃ validatorsHtr, registryRoot? raw fork known = some validatorsHtr ∧
      SszState.fieldHtrs config raw (SszState.fieldRanges raw fork) (SszState.fieldCount fork)
        (SszState.registryKnown validatorsHtr) = some htrs := by
  have hregistry : htrs[beaconStateValidatorsFieldIndex]? = registryRoot? raw fork known :=
    getElem_of_mapM h (List.getElem?_range
      (SszState.variableFieldIndices_lt fork _ (by decide)))
  have hlength : beaconStateValidatorsFieldIndex < htrs.length := by
    rw [length_of_mapM h, List.length_range]
    exact SszState.variableFieldIndices_lt fork _ (by decide)
  obtain ⟨validatorsHtr, hvalidators⟩ : ∃ v, registryRoot? raw fork known = some v :=
    ⟨_, hregistry.symm.trans (List.getElem?_eq_getElem hlength)⟩
  refine ⟨validatorsHtr, hvalidators, (mapM_congr fun i _ => ?_).trans h⟩
  have hzero : (0 : ℕ) < 2 ^ ringDepth := Nat.two_pow_pos _
  by_cases hblocks : i = blockRootsField.toNat
  · subst hblocks
    exact (SszState.ring_opens config hsize (Or.inl rfl) hzero).2.2
  · by_cases hstates : i = stateRootsField.toNat
    · subst hstates
      exact (SszState.ring_opens config hsize (Or.inr rfl) hzero).2.2
    · rw [SszState.boundaryKnown, if_neg hblocks, if_neg hstates]
      by_cases hregistry : i = beaconStateValidatorsFieldIndex
      · rw [if_pos hregistry]
        subst hregistry
        exact hvalidators.symm
      · rw [if_neg hregistry, SszState.registryKnown, if_neg hregistry]

/-- **The root a boundary is opened from is the root of the state**, as the other entry points
compute it. -/
theorem parseBoundaryProof_stateRoot
    (h : SszState.parseBoundaryProof config raw known slot = .ok proof) :
    (∀ validatorsHtr, known = some validatorsHtr →
      ∃ siblings, SszState.parseStateProof config raw validatorsHtr (SszState.slotOf raw) =
        .ok (proof.stateRoot, siblings)) ∧
    (known = none →
      ∃ numValidators, SszState.computeStateRoot config raw =
        .ok (proof.stateRoot, numValidators)) := by
  obtain ⟨hlength, -, hsize, htrs, hhtrs, rfl⟩ := parseBoundaryProof_eq_ok h
  obtain ⟨validatorsHtr, hregistry, hfields⟩ := boundaryHtrs_eq hsize hhtrs
  constructor
  · rintro v rfl
    obtain rfl : v = validatorsHtr := Option.some_inj.mp hregistry
    refine ⟨siblingPath P.sha256Pair stateDepth (SszState.stateLeaves htrs)
      beaconStateValidatorsFieldIndex, ?_⟩
    rw [SszState.parseStateProof_eq _ hsize, hfields, Option.map_some, ofPanics_some,
      buildStateTreeAndExtract_eq _ (by decide)]
    rfl
  · rintro rfl
    obtain ⟨numValidators, hvalidators⟩ : ∃ n, SszState.registryHtr raw
        ((SszState.fieldRanges raw (config.forkAtSlot (SszState.slotOf raw))).getD
          beaconStateValidatorsFieldIndex (0, 0)) = some (validatorsHtr, n) := by
      unfold registryRoot? at hregistry
      generalize SszState.registryHtr (P := P) raw _ = registry at hregistry ⊢
      simpa using hregistry
    refine ⟨UInt64.ofNat numValidators, ?_⟩
    rw [SszState.computeStateRoot_eq hlength hsize, hvalidators, Option.bind_some, hfields,
      Option.map_some, ofPanics_some, buildStateTreeAndExtract_root]
    rfl

/-- A state that is well formed and in the window is one that boundaries are parsed from. -/
theorem parseBoundaryProof_isOk (config : StateConfig) (known : Option P.Bytes32)
    (hsize : (SszState.fieldFixedSizes (config.forkAtSlot (SszState.slotOf raw))).sum ≤ raw.length)
    (horder : SszState.OffsetsInOrder raw) (hfits : SszState.FieldsFit config raw known.isNone)
    (hrecords : RecordsSlot (SszState.slotOf raw) slot) :
    ∃ proof, SszState.parseBoundaryProof config raw known slot = .ok proof := by
  have hlength : 48 ≤ raw.length := by
    refine le_trans ?_ hsize
    cases config.forkAtSlot (SszState.slotOf raw) <;> decide
  have hsome : (SszState.boundaryHtrs config raw (config.forkAtSlot (SszState.slotOf raw))
      known).isSome :=
    (SszState.fieldHtrs_isSome_of_boundary known _ _ hsize horder).mpr hfits
  obtain ⟨htrs, hhtrs⟩ := Option.isSome_iff_exists.mp hsome
  refine ⟨SszState.boundaryProofOf raw (slot % slotsPerHistoricalRoot).toNat htrs, ?_⟩
  rw [SszState.parseBoundaryProof_eq known hlength hrecords, SszState.parseFieldRanges_eq,
    if_pos hsize, ok_bind, hhtrs]
  rfl

end Parsed

/-! ## What is built -/

section Build

variable {api : Node P} {config : StateConfig} {justifiedRoot : P.Bytes32}
  {finalizedEpoch : UInt64} {finalizedRoot boundaryStateRoot : P.Bytes32} {current : EpochState P}
  {anchor : BoundaryAnchor P}

/-- Either branch hands on a proof that opens. -/
theorem boundaryProof_opens {justifiedHeader : BlockHeaderFields P}
    {served : Option (List UInt8)} {boundarySlot : UInt64} {proof : SszState.BoundaryProof P}
    (h : boundaryProof config justifiedHeader served boundarySlot finalizedRoot boundaryStateRoot
      current = .ok proof) : Opens proof boundarySlot := by
  cases served with
  | some raw => exact parseBoundaryProof_opens h
  | none =>
      simp only [boundaryProof, Guest.bind_eq_ok, ensure_eq_ok, Guest.pure_eq_ok,
        exists_const] at h
      obtain ⟨-, rfl⟩ := h
      exact makeBoundaryProof_opens _ _ _

/-- **What an anchor is accepted by**: every opening in it checks out, so it is accepted exactly
if the header that was fetched is the one asked for, and its slot in the window. -/
theorem build_accepted (h : build api config justifiedRoot finalizedEpoch finalizedRoot
      boundaryStateRoot current = .ok anchor) :
    ∃ header, api.getHeader justifiedRoot = .ok header ∧ anchor.justifiedHeader = header ∧
      (openBoundary anchor finalizedEpoch finalizedRoot justifiedRoot boundaryStateRoot
          config.slotsPerEpoch = .ok () ↔
        blockHeaderRoot P header = justifiedRoot ∧
          RecordsSlot header.slot (finalizedEpoch * config.slotsPerEpoch)) := by
  simp only [build, Guest.bind_eq_ok, ofResult_eq_ok, ensure_eq_ok, Guest.pure_eq_ok,
    Guest.mapError_eq_ok, exists_const] at h
  obtain ⟨header, hheader, served, -, proof, hproof, hroot, rfl, rfl, rfl⟩ := h
  exact ⟨header, hheader, rfl,
    (boundaryProof_opens hproof).accepted_iff hroot.symm justifiedRoot⟩

/-- Where the node serves no state, the synthetic one of a header that carries its root is
anchored on. -/
theorem build_synthetic {header : BlockHeaderFields P}
    (hheader : api.getHeader justifiedRoot = .ok header)
    (hserves : ∀ id, api.getStateSsz id = .ok none)
    (hroot : (makeBoundaryProof current.sszDataRoot current.numValidators
      ⟨finalizedEpoch * config.slotsPerEpoch, finalizedRoot, boundaryStateRoot⟩).stateRoot =
        header.stateRoot) :
    ∃ anchor, build api config justifiedRoot finalizedEpoch finalizedRoot boundaryStateRoot current =
      .ok anchor := by
  refine ⟨⟨header, (makeBoundaryProof current.sszDataRoot current.numValidators
    ⟨finalizedEpoch * config.slotsPerEpoch, finalizedRoot, boundaryStateRoot⟩).blockRootsSiblings,
    (makeBoundaryProof current.sszDataRoot current.numValidators
    ⟨finalizedEpoch * config.slotsPerEpoch, finalizedRoot, boundaryStateRoot⟩).stateRootsSiblings⟩, ?_⟩
  simp only [build, Guest.bind_eq_ok, ofResult_eq_ok, ensure_eq_ok, Guest.pure_eq_ok,
    Guest.mapError_eq_ok, exists_const]
  refine ⟨header, hheader, none, ⟨none, hserves _, hserves _⟩,
    makeBoundaryProof current.sszDataRoot current.numValidators
      ⟨finalizedEpoch * config.slotsPerEpoch, finalizedRoot, boundaryStateRoot⟩, ?_, hroot, rfl,
    rfl, rfl⟩
  rw [boundaryProof, ensure_bind_of_pos hroot]
  rfl

end Build

/-- **Boundary proofs are accepted.** A state in order is parsed for every slot of its window;
what is parsed has the state's root and the entries of its rings, and is accepted under a header
that carries both its root and its slot; a synthetic state is accepted for the slot it records.
What is built is accepted exactly if the header the node answered with hashes to the root it was
asked for, and its slot is in the window. -/
theorem boundary_accepted_iff (P : Primitives) (config : StateConfig) :
    (∀ raw (known : Option P.Bytes32) slot,
      (SszState.fieldFixedSizes (config.forkAtSlot (SszState.slotOf raw))).sum ≤ raw.length →
      SszState.OffsetsInOrder raw → SszState.FieldsFit config raw known.isNone →
      RecordsSlot (SszState.slotOf raw) slot →
      ∃ proof, SszState.parseBoundaryProof config raw known slot = .ok proof) ∧
    (∀ raw (known : Option P.Bytes32) slot proof,
      SszState.parseBoundaryProof config raw known slot = .ok proof →
      RecordsSlot (SszState.slotOf raw) slot ∧
        (∀ validatorsHtr, known = some validatorsHtr →
          ∃ siblings, SszState.parseStateProof config raw validatorsHtr (SszState.slotOf raw) =
            .ok (proof.stateRoot, siblings)) ∧
        (known = none → ∃ numValidators, SszState.computeStateRoot config raw =
          .ok (proof.stateRoot, numValidators)) ∧
        proof.blockRoot = SszState.ringRoots P raw 5 (slot.toNat % 8192) ∧
        proof.boundaryStateRoot = SszState.ringRoots P raw 6 (slot.toNat % 8192) ∧
        ∀ (header : BlockHeaderFields P) finalizedEpoch slotsPerEpoch,
          finalizedEpoch * slotsPerEpoch = slot → header.stateRoot = proof.stateRoot →
          header.slot = SszState.slotOf raw →
          openBoundary ⟨header, proof.blockRootsSiblings, proof.stateRootsSiblings⟩ finalizedEpoch
            proof.blockRoot (blockHeaderRoot P header) proof.boundaryStateRoot slotsPerEpoch =
              .ok ()) ∧
    (∀ dataTreeRoot listLength (history : SlotHistory P) (header : BlockHeaderFields P)
        finalizedEpoch slotsPerEpoch, finalizedEpoch * slotsPerEpoch = history.slot →
      header.stateRoot = (makeBoundaryProof dataTreeRoot listLength history).stateRoot →
      RecordsSlot header.slot history.slot →
      (makeBoundaryProof dataTreeRoot listLength history).blockRoot = history.blockRoot ∧
        (makeBoundaryProof dataTreeRoot listLength history).boundaryStateRoot =
          history.stateRoot ∧
        openBoundary ⟨header, (makeBoundaryProof dataTreeRoot listLength history).blockRootsSiblings,
          (makeBoundaryProof dataTreeRoot listLength history).stateRootsSiblings⟩ finalizedEpoch
          history.blockRoot (blockHeaderRoot P header) history.stateRoot slotsPerEpoch = .ok ()) ∧
    ∀ (api : Node P) justifiedRoot finalizedEpoch finalizedRoot boundaryStateRoot
      (current : EpochState P) anchor,
      build api config justifiedRoot finalizedEpoch finalizedRoot boundaryStateRoot current =
        .ok anchor →
      ∃ header, api.getHeader justifiedRoot = .ok header ∧ anchor.justifiedHeader = header ∧
        (openBoundary anchor finalizedEpoch finalizedRoot justifiedRoot boundaryStateRoot
            config.slotsPerEpoch = .ok () ↔
          blockHeaderRoot P header = justifiedRoot ∧
            RecordsSlot header.slot (finalizedEpoch * config.slotsPerEpoch)) := by
  refine ⟨fun raw known slot => parseBoundaryProof_isOk config known, ?_, ?_,
    fun _ _ _ _ _ _ _ => build_accepted⟩
  · intro raw known slot proof h
    have hring : (slot % slotsPerHistoricalRoot).toNat = slot.toNat % 8192 := by
      rw [UInt64.toNat_mod]
      rfl
    obtain ⟨hknown, hnone⟩ := parseBoundaryProof_stateRoot h
    obtain ⟨-, hrecords, -, htrs, -, heq⟩ := parseBoundaryProof_eq_ok h
    refine ⟨hrecords, hknown, hnone, ?_, ?_, ?_⟩
    · rw [← heq, ← hring]
      rfl
    · rw [← heq, ← hring]
      rfl
    · rintro header finalizedEpoch slotsPerEpoch rfl hroot hslot
      -- the branches open into the state root, so only the header and the window are left to check
      rw [(parseBoundaryProof_opens h).accepted_iff hroot, hslot]
      exact ⟨rfl, hrecords⟩
  · intro dataTreeRoot listLength history header finalizedEpoch slotsPerEpoch hslot hroot hrecords
    have hopens := makeBoundaryProof_opens dataTreeRoot listLength history
    rw [← hslot] at hopens hrecords
    exact ⟨rfl, rfl, (hopens.accepted_iff hroot _).mpr ⟨rfl, hrecords⟩⟩

/-! ### A fixture chain

A node that serves no state, and a header that carries the root of the synthetic one, at a slot
of one's own. -/

end Boundary

namespace Formal

def fixtureState : EpochState (formal {}) :=
  ⟨0, (formal {}).zeroChunk, [], [], (formal {}).zeroChunk, 0⟩

def fixtureHeader (slot : UInt64) : BlockHeaderFields (formal {}) :=
  ⟨slot, 3, (formal {}).zeroChunk, (Boundary.makeBoundaryProof fixtureState.sszDataRoot
    fixtureState.numValidators ⟨96, (formal {}).chunk 1, (formal {}).chunk 2⟩).stateRoot,
    (formal {}).zeroChunk⟩

def fixtureNode (slot : UInt64) : Boundary.Node (formal {}) :=
  ⟨fun _ => .ok (fixtureHeader slot), fun _ => .ok none⟩

/-- It is built on, whatever the slot of its header and whatever the root it was asked for. -/
theorem fixture_builds (slot : UInt64) (justifiedRoot : (formal {}).Bytes32) :
    ∃ anchor, Boundary.build (fixtureNode slot) ⟨32, 0⟩ justifiedRoot 3 ((formal {}).chunk 1)
      ((formal {}).chunk 2) fixtureState = .ok anchor :=
  Boundary.build_synthetic rfl (fun _ => rfl) rfl

end Formal

namespace Boundary

open Formal

/-- One slot after the boundary the anchor is accepted. -/
theorem boundary_accepted_fixture :
    ∃ anchor, build (fixtureNode 97) ⟨32, 0⟩ (blockHeaderRoot _ (fixtureHeader 97)) 3
        ((formal {}).chunk 1) ((formal {}).chunk 2) fixtureState = .ok anchor ∧
      openBoundary anchor 3 ((formal {}).chunk 1) (blockHeaderRoot _ (fixtureHeader 97))
        ((formal {}).chunk 2) 32 = .ok () := by
  obtain ⟨anchor, hbuild⟩ := fixture_builds 97 (blockHeaderRoot _ (fixtureHeader 97))
  obtain ⟨-, -, -, hbuilt⟩ := boundary_accepted_iff (formal {}) ⟨32, 0⟩
  obtain ⟨header, hheader, -, haccepted⟩ := hbuilt _ _ _ _ _ _ _ hbuild
  obtain rfl : fixtureHeader 97 = header := Except.ok.inj hheader
  exact ⟨anchor, hbuild, haccepted.mpr ⟨rfl, by decide⟩⟩

/-- Before the boundary it is built and not accepted; and so it is where the node answers with
another header than it was asked for. -/
theorem boundary_not_accepted :
    (∃ anchor, build (fixtureNode 10) ⟨32, 0⟩ (blockHeaderRoot _ (fixtureHeader 10)) 3
        ((formal {}).chunk 1) ((formal {}).chunk 2) fixtureState = .ok anchor ∧
      openBoundary anchor 3 ((formal {}).chunk 1) (blockHeaderRoot _ (fixtureHeader 10))
        ((formal {}).chunk 2) 32 ≠ .ok ()) ∧
    ∃ anchor, build (fixtureNode 97) ⟨32, 0⟩ (formal {}).zeroChunk 3
        ((formal {}).chunk 1) ((formal {}).chunk 2) fixtureState = .ok anchor ∧
      openBoundary anchor 3 ((formal {}).chunk 1) (formal {}).zeroChunk
        ((formal {}).chunk 2) 32 ≠ .ok () := by
  constructor
  · obtain ⟨anchor, hbuild⟩ := fixture_builds 10 (blockHeaderRoot _ (fixtureHeader 10))
    obtain ⟨header, hheader, -, haccepted⟩ := build_accepted hbuild
    obtain rfl : fixtureHeader 10 = header := Except.ok.inj hheader
    exact ⟨anchor, hbuild, fun h => absurd (haccepted.mp h).2 (by decide)⟩
  · obtain ⟨anchor, hbuild⟩ := fixture_builds 97 (formal {}).zeroChunk
    obtain ⟨header, hheader, -, haccepted⟩ := build_accepted hbuild
    exact ⟨anchor, hbuild, fun h =>
      (formal_collisionFree {}).sha256Pair_ne_zero _ _ (haccepted.mp h).1⟩

end Boundary

end Zkasper
