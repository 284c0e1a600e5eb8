import Zkasper.WitnessGen.BoundaryBuild
import Zkasper.WitnessGen.StateHashing

/-! # Reading a state back

The rest of `ssz_state.rs` reads values rather than roots: the registry, the header, the fork's
version and the chain's genesis root, each at the place the layout gives it. Of the bytes of a
well-formed state they are the state's own, validator by validator (`reads_back`).

What a boundary proof reads is what the state records: opened under a header of the state, it
is accepted for the two entries of the slot and for no others (`boundary_of_state`). -/

namespace Zkasper

open Merkle PerfectTree Ssz Panics

namespace SszState

/-! ## What is read -/

/-- `raw[start..start + n]`, into an array. -/
def bytesAt (n : ℕ) (raw : List UInt8) (start : ℕ) : Option (Bytes n) :=
  match h : slice raw start (start + n) with
  | none => none
  | some bytes => some ⟨bytes, by rw [length_of_slice h, Nat.add_sub_cancel_left]⟩

/-- Eight bytes, as an integer. -/
def u64At (raw : List UInt8) (start : ℕ) : Option UInt64 := do
  return UInt64.ofNat (fromLeBytes (← slice raw start (start + 8)))

/-- One validator of the registry, and its index. -/
def validatorAt (data : List UInt8) (i : ℕ) : Option (UInt64 × ValidatorResponse) := do
  let v ← slice data (i * sszValidatorSize) (i * sszValidatorSize + sszValidatorSize)
  let slashed : UInt8 ← v[88]?
  return (UInt64.ofNat i, {
    pubkey := ← bytesAt 48 v 0
    withdrawalCredentials := ← bytesAt 32 v 48
    effectiveBalance := ← u64At v 80
    slashed := slashed != 0
    activationEligibilityEpoch := ← u64At v 89
    activationEpoch := ← u64At v 97
    exitEpoch := ← u64At v 105
    withdrawableEpoch := ← u64At v 113 })

/-- Extract validators from a raw state. -/
def extractValidators (config : StateConfig) (raw : List UInt8) :
    Outcome String (List (UInt64 × ValidatorResponse)) := do
  let slot ← ofPanics (extractSlot raw)
  let ranges ← parseFieldRanges raw (config.forkAtSlot slot)
  ofPanics do
    let range := ranges.getD 11 (0, 0)
    let data ← slice raw range.1 range.2
    (List.range (data.length / sszValidatorSize)).mapM (validatorAt data)

/-- A header as the node answers with it. -/
structure HeaderResponse where
  slot : UInt64
  proposerIndex : UInt64
  stateRoot : Bytes 32
  parentRoot : Bytes 32
  bodyRoot : Bytes 32

/-- Extract the header of a raw state, under the state's own slot; the caller has to set the state
root. -/
def extractHeader (config : StateConfig) (raw : List UInt8) : Outcome String HeaderResponse := do
  let slot ← ofPanics (extractSlot raw)
  let ranges ← parseFieldRanges raw (config.forkAtSlot slot)
  ofPanics do
    let slotStart := (ranges.getD 2 (0, 0)).1
    let headerStart := (ranges.getD 4 (0, 0)).1
    return {
      slot := ← u64At raw slotStart
      proposerIndex := ← u64At raw (headerStart + 8)
      stateRoot := zeroBytes 32
      parentRoot := ← bytesAt 32 raw (headerStart + 16)
      bodyRoot := ← bytesAt 32 raw (headerStart + 80) }

/-- Extract `genesis_validators_root`, always at offset 8. -/
def extractGenesisValidatorsRoot (raw : List UInt8) : Option (Bytes 32) := bytesAt 32 raw 8

/-- Extract `fork.current_version`, always at offset 52. -/
def extractForkVersion (raw : List UInt8) : Option (Bytes 4) := bytesAt 4 raw 52

/-! ## Reading what was written -/

section Reads

variable {data bytes : List UInt8} {n start stop : ℕ}

theorem bytesAt_eq {a : Bytes n} (h : slice data start stop = some a.val)
    (hstop : start + n = stop) : bytesAt n data start = some a := by
  subst hstop
  unfold bytesAt
  split
  · next hnone =>
      rw [h] at hnone
      cases hnone
  · next read hread =>
      rw [h] at hread
      exact congrArg some (Subtype.ext (Option.some_inj.mp hread).symm)

theorem u64At_eq {v : UInt64} (h : slice data start stop = some (leBytes 8 v.toNat))
    (hstop : start + 8 = stop) : u64At data start = some v := by
  subst hstop
  rw [u64At, h]
  show some (UInt64.ofNat (fromLeBytes (leBytes 8 v.toNat))) = some v
  rw [fromLeBytes_leBytes v.toNat_lt, UInt64.ofNat_toNat]

/-- A slice of one byte is that byte. -/
theorem getElem?_of_slice {b : UInt8} (h : slice data start (start + 1) = some [b]) :
    data[start]? = some b := by
  obtain ⟨⟨-, hstop⟩, hbytes⟩ := slice_eq_some.mp h
  have hget := congrArg (·[0]?) hbytes
  rw [List.getElem?_drop, List.getElem?_take_of_lt (show start + 0 < start + 1 by omega)] at hget
  exact hget

/-- Part of a slice. -/
theorem slice_inner {outer inner : List UInt8} (h : slice data start stop = some outer)
    {first last : ℕ} (hinner : slice outer first last = some inner) :
    slice data (start + first) (start + last) = some inner := by
  obtain ⟨⟨hle, hlast⟩, -⟩ := slice_eq_some.mp hinner
  rwa [slice_slice h hle hlast] at hinner

end Reads

open SimpleSerialize Codec

variable {P : Primitives} {config : StateConfig} {fork : ConsensusFork} {i : ℕ}
  {s : ForkedState fork} {raw : List UInt8}

/-- A validator is read as it was written. -/
theorem validatorAt_eq {validators : Bounded ValidatorResponse (2 ^ 40)} {v : ValidatorResponse}
    (hv : validators.val[i]? = some v) :
    validatorAt ((validatorsCodec (hasher P)).serialize validators) i =
      some (UInt64.ofNat i, v) := by
  have hsize : (validatorCodec (hasher P)).size = some sszValidatorSize := rfl
  have hslice := slice_elements hsize hv []
  rw [List.append_nil, ← list_serialize hsize] at hslice
  obtain ⟨hpubkey, hcredentials, hbalance, hslashed, heligibility, hactivation, hexit,
    hwithdrawable⟩ := validator_slices (P := P) v
  simp only [of_serialize, bytes_serialize] at hpubkey hcredentials
  have hpubkey : bytesAt 48 ((validatorCodec (hasher P)).serialize v) 0 = some v.pubkey :=
    bytesAt_eq hpubkey rfl
  have hcredentials : bytesAt 32 ((validatorCodec (hasher P)).serialize v) 48 =
      some v.withdrawalCredentials := bytesAt_eq hcredentials rfl
  have hslashed : ((validatorCodec (hasher P)).serialize v)[88]? =
      some (UInt8.ofNat v.slashed.toNat) := getElem?_of_slice hslashed
  have hbool : (UInt8.ofNat v.slashed.toNat != 0) = v.slashed := by
    cases v.slashed <;> rfl
  rw [validatorAt, validatorsCodec, hslice]
  simp only [Option.bind_eq_bind, Option.bind_some, hpubkey, hcredentials, u64At_eq hbalance rfl,
    u64At_eq heligibility rfl, u64At_eq hactivation rfl, u64At_eq hexit rfl,
    u64At_eq hwithdrawable rfl, hslashed, hbool]
  rfl

/-- All of them are, in their order. -/
theorem validators_read (validators : Bounded ValidatorResponse (2 ^ 40)) :
    (List.range validators.val.length).mapM
        (validatorAt ((validatorsCodec (hasher P)).serialize validators)) =
      some (validators.val.zipIdx.map fun v => (UInt64.ofNat v.2, v.1)) := by
  have hsome : ((List.range validators.val.length).mapM
      (validatorAt ((validatorsCodec (hasher P)).serialize validators))).isSome := by
    rw [mapM_isSome]
    intro i hi
    rw [validatorAt_eq (List.getElem?_eq_getElem (List.mem_range.mp hi))]
    rfl
  obtain ⟨read, hread⟩ := Option.isSome_iff_exists.mp hsome
  rw [hread]
  apply congrArg some
  apply List.ext_getElem?
  intro i
  rw [List.getElem?_map, List.getElem?_zipIdx, Nat.zero_add]
  rcases lt_or_ge i validators.val.length with hi | hi
  · rw [getElem_of_mapM hread (List.getElem?_range hi),
      validatorAt_eq (List.getElem?_eq_getElem hi), List.getElem?_eq_getElem hi]
    rfl
  · rw [List.getElem?_eq_none (by rw [length_of_mapM hread, List.length_range]; exact hi),
      List.getElem?_eq_none hi]
    rfl

namespace Encodes

/-- A field of one length is at the place the table gives it. -/
theorem slice_place (h : Encodes P s raw) {field : Codec P.Bytes32 (ForkedState fork)}
    (hfield : (stateFields (hasher P) fork)[i]? = some field) (hi : i ∉ variableFieldIndices) :
    slice raw (fieldStart fork i) (fieldStart fork i + (fieldFixedSizes fork).getD i 0) =
      some (field.serialize s) := by
  have hcount : i < fieldCount fork := by
    rw [← length_stateFields P]
    exact (List.getElem?_eq_some_iff.mp hfield).1
  have hslice := h.slice_field hfield
  rwa [fieldRanges_of_fixed raw hcount hi] at hslice

/-- A piece of such a field. -/
theorem slice_within (h : Encodes P s raw) {field : Codec P.Bytes32 (ForkedState fork)}
    (hfield : (stateFields (hasher P) fork)[i]? = some field) (hi : i ∉ variableFieldIndices)
    {first last : ℕ} {inner : List UInt8}
    (hinner : slice (field.serialize s) first last = some inner) :
    slice raw (fieldStart fork i + first) (fieldStart fork i + last) = some inner :=
  slice_inner (h.slice_place hfield hi) hinner

/-- The slot says which table it is. -/
theorem extractSlot_eq_some (h : Encodes P s raw) : extractSlot raw = some s.electra.slot := by
  obtain ⟨hlength, hslot⟩ := h.slot_eq
  rw [extractSlot_eq, if_pos hlength, hslot]

theorem extractValidators_eq (h : Encodes P s raw)
    (hfork : config.forkAtSlot s.electra.slot = fork) :
    extractValidators config raw =
      .ok (s.validators.val.zipIdx.map fun v => (UInt64.ofNat v.2, v.1)) := by
  have hslice : slice raw ((fieldRanges raw fork).getD 11 (0, 0)).1
      ((fieldRanges raw fork).getD 11 (0, 0)).2 = _ := h.slice_field (registry_field P fork)
  rw [extractValidators, h.extractSlot_eq_some, ofPanics_some_bind, hfork,
    h.parseFieldRanges_eq_ok, ok_bind]
  show ofPanics (slice raw _ _ >>= fun data =>
    (List.range (data.length / sszValidatorSize)).mapM (validatorAt data)) = _
  rw [hslice, of_serialize, Option.bind_eq_bind, Option.bind_some, count_validators,
    validators_read]
  rfl

/-- The block header of a state. -/
theorem header_field (P : Primitives) (fork : ConsensusFork) :
    (stateFields (hasher P) fork)[4]? =
      some ((beaconBlockHeaderCodec (hasher P)).of fun s => s.electra.latestBlockHeader) := by
  cases fork <;> rfl

/-- Where the parts of a header are. -/
theorem header_slices (header : BeaconBlockHeader) :
    let written := (beaconBlockHeaderCodec (hasher P)).serialize header
    slice written 8 16 = some (leBytes 8 header.proposerIndex.toNat) ∧
      slice written 16 48 = some header.parentRoot.val ∧
      slice written 80 112 = some header.bodyRoot.val := by
  have hproposer : slice ((beaconBlockHeaderCodec (hasher P)).serialize header) 8 16 = some _ :=
    slice_fixed (i := 1) header rfl rfl rfl rfl
  have hparent : slice ((beaconBlockHeaderCodec (hasher P)).serialize header) 16 48 = some _ :=
    slice_fixed (i := 2) header rfl rfl rfl rfl
  have hbody : slice ((beaconBlockHeaderCodec (hasher P)).serialize header) 80 112 = some _ :=
    slice_fixed (i := 4) header rfl rfl rfl rfl
  simp only [of_serialize, bytes_serialize] at hproposer hparent hbody
  exact ⟨hproposer, hparent, hbody⟩

theorem extractHeader_eq (h : Encodes P s raw) (hfork : config.forkAtSlot s.electra.slot = fork) :
    extractHeader config raw = .ok {
      slot := s.electra.slot
      proposerIndex := s.electra.latestBlockHeader.proposerIndex
      stateRoot := zeroBytes 32
      parentRoot := s.electra.latestBlockHeader.parentRoot
      bodyRoot := s.electra.latestBlockHeader.bodyRoot } := by
  have hcount : 4 < fieldCount fork := by
    cases fork <;> decide
  have hfixed : 4 ∉ variableFieldIndices := by decide
  have hslot : u64At raw (fieldStart fork 2) = some s.electra.slot :=
    u64At_eq (h.slice_place (slot_field P fork) (by decide)) (by cases fork <;> rfl)
  obtain ⟨hproposer, hparent, hbody⟩ := header_slices (P := P) s.electra.latestBlockHeader
  have hproposer : u64At raw (fieldStart fork 4 + 8) =
      some s.electra.latestBlockHeader.proposerIndex :=
    u64At_eq (h.slice_within (header_field P fork) hfixed hproposer) (Nat.add_assoc _ 8 8)
  have hparent : bytesAt 32 raw (fieldStart fork 4 + 16) =
      some s.electra.latestBlockHeader.parentRoot :=
    bytesAt_eq (h.slice_within (header_field P fork) hfixed hparent) (Nat.add_assoc _ 16 32)
  have hbody : bytesAt 32 raw (fieldStart fork 4 + 80) =
      some s.electra.latestBlockHeader.bodyRoot :=
    bytesAt_eq (h.slice_within (header_field P fork) hfixed hbody) (Nat.add_assoc _ 80 32)
  rw [extractHeader, h.extractSlot_eq_some, ofPanics_some_bind, hfork,
    h.parseFieldRanges_eq_ok, ok_bind]
  dsimp only
  rw [fieldRanges_of_fixed raw (show 2 < fieldCount fork by omega) (by decide),
    fieldRanges_of_fixed raw hcount hfixed]
  simp only [Option.bind_eq_bind, Option.bind_some, hslot, hproposer, hparent, hbody]
  rfl

theorem extractGenesisValidatorsRoot_eq (h : Encodes P s raw) :
    extractGenesisValidatorsRoot raw = some s.electra.genesisValidatorsRoot := by
  have hfield : (stateFields (hasher P) fork)[1]? =
      some ((bytes (hasher P) 32).of fun s => s.electra.genesisValidatorsRoot) := by
    cases fork <;> rfl
  have hslice := h.slice_place hfield (by decide)
  rw [of_serialize, bytes_serialize] at hslice
  have hread := bytesAt_eq hslice (by cases fork <;> rfl)
  cases fork <;> exact hread

theorem extractForkVersion_eq (h : Encodes P s raw) :
    extractForkVersion raw = some s.electra.fork.currentVersion := by
  have hfield : (stateFields (hasher P) fork)[3]? =
      some ((forkCodec (hasher P)).of fun s => s.electra.fork) := by
    cases fork <;> rfl
  have hversion : slice ((forkCodec (hasher P)).serialize s.electra.fork) 4 8 = some _ :=
    slice_fixed (i := 1) s.electra.fork rfl rfl rfl rfl
  rw [of_serialize, bytes_serialize] at hversion
  have hread := bytesAt_eq (h.slice_within hfield (by decide) hversion) (Nat.add_assoc _ 4 4)
  cases fork <;> exact hread

end Encodes

/-- **Reading back.** What is extracted from the bytes of a state is what the state holds: its
validators under their indices, the header of its latest block under its own slot, its fork's
version and its chain's genesis root. -/
theorem reads_back (h : Encodes P s raw) (hfork : config.forkAtSlot s.electra.slot = fork) :
    extractValidators config raw =
        .ok (s.validators.val.zipIdx.map fun v => (UInt64.ofNat v.2, v.1)) ∧
      extractHeader config raw = .ok {
        slot := s.electra.slot
        proposerIndex := s.electra.latestBlockHeader.proposerIndex
        stateRoot := zeroBytes 32
        parentRoot := s.electra.latestBlockHeader.parentRoot
        bodyRoot := s.electra.latestBlockHeader.bodyRoot } ∧
      extractForkVersion raw = some s.electra.fork.currentVersion ∧
      extractGenesisValidatorsRoot raw = some s.electra.genesisValidatorsRoot :=
  ⟨h.extractValidators_eq hfork, h.extractHeader_eq hfork, h.extractForkVersion_eq,
    h.extractGenesisValidatorsRoot_eq⟩

/-! ## The boundary of a state -/

/-- What a ring holds for a slot. -/
def entryAt (ring : Vec (Bytes 32) 8192) (slot : UInt64) : Bytes 32 :=
  ring.val.getD (slot % slotsPerHistoricalRoot).toNat (zeroBytes 32)

namespace Encodes

variable {slot : UInt64}

/-- An entry of a ring, where the bytes have it. -/
theorem ringRoots_eq (h : Encodes P s raw) {ring : ForkedState fork → Vec (Bytes 32) 8192}
    (hfield : (stateFields (hasher P) fork)[i]? =
      some ((vector (hasher P) (bytes (hasher P) 32) 8192).of ring))
    (hi : i ∉ variableFieldIndices) (hstart : fieldStart fork i = fieldStart .electra i) :
    ringRoots P raw i (slot % slotsPerHistoricalRoot).toNat = P.ofBytes (entryAt (ring s) slot) := by
  set k := (slot % slotsPerHistoricalRoot).toNat with hk
  have hlt : k < (ring s).val.length := by
    rw [(ring s).2, hk, UInt64.toNat_mod, slotsPerHistoricalRoot_toNat]
    exact Nat.mod_lt _ (Nat.two_pow_pos _)
  have hget := List.getElem?_eq_getElem hlt
  have hentry : entryAt (ring s) slot = (ring s).val[k] := by
    rw [entryAt, ← hk, List.getD_eq_getElem?_getD, hget]
    rfl
  have helement := slice_elements (show (bytes (hasher P) 32).size = some 32 from rfl) hget []
  rw [List.append_nil, ← serializeParts_of_some rfl, bytes_serialize] at helement
  obtain ⟨-, hbytes⟩ := slice_eq_some.mp (h.slice_within hfield hi helement)
  rw [hentry, ← bytes32_root, ← padToChunk_bytes (by decide) le_rfl, bytes_serialize, ← hbytes,
    hstart]
  rfl

theorem fieldsFit (h : Encodes P s raw) (hslots : config.slotsPerEpoch = 32) :
    FieldsFit config raw true := by
  rw [fieldsFit_true, ← registryHtr_isSome (P := P) h.offsetsInOrder fork, h.registryHtr_eq]
  refine ⟨rfl, ?_⟩
  rw [← fieldHtrs_isSome_of_registry _ h.sum_le_length h.offsetsInOrder, h.fieldHtrs_eq hslots]
  rfl

/-- The boundary proof of a state is of its root, and of its two entries for the slot. -/
theorem parseBoundaryProof_eq_ok (h : Encodes P s raw) (hslots : config.slotsPerEpoch = 32)
    (hfork : config.forkAtSlot s.electra.slot = fork) (hrecords : RecordsSlot s.electra.slot slot) :
    ∃ proof : BoundaryProof P, parseBoundaryProof config raw none slot = .ok proof ∧
      Boundary.Opens proof slot ∧ proof.stateRoot = (stateCodec (hasher P) fork).root s ∧
      proof.blockRoot = P.ofBytes (entryAt s.electra.blockRoots slot) ∧
      proof.boundaryStateRoot = P.ofBytes (entryAt s.electra.stateRoots slot) := by
  have hblocks : (stateFields (hasher P) fork)[blockRootsField.toNat]? =
      some ((vector (hasher P) (bytes (hasher P) 32) 8192).of fun s => s.electra.blockRoots) := by
    cases fork <;> rfl
  have hstates : (stateFields (hasher P) fork)[stateRootsField.toNat]? =
      some ((vector (hasher P) (bytes (hasher P) 32) 8192).of fun s => s.electra.stateRoots) := by
    cases fork <;> rfl
  obtain ⟨-, hslot⟩ := h.slot_eq
  have hsize : (fieldFixedSizes (config.forkAtSlot (slotOf raw))).sum ≤ raw.length := by
    rw [hslot, hfork]
    exact h.sum_le_length
  obtain ⟨proof, hproof⟩ := Boundary.parseBoundaryProof_isOk (P := P) config none hsize
    h.offsetsInOrder (h.fieldsFit hslots) (by rwa [hslot])
  obtain ⟨-, -, -, htrs, -, hentries⟩ := Boundary.parseBoundaryProof_eq_ok hproof
  obtain ⟨numValidators, hroot⟩ := (Boundary.parseBoundaryProof_stateRoot hproof).2 rfl
  rw [h.computeStateRoot_eq_ok hslots hfork] at hroot
  refine ⟨proof, hproof, Boundary.parseBoundaryProof_opens hproof, ?_, ?_, ?_⟩
  · exact (congrArg Prod.fst (Except.ok.inj hroot)).symm
  · rw [← hentries]
    exact h.ringRoots_eq hblocks (by decide) (by cases fork <;> rfl)
  · rw [← hentries]
    exact h.ringRoots_eq hstates (by decide) (by cases fork <;> rfl)

end Encodes

/-- What an accepted opening has opened: both entries are under the root of its header. -/
theorem histories_of_openBoundary {anchor : BoundaryAnchor P} {finalizedEpoch slotsPerEpoch : UInt64}
    {finalizedRoot justifiedRoot boundaryStateRoot : P.Bytes32}
    (h : openBoundary anchor finalizedEpoch finalizedRoot justifiedRoot boundaryStateRoot
      slotsPerEpoch = .ok ()) :
    History blockRootsField (finalizedEpoch * slotsPerEpoch) finalizedRoot
        anchor.justifiedHeader.stateRoot ∧
      History stateRootsField (finalizedEpoch * slotsPerEpoch) boundaryStateRoot
        anchor.justifiedHeader.stateRoot := by
  simp only [openBoundary, Guest.bind_eq_ok, Guest.assert_eq_ok, exists_const] at h
  obtain ⟨-, -, blockRoot, hblock, hblockRoot, stateRoot, hstate, hstateRoot⟩ := h
  subst hblockRoot
  exact ⟨⟨_, hblock⟩, _, hstateRoot ▸ hstate⟩

/-- **A boundary out of the bytes of a state.** The node serves a state that records the slot of a
boundary. What the host opens it by is accepted under a header with the state's slot and root, for
the two entries the state has for that slot and for nothing else. -/
theorem boundary_of_state (hsha : Function.Injective2 P.sha256Pair)
    (hslots : config.slotsPerEpoch = 32) (h : Encodes P s raw)
    (hfork : config.forkAtSlot s.electra.slot = fork) {finalizedEpoch slotsPerEpoch : UInt64}
    (hrecords : RecordsSlot s.electra.slot (finalizedEpoch * slotsPerEpoch))
    {header : BlockHeaderFields P} (hslot : header.slot = s.electra.slot)
    (hroot : header.stateRoot = (stateCodec (hasher P) fork).root s) :
    ∃ proof : BoundaryProof P,
      parseBoundaryProof config raw none (finalizedEpoch * slotsPerEpoch) = .ok proof ∧
        ∀ finalizedRoot boundaryStateRoot,
          openBoundary ⟨header, proof.blockRootsSiblings, proof.stateRootsSiblings⟩ finalizedEpoch
              finalizedRoot (blockHeaderRoot P header) boundaryStateRoot slotsPerEpoch = .ok () ↔
            finalizedRoot =
                P.ofBytes (entryAt s.electra.blockRoots (finalizedEpoch * slotsPerEpoch)) ∧
              boundaryStateRoot =
                P.ofBytes (entryAt s.electra.stateRoots (finalizedEpoch * slotsPerEpoch)) := by
  obtain ⟨proof, hproof, hopens, hstateRoot, hblock, hstate⟩ :=
    h.parseBoundaryProof_eq_ok hslots hfork hrecords
  have haccepted := (hopens.accepted_iff (hroot.trans hstateRoot.symm) _).mpr
    ⟨rfl, hslot ▸ hrecords⟩
  refine ⟨proof, hproof, fun finalizedRoot boundaryStateRoot => ⟨fun hother => ?_, ?_⟩⟩
  · -- one state root has one entry for a slot
    rw [← hblock, ← hstate]
    obtain ⟨hblocks, hstates⟩ := histories_of_openBoundary haccepted
    obtain ⟨hotherBlocks, hotherStates⟩ := histories_of_openBoundary hother
    exact ⟨hotherBlocks.unique_of_sha256 hsha hblocks,
      hotherStates.unique_of_sha256 hsha hstates⟩
  · rintro ⟨rfl, rfl⟩
    rwa [hblock, hstate] at haccepted

end SszState

namespace Formal

open SszState SimpleSerialize

theorem reads_back_lively :
    extractValidators beforeFulu livelyBytes = .ok [(0, validator 0 32), (1, validator 1 31)] ∧
      extractHeader beforeFulu livelyBytes =
        .ok ⟨40, 1, zeroBytes 32, root32 11, root32 13⟩ ∧
      extractForkVersion livelyBytes = some ⟨[5, 0, 0, 0], rfl⟩ ∧
      extractGenesisValidatorsRoot livelyBytes = some (root32 7) :=
  reads_back encodes_lively (by decide)

/-- A block with the root of the state of two validators. -/
def livelyHeader : BlockHeaderFields (formal {}) where
  slot := 40
  proposerIndex := 1
  parentRoot := (formal {}).ofBytes (root32 11)
  stateRoot := (stateCodec (hasher (formal {})) .electra).root livelyState
  bodyRoot := (formal {}).ofBytes (root32 14)

/-- Slot 32 has the 33rd entries of the rings, and no other slot has them. -/
theorem boundary_of_state_lively :
    ∃ proof : BoundaryProof (formal {}),
      parseBoundaryProof beforeFulu livelyBytes none (1 * 32) = .ok proof ∧
        ∀ finalizedRoot boundaryStateRoot,
          openBoundary ⟨livelyHeader, proof.blockRootsSiblings, proof.stateRootsSiblings⟩ 1
              finalizedRoot (blockHeaderRoot (formal {}) livelyHeader) boundaryStateRoot 32 =
                .ok () ↔
            finalizedRoot = (formal {}).ofBytes (root32 32) ∧
              boundaryStateRoot = (formal {}).ofBytes (root32 8224) := by
  have hentries : entryAt livelyState.blockRoots (1 * 32) = root32 32 ∧
      entryAt livelyState.stateRoots (1 * 32) = root32 8224 := by decide +kernel
  rw [← hentries.1, ← hentries.2]
  exact boundary_of_state (formal_collisionFree {}).sha256Pair rfl encodes_lively (by decide)
    (by decide) rfl rfl

end Formal

end Zkasper
