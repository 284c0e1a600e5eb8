import Zkasper.WitnessGen.FieldHashing

/-! # A state hashes to its root

What the host makes of the bytes of a well-formed state. The table it cuts them by is the
layout of the state's codec (`widths_state`): a field of one length is at its place, the offsets
in the places of the others are those of their tails, and they are in order. So the range of
every field holds what its codec writes, and the roots of the fields, and the root over them,
are those of the codec. -/

namespace Zkasper

open Merkle PerfectTree Ssz Panics

namespace SszState

open SimpleSerialize Codec

variable {P : Primitives} {config : StateConfig} {fork : ConsensusFork} {i : ℕ}
  {field : Codec P.Bytes32 (ForkedState fork)} {s : ForkedState fork} {raw : List UInt8}

/-! ## The layout -/

/-- Where the table has an offset, the field has no length of its own. -/
theorem sizes_state (P : Primitives) (fork : ConsensusFork) :
    sizes (stateFields (hasher P) fork) =
      (fieldFixedSizes fork).mapIdx fun i size =>
        if i ∈ variableFieldIndices then none else some size := by
  cases fork <;> rfl

/-- **The table is the layout of the codec.** -/
theorem widths_state (P : Primitives) (fork : ConsensusFork) :
    widths (stateFields (hasher P) fork) = fieldFixedSizes fork := by
  rw [widths, sizes_state]
  cases fork <;> rfl

theorem length_stateFields (P : Primitives) (fork : ConsensusFork) :
    (stateFields (hasher P) fork).length = fieldCount fork := by
  cases fork <;> rfl

theorem sizes_getElem?_ne (hi : i ∉ variableFieldIndices) :
    (sizes (stateFields (hasher P) fork))[i]? ≠ some none := by
  rw [sizes_state, List.getElem?_mapIdx]
  simp [hi]

theorem size_eq_none_iff (hfield : (stateFields (hasher P) fork)[i]? = some field) :
    field.size = none ↔ i ∈ variableFieldIndices := by
  have hsize : (sizes (stateFields (hasher P) fork))[i]? = some field.size := by
    rw [sizes, List.getElem?_map, hfield, Option.map_some]
  constructor
  · intro hnone
    by_contra hi
    rw [hnone] at hsize
    exact sizes_getElem?_ne hi hsize
  · intro hi
    rw [sizes_state, List.getElem?_mapIdx] at hsize
    obtain ⟨size, -, hsize⟩ := Option.map_eq_some_iff.mp hsize
    rw [← hsize, if_pos hi]

/-- A field of one length takes the room that the table gives it. -/
theorem size_eq_some (hfield : (stateFields (hasher P) fork)[i]? = some field)
    (hi : i ∉ variableFieldIndices) : field.size = some ((fieldFixedSizes fork).getD i 0) := by
  have hsize : (sizes (stateFields (hasher P) fork))[i]? = some field.size := by
    rw [sizes, List.getElem?_map, hfield, Option.map_some]
  rw [sizes_state, List.getElem?_mapIdx] at hsize
  obtain ⟨size, htable, hsize⟩ := Option.map_eq_some_iff.mp hsize
  rw [← hsize, if_neg hi, List.getD_eq_getElem?_getD, htable]
  rfl

/-! ## The bytes of a state -/

/-- Where the tail of a field stands. -/
def offsetOf (P : Primitives) (s : ForkedState fork) (i : ℕ) : ℕ :=
  tailStart (parts (stateFields (hasher P) fork) s) i

/-- `raw` is what a state is written as, no longer than its offsets reach. -/
def Encodes (P : Primitives) (s : ForkedState fork) (raw : List UInt8) : Prop :=
  (stateCodec (hasher P) fork).encode s = some raw

namespace Encodes

theorem serialize_eq (h : Encodes P s raw) : (stateCodec (hasher P) fork).serialize s = raw :=
  (encode_eq_some.mp h).2

theorem length_eq (h : Encodes P s raw) : raw.length = offsetOf P s (fieldCount fork) := by
  rw [← h.serialize_eq, stateCodec, length_serialize_container, length_stateFields, offsetOf]

theorem length_lt (h : Encodes P s raw) : raw.length < 2 ^ 32 := by
  rw [← h.serialize_eq]
  exact (encode_eq_some.mp h).1

theorem offsetOf_le (h : Encodes P s raw) (hi : i ≤ fieldCount fork) :
    offsetOf P s i ≤ raw.length := by
  rw [h.length_eq]
  exact tailStart_le hi

/-- The table is there whole. -/
theorem sum_le_length (h : Encodes P s raw) : (fieldFixedSizes fork).sum ≤ raw.length := by
  have hzero : offsetOf P s 0 = (fieldFixedSizes fork).sum := by
    rw [offsetOf, tailStart_zero, widths_state]
  rw [← hzero]
  exact h.offsetOf_le (Nat.zero_le _)

/-- Past fields of one length the tails do not move on. -/
theorem offsetOf_eq {j : ℕ} (hij : i ≤ j) (hfixed : ∀ k, i ≤ k → k < j → k ∉ variableFieldIndices) :
    offsetOf P s j = offsetOf P s i :=
  tailStart_parts_eq hij (fun k hik hkj => sizes_getElem?_ne (hfixed k hik hkj)) s

theorem exists_field (P : Primitives) (hi : i < fieldCount fork) :
    ∃ field, (stateFields (hasher P) fork)[i]? = some field :=
  ⟨_, List.getElem?_eq_getElem (by rwa [length_stateFields])⟩

/-- **The offsets** are those of the tails. -/
theorem variableOffset_eq (h : Encodes P s raw) (hi : i ∈ variableFieldIndices) :
    variableOffset raw i = offsetOf P s i := by
  obtain ⟨field, hfield⟩ := exists_field P (variableFieldIndices_lt fork i hi)
  have hslice := slice_offset s (h := hasher P) hfield ((size_eq_none_iff hfield).mpr hi) rfl
  rw [widths_state] at hslice
  have hread : fromLeBytes (leBytes 4 (offsetOf P s i)) = offsetOf P s i :=
    fromLeBytes_leBytes
      ((h.offsetOf_le (variableFieldIndices_lt fork i hi).le).trans_lt h.length_lt)
  rw [variableOffset, ← fieldStart_variable fork i hi, ← h.serialize_eq, ← hread]
  exact congrArg fromLeBytes (slice_eq_some.mp hslice).2

theorem offsetsInOrder (h : Encodes P s raw) : OffsetsInOrder raw where
  nondecreasing := by
    apply List.pairwise_map.mpr
    refine (show variableFieldIndices.Pairwise (· ≤ ·) by decide).imp_of_mem ?_
    intro i j hi hj hij
    rw [h.variableOffset_eq hi, h.variableOffset_eq hj]
    exact tailStart_le hij
  within := by
    intro offset hoffset
    obtain ⟨i, hi, rfl⟩ := List.mem_map.mp hoffset
    rw [h.variableOffset_eq hi]
    exact h.offsetOf_le (variableFieldIndices_lt fork i hi).le

/-- The variable field behind one, with none in between. -/
theorem next_variable : ∀ i ∈ variableFieldIndices,
    ∀ j, variableFieldIndices[variableFieldIndices.idxOf i + 1]? = some j →
      j ∈ variableFieldIndices ∧ i + 1 ≤ j ∧
        ∀ k, i + 1 ≤ k → k < j → k ∉ variableFieldIndices := by
  have hnext : ∀ i ∈ variableFieldIndices, ∀ j ∈ variableFieldIndices,
      variableFieldIndices[variableFieldIndices.idxOf i + 1]? = some j →
        i + 1 ≤ j ∧ ∀ k, i + 1 ≤ k → k < j → k ∉ variableFieldIndices := by
    decide
  intro i hi j hj
  have hmem := List.mem_of_getElem? hj
  exact ⟨hmem, hnext i hi j hmem hj⟩

theorem last_variable (fork : ConsensusFork) : ∀ i ∈ variableFieldIndices,
    variableFieldIndices[variableFieldIndices.idxOf i + 1]? = none →
      ∀ k, i + 1 ≤ k → k < fieldCount fork → k ∉ variableFieldIndices := by
  cases fork <;> decide

/-- **The range of a variable field** is its tail. -/
theorem variableRange_eq (h : Encodes P s raw) (hi : i ∈ variableFieldIndices) :
    variableRange raw i = (offsetOf P s i, offsetOf P s (i + 1)) := by
  rw [variableRange, h.variableOffset_eq hi, variableOffsets, List.getElem?_map]
  cases hnext : variableFieldIndices[variableFieldIndices.idxOf i + 1]? with
  | none =>
      have hlast := offsetOf_eq (P := P) (s := s) (variableFieldIndices_lt fork i hi)
        (last_variable fork i hi hnext)
      rw [← hlast, ← h.length_eq]
      rfl
  | some j =>
      obtain ⟨hj, hij, hbetween⟩ := next_variable i hi j hnext
      rw [Option.map_some, Option.getD_some, h.variableOffset_eq hj, offsetOf_eq hij hbetween]

/-- **Every field is in its range**, whatever its length. -/
theorem slice_field (h : Encodes P s raw)
    (hfield : (stateFields (hasher P) fork)[i]? = some field) :
    slice raw ((fieldRanges raw fork).getD i (0, 0)).1 ((fieldRanges raw fork).getD i (0, 0)).2 =
      some (field.serialize s) := by
  have hi : i < fieldCount fork := by
    rw [← length_stateFields P]
    exact (List.getElem?_eq_some_iff.mp hfield).1
  by_cases hvariable : i ∈ variableFieldIndices
  · rw [fieldRanges_of_variable h.offsetsInOrder fork hvariable, h.variableRange_eq hvariable,
      ← h.serialize_eq]
    exact slice_variable s hfield ((size_eq_none_iff hfield).mpr hvariable)
  · rw [fieldRanges_of_fixed raw hi hvariable, ← h.serialize_eq]
    exact slice_fixed s hfield (size_eq_some hfield hvariable) (by rw [widths_state]; rfl) rfl

end Encodes

/-! ## What the entry points make of them -/

/-- The roots of the fields of a state. -/
def fieldRoots (P : Primitives) (s : ForkedState fork) : List P.Bytes32 :=
  (stateFields (hasher P) fork).map (·.root s)

theorem length_fieldRoots (P : Primitives) (s : ForkedState fork) :
    (fieldRoots P s).length = fieldCount fork := by
  rw [fieldRoots, List.length_map, length_stateFields]

/-- **The root of a state** is the root of the tree the host builds. -/
theorem stateRoot_eq (s : ForkedState fork) :
    (stateCodec (hasher P) fork).root s =
      root P.sha256Pair stateDepth (stateLeaves (fieldRoots P s)) := by
  have hdepth : Nat.clog 2 (stateFields (hasher P) fork).length = stateDepth := by
    rw [length_stateFields]
    cases fork <;> decide
  rw [stateCodec, container_root]
  exact (hasher P).merkleize_of_clog hdepth _

/-- Each field of a state is hashed to its root. -/
theorem computeFieldHtr_eq (hslots : config.slotsPerEpoch = 32)
    (hregistry : i ≠ beaconStateValidatorsFieldIndex)
    (hfield : (stateFields (hasher P) fork)[i]? = some field) :
    computeFieldHtr P config i (field.serialize s) = some (field.root s) := by
  cases fork with
  | electra => exact computeFieldHtr_electra hslots s hregistry hfield
  | fulu =>
      rcases lt_or_ge i 37 with hi | hi
      · rw [stateFields, fuluFields, List.getElem?_append_left (by rw [List.length_map]; exact hi),
          List.getElem?_map] at hfield
        obtain ⟨electraField, helectra, rfl⟩ := Option.map_eq_some_iff.mp hfield
        exact computeFieldHtr_electra hslots s.toElectraState hregistry helectra
      · have hlast : i = 37 := by
          have hlt := (List.getElem?_eq_some_iff.mp hfield).1
          rw [length_stateFields] at hlt
          exact le_antisymm (Nat.le_of_lt_succ hlt) hi
        subst hlast
        obtain rfl := Option.some_inj.mp hfield
        exact htrVectorGwei_hashes 64 s.proposerLookahead

/-- The validators of a state. -/
def ForkedState.validators (s : ForkedState fork) : Bounded ValidatorResponse (2 ^ 40) :=
  s.electra.validators

/-- The field of the registry. -/
theorem registry_field (P : Primitives) (fork : ConsensusFork) :
    (stateFields (hasher P) fork)[beaconStateValidatorsFieldIndex]? =
      some ((validatorsCodec (hasher P)).of ForkedState.validators) := by
  cases fork <;> rfl

/-- The bytes of a registry say how many validators it has. -/
theorem count_validators (validators : Bounded ValidatorResponse (2 ^ 40)) :
    ((validatorsCodec (hasher P)).serialize validators).length / sszValidatorSize =
      validators.val.length := by
  have hsize : (validatorCodec (hasher P)).size = some sszValidatorSize := rfl
  rw [validatorsCodec, list_serialize hsize, length_flatten_serialize hsize,
    Nat.mul_div_cancel _ (by decide : 0 < sszValidatorSize)]

/-- The field of the slot. -/
theorem slot_field (P : Primitives) (fork : ConsensusFork) :
    (stateFields (hasher P) fork)[2]? = some ((uint64 (hasher P)).of fun s => s.electra.slot) := by
  cases fork <;> rfl

namespace Encodes

/-- **The roots of the fields**, the registry's handed in. -/
theorem fieldHtrs_eq (h : Encodes P s raw) (hslots : config.slotsPerEpoch = 32) :
    fieldHtrs config raw (fieldRanges raw fork) (fieldCount fork)
      (registryKnown ((validatorsCodec (hasher P)).root s.validators)) = some (fieldRoots P s) := by
  rw [fieldHtrs, mapM_eq_some_map, Chunks.map_range_getD (length_fieldRoots P s) P.zeroChunk]
  intro i hi
  obtain ⟨field, hfield⟩ := exists_field P (List.mem_range.mp hi)
  have hroot : (fieldRoots P s).getD i P.zeroChunk = field.root s := by
    rw [List.getD_eq_getElem?_getD, fieldRoots, List.getElem?_map, hfield]
    rfl
  rw [hroot]
  by_cases hregistry : i = beaconStateValidatorsFieldIndex
  · subst hregistry
    rw [registry_field] at hfield
    obtain rfl := Option.some_inj.mp hfield
    rfl
  · rw [registryKnown, if_neg hregistry]
    show (slice raw _ _ >>= fun data => computeFieldHtr P config i data) = _
    rw [h.slice_field hfield]
    exact computeFieldHtr_eq hslots hregistry hfield

/-- The table of the bytes of a state is read without a complaint. -/
theorem parseFieldRanges_eq_ok (h : Encodes P s raw) :
    parseFieldRanges raw fork = .ok (fieldRanges raw fork) := by
  rw [parseFieldRanges_eq, if_pos h.sum_le_length]

/-- The registry is hashed out of its range. -/
theorem registryHtr_eq (h : Encodes P s raw) :
    registryHtr raw ((fieldRanges raw fork).getD beaconStateValidatorsFieldIndex (0, 0)) =
      some ((validatorsCodec (hasher P)).root s.validators, s.validators.val.length) := by
  have hslice := h.slice_field (registry_field P fork)
  have hroot := computeValidatorsHtr_eq (P := P) s.validators
  rw [registryHtr, hslice]
  simp only [of_serialize, count_validators, Option.bind_eq_bind, Option.bind_some] at hroot ⊢
  rw [hroot]
  rfl

/-- The slot is at its place. -/
theorem slot_eq (h : Encodes P s raw) : 48 ≤ raw.length ∧ slotOf raw = s.electra.slot := by
  have hstart : ((widths (stateFields (hasher P) fork)).take 2).sum = 40 := by
    rw [widths_state]
    cases fork <;> rfl
  have hslice := slice_fixed s (h := hasher P) (slot_field P fork) rfl hstart
    (show 40 + 8 = 48 from rfl)
  rw [← stateCodec, h.serialize_eq] at hslice
  obtain ⟨⟨-, hlength⟩, hbytes⟩ := slice_eq_some.mp hslice
  refine ⟨hlength, ?_⟩
  rw [slotOf, hbytes]
  show UInt64.ofNat (fromLeBytes (leBytes 8 s.electra.slot.toNat)) = _
  rw [fromLeBytes_leBytes s.electra.slot.toNat_lt, UInt64.ofNat_toNat]

theorem computeStateRoot_eq_ok (h : Encodes P s raw) (hslots : config.slotsPerEpoch = 32)
    (hfork : config.forkAtSlot s.electra.slot = fork) :
    computeStateRoot config raw =
      .ok ((stateCodec (hasher P) fork).root s, UInt64.ofNat s.validators.val.length) := by
  obtain ⟨hlength, hslot⟩ := h.slot_eq
  rw [← hslot] at hfork
  subst hfork
  rw [computeStateRoot_eq hlength h.sum_le_length, h.registryHtr_eq, Option.bind_some,
    h.fieldHtrs_eq hslots, stateRoot_eq, Option.map_some, buildStateTreeAndExtract_root]
  rfl

theorem parseStateProof_eq_ok (h : Encodes P s raw) (hslots : config.slotsPerEpoch = 32)
    {slot : UInt64} (hslot : config.forkAtSlot slot = fork) :
    parseStateProof config raw ((validatorsCodec (hasher P)).root s.validators) slot =
      .ok ((stateCodec (hasher P) fork).root s, siblingPath P.sha256Pair stateDepth
        (stateLeaves (fieldRoots P s)) beaconStateValidatorsFieldIndex) := by
  subst hslot
  rw [parseStateProof_eq _ h.sum_le_length, h.fieldHtrs_eq hslots, stateRoot_eq, Option.map_some,
    buildStateTreeAndExtract_eq _ (show beaconStateValidatorsFieldIndex < 2 ^ stateDepth by decide)]
  rfl

end Encodes

/-! ## The registry -/

theorem padded_leBytes (v : UInt64) : (hasher P).padded (leBytes 8 v.toNat) = P.chunk v := by
  apply congrArg P.ofBytes
  apply Subtype.ext
  show (leBytes 8 v.toNat).take 32 ++ List.replicate (32 - (leBytes 8 v.toNat).length) 0 =
    leBytes 8 v.toNat ++ List.replicate 24 0
  rw [leBytes_length, List.take_of_length_le (by rw [leBytes_length]; decide)]

theorem uint64_root (v : UInt64) : (uint64 (hasher P)).root v = P.chunk v := by
  rw [uint64, uint_root (by decide) (by decide), padded_leBytes]

theorem boolean_root (b : Bool) :
    (boolean (hasher P)).root b = P.chunk (if b then 1 else 0) := by
  rw [boolean, uint_root (by decide) (by decide)]
  cases b <;> rfl

theorem bytes32_root (a : Bytes 32) : (bytes (hasher P) 32).root a = P.ofBytes a := by
  rw [bytes_root_chunk (by decide) le_rfl]
  apply congrArg P.ofBytes
  apply Subtype.ext
  show a.val.take 32 ++ List.replicate (32 - a.val.length) 0 = a.val
  rw [a.2, List.take_of_length_le a.2.le]
  exact List.append_nil _

/-- A public key takes two chunks, the second of them padded. -/
theorem pubkey_root (v : ValidatorResponse) :
    (bytes (hasher P) 48).root v.pubkey =
      P.sha256Pair (P.ofBytes (v.pubkeyChunks 0)) (P.ofBytes (v.pubkeyChunks 1)) := by
  have hhash := htrBlsPubkey_hashes (P := P) v.pubkey
  rw [bytes_serialize, htrBlsPubkey, slice_of_le (by decide) (by rw [v.pubkey.2]; decide),
    slice_of_le (by decide) v.pubkey.2.ge] at hhash
  have hlow : padToChunk P (v.pubkey.val.take 32) = P.ofBytes (v.pubkeyChunks 0) := by
    apply congrArg P.ofBytes
    apply Subtype.ext
    show (v.pubkey.val.take 32).take 32 ++ List.replicate (32 - (v.pubkey.val.take 32).length) 0 =
      v.pubkey.val.take 32
    rw [List.take_take, List.length_take, v.pubkey.2]
    exact List.append_nil _
  have hhigh : padToChunk P ((v.pubkey.val.take 48).drop 32) = P.ofBytes (v.pubkeyChunks 1) := by
    apply congrArg P.ofBytes
    apply Subtype.ext
    show ((v.pubkey.val.take 48).drop 32).take 32 ++
        List.replicate (32 - ((v.pubkey.val.take 48).drop 32).length) 0 =
      v.pubkey.val.drop 32 ++ List.replicate 16 0
    have hlength : (v.pubkey.val.drop 32).length = 16 := by
      rw [List.length_drop, v.pubkey.2]
    rw [List.take_of_length_le v.pubkey.2.le, hlength, List.take_of_length_le (by omega)]
  rw [← hlow, ← hhigh]
  exact (Option.some_inj.mp hhash).symm

/-- **The record the circuits hash** is the one the codec does. -/
theorem validator_root (v : ValidatorResponse) :
    (validatorCodec (hasher P)).root v = validatorHashTreeRoot P (v.fieldLeaves P) := by
  rw [validatorCodec, container_root_eight]
  simp only [of_root, uint64_root, boolean_root, bytes32_root, pubkey_root]
  rfl

/-- **And the registry** is the one whose diffs they prove. -/
theorem registry_root (validators : Bounded ValidatorResponse (2 ^ 40)) :
    (validatorsCodec (hasher P)).root validators = registryRoot P 40 validators.val := by
  have hleaves : ∀ i < 2 ^ 40,
      (validators.val.map (validatorCodec (hasher P)).root).getD i P.zeroChunk =
        registryLeaf P validators.val i := by
    intro i _
    rw [List.getD_eq_getElem?_getD, List.getElem?_map, registryLeaf]
    cases validators.val[i]? with
    | none => rfl
    | some v => exact validator_root v
  have hdata : elementsRoot (hasher P) (validatorCodec (hasher P)) (2 ^ 40) validators.val =
      root P.sha256Pair 40 (registryLeaf P validators.val) := by
    rw [elementsRoot_of_composite rfl,
      (hasher P).merkleize_of_clog (Nat.clog_pow 2 40 Nat.one_lt_two)]
    exact root_congr _ hleaves
  show (hasher P).mixInLength (elementsRoot _ _ _ _) _ = _
  rw [hdata, ← mixInLength_eq _ (validators.2.trans_lt (by decide))]
  rfl

/-- The registry hashes into the root of its state. -/
theorem registry_opens (s : ForkedState fork) :
    computeSszMerkleRoot P (registryRoot P 40 s.validators.val) beaconStateValidatorsFieldIndex
      (siblingPath P.sha256Pair stateDepth (stateLeaves (fieldRoots P s))
        beaconStateValidatorsFieldIndex) = (stateCodec (hasher P) fork).root s := by
  have hleaf : stateLeaves (fieldRoots P s) beaconStateValidatorsFieldIndex =
      registryRoot P 40 s.validators.val := by
    rw [stateLeaves, List.getD_eq_getElem?_getD, fieldRoots, List.getElem?_map, registry_field,
      ← registry_root]
    rfl
  rw [stateRoot_eq, ← hleaf]
  exact computeRoot_siblingPath stateDepth _ _

/-! ## The whole of it -/

/-- **A state hashes to its root.** What a well-formed state is written as, whatever is in it and
however long its lists are, the host hashes to the root of its codec; and the branch it opens the
registry by, over the root the circuits take a registry to, leads to that root. -/
theorem hashes_to_root (hslots : config.slotsPerEpoch = 32) (h : Encodes P s raw)
    (hfork : config.forkAtSlot s.electra.slot = fork) :
    computeStateRoot config raw =
        .ok ((stateCodec (hasher P) fork).root s, UInt64.ofNat s.validators.val.length) ∧
      ∃ siblings, siblings.length = stateDepth ∧
        (∀ slot, config.forkAtSlot slot = fork →
          parseStateProof config raw (registryRoot P 40 s.validators.val) slot =
            .ok ((stateCodec (hasher P) fork).root s, siblings)) ∧
        computeSszMerkleRoot P (registryRoot P 40 s.validators.val)
          beaconStateValidatorsFieldIndex siblings = (stateCodec (hasher P) fork).root s := by
  refine ⟨h.computeStateRoot_eq_ok hslots hfork, _, siblingPath_length _ _ _, ?_, registry_opens s⟩
  intro slot hslot
  rw [← registry_root]
  exact h.parseStateProof_eq_ok hslots hslot

/-- **The hashing that is written out by hand is the generic one.** For every well-formed state of
either fork the root is the codec's; the branch of the registry, whose root is handed in, goes
with that root and opens the registry's there; and what is hashed out of the field the table cuts
out for the registry is the codec's root of the list of validators. -/
theorem hashing_is_generic (hslots : config.slotsPerEpoch = 32) (h : Encodes P s raw)
    (hfork : config.forkAtSlot s.electra.slot = fork) :
    (∃ numValidators,
      computeStateRoot config raw = .ok ((stateCodec (hasher P) fork).root s, numValidators)) ∧
    (∃ siblings,
      parseStateProof config raw ((validatorsCodec (hasher P)).root s.validators)
          s.electra.slot = .ok ((stateCodec (hasher P) fork).root s, siblings) ∧
        siblings.length = stateDepth ∧
        computeSszMerkleRoot P ((validatorsCodec (hasher P)).root s.validators)
          beaconStateValidatorsFieldIndex siblings = (stateCodec (hasher P) fork).root s) ∧
    ∃ ranges data, parseFieldRanges raw fork = .ok ranges ∧
      slice raw (ranges.getD beaconStateValidatorsFieldIndex (0, 0)).1
        (ranges.getD beaconStateValidatorsFieldIndex (0, 0)).2 = some data ∧
      computeValidatorsHtr P data (data.length / sszValidatorSize) =
        some ((validatorsCodec (hasher P)).root s.validators) := by
  refine ⟨⟨_, h.computeStateRoot_eq_ok hslots hfork⟩, ⟨_, h.parseStateProof_eq_ok hslots hfork,
    siblingPath_length _ _ _, ?_⟩, ?_⟩
  · rw [registry_root]
    exact registry_opens s
  · refine ⟨_, _, h.parseFieldRanges_eq_ok, h.slice_field (registry_field P fork), ?_⟩
    exact computeValidatorsHtr_eq s.validators

end SszState

/-! ### A state of two validators -/

namespace Formal

open SszState SimpleSerialize Codec

def blankCheckpoint : SszState.Checkpoint := ⟨0, zeroBytes 32⟩

def blankCommittee : SyncCommittee :=
  ⟨⟨List.replicate 512 (zeroBytes 48), List.length_replicate⟩, zeroBytes 48⟩

def blankPayload : ExecutionPayloadHeader where
  parentHash := zeroBytes 32
  feeRecipient := zeroBytes 20
  stateRoot := zeroBytes 32
  receiptsRoot := zeroBytes 32
  logsBloom := zeroBytes 256
  prevRandao := zeroBytes 32
  blockNumber := 0
  gasLimit := 0
  gasUsed := 0
  timestamp := 0
  extraData := ⟨[], Nat.zero_le _⟩
  baseFeePerGas := 0
  blockHash := zeroBytes 32
  transactionsRoot := zeroBytes 32
  withdrawalsRoot := zeroBytes 32
  blobGasUsed := 0
  excessBlobGas := 0

/-- A root that is a number. -/
def root32 (n : ℕ) : Bytes 32 := ⟨leBytes 32 n, leBytes_length _ _⟩

/-- Zeros at slot 40, and no list with anything in it. -/
def blankState : ElectraState where
  genesisTime := 0
  genesisValidatorsRoot := zeroBytes 32
  slot := 40
  fork := ⟨zeroBytes 4, zeroBytes 4, 0⟩
  latestBlockHeader := ⟨0, 0, zeroBytes 32, zeroBytes 32, zeroBytes 32⟩
  blockRoots := ⟨List.replicate 8192 (zeroBytes 32), List.length_replicate⟩
  stateRoots := ⟨List.replicate 8192 (zeroBytes 32), List.length_replicate⟩
  historicalRoots := ⟨[], Nat.zero_le _⟩
  eth1Data := ⟨zeroBytes 32, 0, zeroBytes 32⟩
  eth1DataVotes := ⟨[], Nat.zero_le _⟩
  eth1DepositIndex := 0
  validators := ⟨[], Nat.zero_le _⟩
  balances := ⟨[], Nat.zero_le _⟩
  randaoMixes := ⟨List.replicate 65536 (zeroBytes 32), List.length_replicate⟩
  slashings := ⟨List.replicate 8192 0, List.length_replicate⟩
  previousEpochParticipation := ⟨[], Nat.zero_le _⟩
  currentEpochParticipation := ⟨[], Nat.zero_le _⟩
  justificationBits := ⟨List.replicate 4 false, List.length_replicate⟩
  previousJustifiedCheckpoint := blankCheckpoint
  currentJustifiedCheckpoint := blankCheckpoint
  finalizedCheckpoint := blankCheckpoint
  inactivityScores := ⟨[], Nat.zero_le _⟩
  currentSyncCommittee := blankCommittee
  nextSyncCommittee := blankCommittee
  latestExecutionPayloadHeader := blankPayload
  nextWithdrawalIndex := 0
  nextWithdrawalValidatorIndex := 0
  historicalSummaries := ⟨[], Nat.zero_le _⟩
  depositRequestsStartIndex := 0
  depositBalanceToConsume := 0
  exitBalanceToConsume := 0
  earliestExitEpoch := 0
  consolidationBalanceToConsume := 0
  earliestConsolidationEpoch := 0
  pendingDeposits := ⟨[], Nat.zero_le _⟩
  pendingPartialWithdrawals := ⟨[], Nat.zero_le _⟩
  pendingConsolidations := ⟨[], Nat.zero_le _⟩

/-- Mainnet's slots, and Fulu far away. -/
def beforeFulu : StateConfig := ⟨32, 100⟩

/-- Two validators with their balances, flags and scores, rings in which no two slots have the same
entry, and a last block. -/
def livelyState : ElectraState :=
  { blankState with
    genesisValidatorsRoot := root32 7
    fork := ⟨⟨[4, 0, 0, 0], rfl⟩, ⟨[5, 0, 0, 0], rfl⟩, 1⟩
    latestBlockHeader := ⟨39, 1, root32 11, root32 12, root32 13⟩
    blockRoots := ⟨(List.range 8192).map root32, by simp⟩
    stateRoots := ⟨(List.range 8192).map fun slot => root32 (8192 + slot), by simp⟩
    historicalRoots := ⟨[root32 14], by decide⟩
    validators := ⟨[validator 0 32, validator 1 31], by decide⟩
    balances := ⟨[33, 31], by decide⟩
    previousEpochParticipation := ⟨[7, 3], by decide⟩
    currentEpochParticipation := ⟨[1, 0], by decide⟩
    inactivityScores := ⟨[0, 4], by decide⟩ }

/-- What that state is written as. -/
def livelyBytes : List UInt8 := (stateCodec (hasher (formal {})) .electra).serialize livelyState

/-- How long the tails are, of the lists and of the payload header. -/
theorem tails_lively : (electraFields (hasher (formal {}))).map (fun f =>
    if f.size.isSome then 0 else (f.serialize livelyState).length) =
      (List.range 37).map fun i =>
        if i = 7 then 32 else if i = 11 then 242 else if i = 12 ∨ i = 21 then 16
        else if i = 15 ∨ i = 16 then 2 else if i = 24 then 584 else 0 := by
  decide +kernel

theorem encodes_lively : @Encodes .electra (formal {}) livelyState livelyBytes := by
  have hlength : livelyBytes.length = 2737607 := by
    show ((container _ (electraFields _)).serialize livelyState).length = _
    rw [length_serialize_eq, tails_lively]
    exact congrArg (· + _) (congrArg List.sum (widths_state (formal {}) .electra))
  refine encode_eq_some.mpr ⟨?_, rfl⟩
  show livelyBytes.length < 2 ^ 32
  rw [hlength]
  decide

theorem hashes_to_root_lively :
    computeStateRoot beforeFulu livelyBytes =
        .ok ((stateCodec (hasher (formal {})) .electra).root livelyState, 2) ∧
      ∃ siblings, siblings.length = stateDepth ∧
        (∀ slot, beforeFulu.forkAtSlot slot = .electra →
          SszState.parseStateProof beforeFulu livelyBytes
              (registryRoot (formal {}) 40 [validator 0 32, validator 1 31]) slot =
            .ok ((stateCodec (hasher (formal {})) .electra).root livelyState, siblings)) ∧
        computeSszMerkleRoot (formal {})
            (registryRoot (formal {}) 40 [validator 0 32, validator 1 31])
            beaconStateValidatorsFieldIndex siblings =
          (stateCodec (hasher (formal {})) .electra).root livelyState :=
  hashes_to_root rfl encodes_lively (by decide)

/-- The state of two validators, hashed by hand and by its codec. -/
theorem hashing_is_generic_lively :
    (∃ numValidators, computeStateRoot beforeFulu livelyBytes =
      .ok ((stateCodec (hasher (formal {})) .electra).root livelyState, numValidators)) ∧
    (∃ siblings,
      SszState.parseStateProof beforeFulu livelyBytes
          ((validatorsCodec (hasher (formal {}))).root livelyState.validators) 40 =
        .ok ((stateCodec (hasher (formal {})) .electra).root livelyState, siblings) ∧
      siblings.length = stateDepth ∧
      computeSszMerkleRoot (formal {})
          ((validatorsCodec (hasher (formal {}))).root livelyState.validators)
          beaconStateValidatorsFieldIndex siblings =
        (stateCodec (hasher (formal {})) .electra).root livelyState) ∧
    ∃ ranges data, parseFieldRanges livelyBytes .electra = .ok ranges ∧
      slice livelyBytes (ranges.getD beaconStateValidatorsFieldIndex (0, 0)).1
        (ranges.getD beaconStateValidatorsFieldIndex (0, 0)).2 = some data ∧
      computeValidatorsHtr (formal {}) data (data.length / sszValidatorSize) =
        some ((validatorsCodec (hasher (formal {}))).root livelyState.validators) :=
  hashing_is_generic rfl encodes_lively (by decide)

end Formal

end Zkasper
