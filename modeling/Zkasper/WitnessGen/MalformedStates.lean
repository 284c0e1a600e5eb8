import Zkasper.WitnessGen.SszState

/-! # Malformed states

What the entry points of `ssz_state.rs` do with bytes that are no state. Shorter than the
fixed portion, they are an error. Past that check there is no error any more: an offset that
leads nowhere, a list over its limit or a payload header cut short is a slice out of range,
and offsets out of order are put in order and read.

So bytes are refused rather than panicked on, and accepted only in order, exactly where they
are too short to be looked into or need no refusing. -/

namespace Zkasper

open Merkle PerfectTree Ssz Panics

namespace SszState

variable {P : Primitives}

/-! ## The offsets -/

/-- The offset at the place of a variable field, which is the same in both forks. -/
def variableOffset (raw : List UInt8) (i : ℕ) : ℕ :=
  fromLeBytes ((raw.take (fieldStart .electra i + 4)).drop (fieldStart .electra i))

def variableOffsets (raw : List UInt8) : List ℕ := variableFieldIndices.map (variableOffset raw)

/-- **The offsets do not decrease, and none is past the end.** -/
structure OffsetsInOrder (raw : List UInt8) : Prop where
  nondecreasing : (variableOffsets raw).Pairwise (· ≤ ·)
  within : ∀ offset ∈ variableOffsets raw, offset ≤ raw.length

/-- The range of a variable field under offsets in order: up to the next of them. -/
def variableRange (raw : List UInt8) (i : ℕ) : ℕ × ℕ :=
  (variableOffset raw i,
    ((variableOffsets raw)[variableFieldIndices.idxOf i + 1]?).getD raw.length)

def variableData (raw : List UInt8) (i : ℕ) : List UInt8 :=
  (raw.take (variableRange raw i).2).drop (variableRange raw i).1

/-- **Every variable field can be hashed**, the registry too where it is. -/
def FieldsFit (config : StateConfig) (raw : List UInt8) (registry : Bool) : Prop :=
  ∀ i ∈ variableFieldIndices, (i = beaconStateValidatorsFieldIndex → registry) →
    FieldFits config i (variableData raw i)

/-! ## The ranges -/

/-- What the ranges are cut out by, before the variable fields have theirs. -/
def fixedRanges (fork : ConsensusFork) : List (ℕ × ℕ) :=
  (List.range (fieldCount fork)).map fun i =>
    if i ∈ variableFieldIndices then (0, 0)
    else (fieldStart fork i, fieldStart fork i + (fieldFixedSizes fork).getD i 0)

/-- The ranges of the fields of bytes that are long enough. -/
def fieldRanges (raw : List UInt8) (fork : ConsensusFork) : List (ℕ × ℕ) :=
  assignRanges raw.length
    ((variableFieldIndices.map fun i => (i, variableOffset raw i)).insertionSort (·.2 ≤ ·.2))
    (fixedRanges fork)

theorem fieldStart_variable (fork : ConsensusFork) :
    ∀ i ∈ variableFieldIndices, fieldStart fork i = fieldStart .electra i := by
  cases fork <;> decide

theorem fieldStart_add_four_le (fork : ConsensusFork) :
    ∀ i ∈ variableFieldIndices, fieldStart fork i + 4 ≤ (fieldFixedSizes fork).sum := by
  cases fork <;> decide

theorem fieldStart_add_size_le (fork : ConsensusFork) (i : ℕ) :
    fieldStart fork i + (fieldFixedSizes fork).getD i 0 ≤ (fieldFixedSizes fork).sum := by
  have hsplit := congrArg List.sum (List.take_append_drop i (fieldFixedSizes fork))
  rw [List.sum_append] at hsplit
  have hhead : (fieldFixedSizes fork).getD i 0 ≤ ((fieldFixedSizes fork).drop i).sum := by
    rw [List.getD_eq_getElem?_getD, ← List.head?_drop]
    cases (fieldFixedSizes fork).drop i with
    | nil => exact Nat.zero_le _
    | cons size sizes => exact Nat.le_add_right _ _
  rw [fieldStart]
  omega

/-- **Too short is an error, and nothing else is**: past the size check the table is read. -/
theorem parseFieldRanges_eq (raw : List UInt8) (fork : ConsensusFork) :
    parseFieldRanges raw fork =
      if (fieldFixedSizes fork).sum ≤ raw.length then .ok (fieldRanges raw fork)
      else .error (.error "SSZ state too small") := by
  unfold parseFieldRanges
  split
  · next hsize =>
      have hindices : (List.range (fieldCount fork)).filter (· ∈ variableFieldIndices) =
          variableFieldIndices := by
        cases fork <;> decide
      have hoffsets : (variableFieldIndices.mapM fun i => do
          return (i, fromLeBytes (← slice raw (fieldStart fork i) (fieldStart fork i + 4)))) =
            some (variableFieldIndices.map fun i => (i, variableOffset raw i)) := by
        apply mapM_eq_some_map
        intro i hi
        rw [slice_of_le (Nat.le_add_right _ _) ((fieldStart_add_four_le fork i hi).trans hsize),
          fieldStart_variable fork i hi]
        rfl
      rw [ensure_bind_of_pos hsize]
      simp only [hindices, hoffsets]
      rfl
  · next hsize => exact ensure_bind_of_neg hsize _ _

/-! ### Where a field lies -/

section Assign

variable {stop i start : ℕ} {offsets ranges : List (ℕ × ℕ)}

/-- A field without an offset keeps its range. -/
theorem assignRanges_of_notMem (h : i ∉ offsets.map (·.1)) :
    (assignRanges stop offsets ranges)[i]? = ranges[i]? := by
  induction offsets generalizing ranges with
  | nil => rfl
  | cons offset offsets ih =>
      rw [List.map_cons, List.mem_cons, not_or] at h
      rw [assignRanges, ih h.2, List.getElem?_set_ne (Ne.symm h.1)]

/-- A field with an offset runs up to the next one. -/
theorem assignRanges_of_mem {k : ℕ} (hkeys : (offsets.map (·.1)).Nodup)
    (hk : offsets[k]? = some (i, start)) (hi : i < ranges.length) :
    (assignRanges stop offsets ranges)[i]? =
      some (start, ((offsets[k + 1]?).map (·.2)).getD stop) := by
  induction offsets generalizing ranges k with
  | nil => cases hk
  | cons offset offsets ih =>
      rw [List.map_cons, List.nodup_cons] at hkeys
      rw [assignRanges]
      cases k with
      | zero =>
          obtain rfl : offset = (i, start) := Option.some_inj.mp hk
          rw [assignRanges_of_notMem hkeys.1, List.getElem?_set_self hi, List.head?_eq_getElem?]
          rfl
      | succ k =>
          rw [ih hkeys.2 hk (by rwa [List.length_set])]
          rfl

end Assign

theorem fixedRanges_getElem {fork : ConsensusFork} {i : ℕ} (hi : i < fieldCount fork)
    (hfixed : i ∉ variableFieldIndices) :
    (fixedRanges fork)[i]? =
      some (fieldStart fork i, fieldStart fork i + (fieldFixedSizes fork).getD i 0) := by
  rw [fixedRanges, List.getElem?_map, List.getElem?_range hi, Option.map_some, if_neg hfixed]

/-- A fixed field has its place, whatever the offsets. -/
theorem fieldRanges_of_fixed (raw : List UInt8) {fork : ConsensusFork} {i : ℕ}
    (hi : i < fieldCount fork) (hfixed : i ∉ variableFieldIndices) :
    (fieldRanges raw fork).getD i (0, 0) =
      (fieldStart fork i, fieldStart fork i + (fieldFixedSizes fork).getD i 0) := by
  rw [List.getD_eq_getElem?_getD, fieldRanges, assignRanges_of_notMem,
    fixedRanges_getElem hi hfixed]
  · rfl
  · intro hmem
    have hperm := (List.perm_insertionSort (fun a b : ℕ × ℕ => a.2 ≤ b.2)
      (variableFieldIndices.map fun i => (i, variableOffset raw i))).map (·.1)
    rw [hperm.mem_iff, List.map_map] at hmem
    obtain ⟨j, hj, rfl⟩ := List.mem_map.mp hmem
    exact hfixed hj

theorem variableFieldIndices_lt (fork : ConsensusFork) :
    ∀ i ∈ variableFieldIndices, i < fieldCount fork := by
  cases fork <;> decide

/-- Under offsets in order a variable field runs up to the next one. -/
theorem fieldRanges_of_variable {raw : List UInt8} (h : OffsetsInOrder raw) (fork : ConsensusFork)
    {i : ℕ} (hi : i ∈ variableFieldIndices) :
    (fieldRanges raw fork).getD i (0, 0) = variableRange raw i := by
  have hsorted : (variableFieldIndices.map fun i => (i, variableOffset raw i)).Pairwise
      (·.2 ≤ ·.2) := List.pairwise_map.mpr (List.pairwise_map.mp h.nondecreasing)
  have hkeys : ((variableFieldIndices.map fun i => (i, variableOffset raw i)).map (·.1)).Nodup := by
    rw [List.map_map]
    exact (by decide : variableFieldIndices.Nodup)
  have hk : (variableFieldIndices.map fun i => (i, variableOffset raw i))[
      variableFieldIndices.idxOf i]? = some (i, variableOffset raw i) := by
    rw [List.getElem?_map, List.getElem?_idxOf hi]
    rfl
  have hlength : i < (fixedRanges fork).length := by
    rw [fixedRanges, List.length_map, List.length_range]
    exact variableFieldIndices_lt fork i hi
  rw [List.getD_eq_getElem?_getD, fieldRanges, hsorted.insertionSort_eq,
    assignRanges_of_mem hkeys hk hlength, Option.getD_some, variableRange, variableOffsets]
  simp only [List.getElem?_map, Option.map_map, Function.comp_def]

/-- And the range is one that can be sliced. -/
theorem slice_variableRange {raw : List UInt8} (h : OffsetsInOrder raw) {i : ℕ}
    (hi : i ∈ variableFieldIndices) :
    slice raw (variableRange raw i).1 (variableRange raw i).2 = some (variableData raw i) := by
  set k := variableFieldIndices.idxOf i with hk
  have hoffset : (variableOffsets raw)[k]? = some (variableOffset raw i) := by
    rw [variableOffsets, List.getElem?_map, List.getElem?_idxOf hi]
    rfl
  obtain ⟨hklt, hkeq⟩ := List.getElem?_eq_some_iff.mp hoffset
  cases hnext : (variableOffsets raw)[k + 1]? with
  | none =>
      have hrange : variableRange raw i = (variableOffset raw i, raw.length) := by
        rw [variableRange, hnext]
        rfl
      rw [variableData, hrange]
      exact slice_of_le (h.within _ (List.mem_of_getElem? hoffset)) le_rfl
  | some stop =>
      have hrange : variableRange raw i = (variableOffset raw i, stop) := by
        rw [variableRange, hnext]
        rfl
      obtain ⟨hlt, heq⟩ := List.getElem?_eq_some_iff.mp hnext
      have hle := List.pairwise_iff_getElem.mp h.nondecreasing k (k + 1) hklt hlt (Nat.lt_succ_self k)
      rw [hkeq, heq] at hle
      rw [variableData, hrange]
      exact slice_of_le hle (h.within _ (List.mem_of_getElem? hnext))

/-! ## What the entry points do -/

section Htrs

variable {config : StateConfig} {raw : List UInt8} {fork : ConsensusFork}

/-- A field whose range is sliced, of bytes that are long enough and in order. -/
theorem fieldHtr_isSome (hsize : (fieldFixedSizes fork).sum ≤ raw.length)
    (h : OffsetsInOrder raw) {i : ℕ} (hi : i < fieldCount fork)
    (hregistry : i ≠ beaconStateValidatorsFieldIndex) :
    (do
      let range := (fieldRanges raw fork).getD i (0, 0)
      computeFieldHtr P config i (← slice raw range.1 range.2)).isSome ↔
      (i ∈ variableFieldIndices → FieldFits config i (variableData raw i)) := by
  show (slice raw ((fieldRanges raw fork).getD i (0, 0)).1
    ((fieldRanges raw fork).getD i (0, 0)).2 >>= fun data =>
      computeFieldHtr P config i data).isSome ↔ _
  by_cases hvariable : i ∈ variableFieldIndices
  · rw [fieldRanges_of_variable h fork hvariable, slice_variableRange h hvariable]
    exact (computeFieldHtr_isSome_of_variable hvariable hregistry).trans
      ⟨fun hfits _ => hfits, fun hfits => hfits hvariable⟩
  · have hstop := (fieldStart_add_size_le fork i).trans hsize
    rw [fieldRanges_of_fixed raw hi hvariable, slice_of_le (Nat.le_add_right _ _) hstop]
    refine ⟨fun _ hmem => absurd hmem hvariable, fun _ => ?_⟩
    apply computeFieldHtr_isSome_of_fixed (lt_of_lt_of_le hi (by cases fork <;> decide)) hvariable
    rw [List.length_drop, List.length_take, min_eq_left hstop, Nat.add_sub_cancel_left]
    cases fork with
    | fulu => exact le_rfl
    | electra =>
        -- the table of the later fork only has one more entry
        rw [List.getD_eq_getElem?_getD, List.getD_eq_getElem?_getD, fieldFixedSizes,
          List.getElem?_append_left hi, fieldFixedSizes, List.getElem?_append_left hi]

/-- **All fields are hashed exactly if the known ones are and the others fit.** -/
theorem fieldHtrs_isSome {known : ℕ → Option (Option P.Bytes32)}
    (hsize : (fieldFixedSizes fork).sum ≤ raw.length) (h : OffsetsInOrder raw)
    (hregistry : (known beaconStateValidatorsFieldIndex).isSome)
    (hvariable : ∀ i ∈ variableFieldIndices, i ≠ beaconStateValidatorsFieldIndex →
      known i = none) :
    (fieldHtrs config raw (fieldRanges raw fork) (fieldCount fork) known).isSome ↔
      (∀ i < fieldCount fork, ∀ htr, known i = some htr → htr.isSome) ∧
        FieldsFit config raw false := by
  rw [fieldHtrs, mapM_isSome]
  simp only [List.mem_range]
  constructor
  · intro hall
    refine ⟨fun i hi htr hknown => ?_, fun i hi hfalse => ?_⟩
    · have hround := hall i hi
      rw [hknown] at hround
      exact hround
    · have hne : i ≠ beaconStateValidatorsFieldIndex := fun heq => Bool.noConfusion (hfalse heq)
      have hlt := variableFieldIndices_lt fork i hi
      have hround := hall i hlt
      rw [hvariable i hi hne] at hround
      exact (fieldHtr_isSome hsize h hlt hne).mp hround hi
  · rintro ⟨hknown, hfit⟩ i hi
    cases hcase : known i with
    | some htr => exact hknown i hi htr hcase
    | none =>
        have hne : i ≠ beaconStateValidatorsFieldIndex := by
          rintro rfl
          rw [hcase] at hregistry
          cases hregistry
        exact (fieldHtr_isSome hsize h hi hne).mpr fun hmem =>
          hfit i hmem fun heq => absurd heq hne

/-- The registry hashed besides the other fields. -/
theorem fieldsFit_true :
    FieldsFit config raw true ↔ FieldFits config beaconStateValidatorsFieldIndex
      (variableData raw beaconStateValidatorsFieldIndex) ∧ FieldsFit config raw false := by
  constructor
  · exact fun h => ⟨h _ (by decide) fun _ => rfl, fun i hi _ => h i hi fun _ => rfl⟩
  · rintro ⟨hregistry, h⟩ i hi -
    by_cases heq : i = beaconStateValidatorsFieldIndex
    · rwa [heq]
    · exact h i hi fun hi => absurd hi heq

end Htrs

/-- **Malformed bytes are an error and no panic**: what a call makes of them is a value or an
error, and a value only where the offsets are in order. -/
def Refuses {α : Type} (raw : List UInt8) (x : Outcome String α) : Prop :=
  x ≠ .error .panicked ∧ ∀ a, x = .ok a → OffsetsInOrder raw

/-- Bytes are refused by what reads them through the table exactly if they are too short, or in
order and nothing in them makes it panic. -/
theorem refuses_iff {α : Type} {raw : List UInt8} {fork : ConsensusFork}
    {f : List (ℕ × ℕ) → Option α} {fits : Prop}
    (hfits : (fieldFixedSizes fork).sum ≤ raw.length → OffsetsInOrder raw →
      ((f (fieldRanges raw fork)).isSome ↔ fits)) :
    Refuses raw (parseFieldRanges raw fork >>= fun ranges => ofPanics (f ranges)) ↔
      raw.length < (fieldFixedSizes fork).sum ∨ OffsetsInOrder raw ∧ fits := by
  rw [parseFieldRanges_eq]
  by_cases hsize : (fieldFixedSizes fork).sum ≤ raw.length
  · rw [if_pos hsize]
    show Refuses raw (ofPanics (f (fieldRanges raw fork))) ↔ _
    have hlong : ¬ raw.length < (fieldFixedSizes fork).sum := not_lt.mpr hsize
    cases hrun : f (fieldRanges raw fork) with
    | none =>
        -- past the size check what does not return panics
        refine ⟨fun h => absurd rfl h.1, fun h => ?_⟩
        obtain ⟨horder, hfit⟩ := h.resolve_left hlong
        have hsome := (hfits hsize horder).mpr hfit
        rw [hrun] at hsome
        cases hsome
    | some a =>
        refine ⟨fun h => Or.inr ⟨h.2 a rfl, ?_⟩, fun h => ⟨fun hpanic => ?_, fun _ _ => ?_⟩⟩
        · exact (hfits hsize (h.2 a rfl)).mp (by rw [hrun]; rfl)
        · cases hpanic
        · exact (h.resolve_left hlong).1
  · rw [if_neg hsize]
    refine ⟨fun _ => Or.inl (not_le.mp hsize), fun _ => ⟨fun hpanic => ?_, fun a ha => ?_⟩⟩
    · cases hpanic
    · cases ha

section EntryPoints

variable {config : StateConfig} {raw : List UInt8} {fork : ConsensusFork}

/-- The slot at its place in the bytes. -/
def slotOf (raw : List UInt8) : UInt64 := UInt64.ofNat (fromLeBytes ((raw.take 48).drop 40))

theorem extractSlot_eq (raw : List UInt8) :
    extractSlot raw = if 48 ≤ raw.length then some (slotOf raw) else none := by
  unfold extractSlot
  split
  · next h =>
      rw [slice_of_le (by decide) h]
      rfl
  · next h =>
      rw [slice, if_neg fun hle => h hle.2]
      rfl

/-- The roots of the fields, where only the registry's is handed in. -/
theorem fieldHtrs_isSome_of_registry (validatorsHtr : P.Bytes32)
    (hsize : (fieldFixedSizes fork).sum ≤ raw.length) (h : OffsetsInOrder raw) :
    (fieldHtrs config raw (fieldRanges raw fork) (fieldCount fork)
      (registryKnown validatorsHtr)).isSome ↔ FieldsFit config raw false := by
  have hvariable : ∀ i ∈ variableFieldIndices, i ≠ beaconStateValidatorsFieldIndex →
      registryKnown validatorsHtr i = none := fun i _ hne => if_neg hne
  rw [fieldHtrs_isSome hsize h rfl hvariable]
  refine and_iff_right fun i _ htr hknown => ?_
  unfold registryKnown at hknown
  split at hknown
  · obtain rfl : some validatorsHtr = htr := Option.some_inj.mp hknown
    rfl
  · cases hknown

/-- **Past the size check** the state proof is the roots of the fields, put into their tree. -/
theorem parseStateProof_eq (validatorsHtr : P.Bytes32) {slot : UInt64}
    (hsize : (fieldFixedSizes (config.forkAtSlot slot)).sum ≤ raw.length) :
    parseStateProof config raw validatorsHtr slot =
      ofPanics ((fieldHtrs config raw (fieldRanges raw (config.forkAtSlot slot))
        (fieldCount (config.forkAtSlot slot)) (registryKnown validatorsHtr)).map fun htrs =>
          buildStateTreeAndExtract (stateLeaves htrs) beaconStateValidatorsFieldIndex) := by
  rw [parseStateProof, parseFieldRanges_eq, if_pos hsize, ok_bind, Option.map_eq_bind]
  rfl

/-- And so is the state root, under the registry's own. -/
theorem computeStateRoot_eq (hlength : 48 ≤ raw.length)
    (hsize : (fieldFixedSizes (config.forkAtSlot (slotOf raw))).sum ≤ raw.length) :
    computeStateRoot config raw =
      ofPanics ((registryHtr (P := P) raw ((fieldRanges raw (config.forkAtSlot (slotOf raw))).getD
        beaconStateValidatorsFieldIndex (0, 0))).bind fun registry =>
          (fieldHtrs config raw (fieldRanges raw (config.forkAtSlot (slotOf raw)))
            (fieldCount (config.forkAtSlot (slotOf raw))) (registryKnown registry.1)).map fun htrs =>
              ((buildStateTreeAndExtract (stateLeaves htrs) beaconStateValidatorsFieldIndex).1,
                UInt64.ofNat registry.2)) := by
  rw [computeStateRoot, extractSlot_eq, if_pos hlength, ofPanics_some_bind]
  dsimp only
  rw [parseFieldRanges_eq, if_pos hsize, ok_bind]
  simp only [Option.map_eq_bind]
  rfl

theorem parseStateProof_refuses (validatorsHtr : P.Bytes32) (slot : UInt64) :
    Refuses raw (parseStateProof config raw validatorsHtr slot) ↔
      raw.length < (fieldFixedSizes (config.forkAtSlot slot)).sum ∨
        OffsetsInOrder raw ∧ FieldsFit config raw false := by
  apply refuses_iff
  intro hsize horder
  exact (isSome_bind_of_forall fun _ => Option.isSome_some).trans
    (fieldHtrs_isSome_of_registry validatorsHtr hsize horder)

/-- The registry of bytes in order, hashed out of its range. -/
theorem registryHtr_isSome (h : OffsetsInOrder raw) (fork : ConsensusFork) :
    (registryHtr (P := P) raw
      ((fieldRanges raw fork).getD beaconStateValidatorsFieldIndex (0, 0))).isSome ↔
      FieldFits config beaconStateValidatorsFieldIndex
        (variableData raw beaconStateValidatorsFieldIndex) := by
  have hregistry : beaconStateValidatorsFieldIndex ∈ variableFieldIndices := by decide
  rw [fieldRanges_of_variable h fork hregistry, registryHtr, slice_variableRange h hregistry]
  exact (isSome_bind_of_forall fun _ => Option.isSome_some).trans computeValidatorsHtr_isSome

theorem computeStateRoot_refuses :
    Refuses raw (computeStateRoot (P := P) config raw) ↔
      48 ≤ raw.length ∧ (raw.length < (fieldFixedSizes (config.forkAtSlot (slotOf raw))).sum ∨
        OffsetsInOrder raw ∧ FieldsFit config raw true) := by
  rw [computeStateRoot, extractSlot_eq]
  by_cases hlength : 48 ≤ raw.length
  · rw [if_pos hlength, ofPanics_some_bind, and_iff_right hlength]
    refine refuses_iff fun hsize horder => ?_
    rw [fieldsFit_true, ← registryHtr_isSome (P := P) horder (config.forkAtSlot (slotOf raw))]
    cases registryHtr (P := P) raw ((fieldRanges raw (config.forkAtSlot (slotOf raw))).getD
      beaconStateValidatorsFieldIndex (0, 0)) with
    | none => simp
    | some registry =>
        refine Iff.trans ?_ (and_iff_right rfl).symm
        exact (isSome_bind_of_forall fun _ => Option.isSome_some).trans
          (fieldHtrs_isSome_of_registry registry.1 hsize horder)
  · rw [if_neg hlength]
    exact ⟨fun h => absurd rfl h.1, fun h => absurd h.1 hlength⟩

/-- What the ring of a field holds, read out of the bytes. -/
def ringRoots (P : Primitives) (raw : List UInt8) (field i : ℕ) : P.Bytes32 :=
  let start := fieldStart .electra field
  padToChunk P ((raw.take (start + i * 32 + 32)).drop (start + i * 32))

/-- **A ring is read whatever the offsets**: its root and the path of an entry are those of the
tree over its entries, the entry is the one at its place, and the root is what the field hashes
to. -/
theorem ring_opens (config : StateConfig) (hsize : (fieldFixedSizes fork).sum ≤ raw.length) {field : ℕ}
    (hfield : field = blockRootsField.toNat ∨ field = stateRootsField.toNat) {ring : ℕ}
    (hring : ring < 2 ^ ringDepth) :
    ringVector raw ((fieldRanges raw fork).getD field (0, 0)) ring =
        some (root P.sha256Pair ringDepth (ringRoots P raw field),
          siblingPath P.sha256Pair ringDepth (ringRoots P raw field) ring) ∧
      ringEntry raw ((fieldRanges raw fork).getD field (0, 0)) ring =
        some (ringRoots P raw field ring) ∧
      (slice raw ((fieldRanges raw fork).getD field (0, 0)).1
        ((fieldRanges raw fork).getD field (0, 0)).2 >>= fun data =>
          computeFieldHtr P config field data) =
        some (root P.sha256Pair ringDepth (ringRoots P raw field)) := by
  have hcount : field < fieldCount fork := by
    rcases hfield with rfl | rfl <;> cases fork <;> decide
  have hfixed : field ∉ variableFieldIndices := by
    rcases hfield with rfl | rfl <;> decide
  have hlength : (fieldFixedSizes fork).getD field 0 = 2 ^ ringDepth * 32 := by
    rcases hfield with rfl | rfl <;> cases fork <;> decide
  -- both rings lie before the first field the forks disagree on
  have hstart : fieldStart fork field = fieldStart .electra field := by
    rcases hfield with rfl | rfl <;> cases fork <;> decide
  have hstop := (fieldStart_add_size_le fork field).trans hsize
  rw [hlength, hstart] at hstop
  have hentry : ∀ i < 2 ^ ringDepth, (slice raw (fieldStart .electra field + i * 32)
      (fieldStart .electra field + i * 32 + 32) >>= fun s => htrBytes32 P s) =
        some (ringRoots P raw field i) :=
    fun i hi => slice_bind_htrBytes32 rfl (by omega)
  rw [fieldRanges_of_fixed raw hcount hfixed, hlength, hstart]
  obtain ⟨data, hslice⟩ : ∃ data, slice raw (fieldStart .electra field)
      (fieldStart .electra field + 2 ^ ringDepth * 32) = some data :=
    ⟨_, slice_of_le (Nat.le_add_right _ _) hstop⟩
  have hbytes := length_of_slice hslice
  rw [Nat.add_sub_cancel_left] at hbytes
  have hroots : itemRoots P (htrBytes32 P) 32 (2 ^ ringDepth) data =
      some ((List.range (2 ^ ringDepth)).map (ringRoots P raw field)) := by
    apply mapM_eq_some_map
    intro i hi
    have hi := List.mem_range.mp hi
    rw [slice_slice hslice (Nat.le_add_right _ _) (by rw [hbytes]; omega), ← Nat.add_assoc]
    exact hentry i hi
  have hleaves : ∀ i < 2 ^ ringDepth,
      ((List.range (2 ^ ringDepth)).map (ringRoots P raw field)).getD i P.zeroChunk =
        ringRoots P raw field i := by
    intro i hi
    rw [List.getD_eq_getElem?_getD, List.getElem?_map, List.getElem?_range hi]
    rfl
  refine ⟨?_, hentry ring hring, ?_⟩
  · have hopens := vectorRootAndProof_eq hroots rfl hring
    rw [root_congr _ hleaves, siblingPath_congr hleaves] at hopens
    rw [ringVector, slotsPerHistoricalRoot_toNat]
    simp only [hslice, Option.bind_eq_bind, Option.bind_some]
    exact hopens
  · have hvector : htrVectorRoots P data (2 ^ ringDepth) =
        some (root P.sha256Pair ringDepth (ringRoots P raw field)) := by
      simp only [htrVectorRoots, hroots, Option.bind_eq_bind, Option.bind_some]
      rw [Nat.clog_pow _ _ Nat.one_lt_two, merkleizeChunks_eq (by simp), root_congr _ hleaves]
    have hcase : computeFieldHtr P config field data = htrVectorRoots P data 8192 := by
      rcases hfield with rfl | rfl <;> rfl
    simp only [hslice, Option.bind_eq_bind, Option.bind_some]
    rw [hcase]
    exact hvector

/-- The roots of the fields of a boundary proof. -/
theorem fieldHtrs_isSome_of_boundary (known : Option P.Bytes32)
    (blockRootsHtr stateRootsHtr : P.Bytes32) (hsize : (fieldFixedSizes fork).sum ≤ raw.length)
    (h : OffsetsInOrder raw) :
    (fieldHtrs config raw (fieldRanges raw fork) (fieldCount fork)
      (boundaryKnown raw (fieldRanges raw fork) known blockRootsHtr stateRootsHtr)).isSome ↔
        FieldsFit config raw known.isNone := by
  have hregistry : boundaryKnown raw (fieldRanges raw fork) known blockRootsHtr stateRootsHtr
      beaconStateValidatorsFieldIndex = some (known <|> (registryHtr raw
        ((fieldRanges raw fork).getD beaconStateValidatorsFieldIndex (0, 0))).map Prod.fst) := rfl
  have hother : ∀ i ≠ beaconStateValidatorsFieldIndex, ∀ htr, boundaryKnown raw
      (fieldRanges raw fork) known blockRootsHtr stateRootsHtr i = some htr →
        htr.isSome ∧ i ∉ variableFieldIndices := by
    intro i hne htr hknown
    rw [boundaryKnown, if_neg hne] at hknown
    split at hknown
    · next heq => cases hknown; exact ⟨rfl, heq ▸ by decide⟩
    · split at hknown
      · next heq => cases hknown; exact ⟨rfl, heq ▸ by decide⟩
      · cases hknown
  have hvariable : ∀ i ∈ variableFieldIndices, i ≠ beaconStateValidatorsFieldIndex →
      boundaryKnown raw (fieldRanges raw fork) known blockRootsHtr stateRootsHtr i = none :=
    fun i hi hne => Option.eq_none_iff_forall_ne_some.mpr fun htr hknown =>
      (hother i hne htr hknown).2 hi
  have hknown : (∀ i < fieldCount fork, ∀ htr, boundaryKnown raw (fieldRanges raw fork) known
      blockRootsHtr stateRootsHtr i = some htr → htr.isSome) ↔
        (known <|> (registryHtr raw ((fieldRanges raw fork).getD
          beaconStateValidatorsFieldIndex (0, 0))).map Prod.fst).isSome := by
    constructor
    · exact fun hall => hall _ (variableFieldIndices_lt fork _ (by decide)) _ hregistry
    · intro hsome i _ htr hknown
      by_cases heq : i = beaconStateValidatorsFieldIndex
      · rw [heq, hregistry] at hknown
        exact Option.some_inj.mp hknown ▸ hsome
      · exact (hother i heq htr hknown).1
  rw [fieldHtrs_isSome hsize h (by rw [hregistry]; rfl) hvariable, hknown]
  cases known with
  | some known => exact and_iff_right rfl
  | none =>
      show _ ↔ FieldsFit config raw true
      rw [fieldsFit_true, ← registryHtr_isSome (P := P) h fork]
      simp

/-- The boundary proof out of the roots of the fields. -/
def boundaryProofOf (raw : List UInt8) (ring : ℕ) (htrs : List P.Bytes32) : BoundaryProof P where
  stateRoot := root P.sha256Pair stateDepth (stateLeaves htrs)
  blockRoot := ringRoots P raw blockRootsField.toNat ring
  boundaryStateRoot := ringRoots P raw stateRootsField.toNat ring
  blockRootsSiblings :=
    siblingPath P.sha256Pair ringDepth (ringRoots P raw blockRootsField.toNat) ring ++
      siblingPath P.sha256Pair stateDepth (stateLeaves htrs) blockRootsField.toNat
  stateRootsSiblings :=
    siblingPath P.sha256Pair ringDepth (ringRoots P raw stateRootsField.toNat) ring ++
      siblingPath P.sha256Pair stateDepth (stateLeaves htrs) stateRootsField.toNat

/-- The roots of the fields a boundary proof opens its state by. -/
def boundaryHtrs (config : StateConfig) (raw : List UInt8) (fork : ConsensusFork)
    (known : Option P.Bytes32) : Option (List P.Bytes32) :=
  fieldHtrs config raw (fieldRanges raw fork) (fieldCount fork)
    (boundaryKnown raw (fieldRanges raw fork) known
      (root P.sha256Pair ringDepth (ringRoots P raw blockRootsField.toNat))
      (root P.sha256Pair ringDepth (ringRoots P raw stateRootsField.toNat)))

/-- **Past its checks a boundary proof is the two paths** through a ring and through the
state. -/
theorem parseBoundaryProof_eq (known : Option P.Bytes32) {slot : UInt64}
    (hlength : 48 ≤ raw.length) (hrecords : RecordsSlot (slotOf raw) slot) :
    parseBoundaryProof config raw known slot =
      parseFieldRanges raw (config.forkAtSlot (slotOf raw)) >>= fun _ =>
        ofPanics ((boundaryHtrs config raw (config.forkAtSlot (slotOf raw)) known).map
          (boundaryProofOf raw (slot % slotsPerHistoricalRoot).toNat)) := by
  rw [parseBoundaryProof, extractSlot_eq, if_pos hlength, ofPanics_some_bind,
    ensure_bind_of_pos hrecords]
  dsimp only
  rw [parseFieldRanges_eq]
  split
  · next hsize =>
      have hring : (slot % slotsPerHistoricalRoot).toNat < 2 ^ ringDepth := by
        rw [UInt64.toNat_mod, slotsPerHistoricalRoot_toNat]
        exact Nat.mod_lt _ (Nat.two_pow_pos _)
      obtain ⟨hblocks, hblock, -⟩ := ring_opens (P := P) config hsize (Or.inl rfl) hring
      obtain ⟨hstates, hstate, -⟩ := ring_opens (P := P) config hsize (Or.inr rfl) hring
      have hblockField := fun leaves : ℕ → P.Bytes32 =>
        buildStateTreeAndExtract_eq leaves (show blockRootsField.toNat < _ by decide)
      have hstateField := fun leaves : ℕ → P.Bytes32 =>
        buildStateTreeAndExtract_eq leaves (show stateRootsField.toNat < _ by decide)
      rw [ok_bind, ok_bind]
      simp only [hblocks, hblock, hstates, hstate, hblockField, hstateField, Option.bind_eq_bind,
        Option.bind_some]
      rw [Option.map_eq_bind]
      rfl
  · rfl

theorem parseBoundaryProof_refuses (known : Option P.Bytes32) (slot : UInt64) :
    Refuses raw (parseBoundaryProof config raw known slot) ↔
      48 ≤ raw.length ∧ (¬ RecordsSlot (slotOf raw) slot ∨
        raw.length < (fieldFixedSizes (config.forkAtSlot (slotOf raw))).sum ∨
        OffsetsInOrder raw ∧ FieldsFit config raw known.isNone) := by
  by_cases hlength : 48 ≤ raw.length
  · rw [and_iff_right hlength]
    by_cases hrecords : RecordsSlot (slotOf raw) slot
    · rw [or_iff_right (not_not_intro hrecords), parseBoundaryProof_eq known hlength hrecords]
      refine refuses_iff fun hsize horder => ?_
      rw [Option.isSome_map]
      exact fieldHtrs_isSome_of_boundary _ _ _ hsize horder
    · rw [parseBoundaryProof, extractSlot_eq, if_pos hlength, ofPanics_some_bind,
        ensure_bind_of_neg hrecords]
      refine ⟨fun _ => Or.inl hrecords, fun _ => ⟨fun hpanic => ?_, fun a ha => ?_⟩⟩
      · cases hpanic
      · cases ha
  · rw [parseBoundaryProof, extractSlot_eq, if_neg hlength]
    exact ⟨fun h => absurd rfl h.1, fun h => absurd h.1 hlength⟩

/-- **What is refused.** Malformed bytes are an error and no panic exactly where they are too
short for the table, or need no refusing: with offsets in order, and with lists within their
limits and a payload header that fits. Where the slot is read off the bytes it has to be there,
and a boundary the state does not record is refused before the table. -/
theorem malformed_refused_iff (config : StateConfig) (raw : List UInt8) (slot : UInt64)
    (validatorsHtr : P.Bytes32) (known : Option P.Bytes32) :
    (Refuses raw (parseStateProof config raw validatorsHtr slot) ↔
      raw.length < (fieldFixedSizes (config.forkAtSlot slot)).sum ∨
        OffsetsInOrder raw ∧ FieldsFit config raw false) ∧
    (Refuses raw (computeStateRoot (P := P) config raw) ↔
      48 ≤ raw.length ∧ (raw.length < (fieldFixedSizes (config.forkAtSlot (slotOf raw))).sum ∨
        OffsetsInOrder raw ∧ FieldsFit config raw true)) ∧
    (Refuses raw (parseBoundaryProof config raw known slot) ↔
      48 ≤ raw.length ∧ (¬ RecordsSlot (slotOf raw) slot ∨
        raw.length < (fieldFixedSizes (config.forkAtSlot (slotOf raw))).sum ∨
        OffsetsInOrder raw ∧ FieldsFit config raw known.isNone)) :=
  ⟨parseStateProof_refuses validatorsHtr slot, computeStateRoot_refuses,
    parseBoundaryProof_refuses known slot⟩

end EntryPoints

/-! ### Bytes that panic

A fixed portion of nothing but ones: it is long enough, and every offset in it leads past the
end. And no bytes at all, which have no slot to read. -/

theorem malformed_not_refused :
    let P := Formal.formal {}
    let mainnet : StateConfig := ⟨32, 0⟩
    let ones : List UInt8 := List.replicate 2737225 0xFF
    ¬ Refuses ones (parseStateProof mainnet ones P.zeroChunk 0) ∧
      computeStateRoot (P := P) mainnet [] = .error .panicked ∧
      parseBoundaryProof mainnet [] (some P.zeroChunk) 0 = .error .panicked := by
  intro P mainnet ones
  refine ⟨fun h => ?_, rfl, rfl⟩
  have hlength : ones.length = 2737225 := List.length_replicate
  rcases (parseStateProof_refuses P.zeroChunk 0).mp h with hshort | ⟨horder, -⟩
  · rw [hlength] at hshort
    exact absurd hshort (by decide)
  · have hoffset : variableOffset ones 7 = 4294967295 := by
      rw [variableOffset, List.take_replicate, List.drop_replicate]
      decide
    have hwithin := horder.within _ (List.mem_map_of_mem (by decide : 7 ∈ variableFieldIndices))
    rw [hoffset, hlength] at hwithin
    exact absurd hwithin (by decide)

end SszState

end Zkasper
