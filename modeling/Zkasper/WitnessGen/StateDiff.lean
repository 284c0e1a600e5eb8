import Zkasper.BeaconState
import Zkasper.WitnessGen.Updates

/-! # Two registries compared

What the host works out of two registries before it assembles an epoch diff: which
validators changed, the sparse SSZ tree over a registry with the multi-proof of the
changed ones, and the branch from the registry to the state root.

The changed validators are the ones that matter (`eq_of_unchanged`): any other has
the same record in both registries, and with it the same leaf in both trees. The SSZ
tree stores as many leaves as its registry rounds up to, and its multi-proof is the
one the circuit takes as long as every changed validator is among them
(`buildValidatorsSszTree_eq`). -/

namespace Zkasper

open Merkle PerfectTree Ssz

variable {P : Primitives}

/-! ## Registry diffing -/

/-- Whether any SSZ field besides the public key differs. -/
def sszChanged (old new : ValidatorResponse) : Bool :=
  old.effectiveBalance != new.effectiveBalance ||
    old.withdrawalCredentials != new.withdrawalCredentials ||
    old.activationEpoch != new.activationEpoch ||
    old.exitEpoch != new.exitEpoch ||
    old.slashed != new.slashed ||
    old.activationEligibilityEpoch != new.activationEligibilityEpoch ||
    old.withdrawableEpoch != new.withdrawableEpoch

/-- Whether the validator is active at one epoch and not at the other. -/
def activityChanged (new : ValidatorResponse) (epoch1 epoch2 : UInt64) : Bool :=
  let wasActive := new.activationEpoch ≤ epoch1 && epoch1 < new.exitEpoch
  let isActive := new.activationEpoch ≤ epoch2 && epoch2 < new.exitEpoch
  wasActive != isActive

/-- Find indices of validators that changed between two registries, the appended ones included. -/
def findMutations (oldValidators newValidators : List ValidatorResponse) (epoch1 epoch2 : UInt64) :
    List ℕ :=
  ((List.range (min oldValidators.length newValidators.length)).filter fun i =>
    match oldValidators[i]?, newValidators[i]? with
    | some old, some new => sszChanged old new || activityChanged new epoch1 epoch2
    | _, _ => false) ++
  List.range' oldValidators.length (newValidators.length - oldValidators.length)

/-- **A registry and a later one**: validators are only appended, and no key ever changes. -/
structure Grows (R1 R2 : List ValidatorResponse) : Prop where
  length_le : R1.length ≤ R2.length
  pubkey : ∀ (i : ℕ) (old new : ValidatorResponse), R1[i]? = some old → R2[i]? = some new →
    old.pubkey = new.pubkey

section Diff

variable {R1 R2 : List ValidatorResponse} {epoch1 epoch2 : UInt64} {i : ℕ}

theorem findMutations_pairwise : (findMutations R1 R2 epoch1 epoch2).Pairwise (· < ·) := by
  rw [findMutations, List.pairwise_append]
  refine ⟨List.pairwise_lt_range.filter _, List.pairwise_lt_range' , fun a ha b hb => ?_⟩
  have ha := List.mem_range.mp (List.mem_filter.mp ha).1
  have hb := (List.mem_range'_1.mp hb).1
  omega

theorem lt_of_mem_findMutations (h : i ∈ findMutations R1 R2 epoch1 epoch2) : i < R2.length := by
  rcases List.mem_append.mp h with h | h
  · have hlt := List.mem_range.mp (List.mem_filter.mp h).1
    omega
  · have hlt := List.mem_range'_1.mp h
    omega

/-- An appended validator is one of them. -/
theorem mem_findMutations_of_new (hold : R1.length ≤ i) (hnew : i < R2.length) :
    i ∈ findMutations R1 R2 epoch1 epoch2 := by
  apply List.mem_append_right
  rw [List.mem_range'_1]
  omega

theorem eq_of_not_sszChanged {old new : ValidatorResponse} (h : sszChanged old new = false)
    (hkey : old.pubkey = new.pubkey) : old = new := by
  obtain ⟨pubkey, balance, activation, exit, credentials, slashed, eligibility, withdrawable⟩ := old
  obtain ⟨pubkey', balance', activation', exit', credentials', slashed', eligibility',
    withdrawable'⟩ := new
  simp only [sszChanged, Bool.or_eq_false_iff, bne_eq_false_iff_eq] at h hkey
  obtain ⟨⟨⟨⟨⟨⟨rfl, rfl⟩, rfl⟩, rfl⟩, rfl⟩, rfl⟩, rfl⟩ := h
  subst hkey
  rfl

/-- **What the diff leaves out**: the same record on both sides, active at both epochs or at
neither. -/
theorem eq_of_unchanged {old new : ValidatorResponse} (hold : R1[i]? = some old)
    (hnew : R2[i]? = some new) (hkey : old.pubkey = new.pubkey)
    (h : i ∉ findMutations R1 R2 epoch1 epoch2) :
    old = new ∧ old.data.isActive epoch1 = new.data.isActive epoch2 := by
  have hlt : i < min R1.length R2.length :=
    lt_min (List.getElem?_eq_some_iff.mp hold).1 (List.getElem?_eq_some_iff.mp hnew).1
  have hsame : (sszChanged old new || activityChanged new epoch1 epoch2) = false := by
    by_contra hchanged
    apply h
    apply List.mem_append_left
    rw [List.mem_filter, List.mem_range, hold, hnew]
    exact ⟨hlt, Bool.of_not_eq_false hchanged⟩
  obtain ⟨hssz, hactivity⟩ := Bool.or_eq_false_iff.mp hsame
  obtain rfl := eq_of_not_sszChanged hssz hkey
  exact ⟨rfl, bne_eq_false_iff_eq.mp hactivity⟩

/-- **The diff is what changed**: the positions whose record or activity is not the same. -/
theorem mem_findMutations_iff (hgrow : Grows R1 R2) :
    i ∈ findMutations R1 R2 epoch1 epoch2 ↔ Changed R1 R2 epoch1 epoch2 i := by
  by_cases hi : i < R1.length
  · obtain ⟨old, hold⟩ : ∃ old, R1[i]? = some old := ⟨_, List.getElem?_eq_getElem hi⟩
    obtain ⟨new, hnew⟩ : ∃ new, R2[i]? = some new :=
      ⟨_, List.getElem?_eq_getElem (hi.trans_le hgrow.length_le)⟩
    rw [Changed, hold, hnew]
    constructor
    · intro hmem
      by_contra hsame
      obtain ⟨hrecord, hactivity⟩ := not_or.mp hsame
      obtain rfl := Option.some.inj (not_ne_iff.mp hrecord)
      have hactivity : old.data.isActive epoch1 = old.data.isActive epoch2 :=
        Option.some.inj (not_ne_iff.mp hactivity)
      rcases List.mem_append.mp hmem with hmem | hmem
      · have hchanged := (List.mem_filter.mp hmem).2
        rw [hold, hnew] at hchanged
        have hflip : activityChanged old epoch1 epoch2 = false := by
          show (old.data.isActive epoch1 != old.data.isActive epoch2) = false
          rw [hactivity]
          exact bne_self_eq_false _
        simp [sszChanged, hflip] at hchanged
      · have hge := (List.mem_range'_1.mp hmem).1
        omega
    · intro hchanged
      by_contra hmem
      obtain ⟨heq, hactive⟩ := eq_of_unchanged hold hnew (hgrow.pubkey _ _ _ hold hnew) hmem
      rcases hchanged with hrecord | hactivity
      · exact hrecord (congrArg some heq)
      · exact hactivity (congrArg some hactive)
  · have hold := List.getElem?_eq_none (not_lt.mp hi)
    by_cases hlt : i < R2.length
    · refine ⟨fun _ => .inl ?_, fun _ => mem_findMutations_of_new (not_lt.mp hi) hlt⟩
      rw [hold, List.getElem?_eq_getElem hlt]
      exact (Option.some_ne_none _).symm
    · refine ⟨fun hmem => absurd (lt_of_mem_findMutations hmem) hlt, fun hchanged => ?_⟩
      simp [Changed, hold, List.getElem?_eq_none (not_lt.mp hlt)] at hchanged

/-- Any other position has the same leaf in both accumulators. -/
theorem hostContents_of_unchanged (hgrow : Grows R1 R2)
    (h : i ∉ findMutations R1 R2 epoch1 epoch2) :
    hostContents P R1 epoch1 i = hostContents P R2 epoch2 i :=
  contentsBy_of_not_changed ((mem_findMutations_iff hgrow).not.mp h)

/-- And in both SSZ trees. -/
theorem registryLeaf_of_unchanged (hgrow : Grows R1 R2)
    (h : i ∉ findMutations R1 R2 epoch1 epoch2) : registryLeaf P R1 i = registryLeaf P R2 i := by
  obtain ⟨hrecord, -⟩ := not_or.mp ((mem_findMutations_iff hgrow).not.mp h)
  rw [registryLeaf, registryLeaf, not_ne_iff.mp hrecord]

end Diff

/-! ## The SSZ tree -/

/-- Build all validator roots from API responses. -/
def buildValidatorRoots (P : Primitives) (validators : List ValidatorResponse) : List P.Bytes32 :=
  validators.map fun v => validatorHashTreeRoot P (v.fieldLeaves P)

/-- The auxiliaries of a leaf set, from the nodes known at each level: for every parent in
ascending order, the children of it that are not known. -/
def sszMultiProof {T : Type} (node : ℕ → ℕ → T) : (height level : ℕ) → List ℕ → List T
  | 0, _, _ => []
  | height + 1, level, known =>
      let parentIndices := (known.map (· / 2)).dedup
      (parentIndices.flatMap fun parentIdx =>
        [2 * parentIdx, 2 * parentIdx + 1].filter (· ∉ known)).map (node level) ++
          sszMultiProof node height (level + 1) parentIndices

/-- Look up a node hash from the built tree levels or zero hashes. -/
def getNodeHash (levels : List (List P.Bytes32)) (zeroHashes : List P.Bytes32) (denseDepth level
    idx : ℕ) : P.Bytes32 :=
  if level < denseDepth then
    ((levels.getD level [])[idx]?).getD (zeroHashes.getD level P.zeroChunk)
  else zeroHashes.getD level P.zeroChunk

/-- Build a sparse SHA-256 Merkle tree from validator roots and return its root and the
multi-proof of the given leaf indices. -/
def buildValidatorsSszTree (validatorRoots : List P.Bytes32) (depth : ℕ) (leafIndices : List ℕ) :
    Guest (P.Bytes32 × List P.Bytes32) := do
  let zeroHashes := List.iterate (fun zero => P.sha256Pair zero zero) P.zeroChunk (depth + 1)
  let denseDepth :=
    min (max (if validatorRoots.isEmpty then 1 else Nat.clog 2 validatorRoots.length) 1) depth
  Guest.assert (validatorRoots.length ≤ 2 ^ denseDepth)
    s!"index out of bounds: the len is {2 ^ denseDepth} but the index is {2 ^ denseDepth}"
  let leaves := validatorRoots ++ List.replicate (2 ^ denseDepth - validatorRoots.length) P.zeroChunk
  let levels := List.iterate (parents P.sha256Pair) leaves (denseDepth + 1)
  let root := (List.range' denseDepth (depth - denseDepth)).foldl
    (fun current d => P.sha256Pair current (zeroHashes.getD d P.zeroChunk))
    ((levels.getD denseDepth []).getD 0 P.zeroChunk)
  let known := leafIndices.dedup.insertionSort (· ≤ ·)
  return (root, sszMultiProof (getNodeHash levels zeroHashes denseDepth) depth 0 known)

/-- Over ascending leaves, the scan over sets of known nodes is the flat one. -/
theorem sszMultiProof_eq {T : Type} (node : ℕ → ℕ → T) :
    ∀ {height level : ℕ} {known : List ℕ}, known.Pairwise (· < ·) →
      sszMultiProof node height level known = multiProof node height level known := by
  intro height
  induction height with
  | zero => intro _ _ _; rfl
  | succ height ih =>
      intro level known hlt
      rw [multiProof, scanIndices_eq _ hlt]
      show (missingChildren known).map (node level) ++
        sszMultiProof node height (level + 1) (parentsOf known) = _
      rw [ih (parentsOf_pairwise hlt)]

theorem buildValidatorRoots_getD (R : List ValidatorResponse) (i : ℕ) :
    (buildValidatorRoots P R).getD i P.zeroChunk = registryLeaf P R i := by
  rw [List.getD_eq_getElem?_getD, buildValidatorRoots, List.getElem?_map, registryLeaf]
  cases R[i]? with
  | none => rfl
  | some v => rfl

/-- **The SSZ tree over a list of roots**: a dense prefix of the tree over them, its root, and
the scan over it. -/
theorem buildValidatorsSszTree_dense {roots : List P.Bytes32} {depth : ℕ} (indices : List ℕ)
    (hfits : roots.length ≤ 2 ^ depth) :
    ∃ levels zeroHashes, Dense P.sha256Pair P.zeroChunk depth
        (min (max (Nat.clog 2 roots.length) 1) depth) levels zeroHashes
        (fun i => roots.getD i P.zeroChunk) ∧
      buildValidatorsSszTree roots depth indices =
        .ok (root P.sha256Pair depth fun i => roots.getD i P.zeroChunk,
          multiProof (getNodeHash levels zeroHashes (min (max (Nat.clog 2 roots.length) 1) depth))
            depth 0 (indices.dedup.insertionSort (· ≤ ·))) := by
  have hclog : max (if roots.isEmpty = true then 1 else Nat.clog 2 roots.length) 1 =
      max (Nat.clog 2 roots.length) 1 := by
    split
    · next hempty =>
        rw [List.isEmpty_iff.mp hempty, List.length_nil]
        decide
    · rfl
  have hroom := le_two_pow_dense hfits
  set dense := min (max (Nat.clog 2 roots.length) 1) depth with hdense
  have hdenseTree : Dense P.sha256Pair P.zeroChunk depth dense _ _
      (fun i => roots.getD i P.zeroChunk) := dense_padded (min_le_right _ _) hroom
  refine ⟨_, _, hdenseTree, ?_⟩
  simp only [buildValidatorsSszTree, hclog, Guest.bind_eq_ok, Guest.assert_eq_ok,
    Guest.pure_eq_ok, exists_const]
  rw [← hdense]
  refine ⟨hroom, ?_⟩
  rw [hdenseTree.root_eq, sszMultiProof_eq _ (leafSet_pairwise indices)]

/-- **The SSZ tree of a registry**: its root, and the auxiliaries the circuit takes for any
ascending leaves that are stored. It is built exactly if the registry fits its list. -/
theorem buildValidatorsSszTree_eq {R : List ValidatorResponse} {depth : ℕ} {indices : List ℕ}
    (hfits : R.length ≤ 2 ^ depth) (hlt : indices.Pairwise (· < ·))
    (hindices : ∀ i ∈ indices, i < 2 ^ max (Nat.clog 2 R.length) 1 ∧ i < 2 ^ depth) :
    buildValidatorsSszTree (buildValidatorRoots P R) depth indices =
      .ok (root P.sha256Pair depth (registryLeaf P R),
        canonicalAuxiliaries P.sha256Pair depth (registryLeaf P R) indices) := by
  have hlength : (buildValidatorRoots P R).length = R.length := by simp [buildValidatorRoots]
  obtain ⟨levels, zeroHashes, hdense, hbuild⟩ :=
    buildValidatorsSszTree_dense (P := P) indices (hlength ▸ hfits)
  have hleaves : (fun i => (buildValidatorRoots P R).getD i P.zeroChunk) = registryLeaf P R :=
    funext (buildValidatorRoots_getD R)
  have hinside : ∀ i ∈ indices, i < 2 ^ min (max (Nat.clog 2 R.length) 1) depth := by
    intro i hi
    obtain ⟨hstored, hdepth⟩ := hindices i hi
    rcases le_total (max (Nat.clog 2 R.length) 1) depth with hle | hle
    · rwa [min_eq_left hle]
    · rwa [min_eq_right hle]
  have hsorted : indices.dedup.insertionSort (· ≤ ·) = indices := by
    rw [List.dedup_eq_self.mpr (hlt.imp fun h => ne_of_lt h)]
    exact List.Pairwise.insertionSort_eq (hlt.imp fun h => le_of_lt h)
  rw [hleaves, hlength] at hdense
  rw [hbuild, hleaves, hlength, hsorted]
  congr 2
  exact multiProof_across (dense_serves hdense) hlt (.of_stored (min_le_right _ _) hinside)

/-- A registry too long for its list has no tree. -/
theorem length_le_of_buildValidatorsSszTree {roots : List P.Bytes32} {depth : ℕ}
    {indices : List ℕ} {out : P.Bytes32 × List P.Bytes32}
    (h : buildValidatorsSszTree roots depth indices = .ok out) : roots.length ≤ 2 ^ depth := by
  simp only [buildValidatorsSszTree, Guest.bind_eq_ok, Guest.assert_eq_ok, exists_const] at h
  exact h.1.trans (Nat.pow_le_pow_right (by omega) (min_le_right _ _))

/-! ## The state tree -/

/-- The one slot a synthetic state records in its two ring buffers. -/
structure SlotHistory (P : Primitives) where
  slot : UInt64
  blockRoot : P.Bytes32
  stateRoot : P.Bytes32

/-- The siblings of a leaf, from the levels below the root. -/
def stateSiblings : List (List P.Bytes32) → ℕ → List P.Bytes32
  | [], _ => []
  | level :: levels, idx => level.getD (siblingOf idx) P.zeroChunk :: stateSiblings levels (idx / 2)

/-- Build the 64-leaf state tree and extract the root and the siblings of one leaf. -/
def buildStateTreeAndExtract (leaves : ℕ → P.Bytes32) (index : ℕ) :
    P.Bytes32 × List P.Bytes32 :=
  let levels := List.iterate (parents P.sha256Pair) ((List.range (2 ^ stateDepth)).map leaves)
    (stateDepth + 1)
  ((levels.getD stateDepth []).getD 0 P.zeroChunk, stateSiblings (levels.take stateDepth) index)

/-- The zero subtrees that surround the one entry such a vector holds. -/
def ringSiblings : List P.Bytes32 :=
  List.iterate (fun zero => P.sha256Pair zero zero) P.zeroChunk ringDepth

/-- Root of a ring holding `entry` at `slot` and zero elsewhere. -/
def ringRoot (slot : UInt64) (entry : P.Bytes32) : P.Bytes32 :=
  computeSszMerkleRoot P entry (slot % slotsPerHistoricalRoot).toNat ringSiblings

/-- A synthetic leaf: the field's number, then a marker byte. -/
def placeholder (i : ℕ) : Bytes 32 :=
  ⟨UInt8.ofNat i :: 0xBE :: List.replicate 30 0, by simp⟩

/-- The 64 field leaves of a synthetic state. -/
def syntheticStateLeaves (dataTreeRoot : P.Bytes32) (listLength : UInt64) (history : SlotHistory P)
    (i : ℕ) : P.Bytes32 :=
  if i = beaconStateValidatorsFieldIndex then listHashTreeRoot P dataTreeRoot listLength
  else if i = stateRootsField.toNat then ringRoot history.slot history.stateRoot
  else if i = blockRootsField.toNat then ringRoot history.slot history.blockRoot
  else P.ofBytes (placeholder i)

/-- Build a synthetic state tree from a validators data tree root. -/
def makeStateProof (dataTreeRoot : P.Bytes32) (listLength : UInt64) (history : SlotHistory P) :
    P.Bytes32 × List P.Bytes32 :=
  buildStateTreeAndExtract (syntheticStateLeaves dataTreeRoot listLength history)
    beaconStateValidatorsFieldIndex

theorem buildStateTreeAndExtract_root (leaves : ℕ → P.Bytes32) (index : ℕ) :
    (buildStateTreeAndExtract leaves index).1 = root P.sha256Pair stateDepth leaves := by
  have htop : (List.iterate (parents P.sha256Pair) ((List.range (2 ^ stateDepth)).map leaves)
      (stateDepth + 1)).getD stateDepth [] = [root P.sha256Pair stateDepth leaves] := by
    rw [List.getD_eq_getElem?_getD, List.getElem?_iterate _ _ _ _ (Nat.lt_succ_self _),
      Option.getD_some, parents_iterate le_rfl, root_eq_nodeAt]
    rfl
  rw [buildStateTreeAndExtract, htop]
  rfl

/-- What is extracted is the path of the leaf. -/
theorem buildStateTreeAndExtract_siblings (leaves : ℕ → P.Bytes32) {index : ℕ}
    (hindex : index < 2 ^ stateDepth) :
    (buildStateTreeAndExtract leaves index).2 =
      siblingPath P.sha256Pair stateDepth leaves index := by
  have hlevel : ∀ {level : ℕ}, level ≤ stateDepth →
      (parents P.sha256Pair)^[level] ((List.range (2 ^ stateDepth)).map leaves) =
        (List.range (2 ^ (stateDepth - level))).map (nodeAt P.sha256Pair leaves level) :=
    fun h => parents_iterate h
  -- from a level on, the extraction follows the path of the tree
  have hpath : ∀ n level, level + n = stateDepth →
      stateSiblings (List.iterate (parents P.sha256Pair)
        ((parents P.sha256Pair)^[level] ((List.range (2 ^ stateDepth)).map leaves)) n)
        (index / 2 ^ level) =
      siblingPath P.sha256Pair n (nodeAt P.sha256Pair leaves level) (index / 2 ^ level) := by
    intro n
    induction n with
    | zero => intro _ _; rfl
    | succ n ih =>
        intro level hn
        have hlt : index / 2 ^ level < 2 ^ (n + 1) := by
          apply Nat.div_lt_of_lt_mul
          rwa [← pow_add, hn]
        have hrest := ih (level + 1) (by omega)
        rw [Function.iterate_succ_apply', pow_succ, ← Nat.div_div_eq_div_mul, nodeAt_succ] at hrest
        rw [List.iterate, stateSiblings, siblingPath, hrest, tile,
          Nat.mod_eq_of_lt (siblingOf_lt hlt), hlevel (by omega), List.getD_eq_getElem?_getD,
          List.getElem?_map, List.getElem?_range]
        · rfl
        · rw [show stateDepth - level = n + 1 by omega]
          exact siblingOf_lt hlt
  have htake : (List.iterate (parents P.sha256Pair) ((List.range (2 ^ stateDepth)).map leaves)
      (stateDepth + 1)).take stateDepth =
        List.iterate (parents P.sha256Pair) ((List.range (2 ^ stateDepth)).map leaves)
          stateDepth := List.take_iterate ..
  have hall := hpath stateDepth 0 (Nat.zero_add _)
  rw [pow_zero, Nat.div_one, Function.iterate_zero_apply, nodeAt_zero] at hall
  rw [buildStateTreeAndExtract, htake, hall]

theorem buildStateTreeAndExtract_eq (leaves : ℕ → P.Bytes32) {index : ℕ}
    (hindex : index < 2 ^ stateDepth) :
    buildStateTreeAndExtract leaves index =
      (root P.sha256Pair stateDepth leaves, siblingPath P.sha256Pair stateDepth leaves index) :=
  Prod.ext (buildStateTreeAndExtract_root leaves index)
    (buildStateTreeAndExtract_siblings leaves hindex)

/-- **What is extracted opens**: the leaf climbs its siblings to the root. -/
theorem buildStateTreeAndExtract_opens (leaves : ℕ → P.Bytes32) {index : ℕ}
    (hindex : index < 2 ^ stateDepth) {stateRoot : P.Bytes32} {siblings : List P.Bytes32}
    (h : buildStateTreeAndExtract leaves index = (stateRoot, siblings)) :
    computeSszMerkleRoot P (leaves index) index siblings = stateRoot := by
  have hroot : root P.sha256Pair stateDepth leaves = stateRoot := by
    rw [← buildStateTreeAndExtract_root leaves index, h]
  have hsiblings : siblingPath P.sha256Pair stateDepth leaves index = siblings := by
    rw [← buildStateTreeAndExtract_siblings leaves hindex, h]
  have hclimb : computeRoot P.sha256Pair (tile stateDepth leaves index) index _ = _ :=
    computeRoot_siblingPath stateDepth leaves index
  rw [tile, Nat.mod_eq_of_lt hindex] at hclimb
  rw [← hsiblings, ← hroot, computeSszMerkleRoot, hclimb]

theorem makeStateProof_opens {dataTreeRoot : P.Bytes32} {listLength : UInt64}
    {history : SlotHistory P} {stateRoot : P.Bytes32} {siblings : List P.Bytes32}
    (h : makeStateProof dataTreeRoot listLength history = (stateRoot, siblings)) :
    computeSszMerkleRoot P (listHashTreeRoot P dataTreeRoot listLength)
      beaconStateValidatorsFieldIndex siblings = stateRoot :=
  buildStateTreeAndExtract_opens _ (by decide) h

end Zkasper
