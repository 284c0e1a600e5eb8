import Zkasper.WitnessGen.Openings
import Zkasper.WitnessGen.ProvableDiff

/-! # Multi-proofs past the stored leaves

Both sparse trees of the host store a power of two of leaves and take a zero hash for every
node above them. That is right as long as the path from the stored leaves is known: as long
as one of the opened leaves is a stored one. Otherwise the node over all that is stored has
to be handed out, and a zero hash is handed out in its place. So the circuit arrives at the
root of a tree with nothing in it (`accepted_iff`). -/

namespace Zkasper

open Merkle PerfectTree Ssz

/-! ## Any dense prefix -/

section Dense

variable {T : Type} {compress : T → T → T} {zero : T} {depth dense : ℕ}
  {levels : List (List T)} {zeroHashes : List T} {t : ℕ → T} {ks : List ℕ}

/-- **The scan over a dense prefix opens the root exactly if one of the leaves is stored**, or
there is nothing in the tree. -/
theorem accepted_iff (hc : Function.Injective2 compress)
    (h : Dense compress zero depth dense levels zeroHashes t) (hne : ks ≠ [])
    (hlt : ks.Pairwise (· < ·)) (hks : ∀ k ∈ ks, k < 2 ^ depth) :
    batchRoot compress (ks.map fun k => (t k, k))
        (multiProof (fun level i => if level < dense then
          ((levels.getD level [])[i]?).getD (zeroHashes.getD level zero)
          else zeroHashes.getD level zero) depth 0 ks) depth = .ok (root compress depth t) ↔
      (∃ k ∈ ks, k < 2 ^ dense) ∨ ∀ i, t i = zero := by
  by_cases hstored : ∃ k ∈ ks, k < 2 ^ dense
  · rw [multiProof_across (dense_serves h) hlt ⟨hks, .inr hstored⟩]
    exact iff_of_true (batchRoot_canonical hne hlt hks) (.inl hstored)
  · simp only [not_exists, not_and, not_lt] at hstored
    have hempty : (ks.map fun k => (t k, k)) = ks.map fun k => (zero, k) := by
      apply List.map_congr_left
      intro k hk
      rw [h.empty k (hstored k hk)]
    have hbeyond : ∀ level < depth, ∀ i, dense ≤ level ∨ 2 ^ (dense - level) ≤ i →
        (if level < dense then ((levels.getD level [])[i]?).getD (zeroHashes.getD level zero)
          else zeroHashes.getD level zero) = nodeAt compress (fun _ => zero) level i := by
      intro level hlevel i hi
      rw [nodeAt_of_const fun _ _ => rfl, ← h.zeroHashes level hlevel.le]
      split
      · next hbelow =>
          rw [h.levels level hbelow.le, List.getElem?_eq_none]
          · rfl
          · rw [List.length_map, List.length_range]
            omega
      · rfl
    rw [hempty, multiProof_beyond hbeyond hlt ⟨hks, fun _ => hstored⟩,
      batchRoot_canonical (t := fun _ => zero) hne hlt hks, Except.ok.injEq]
    constructor
    · intro hroot
      right
      intro i
      by_cases hi : i < 2 ^ depth
      · exact (root_injective hc hroot i hi).symm
      · exact h.empty i ((Nat.pow_le_pow_right (by omega) h.dense_le).trans (not_lt.mp hi))
    · rintro (⟨k, hk, hlt⟩ | hzero)
      · exact absurd hlt (not_lt.mpr (hstored k hk))
      · exact congrArg (root compress depth) (funext fun i => (hzero i).symm)

end Dense

variable {P : Primitives}

/-! ## The accumulator and the committees -/

/-- **Host multi-proofs in the circuit**: those of the accumulator tree open its root exactly
if one of the leaves is stored, or nothing is in the tree; those of the committee tree
always do. -/
theorem multiProofs_accepted_iff (hP : CollisionFree P) :
    (∀ (tree : AccTree P) (t : ℕ → P.Digest) (indices : List ℕ), tree.Holds t → indices ≠ [] →
      (∀ k ∈ indices, k < 2 ^ tree.depth) →
        (batchRoot P.compress
            ((indices.dedup.insertionSort (· ≤ ·)).map fun k => (t k, k))
            (tree.buildMultiProof indices) tree.depth = .ok tree.root ↔
          (∃ k ∈ indices, k < 2 ^ tree.denseDepth) ∨ ∀ i, t i = P.zero)) ∧
    ∀ (responses : List CommitteeResponse) (validators : List ValidatorResponse) (tree : AccTree P)
        (slotsPerEpoch targetEpoch balanceEpoch totalActiveBalance : UInt64)
        (committees : EpochCommittees P) (slots : List UInt64),
      EpochCommittees.build responses validators tree slotsPerEpoch targetEpoch balanceEpoch
          totalActiveBalance = .ok committees →
        slots ≠ [] → slots.Pairwise (· < ·) → (∀ s ∈ slots, s.toNat < Committee.maxSlots) →
          batchRoot P.compress
              (slots.map fun s => (Committee.slotLeaf committees.aggregates s.toNat, s.toNat))
              (committees.multiProof slots) Committee.treeDepth = .ok committees.root := by
  constructor
  · intro tree t indices h hne hindices
    have haccepted := accepted_iff hP.compress h.dense (leafSet_ne_nil hne)
      (leafSet_pairwise indices) fun k hk => hindices k (mem_leafSet.mp hk)
    simp only [mem_leafSet] at haccepted
    rw [h.root_eq]
    exact haccepted
  · intro responses validators tree slotsPerEpoch targetEpoch balanceEpoch totalActiveBalance
      committees slots hbuild hne hlt hslots
    have h := EpochCommittees.build_ofRegistry hbuild
    have hpairwise : (slots.map UInt64.toNat).Pairwise (· < ·) :=
      hlt.map _ fun a b hab => UInt64.lt_iff_toNat_lt.mp hab
    have hbound : ∀ k ∈ slots.map UInt64.toNat, k < 2 ^ Committee.treeDepth := by
      intro k hk
      obtain ⟨s, hs, rfl⟩ := List.mem_map.mp hk
      exact hslots s hs
    have hnonempty : slots.map UInt64.toNat ≠ [] := by simpa using hne
    have hcanonical : batchRoot P.compress ((slots.map UInt64.toNat).map fun k =>
        (Committee.slotLeaf committees.aggregates k, k)) (canonicalAuxiliaries P.compress
          Committee.treeDepth (Committee.slotLeaf committees.aggregates)
          (slots.map UInt64.toNat)) Committee.treeDepth = .ok _ :=
      batchRoot_canonical hnonempty hpairwise hbound
    rw [List.map_map] at hcanonical
    rw [EpochCommittees.multiProof, multiProof_across h.serves hpairwise (.of_stored le_rfl hbound),
      h.root_eq]
    exact hcanonical

/-! ## The validators' SSZ tree -/

/-- The SSZ tree is built, what it reports is the root of the list at that depth, and the
circuit arrives at it from the leaves and the multi-proof. -/
def SszAccepted (roots : List P.Bytes32) (depth : ℕ) (indices : List ℕ) : Prop :=
  ∃ dataRoot auxiliaries, buildValidatorsSszTree roots depth indices = .ok (dataRoot, auxiliaries) ∧
    dataRoot = root P.sha256Pair depth (fun i => roots.getD i P.zeroChunk) ∧
    verifySszMultiProof P ((indices.dedup.insertionSort (· ≤ ·)).map fun k =>
      (roots.getD k P.zeroChunk, k)) auxiliaries depth = .ok dataRoot

/-- **The SSZ multi-proof in the circuit**: it is accepted exactly if the list fits and one of
the leaves is stored, or every root of the list is zero. -/
theorem sszAccepted_iff (hP : CollisionFree P) (roots : List P.Bytes32) (depth : ℕ)
    (indices : List ℕ) (hne : indices ≠ []) (hindices : ∀ k ∈ indices, k < 2 ^ depth) :
    SszAccepted roots depth indices ↔ roots.length ≤ 2 ^ depth ∧
      ((∃ k ∈ indices, k < 2 ^ max (Nat.clog 2 roots.length) 1) ∨ ∀ r ∈ roots, r = P.zeroChunk) := by
  by_cases hfits : roots.length ≤ 2 ^ depth
  · obtain ⟨levels, zeroHashes, hdense, hbuild⟩ := buildValidatorsSszTree_dense indices hfits
    have hbuilt : SszAccepted roots depth indices ↔ verifySszMultiProof P
        ((indices.dedup.insertionSort (· ≤ ·)).map fun k => (roots.getD k P.zeroChunk, k))
        (multiProof (getNodeHash levels zeroHashes (min (max (Nat.clog 2 roots.length) 1) depth))
          depth 0 (indices.dedup.insertionSort (· ≤ ·))) depth =
          .ok (root P.sha256Pair depth fun i => roots.getD i P.zeroChunk) := by
      constructor
      · rintro ⟨dataRoot, auxiliaries, hbuild', -, haccepted⟩
        obtain ⟨rfl, rfl⟩ := Prod.mk.inj (Except.ok.inj (hbuild.symm.trans hbuild'))
        exact haccepted
      · intro haccepted
        exact ⟨_, _, hbuild, rfl, haccepted⟩
    have haccepted := accepted_iff hP.sha256Pair hdense (leafSet_ne_nil hne)
      (leafSet_pairwise indices) fun k hk => hindices k (mem_leafSet.mp hk)
    simp only [mem_leafSet] at haccepted
    rw [hbuilt, and_iff_right hfits]
    refine haccepted.trans (or_congr ?_ ?_)
    · -- below the depth of the tree, either power of two is the bound
      apply exists_congr
      intro k
      apply and_congr_right
      intro hk
      rcases le_total (max (Nat.clog 2 roots.length) 1) depth with hle | hle
      · rw [min_eq_left hle]
      · rw [min_eq_right hle]
        exact iff_of_true (hindices k hk)
          ((hindices k hk).trans_le (Nat.pow_le_pow_right (by omega) hle))
    · constructor
      · intro hzero r hr
        obtain ⟨i, hi, rfl⟩ := List.getElem_of_mem hr
        have hget := hzero i
        rwa [List.getD_eq_getElem?_getD, List.getElem?_eq_getElem hi] at hget
      · intro hzero i
        rw [List.getD_eq_getElem?_getD]
        cases hget : roots[i]? with
        | none => rfl
        | some r => exact hzero r (List.mem_of_getElem? hget)
  · apply iff_of_false
    · rintro ⟨dataRoot, auxiliaries, hbuild, -⟩
      exact hfits (length_le_of_buildValidatorsSszTree hbuild)
    · rintro ⟨hlength, -⟩
      exact hfits hlength

/-! ## A third validator

Two validators in trees of four leaves, and a third one that joins: its leaf is the first that
is not stored. -/

open Formal

/-- Epoch 1 of 32 slots: two committees in slot 33, and one in slot 40. -/
def threeCommittees : List CommitteeResponse := [⟨33, 0, [2]⟩, ⟨33, 1, [0]⟩, ⟨40, 0, [1]⟩]

/-- Leaves 2 and 0, the first one named twice, open the accumulator of three validators, and
slots 1, 5 and 8 the committees of an epoch, the second of which has nobody in it. -/
theorem multiProofs_accepted_stored : ∃ (tree : AccTree (formal {}))
    (committees : EpochCommittees (formal {})),
    AccTree.build ((roster 3).map (·.data)) 0 3 = .ok tree ∧
    EpochCommittees.build threeCommittees (roster 3) tree 32 1 0 96 = .ok committees ∧
    batchRoot (formal {}).compress
      ((([2, 0, 2] : List ℕ).dedup.insertionSort (· ≤ ·)).map fun k =>
        (AccTree.paddedLeaves (formal {}) ((roster 3).map (·.data)) 0 3 k, k))
      (tree.buildMultiProof [2, 0, 2]) tree.depth = .ok tree.root ∧
    batchRoot (formal {}).compress
      (([1, 5, 8] : List UInt64).map fun s =>
        (Committee.slotLeaf committees.aggregates s.toNat, s.toNat))
      (committees.multiProof [1, 5, 8]) Committee.treeDepth = .ok committees.root := by
  obtain ⟨tree, htree, committees, hcommittees, -⟩ : ∃ tree : AccTree (formal {}),
      AccTree.build ((roster 3).map (·.data)) 0 3 = .ok tree ∧
        ∃ committees, EpochCommittees.build threeCommittees (roster 3) tree 32 1 0 96 =
          .ok committees ∧ True := by
    decide +kernel
  obtain ⟨hdepth, hdense, -, hholds⟩ := AccTree.build_padded htree
  obtain ⟨hleaves, hslots⟩ := multiProofs_accepted_iff (formal_collisionFree {})
  refine ⟨tree, committees, htree, hcommittees, ?_, ?_⟩
  · apply (hleaves tree _ [2, 0, 2] hholds (by decide) ?_).mpr
    · left
      refine ⟨2, by decide, ?_⟩
      rw [hdense]
      decide
    · rw [hdepth]
      decide
  · exact hslots threeCommittees (roster 3) tree 32 1 0 96 committees [1, 5, 8] hcommittees
      (by decide) (by decide) (by simp [Committee.maxSlots, Committee.treeDepth])

/-- **A leaf past the stored ones does not open the root**: the node over the two validators
is asked for, and is not what comes. -/
theorem multiProofs_not_accepted : ¬ ∀ (tree : AccTree (formal {})) (t : ℕ → (formal {}).Digest)
    (indices : List ℕ), tree.Holds t → indices ≠ [] → (∀ k ∈ indices, k < 2 ^ tree.depth) →
      batchRoot (formal {}).compress
        ((indices.dedup.insertionSort (· ≤ ·)).map fun k => (t k, k))
        (tree.buildMultiProof indices) tree.depth = .ok tree.root := by
  intro h
  obtain ⟨tree, htree, hdepth, hroot⟩ : ∃ tree : AccTree (formal {}),
      AccTree.build ((roster 2).map (·.data)) 0 2 = .ok tree ∧ 2 < 2 ^ tree.depth ∧
        batchRoot (formal {}).compress
          ((([2] : List ℕ).dedup.insertionSort (· ≤ ·)).map fun k =>
            (AccTree.paddedLeaves (formal {}) ((roster 2).map (·.data)) 0 2 k, k))
          (tree.buildMultiProof [2]) tree.depth ≠ .ok tree.root := by
    decide +kernel
  obtain ⟨-, -, -, hholds⟩ := AccTree.build_padded htree
  apply hroot
  apply h tree _ [2] hholds (by decide)
  intro k hk
  obtain rfl := List.mem_singleton.mp hk
  exact hdepth

/-- Both validators of a list of two are opened. -/
theorem sszAccepted_stored :
    SszAccepted (buildValidatorRoots (formal {}) (roster 2)) 2 [0, 1] := by
  apply (sszAccepted_iff (formal_collisionFree {}) _ _ _ (by decide) (by decide)).mpr
  exact ⟨by decide, .inl ⟨0, by decide, by decide⟩⟩

/-- **A registry that grows past its power of two**: the one mutation is the validator that
joined, and the old tree does not open there. -/
theorem sszAccepted_not_grown : ¬ ∀ (R1 R2 : List ValidatorResponse) (epoch1 epoch2 : UInt64)
    (depth : ℕ), Grows R1 R2 → R2.length ≤ 2 ^ depth → findMutations R1 R2 epoch1 epoch2 ≠ [] →
      SszAccepted (buildValidatorRoots (formal {}) R1) depth (findMutations R1 R2 epoch1 epoch2) := by
  intro h
  have haccepted := h (roster 2) (roster 3) 0 1 2 (roster_grows (by decide)) (by decide) (by decide)
  obtain ⟨dataRoot, auxiliaries, hbuild, -, hverify⟩ := haccepted
  have hroot : ∃ out, buildValidatorsSszTree (buildValidatorRoots (formal {}) (roster 2)) 2
      (findMutations (roster 2) (roster 3) 0 1) = .ok out ∧
        verifySszMultiProof (formal {})
          (((findMutations (roster 2) (roster 3) 0 1).dedup.insertionSort (· ≤ ·)).map fun k =>
            ((buildValidatorRoots (formal {}) (roster 2)).getD k (formal {}).zeroChunk, k))
          out.2 2 ≠ .ok out.1 := by
    decide +kernel
  obtain ⟨out, hout, hne⟩ := hroot
  obtain rfl := Except.ok.inj (hbuild.symm.trans hout)
  exact hne hverify

end Zkasper
