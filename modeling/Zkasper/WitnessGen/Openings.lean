import Zkasper.Slot
import Zkasper.WitnessGen.Committees

/-! # What the host's openings open

The circuit opens everyone a slot names against the accumulator, and the slot's
aggregate against the committee tree. Out of trees that hold what they should, the
host's auxiliaries carry both openings to the root. -/

namespace Zkasper

open Slot Merkle PerfectTree

variable {P : Primitives}

/-! ## The accumulator -/

/-- Indices in strictly ascending order pass the distinctness check. -/
theorem checkDistinct_ok : ∀ {opened : List (P.Digest × ℕ)},
    (opened.map Prod.snd).Pairwise (· < ·) → checkDistinct opened = .ok ()
  | [], _ => rfl
  | [_], _ => rfl
  | a :: b :: opened, h => by
      rw [List.map_cons] at h
      obtain ⟨hlt, hrest⟩ := List.pairwise_cons.mp h
      have hab : a.2 < b.2 := hlt _ List.mem_cons_self
      rw [checkDistinct, Guest.bind_eq_ok]
      exact ⟨(), Guest.assert_eq_ok.mpr hab, checkDistinct_ok hrest⟩

/-- Lists with the same numbers, each once, are sorted alike. -/
theorem insertionSort_eq {xs ys : List ℕ} (hxs : xs.Nodup) (hys : ys.Nodup)
    (h : ∀ k, k ∈ xs ↔ k ∈ ys) : xs.insertionSort (· ≤ ·) = ys.insertionSort (· ≤ ·) := by
  have hperm : xs.Perm ys := (List.perm_ext_iff_of_nodup hxs hys).mpr h
  apply List.Perm.eq_of_pairwise' (List.pairwise_insertionSort _ _) (List.pairwise_insertionSort _ _)
  exact (List.perm_insertionSort _ _).trans (hperm.trans (List.perm_insertionSort _ _).symm)

/-- **Whoever is named is opened**: each once, as the leaf the tree holds for them. -/
theorem AccTree.Holds.openNamed {tree : AccTree P} {t : ℕ → P.Digest} (h : tree.Holds t)
    {named : List (OpenedValidator P)} {indices : List ℕ}
    (hleaf : ∀ v ∈ named, P.leaf v.pubkey v.activeEffectiveBalance = t v.validatorIndex.toNat)
    (hnodup : (named.map (·.validatorIndex)).Nodup)
    (hin : ∀ v ∈ named, v.validatorIndex.toNat < 2 ^ tree.denseDepth)
    (hindices : ∀ k, k ∈ indices ↔ ∃ v ∈ named, v.validatorIndex.toNat = k) :
    Slot.openNamed (named.map openedLeaf) tree.root (tree.buildMultiProof indices) tree.depth =
      .ok () := by
  set ks := (named.map (·.validatorIndex.toNat)).insertionSort (· ≤ ·) with hks
  have hnodup' : (named.map (·.validatorIndex.toNat)).Nodup := by
    have hmap := hnodup.map fun _ _ => UInt64.toNat_inj.mp
    rwa [List.map_map] at hmap
  have hsorted : indices.dedup.insertionSort (· ≤ ·) = ks := by
    apply insertionSort_eq (List.nodup_dedup _) hnodup'
    intro k
    rw [List.mem_dedup, hindices, List.mem_map]
  have hlt : ks.Pairwise (· < ·) := by
    have hle : ks.Pairwise (· ≤ ·) := List.pairwise_insertionSort _ _
    have hne : ks.Nodup := (List.perm_insertionSort _ _).nodup_iff.mpr hnodup'
    exact (hle.and hne).imp fun ⟨hle, hne⟩ => lt_of_le_of_ne hle hne
  have hbound : ∀ k ∈ ks, k < 2 ^ tree.denseDepth := by
    intro k hk
    obtain ⟨v, hv, rfl⟩ := List.mem_map.mp ((List.mem_insertionSort _).mp hk)
    exact hin v hv
  have hleaves : (named.map openedLeaf).insertionSort (fun a b => a.2 ≤ b.2) =
      ks.map fun k => (t k, k) := by
    have hmap : named.map openedLeaf = (named.map (·.validatorIndex.toNat)).map fun k => (t k, k) := by
      rw [List.map_map]
      apply List.map_congr_left
      intro v hv
      exact Prod.ext (hleaf v hv) rfl
    rw [hmap, hks]
    exact (List.map_insertionSort (· ≤ ·) (fun a b => a.2 ≤ b.2) (fun k => (t k, k)) _
      fun _ _ _ _ => Iff.rfl).symm
  have hdistinct : checkDistinct (ks.map fun k => (t k, k)) = .ok () := by
    apply checkDistinct_ok
    rwa [List.map_map, show Prod.snd ∘ (fun k => (t k, k)) = id from rfl, List.map_id]
  rw [Slot.openNamed, hleaves, Guest.bind_eq_ok]
  refine ⟨(), hdistinct, ?_⟩
  rw [AccTree.buildMultiProof, hsorted,
    multiProof_across h.serves hlt (.of_stored h.dense_le hbound)]
  by_cases hnil : ks = []
  · -- with nobody named the host sends no auxiliaries
    rw [hnil, if_neg (by simp)]
    have hnone : ∀ (d : ℕ) (t : ℕ → P.Digest), canonicalAuxiliaries P.compress d t [] = [] := by
      intro d
      induction d with
      | zero => intro _; rfl
      | succ d ih => intro t; exact ih _
    exact Guest.assert_eq_ok.mpr (hnone _ _)
  · rw [if_pos (by simpa using hnil), Guest.bind_eq_ok]
    refine ⟨_, batchRoot_canonical hnil hlt fun k hk => ?_, Guest.assert_eq_ok.mpr h.root_eq.symm⟩
    exact (hbound k hk).trans_le (Nat.pow_le_pow_right (by omega) h.dense_le)

/-! ## The committee tree -/

namespace EpochCommittees

variable {validators : List ValidatorResponse} {slotsPerEpoch balanceEpoch : UInt64}
  {committees : EpochCommittees P}

theorem OfRegistry.levels_getD (h : committees.OfRegistry validators slotsPerEpoch balanceEpoch)
    {level : ℕ} (hlevel : level ≤ Committee.treeDepth) :
    committees.levels.getD level [] = (List.range (2 ^ (Committee.treeDepth - level))).map
      (nodeAt P.compress (Committee.slotLeaf committees.aggregates) level) := by
  have hleaves : committees.aggregates.map (fun slot => slot.elim P.zero Committee.leaf) =
      (List.range (2 ^ Committee.treeDepth)).map (Committee.slotLeaf committees.aggregates) := by
    apply List.ext_getElem?
    intro s
    rw [List.getElem?_map, List.getElem?_map]
    have hlength : committees.aggregates.length = 2 ^ Committee.treeDepth := by
      rw [h.aggregates, List.length_map, List.length_range]
      rfl
    by_cases hs : s < 2 ^ Committee.treeDepth
    · have hget : committees.aggregates[s]? = some committees.aggregates[s] :=
        List.getElem?_eq_getElem (hlength ▸ hs)
      rw [List.getElem?_range hs, hget, Option.map_some, Option.map_some, Committee.slotLeaf, hget]
      cases committees.aggregates[s] <;> rfl
    · rw [List.getElem?_eq_none (by omega), List.getElem?_eq_none (by simpa using hs)]
      rfl
  rw [List.getD_eq_getElem?_getD, h.levels, hleaves,
    List.getElem?_iterate _ _ _ _ (Nat.lt_succ_of_le hlevel)]
  exact parents_iterate hlevel

theorem OfRegistry.node_eq (h : committees.OfRegistry validators slotsPerEpoch balanceEpoch)
    {level i : ℕ} (hlevel : level ≤ Committee.treeDepth)
    (hi : i < 2 ^ (Committee.treeDepth - level)) :
    committees.node level i =
      nodeAt P.compress (Committee.slotLeaf committees.aggregates) level i := by
  rw [node, h.levels_getD hlevel, List.getElem?_map, List.getElem?_range hi]
  rfl

theorem OfRegistry.serves (h : committees.OfRegistry validators slotsPerEpoch balanceEpoch) :
    Serves P.compress committees.node Committee.treeDepth Committee.treeDepth
      (Committee.slotLeaf committees.aggregates) :=
  fun _ hlevel _ hi _ => h.node_eq hlevel.le hi

theorem OfRegistry.root_eq (h : committees.OfRegistry validators slotsPerEpoch balanceEpoch) :
    committees.root = PerfectTree.root P.compress Committee.treeDepth
      (Committee.slotLeaf committees.aggregates) := by
  rw [root_eq_nodeAt]
  exact h.node_eq le_rfl (by simp)

/-- **A slot's aggregate is opened** as the leaf the committee tree holds for it. -/
theorem OfRegistry.openCommittees (h : committees.OfRegistry validators slotsPerEpoch balanceEpoch)
    {slotInEpoch : UInt64} {aggregate : CommitteeAggregate P}
    (haggregate : committees.aggregate slotInEpoch = some aggregate) :
    slotInEpoch.toNat < Committee.maxSlots ∧
      Slot.openCommittees [(Committee.leaf aggregate, slotInEpoch.toNat)] committees.root
        (committees.multiProof [slotInEpoch]) = .ok () := by
  have hlt : slotInEpoch.toNat < Committee.maxSlots := by
    by_contra hge
    rw [EpochCommittees.aggregate, h.aggregates,
      List.getElem?_eq_none (by simpa using hge)] at haggregate
    cases haggregate
  have hleaf : Committee.slotLeaf committees.aggregates slotInEpoch.toNat =
      Committee.leaf aggregate := by
    rw [Committee.slotLeaf, show committees.aggregates[slotInEpoch.toNat]?.join = some aggregate
      from haggregate]
  have hone : ∀ k ∈ [slotInEpoch.toNat], k < 2 ^ Committee.treeDepth := by
    intro k hk
    obtain rfl := List.mem_singleton.mp hk
    exact hlt
  refine ⟨hlt, ?_⟩
  rw [Slot.openCommittees, EpochCommittees.multiProof, List.map_singleton,
    multiProof_across h.serves (List.pairwise_singleton _ _) (.of_stored le_rfl hone),
    Guest.bind_eq_ok]
  refine ⟨_, ?_, Guest.assert_eq_ok.mpr h.root_eq.symm⟩
  rw [← hleaf, ← List.map_singleton]
  exact batchRoot_canonical (t := Committee.slotLeaf committees.aggregates) (by simp)
    (List.pairwise_singleton _ _) hone

end EpochCommittees
end Zkasper
