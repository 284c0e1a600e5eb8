import Zkasper.Accumulator
import Zkasper.Registry
import Mathlib.Data.List.Iterate
import Mathlib.Data.Nat.Log

/-! # Multi-proofs on the host

The prover's side of `batch_root`: the accumulator tree it keeps in memory, and the
scan that picks the auxiliaries of a multi-opening in the order the circuit takes
them. The committee tree runs the same scan over its own levels.

A host that serves the nodes of a perfect tree yields the canonical auxiliaries of an
ascending leaf set with a stored leaf in it (`multiProof_across`), which are the ones
`batch_root` accepts. The tree built over a registry does (`AccTree.build_holds`). -/

namespace Zkasper

open Merkle PerfectTree

/-! ## The scan -/

section Scan

variable {T : Type}

/-- One level of the scan: the siblings it takes, and the parents it leaves. An even
node whose right neighbour comes next needs no sibling. -/
def scanIndices (node : ℕ → T) : List ℕ → List T × List ℕ
  | [] => ([], [])
  | [k] => ([node (siblingOf k)], [k / 2])
  | k :: k' :: ks =>
      if k % 2 = 0 ∧ k' = k + 1 then
        let (auxiliaries, next) := scanIndices node ks
        (auxiliaries, k / 2 :: next)
      else
        let (auxiliaries, next) := scanIndices node (k' :: ks)
        (node (siblingOf k) :: auxiliaries, k / 2 :: next)

/-- The scan over `height` levels, from `level` up. -/
def multiProof (node : ℕ → ℕ → T) : (height level : ℕ) → List ℕ → List T
  | 0, _, _ => []
  | height + 1, level, idx =>
      let (auxiliaries, next) := scanIndices (node level) idx
      auxiliaries ++ multiProof node height (level + 1) next

/-- One level over ascending nodes: the missing children, and the parents. -/
theorem scanIndices_eq (node : ℕ → T) : ∀ {ks : List ℕ}, ks.Pairwise (· < ·) →
    scanIndices node ks = ((missingChildren ks).map node, parentsOf ks)
  | [], _ => rfl
  | [k], _ => by
      rw [missingChildren_cons (by simp), parentsOf_cons (by simp)]
      rfl
  | k :: k' :: ks, hlt => by
      obtain ⟨hk, hrest⟩ := List.pairwise_cons.mp hlt
      have hpast := (List.pairwise_cons.mp hrest).1
      by_cases hmerge : k % 2 = 0 ∧ k' = k + 1
      · obtain ⟨heven, rfl⟩ := hmerge
        rw [scanIndices, if_pos ⟨heven, rfl⟩, scanIndices_eq node hrest.of_cons,
          missingChildren_pair heven hpast, parentsOf_pair heven hpast]
      · -- the node is alone under its parent, so everything after it is in another pair
        have hkk' := hk k' List.mem_cons_self
        have hpair : ∀ j ∈ k' :: ks, k / 2 < j / 2 := by
          intro j hj
          rcases List.mem_cons.mp hj with rfl | hj
          · omega
          · have := hpast j hj
            omega
        rw [scanIndices, if_neg hmerge, scanIndices_eq node hrest, missingChildren_cons hpair,
          parentsOf_cons hpair]
        rfl

/-- The nodes a host hands out are those of the tree over `t`. Above the level `dense`
it does not keep node 0, the one it never has to hand out: every leaf is under it. -/
def Serves (compress : T → T → T) (node : ℕ → ℕ → T) (depth dense : ℕ) (t : ℕ → T) : Prop :=
  ∀ level < depth, ∀ i < 2 ^ (depth - level), i ≠ 0 ∨ level < dense →
    node level i = nodeAt compress t level i

/-- A missing child is the sibling of a node that is there. -/
theorem siblingOf_mem {c : ℕ} {ks : List ℕ} (hc : c ∈ missingChildren ks) :
    siblingOf c ∈ ks ∧ c / 2 ∈ parentsOf ks := by
  obtain ⟨j, hj, hcj⟩ := List.mem_flatMap.mp hc
  obtain ⟨hpair, hmissing⟩ := List.mem_filter.mp hcj
  obtain ⟨k, hk, rfl⟩ := mem_parentsOf.mp hj
  have hmissing : c ∉ ks := by simpa using hmissing
  have hne : k ≠ c := fun h => hmissing (h ▸ hk)
  have hsibling : siblingOf c = k ∧ c / 2 = k / 2 := by
    unfold siblingOf
    rcases List.mem_pair.mp hpair with rfl | rfl
    · rw [if_pos (by omega)]
      omega
    · rw [if_neg (by omega)]
      omega
  rw [hsibling.1, hsibling.2]
  exact ⟨hk, hj⟩

section Canonical

variable {compress : T → T → T} {node : ℕ → ℕ → T} {depth dense : ℕ} {t : ℕ → T}

/-- The auxiliaries are the canonical ones of whatever tree the nodes asked for are of. -/
theorem multiProof_eq_of {Inv : ℕ → List ℕ → Prop}
    (hup : ∀ level < depth, ∀ ks, Inv level ks → Inv (level + 1) (parentsOf ks))
    (hasked : ∀ level < depth, ∀ ks, Inv level ks → ∀ c ∈ missingChildren ks,
      node level c = nodeAt compress t level c) :
    ∀ {height level : ℕ} {ks : List ℕ}, level + height = depth → ks.Pairwise (· < ·) →
      Inv level ks → multiProof node height level ks =
        canonicalAuxiliaries compress height (nodeAt compress t level) ks := by
  intro height
  induction height with
  | zero => intro _ _ _ _ _; rfl
  | succ height ih =>
      intro level ks hlevel hlt hks
      have hbelow : level < depth := by omega
      rw [multiProof, scanIndices_eq _ hlt, canonicalAuxiliaries, ← nodeAt_succ]
      show (missingChildren ks).map (node level) ++ multiProof node height (level + 1) _ = _
      rw [List.map_congr_left (hasked level hbelow ks hks),
        ih (by omega) (parentsOf_pairwise hlt) (hup level hbelow ks hks)]

/-- Leaves below `2 ^ depth`, with one of the stored ones among them, if there are any. -/
def Across (depth dense level : ℕ) (ks : List ℕ) : Prop :=
  (∀ k ∈ ks, k < 2 ^ (depth - level)) ∧ (ks = [] ∨ ∃ k ∈ ks, k < 2 ^ (dense - level))

theorem Across.up {level : ℕ} {ks : List ℕ} (hlevel : level < depth)
    (h : Across depth dense level ks) : Across depth dense (level + 1) (parentsOf ks) := by
  refine ⟨fun j hj => ?_, ?_⟩
  · obtain ⟨k, hk, rfl⟩ := mem_parentsOf.mp hj
    apply half_lt_two_pow
    rw [show depth - (level + 1) + 1 = depth - level by omega]
    exact h.1 k hk
  · rcases h.2 with rfl | ⟨k, hk, hstored⟩
    · exact .inl rfl
    · right
      refine ⟨k / 2, mem_parentsOf.mpr ⟨k, hk, rfl⟩, ?_⟩
      by_cases hbelow : level < dense
      · apply half_lt_two_pow
        rwa [show dense - (level + 1) + 1 = dense - level by omega]
      · rw [show dense - level = 0 by omega] at hstored
        rw [show dense - (level + 1) = 0 by omega]
        omega

/-- A missing child of nodes of a level is a node of that level. -/
theorem missing_lt {level : ℕ} {ks : List ℕ} {c : ℕ} (hlevel : level < depth)
    (hks : ∀ k ∈ ks, k < 2 ^ (depth - level)) (hc : c ∈ missingChildren ks) :
    c < 2 ^ (depth - level) := by
  obtain ⟨hsibling, -⟩ := siblingOf_mem hc
  have hlt := hks _ hsibling
  rw [show depth - level = depth - (level + 1) + 1 by omega, pow_succ] at hlt ⊢
  unfold siblingOf at hlt
  split at hlt
  · omega
  · omega

/-- **The host's auxiliaries are the canonical ones**, as long as one of the leaves is
stored. -/
theorem multiProof_across (hserves : Serves compress node depth dense t) {ks : List ℕ}
    (hlt : ks.Pairwise (· < ·)) (hks : Across depth dense 0 ks) :
    multiProof node depth 0 ks = canonicalAuxiliaries compress depth t ks := by
  apply multiProof_eq_of (fun level hlevel ks (h : Across depth dense level ks) => h.up hlevel) ?_
    (Nat.zero_add depth) hlt hks
  rintro level hlevel ks ⟨hks, hstored⟩ c hc
  apply hserves level hlevel c (missing_lt hlevel hks hc)
  -- node 0 is only missing where node 1 is known and node 0 is not: below the dense root
  by_contra hno
  simp only [not_or, not_not, not_lt] at hno
  obtain ⟨rfl, hle⟩ := hno
  rcases hstored with rfl | ⟨k, hk, hstored⟩
  · cases hc
  · rw [show dense - level = 0 by omega] at hstored
    obtain rfl : k = 0 := by omega
    obtain ⟨j, hj, hcj⟩ := List.mem_flatMap.mp hc
    have hmissing := (List.mem_filter.mp hcj).2
    simp [hk] at hmissing

/-- Leaves below `2 ^ depth`, and none of the stored ones among them. -/
def Beyond (depth dense level : ℕ) (ks : List ℕ) : Prop :=
  (∀ k ∈ ks, k < 2 ^ (depth - level)) ∧ (level < dense → ∀ k ∈ ks, 2 ^ (dense - level) ≤ k)

theorem Beyond.up {level : ℕ} {ks : List ℕ} (hlevel : level < depth)
    (h : Beyond depth dense level ks) : Beyond depth dense (level + 1) (parentsOf ks) := by
  refine ⟨fun j hj => ?_, fun hbelow j hj => ?_⟩
  · obtain ⟨k, hk, rfl⟩ := mem_parentsOf.mp hj
    apply half_lt_two_pow
    rw [show depth - (level + 1) + 1 = depth - level by omega]
    exact h.1 k hk
  · obtain ⟨k, hk, rfl⟩ := mem_parentsOf.mp hj
    have hle := h.2 (by omega) k hk
    rw [show dense - level = dense - (level + 1) + 1 by omega, pow_succ] at hle
    omega

/-- **Past the stored leaves the host answers for another tree**, one that holds nothing
anywhere: the node over what is stored is not among the known ones, and it hands out a zero
hash in its place. -/
theorem multiProof_beyond {zero : T}
    (hserves : ∀ level < depth, ∀ i, dense ≤ level ∨ 2 ^ (dense - level) ≤ i →
      node level i = nodeAt compress (fun _ => zero) level i) {ks : List ℕ}
    (hlt : ks.Pairwise (· < ·)) (hks : Beyond depth dense 0 ks) :
    multiProof node depth 0 ks = canonicalAuxiliaries compress depth (fun _ => zero) ks := by
  apply multiProof_eq_of (fun level hlevel ks (h : Beyond depth dense level ks) => h.up hlevel) ?_
    (Nat.zero_add depth) hlt hks
  rintro level hlevel ks ⟨-, hks⟩ c hc
  apply hserves level hlevel c
  by_cases hbelow : level < dense
  · right
    obtain ⟨hsibling, -⟩ := siblingOf_mem hc
    have hle := hks hbelow _ hsibling
    -- the stored nodes of a level come in whole pairs
    rw [show dense - level = dense - (level + 1) + 1 by omega, pow_succ] at hle ⊢
    unfold siblingOf at hle
    split at hle
    · omega
    · omega
  · exact .inl (not_lt.mp hbelow)

/-- Leaves that are all stored are. -/
theorem Across.of_stored (hdense : dense ≤ depth) {ks : List ℕ} (hks : ∀ k ∈ ks, k < 2 ^ dense) :
    Across depth dense 0 ks := by
  refine ⟨fun k hk => (hks k hk).trans_le (Nat.pow_le_pow_right (by omega) hdense), ?_⟩
  cases ks with
  | nil => exact .inl rfl
  | cons k ks => exact .inr ⟨k, List.mem_cons_self, hks k List.mem_cons_self⟩

/-- A leaf set, however it is listed. -/
theorem leafSet_pairwise (indices : List ℕ) :
    (indices.dedup.insertionSort (· ≤ ·)).Pairwise (· < ·) := by
  have hle : (indices.dedup.insertionSort (· ≤ ·)).Pairwise (· ≤ ·) :=
    List.pairwise_insertionSort _ _
  have hne : (indices.dedup.insertionSort (· ≤ ·)).Nodup :=
    (List.perm_insertionSort _ _).nodup_iff.mpr (List.nodup_dedup _)
  exact (hle.and hne).imp fun ⟨hle, hne⟩ => lt_of_le_of_ne hle hne

theorem mem_leafSet {indices : List ℕ} {k : ℕ} :
    k ∈ indices.dedup.insertionSort (· ≤ ·) ↔ k ∈ indices := by
  rw [List.mem_insertionSort, List.mem_dedup]

theorem leafSet_ne_nil {indices : List ℕ} (h : indices ≠ []) :
    indices.dedup.insertionSort (· ≤ ·) ≠ [] := by
  obtain ⟨k, hk⟩ := List.exists_mem_of_ne_nil _ h
  exact List.ne_nil_of_mem (mem_leafSet.mpr hk)

end Canonical

end Scan

/-! ## The tree -/

/-- One level up: whole pairs are hashed, a last odd node is dropped. -/
def parents {T : Type} (compress : T → T → T) : List T → List T
  | left :: right :: nodes => compress left right :: parents compress nodes
  | _ => []

variable {P : Primitives}

/-- `pubkey::decompress`: a public key as the host reads it. -/
def Pubkey.decompress (P : Primitives) (compressed : BlsPubkey) : Option P.G1Point :=
  P.publicKeyFromBytes compressed

/-- The accumulator of a registry at an epoch, as the host reads its keys. -/
def hostContents (P : Primitives) (R : List ValidatorResponse) (epoch : UInt64) : Contents P :=
  contentsBy (Pubkey.decompress P) R epoch

/-- Sparse accumulator tree: only the levels up to `denseDepth` are stored, and the
rest of the full tree is zero hashes. -/
structure AccTree (P : Primitives) where
  depth : ℕ
  denseDepth : ℕ
  /-- Level 0 are the leaves, level `denseDepth` the dense root. -/
  levels : List (List P.Digest)
  zeroHashes : List P.Digest

namespace AccTree

/-- Zero hashes for the levels up to `depth`. -/
def computeZeroHashes (depth : ℕ) : List P.Digest :=
  List.iterate (fun zero => P.compress zero zero) P.zero (depth + 1)

/-- Build the tree from a list of validators at an epoch; only the dense portion is
allocated. -/
def build (validators : List ValidatorData) (epoch : UInt64) (depth : ℕ) :
    Except String (AccTree P) := do
  let denseDepth := min (max (Nat.clog 2 validators.length) 1) depth
  let leaves ← validators.mapM fun v => do
    let point ← Guest.expect (Pubkey.decompress P v.pubkey)
      "validator has an invalid public key"
    return P.leaf point (v.activeEffectiveBalance epoch)
  let resized := (leaves ++ List.replicate (2 ^ denseDepth) P.zero).take (2 ^ denseDepth)
  return {
    depth
    denseDepth
    levels := List.iterate (parents P.compress) resized (denseDepth + 1)
    zeroHashes := computeZeroHashes depth }

/-- The node at a level and index. -/
def getNode (tree : AccTree P) (level idx : ℕ) : P.Digest :=
  let zeroHash := tree.zeroHashes.getD level P.zero
  if level < tree.denseDepth then ((tree.levels.getD level [])[idx]?).getD zeroHash
  else zeroHash

/-- Current root hash at the full depth: the dense root, chained through zero hashes. -/
def root (tree : AccTree P) : P.Digest :=
  (List.range' tree.denseDepth (tree.depth - tree.denseDepth)).foldl
    (fun current d => P.compress current (tree.zeroHashes.getD d P.zero))
    ((tree.levels.getD tree.denseDepth []).getD 0 P.zero)

/-- Collect the auxiliary nodes a leaf set needs, in the order `batch_root` takes them. -/
def buildMultiProof (tree : AccTree P) (leafIndices : List ℕ) : List P.Digest :=
  multiProof tree.getNode tree.depth 0 (leafIndices.dedup.insertionSort (· ≤ ·))

/-! ## What it holds -/

end AccTree

/-- The levels over the leaves of a perfect tree. -/
theorem parents_iterate {T : Type} {compress : T → T → T} {t : ℕ → T} :
    ∀ {level d : ℕ}, level ≤ d →
      (parents compress)^[level] ((List.range (2 ^ d)).map t) =
        (List.range (2 ^ (d - level))).map (nodeAt compress t level) := by
  have hpairs : ∀ (t : ℕ → T) (n start : ℕ),
      parents compress ((List.range' (2 * start) (2 * n)).map t) =
        (List.range' start n).map (above compress t) := by
    intro t n
    induction n with
    | zero => intro start; rfl
    | succ n ih =>
        intro start
        have hrest := ih (start + 1)
        rw [show 2 * (n + 1) = 2 * n + 1 + 1 by omega, List.range'_succ, List.range'_succ,
          List.range'_succ, List.map_cons, List.map_cons, List.map_cons, parents]
        rw [show 2 * (start + 1) = 2 * start + 1 + 1 by omega] at hrest
        rw [hrest]
        rfl
  intro level
  induction level with
  | zero => intro d _; rfl
  | succ level ih =>
      intro d hle
      rw [Function.iterate_succ_apply', ih (by omega), nodeAt_succ,
        show d - level = (d - (level + 1)) + 1 by omega, pow_succ, Nat.mul_comm,
        List.range_eq_range', List.range_eq_range']
      exact hpairs _ _ 0

/-- **Levels hashed bottom-up are a dense prefix**: over as many leaves as a power of two, with
the padding value after them. -/
theorem dense_iterate {T : Type} {compress : T → T → T} {zero : T} {depth dense : ℕ}
    {leaves : List T} {t : ℕ → T} (hdense : dense ≤ depth)
    (hleaves : leaves = (List.range (2 ^ dense)).map t) (hempty : ∀ i, 2 ^ dense ≤ i → t i = zero) :
    Dense compress zero depth dense (List.iterate (parents compress) leaves (dense + 1))
      (List.iterate (fun zero => compress zero zero) zero (depth + 1)) t where
  dense_le := hdense
  levels := fun level hlevel => by
    rw [List.getD_eq_getElem?_getD, List.getElem?_iterate _ _ _ _ (Nat.lt_succ_of_le hlevel),
      hleaves]
    exact parents_iterate hlevel
  zeroHashes := fun level hlevel => by
    rw [List.getD_eq_getElem?_getD, List.getElem?_iterate _ _ _ _ (Nat.lt_succ_of_le hlevel)]
    rfl
  empty := hempty

/-- The dense levels are the least that have room for the leaves, and one at least. -/
theorem le_two_pow_dense {n depth : ℕ} (h : n ≤ 2 ^ depth) :
    n ≤ 2 ^ min (max (Nat.clog 2 n) 1) depth := by
  rcases le_total (max (Nat.clog 2 n) 1) depth with hle | hle
  · rw [min_eq_left hle]
    exact (Nat.le_pow_clog (by omega) _).trans
      (Nat.pow_le_pow_right (by omega) (le_max_left _ _))
  · rwa [min_eq_right hle]

/-- The levels over any leaves there is room for, padded to a power of two. -/
theorem dense_padded {T : Type} {compress : T → T → T} {zero : T} {depth dense : ℕ}
    {leaves : List T} (hdense : dense ≤ depth) (hroom : leaves.length ≤ 2 ^ dense) :
    Dense compress zero depth dense
      (List.iterate (parents compress)
        (leaves ++ List.replicate (2 ^ dense - leaves.length) zero) (dense + 1))
      (List.iterate (fun zero => compress zero zero) zero (depth + 1))
      (fun i => leaves.getD i zero) := by
  have hleaves : leaves ++ List.replicate (2 ^ dense - leaves.length) zero =
      (List.range (2 ^ dense)).map fun i => leaves.getD i zero := by
    apply List.ext_getElem?
    intro i
    by_cases hi : i < 2 ^ dense
    · rw [List.getElem?_map, List.getElem?_range hi, Option.map_some, List.getD_eq_getElem?_getD]
      by_cases hin : i < leaves.length
      · rw [List.getElem?_append_left (by omega), List.getElem?_eq_getElem (by omega)]
        rfl
      · rw [List.getElem?_append_right (by omega), List.getElem?_replicate, if_pos (by omega),
          List.getElem?_eq_none (by omega)]
        rfl
    · rw [List.getElem?_eq_none (by simp; omega), List.getElem?_eq_none (by simpa using hi)]
  apply dense_iterate hdense hleaves
  intro i hi
  rw [List.getD_eq_getElem?_getD, List.getElem?_eq_none (by omega)]
  rfl

/-- What is looked up in a dense prefix, and taken to be a zero hash where it is not stored. -/
theorem dense_serves {T : Type} {compress : T → T → T} {zero : T} {depth dense : ℕ}
    {levels : List (List T)} {zeroHashes : List T} {t : ℕ → T}
    (h : Dense compress zero depth dense levels zeroHashes t) : Serves compress
      (fun level i => if level < dense then
        ((levels.getD level [])[i]?).getD (zeroHashes.getD level zero)
      else zeroHashes.getD level zero) depth dense t :=
  fun _ hlevel _ _ hkept => h.node_eq hlevel.le hkept

namespace AccTree

/-- **The tree holds some leaves**: its dense levels are those of the perfect tree over
them, and beyond the dense levels there is nothing. -/
structure Holds (tree : AccTree P) (t : ℕ → P.Digest) : Prop where
  dense_le : tree.denseDepth ≤ tree.depth
  levels : ∀ level ≤ tree.denseDepth, tree.levels.getD level [] =
    (List.range (2 ^ (tree.denseDepth - level))).map (nodeAt P.compress t level)
  zeroHashes : tree.zeroHashes = computeZeroHashes tree.depth
  empty : ∀ i, 2 ^ tree.denseDepth ≤ i → t i = P.zero

theorem computeZeroHashes_getD {depth level : ℕ} (h : level ≤ depth) :
    (computeZeroHashes depth).getD level P.zero =
      (fun zero => P.compress zero zero)^[level] P.zero := by
  rw [List.getD_eq_getElem?_getD, computeZeroHashes, List.getElem?_iterate _ _ _ _ (by omega)]
  rfl

namespace Holds

variable {tree : AccTree P} {t : ℕ → P.Digest}

/-- The tree keeps a dense prefix of the full tree over what it holds. -/
theorem dense (h : tree.Holds t) :
    Dense P.compress P.zero tree.depth tree.denseDepth tree.levels tree.zeroHashes t where
  dense_le := h.dense_le
  levels := h.levels
  zeroHashes := fun level hlevel => by rw [h.zeroHashes, computeZeroHashes_getD hlevel]
  empty := h.empty

theorem serves (h : tree.Holds t) :
    Serves P.compress tree.getNode tree.depth tree.denseDepth t :=
  dense_serves h.dense

/-- The root of the tree is the accumulator root of what it holds. -/
theorem root_eq (h : tree.Holds t) : tree.root = PerfectTree.root P.compress tree.depth t :=
  h.dense.root_eq

end Holds

/-! ## What it is built to hold -/

/-- The leaves of the full tree over a validator list: those of as many validators as it has
room for, and `ZERO` after them. -/
def paddedLeaves (P : Primitives) (validators : List ValidatorData) (epoch : UInt64)
    (depth i : ℕ) : P.Digest :=
  match (validators.take (2 ^ depth))[i]? with
  | some v =>
      match Pubkey.decompress P v.pubkey with
      | some point => P.leaf point (v.activeEffectiveBalance epoch)
      | none => P.zero
  | none => P.zero

theorem paddedLeaves_of_some {validators : List ValidatorData} {epoch : UInt64} {depth i : ℕ}
    {v : ValidatorData} {point : P.G1Point} (hi : i < 2 ^ depth) (h : validators[i]? = some v)
    (hpoint : Pubkey.decompress P v.pubkey = some point) :
    paddedLeaves P validators epoch depth i = P.leaf point (v.activeEffectiveBalance epoch) := by
  rw [paddedLeaves, List.getElem?_take_of_lt hi, h]
  show (match Pubkey.decompress P v.pubkey with
    | some point => P.leaf point (v.activeEffectiveBalance epoch)
    | none => P.zero) = _
  rw [hpoint]

theorem paddedLeaves_of_none {validators : List ValidatorData} {epoch : UInt64} {depth i : ℕ}
    (h : validators.length ≤ i ∨ 2 ^ depth ≤ i) :
    paddedLeaves P validators epoch depth i = P.zero := by
  rw [paddedLeaves, List.getElem?_eq_none]
  rw [List.length_take]
  omega

/-- **What a build leaves**: the dense levels of the full tree over the validators, as many of
them as the power of two their number was rounded up to. -/
theorem build_padded {validators : List ValidatorData} {epoch : UInt64} {depth : ℕ}
    {tree : AccTree P} (h : build validators epoch depth = .ok tree) :
    tree.depth = depth ∧ tree.denseDepth = min (max (Nat.clog 2 validators.length) 1) depth ∧
      tree.levels.length = tree.denseDepth + 1 ∧
      tree.Holds (paddedLeaves P validators epoch depth) := by
  simp only [build, Guest.bind_eq_ok, Guest.pure_eq_ok] at h
  obtain ⟨leaves, hleaves, rfl⟩ := h
  set dense := min (max (Nat.clog 2 validators.length) 1) depth with hdense
  -- the dense levels have room for every validator, or for as many as the full tree has
  have hroom : validators.length ≤ 2 ^ dense ∨ dense = depth := by
    rcases le_total (max (Nat.clog 2 validators.length) 1) depth with hle | hle
    · left
      rw [hdense, min_eq_left hle]
      exact (Nat.le_pow_clog (by omega) _).trans
        (Nat.pow_le_pow_right (by omega) (le_max_left _ _))
    · right
      rw [hdense, min_eq_right hle]
  have hempty : ∀ i, 2 ^ dense ≤ i → paddedLeaves P validators epoch depth i = P.zero := by
    intro i hi
    apply paddedLeaves_of_none
    rcases hroom with hroom | hroom
    · exact .inl (by omega)
    · exact .inr (hroom ▸ hi)
  have hresized : (leaves ++ List.replicate (2 ^ dense) P.zero).take (2 ^ dense) =
      (List.range (2 ^ dense)).map (paddedLeaves P validators epoch depth) := by
    have hcount : leaves.length = validators.length := by
      simpa using (congrArg List.length (Guest.mapM_eq_ok.mp hleaves)).symm
    apply List.ext_getElem?
    intro i
    by_cases hi : i < 2 ^ dense
    · have hdepth : i < 2 ^ depth :=
        hi.trans_le (Nat.pow_le_pow_right (by omega) (min_le_right _ _))
      rw [List.getElem?_take_of_lt hi, List.getElem?_map, List.getElem?_range hi]
      show _ = some (paddedLeaves P validators epoch depth i)
      by_cases hin : i < validators.length
      · have himage := congrArg (·[i]?) (Guest.mapM_eq_ok.mp hleaves)
        simp only [List.getElem?_map, List.getElem?_eq_getElem hin,
          List.getElem?_eq_getElem (hcount ▸ hin), Option.map_some, Option.some.injEq,
          Guest.bind_eq_ok, Guest.expect_eq_ok, Guest.pure_eq_ok] at himage
        obtain ⟨point, hpoint, hleaf⟩ := himage
        rw [List.getElem?_append_left (by omega), List.getElem?_eq_getElem (hcount ▸ hin), ← hleaf,
          paddedLeaves_of_some hdepth (List.getElem?_eq_getElem hin) hpoint]
      · rw [List.getElem?_append_right (by omega), List.getElem?_replicate, if_pos (by omega),
          paddedLeaves_of_none (.inl (not_lt.mp hin))]
    · rw [List.getElem?_take_eq_none (by omega), List.getElem?_eq_none (by simpa using hi)]
  have hdenseTree : Dense P.compress P.zero depth dense _ _ _ :=
    dense_iterate (min_le_right _ _) hresized hempty
  exact ⟨rfl, rfl, by simp, hdenseTree.dense_le, hdenseTree.levels, rfl, hempty⟩

/-- A registry's leaves are its accumulator's, where every key is a key. -/
theorem paddedLeaves_registry {validators : List ValidatorResponse} {epoch : UInt64} {depth : ℕ}
    (hfits : validators.length ≤ 2 ^ depth) :
    paddedLeaves P (validators.map (·.data)) epoch depth =
      (hostContents P validators epoch).digest := by
  funext i
  rw [paddedLeaves, List.take_of_length_le (by simpa using hfits), List.getElem?_map]
  unfold Contents.digest hostContents contentsBy
  rcases validators[i]? with _ | v
  · rfl
  · show (match Pubkey.decompress P v.pubkey with
      | some point => P.leaf point (v.data.activeEffectiveBalance epoch)
      | none => P.zero) = _
    rcases hkey : Pubkey.decompress P v.pubkey with _ | point <;> simp [hkey]

/-- **A tree built over a registry holds its accumulator.** -/
theorem build_holds {validators : List ValidatorResponse} {epoch : UInt64} {depth : ℕ}
    {tree : AccTree P} (hfits : validators.length ≤ 2 ^ depth)
    (h : build (validators.map (·.data)) epoch depth = .ok tree) :
    tree.depth = depth ∧ validators.length ≤ 2 ^ tree.denseDepth ∧
      tree.Holds (hostContents P validators epoch).digest := by
  obtain ⟨rfl, hdense, -, hholds⟩ := build_padded h
  refine ⟨rfl, ?_, paddedLeaves_registry hfits ▸ hholds⟩
  rw [hdense, List.length_map]
  rcases le_total (max (Nat.clog 2 validators.length) 1) tree.depth with hle | hle
  · rw [min_eq_left hle]
    exact (Nat.le_pow_clog (by omega) _).trans
      (Nat.pow_le_pow_right (by omega) (le_max_left _ _))
  · rwa [min_eq_right hle]

end AccTree
end Zkasper
