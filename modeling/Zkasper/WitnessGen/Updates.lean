import Zkasper.WitnessGen.AccTree
import Zkasper.EpochDiff

/-! # Updating the accumulator tree

The host carries its tree from epoch to epoch by writing one leaf at a time, and hands
the circuit the siblings of each leaf from before the write. Over the leaves it was
built for the tree goes on as the full tree does (`Keeps.updateLeaf`).

It never grows. A leaf past the power of two its validators were rounded up to lies
in the full tree, and the zero hashes above the dense root stand for it, but it has
no place in the levels: the look-up of its sibling stops the run. So the tree is the
full one along a list of updates exactly if none of them is past that power of two
(`tracks_iff`). -/

namespace Zkasper

open Merkle PerfectTree

variable {P : Primitives}

/-- `xs[i]`, which stops the run past the end. -/
def Guest.index {α : Type} (xs : List α) (i : ℕ) : Guest α :=
  Guest.expect xs[i]? s!"index out of bounds: the len is {xs.length} but the index is {i}"

/-- `xs[i] = a`. -/
def Guest.setIndex {α : Type} (xs : List α) (i : ℕ) (a : α) : Guest (List α) := do
  Guest.assert (i < xs.length)
    s!"index out of bounds: the len is {xs.length} but the index is {i}"
  return xs.set i a

namespace Guest

variable {α : Type} {xs ys : List α} {i : ℕ} {a : α}

@[simp] theorem index_eq_ok : index xs i = .ok a ↔ xs[i]? = some a := expect_eq_ok

@[simp] theorem setIndex_eq_ok : setIndex xs i a = .ok ys ↔ i < xs.length ∧ xs.set i a = ys := by
  rw [setIndex, bind_eq_ok]
  simp

end Guest

/-- Rows of two functions that differ in one place: writing there turns one into the other. -/
theorem map_range_set {T : Type} {f g : ℕ → T} {n j : ℕ} (h : ∀ i, i ≠ j → g i = f i) :
    ((List.range n).map f).set j (g j) = (List.range n).map g := by
  apply List.ext_getElem?
  intro i
  rw [List.getElem?_set, List.getElem?_map, List.getElem?_map, List.length_map, List.length_range]
  by_cases hij : j = i
  · subst hij
    by_cases hj : j < n
    · rw [if_pos rfl, if_pos hj, List.getElem?_range hj]
      rfl
    · rw [if_pos rfl, if_neg hj, List.getElem?_eq_none (by simpa using hj)]
      rfl
  · rw [if_neg hij]
    by_cases hi : i < n
    · rw [List.getElem?_range hi, Option.map_some, Option.map_some, h i (Ne.symm hij)]
    · rw [List.getElem?_eq_none (by simpa using hi)]
      rfl

namespace AccTree

/-! ## The operations -/

/-- The siblings a path takes from the dense levels. -/
def denseSiblings (tree : AccTree P) : (height d idx : ℕ) → Guest (List P.Digest)
  | 0, _, _ => return []
  | height + 1, d, idx => do
      let sibling ← Guest.index (tree.levels.getD d []) (siblingOf idx)
      let siblings ← tree.denseSiblings height (d + 1) (idx / 2)
      return sibling :: siblings

/-- Get Merkle proof siblings for a leaf: from stored data below the dense root, zero
hashes above it. -/
def getSiblings (tree : AccTree P) (index : ℕ) : Guest (List P.Digest) := do
  let siblings ← tree.denseSiblings tree.denseDepth 0 index
  return siblings ++ (List.range' tree.denseDepth (tree.depth - tree.denseDepth)).map
    fun d => tree.zeroHashes.getD d P.zero

/-- Recompute the path over a node within the dense portion. -/
def rehashPath : (height d idx : ℕ) → List (List P.Digest) → Guest (List (List P.Digest))
  | 0, _, _, levels => return levels
  | height + 1, d, idx, levels => do
      let parentIdx := idx / 2
      let left ← Guest.index (levels.getD d []) (parentIdx * 2)
      let right ← Guest.index (levels.getD d []) (parentIdx * 2 + 1)
      let level ← Guest.setIndex (levels.getD (d + 1) []) parentIdx (P.compress left right)
      rehashPath height (d + 1) parentIdx (levels.set (d + 1) level)

/-- Update a leaf and recompute the path to the dense root. Returns the siblings from before
the update. -/
def updateLeaf (tree : AccTree P) (index : ℕ) (newLeaf : P.Digest) :
    Guest (List P.Digest × AccTree P) := do
  let siblings ← tree.getSiblings index
  let leaves ← Guest.setIndex (tree.levels.getD 0 []) index newLeaf
  let levels ← rehashPath tree.denseDepth 0 index (tree.levels.set 0 leaves)
  return (siblings, { tree with levels })

/-- Recompute every internal level from the leaves and check it matches. -/
def verifyConsistent (tree : AccTree P) : Except String Unit := do
  Guest.assert (tree.levels.length = tree.denseDepth + 1)
    s!"expected {tree.denseDepth + 1} levels for dense_depth {tree.denseDepth}, got {tree.levels.length}"
  Guest.assert (tree.denseDepth ≤ tree.depth)
    s!"dense_depth {tree.denseDepth} exceeds depth {tree.depth}"
  (List.range tree.levels.length).forM fun d =>
    let level := tree.levels.getD d []
    let expected := 2 ^ (tree.denseDepth - d)
    Guest.assert (level.length = expected)
      s!"level {d} has {level.length} nodes, expected {expected}"
  (List.range tree.denseDepth).forM fun d =>
    Guest.assert (parents P.compress (tree.levels.getD d []) = tree.levels.getD (d + 1) [])
      s!"level {d} does not hash to level {d + 1}"

/-! ## What the operations do -/

/-- **The tree keeps some leaves**: it holds them, and has no level besides the dense ones. -/
structure Keeps (tree : AccTree P) (t : ℕ → P.Digest) : Prop extends tree.Holds t where
  count : tree.levels.length = tree.denseDepth + 1

namespace Keeps

variable {tree : AccTree P} {t : ℕ → P.Digest} {i : ℕ} {leaf : P.Digest}

theorem length_level (h : tree.Keeps t) {level : ℕ} (hlevel : level ≤ tree.denseDepth) :
    (tree.levels.getD level []).length = 2 ^ (tree.denseDepth - level) := by
  rw [h.levels level hlevel]
  simp

theorem verifyConsistent (h : tree.Keeps t) : tree.verifyConsistent = .ok () := by
  simp only [AccTree.verifyConsistent, Guest.bind_eq_ok, Guest.assert_eq_ok, Guest.forM_eq_ok,
    exists_const]
  refine ⟨h.count, h.dense_le, fun d hd => ?_, fun d hd => ?_⟩
  · rw [List.mem_range, h.count] at hd
    exact h.length_level (by omega)
  · rw [List.mem_range] at hd
    rw [h.levels d hd.le, h.levels (d + 1) hd]
    -- one level is the one below it with its pairs hashed
    have hstep : (parents P.compress)^[1]
        ((List.range (2 ^ (tree.denseDepth - d))).map (nodeAt P.compress t d)) =
          (List.range (2 ^ (tree.denseDepth - d - 1))).map
            (above P.compress (nodeAt P.compress t d)) :=
      parents_iterate (by omega)
    rw [Nat.sub_sub] at hstep
    rw [nodeAt_succ]
    exact hstep

/-- Below the power of two, the siblings are the path of the full tree. -/
theorem getSiblings (h : tree.Keeps t) (hi : i < 2 ^ tree.denseDepth) :
    tree.getSiblings i = .ok (siblingPath P.compress tree.depth t i) := by
  have hdense : ∀ height d, d + height = tree.denseDepth →
      tree.denseSiblings height d (i / 2 ^ d) =
        .ok ((List.range' d height).map fun l => nodeAt P.compress t l (siblingOf (i / 2 ^ l))) := by
    intro height
    induction height with
    | zero => intro d _; rfl
    | succ height ih =>
        intro d hd
        have hnode : (tree.levels.getD d [])[siblingOf (i / 2 ^ d)]? =
            some (nodeAt P.compress t d (siblingOf (i / 2 ^ d))) := by
          have hlt : siblingOf (i / 2 ^ d) < 2 ^ (tree.denseDepth - d) := by
            rw [show tree.denseDepth - d = height + 1 by omega]
            apply siblingOf_lt
            apply Nat.div_lt_of_lt_mul
            rwa [← pow_add, show d + (height + 1) = tree.denseDepth by omega]
          rw [h.levels d (by omega), List.getElem?_map, List.getElem?_range hlt]
          rfl
        have hrest := ih (d + 1) (by omega)
        rw [pow_succ, ← Nat.div_div_eq_div_mul] at hrest
        simp only [denseSiblings, Guest.bind_eq_ok, Guest.pure_eq_ok, Guest.index_eq_ok]
        exact ⟨_, hnode, _, hrest, rfl⟩
  have habove : (List.range' tree.denseDepth (tree.depth - tree.denseDepth)).map
      (fun d => tree.zeroHashes.getD d P.zero) =
        (List.range' tree.denseDepth (tree.depth - tree.denseDepth)).map
          fun l => nodeAt P.compress t l (siblingOf (i / 2 ^ l)) := by
    apply List.map_congr_left
    intro level hlevel
    rw [List.mem_range'_1] at hlevel
    have hpow : 2 ^ tree.denseDepth ≤ 2 ^ level := Nat.pow_le_pow_right (by omega) hlevel.1
    -- the path goes up the left edge here, so its sibling is node 1
    rw [Nat.div_eq_of_lt (hi.trans_le hpow)]
    apply h.dense.zeroHash (by omega)
    rwa [show siblingOf 0 = 1 from rfl, Nat.one_mul]
  have hsplit : List.range tree.depth = List.range' 0 tree.denseDepth ++
      List.range' tree.denseDepth (tree.depth - tree.denseDepth) := by
    have hjoin : List.range' 0 tree.denseDepth ++
        List.range' (0 + tree.denseDepth) (tree.depth - tree.denseDepth) =
          List.range' 0 (tree.denseDepth + (tree.depth - tree.denseDepth)) :=
      List.range'_append_1
    rw [Nat.zero_add, Nat.add_sub_cancel' h.dense_le] at hjoin
    rw [List.range_eq_range', hjoin]
  have hpath := hdense tree.denseDepth 0 (Nat.zero_add _)
  rw [pow_zero, Nat.div_one] at hpath
  simp only [AccTree.getSiblings, Guest.bind_eq_ok, Guest.pure_eq_ok]
  refine ⟨_, hpath, ?_⟩
  rw [habove, ← List.map_append, ← hsplit, siblingPath_eq_map]
  exact hi.trans_le (Nat.pow_le_pow_right (by omega) h.dense_le)

theorem getD_set {T : Type} {xs : List (List T)} {i j : ℕ} {row : List T} (hi : i < xs.length) :
    (xs.set i row).getD j [] = if i = j then row else xs.getD j [] := by
  rw [List.getD_eq_getElem?_getD, List.getD_eq_getElem?_getD, List.getElem?_set]
  by_cases hij : i = j
  · subst hij
    simp [hi]
  · simp [hij]

/-- **One path rehashed**: from a level on, the rows of one tree are turned into those of
another that differs from it along the path alone. -/
theorem rehashPath_eq {s t : ℕ → P.Digest} {dense k : ℕ} (hk : k < 2 ^ dense)
    (hbeside : ∀ level i, i ≠ k / 2 ^ level →
      nodeAt P.compress t level i = nodeAt P.compress s level i) :
    ∀ {height d : ℕ} (levels : List (List P.Digest)), d + height = dense →
      levels.length = dense + 1 →
      (∀ level ≤ d, levels.getD level [] =
        (List.range (2 ^ (dense - level))).map (nodeAt P.compress t level)) →
      (∀ level, d < level → level ≤ dense → levels.getD level [] =
        (List.range (2 ^ (dense - level))).map (nodeAt P.compress s level)) →
      ∃ levels', rehashPath height d (k / 2 ^ d) levels = .ok levels' ∧
        levels'.length = dense + 1 ∧ ∀ level ≤ dense, levels'.getD level [] =
          (List.range (2 ^ (dense - level))).map (nodeAt P.compress t level) := by
  intro height
  induction height with
  | zero =>
      intro d levels hd hcount hdone _
      exact ⟨levels, rfl, hcount, fun level hlevel => hdone level (by omega)⟩
  | succ height ih =>
      intro d levels hd hcount hdone htodo
      set j := k / 2 ^ (d + 1) with hj
      -- the parent of `k` one level up, whose row is still that of the old leaves
      have hhalf : k / 2 ^ d / 2 = j := by rw [hj, pow_succ, Nat.div_div_eq_div_mul]
      have hjlt : j < 2 ^ (dense - (d + 1)) := by
        rw [hj]
        apply Nat.div_lt_of_lt_mul
        rwa [← pow_add, show d + 1 + (dense - (d + 1)) = dense by omega]
      have hchild : ∀ i < 2 * 2 ^ (dense - (d + 1)),
          (levels.getD d [])[i]? = some (nodeAt P.compress t d i) := by
        intro i hi
        rw [hdone d le_rfl, List.getElem?_map, List.getElem?_range]
        · rfl
        · rwa [show dense - d = dense - (d + 1) + 1 by omega, pow_succ']
      have hrow := htodo (d + 1) (by omega) (by omega)
      have hparent : P.compress (nodeAt P.compress t d (j * 2)) (nodeAt P.compress t d (j * 2 + 1)) =
          nodeAt P.compress t (d + 1) j := by
        rw [nodeAt_succ, above, Nat.mul_comm j 2]
      -- writing the parent makes its row that of the new leaves: beside the path nothing differs
      have hset : ((List.range (2 ^ (dense - (d + 1)))).map (nodeAt P.compress s (d + 1))).set j
          (nodeAt P.compress t (d + 1) j) =
            (List.range (2 ^ (dense - (d + 1)))).map (nodeAt P.compress t (d + 1)) :=
        map_range_set (hbeside (d + 1))
      obtain ⟨levels', hrun, hcount', hlevels'⟩ := ih (d := d + 1)
        (levels.set (d + 1)
          ((List.range (2 ^ (dense - (d + 1)))).map (nodeAt P.compress t (d + 1))))
        (by omega) (by rwa [List.length_set])
        (fun level hlevel => by
          rw [getD_set (by omega)]
          split
          · next heq => rw [heq]
          · exact hdone level (by omega))
        (fun level hlt hle => by
          rw [getD_set (by omega), if_neg (by omega)]
          exact htodo level (by omega) hle)
      refine ⟨levels', ?_, hcount', hlevels'⟩
      rw [rehashPath, hhalf]
      simp only [Guest.bind_eq_ok, Guest.index_eq_ok, Guest.setIndex_eq_ok]
      refine ⟨_, hchild _ (by omega), _, hchild _ (by omega), _, ⟨?_, rfl⟩, ?_⟩
      · rw [hrow]
        simpa using hjlt
      · rw [hrow, hparent, hset]
        exact hrun

/-- **One update below the power of two**: the siblings handed out are the full tree's path, and
what is left keeps the full tree with that leaf rewritten. -/
theorem updateLeaf (h : tree.Keeps t) (hi : i < 2 ^ tree.denseDepth) (leaf : P.Digest) :
    ∃ tree', tree.updateLeaf i leaf = .ok (siblingPath P.compress tree.depth t i, tree') ∧
      tree'.Keeps (Function.update t i leaf) ∧ tree'.depth = tree.depth ∧
      tree'.denseDepth = tree.denseDepth := by
  have hlength := h.length_level (Nat.zero_le _)
  have hleaves := h.levels 0 (Nat.zero_le _)
  rw [Nat.sub_zero] at hlength hleaves
  have hset : (tree.levels.getD 0 []).set i leaf =
      (List.range (2 ^ tree.denseDepth)).map (Function.update t i leaf) := by
    rw [hleaves]
    conv_lhs => rw [← Function.update_self i leaf t]
    exact map_range_set fun j hj => Function.update_of_ne hj _ _
  obtain ⟨levels, hrun, hcount, hlevels⟩ := rehashPath_eq (P := P) (s := t)
    (t := Function.update t i leaf) hi (fun level j hj => nodeAt_update_of_ne hj) (d := 0)
    (tree.levels.set 0 ((tree.levels.getD 0 []).set i leaf)) (Nat.zero_add tree.denseDepth)
    (by rw [List.length_set, h.count])
    (fun level hlevel => by
      obtain rfl : level = 0 := by omega
      rw [getD_set (by rw [h.count]; omega), if_pos rfl, hset]
      rfl)
    (fun level hlt hle => by
      rw [getD_set (by rw [h.count]; omega), if_neg (by omega)]
      exact h.levels level hle)
  rw [pow_zero, Nat.div_one] at hrun
  refine ⟨{ tree with levels }, ?_, ⟨⟨h.dense_le, hlevels, h.zeroHashes, fun j hj => ?_⟩, hcount⟩,
    rfl, rfl⟩
  · simp only [AccTree.updateLeaf, Guest.bind_eq_ok, Guest.pure_eq_ok, Guest.setIndex_eq_ok]
    exact ⟨_, h.getSiblings hi, _, ⟨hlength ▸ hi, rfl⟩, _, hrun, rfl⟩
  · rw [Function.update_of_ne (by show j ≠ i; exact (hi.trans_le hj).ne')]
    exact h.empty j hj

/-- Past the power of two there is no leaf to write, and the run stops. -/
theorem lt_of_updateLeaf (h : tree.Keeps t) {out : List P.Digest × AccTree P}
    (hrun : tree.updateLeaf i leaf = .ok out) : i < 2 ^ tree.denseDepth := by
  simp only [AccTree.updateLeaf, Guest.bind_eq_ok, Guest.setIndex_eq_ok] at hrun
  obtain ⟨_, _, _, ⟨hlt, -⟩, -⟩ := hrun
  rwa [h.length_level (Nat.zero_le _)] at hlt

end Keeps

/-- The leaves and the two depths are all there is to a tree. -/
theorem Keeps.unique {tree tree' : AccTree P} {t : ℕ → P.Digest} (h : tree.Keeps t)
    (h' : tree'.Keeps t) (hdepth : tree.depth = tree'.depth)
    (hdense : tree.denseDepth = tree'.denseDepth) : tree = tree' := by
  have hzero : tree.zeroHashes = tree'.zeroHashes := by
    rw [h.zeroHashes, h'.zeroHashes, hdepth]
  have hlevels : tree.levels = tree'.levels := by
    apply List.ext_getElem (by rw [h.count, h'.count, hdense])
    intro level hlt hlt'
    have hle : level ≤ tree.denseDepth := by
      rw [h.count] at hlt
      omega
    have hrow := (h.levels level hle).trans (hdense ▸ (h'.levels level (hdense ▸ hle)).symm)
    rwa [List.getD_eq_getElem?_getD, List.getD_eq_getElem?_getD, List.getElem?_eq_getElem hlt,
      List.getElem?_eq_getElem hlt', Option.getD_some, Option.getD_some] at hrow
  obtain ⟨depth, dense, levels, zeroHashes⟩ := tree
  obtain ⟨depth', dense', levels', zeroHashes'⟩ := tree'
  simp only at hdepth hdense hzero hlevels
  rw [hdepth, hdense, hzero, hlevels]

/-- A build goes through exactly if every key is one. -/
theorem build_isOk_iff {validators : List ValidatorData} {epoch : UInt64} {depth : ℕ} :
    (∃ tree : AccTree P, build validators epoch depth = .ok tree) ↔
      ∀ v ∈ validators, ∃ point, Pubkey.decompress P v.pubkey = some point := by
  have hleaves : ∀ vs : List ValidatorData, (∃ leaves, vs.mapM (fun v => do
      let point ← Guest.expect (Pubkey.decompress P v.pubkey) "validator has an invalid public key"
      return P.leaf point (v.activeEffectiveBalance epoch)) = .ok leaves) ↔
        ∀ v ∈ vs, ∃ point, Pubkey.decompress P v.pubkey = some point := by
    intro vs
    induction vs with
    | nil => exact iff_of_true ⟨[], rfl⟩ (by simp)
    | cons v vs ih =>
        rw [List.forall_mem_cons, ← ih]
        simp only [List.mapM_cons, Guest.bind_eq_ok, Guest.expect_eq_ok, Guest.pure_eq_ok]
        constructor
        · rintro ⟨_, _, ⟨point, hpoint, -⟩, leaves, hrest, -⟩
          exact ⟨⟨point, hpoint⟩, leaves, hrest⟩
        · rintro ⟨⟨point, hpoint⟩, leaves, hrest⟩
          exact ⟨_, _, ⟨point, hpoint, rfl⟩, leaves, hrest, rfl⟩
  rw [← hleaves]
  constructor
  · rintro ⟨tree, h⟩
    simp only [build, Guest.bind_eq_ok] at h
    obtain ⟨leaves, h, -⟩ := h
    exact ⟨leaves, h⟩
  · rintro ⟨leaves, h⟩
    simp only [build, Guest.bind_eq_ok, Guest.pure_eq_ok]
    exact ⟨_, leaves, h, rfl⟩

/-! ## Along a list of updates -/

/-- **The tree goes on as the full tree over `t`**: it has its root and checks out, and every
update in turn comes back with the leaf's path from before the write and leaves the same tree
with that leaf rewritten. -/
def Tracks : AccTree P → (ℕ → P.Digest) → List (ℕ × P.Digest) → Prop
  | tree, t, updates =>
    tree.root = PerfectTree.root P.compress tree.depth t ∧ tree.verifyConsistent = .ok () ∧
    match updates with
    | [] => True
    | (i, leaf) :: updates => ∃ tree',
        tree.updateLeaf i leaf = .ok (siblingPath P.compress tree.depth t i, tree') ∧
        tree'.getSiblings i =
          .ok (siblingPath P.compress tree.depth (Function.update t i leaf) i) ∧
        tree'.depth = tree.depth ∧ Tracks tree' (Function.update t i leaf) updates

theorem Keeps.tracks_iff : ∀ {updates : List (ℕ × P.Digest)} {tree : AccTree P}
    {t : ℕ → P.Digest}, tree.Keeps t →
      (Tracks tree t updates ↔ ∀ u ∈ updates, u.1 < 2 ^ tree.denseDepth) := by
  intro updates
  induction updates with
  | nil =>
      intro tree t h
      simp only [Tracks, List.not_mem_nil, false_implies, implies_true, iff_true, and_true]
      exact ⟨h.root_eq, h.verifyConsistent⟩
  | cons u updates ih =>
      intro tree t h
      obtain ⟨i, leaf⟩ := u
      rw [Tracks, List.forall_mem_cons]
      constructor
      · rintro ⟨-, -, tree', hrun, -, -, hrest⟩
        have hi := h.lt_of_updateLeaf hrun
        obtain ⟨tree'', hrun', hkeeps, -, hdense⟩ := h.updateLeaf hi leaf
        obtain rfl : tree'' = tree' := by
          rw [hrun'] at hrun
          injection hrun with hpair
          exact (Prod.mk.inj hpair).2
        exact ⟨hi, hdense ▸ (ih hkeeps).mp hrest⟩
      · rintro ⟨hi, hrest⟩
        obtain ⟨tree', hrun, hkeeps, hdepth, hdense⟩ := h.updateLeaf hi leaf
        refine ⟨h.root_eq, h.verifyConsistent, tree', hrun, ?_, hdepth, ?_⟩
        · rw [hkeeps.getSiblings (hdense ▸ hi), hdepth]
        · exact (ih hkeeps).mpr (hdense ▸ hrest)

/-- **Incremental updates**: along updates of leaves of the full tree, a built tree goes on as
the full tree does exactly if each of them is below the power of two the validators were rounded
up to, two of them at least. -/
theorem build_tracks_iff {validators : List ValidatorData} {epoch : UInt64} {depth : ℕ}
    {tree : AccTree P} {updates : List (ℕ × P.Digest)}
    (h : build validators epoch depth = .ok tree) (hin : ∀ u ∈ updates, u.1 < 2 ^ depth) :
    Tracks tree (paddedLeaves P validators epoch depth) updates ↔
      ∀ u ∈ updates, u.1 < 2 ^ max (Nat.clog 2 validators.length) 1 := by
  obtain ⟨rfl, hdense, hcount, hholds⟩ := build_padded h
  rw [Keeps.tracks_iff ⟨hholds, hcount⟩, hdense]
  apply forall₂_congr
  intro u hu
  have hdepth := hin u hu
  rcases le_total (max (Nat.clog 2 validators.length) 1) tree.depth with hle | hle
  · rw [min_eq_left hle]
  · rw [min_eq_right hle]
    exact iff_of_true hdepth (hdepth.trans_le (Nat.pow_le_pow_right (by omega) hle))

/-- Two validators in a tree of four leaves: both of them rewritten, the second one twice. -/
theorem build_tracks_pair : ∃ tree : AccTree (Formal.formal {}),
    build [(Formal.validator 0 32).data, (Formal.validator 1 32).data] 0 2 = .ok tree ∧
      Tracks tree (paddedLeaves _ [(Formal.validator 0 32).data, (Formal.validator 1 32).data] 0 2)
        [(1, .leaf (Formal.key 1) 31), (0, .zero), (1, .leaf (Formal.key 1) 30)] := by
  obtain ⟨tree, htree, -⟩ : ∃ tree : AccTree (Formal.formal {}),
      build [(Formal.validator 0 32).data, (Formal.validator 1 32).data] 0 2 = .ok tree ∧
        True := by
    decide +kernel
  exact ⟨tree, htree, (build_tracks_iff htree (by decide)).mpr (by decide)⟩

/-- **A registry that grows past its power of two**: a third validator in a tree built for two,
with two leaves to spare. -/
theorem build_not_tracks : ¬ ∀ (tree : AccTree (Formal.formal {}))
    (validators : List ValidatorData) (epoch : UInt64) (depth : ℕ)
    (updates : List (ℕ × (Formal.formal {}).Digest)), build validators epoch depth = .ok tree →
      (∀ u ∈ updates, u.1 < 2 ^ depth) →
        Tracks tree (paddedLeaves _ validators epoch depth) updates := by
  intro hall
  obtain ⟨tree, htree, hstop⟩ : ∃ tree : AccTree (Formal.formal {}),
      build [(Formal.validator 0 32).data, (Formal.validator 1 32).data] 0 2 = .ok tree ∧
        (tree.updateLeaf 2 (.leaf (Formal.key 2) 32)).map (fun _ => ()) =
          .error "index out of bounds: the len is 2 but the index is 3" := by
    decide +kernel
  obtain ⟨-, -, tree', hrun, -⟩ :=
    hall tree _ _ _ [(2, .leaf (Formal.key 2) 32)] htree (by decide)
  rw [hrun] at hstop
  exact absurd hstop (by simp [Except.map])

end AccTree
end Zkasper
