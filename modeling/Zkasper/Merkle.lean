import Zkasper.Guest
import Zkasper.Library.PerfectTree
import Mathlib.Data.List.Dedup
import Mathlib.Data.List.Chain
import Mathlib.Algebra.Free

/-! # Merkle openings

The two verifiers every tree of the pipeline is opened with, over any digest type
and compression: `computeRoot` folds one leaf up its sibling path, and `batchRoot`
folds many leaves at once and takes from a list of auxiliaries only the nodes the
leaves do not determine.

Both are read against a full tree `t` of the library. Indices are natural numbers
here: the source's are `u64`, and the only arithmetic done on one is halving it
and adding one to an even one, neither of which can leave the type.

A leaf index is never compared with the depth of the tree. Its bits above the
depth are simply shifted out, so an opening at `k` is an opening of leaf `k % 2 ^
depth`, and that remainder stays visible in every statement below.

Main results:

* `computeRoot_eq_root` — a path that reaches the root opens the leaf it names,
  and rewriting that leaf reaches the root of the rewritten tree;
* `batchRoot_sound` — an accepted multi-opening names leaves of the tree, all of
  them in one copy of the index range, no two of them the same;
* `batchRoot_canonical` — the canonical auxiliaries are accepted, and no list of
  another length is. -/

namespace Zkasper.Merkle

open PerfectTree

variable {T : Type} (compress : T → T → T)

/-! ## One leaf and its sibling path -/

/-- Recompute a root from a single leaf and its sibling path. -/
def computeRoot (leaf : T) (index : ℕ) : List T → T
  | [] => leaf
  | sibling :: siblings =>
      computeRoot (if index % 2 = 0 then compress leaf sibling else compress sibling leaf)
        (index / 2) siblings

/-- Verify a single-leaf proof. -/
def verifyProof [DecidableEq T] (leaf : T) (index : ℕ) (siblings : List T) (expectedRoot : T) :
    Bool :=
  computeRoot compress leaf index siblings = expectedRoot

/-! ## Many leaves at once -/

/-- `take`: the next auxiliary, and the ones left. -/
def take : List T → Guest (T × List T)
  | [] => throw "batch_root: auxiliaries exhausted"
  | v :: aux => return (v, aux)

/-- One level of the scan: the nodes of a level, left to right, to their parents.
An even node whose right neighbour comes next is merged with it; any other node
takes its sibling from the auxiliaries. -/
def scanLevel : List (ℕ × T) → List T → Guest (List (ℕ × T) × List T)
  | [], aux => return ([], aux)
  | [(k, v)], aux => do
      let (sibling, aux) ← take aux
      return ([(k / 2, join compress k v sibling)], aux)
  | (k, v) :: (k', v') :: nodes, aux =>
      if k % 2 = 0 ∧ k' = k + 1 then do
        let (parents, aux) ← scanLevel nodes aux
        return ((k / 2, compress v v') :: parents, aux)
      else do
        let (sibling, aux) ← take aux
        let (parents, aux) ← scanLevel ((k', v') :: nodes) aux
        return ((k / 2, join compress k v sibling) :: parents, aux)

/-- The `depth` levels of the scan, one after the other. -/
def climbLevels : ℕ → List (ℕ × T) → List T → Guest (List (ℕ × T) × List T)
  | 0, nodes, aux => return (nodes, aux)
  | depth + 1, nodes, aux => do
      let (parents, aux) ← scanLevel compress nodes aux
      climbLevels depth parents aux

/-- `batch_root_columns`: the scan over leaves the caller has already checked are
strictly increasing. -/
def batchRootColumns (nodes : List (ℕ × T)) (aux : List T) (depth : ℕ) : Guest T := do
  Guest.assert (nodes ≠ []) "batch_root: empty leaf set"
  let (nodes, aux) ← climbLevels compress depth nodes aux
  Guest.assert (aux = []) "batch_root: unconsumed auxiliaries"
  match nodes with
  | [(_, v)] => return v
  | _ => throw "batch_root: did not converge to a single root"

/-- Recompute a root from many leaves at once, consuming only the sibling nodes
that the leaf set does not already determine. -/
def batchRoot (leaves : List (T × ℕ)) (aux : List T) (depth : ℕ) : Guest T := do
  Guest.assert ((leaves.map Prod.snd).IsChain (· < ·))
    "batch_root: leaves must be strictly increasing by index"
  batchRootColumns compress (leaves.map Prod.swap) aux depth

/-! ## What one level does -/

variable {compress}

@[simp] theorem take_eq_ok {aux rest : List T} {v : T} :
    take aux = .ok (v, rest) ↔ aux = v :: rest := by
  cases aux <;> simp [take]

/-- The indices of the level over the nodes `ks`. -/
def parentsOf (ks : List ℕ) : List ℕ := (ks.map (· / 2)).dedup

/-- The children that `ks` does not name of the parents it does, in ascending
parent order, left child before right. -/
def missingChildren (ks : List ℕ) : List ℕ :=
  (parentsOf ks).flatMap fun j => [2 * j, 2 * j + 1].filter (· ∉ ks)

/-- A node whose right neighbour is in another pair is alone under its parent. -/
theorem parentsOf_cons {k : ℕ} {ks : List ℕ} (h : ∀ j ∈ ks, k / 2 < j / 2) :
    parentsOf (k :: ks) = k / 2 :: parentsOf ks := by
  unfold parentsOf
  rw [List.map_cons, List.dedup_cons_of_notMem]
  intro hmem
  obtain ⟨j, hj, heq⟩ := List.mem_map.mp hmem
  exact absurd (h j hj) (by omega)

/-- Two children of one parent. -/
theorem parentsOf_pair {k : ℕ} {ks : List ℕ} (hk : k % 2 = 0) (h : ∀ j ∈ ks, k + 1 < j) :
    parentsOf (k :: (k + 1) :: ks) = k / 2 :: parentsOf ks := by
  have hhalf : (k + 1) / 2 = k / 2 := by omega
  have hrest : parentsOf ((k + 1) :: ks) = (k + 1) / 2 :: parentsOf ks :=
    parentsOf_cons fun j hj => by
      have := h j hj
      omega
  unfold parentsOf at hrest ⊢
  rw [List.map_cons, List.dedup_cons_of_mem (by simp [hhalf]), hrest, hhalf]

theorem mem_parentsOf {j : ℕ} {ks : List ℕ} : j ∈ parentsOf ks ↔ ∃ k ∈ ks, k / 2 = j := by
  simp [parentsOf]

/-- Children of later parents are missing or not whatever smaller nodes stand before them. -/
theorem missing_congr {ks ks' : List ℕ} {b : ℕ} (hks : ∀ j ∈ ks, 2 * b ≤ j)
    (h : ∀ c, 2 * b ≤ c → (c ∈ ks' ↔ c ∈ ks)) :
    ((parentsOf ks).flatMap fun j => [2 * j, 2 * j + 1].filter (· ∉ ks')) = missingChildren ks := by
  apply List.flatMap_congr
  intro j hj
  obtain ⟨k, hk, rfl⟩ := mem_parentsOf.mp hj
  have hb := hks k hk
  have hleft := h (2 * (k / 2)) (by omega)
  have hright := h (2 * (k / 2) + 1) (by omega)
  apply List.filter_congr
  intro c hc
  rcases List.mem_pair.mp hc with rfl | rfl
  · simp only [hleft]
  · simp only [hright]

theorem missingChildren_cons {k : ℕ} {ks : List ℕ} (h : ∀ j ∈ ks, k / 2 < j / 2) :
    missingChildren (k :: ks) = siblingOf k :: missingChildren ks := by
  have hlt : ∀ j ∈ ks, 2 * (k / 2 + 1) ≤ j := by
    intro j hj
    have := h j hj
    omega
  have hown : [2 * (k / 2), 2 * (k / 2) + 1].filter (· ∉ k :: ks) = [siblingOf k] := by
    -- neither child of `k`'s parent comes after `k`
    have hleft : 2 * (k / 2) ∉ ks := by
      intro hmem
      have := hlt _ hmem
      omega
    have hright : 2 * (k / 2) + 1 ∉ ks := by
      intro hmem
      have := hlt _ hmem
      omega
    rcases Nat.mod_two_eq_zero_or_one k with hk | hk
    · have h1 : 2 * (k / 2) = k := by omega
      simp [siblingOf, hk, h1] at hright ⊢
      exact hright
    · have h1 : 2 * (k / 2) = k - 1 := by omega
      have h2 : k - 1 + 1 = k := by omega
      have h3 : k - 1 ≠ k := by omega
      rw [h1] at hleft
      simp [siblingOf, hk, h1, h2, h3, hleft]
  conv_lhs => unfold missingChildren
  rw [parentsOf_cons h, List.flatMap_cons, hown,
    missing_congr hlt fun c hc => by
      rw [List.mem_cons, or_iff_right (by omega : ¬ c = k)]]
  rfl

theorem missingChildren_pair {k : ℕ} {ks : List ℕ} (hk : k % 2 = 0) (h : ∀ j ∈ ks, k + 1 < j) :
    missingChildren (k :: (k + 1) :: ks) = missingChildren ks := by
  have hlt : ∀ j ∈ ks, 2 * (k / 2 + 1) ≤ j := by
    intro j hj
    have := h j hj
    omega
  have hdouble : 2 * (k / 2) = k := by omega
  have hown : [2 * (k / 2), 2 * (k / 2) + 1].filter (· ∉ k :: (k + 1) :: ks) = [] := by
    simp [hdouble]
  conv_lhs => unfold missingChildren
  rw [parentsOf_pair hk h, List.flatMap_cons, hown,
    missing_congr hlt fun c hc => by
      rw [List.mem_cons, List.mem_cons, or_iff_right (by omega : ¬ c = k),
        or_iff_right (by omega : ¬ c = k + 1)]]
  rfl

/-! ## The two moves of the scan

A level is scanned by two moves: a pair is merged, or a node is joined with an
auxiliary. Everything below about a level is an induction over them. -/

/-- The scan does not merge node `k` with the nodes that come next. -/
def Alone (k : ℕ) (nodes : List (ℕ × T)) : Prop :=
  k % 2 = 0 → ∀ n ∈ nodes.head?, n.1 ≠ k + 1

theorem scanLevel_merge_eq_ok {k : ℕ} {v v' : T} {nodes : List (ℕ × T)} {aux rest : List T}
    {parents : List (ℕ × T)} (hk : k % 2 = 0) :
    scanLevel compress ((k, v) :: (k + 1, v') :: nodes) aux = .ok (parents, rest) ↔
      ∃ next, scanLevel compress nodes aux = .ok (next, rest) ∧
        parents = (k / 2, compress v v') :: next := by
  rw [scanLevel, if_pos ⟨hk, rfl⟩, Guest.bind_eq_ok]
  constructor
  · rintro ⟨⟨next, rest⟩, hscan, hret⟩
    obtain ⟨rfl, rfl⟩ := Prod.mk.inj (Guest.pure_eq_ok.mp hret)
    exact ⟨next, hscan, rfl⟩
  · rintro ⟨next, hscan, rfl⟩
    exact ⟨(next, rest), hscan, rfl⟩

/-- A node the scan does not merge takes an auxiliary, whether or not others follow it. -/
theorem scanLevel_alone {k : ℕ} {v : T} {nodes : List (ℕ × T)} (aux : List T)
    (hk : Alone k nodes) :
    scanLevel compress ((k, v) :: nodes) aux = (do
      let (sibling, aux) ← take aux
      let (parents, aux) ← scanLevel compress nodes aux
      return ((k / 2, join compress k v sibling) :: parents, aux)) := by
  rcases nodes with _ | ⟨⟨k', v'⟩, nodes⟩
  · simp only [scanLevel, pure_bind]
  · rw [scanLevel, if_neg fun h => hk h.1 (k', v') rfl h.2]

theorem scanLevel_alone_eq_ok {k : ℕ} {v : T} {nodes : List (ℕ × T)} {aux rest : List T}
    {parents : List (ℕ × T)} (hk : Alone k nodes) :
    scanLevel compress ((k, v) :: nodes) aux = .ok (parents, rest) ↔
      ∃ sibling aux' next, aux = sibling :: aux' ∧
        scanLevel compress nodes aux' = .ok (next, rest) ∧
          parents = (k / 2, join compress k v sibling) :: next := by
  rw [scanLevel_alone aux hk, Guest.bind_eq_ok]
  constructor
  · rintro ⟨⟨sibling, aux'⟩, htake, hrun⟩
    obtain ⟨⟨next, rest⟩, hscan, hret⟩ := Guest.bind_eq_ok.mp hrun
    obtain ⟨rfl, rfl⟩ := Prod.mk.inj (Guest.pure_eq_ok.mp hret)
    exact ⟨sibling, aux', next, take_eq_ok.mp htake, hscan, rfl⟩
  · rintro ⟨sibling, aux', next, rfl, hscan, rfl⟩
    exact ⟨(sibling, aux'), rfl, Guest.bind_eq_ok.mpr ⟨(next, rest), hscan, rfl⟩⟩

/-- Induction along the scan of a level. -/
theorem level_induction {motive : List (ℕ × T) → Prop} (nil : motive [])
    (merge : ∀ k v v' nodes, k % 2 = 0 → motive nodes → motive ((k, v) :: (k + 1, v') :: nodes))
    (alone : ∀ k v nodes, Alone k nodes → motive nodes → motive ((k, v) :: nodes)) :
    ∀ nodes, motive nodes
  | [] => nil
  | [(k, v)] => alone k v [] (fun _ n hn => by cases hn) nil
  | (k, v) :: (k', v') :: nodes => by
      by_cases hpair : k % 2 = 0 ∧ k' = k + 1
      · obtain ⟨hk, rfl⟩ := hpair
        exact merge k v v' nodes hk (level_induction nil merge alone nodes)
      · refine alone k v _ ?_ (level_induction nil merge alone ((k', v') :: nodes))
        intro hk n hn heq
        obtain rfl := Option.mem_some.mp hn
        exact hpair ⟨hk, heq⟩

/-! ## Soundness and shape of a level -/

/-- **Soundness of a level**: whatever auxiliaries it took, if every parent it
produced is the node of `above t` at its index, every node it was given is the
node of `t` at its own. -/
theorem scanLevel_sound (hc : Function.Injective2 compress) {t : ℕ → T} (nodes : List (ℕ × T)) :
    ∀ {aux parents rest}, scanLevel compress nodes aux = .ok (parents, rest) →
      (∀ p ∈ parents, p.2 = above compress t p.1) → ∀ n ∈ nodes, n.2 = t n.1 := by
  induction nodes using level_induction with
  | nil => intro aux parents rest _ _ n hn; exact absurd hn (by simp)
  | merge k v v' nodes hk ih =>
      intro aux parents rest hrun hparents n hn
      obtain ⟨next, hscan, rfl⟩ := (scanLevel_merge_eq_ok hk).mp hrun
      -- a merged pair is the left child joined with its own sibling
      have hown : v = t k ∧ v' = t (siblingOf k) :=
        join_eq_above hc (by rw [join, if_pos hk]; exact hparents _ List.mem_cons_self)
      rw [siblingOf, if_pos hk] at hown
      rcases List.mem_cons.mp hn with rfl | hn
      · exact hown.1
      rcases List.mem_cons.mp hn with rfl | hn
      · exact hown.2
      · exact ih hscan (fun p hp => hparents p (List.mem_cons_of_mem _ hp)) n hn
  | alone k v nodes hk ih =>
      intro aux parents rest hrun hparents n hn
      obtain ⟨sibling, aux', next, -, hscan, rfl⟩ := (scanLevel_alone_eq_ok hk).mp hrun
      rcases List.mem_cons.mp hn with rfl | hn
      · exact (join_eq_above hc (hparents _ List.mem_cons_self)).1
      · exact ih hscan (fun p hp => hparents p (List.mem_cons_of_mem _ hp)) n hn

/-- Every node of a level has its parent on the next one. -/
theorem scanLevel_parent (nodes : List (ℕ × T)) :
    ∀ {aux parents rest}, scanLevel compress nodes aux = .ok (parents, rest) →
      ∀ n ∈ nodes, ∃ p ∈ parents, p.1 = n.1 / 2 := by
  induction nodes using level_induction with
  | nil => intro aux parents rest _ n hn; exact absurd hn (by simp)
  | merge k v v' nodes hk ih =>
      intro aux parents rest hrun n hn
      obtain ⟨next, hscan, rfl⟩ := (scanLevel_merge_eq_ok hk).mp hrun
      rcases List.mem_cons.mp hn with rfl | hn
      · exact ⟨_, List.mem_cons_self, rfl⟩
      rcases List.mem_cons.mp hn with rfl | hn
      · exact ⟨_, List.mem_cons_self, by simp only; omega⟩
      · obtain ⟨p, hp, heq⟩ := ih hscan n hn
        exact ⟨p, List.mem_cons_of_mem _ hp, heq⟩
  | alone k v nodes hk ih =>
      intro aux parents rest hrun n hn
      obtain ⟨sibling, aux', next, -, hscan, rfl⟩ := (scanLevel_alone_eq_ok hk).mp hrun
      rcases List.mem_cons.mp hn with rfl | hn
      · exact ⟨_, List.mem_cons_self, rfl⟩
      · obtain ⟨p, hp, heq⟩ := ih hscan n hn
        exact ⟨p, List.mem_cons_of_mem _ hp, heq⟩

/-- In strictly increasing nodes, what comes after a merged pair is past it. -/
theorem past_merge {k : ℕ} {v v' : T} {nodes : List (ℕ × T)}
    (h : (((k, v) :: (k + 1, v') :: nodes).map Prod.fst).Pairwise (· < ·)) :
    ∀ j ∈ nodes.map Prod.fst, k + 1 < j :=
  (List.pairwise_cons.mp (List.pairwise_cons.mp h).2).1

/-- In strictly increasing nodes, what comes after a node alone has a later parent. -/
theorem past_alone {k : ℕ} {v : T} {nodes : List (ℕ × T)} (hk : Alone k nodes)
    (h : (((k, v) :: nodes).map Prod.fst).Pairwise (· < ·)) :
    ∀ j ∈ nodes.map Prod.fst, k / 2 < j / 2 := by
  intro j hj
  rw [List.map_cons, List.pairwise_cons] at h
  have hlt := h.1 j hj
  rcases Nat.mod_two_eq_zero_or_one k with hk0 | hk1
  · -- only `k + 1` shares the parent of an even `k`, and `k` would not be alone beside it
    suffices j ≠ k + 1 by simp only at hlt; omega
    rintro rfl
    rcases nodes with _ | ⟨⟨k', v'⟩, nodes⟩
    · simp at hj
    · have hne := hk hk0 (k', v') rfl
      have hk' : k < k' := h.1 k' (by simp)
      rcases List.mem_cons.mp hj with heq | hj
      · exact hne heq.symm
      · have := (List.pairwise_cons.mp h.2).1 (k + 1) hj
        simp only at this
        omega
  · simp only at hlt
    omega

/-- **Shape of a level**: which parents a level over strictly increasing nodes
has, and how many auxiliaries it takes, depends on the indices alone. -/
theorem scanLevel_shape (nodes : List (ℕ × T)) :
    ∀ {aux parents rest}, scanLevel compress nodes aux = .ok (parents, rest) →
      (nodes.map Prod.fst).Pairwise (· < ·) →
        parents.map Prod.fst = parentsOf (nodes.map Prod.fst) ∧
          aux.length = (missingChildren (nodes.map Prod.fst)).length + rest.length := by
  induction nodes using level_induction with
  | nil =>
      intro aux parents rest hrun _
      obtain ⟨rfl, rfl⟩ := Prod.mk.inj (Guest.pure_eq_ok.mp hrun)
      simp [parentsOf, missingChildren]
  | merge k v v' nodes hk ih =>
      intro aux parents rest hrun hlt
      obtain ⟨next, hscan, rfl⟩ := (scanLevel_merge_eq_ok hk).mp hrun
      obtain ⟨hnext, hlen⟩ := ih hscan (List.Pairwise.of_cons (List.Pairwise.of_cons hlt))
      have hpast := past_merge hlt
      simp only [List.map_cons]
      rw [parentsOf_pair hk hpast, missingChildren_pair hk hpast, hnext]
      exact ⟨rfl, hlen⟩
  | alone k v nodes hk ih =>
      intro aux parents rest hrun hlt
      obtain ⟨sibling, aux', next, rfl, hscan, rfl⟩ := (scanLevel_alone_eq_ok hk).mp hrun
      obtain ⟨hnext, hlen⟩ := ih hscan (List.Pairwise.of_cons hlt)
      have hpast := past_alone hk hlt
      simp only [List.map_cons]
      rw [parentsOf_cons hpast, missingChildren_cons hpast, hnext]
      refine ⟨rfl, ?_⟩
      simp only [List.length_cons, hlen]
      omega

/-- **Completeness of a level**: over nodes of `t`, the missing children are
exactly the auxiliaries the scan asks for, in the order it asks for them. -/
theorem scanLevel_canonical (t : ℕ → T) (rest : List T) (nodes : List (ℕ × T)) :
    (nodes.map Prod.fst).Pairwise (· < ·) → (∀ n ∈ nodes, n.2 = t n.1) →
      scanLevel compress nodes ((missingChildren (nodes.map Prod.fst)).map t ++ rest) =
        .ok ((parentsOf (nodes.map Prod.fst)).map fun j => (j, above compress t j), rest) := by
  induction nodes using level_induction with
  | nil => intro _ _; rfl
  | merge k v v' nodes hk ih =>
      intro hlt hval
      have hpast := past_merge hlt
      have hv : v = t k := hval _ List.mem_cons_self
      have hv' : v' = t (k + 1) := hval (k + 1, v') (by simp)
      simp only [List.map_cons]
      -- a pair is missing nothing, so the rest of the level meets the same auxiliaries
      rw [parentsOf_pair hk hpast, missingChildren_pair hk hpast, scanLevel_merge_eq_ok hk]
      refine ⟨_, ih (List.Pairwise.of_cons (List.Pairwise.of_cons hlt)) fun n hn =>
        hval n (by simp [hn]), ?_⟩
      rw [List.map_cons, above, show 2 * (k / 2) = k by omega, hv, hv']
  | alone k v nodes hk ih =>
      intro hlt hval
      have hpast := past_alone hk hlt
      have hv : v = t k := hval _ List.mem_cons_self
      simp only [List.map_cons]
      -- the sibling comes off the front, the first of the missing children
      rw [parentsOf_cons hpast, missingChildren_cons hpast, scanLevel_alone_eq_ok hk]
      refine ⟨t (siblingOf k), _, _, rfl,
        ih (List.Pairwise.of_cons hlt) fun n hn => hval n (List.mem_cons_of_mem _ hn), ?_⟩
      rw [List.map_cons, hv, join_siblingOf]

/-! ## A path opens its leaf -/

/-- **A sibling path that reaches the root** opens the leaf at its index, and
carries any other leaf written there to the root of the tree so rewritten. -/
theorem computeRoot_eq_root (hc : Function.Injective2 compress) :
    ∀ {siblings : List T} {leaf : T} {k d : ℕ} {t : ℕ → T}, siblings.length = d →
      computeRoot compress leaf k siblings = root compress d t →
        leaf = tile d t k ∧ ∀ leaf', computeRoot compress leaf' k siblings =
          root compress d (Function.update t (k % 2 ^ d) leaf') := by
  intro siblings
  induction siblings with
  | nil =>
      rintro leaf k d t rfl h
      refine ⟨by simpa [computeRoot, root] using h, fun leaf' => ?_⟩
      simp [computeRoot, root, Nat.mod_one]
  | cons sibling siblings ih =>
      rintro leaf k d t rfl h
      obtain ⟨hnode, hrewrite⟩ := ih rfl h
      rw [← above_tile] at hnode
      obtain ⟨hleaf, hsibling⟩ := join_eq_above hc hnode
      -- the parent the rest of the path rewrites is the one the new leaf makes
      refine ⟨hleaf, fun leaf' => (hrewrite _).trans ?_⟩
      have hhalf : k % 2 ^ (siblings.length + 1) / 2 = k / 2 % 2 ^ siblings.length := by
        rw [mod_two_pow_succ]
        omega
      rw [List.length_cons, root, above_update, hhalf, join_mod_two_pow, ← siblingOf_mod_two_pow,
        hsibling]
      rfl

/-- Two paths of one length and index that reach one root start from one leaf. -/
theorem computeRoot_injective (hc : Function.Injective2 compress) :
    ∀ {siblings siblings' : List T} {leaf leaf' : T} {k : ℕ}, siblings.length = siblings'.length →
      computeRoot compress leaf k siblings = computeRoot compress leaf' k siblings' →
        leaf = leaf' ∧ siblings = siblings' := by
  intro siblings
  induction siblings with
  | nil =>
      intro siblings' leaf leaf' k hlen h
      obtain rfl := List.length_eq_zero_iff.mp hlen.symm
      exact ⟨h, rfl⟩
  | cons s siblings ih =>
      intro siblings' leaf leaf' k hlen h
      obtain ⟨s', siblings', rfl⟩ := List.exists_cons_of_length_eq_add_one hlen.symm
      obtain ⟨hnode, rfl⟩ := ih (Nat.succ.inj hlen) h
      have hpair : leaf = leaf' ∧ s = s' := by
        split at hnode
        · exact hc hnode
        · exact (hc hnode).symm
      exact ⟨hpair.1, by rw [hpair.2]⟩

/-- One path after another: the second starts at the node the first reaches. -/
theorem computeRoot_append : ∀ (xs ys : List T) (leaf : T) (k : ℕ),
    computeRoot compress leaf k (xs ++ ys) =
      computeRoot compress (computeRoot compress leaf k xs) (k / 2 ^ xs.length) ys := by
  intro xs ys
  induction xs with
  | nil => intro leaf k; simp [computeRoot]
  | cons sibling xs ih =>
      intro leaf k
      rw [List.cons_append, computeRoot, ih, List.length_cons, div_two_pow_succ]
      rfl

/-- The siblings of leaf `k` on the way to the root, index bits above the depth shifted out. -/
def siblingPath (compress : T → T → T) : ℕ → (ℕ → T) → ℕ → List T
  | 0, _, _ => []
  | d + 1, t, k => tile (d + 1) t (siblingOf k) :: siblingPath compress d (above compress t) (k / 2)

@[simp] theorem siblingPath_length (d : ℕ) (t : ℕ → T) (k : ℕ) :
    (siblingPath compress d t k).length = d := by
  induction d generalizing t k with
  | zero => rfl
  | succ d ih => rw [siblingPath, List.length_cons, ih]

/-- A path reads only the leaves of the tree. -/
theorem siblingPath_congr {d : ℕ} {s t : ℕ → T} {k : ℕ} (h : ∀ i < 2 ^ d, s i = t i) :
    siblingPath compress d s k = siblingPath compress d t k := by
  induction d generalizing s t k with
  | zero => rfl
  | succ d ih =>
      have habove : ∀ i < 2 ^ d, above compress s i = above compress t i := by
        intro i hi
        rw [Nat.pow_succ] at h
        unfold above
        rw [h _ (by omega), h _ (by omega)]
      rw [siblingPath, siblingPath, ih habove, tile, tile, h _ (Nat.mod_lt _ (Nat.two_pow_pos _))]

/-- And only the low bits of the index. -/
theorem siblingPath_mod (d : ℕ) (t : ℕ → T) (k : ℕ) :
    siblingPath compress d t (k % 2 ^ d) = siblingPath compress d t k := by
  induction d generalizing t k with
  | zero => rfl
  | succ d ih =>
      have hhalf : k % 2 ^ (d + 1) / 2 = k / 2 % 2 ^ d := by
        rw [mod_two_pow_succ]
        omega
      rw [siblingPath, siblingPath, tile, tile, ← siblingOf_mod_two_pow, Nat.mod_mod, hhalf, ih]

/-- The path of a leaf of the tree, level by level. -/
theorem siblingPath_eq_map {d : ℕ} {t : ℕ → T} {k : ℕ} (hk : k < 2 ^ d) :
    siblingPath compress d t k =
      (List.range d).map fun level => nodeAt compress t level (siblingOf (k / 2 ^ level)) := by
  induction d generalizing t k with
  | zero => rfl
  | succ d ih =>
      rw [siblingPath, ih (half_lt_two_pow hk), List.range_succ_eq_map, List.map_cons,
        List.map_map, tile, Nat.mod_eq_of_lt (siblingOf_lt hk), pow_zero, Nat.div_one]
      congr 1
      apply List.map_congr_left
      intro level _
      show _ = nodeAt compress t (level + 1) (siblingOf (k / 2 ^ (level + 1)))
      rw [div_two_pow_succ]
      rfl

theorem siblingOf_ne (k : ℕ) : siblingOf k ≠ k := by
  unfold siblingOf
  split <;> omega

/-- A leaf is not among its own siblings. -/
theorem siblingPath_update {d : ℕ} {t : ℕ → T} {k : ℕ} (hk : k < 2 ^ d) (v : T) :
    siblingPath compress d (Function.update t k v) k = siblingPath compress d t k := by
  rw [siblingPath_eq_map hk, siblingPath_eq_map hk]
  apply List.map_congr_left
  intro level _
  exact nodeAt_update_of_ne (siblingOf_ne _)

/-- A leaf's own siblings carry it to the root. -/
theorem computeRoot_siblingPath (d : ℕ) (t : ℕ → T) (k : ℕ) :
    computeRoot compress (tile d t k) k (siblingPath compress d t k) = root compress d t := by
  induction d generalizing t k with
  | zero => simp [siblingPath, computeRoot, root]
  | succ d ih =>
      have hparent : join compress k (tile (d + 1) t k) (tile (d + 1) t (siblingOf k)) =
          tile d (above compress t) (k / 2) := by
        rw [join_siblingOf, above_tile]
      rw [siblingPath, computeRoot, root, ← ih (above compress t) (k / 2), ← hparent]
      rfl

/-- The siblings of a leaf carry whatever is put in its place to the root of the tree with that
leaf. -/
theorem computeRoot_siblingPath_update {d : ℕ} {t : ℕ → T} {k : ℕ} (hk : k < 2 ^ d) (v : T) :
    computeRoot compress v k (siblingPath compress d t k) =
      root compress d (Function.update t k v) := by
  rw [← computeRoot_siblingPath d (Function.update t k v) k, siblingPath_update hk, tile,
    Nat.mod_eq_of_lt hk, Function.update_self]

/-! ## The whole climb -/

theorem climbLevels_succ_eq_ok {depth : ℕ} {nodes top : List (ℕ × T)} {aux rest : List T} :
    climbLevels compress (depth + 1) nodes aux = .ok (top, rest) ↔
      ∃ parents aux', scanLevel compress nodes aux = .ok (parents, aux') ∧
        climbLevels compress depth parents aux' = .ok (top, rest) := by
  rw [climbLevels, Guest.bind_eq_ok, Prod.exists]

/-- A climb whose every end is the root started from leaves of the tree, each
below the end its index leads to. -/
theorem climbLevels_sound (hc : Function.Injective2 compress) :
    ∀ {d : ℕ} {t : ℕ → T} {nodes top aux rest},
      climbLevels compress d nodes aux = .ok (top, rest) →
        (∀ p ∈ top, p.2 = root compress d t) →
          ∀ n ∈ nodes, n.2 = tile d t n.1 ∧ ∃ p ∈ top, p.1 = n.1 / 2 ^ d := by
  intro d
  induction d with
  | zero =>
      intro t nodes top aux rest hrun htop n hn
      obtain ⟨rfl, rfl⟩ := Prod.mk.inj (Guest.pure_eq_ok.mp hrun)
      exact ⟨by simpa [root] using htop n hn, n, hn, by simp⟩
  | succ d ih =>
      intro t nodes top aux rest hrun htop n hn
      obtain ⟨parents, aux', hscan, hclimb⟩ := climbLevels_succ_eq_ok.mp hrun
      have hparents := ih (t := above compress t) hclimb htop
      obtain ⟨p, hp, hpn⟩ := scanLevel_parent nodes hscan n hn
      obtain ⟨q, hq, hqp⟩ := (hparents p hp).2
      refine ⟨scanLevel_sound hc nodes hscan (fun p hp => ?_) n hn, q, hq, ?_⟩
      · rw [above_tile]
        exact (hparents p hp).1
      · rw [hqp, hpn, div_two_pow_succ]

theorem parentsOf_pairwise {ks : List ℕ} (h : ks.Pairwise (· < ·)) :
    (parentsOf ks).Pairwise (· < ·) := by
  have hle : (ks.map (· / 2)).Pairwise (· ≤ ·) :=
    h.map _ fun a b hab => Nat.div_le_div_right (le_of_lt hab)
  exact ((hle.sublist (List.dedup_sublist _)).and (List.nodup_dedup _)).imp
    fun ⟨hab, hne⟩ => lt_of_le_of_ne hab hne

/-- The auxiliaries of the nodes `ks` of a depth-`d` tree: level by level from the
leaves up, the missing children of each. -/
def canonicalAuxiliaries (compress : T → T → T) : ℕ → (ℕ → T) → List ℕ → List T
  | 0, _, _ => []
  | d + 1, t, ks =>
      (missingChildren ks).map t ++
        canonicalAuxiliaries compress d (above compress t) (parentsOf ks)

/-- Over leaves of the tree the canonical auxiliaries carry the climb to the root. -/
theorem climbLevels_canonical :
    ∀ {d : ℕ} {t : ℕ → T} (nodes : List (ℕ × T)) (rest : List T), nodes ≠ [] →
      (nodes.map Prod.fst).Pairwise (· < ·) → (∀ n ∈ nodes, n.1 < 2 ^ d ∧ n.2 = t n.1) →
        climbLevels compress d nodes
            (canonicalAuxiliaries compress d t (nodes.map Prod.fst) ++ rest) =
          .ok ([(0, root compress d t)], rest) := by
  intro d
  induction d with
  | zero =>
      intro t nodes rest hne hlt hnodes
      obtain ⟨⟨k, v⟩, nodes, rfl⟩ := List.exists_cons_of_ne_nil hne
      obtain ⟨hk, hv⟩ := hnodes (k, v) List.mem_cons_self
      simp only at hv
      -- below `2 ^ 0` there is only node 0, and it stands once
      obtain rfl : k = 0 := by simpa using hk
      subst hv
      obtain rfl : nodes = [] := by
        apply List.eq_nil_iff_forall_not_mem.mpr
        intro n hn
        have hpos := (List.pairwise_cons.mp hlt).1 n.1 (List.mem_map_of_mem hn)
        have hzero := (hnodes n (List.mem_cons_of_mem _ hn)).1
        simp only [pow_zero] at hpos hzero
        omega
      rfl
  | succ d ih =>
      intro t nodes rest hne hlt hnodes
      rw [climbLevels_succ_eq_ok, canonicalAuxiliaries, List.append_assoc]
      refine ⟨_, _, scanLevel_canonical t _ nodes hlt fun n hn => (hnodes n hn).2, ?_⟩
      have hindices : ((parentsOf (nodes.map Prod.fst)).map
          fun j => (j, above compress t j)).map Prod.fst = parentsOf (nodes.map Prod.fst) := by
        simp [Function.comp_def]
      have hclimb := ih (t := above compress t)
        ((parentsOf (nodes.map Prod.fst)).map fun j => (j, above compress t j)) rest ?_ ?_ ?_
      · rwa [hindices] at hclimb
      · obtain ⟨n, nodes, rfl⟩ := List.exists_cons_of_ne_nil hne
        have hmem : n.1 / 2 ∈ parentsOf ((n :: nodes).map Prod.fst) :=
          mem_parentsOf.mpr ⟨n.1, by simp, rfl⟩
        simpa using List.ne_nil_of_mem hmem
      · rw [hindices]
        exact parentsOf_pairwise hlt
      · intro p hp
        obtain ⟨j, hj, rfl⟩ := List.mem_map.mp hp
        obtain ⟨k, hk, rfl⟩ := mem_parentsOf.mp hj
        obtain ⟨n, hn, rfl⟩ := List.mem_map.mp hk
        exact ⟨half_lt_two_pow (hnodes n hn).1, rfl⟩

/-- How many auxiliaries a climb takes depends on the indices it starts from alone. -/
theorem climbLevels_length :
    ∀ {d : ℕ} (t : ℕ → T) {nodes top aux rest},
      climbLevels compress d nodes aux = .ok (top, rest) →
        (nodes.map Prod.fst).Pairwise (· < ·) → aux.length =
          (canonicalAuxiliaries compress d t (nodes.map Prod.fst)).length + rest.length := by
  intro d
  induction d with
  | zero =>
      intro t nodes top aux rest hrun _
      obtain ⟨rfl, rfl⟩ := Prod.mk.inj (Guest.pure_eq_ok.mp hrun)
      simp [canonicalAuxiliaries]
  | succ d ih =>
      intro t nodes top aux rest hrun hlt
      obtain ⟨parents, aux', hscan, hclimb⟩ := climbLevels_succ_eq_ok.mp hrun
      obtain ⟨hparents, hlen⟩ := scanLevel_shape nodes hscan hlt
      have hrest := ih (above compress t) hclimb (hparents ▸ parentsOf_pairwise hlt)
      rw [hparents] at hrest
      rw [canonicalAuxiliaries, List.length_append, List.length_map]
      omega

/-! ## Accepted multi-openings -/

theorem batchRootColumns_eq_ok {nodes : List (ℕ × T)} {aux : List T} {depth : ℕ} {r : T} :
    batchRootColumns compress nodes aux depth = .ok r ↔
      nodes ≠ [] ∧ ∃ k, climbLevels compress depth nodes aux = .ok ([(k, r)], []) := by
  simp only [batchRootColumns, Guest.bind_eq_ok, Guest.assert_eq_ok, exists_const, Prod.exists]
  refine and_congr_right fun _ => ⟨?_, ?_⟩
  · rintro ⟨top, rest, hclimb, rfl, hmatch⟩
    rcases top with _ | ⟨⟨k, v⟩, _ | ⟨_, _⟩⟩
    · cases hmatch
    · obtain rfl := Guest.pure_eq_ok.mp hmatch
      exact ⟨k, hclimb⟩
    · cases hmatch
  · rintro ⟨k, hclimb⟩
    exact ⟨[(k, r)], [], hclimb, rfl, rfl⟩

/-- **Soundness over columns**: an accepted opening of the root names leaves of
the tree, and indices that agree above the depth. The order of the leaves plays no
part in it. -/
theorem batchRootColumns_sound (hc : Function.Injective2 compress) {t : ℕ → T} {d : ℕ}
    {nodes : List (ℕ × T)} {aux : List T}
    (hrun : batchRootColumns compress nodes aux d = .ok (root compress d t)) :
    ∃ high, ∀ n ∈ nodes, n.2 = tile d t n.1 ∧ n.1 / 2 ^ d = high := by
  obtain ⟨-, high, hclimb⟩ := batchRootColumns_eq_ok.mp hrun
  refine ⟨high, fun n hn => ?_⟩
  obtain ⟨hval, p, hp, hpn⟩ := climbLevels_sound hc (t := t) hclimb (by simp) n hn
  obtain rfl := List.mem_singleton.mp hp
  exact ⟨hval, hpn.symm⟩

theorem batchRoot_eq_ok {leaves : List (T × ℕ)} {aux : List T} {depth : ℕ} {r : T} :
    batchRoot compress leaves aux depth = .ok r ↔ (leaves.map Prod.snd).Pairwise (· < ·) ∧
      batchRootColumns compress (leaves.map Prod.swap) aux depth = .ok r := by
  rw [batchRoot, Guest.bind_eq_ok, ← List.isChain_iff_pairwise]
  simp

/-- Indices that differ but agree above bit `d` name different leaves. -/
theorem nodup_mod_two_pow {ks : List ℕ} {d high : ℕ} (hlt : ks.Pairwise (· < ·))
    (hhigh : ∀ k ∈ ks, k / 2 ^ d = high) : (ks.map (· % 2 ^ d)).Nodup := by
  refine List.Nodup.map_on (fun a ha b hb hmod => ?_) (hlt.imp fun h => ne_of_lt h)
  rw [← Nat.div_add_mod a (2 ^ d), ← Nat.div_add_mod b (2 ^ d), hhigh a ha, hhigh b hb, hmod]

theorem batchRoot_sound (hc : Function.Injective2 compress) {t : ℕ → T} {d : ℕ}
    {leaves : List (T × ℕ)} {aux : List T}
    (hrun : batchRoot compress leaves aux d = .ok (root compress d t)) :
    (∀ n ∈ leaves, n.1 = t (n.2 % 2 ^ d)) ∧ (∃ high, ∀ n ∈ leaves, n.2 / 2 ^ d = high) ∧
      (leaves.map fun n => n.2 % 2 ^ d).Nodup := by
  obtain ⟨hlt, hcolumns⟩ := batchRoot_eq_ok.mp hrun
  obtain ⟨high, hopen⟩ := batchRootColumns_sound hc hcolumns
  have hleaf : ∀ n ∈ leaves, n.1 = t (n.2 % 2 ^ d) ∧ n.2 / 2 ^ d = high :=
    fun n hn => hopen n.swap (List.mem_map_of_mem hn)
  refine ⟨fun n hn => (hleaf n hn).1, ⟨high, fun n hn => (hleaf n hn).2⟩, ?_⟩
  have hhigh : ∀ k ∈ leaves.map Prod.snd, k / 2 ^ d = high := by
    intro k hk
    obtain ⟨n, hn, rfl⟩ := List.mem_map.mp hk
    exact (hleaf n hn).2
  simpa [Function.comp_def] using nodup_mod_two_pow hlt hhigh

theorem batchRoot_canonical {t : ℕ → T} {d : ℕ} {ks : List ℕ} (hne : ks ≠ [])
    (hlt : ks.Pairwise (· < ·)) (hks : ∀ k ∈ ks, k < 2 ^ d) :
    batchRoot compress (ks.map fun k => (t k, k)) (canonicalAuxiliaries compress d t ks) d =
      .ok (root compress d t) := by
  have hindices : ((ks.map fun k => (t k, k)).map Prod.swap).map Prod.fst = ks := by
    simp [Function.comp_def]
  have hclimb : climbLevels compress d ((ks.map fun k => (t k, k)).map Prod.swap) _ =
      .ok ([(0, root compress d t)], []) :=
    climbLevels_canonical _ [] (by simpa using hne) (hindices.symm ▸ hlt) (by simpa using hks)
  rw [hindices, List.append_nil] at hclimb
  refine batchRoot_eq_ok.mpr ⟨by simpa [Function.comp_def] using hlt, ?_⟩
  exact batchRootColumns_eq_ok.mpr ⟨by simpa using hne, 0, hclimb⟩

theorem batchRoot_length {leaves : List (T × ℕ)} {aux : List T} {d : ℕ} {r : T} (t : ℕ → T)
    (hrun : batchRoot compress leaves aux d = .ok r) :
    aux.length = (canonicalAuxiliaries compress d t (leaves.map Prod.snd)).length := by
  obtain ⟨hlt, hcolumns⟩ := batchRoot_eq_ok.mp hrun
  obtain ⟨-, high, hclimb⟩ := batchRootColumns_eq_ok.mp hcolumns
  have hindices : (leaves.map Prod.swap).map Prod.fst = leaves.map Prod.snd := by
    simp [Function.comp_def]
  have hlen := climbLevels_length t hclimb (hindices.symm ▸ hlt)
  rwa [hindices, List.length_nil, Nat.add_zero] at hlen

theorem climbLevels_singleton :
    ∀ {siblings : List T} {k : ℕ} {v : T},
      climbLevels compress siblings.length [(k, v)] siblings =
        .ok ([(k / 2 ^ siblings.length, computeRoot compress v k siblings)], []) := by
  intro siblings
  induction siblings with
  | nil => intro k v; simp [climbLevels, computeRoot, pure, Except.pure]
  | cons sibling siblings ih =>
      intro k v
      rw [List.length_cons, climbLevels_succ_eq_ok]
      refine ⟨[(k / 2, join compress k v sibling)], siblings, rfl, ?_⟩
      rw [ih, div_two_pow_succ]
      rfl

/-- One leaf and its sibling path: the multi-opening is the single one. -/
theorem batchRoot_singleton (v : T) (k : ℕ) (siblings : List T) :
    batchRoot compress [(v, k)] siblings siblings.length =
      .ok (computeRoot compress v k siblings) :=
  batchRoot_eq_ok.mpr ⟨List.pairwise_singleton _ _,
    batchRootColumns_eq_ok.mpr ⟨by simp, _, climbLevels_singleton⟩⟩

/-- **Batch multi-openings are sound and complete.**

* An accepted opening of the root of `t` names leaves of `t`; its indices agree
  above bit `d`, and no two of them name one leaf.
* Every non-empty strictly increasing index set below `2 ^ d` is opened by its
  canonical auxiliaries, and no list of another length opens it to anything,
  whatever the leaf values.
* A single leaf with its sibling path is what `computeRoot` makes of them. -/
theorem batchRoot_sound_complete (hc : Function.Injective2 compress) (d : ℕ) (t : ℕ → T) :
    (∀ (leaves : List (T × ℕ)) (aux : List T),
      batchRoot compress leaves aux d = .ok (root compress d t) →
        (∀ n ∈ leaves, n.1 = t (n.2 % 2 ^ d)) ∧ (∃ high, ∀ n ∈ leaves, n.2 / 2 ^ d = high) ∧
          (leaves.map fun n => n.2 % 2 ^ d).Nodup) ∧
    (∀ ks : List ℕ, ks ≠ [] → ks.Pairwise (· < ·) → (∀ k ∈ ks, k < 2 ^ d) →
      batchRoot compress (ks.map fun k => (t k, k)) (canonicalAuxiliaries compress d t ks) d =
          .ok (root compress d t) ∧
        ∀ (leaves : List (T × ℕ)) (aux : List T) (r : T), leaves.map Prod.snd = ks →
          batchRoot compress leaves aux d = .ok r →
            aux.length = (canonicalAuxiliaries compress d t ks).length) ∧
    (∀ (v : T) (k : ℕ) (siblings : List T), siblings.length = d →
      batchRoot compress [(v, k)] siblings d = .ok (computeRoot compress v k siblings)) := by
  refine ⟨fun leaves aux hrun => batchRoot_sound hc hrun, fun ks hne hlt hks => ?_, ?_⟩
  · refine ⟨batchRoot_canonical hne hlt hks, ?_⟩
    rintro leaves aux r rfl hrun
    exact batchRoot_length t hrun
  · rintro v k siblings rfl
    exact batchRoot_singleton v k siblings

/-- Leaves 1 and 2 of a four-leaf tree of free terms: two auxiliaries, neither of them shared. -/
theorem batchRoot_sound_complete_free :
    canonicalAuxiliaries FreeMagma.mul 2 FreeMagma.of [1, 2] =
        [FreeMagma.of 0, FreeMagma.of 3] ∧
      batchRoot FreeMagma.mul [(FreeMagma.of 1, 1), (FreeMagma.of 2, 2)]
          [FreeMagma.of 0, FreeMagma.of 3] 2 =
        .ok (root FreeMagma.mul 2 FreeMagma.of) :=
  ⟨rfl, ((batchRoot_sound_complete (fun _ _ _ _ h => by injection h with hl hr; exact ⟨hl, hr⟩)
    2 FreeMagma.of).2.1 [1, 2] (by decide) (by decide) (by decide)).1⟩

end Zkasper.Merkle
