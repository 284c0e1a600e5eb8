import Mathlib.Logic.Function.Basic
import Mathlib.Data.Nat.ModEq
import Mathlib.Tactic.Common
import Mathlib.Tactic.Linarith

/-! # Perfect binary trees over a two-to-one compression

A perfect tree of depth `d` is given by its leaves, a function of which only the
positions below `2 ^ d` are read. `above` is the level over a level, and `root`
takes `d` of those steps: the tree is folded bottom-up, the direction every
opening of it is checked in.

With an injective compression a root determines its leaves (`root_injective`), and
that is all the binding a Merkle tree has. The index arithmetic of an opening —
halving, and the bit that says which child a node is — is collected here too, so
that nothing over it has to reason about `2 ^ d` again. -/

namespace PerfectTree

variable {T : Type*} (compress : T → T → T)

/-- The level over `t`: node `i` compresses the nodes `2 * i` and `2 * i + 1`. -/
def above (t : ℕ → T) (i : ℕ) : T := compress (t (2 * i)) (t (2 * i + 1))

/-- The root of the depth-`d` tree over the leaves `t 0, …, t (2 ^ d - 1)`. -/
def root : ℕ → (ℕ → T) → T
  | 0, t => t 0
  | d + 1, t => root d (above compress t)

/-- The nodes `level` steps above the leaves. -/
def nodeAt (t : ℕ → T) (level : ℕ) : ℕ → T := (above compress)^[level] t

/-- `v` and its sibling, in the order their parent compresses them: an even node
is a left child. -/
def join (k : ℕ) (v sibling : T) : T :=
  if k % 2 = 0 then compress v sibling else compress sibling v

/-- The node that shares a parent with node `k`. -/
def siblingOf (k : ℕ) : ℕ := if k % 2 = 0 then k + 1 else k - 1

/-! ## Index arithmetic -/

theorem mod_two_pow_succ (k d : ℕ) : k % 2 ^ (d + 1) = 2 * (k / 2 % 2 ^ d) + k % 2 := by
  have hdiv : k % (2 * 2 ^ d) / 2 = k / 2 % 2 ^ d := Nat.mod_mul_right_div_self k 2 (2 ^ d)
  have hmod : k % (2 * 2 ^ d) % 2 = k % 2 := Nat.mod_mul_right_mod k 2 (2 ^ d)
  rw [Nat.pow_succ', ← hdiv, ← hmod]
  omega

theorem div_two_pow_succ (k d : ℕ) : k / 2 ^ (d + 1) = k / 2 / 2 ^ d := by
  rw [Nat.pow_succ', Nat.div_div_eq_div_mul]

theorem half_lt_two_pow {k d : ℕ} (h : k < 2 ^ (d + 1)) : k / 2 < 2 ^ d := by
  rw [Nat.pow_succ'] at h
  omega

theorem siblingOf_lt {k d : ℕ} (h : k < 2 ^ (d + 1)) : siblingOf k < 2 ^ (d + 1) := by
  rw [Nat.pow_succ] at h ⊢
  unfold siblingOf
  split <;> omega

theorem siblingOf_mod_two_pow (k d : ℕ) :
    siblingOf k % 2 ^ (d + 1) = siblingOf (k % 2 ^ (d + 1)) := by
  have hpos : 0 < 2 ^ d := Nat.two_pow_pos d
  have hk := mod_two_pow_succ k d
  have hs := mod_two_pow_succ (siblingOf k) d
  have hhalf : siblingOf k / 2 = k / 2 := by unfold siblingOf; split <;> omega
  rw [hhalf] at hs
  rw [hs, hk]
  unfold siblingOf
  split <;> split <;> omega

/-! ## Nodes and their parents -/

/-- A node joined with its sibling is its parent. -/
theorem join_siblingOf (t : ℕ → T) (k : ℕ) :
    join compress k (t k) (t (siblingOf k)) = above compress t (k / 2) := by
  unfold join siblingOf above
  split
  · rw [show 2 * (k / 2) = k by omega]
  · rw [show 2 * (k / 2) = k - 1 by omega, show k - 1 + 1 = k by omega]

/-- Under an injective compression a joined pair is a parent only if each half is
the child on its side. -/
theorem join_eq_above {compress : T → T → T} (hc : Function.Injective2 compress) {t : ℕ → T}
    {k : ℕ} {v sibling : T} (h : join compress k v sibling = above compress t (k / 2)) :
    v = t k ∧ sibling = t (siblingOf k) := by
  rw [← join_siblingOf] at h
  unfold join at h
  split at h
  · exact hc h
  · exact (hc h).symm

/-- Replacing one leaf replaces exactly its parent on the level above. -/
theorem above_update (t : ℕ → T) (k : ℕ) (v : T) :
    above compress (Function.update t k v) =
      Function.update (above compress t) (k / 2) (join compress k v (t (siblingOf k))) := by
  funext i
  by_cases hi : i = k / 2
  · subst hi
    rw [Function.update_self, ← join_siblingOf, Function.update_self,
      Function.update_of_ne (by unfold siblingOf; split <;> omega)]
  · rw [Function.update_of_ne hi]
    unfold above
    rw [Function.update_of_ne (by omega), Function.update_of_ne (by omega)]

theorem join_mod_two_pow (k d : ℕ) (v sibling : T) :
    join compress (k % 2 ^ (d + 1)) v sibling = join compress k v sibling := by
  unfold join
  rw [mod_two_pow_succ, show (2 * (k / 2 % 2 ^ d) + k % 2) % 2 = k % 2 by omega]

/-! ## Indices past the tree

An opening shifts out the index bits above the depth of the tree, so it sees the
leaves repeated over the whole index range. -/

/-- The leaves of a depth-`d` tree, repeated over every index. -/
def tile (d : ℕ) (t : ℕ → T) (i : ℕ) : T := t (i % 2 ^ d)

@[simp] theorem tile_zero (t : ℕ → T) (k : ℕ) : tile 0 t k = t 0 := by
  rw [tile, pow_zero, Nat.mod_one]

/-- The level over a repeated level repeats too. -/
theorem above_tile (d : ℕ) (t : ℕ → T) :
    above compress (tile (d + 1) t) = tile d (above compress t) := by
  funext i
  have hleft : 2 * i % 2 ^ (d + 1) = 2 * (i % 2 ^ d) := by
    rw [mod_two_pow_succ, show 2 * i / 2 = i by omega]
    omega
  have hright : (2 * i + 1) % 2 ^ (d + 1) = 2 * (i % 2 ^ d) + 1 := by
    rw [mod_two_pow_succ, show (2 * i + 1) / 2 = i by omega]
    omega
  unfold above tile
  rw [hleft, hright]

/-! ## Roots -/

/-- The root reads only the leaves below `2 ^ d`. -/
theorem root_congr {s t : ℕ → T} :
    ∀ {d : ℕ}, (∀ i < 2 ^ d, s i = t i) → root compress d s = root compress d t := by
  intro d
  induction d generalizing s t with
  | zero => intro h; exact h 0 (by decide)
  | succ d ih =>
      intro h
      apply ih
      intro i hi
      rw [Nat.pow_succ] at h
      unfold above
      rw [h _ (by omega), h _ (by omega)]

/-- **Binding**: under an injective compression two trees with one root have the same leaves. -/
theorem root_injective {compress : T → T → T} (hc : Function.Injective2 compress)
    {s t : ℕ → T} : ∀ {d : ℕ}, root compress d s = root compress d t → ∀ i < 2 ^ d, s i = t i := by
  intro d
  induction d generalizing s t with
  | zero =>
      intro h i hi
      obtain rfl : i = 0 := by simpa using hi
      exact h
  | succ d ih =>
      intro h i hi
      have habove := ih h (i / 2) (half_lt_two_pow hi)
      rw [← join_siblingOf] at habove
      exact (join_eq_above hc habove).1

/-! ## Nodes -/

section Nodes

variable {compress} {t : ℕ → T}

@[simp] theorem nodeAt_zero : nodeAt compress t 0 = t := rfl

theorem nodeAt_succ (level : ℕ) :
    nodeAt compress t (level + 1) = above compress (nodeAt compress t level) :=
  Function.iterate_succ_apply' _ _ _

/-- The root is the one node of the last level. -/
theorem root_eq_nodeAt : ∀ (d : ℕ) (t : ℕ → T), root compress d t = nodeAt compress t d 0
  | 0, _ => rfl
  | d + 1, t => root_eq_nodeAt d (above compress t)

/-- Over equal leaves every node of a level is the same. -/
theorem nodeAt_of_const {z : T} {level i : ℕ} (h : ∀ j, i * 2 ^ level ≤ j → t j = z) :
    nodeAt compress t level i = (fun z => compress z z)^[level] z := by
  induction level generalizing i with
  | zero => exact h i (by simp)
  | succ level ih =>
      have hleft : nodeAt compress t level (2 * i) = (fun z => compress z z)^[level] z :=
        ih fun j hj => h j (by rw [pow_succ]; linarith)
      have hright : nodeAt compress t level (2 * i + 1) = (fun z => compress z z)^[level] z :=
        ih fun j hj => h j (by rw [pow_succ]; linarith [Nat.zero_le (2 ^ level)])
      rw [nodeAt_succ, above, hleft, hright, Function.iterate_succ_apply']

/-- Replacing one leaf changes no node beside the path over it. -/
theorem nodeAt_update_of_ne {k : ℕ} {v : T} {level i : ℕ} (h : i ≠ k / 2 ^ level) :
    nodeAt compress (Function.update t k v) level i = nodeAt compress t level i := by
  induction level generalizing i with
  | zero =>
      rw [pow_zero, Nat.div_one] at h
      exact Function.update_of_ne h _ _
  | succ level ih =>
      have hhalf : k / 2 ^ (level + 1) = k / 2 ^ level / 2 := by
        rw [pow_succ, Nat.div_div_eq_div_mul]
      rw [nodeAt_succ, nodeAt_succ, above, above, ih (by omega), ih (by omega)]

end Nodes

/-! ## Dense prefixes

A tree whose leaves are all one value from some power of two on is kept by the
levels under that power of two: every node beside them and above them hashes that
one value. -/

/-- **A dense prefix of the tree over `t`**: the levels up to `dense`, node for node,
and the hashes of the padding value up to `depth`. From `2 ^ dense` on every leaf is
the padding value. -/
structure Dense (compress : T → T → T) (zero : T) (depth dense : ℕ) (levels : List (List T))
    (zeroHashes : List T) (t : ℕ → T) : Prop where
  dense_le : dense ≤ depth
  levels : ∀ level ≤ dense, levels.getD level [] =
    (List.range (2 ^ (dense - level))).map (nodeAt compress t level)
  zeroHashes : ∀ level ≤ depth,
    zeroHashes.getD level zero = (fun zero => compress zero zero)^[level] zero
  empty : ∀ i, 2 ^ dense ≤ i → t i = zero

namespace Dense

variable {compress} {zero : T} {depth dense : ℕ} {levels : List (List T)} {zeroHashes : List T}
  {t : ℕ → T}

/-- Beyond the dense levels, and beside them, every node is a zero hash. -/
theorem zeroHash (h : Dense compress zero depth dense levels zeroHashes t) {level i : ℕ}
    (hlevel : level ≤ depth) (hi : 2 ^ dense ≤ i * 2 ^ level) :
    zeroHashes.getD level zero = nodeAt compress t level i := by
  rw [h.zeroHashes level hlevel]
  exact (nodeAt_of_const fun j hj => h.empty j (hi.trans hj)).symm

/-- A node looked up in the levels, and taken to be a zero hash where they have none. Node 0
above the dense levels is the one such a look-up gets wrong. -/
theorem node_eq (h : Dense compress zero depth dense levels zeroHashes t) {level i : ℕ}
    (hlevel : level ≤ depth) (hkept : i ≠ 0 ∨ level < dense) :
    (if level < dense then ((levels.getD level [])[i]?).getD (zeroHashes.getD level zero)
      else zeroHashes.getD level zero) = nodeAt compress t level i := by
  by_cases hdense : level < dense
  · have hsplit : 2 ^ dense = 2 ^ (dense - level) * 2 ^ level := by
      rw [← pow_add, show dense - level + level = dense by omega]
    rw [if_pos hdense, h.levels level hdense.le, List.getElem?_map]
    by_cases hin : i < 2 ^ (dense - level)
    · rw [List.getElem?_range hin]
      rfl
    · rw [List.getElem?_eq_none (by simpa using hin)]
      apply h.zeroHash hlevel
      rw [hsplit]
      exact Nat.mul_le_mul_right _ (not_lt.mp hin)
  · rw [if_neg hdense]
    apply h.zeroHash hlevel
    calc 2 ^ dense ≤ 2 ^ level := Nat.pow_le_pow_right (by omega) (not_lt.mp hdense)
      _ ≤ i * 2 ^ level := Nat.le_mul_of_pos_left _ (by omega)

/-- The dense root, chained through the zero hashes above it, is the root of the tree. -/
theorem root_eq (h : Dense compress zero depth dense levels zeroHashes t) :
    (List.range' dense (depth - dense)).foldl
        (fun current d => compress current (zeroHashes.getD d zero))
        ((levels.getD dense []).getD 0 zero) = root compress depth t := by
  -- every level past the dense one adds a zero hash on the right
  have hclimb : ∀ n level, dense ≤ level → level + n = depth →
      (List.range' level n).foldl
          (fun current d => compress current (zeroHashes.getD d zero))
          (nodeAt compress t level 0) = nodeAt compress t depth 0 := by
    intro n
    induction n with
    | zero =>
        intro level _ hlevel
        rw [← hlevel]
        rfl
    | succ n ih =>
        intro level hdense hlevel
        have hright : zeroHashes.getD level zero = nodeAt compress t level 1 := by
          apply h.zeroHash (by omega)
          rw [Nat.one_mul]
          exact Nat.pow_le_pow_right (by omega) hdense
        rw [List.range'_succ, List.foldl_cons, hright, ← ih (level + 1) (by omega) (by omega),
          nodeAt_succ]
        rfl
  have hdense : (levels.getD dense []).getD 0 zero = nodeAt compress t dense 0 := by
    rw [h.levels _ le_rfl, Nat.sub_self]
    rfl
  rw [hdense, root_eq_nodeAt]
  exact hclimb _ _ le_rfl (Nat.add_sub_cancel' h.dense_le)

end Dense

end PerfectTree
