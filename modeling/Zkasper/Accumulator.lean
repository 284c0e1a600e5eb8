import Zkasper.Merkle
import Zkasper.Types
import Mathlib.Algebra.BigOperators.Intervals

/-! # The accumulator

What an accumulator root stands for: a validator, or nothing, at every position of
a perfect tree. The circuits only ever hold the root and the total, so these
contents are the abstract side of every statement about them — which leaves a root
has, and what they sum to in the wrapping arithmetic the totals are kept in. -/

namespace Zkasper

open PerfectTree Merkle

variable (P : Primitives)

/-- One occupied leaf: the preimage `acc::leaf` hashes. -/
structure AccLeaf where
  pubkey : P.G1Point
  activeEffectiveBalance : UInt64

/-- The contents of an accumulator tree. A tree of depth `d` reads the positions below `2 ^ d`. -/
abbrev Contents := ℕ → Option (AccLeaf P)

variable {P}

namespace Contents

/-- The digest at a position: an empty one holds `ZERO`. -/
def digest (t : Contents P) (i : ℕ) : P.Digest :=
  match t i with
  | none => P.zero
  | some l => P.leaf l.pubkey l.activeEffectiveBalance

/-- The accumulator root of the contents. -/
def accRoot (d : ℕ) (t : Contents P) : P.Digest := root P.compress d t.digest

/-- The balance at a position, an empty one counting 0. -/
def balance (t : Contents P) (i : ℕ) : UInt64 := (t i).elim 0 (·.activeEffectiveBalance)

/-- The sum of the leaf balances, in 64-bit arithmetic. -/
def totalActiveBalance (d : ℕ) (t : Contents P) : UInt64 :=
  UInt64.ofNat (∑ i ∈ Finset.range (2 ^ d), (t.balance i).toNat)

/-! ## Writing one leaf -/

theorem digest_update (t : Contents P) (k : ℕ) (l : AccLeaf P) :
    digest (Function.update t k (some l)) =
      Function.update t.digest k (P.leaf l.pubkey l.activeEffectiveBalance) := by
  funext i
  by_cases h : i = k
  · subst h
    simp [digest]
  · simp [digest, Function.update_of_ne h]

@[simp] theorem balance_update_self (t : Contents P) (k : ℕ) (l : AccLeaf P) :
    balance (Function.update t k (some l)) k = l.activeEffectiveBalance := by
  simp [balance]

theorem balance_update_of_ne (t : Contents P) {k i : ℕ} (l : AccLeaf P) (h : i ≠ k) :
    balance (Function.update t k (some l)) i = t.balance i := by
  simp [balance, Function.update_of_ne h]

/-- Writing a leaf moves the total by the difference of the two balances. -/
theorem totalActiveBalance_update {d k : ℕ} (t : Contents P) (l : AccLeaf P) (hk : k < 2 ^ d) :
    totalActiveBalance d (Function.update t k (some l)) =
      totalActiveBalance d t - t.balance k + l.activeEffectiveBalance := by
  have hmem : k ∈ Finset.range (2 ^ d) := Finset.mem_range.mpr hk
  have hrest : ∑ i ∈ (Finset.range (2 ^ d)).erase k,
      (balance (Function.update t k (some l)) i).toNat =
        ∑ i ∈ (Finset.range (2 ^ d)).erase k, (t.balance i).toNat :=
    Finset.sum_congr rfl fun i hi => by
      rw [balance_update_of_ne t l (Finset.ne_of_mem_erase hi)]
  unfold totalActiveBalance
  rw [← Finset.add_sum_erase _ _ hmem, ← Finset.add_sum_erase _ _ hmem, hrest,
    balance_update_self, UInt64.ofNat_add, UInt64.ofNat_add, UInt64.ofNat_toNat,
    UInt64.ofNat_toNat, UInt64.add_comm (t.balance k), UInt64.add_sub_cancel, UInt64.add_comm]

/-! ## Opening one leaf -/

/-- A leaf opened against the root of the contents is the leaf at its position,
whatever index bits lie above the depth. -/
theorem eq_of_leaf (hP : CollisionFree P) {t : Contents P} {i : ℕ} {p : P.G1Point} {b : UInt64}
    (h : P.leaf p b = t.digest i) : t i = some ⟨p, b⟩ := by
  unfold digest at h
  split at h
  · exact absurd h (hP.leaf_ne_zero p b)
  · next l hl =>
      obtain ⟨rfl, rfl⟩ := hP.leaf h
      exact hl

theorem eq_none_of_zero (hP : CollisionFree P) {t : Contents P} {i : ℕ}
    (h : P.zero = t.digest i) : t i = none := by
  unfold digest at h
  split at h
  · assumption
  · exact absurd h.symm (hP.leaf_ne_zero _ _)

/-- Contents with one root hold the same leaves. -/
theorem eq_of_accRoot (hP : CollisionFree P) {s t : Contents P} {d : ℕ}
    (h : accRoot d s = accRoot d t) : ∀ i < 2 ^ d, s.digest i = t.digest i :=
  root_injective hP.compress h

theorem accRoot_update (t : Contents P) (d k : ℕ) (l : AccLeaf P) :
    accRoot d (Function.update t k (some l)) =
      root P.compress d
        (Function.update t.digest k (P.leaf l.pubkey l.activeEffectiveBalance)) := by
  rw [accRoot, digest_update]

end Contents
end Zkasper
