import Zkasper.Accumulator

/-! # The committee tree

One leaf per slot of the epoch: the summed key and the summed balance of that
slot's committee. The circuits that count a slot open its aggregate against the
root of this tree. -/

namespace Zkasper.Committee

open PerfectTree Merkle

variable {P : Primitives}

/-- Depth of the per-epoch committee tree. -/
def treeDepth : ℕ := 5

/-- Slots a committee tree can hold. -/
def maxSlots : ℕ := 2 ^ treeDepth

/-- Hash one slot's committee aggregate: the hash of an accumulator leaf. -/
def leaf (aggregate : CommitteeAggregate P) : P.Digest :=
  P.leaf aggregate.pubkey aggregate.balance

/-- The leaves of the tree over `slots`: slots with no committee are the zero digest. -/
def slotLeaf (slots : List (Option (CommitteeAggregate P))) (s : ℕ) : P.Digest :=
  match slots[s]?.join with
  | some aggregate => leaf aggregate
  | none => P.zero

/-- Root of a committee tree over `slots`, indexed by slot within the epoch. -/
def root (slots : List (Option (CommitteeAggregate P))) : Guest P.Digest := do
  Guest.assert (slots.length ≤ maxSlots) s!"committee tree holds {maxSlots} slots"
  return PerfectTree.root P.compress treeDepth (slotLeaf slots)

theorem root_eq_ok {slots : List (Option (CommitteeAggregate P))} {r : P.Digest} :
    root slots = .ok r ↔ slots.length ≤ maxSlots ∧
      PerfectTree.root P.compress treeDepth (slotLeaf slots) = r := by
  simp only [root, Guest.bind_eq_ok, Guest.assert_eq_ok, Guest.pure_eq_ok, exists_const]

/-- An aggregate that opens as a leaf is the slot's. -/
theorem slotLeaf_eq (hP : CollisionFree P) {slots : List (Option (CommitteeAggregate P))} {s : ℕ}
    {aggregate : CommitteeAggregate P} (h : leaf aggregate = slotLeaf slots s) :
    slots[s]?.join = some aggregate := by
  unfold slotLeaf at h
  split at h
  · next a ha =>
      obtain ⟨hkey, hbalance⟩ := hP.leaf h
      obtain ⟨pubkey, balance⟩ := aggregate
      rw [ha, show a = ⟨pubkey, balance⟩ from by cases a; simp_all]
  · exact absurd h (hP.leaf_ne_zero _ _)

end Zkasper.Committee
