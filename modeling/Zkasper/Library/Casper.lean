import Mathlib.Algebra.Order.BigOperators.Group.Finset
import Mathlib.Logic.Relation

/-! # Links between checkpoints

What a finality gadget promises, over any set of links and any order of epochs. A
link goes from one checkpoint to another, and each of them has a quorum behind it.
A checkpoint is justified from another when links lead from one to the other, and
it is finalized when a link leads from it to a checkpoint of the very next epoch.

Two links conflict when nobody may sign both: they have different targets of one
epoch, or one of them spans the other. `descends_or_conflict` is the argument of
the gadget: whatever is justified at a later epoch is justified from a finalized
checkpoint, or two links conflict. `twoThirds_overlap` is what a conflict costs:
quorums of two thirds have members in common, even where the members were weighed
differently for each of them. -/

namespace Casper

variable {E R : Type}

/-- An epoch, and the block at its boundary. -/
structure Checkpoint (E R : Type) where
  epoch : E
  root : R

/-- A source, and a target voted for from it. -/
structure Link (E R : Type) where
  source : Checkpoint E R
  target : Checkpoint E R

/-- Links lead from one checkpoint to the other. -/
def Descends (links : Link E R → Prop) : Checkpoint E R → Checkpoint E R → Prop :=
  Relation.ReflTransGen fun source target => links ⟨source, target⟩

section Order

variable [LinearOrder E]

/-- **Two links nobody may sign both of.** -/
inductive Conflict (l l' : Link E R) : Prop
  /-- They have two targets at one epoch. -/
  | double (epoch : l.target.epoch = l'.target.epoch) (root : l.target.root ≠ l'.target.root)
  /-- The first spans the second. -/
  | surround (source : l.source.epoch < l'.source.epoch)
      (target : l'.target.epoch < l.target.epoch)

variable {links : Link E R → Prop} {into out : Link E R}

/-- Two targets of one epoch are the same checkpoint, or their links conflict. -/
theorem eq_or_conflict (l l' : Link E R) (h : l.target.epoch = l'.target.epoch) :
    l.target = l'.target ∨ Conflict l l' := by
  obtain ⟨_, epoch, root⟩ := l
  obtain ⟨_, epoch', root'⟩ := l'
  obtain rfl : epoch = epoch' := h
  by_cases hroot : root = root'
  · exact .inl (congrArg (Checkpoint.mk epoch) hroot)
  · exact .inr (.double rfl hroot)

/-- **Accountable safety.** A link into a checkpoint and a link on from it to the
next epoch finalize it. From then on whatever the links justify, from an origin
before it, they justify from it, unless two of them conflict. -/
theorem descends_or_conflict (hinto : links into) (hout : links out)
    (hfinal : out.source = into.target)
    (hnext : ∀ e, into.target.epoch < e → out.target.epoch ≤ e) {origin c : Checkpoint E R}
    (horigin : origin.epoch < into.target.epoch) (hc : Descends links origin c)
    (hle : into.target.epoch ≤ c.epoch) :
    Descends links into.target c ∨ ∃ l l', links l ∧ links l' ∧ Conflict l l' := by
  -- from the last link back: each but the one that leaves the finalized epoch starts after it
  induction hc with
  | refl => exact absurd horigin (not_lt.mpr hle)
  | @tail b c _ hlink ih =>
      rcases hle.eq_or_lt with heq | hlt
      · rcases eq_or_conflict into ⟨b, c⟩ heq with hsame | hconflict
        · exact .inl (hsame ▸ .refl)
        · exact .inr ⟨_, _, hinto, hlink, hconflict⟩
      · rcases (hnext _ hlt).eq_or_lt with heq | hpast
        · rcases eq_or_conflict out ⟨b, c⟩ heq with hsame | hconflict
          · left
            apply Relation.ReflTransGen.single
            show links ⟨into.target, c⟩
            rw [← hfinal, ← show out.target = c from hsame]
            exact hout
          · exact .inr ⟨_, _, hout, hlink, hconflict⟩
        · by_cases hbefore : b.epoch < into.target.epoch
          · -- this link spans the one out of the finalized checkpoint
            have hsource : b.epoch < out.source.epoch := hfinal ▸ hbefore
            exact .inr ⟨⟨b, c⟩, out, hlink, hout, .surround hsource hpast⟩
          · rcases ih (not_lt.mp hbefore) with hdescends | hconflict
            · exact .inl (hdescends.tail hlink)
            · exact .inr hconflict

end Order

/-! ## Quorums -/

section Quorum

variable {ι : Type} [DecidableEq ι] {V A B : Finset ι}

/-- Two parts of a whole, weighed by two scales: they are no heavier than the
whole, what the second scale adds to it, and what they have in common. -/
theorem sum_add_sum_le (hA : A ⊆ V) (hB : B ⊆ V) (w w' : ι → ℕ) :
    ∑ i ∈ A, w i + ∑ i ∈ B, w' i ≤
      ∑ i ∈ V, w i + ∑ i ∈ V, (w' i - w i) + ∑ i ∈ A ∩ B, w i := by
  have hscale : ∑ i ∈ B, w' i ≤ ∑ i ∈ B, w i + ∑ i ∈ B, (w' i - w i) := by
    rw [← Finset.sum_add_distrib]
    apply Finset.sum_le_sum
    intro i _
    omega
  have hgained : ∑ i ∈ B, (w' i - w i) ≤ ∑ i ∈ V, (w' i - w i) := Finset.sum_le_sum_of_subset hB
  have hunion : ∑ i ∈ A ∪ B, w i ≤ ∑ i ∈ V, w i :=
    Finset.sum_le_sum_of_subset (Finset.union_subset hA hB)
  have hsplit : ∑ i ∈ A ∪ B, w i + ∑ i ∈ A ∩ B, w i = ∑ i ∈ A, w i + ∑ i ∈ B, w i :=
    Finset.sum_union_inter
  omega

/-- **Quorums of two thirds overlap**: in a third of the whole, where it weighs the
same for both of them. -/
theorem twoThirds_overlap (hA : A ⊆ V) (hB : B ⊆ V) {w w' : ι → ℕ} {total total' : ℕ}
    (hquorum : 2 * total ≤ 3 * ∑ i ∈ A, w i) (hquorum' : 2 * total' ≤ 3 * ∑ i ∈ B, w' i) :
    2 * total + 2 * total' ≤
      3 * (∑ i ∈ V, w i + ∑ i ∈ V, (w' i - w i) + ∑ i ∈ A ∩ B, w i) := by
  have hsum := sum_add_sum_le hA hB w w'
  omega

end Quorum
end Casper
