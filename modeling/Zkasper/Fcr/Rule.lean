import Mathlib.Data.UInt
import Mathlib.Tactic.Common

/-! # The fast confirmation rule

The rule's arithmetic comes from a dependency that is not part of the repository,
so it is a parameter here: `FastConfirmation` is what the circuit and the verifier
call, and `RuleSpec` the specification's own functions over the naturals, of which
only the monotonicity is known. `Implements` ties the two together wherever the
arithmetic does not overflow.

`RuleSpec.threshold` is the specification's safety threshold of a slot range. It
grows with the range (`RuleSpec.threshold_mono`), and that is the one fact about
it that decides whether a verdict over one range says anything about another. -/

namespace Zkasper.Fcr

/-- `SLOTS_PER_EPOCH` -/
def slotsPerEpoch : UInt64 := 32

/-- The functions of `fast_confirmation` the repository calls, `none` where they overflow. -/
structure FastConfirmation where
  /-- `estimate_committee_weight_between_slots`, for a number of slots per epoch -/
  estimateCommitteeWeightBetweenSlots :
    (slotsPerEpoch totalActiveBalance startSlot endSlot : UInt64) → Option UInt64
  computeProposerScore :
    (totalActiveBalance slotsPerEpoch proposerScoreBoost : UInt64) → Option UInt64
  maxAdversarialWeight : (maximumSupport byzantineThreshold : UInt64) → Option UInt64
  adversarialWeight : (weight score : UInt64) → UInt64
  safetyThreshold :
    (maximumSupport proposerScore adversarialWeight supportDiscount : UInt64) → Option UInt64
  isOneConfirmed : (invalid : Bool) → (support threshold : UInt64) → Bool

/-- The specification's functions. -/
structure RuleSpec where
  maximumSupport : (slotsPerEpoch totalActiveBalance startSlot endSlot : ℕ) → ℕ
  proposerScore : (totalActiveBalance slotsPerEpoch proposerScoreBoost : ℕ) → ℕ
  maxAdversarialWeight : (maximumSupport byzantineThreshold : ℕ) → ℕ
  maximumSupport_mono : ∀ n t s e s' e', s' ≤ s → e ≤ e' →
    maximumSupport n t s e ≤ maximumSupport n t s' e'
  maximumSupport_empty : ∀ n t s e, e < s → maximumSupport n t s e = 0
  maxAdversarialWeight_mono : ∀ b, Monotone fun m => maxAdversarialWeight m b

/-- What a threshold is computed from, besides the slot range. -/
structure RuleInput where
  slotsPerEpoch : ℕ
  totalActiveBalance : ℕ
  byzantineThreshold : ℕ
  proposerScoreBoost : ℕ
  /-- Support that went to the inherited head in slots without a block. -/
  emptySlotSupport : ℕ

namespace RuleSpec

variable (R : RuleSpec)

/-- `(maximum_support + proposer_score + 2 * adversarial_weight -
support_discount) / 2` over the slots `startSlot..=endSlot`; the discount is the
empty-slot support less what the adversary could have supplied. -/
def threshold (i : RuleInput) (startSlot endSlot : ℕ) : ℕ :=
  let maximumSupport := R.maximumSupport i.slotsPerEpoch i.totalActiveBalance startSlot endSlot
  let adversarial := R.maxAdversarialWeight maximumSupport i.byzantineThreshold
  (maximumSupport + R.proposerScore i.totalActiveBalance i.slotsPerEpoch i.proposerScoreBoost +
    2 * adversarial - (i.emptySlotSupport - adversarial)) / 2

/-- A wider range has no smaller threshold. -/
theorem threshold_mono (i : RuleInput) {s e s' e' : ℕ} (hs : s' ≤ s) (he : e ≤ e') :
    R.threshold i s e ≤ R.threshold i s' e' := by
  have hmax := R.maximumSupport_mono i.slotsPerEpoch i.totalActiveBalance s e s' e' hs he
  have hadv := R.maxAdversarialWeight_mono i.byzantineThreshold hmax
  simp only at hadv
  unfold threshold
  refine Nat.div_le_div_right ?_
  omega

end RuleSpec

/-- The dependency computes the specification wherever it computes anything. -/
structure FastConfirmation.Implements (fc : FastConfirmation) (R : RuleSpec) : Prop where
  estimate : ∀ n t s e v, fc.estimateCommitteeWeightBetweenSlots n t s e = some v →
    v.toNat = R.maximumSupport n.toNat t.toNat s.toNat e.toNat
  proposerScore : ∀ t n b v, fc.computeProposerScore t n b = some v →
    v.toNat = R.proposerScore t.toNat n.toNat b.toNat
  maxAdversarialWeight : ∀ m b v, fc.maxAdversarialWeight m b = some v →
    v.toNat = R.maxAdversarialWeight m.toNat b.toNat
  adversarialWeight : ∀ w s, (fc.adversarialWeight w s).toNat = w.toNat - s.toNat
  safetyThreshold : ∀ m p a d v, fc.safetyThreshold m p a d = some v →
    v.toNat = (m.toNat + p.toNat + 2 * a.toNat - d.toNat) / 2
  isOneConfirmed : ∀ invalid s t, fc.isOneConfirmed invalid s t = (!invalid && t < s)

/-! ## A dependency for every specification -/

/-- A natural number as a `u64`, where it is one. -/
def toU64? (n : ℕ) : Option UInt64 := if n < 2 ^ 64 then some (UInt64.ofNat n) else none

theorem toU64?_eq_some {n : ℕ} {v : UInt64} (h : toU64? n = some v) : v.toNat = n := by
  unfold toU64? at h
  split at h
  · next hlt =>
      obtain rfl := Option.some.inj h
      rw [UInt64.toNat_ofNat', Nat.mod_eq_of_lt hlt]
  · cases h

/-- The dependency that computes a specification exactly and fails on overflow alone. -/
def FastConfirmation.ofSpec (R : RuleSpec) : FastConfirmation where
  estimateCommitteeWeightBetweenSlots n t s e :=
    toU64? (R.maximumSupport n.toNat t.toNat s.toNat e.toNat)
  computeProposerScore t n b := toU64? (R.proposerScore t.toNat n.toNat b.toNat)
  maxAdversarialWeight m b := toU64? (R.maxAdversarialWeight m.toNat b.toNat)
  adversarialWeight w s := if s ≤ w then w - s else 0
  safetyThreshold m p a d := toU64? ((m.toNat + p.toNat + 2 * a.toNat - d.toNat) / 2)
  isOneConfirmed invalid s t := !invalid && t < s

theorem FastConfirmation.ofSpec_implements (R : RuleSpec) : (ofSpec R).Implements R where
  estimate _ _ _ _ _ := toU64?_eq_some
  proposerScore _ _ _ _ := toU64?_eq_some
  maxAdversarialWeight _ _ _ := toU64?_eq_some
  adversarialWeight w s := by
    unfold ofSpec
    simp only
    split
    · next hle => exact UInt64.toNat_sub_of_le _ _ hle
    · next hlt =>
        rw [UInt64.le_iff_toNat_le] at hlt
        rw [UInt64.toNat_zero]
        omega
  safetyThreshold _ _ _ _ _ := toU64?_eq_some
  isOneConfirmed _ _ _ := rfl

/-- The specification on ranges within one epoch or at least an epoch long: one
committee's weight a slot, up to the whole set. -/
def flatRule : RuleSpec where
  maximumSupport n t s e := if e < s then 0 else min t ((e + 1 - s) * (t / n))
  proposerScore t n b := t / n * b / 100
  maxAdversarialWeight m b := m * b / 100
  maximumSupport_mono n t s e s' e' hs he := by
    split
    · exact Nat.zero_le _
    · rw [if_neg (by omega)]
      exact min_le_min_left _ (Nat.mul_le_mul_right _ (by omega))
  maximumSupport_empty n t s e h := if_pos h
  maxAdversarialWeight_mono b m m' h := Nat.div_le_div_right (Nat.mul_le_mul_right b h)

end Zkasper.Fcr
