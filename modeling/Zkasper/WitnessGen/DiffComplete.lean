import Zkasper.WitnessGen.ProvableDiff

/-! # What a diff lists

A validator the diff leaves out is the same leaf in both SSZ trees and in both accumulators,
so nothing has to be listed that is not. The other way round it lists one kind of validator
for nothing: one that becomes active or inactive with no balance. -/

namespace Zkasper

open Ssz

variable {P : Primitives} {R1 R2 : List ValidatorResponse} {epoch1 epoch2 : UInt64} {i : ℕ}
  {old new : ValidatorResponse}

/-- A record's root commits to everything the diff compares. -/
theorem validatorRoot_ne (hP : CollisionFree P) (h : sszChanged old new = true) :
    validatorHashTreeRoot P (old.fieldLeaves P) ≠ validatorHashTreeRoot P (new.fieldLeaves P) := by
  intro hroot
  have hleaves := validatorHashTreeRoot_injective hP hroot
  have hcredentials := hP.ofBytes (congrFun hleaves 1)
  have hbalance := hP.chunk_inj.mp (congrFun hleaves 2)
  have hslashed := hP.chunk_inj.mp (congrFun hleaves 3)
  have heligibility := hP.chunk_inj.mp (congrFun hleaves 4)
  have hactivation := hP.chunk_inj.mp (congrFun hleaves 5)
  have hexit := hP.chunk_inj.mp (congrFun hleaves 6)
  have hwithdrawable := hP.chunk_inj.mp (congrFun hleaves 7)
  have hflag : old.slashed = new.slashed := by
    cases hold : old.slashed <;> cases hnew : new.slashed <;> simp [hold, hnew] at hslashed ⊢
  simp [sszChanged, hcredentials, hbalance, hflag, heligibility, hactivation, hexit,
    hwithdrawable] at h

/-- A record that is active at one epoch and not at the other has two balances, if it has any. -/
theorem activeEffectiveBalance_ne (hactivity : activityChanged new epoch1 epoch2 = true)
    (hbalance : new.effectiveBalance ≠ 0) :
    new.data.activeEffectiveBalance epoch1 ≠ new.data.activeEffectiveBalance epoch2 := by
  have hchanged : new.data.isActive epoch1 ≠ new.data.isActive epoch2 :=
    bne_iff_ne.mp hactivity
  unfold ValidatorData.activeEffectiveBalance
  cases h1 : new.data.isActive epoch1 with
  | true =>
      cases h2 : new.data.isActive epoch2 with
      | true => exact absurd (h1.trans h2.symm) hchanged
      | false => simpa [ValidatorResponse.data] using hbalance
  | false =>
      cases h2 : new.data.isActive epoch2 with
      | true => simpa [ValidatorResponse.data, eq_comm] using hbalance
      | false => exact absurd (h1.trans h2.symm) hchanged

/-- What is listed of the validators that both registries have. -/
theorem changed_of_mem (hold : R1[i]? = some old) (hnew : R2[i]? = some new)
    (h : i ∈ findMutations R1 R2 epoch1 epoch2) :
    sszChanged old new = true ∨ activityChanged new epoch1 epoch2 = true := by
  rcases List.mem_append.mp h with h | h
  · obtain ⟨-, hchanged⟩ := List.mem_filter.mp h
    rw [hold, hnew] at hchanged
    exact Bool.or_eq_true_iff.mp hchanged
  · have hlt := (List.getElem?_eq_some_iff.mp hold).1
    have hge := (List.mem_range'_1.mp h).1
    omega

/-- **The diff is complete**: what it leaves out has the same validator root in both registries
and the same balance in both accumulators; its list is strictly increasing; and what it lists
of the validators that are not new differs in one of the two, or becomes active or inactive
with an effective balance of zero. -/
theorem diff_complete (hP : CollisionFree P) (hgrow : Grows R1 R2) (epoch1 epoch2 : UInt64) :
    (∀ i < R2.length, i ∉ findMutations R1 R2 epoch1 epoch2 →
      ∃ old new, R1[i]? = some old ∧ R2[i]? = some new ∧
        validatorHashTreeRoot P (old.fieldLeaves P) =
          validatorHashTreeRoot P (new.fieldLeaves P) ∧
        old.data.activeEffectiveBalance epoch1 = new.data.activeEffectiveBalance epoch2) ∧
    (findMutations R1 R2 epoch1 epoch2).Pairwise (· < ·) ∧
    ∀ i ∈ findMutations R1 R2 epoch1 epoch2, i < R2.length ∧
      ∀ old new, R1[i]? = some old → R2[i]? = some new →
        validatorHashTreeRoot P (old.fieldLeaves P) ≠
            validatorHashTreeRoot P (new.fieldLeaves P) ∨
          old.data.activeEffectiveBalance epoch1 ≠ new.data.activeEffectiveBalance epoch2 ∨
          (activityChanged new epoch1 epoch2 = true ∧ new.effectiveBalance = 0) := by
  refine ⟨?_, findMutations_pairwise, ?_⟩
  · intro i hi hout
    have hlt : i < R1.length := by
      by_contra hge
      exact hout (mem_findMutations_of_new (not_lt.mp hge) hi)
    have hold := List.getElem?_eq_getElem hlt
    have hnew := List.getElem?_eq_getElem hi
    obtain ⟨hsame, hactive⟩ := eq_of_unchanged hold hnew (hgrow.pubkey _ _ _ hold hnew) hout
    refine ⟨_, _, hold, hnew, by rw [hsame], ?_⟩
    rw [ValidatorData.activeEffectiveBalance, ValidatorData.activeEffectiveBalance, hactive, hsame]
  · intro i hi
    refine ⟨lt_of_mem_findMutations hi, ?_⟩
    intro old new hold hnew
    by_cases hssz : sszChanged old new = true
    · exact .inl (validatorRoot_ne hP hssz)
    · -- then it is the same record, and only its activity has changed
      have hsame := eq_of_not_sszChanged (Bool.not_eq_true _ ▸ hssz)
        (hgrow.pubkey _ _ _ hold hnew)
      have hactivity := (changed_of_mem hold hnew hi).resolve_left hssz
      right
      by_cases hbalance : new.effectiveBalance = 0
      · exact .inr ⟨hactivity, hbalance⟩
      · left
        rw [hsame]
        exact activeEffectiveBalance_ne hactivity hbalance

/-! ## A validator with nothing

It becomes active in epoch 1, with an effective balance of zero. -/

open Formal

def penniless : ValidatorResponse := { validator 0 0 with activationEpoch := 1 }

/-- The second validator joins; the first one is left out, and is the same in both. -/
theorem diff_complete_joined :
    (∃ old new, (roster 1)[0]? = some old ∧ (roster 2)[0]? = some new ∧
      validatorHashTreeRoot (formal {}) (old.fieldLeaves (formal {})) =
        validatorHashTreeRoot (formal {}) (new.fieldLeaves (formal {})) ∧
      old.data.activeEffectiveBalance 0 = new.data.activeEffectiveBalance 1) ∧
    findMutations (roster 1) (roster 2) 0 1 = [1] :=
  ⟨(diff_complete (formal_collisionFree {}) (roster_grows (by decide)) 0 1).1 0 (by decide)
    (by decide), by decide⟩

/-- **Listed for nothing**: its record and its balance stay what they are. -/
theorem findMutations_penniless : ¬ ∀ (R1 R2 : List ValidatorResponse) (epoch1 epoch2 : UInt64),
    Grows R1 R2 → epoch1 ≤ epoch2 → ∀ i ∈ findMutations R1 R2 epoch1 epoch2,
      ∀ old new, R1[i]? = some old → R2[i]? = some new →
        validatorHashTreeRoot (formal {}) (old.fieldLeaves (formal {})) ≠
            validatorHashTreeRoot (formal {}) (new.fieldLeaves (formal {})) ∨
          old.data.activeEffectiveBalance epoch1 ≠ new.data.activeEffectiveBalance epoch2 := by
  intro h
  have hsame : Grows [penniless] [penniless] :=
    ⟨le_rfl, fun i old new hold hnew => by rw [Option.some.inj (hold.symm.trans hnew)]⟩
  rcases h _ _ 0 1 hsame (by decide) 0 (by decide) _ _ rfl rfl with hroot | hbalance
  · exact hroot rfl
  · exact hbalance (by decide)

end Zkasper
