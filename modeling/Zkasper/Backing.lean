import Zkasper.Keyring
import Zkasper.Ssz

/-! # What a running count is worth

The finality pipeline never enumerates who attested. What travels between its
proofs is a balance, a mask of slots and a Miller-loop accumulator, and joining
two counts adds the balances, unites the masks and multiplies the accumulators.
`Backed` says what such a triple is worth: the balance is at most what the
accumulator claims, validator by validator; no validator is claimed more than the
mask's committees hold it; and nothing is claimed but attestations for one FFG
link.

A count is backed when nothing was counted (`Backed.zero`) and when two backed
counts over disjoint masks are joined (`Backed.join`). Once the final
exponentiation has passed, a backed balance is at most the balance of the
validators that attested the link (`Backed.le_attesters`). -/

namespace Zkasper

open Bls Ssz Slot

variable {P : Primitives}

/-! ## Slot masks -/

/-- The slots of a mask. -/
def slotsOf (mask : UInt64) : Finset ℕ := (Finset.range 64).filter fun s => mask.toNat.testBit s

theorem mem_slotsOf {mask : UInt64} {s : ℕ} : s ∈ slotsOf mask ↔ mask.toNat.testBit s := by
  rw [slotsOf, Finset.mem_filter, Finset.mem_range]
  refine ⟨fun h => h.2, fun h => ⟨?_, h⟩⟩
  -- a 64-bit mask has no bit past the 63rd
  by_contra hge
  have hlt : mask.toNat < 2 ^ s :=
    (UInt64.toNat_lt mask).trans_le (Nat.pow_le_pow_right (by decide) (not_lt.mp hge))
  rw [Nat.testBit_lt_two_pow hlt] at h
  cases h

@[simp] theorem slotsOf_zero : slotsOf 0 = ∅ := by
  ext s
  simp [mem_slotsOf]

theorem slotsOf_or (a b : UInt64) : slotsOf (a ||| b) = slotsOf a ∪ slotsOf b := by
  ext s
  rw [Finset.mem_union, mem_slotsOf, mem_slotsOf, mem_slotsOf, UInt64.toNat_or, Nat.testBit_or,
    Bool.or_eq_true]

/-- Masks without a common bit name different slots. -/
theorem slotsOf_disjoint {a b : UInt64} (h : a &&& b = 0) : Disjoint (slotsOf a) (slotsOf b) := by
  rw [Finset.disjoint_left]
  intro s ha hb
  have hand : (a &&& b).toNat.testBit s = true := by
    rw [UInt64.toNat_and, Nat.testBit_and, mem_slotsOf.mp ha, mem_slotsOf.mp hb]
    rfl
  rw [h] at hand
  simp at hand

/-- Masks that name different slots have no common bit. -/
theorem and_eq_zero_of_disjoint {a b : UInt64} (h : Disjoint (slotsOf a) (slotsOf b)) :
    a &&& b = 0 := by
  apply UInt64.toNat_inj.mp
  apply Nat.eq_of_testBit_eq
  intro s
  rw [UInt64.toNat_and, Nat.testBit_and, UInt64.toNat_zero, Nat.zero_testBit]
  by_contra hne
  obtain ⟨ha, hb⟩ := (Bool.and_eq_true _ _).mp (Bool.ne_false_iff.mp hne)
  exact Finset.disjoint_left.mp h (mem_slotsOf.mpr ha) (mem_slotsOf.mpr hb)

/-- The bit of one slot. -/
theorem slotsOf_bit {s : UInt64} (h : s.toNat < 64) : slotsOf (1 <<< s) = {s.toNat} := by
  have hbit : (1 <<< s : UInt64).toNat = 2 ^ s.toNat := by
    rw [UInt64.toNat_shiftLeft, UInt64.toNat_one, Nat.mod_eq_of_lt h, Nat.one_shiftLeft,
      Nat.mod_eq_of_lt (Nat.pow_lt_pow_right (by decide) h)]
  ext n
  rw [mem_slotsOf, hbit, Nat.testBit_two_pow, decide_eq_true_eq, Finset.mem_singleton, eq_comm]

/-! ## Links -/

/-- An FFG link: a source checkpoint and a target checkpoint. -/
structure Link (P : Primitives) where
  sourceEpoch : UInt64
  sourceRoot : P.Bytes32
  targetEpoch : UInt64
  targetRoot : P.Bytes32

/-- The attestation votes for the link. -/
def AttestationData.VotesFor (data : AttestationData P) (link : Link P) : Prop :=
  data.sourceEpoch = link.sourceEpoch ∧ data.sourceRoot = link.sourceRoot ∧
    data.targetEpoch = link.targetEpoch ∧ data.targetRoot = link.targetRoot

/-- The message is the signing root of an attestation for the link, under some domain. -/
def Link.Names (link : Link P) (m : P.Bytes32) : Prop :=
  ∃ data : AttestationData P, data.VotesFor link ∧ ∃ domain,
    m = computeSigningRoot P (attestationDataRoot P data) domain

/-- Nothing is claimed but attestations for the link. -/
def Link.Covers {K : Type} (link : Link P) (claims : P.Bytes32 →₀ (K → ℤ)) : Prop :=
  ∀ m, claims m ≠ 0 → link.Names m

namespace Link

variable {K : Type} {link : Link P} {claims claims' : P.Bytes32 →₀ (K → ℤ)}

theorem Covers.zero : link.Covers (0 : P.Bytes32 →₀ (K → ℤ)) := fun _ h => absurd rfl h

theorem Covers.add (h : link.Covers claims) (h' : link.Covers claims') :
    link.Covers (claims + claims') := by
  intro m hm
  by_cases hzero : claims m = 0
  · apply h' m
    intro hzero'
    rw [Finsupp.add_apply, hzero, hzero', add_zero] at hm
    exact hm rfl
  · exact h m hzero

theorem Covers.single {m : P.Bytes32} (hm : link.Names m) (v : K → ℤ) :
    link.Covers (Finsupp.single m v) := by
  intro m' hm'
  by_cases heq : m = m'
  · exact heq ▸ hm
  · exact absurd (Finsupp.single_eq_of_ne' heq) hm'

end Link

/-! ## Backed counts -/

section Backed

variable {M : KeyModel P} {d : ℕ} {t : Contents P}
  {committees : List (Option (CommitteeAggregate P))}
  (K : Keyring M d t) (B : Buckets M d t committees) (link : Link P)

/-- **A count and what backs it**: at most the leaf balances as often as their
owners are claimed; no owner claimed more often than the counted committees hold
it; nothing claimed but the link. -/
structure Backed (balance mask : UInt64) (claims : P.Bytes32 →₀ (M.Key → ℤ)) : Prop where
  balance_le : (balance.toNat : ℤ) ≤ ∑ i ∈ Finset.range (2 ^ d),
    ((t.balance i).toNat : ℤ) * M.total claims (K.owner i)
  total_le : ∀ i < 2 ^ d, (t i).isSome →
    M.total claims (K.owner i) ≤ ∑ s ∈ slotsOf mask, B.member s i
  covers : link.Covers claims

variable {K B link}

/-- Nothing counted, nothing claimed. -/
theorem Backed.zero : Backed K B link 0 0 0 where
  balance_le := by simp
  total_le i _ _ := by simp
  covers := .zero

/-- **Joining two counts** over disjoint slots. -/
theorem Backed.join {balance mask balance' mask' : UInt64}
    {claims claims' : P.Bytes32 →₀ (M.Key → ℤ)} (h : Backed K B link balance mask claims)
    (h' : Backed K B link balance' mask' claims') (hmask : mask &&& mask' = 0) :
    Backed K B link (balance + balance') (mask ||| mask') (claims + claims') where
  balance_le := by
    -- the balances are added in 64 bits
    have hwrap : ((balance + balance').toNat : ℤ) ≤ balance.toNat + balance'.toNat := by
      exact_mod_cast toNat_add_le balance balance'
    simp only [KeyModel.total_add, Pi.add_apply, mul_add, Finset.sum_add_distrib]
    linarith [h.balance_le, h'.balance_le]
  total_le i hi hocc := by
    rw [KeyModel.total_add, Pi.add_apply, slotsOf_or,
      Finset.sum_union (slotsOf_disjoint hmask)]
    exact add_le_add (h.total_le i hi hocc) (h'.total_le i hi hocc)
  covers := h.covers.add h'.covers

/-- A validator is in at most one of the committees of a mask. -/
theorem Buckets.sum_member_le_one (B : Buckets M d t committees) (slots : Finset ℕ) (i : ℕ) :
    ∑ s ∈ slots, B.member s i ≤ 1 := by
  by_cases hmember : ∃ s ∈ slots, i ∈ B.bucket s
  · obtain ⟨s, hs, hi⟩ := hmember
    rw [Finset.sum_eq_single s]
    · rw [Buckets.member, if_pos hi]
    · intro s' _ hne
      exact if_neg fun hi' => Finset.disjoint_left.mp (B.disjoint s s' hne.symm) hi hi'
    · exact fun hno => absurd hs hno
  · simp only [not_exists, not_and] at hmember
    have hzero : ∀ s ∈ slots, B.member s i = 0 := fun s hs => if_neg (hmember s hs)
    rw [Finset.sum_eq_zero hzero]
    exact zero_le_one

/-- The validators that attested the link: each has signed an attestation for it,
under some domain. -/
def Attests (K : Keyring M d t) (link : Link P) (i : ℕ) : Prop :=
  ∃ data : AttestationData P, data.VotesFor link ∧ ∃ domain,
    M.Signed (K.owner i) (computeSigningRoot P (attestationDataRoot P data) domain)

open Classical in
/-- The validators of the accumulator that attested the link. -/
noncomputable def attesters (K : Keyring M d t) (link : Link P) : Finset ℕ :=
  (Finset.range (2 ^ d)).filter (Attests K link)

theorem mem_attesters {i : ℕ} : i ∈ attesters K link ↔ i < 2 ^ d ∧ Attests K link i := by
  simp [attesters]

/-- Whoever did not attest is claimed for nothing. -/
theorem Backed.total_eq_zero {balance mask : UInt64} {claims : P.Bytes32 →₀ (M.Key → ℤ)}
    (h : Backed K B link balance mask claims)
    (hsigned : ∀ m k, claims m k ≠ 0 → M.Signed k m) {i : ℕ} (hno : ¬ Attests K link i) :
    M.total claims (K.owner i) = 0 := by
  rw [KeyModel.total, Finsupp.sum, Finset.sum_apply]
  apply Finset.sum_eq_zero
  intro m hm
  by_contra hne
  obtain ⟨data, hvotes, domain, rfl⟩ := h.covers m (Finsupp.mem_support_iff.mp hm)
  exact hno ⟨data, hvotes, domain, hsigned _ _ hne⟩

/-- **A backed balance is real stake**: once everyone claimed has signed, it is at
most the balance of the attesters, each counted once. -/
theorem Backed.le_attesters {balance mask : UInt64} {claims : P.Bytes32 →₀ (M.Key → ℤ)}
    (h : Backed K B link balance mask claims)
    (hsigned : ∀ m k, claims m k ≠ 0 → M.Signed k m) :
    balance.toNat ≤ ∑ i ∈ attesters K link, (t.balance i).toNat := by
  have hsubset : attesters K link ⊆ Finset.range (2 ^ d) := fun i hi =>
    Finset.mem_range.mpr (mem_attesters.mp hi).1
  have hle := h.balance_le.trans (weighted_le t hsubset
    (fun i hi hocc => (h.total_le i hi hocc).trans (B.sum_member_le_one _ i))
    (fun i hi _ hno => le_of_eq
      (h.total_eq_zero hsigned fun hyes => hno (mem_attesters.mpr ⟨hi, hyes⟩))))
  exact_mod_cast hle

end Backed
end Zkasper
