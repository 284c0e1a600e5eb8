import Zkasper.Slot
import Mathlib.Algebra.Order.BigOperators.Group.Finset
import Mathlib.Tactic.Linarith
import Mathlib.Tactic.Zify

/-! # Who owns a leaf

A named validator is a key and a balance; the accumulator says whose. Over a
registry whose public keys are distinct and independent (`Keyring`), the
coefficient of one owner in a sum of named keys counts how often that owner is
named, and the balance named is the sum of the leaf balances as often as they are
named. A committee tree whose aggregates sum disjoint buckets of leaves
(`Buckets`) is read the same way: the coefficient of an owner in an aggregate says
whether it is in the bucket.

What a slot counts is then at most a sum over validators, each with the share it
has in the slot (`counted_le_share`). -/

namespace Zkasper

open Slot

variable {P : Primitives} {M : KeyModel P} {d : ℕ} {t : Contents P}

/-! ## Owners -/

/-- **Distinct, linearly independent public keys**: every occupied leaf has an
owner of its own, whose generator its key is. -/
structure Keyring (M : KeyModel P) (d : ℕ) (t : Contents P) where
  owner : ℕ → M.Key
  owner_inj : ∀ i < 2 ^ d, ∀ j < 2 ^ d, (t i).isSome → (t j).isSome → owner i = owner j → i = j
  coeff_owner : ∀ i < 2 ^ d, ∀ l, t i = some l → M.coeff l.pubkey (owner i) = 1
  coeff_other : ∀ i < 2 ^ d, ∀ l, t i = some l → ∀ k ≠ owner i, M.coeff l.pubkey k = 0

/-- The same owners own the same leaves. -/
def Keyring.congr (K : Keyring M d t) {t' : Contents P} (h : ∀ i < 2 ^ d, t i = t' i) :
    Keyring M d t' where
  owner := K.owner
  owner_inj i hi j hj := by
    rw [← h i hi, ← h j hj]
    exact K.owner_inj i hi j hj
  coeff_owner i hi l := by
    rw [← h i hi]
    exact K.coeff_owner i hi l
  coeff_other i hi l := by
    rw [← h i hi]
    exact K.coeff_other i hi l

/-- Everyone named is the leaf it is named as. -/
def Opened (d : ℕ) (t : Contents P) (vs : List (OpenedValidator P)) : Prop :=
  ∀ v ∈ vs, t (position d v) = some ⟨v.pubkey, v.activeEffectiveBalance⟩

/-- How often the validator at position `i` is named. -/
def timesNamed (d : ℕ) (vs : List (OpenedValidator P)) (i : ℕ) : ℕ := (vs.map (position d)).count i

theorem position_lt (v : OpenedValidator P) : position d v < 2 ^ d := Nat.mod_lt _ (by simp)

@[simp] theorem timesNamed_nil (i : ℕ) : timesNamed d ([] : List (OpenedValidator P)) i = 0 := rfl

theorem timesNamed_cons (v : OpenedValidator P) (vs : List (OpenedValidator P)) (i : ℕ) :
    timesNamed d (v :: vs) i = timesNamed d vs i + if position d v = i then 1 else 0 := by
  simp [timesNamed, List.count_cons]

@[simp] theorem timesNamed_append (xs ys : List (OpenedValidator P)) (i : ℕ) :
    timesNamed d (xs ++ ys) i = timesNamed d xs i + timesNamed d ys i := by
  simp [timesNamed]

/-- The key of a leaf at `j`, read at the owner of the leaf at `i`. -/
theorem Keyring.coeff_apply (K : Keyring M d t) {i j : ℕ} {l : AccLeaf P} (hi : i < 2 ^ d)
    (hocc : (t i).isSome) (hj : j < 2 ^ d) (hl : t j = some l) :
    M.coeff l.pubkey (K.owner i) = if j = i then 1 else 0 := by
  split
  · next h =>
      subst h
      exact K.coeff_owner j hj l hl
  · next h =>
      apply K.coeff_other j hj l hl
      intro howner
      apply h
      exact (K.owner_inj i hi j hj hocc (by rw [hl]; rfl) howner).symm

/-- The key of the named, read at one owner, counts how often it is named. -/
theorem Keyring.keySum_owner (K : Keyring M d t) {vs : List (OpenedValidator P)}
    (hopen : Opened d t vs) {i : ℕ} (hi : i < 2 ^ d) (hocc : (t i).isSome) :
    keySum M vs (K.owner i) = timesNamed d vs i := by
  induction vs with
  | nil => rfl
  | cons v vs ih =>
      have hv := hopen v List.mem_cons_self
      rw [keySum_cons, Pi.add_apply, ih fun u hu => hopen u (List.mem_cons_of_mem _ hu),
        timesNamed_cons, show M.coeff v.pubkey (K.owner i) = _ from
          K.coeff_apply hi hocc (position_lt v) hv]
      push_cast
      exact add_comm _ _

/-- The balance of the named is the leaves', each as often as it is named. -/
theorem balanceSum_eq {vs : List (OpenedValidator P)} (hopen : Opened d t vs) :
    balanceSum vs = ∑ i ∈ Finset.range (2 ^ d), (t.balance i).toNat * timesNamed d vs i := by
  induction vs with
  | nil => simp [balanceSum]
  | cons v vs ih =>
      have hv := hopen v List.mem_cons_self
      have hbalance : t.balance (position d v) = v.activeEffectiveBalance := by
        rw [Contents.balance, hv]
        rfl
      have hcons : balanceSum (v :: vs) = v.activeEffectiveBalance.toNat + balanceSum vs := by
        simp [balanceSum]
      simp only [hcons, ih fun u hu => hopen u (List.mem_cons_of_mem _ hu), timesNamed_cons,
        Nat.mul_add, Finset.sum_add_distrib, mul_ite, mul_one, mul_zero]
      rw [Finset.sum_ite_eq, if_pos (Finset.mem_range.mpr (position_lt v)), hbalance, add_comm]

/-- An empty leaf weighs nothing. -/
theorem balance_of_empty {i : ℕ} (hocc : ¬ (t i).isSome) : (t.balance i).toNat = 0 := by
  rw [Contents.balance, Option.not_isSome_iff_eq_none.mp hocc]
  rfl

/-- **Shares of at most one**, and of nothing outside some set of positions, weigh
no more than the leaves of that set. -/
theorem weighted_le (t : Contents P) {V : Finset ℕ} (hV : V ⊆ Finset.range (2 ^ d)) {x : ℕ → ℤ}
    (hone : ∀ i < 2 ^ d, (t i).isSome → x i ≤ 1)
    (hzero : ∀ i < 2 ^ d, (t i).isSome → i ∉ V → x i ≤ 0) :
    ∑ i ∈ Finset.range (2 ^ d), ((t.balance i).toNat : ℤ) * x i ≤
      ((∑ i ∈ V, (t.balance i).toNat : ℕ) : ℤ) := by
  have hterm : ∀ i ∈ Finset.range (2 ^ d), ((t.balance i).toNat : ℤ) * x i ≤
      if i ∈ V then ((t.balance i).toNat : ℤ) else 0 := by
    intro i hi
    have hlt := Finset.mem_range.mp hi
    by_cases hocc : (t i).isSome
    · split
      · apply mul_le_of_le_one_right (Int.natCast_nonneg _)
        exact hone i hlt hocc
      · next hno =>
          exact mul_nonpos_of_nonneg_of_nonpos (Int.natCast_nonneg _) (hzero i hlt hocc hno)
    · rw [balance_of_empty hocc]
      simp
  have hle := Finset.sum_le_sum hterm
  rw [Finset.sum_ite_mem, Finset.inter_eq_right.mpr hV] at hle
  exact_mod_cast hle

/-! ## Buckets -/

/-- **The committees of a tree**: each aggregate is the sum of its bucket's keys
and balances, the balances in 64-bit arithmetic, and the buckets are disjoint sets
of occupied leaves. -/
structure Buckets (M : KeyModel P) (d : ℕ) (t : Contents P)
    (committees : List (Option (CommitteeAggregate P))) where
  bucket : ℕ → Finset ℕ
  occupied : ∀ s, ∀ i ∈ bucket s, i < 2 ^ d ∧ (t i).isSome
  disjoint : ∀ s s', s ≠ s' → Disjoint (bucket s) (bucket s')
  coeff : ∀ s aggregate, committees[s]?.join = some aggregate →
    M.coeff aggregate.pubkey = ∑ i ∈ bucket s, (t i).elim 0 fun l => M.coeff l.pubkey
  balance : ∀ s aggregate, committees[s]?.join = some aggregate →
    aggregate.balance = UInt64.ofNat (∑ i ∈ bucket s, (t.balance i).toNat)

namespace Buckets

variable {committees : List (Option (CommitteeAggregate P))} (B : Buckets M d t committees)

/-- Whether the validator at `i` is in the committee of slot `s`: one, or zero. -/
def member (s i : ℕ) : ℤ := if i ∈ B.bucket s then 1 else 0

/-- The key of an aggregate, read at one owner, says whether it is in the bucket. -/
theorem coeff_owner (K : Keyring M d t) {s i : ℕ} {aggregate : CommitteeAggregate P}
    (h : committees[s]?.join = some aggregate) (hi : i < 2 ^ d) (hocc : (t i).isSome) :
    M.coeff aggregate.pubkey (K.owner i) = B.member s i := by
  rw [B.coeff s aggregate h, Finset.sum_apply, member]
  have hterm : ∀ j ∈ B.bucket s,
      ((t j).elim 0 fun l => M.coeff l.pubkey) (K.owner i) = if j = i then (1 : ℤ) else 0 := by
    intro j hj
    obtain ⟨hjd, hjocc⟩ := B.occupied s j hj
    obtain ⟨l, hl⟩ := Option.isSome_iff_exists.mp hjocc
    rw [hl]
    exact K.coeff_apply hi hocc hjd hl
  rw [Finset.sum_congr rfl hterm, Finset.sum_ite_eq']

/-- What an aggregate says it weighs is at most what its bucket does. -/
theorem balance_le {s : ℕ} {aggregate : CommitteeAggregate P}
    (h : committees[s]?.join = some aggregate) :
    (aggregate.balance.toNat : ℤ) ≤
      ∑ i ∈ Finset.range (2 ^ d), ((t.balance i).toNat : ℤ) * B.member s i := by
  -- a sum that wraps only gets smaller
  have hwrap : aggregate.balance.toNat ≤ ∑ i ∈ B.bucket s, (t.balance i).toNat := by
    rw [B.balance s aggregate h, UInt64.toNat_ofNat']
    exact Nat.mod_le _ _
  have hsubset : B.bucket s ⊆ Finset.range (2 ^ d) := fun i hi =>
    Finset.mem_range.mpr (B.occupied s i hi).1
  simp only [member, mul_ite, mul_one, mul_zero, Finset.sum_ite_mem,
    Finset.inter_eq_right.mpr hsubset]
  exact_mod_cast hwrap

end Buckets

/-! ## Shares -/

/-- What a slot counts: its committee's balance less the dropped. -/
def counted (rules : Rules P) (slot : SlotComplementWitness P) : ℕ :=
  slot.committee.balance.toNat - balanceSum (dropped rules slot)

/-- A slot whose openings, committee and balance the circuit checked. -/
structure Checked (d : ℕ) (t : Contents P) (committees : List (Option (CommitteeAggregate P)))
    (rules : Rules P) (slot : SlotComplementWitness P) : Prop where
  opened : Opened d t slot.named
  committee : committees[slot.slotInEpoch.toNat]?.join = some slot.committee
  balance : balanceSum (dropped rules slot) ≤ slot.committee.balance.toNat

theorem Checked.dropped {committees : List (Option (CommitteeAggregate P))} {rules : Rules P}
    {slot : SlotComplementWitness P} (h : Checked d t committees rules slot) :
    Opened d t (Slot.dropped rules slot) := by
  intro v hv
  apply h.opened v
  unfold Slot.dropped at hv
  split at hv
  · exact hv
  · exact List.mem_append_right _ hv

namespace Buckets

variable {committees : List (Option (CommitteeAggregate P))} (B : Buckets M d t committees)

/-- The share the validator at `i` has in what a slot counts: in its committee,
less every time its balance is dropped. -/
def share (rules : Rules P) (slot : SlotComplementWitness P) (i : ℕ) : ℤ :=
  B.member slot.slotInEpoch.toNat i - timesNamed d (dropped rules slot) i

/-- **What a slot counts** is at most the leaf balances, each by its share. -/
theorem counted_le_share {rules : Rules P} {slot : SlotComplementWitness P}
    (h : Checked d t committees rules slot) :
    (counted rules slot : ℤ) ≤
      ∑ i ∈ Finset.range (2 ^ d), ((t.balance i).toNat : ℤ) * B.share rules slot i := by
  have hle := B.balance_le h.committee
  have hdropped := balanceSum_eq h.dropped
  have hbalance := h.balance
  unfold counted
  zify [hbalance] at hdropped ⊢
  simp only [share, mul_sub, Finset.sum_sub_distrib]
  linarith

/-- What some slots count together is at most the leaf balances, each by its shares. -/
theorem counted_sum_le {rules : Rules P} : ∀ {slots : List (SlotComplementWitness P)},
    (∀ slot ∈ slots, Checked d t committees rules slot) →
      (((slots.map (counted rules)).sum : ℕ) : ℤ) ≤ ∑ i ∈ Finset.range (2 ^ d),
        ((t.balance i).toNat : ℤ) * (slots.map fun slot => B.share rules slot i).sum
  | [], _ => by simp
  | slot :: slots, h => by
      obtain ⟨hslot, hslots⟩ := List.forall_mem_cons.mp h
      have hle := B.counted_le_share hslot
      have ih := counted_sum_le hslots
      simp only [List.map_cons, List.sum_cons, Nat.cast_add, mul_add, Finset.sum_add_distrib]
      linarith

/-- What a slot claims for its primary message, read at one owner: it is in the
committee, less every time it is named. -/
theorem primary_coeff (K : Keyring M d t) {rules : Rules P} {slot : SlotComplementWitness P}
    (h : Checked d t committees rules slot) {i : ℕ} (hi : i < 2 ^ d) (hocc : (t i).isSome) :
    (M.coeff slot.committee.pubkey - keySum M slot.named) (K.owner i) =
      B.member slot.slotInEpoch.toNat i - timesNamed d slot.named i := by
  rw [Pi.sub_apply, B.coeff_owner K h.committee hi hocc, K.keySum_owner h.opened hi hocc]

end Buckets

/-! ## Secondary messages -/

/-- The signers a slot names for its secondary messages over `m`. -/
theorem Keyring.secondaryClaims_nonneg (K : Keyring M d t) {signingDomain m : P.Bytes32} {i : ℕ}
    (hi : i < 2 ^ d) (hocc : (t i).isSome) : ∀ {secondary : List (AttestationWitness P)},
      Opened d t (secondary.flatMap (·.attestingValidators)) →
        0 ≤ secondaryClaims M signingDomain secondary m (K.owner i)
  | [], _ => le_rfl
  | a :: secondary, h => by
      have ha : Opened d t a.attestingValidators := fun v hv =>
        h v (by rw [List.flatMap_cons]; exact List.mem_append_left _ hv)
      have ih : 0 ≤ secondaryClaims M signingDomain secondary m (K.owner i) :=
        K.secondaryClaims_nonneg hi hocc fun v hv =>
          h v (by rw [List.flatMap_cons]; exact List.mem_append_right _ hv)
      have hterm : 0 ≤ (Finsupp.single (signingRoot signingDomain a)
          (keySum M a.attestingValidators) : P.Bytes32 →₀ (M.Key → ℤ)) m (K.owner i) := by
        rw [Finsupp.single_apply]
        split
        · rw [K.keySum_owner ha hi hocc]
          exact Int.natCast_nonneg _
        · exact le_rfl
      rw [show secondaryClaims M signingDomain (a :: secondary) = _ + _ from List.sum_cons,
        Finsupp.add_apply, Pi.add_apply]
      exact add_nonneg hterm ih

/-! ## The free instance -/

namespace Formal

variable {S : Scenario}

/-- Four validators, one for each key, with a balance of 32 each. -/
def registry : Contents (formal S) := fun i => (keyAt i).map fun p => ⟨p, 32⟩

/-- The validator at `i`, as it is named. -/
def named (i : Fin 4) : OpenedValidator (formal S) := ⟨UInt64.ofNat i, key i, 32⟩

theorem registry_eq_some {i : ℕ} {l : AccLeaf (formal S)} (h : registry i = some l) :
    ∃ hi : i < 4, l = ⟨key ⟨i, hi⟩, 32⟩ := by
  unfold registry keyAt at h
  split at h
  · next hi => exact ⟨hi, (Option.some.inj h).symm⟩
  · cases h

/-- Every validator owns its key. -/
def keyring (d : ℕ) : Keyring (keyModel S) d registry where
  owner := Fin.ofNat 4
  owner_inj i _ j _ hi hj h := by
    obtain ⟨l, hl⟩ := Option.isSome_iff_exists.mp hi
    obtain ⟨l', hl'⟩ := Option.isSome_iff_exists.mp hj
    obtain ⟨hi, -⟩ := registry_eq_some hl
    obtain ⟨hj, -⟩ := registry_eq_some hl'
    have hmod : i % 4 = j % 4 := congrArg Fin.val h
    rwa [Nat.mod_eq_of_lt hi, Nat.mod_eq_of_lt hj] at hmod
  coeff_owner i _ l hl := by
    obtain ⟨hi, rfl⟩ := registry_eq_some hl
    exact if_pos (Fin.ext (Nat.mod_eq_of_lt hi))
  coeff_other i _ l hl k hk := by
    obtain ⟨hi, rfl⟩ := registry_eq_some hl
    exact if_neg fun h => hk (h.trans (Fin.ext (Nat.mod_eq_of_lt hi).symm))

end Formal
end Zkasper
