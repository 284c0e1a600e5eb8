import Zkasper.CommitteeProof.Entries
import Zkasper.Fcr.Assignments
import Zkasper.Fcr.Types
import Mathlib.Data.List.Sort

/-! # The fast-confirmation committee proof

Finality's threshold is a fraction of the whole active balance, and its committee proof
may leave the assignment to the witness. Here a threshold is a fraction of one slot, so
the circuit computes the assignment: it opens the active set and shuffles it itself.

Nothing checks that the opened list is the whole active set. It follows from three
things that are checked: indices increase, balances are positive, and they sum to the
committed total (`activeList_eq`). Only the index bits above the depth stay free, and
they move no position of the shuffle (`verifyFcrCommittee_active`). -/

namespace Zkasper.Fcr

open Bls Merkle Slot
open Committee (leafKey leafSums slotEntry)

variable {P : Primitives}

/-! ## The circuit -/

/-- What the committee circuit reads. -/
structure FcrCommitteeWitness (P : Primitives) where
  accumulatorCommitment : P.Digest
  accRoot : P.Digest
  totalActiveBalance : UInt64
  seed : Bytes 32
  epoch : UInt64
  active : List (OpenedValidator P)
  accMultiProof : List P.Digest

/-- What the pass over the active set carries. -/
structure Opening (P : Primitives) where
  leaves : List (P.Digest × ℕ)
  summed : UInt64
  previous : Option UInt64

/-- (1): nobody is opened twice. -/
def checkIncreasing (previous : Option UInt64) (validatorIndex : UInt64) : Guest Unit :=
  match previous with
  | none => return ()
  | some p =>
      Guest.assert (validatorIndex > p)
        s!"active set must be in increasing index order: {validatorIndex} followed {p}"

/-- `checked_add`. -/
def checkedAdd (a b : UInt64) : Option UInt64 :=
  if a.toNat + b.toNat < 2 ^ 64 then some (a + b) else none

/-- (1) and (2), and a leaf for the opening. -/
def openActive (s : Opening P) (v : OpenedValidator P) : Guest (Opening P) := do
  checkIncreasing s.previous v.validatorIndex
  Guest.assert (0 < v.activeEffectiveBalance) <|
    s!"validator {v.validatorIndex} is opened as active with no balance; the accumulator " ++
    "stores zero for an inactive validator, so this would inflate the set size and move " ++
    "every shuffled position"
  let summed ← Guest.expect (checkedAdd s.summed v.activeEffectiveBalance)
    "active balances overflowed"
  return ⟨s.leaves ++ [(P.leaf v.pubkey v.activeEffectiveBalance, v.validatorIndex.toNat)],
    summed, some v.validatorIndex⟩

/-- The running sums of the slots, `None` while a slot has nobody. -/
abbrev SlotSums (P : Primitives) := ℕ → Option (PointSum P × UInt64)

section Circuit

variable (sha256 : List UInt8 → Bytes 32)
  (countsTowardSupport : UInt64 → Bool → Bool → Bool → Bool → Bool)

/-- Which slot the shuffle of `n` validators puts the one at `index` in. -/
def shuffledSlot (seed : Bytes 32) (n slotsPerEpoch index : ℕ) : ℕ :=
  slotOfPosition (committeePosition sha256 seed index n (pivots sha256 seed n)) n slotsPerEpoch

/-- One validator of the second loop, at its slot. -/
def addToSlot (slotsPerEpoch slot : ℕ) (v : OpenedValidator P) (sums : SlotSums P) :
    Guest (SlotSums P) := do
  Guest.assert (countsTowardSupport v.activeEffectiveBalance false false true true = true)
    s!"validator {v.validatorIndex} does not count toward support"
  Guest.assert (slot < slotsPerEpoch) "index out of bounds"
  let entry := (sums slot).getD (⟨none⟩, 0)
  let keys ← Guest.expect (entry.1.add v.pubkey) "public key aggregation hit a shared x-coordinate"
  return Function.update sums slot (some (keys, entry.2 + v.activeEffectiveBalance))

/-- A slot's aggregate, where anybody was placed. -/
def slotAggregate : Option (PointSum P × UInt64) → Guest (Option (CommitteeAggregate P))
  | none => return none
  | some (keys, balance) => do
      let pubkey ← Guest.expect keys.get "a slot's committee summed to the identity"
      return some ⟨pubkey, balance⟩

/-- Prove the epoch's committee assignment and its per-slot sums. -/
def verifyFcrCommitteeWithDepth (witness : FcrCommitteeWitness P) (slotsPerEpoch accDepth : ℕ) :
    Guest (FcrCommitteeOutput P) := do
  Guest.assert (P.commitment witness.accRoot witness.totalActiveBalance =
    witness.accumulatorCommitment) "accumulator commitment mismatch"
  Guest.assert (witness.active ≠ []) "the active set is empty"
  Guest.assert (slotsPerEpoch ≤ Committee.maxSlots) s!"committee tree holds {Committee.maxSlots} slots"
  let opening ← witness.active.foldlM openActive ⟨[], 0, none⟩
  Guest.assert (opening.summed = witness.totalActiveBalance)
    "opened active balances do not sum to the committed total active balance"
  let root ← batchRoot P.compress opening.leaves witness.accMultiProof accDepth
  Guest.assert (root = witness.accRoot) "accumulator root mismatch"
  let n := witness.active.length
  let sums ← witness.active.zipIdx.foldlM (fun sums p => addToSlot countsTowardSupport
    slotsPerEpoch (shuffledSlot sha256 witness.seed n slotsPerEpoch p.2) p.1 sums) fun _ => none
  let slots ← (List.range slotsPerEpoch).mapM fun slot => slotAggregate (sums slot)
  let committeeRoot ← Committee.root slots
  return ⟨witness.accumulatorCommitment, P.ofBytes witness.seed, witness.epoch, committeeRoot,
    UInt64.ofNat n⟩

end Circuit

/-! ## The opened set -/

section Opened

/-- The positions of an accumulator with a balance, in order. -/
def activeIndices (d : ℕ) (t : Contents P) : List ℕ :=
  (List.range (2 ^ d)).filter fun i => 0 < (t.balance i).toNat

theorem mem_activeIndices {d : ℕ} {t : Contents P} {i : ℕ} :
    i ∈ activeIndices d t ↔ i < 2 ^ d ∧ 0 < (t.balance i).toNat := by
  simp [activeIndices]

theorem activeIndices_sorted (d : ℕ) (t : Contents P) : (activeIndices d t).Pairwise (· < ·) :=
  List.pairwise_lt_range.filter _

theorem checkedAdd_eq_some {a b c : UInt64} (h : checkedAdd a b = some c) :
    c.toNat = a.toNat + b.toNat := by
  simp only [checkedAdd, Option.ite_none_right_eq_some, Option.some.injEq] at h
  obtain ⟨hlt, rfl⟩ := h
  rw [UInt64.toNat_add, Nat.mod_eq_of_lt hlt]

/-- One validator more. -/
theorem openActive_eq_ok {s s' : Opening P} {v : OpenedValidator P}
    (h : openActive s v = .ok s') :
    (∀ p, s.previous = some p → p.toNat < v.validatorIndex.toNat) ∧
      0 < v.activeEffectiveBalance.toNat ∧
      s'.leaves = s.leaves ++
        [(P.leaf v.pubkey v.activeEffectiveBalance, v.validatorIndex.toNat)] ∧
      s'.summed.toNat = s.summed.toNat + v.activeEffectiveBalance.toNat ∧
      s'.previous = some v.validatorIndex := by
  simp only [openActive, Guest.bind_eq_ok, Guest.assert_eq_ok, Guest.expect_eq_ok,
    Guest.pure_eq_ok, exists_const] at h
  obtain ⟨_, hincreasing, hpos, summed, hsum, rfl⟩ := h
  refine ⟨?_, ?_, rfl, checkedAdd_eq_some hsum, rfl⟩
  · intro p hp
    rw [hp] at hincreasing
    exact UInt64.lt_iff_toNat_lt.mp (Guest.assert_eq_ok.mp hincreasing)
  · exact UInt64.lt_iff_toNat_lt.mp hpos

/-- **The pass over the active set**: leaves in order, no balance lost, everybody later. -/
theorem openActives_run : ∀ {active : List (OpenedValidator P)} {s s' : Opening P},
    active.foldlM openActive s = .ok s' →
      s'.leaves = s.leaves ++ active.map (fun v =>
        (P.leaf v.pubkey v.activeEffectiveBalance, v.validatorIndex.toNat)) ∧
      s'.summed.toNat = s.summed.toNat +
        (active.map fun v => v.activeEffectiveBalance.toNat).sum ∧
      (∀ v ∈ active, 0 < v.activeEffectiveBalance.toNat) ∧
      (∀ p, s.previous = some p → ∀ v ∈ active, p.toNat < v.validatorIndex.toNat) ∧
      (active.map (·.validatorIndex.toNat)).Pairwise (· < ·) := by
  intro active
  induction active with
  | nil =>
      intro s s' h
      obtain rfl := Guest.foldlM_nil.mp h
      simp
  | cons v active ih =>
      intro s s' h
      obtain ⟨mid, hstep, hrest⟩ := Guest.foldlM_cons.mp h
      obtain ⟨hprevious, hpos, hleaves, hsum, hlast⟩ := openActive_eq_ok hstep
      obtain ⟨ihleaves, ihsum, ihpos, ihprevious, ihsorted⟩ := ih hrest
      have hafter := ihprevious _ hlast
      refine ⟨?_, ?_, List.forall_mem_cons.mpr ⟨hpos, ihpos⟩, ?_, ?_⟩
      · rw [ihleaves, hleaves, List.map_cons, List.append_assoc, List.singleton_append]
      · rw [ihsum, hsum, List.map_cons, List.sum_cons, Nat.add_assoc]
      · intro p hp u hu
        cases hu with
        | head => exact hprevious p hp
        | tail _ hu => exact (hprevious p hp).trans (hafter u hu)
      · rw [List.map_cons, List.pairwise_cons]
        refine ⟨?_, ihsorted⟩
        intro k hk
        obtain ⟨u, hu, rfl⟩ := List.mem_map.mp hk
        exact hafter u hu

/-- Increasing indices that agree above bit `d` increase below it. -/
theorem increasing_mod_two_pow {ks : List ℕ} {d high : ℕ} (hlt : ks.Pairwise (· < ·))
    (hhigh : ∀ k ∈ ks, k / 2 ^ d = high) : (ks.map (· % 2 ^ d)).Pairwise (· < ·) := by
  rw [List.pairwise_map]
  refine hlt.imp_of_mem ?_
  intro a b ha hb hab
  have hsame : 2 ^ d * (a / 2 ^ d) = 2 ^ d * (b / 2 ^ d) := by rw [hhigh a ha, hhigh b hb]
  have hdiv := Nat.div_add_mod a (2 ^ d)
  have hdiv' := Nat.div_add_mod b (2 ^ d)
  omega

/-- **Completeness from one sum**: increasing leaves with positive balances that sum to
everything there is are all the leaves with a balance. -/
theorem activeList_eq {d : ℕ} {t : Contents P} {ks : List ℕ} (hlt : ∀ k ∈ ks, k < 2 ^ d)
    (hsorted : ks.Pairwise (· < ·)) (hpos : ∀ k ∈ ks, 0 < (t.balance k).toNat)
    (hsum : (ks.map fun k => (t.balance k).toNat).sum =
      ∑ i ∈ Finset.range (2 ^ d), (t.balance i).toNat) : ks = activeIndices d t := by
  apply List.Pairwise.eq_of_mem_iff hsorted (activeIndices_sorted d t)
  intro i
  rw [mem_activeIndices]
  constructor
  · exact fun hi => ⟨hlt i hi, hpos i hi⟩
  · rintro ⟨hi, hbalance⟩
    by_contra hmissing
    have hnodup : ks.Nodup := hsorted.imp fun h => Nat.ne_of_lt h
    have hsub : insert i ks.toFinset ⊆ Finset.range (2 ^ d) := by
      intro k hk
      rcases Finset.mem_insert.mp hk with rfl | hk
      · exact Finset.mem_range.mpr hi
      · exact Finset.mem_range.mpr (hlt k (List.mem_toFinset.mp hk))
    -- the missing one would be left over
    have hle := Finset.sum_le_sum_of_subset (f := fun k => (t.balance k).toNat) hsub
    rw [Finset.sum_insert (fun h => hmissing (List.mem_toFinset.mp h)),
      List.sum_toFinset _ hnodup, hsum] at hle
    omega

end Opened

/-! ## The slots -/

section Slots

variable {sha256 : List UInt8 → Bytes 32}
  {countsTowardSupport : UInt64 → Bool → Bool → Bool → Bool → Bool}

/-- Whoever of a numbered list falls in a slot. -/
def placedIn {α : Type} (slotOf : ℕ → ℕ) (numbered : List (α × ℕ)) (slot : ℕ) : List α :=
  (numbered.filter fun p => slotOf p.2 = slot).map Prod.fst

theorem placedIn_concat {α : Type} (slotOf : ℕ → ℕ) (numbered : List (α × ℕ)) (p : α × ℕ)
    (slot : ℕ) : placedIn slotOf (numbered ++ [p]) slot =
      if slotOf p.2 = slot then placedIn slotOf numbered slot ++ [p.1]
      else placedIn slotOf numbered slot := by
  by_cases h : slotOf p.2 = slot <;> simp [placedIn, h]

/-- The sums over those placed in a slot, nothing while there is nobody. -/
def slotSum [AddCommGroup P.G1Point] (placed : List (OpenedValidator P)) :
    Option (PointSum P × UInt64) :=
  if placed = [] then none
  else some (PointSum.ofList (placed.map (·.pubkey)),
    UInt64.ofNat (placed.map (·.activeEffectiveBalance.toNat)).sum)

/-- An entry that is not there yet counts as the empty sums. -/
theorem slotSum_getD [AddCommGroup P.G1Point] (placed : List (OpenedValidator P)) :
    (slotSum placed).getD (⟨none⟩, 0) = (PointSum.ofList (placed.map (·.pubkey)),
      UInt64.ofNat (placed.map (·.activeEffectiveBalance.toNat)).sum) := by
  unfold slotSum
  split
  · next h =>
      subst h
      simp
  · rfl

variable [AddCommGroup P.G1Point]

/-- **One validator more**: its slot's sums take it in, the others stay. -/
theorem addToSlot_eq_ok (hE : ExactAddition P) {slots slot : ℕ} {v : OpenedValidator P}
    {placed : ℕ → List (OpenedValidator P)} {sums' : SlotSums P}
    (h : addToSlot countsTowardSupport slots slot v (fun s => slotSum (placed s)) = .ok sums') :
    slot < slots ∧ sums' = fun s => slotSum (if slot = s then placed s ++ [v] else placed s) := by
  simp only [addToSlot, Guest.bind_eq_ok, Guest.assert_eq_ok, Guest.expect_eq_ok,
    Guest.pure_eq_ok, exists_const, slotSum_getD] at h
  obtain ⟨-, hlt, keys, hkeys, rfl⟩ := h
  refine ⟨hlt, ?_⟩
  funext s
  by_cases hs : s = slot
  · subst hs
    rw [Function.update_self, if_pos rfl, PointSum.ofList_add hE hkeys, slotSum,
      if_neg (by simp)]
    simp [UInt64.ofNat_add]
  · rw [Function.update_of_ne hs, if_neg (Ne.symm hs)]

/-- **The pass over the slots**: each slot sums those the shuffle places there. -/
theorem addToSlots_run (hE : ExactAddition P) {slots : ℕ} (slotOf : ℕ → ℕ) :
    ∀ {rest before : List (OpenedValidator P × ℕ)} {sums : SlotSums P},
      rest.foldlM (fun sums p => addToSlot countsTowardSupport slots (slotOf p.2) p.1 sums)
          (fun s => slotSum (placedIn slotOf before s)) = .ok sums →
        (∀ p ∈ rest, slotOf p.2 < slots) ∧
          sums = fun s => slotSum (placedIn slotOf (before ++ rest) s) := by
  intro rest
  induction rest with
  | nil =>
      intro before sums h
      obtain rfl := Guest.foldlM_nil.mp h
      simp
  | cons p rest ih =>
      intro before sums h
      obtain ⟨mid, hstep, hrest⟩ := Guest.foldlM_cons.mp h
      obtain ⟨hlt, rfl⟩ := addToSlot_eq_ok hE hstep
      have hnext : (fun s => slotSum (if slotOf p.2 = s then placedIn slotOf before s ++ [p.1]
          else placedIn slotOf before s)) =
            fun s => slotSum (placedIn slotOf (before ++ [p]) s) := by
        funext s
        rw [placedIn_concat]
      rw [hnext] at hrest
      obtain ⟨ihlt, ihsums⟩ := ih hrest
      rw [List.append_assoc, List.singleton_append] at ihsums
      exact ⟨List.forall_mem_cons.mpr ⟨hlt, ihlt⟩, ihsums⟩

theorem slotAggregate_slotSum {placed : List (OpenedValidator P)}
    {entry : Option (CommitteeAggregate P)} (h : slotAggregate (slotSum placed) = .ok entry) :
    entry = if placed = [] then none else some ⟨(placed.map (·.pubkey)).sum,
      UInt64.ofNat (placed.map (·.activeEffectiveBalance.toNat)).sum⟩ := by
  unfold slotSum at h
  split at h
  · next hnil =>
      rw [if_pos hnil]
      exact (Guest.pure_eq_ok.mp h).symm
  · next hne =>
      rw [if_neg hne]
      simp only [slotAggregate, Guest.bind_eq_ok, Guest.expect_eq_ok, Guest.pure_eq_ok,
        PointSum.ofList_get, List.map_eq_nil_iff, if_neg hne] at h
      obtain ⟨pubkey, hkey, rfl⟩ := h
      rw [← Option.some.inj hkey]

end Slots

/-! ## What an accepted proof proves -/

section Accepted

/-- Those of a list whose place in it falls in a slot. -/
def slotCommittee (slotOf : ℕ → ℕ) (active : List ℕ) (slot : ℕ) : Finset ℕ :=
  active.toFinset.filter fun i => slotOf (active.idxOf i) = slot

theorem placedIn_map {α β : Type} (f : α → β) (slotOf : ℕ → ℕ) (xs : List α) (slot : ℕ) :
    (placedIn slotOf xs.zipIdx slot).map f = placedIn slotOf (xs.map f).zipIdx slot := by
  simp [placedIn, List.zipIdx_map, List.filter_map, Function.comp_def]

theorem mem_placedIn {α : Type} {slotOf : ℕ → ℕ} {xs : List α} {slot : ℕ} {x : α} :
    x ∈ placedIn slotOf xs.zipIdx slot ↔ ∃ k, xs[k]? = some x ∧ slotOf k = slot := by
  simp only [placedIn, List.mem_map, List.mem_filter, List.mem_zipIdx_iff_getElem?,
    decide_eq_true_eq, Prod.exists]
  constructor
  · rintro ⟨y, k, hat, rfl⟩
    exact ⟨k, hat⟩
  · rintro ⟨k, hat⟩
    exact ⟨x, k, hat, rfl⟩

theorem slotCommittee_eq {slotOf : ℕ → ℕ} {active : List ℕ} (hactive : active.Nodup) (slot : ℕ) :
    slotCommittee slotOf active slot = (placedIn slotOf active.zipIdx slot).toFinset := by
  ext i
  rw [List.mem_toFinset, mem_placedIn, slotCommittee, Finset.mem_filter, List.mem_toFinset]
  constructor
  · rintro ⟨hi, hslot⟩
    exact ⟨_, List.getElem?_idxOf hi, hslot⟩
  · rintro ⟨k, hk, hslot⟩
    obtain ⟨hlt, rfl⟩ := List.getElem?_eq_some_iff.mp hk
    rw [hactive.idxOf_getElem k hlt]
    exact ⟨List.getElem_mem hlt, hslot⟩

theorem placedIn_nodup {slotOf : ℕ → ℕ} {active : List ℕ} (hactive : active.Nodup) (slot : ℕ) :
    (placedIn slotOf active.zipIdx slot).Nodup := by
  have hfst : active.zipIdx.map Prod.fst = active := List.zipIdx_map_fst 0 active
  exact (hfst ▸ hactive).sublist (List.filter_sublist.map _)

variable {sha256 : List UInt8 → Bytes 32}
  {countsTowardSupport : UInt64 → Bool → Bool → Bool → Bool → Bool}
  {witness : FcrCommitteeWitness P} {slots d : ℕ} {out : FcrCommitteeOutput P} {t : Contents P}
  {total : UInt64}

theorem verifyFcrCommittee_eq_ok
    (h : verifyFcrCommitteeWithDepth sha256 countsTowardSupport witness slots d = .ok out) :
    out.accumulatorCommitment = P.commitment witness.accRoot witness.totalActiveBalance ∧
      out.seed = P.ofBytes witness.seed ∧ out.activeCount = UInt64.ofNat witness.active.length ∧
      ∃ (opening : Opening P) (sums : SlotSums P) (committees : List (Option (CommitteeAggregate P))),
        witness.active.foldlM openActive ⟨[], 0, none⟩ = .ok opening ∧
        opening.summed = witness.totalActiveBalance ∧
        batchRoot P.compress opening.leaves witness.accMultiProof d = .ok witness.accRoot ∧
        witness.active.zipIdx.foldlM (fun sums p => addToSlot countsTowardSupport slots
          (shuffledSlot sha256 witness.seed witness.active.length slots p.2) p.1 sums)
            (fun _ => none) = .ok sums ∧
        (List.range slots).mapM (fun slot => slotAggregate (sums slot)) = .ok committees ∧
        Committee.root committees = .ok out.committeeRoot := by
  simp only [verifyFcrCommitteeWithDepth, Guest.bind_eq_ok, Guest.assert_eq_ok, Guest.pure_eq_ok,
    exists_const] at h
  obtain ⟨hcommitment, -, -, opening, hopening, hsum, r, hroot, rfl, sums, hsums, committees,
    hcommittees, committeeRoot, hcommitteeRoot, rfl⟩ := h
  exact ⟨hcommitment.symm, rfl, rfl, opening, sums, committees, hopening, hsum, hroot, hsums,
    hcommittees, hcommitteeRoot⟩

/-- **The opened list is the active set**, up to the index bits above the depth. -/
theorem opened_active (hP : CollisionFree P) {opening : Opening P}
    (hopening : witness.active.foldlM openActive ⟨[], 0, none⟩ = .ok opening)
    (hroot : batchRoot P.compress opening.leaves witness.accMultiProof d = .ok (t.accRoot d))
    (hsum : opening.summed.toNat = ∑ i ∈ Finset.range (2 ^ d), (t.balance i).toNat) :
    (∀ v ∈ witness.active, t (position d v) = some ⟨v.pubkey, v.activeEffectiveBalance⟩) ∧
      (∃ high, ∀ v ∈ witness.active, v.validatorIndex.toNat / 2 ^ d = high) ∧
      witness.active.map (position d) = activeIndices d t := by
  obtain ⟨hleaves, hsummed, hpos, -, hsorted⟩ := openActives_run hopening
  obtain ⟨hopen, ⟨high, hhigh⟩, -⟩ := batchRoot_sound hP.compress hroot
  rw [hleaves, List.nil_append] at hopen hhigh
  have hleaf : ∀ v ∈ witness.active,
      t (position d v) = some ⟨v.pubkey, v.activeEffectiveBalance⟩ :=
    fun v hv => Contents.eq_of_leaf hP (hopen _ (List.mem_map_of_mem hv))
  have hbalance : ∀ v ∈ witness.active, t.balance (position d v) = v.activeEffectiveBalance := by
    intro v hv
    rw [Contents.balance, hleaf v hv]
    rfl
  have hsame : ∀ v ∈ witness.active, v.validatorIndex.toNat / 2 ^ d = high :=
    fun v hv => hhigh _ (List.mem_map_of_mem hv)
  refine ⟨hleaf, ⟨high, hsame⟩, ?_⟩
  apply activeList_eq
  · intro k hk
    obtain ⟨v, -, rfl⟩ := List.mem_map.mp hk
    exact position_lt v
  · have hagree : ∀ k ∈ witness.active.map (·.validatorIndex.toNat), k / 2 ^ d = high := by
      intro k hk
      obtain ⟨v, hv, rfl⟩ := List.mem_map.mp hk
      exact hsame v hv
    have hmod := increasing_mod_two_pow hsorted hagree
    rwa [List.map_map] at hmod
  · intro k hk
    obtain ⟨v, hv, rfl⟩ := List.mem_map.mp hk
    rw [hbalance v hv]
    exact hpos v hv
  · rw [← hsum, hsummed, List.map_map]
    have hzero : (0 : UInt64).toNat = 0 := rfl
    rw [hzero, Nat.zero_add]
    apply congrArg List.sum
    apply List.map_congr_left
    intro v hv
    rw [Function.comp_apply, hbalance v hv]

/-- A list of positive numbers is no longer than its sum. -/
theorem length_le_sum_of_pos {xs : List ℕ} (h : ∀ x ∈ xs, 0 < x) : xs.length ≤ xs.sum := by
  simpa using List.card_nsmul_le_sum xs 1 h

section Entries

variable [AddCommGroup P.G1Point]

/-- **The entries**: every slot's is the sum over the leaves the shuffle places there. -/
theorem entries_eq (hE : ExactAddition P) {sums : SlotSums P}
    {committees : List (Option (CommitteeAggregate P))} {active : List (OpenedValidator P)}
    {slotOf : ℕ → ℕ}
    (hsums : active.zipIdx.foldlM (fun sums p => addToSlot countsTowardSupport slots (slotOf p.2)
      p.1 sums) (fun _ => none) = .ok sums)
    (hcommittees : (List.range slots).mapM (fun slot => slotAggregate (sums slot)) =
      .ok committees)
    (hleaf : ∀ v ∈ active, t (position d v) = some ⟨v.pubkey, v.activeEffectiveBalance⟩)
    (hnodup : (active.map (position d)).Nodup) :
    (∀ k < active.length, slotOf k < slots) ∧ committees.length = slots ∧
      ∀ slot < slots, committees[slot]?.join =
        slotEntry t (slotCommittee slotOf (active.map (position d)) slot) := by
  have hempty : (fun _ => none : SlotSums P) = fun s => slotSum (placedIn slotOf [] s) := rfl
  rw [hempty] at hsums
  obtain ⟨hlt, rfl⟩ := addToSlots_run hE slotOf hsums
  rw [List.nil_append] at hcommittees
  have hmap := Guest.mapM_eq_ok.mp hcommittees
  have hlength : committees.length = slots := by
    have := congrArg List.length hmap
    simpa using this.symm
  refine ⟨?_, hlength, ?_⟩
  · intro k hk
    exact hlt (active[k], k) (List.mem_zipIdx_iff_getElem?.mpr (List.getElem?_eq_getElem hk))
  · intro slot hslot
    have hget : committees[slot]? = some committees[slot] := List.getElem?_eq_getElem (by omega)
    have hat := congrArg (·[slot]?) hmap
    simp only [List.getElem?_map, List.getElem?_range hslot, hget, Option.map_some,
      Option.some.injEq] at hat
    have hmem : ∀ v ∈ placedIn slotOf active.zipIdx slot, v ∈ active := by
      intro v hv
      obtain ⟨k, hk, -⟩ := mem_placedIn.mp hv
      exact List.mem_of_getElem? hk
    -- a sum over the leaves is one over those placed
    have hover : ∀ {G : Type} [AddCommMonoid G] (f : ℕ → G) (g : OpenedValidator P → G),
        (∀ v ∈ active, f (position d v) = g v) →
          ∑ i ∈ slotCommittee slotOf (active.map (position d)) slot, f i =
            ((placedIn slotOf active.zipIdx slot).map g).sum := by
      intro G _ f g hfg
      rw [slotCommittee_eq hnodup, List.sum_toFinset _ (placedIn_nodup hnodup slot),
        ← placedIn_map, List.map_map]
      apply congrArg List.sum
      apply List.map_congr_left
      intro v hv
      exact hfg v (hmem v hv)
    rw [hget, Option.join_some, slotAggregate_slotSum hat, slotEntry, leafSums,
      hover (leafKey t) (·.pubkey) (fun v hv => by rw [leafKey, hleaf v hv]; rfl),
      hover (fun i => (t.balance i).toNat) (·.activeEffectiveBalance.toNat)
        (fun v hv => by rw [Contents.balance, hleaf v hv]; rfl)]
    apply if_congr _ rfl rfl
    rw [slotCommittee_eq hnodup, ← placedIn_map, List.toFinset_eq_empty_iff, List.map_eq_nil_iff]

/-- Every active validator is in the committee of one slot. -/
theorem existsUnique_slot {active : List ℕ} {slotOf : ℕ → ℕ} (hslot : ∀ k < active.length,
    slotOf k < slots) {i : ℕ} (hi : i ∈ active) :
    ∃! slot, slot < slots ∧ i ∈ slotCommittee slotOf active slot := by
  refine ⟨slotOf (active.idxOf i), ⟨hslot _ (List.idxOf_lt_length_of_mem hi), ?_⟩, ?_⟩
  · exact Finset.mem_filter.mpr ⟨List.mem_toFinset.mpr hi, rfl⟩
  · rintro slot ⟨-, hmem⟩
    exact (Finset.mem_filter.mp hmem).2.symm

/-- The committees of the slots add up to everybody. -/
theorem sum_slotCommittee {active : List ℕ} {slotOf : ℕ → ℕ} (hactive : active.Nodup)
    (hslot : ∀ k < active.length, slotOf k < slots) (f : ℕ → ℕ) :
    ∑ slot ∈ Finset.range slots, ∑ i ∈ slotCommittee slotOf active slot, f i =
      (active.map f).sum := by
  rw [← List.sum_toFinset f hactive]
  apply Finset.sum_fiberwise_of_maps_to
  intro i hi
  exact Finset.mem_range.mpr (hslot _ (List.idxOf_lt_length_of_mem (List.mem_toFinset.mp hi)))

/-- The balance of an entry is its leaves', where they do not overflow. -/
theorem slotEntry_balance {bucket : Finset ℕ}
    (hlt : ∑ i ∈ bucket, (t.balance i).toNat < 2 ^ 64) :
    (slotEntry t bucket).elim 0 (·.balance.toNat) = ∑ i ∈ bucket, (t.balance i).toNat := by
  unfold slotEntry
  split
  · next h =>
      subst h
      rfl
  · exact UInt64.toNat_ofNat_of_lt' hlt

/-- **What a committee proof of the fast confirmation rule proves.** The opened list is
the active set in order, each validator once, up to index bits above the depth that are
the same for all; it is what the published count counts; the tree has one entry a slot, the
sum over those the shuffle of the active set places there; everybody is in one slot, and the
slots add up to the committed total. -/
theorem verifyFcrCommittee_active (hP : CollisionFree P) (hE : ExactAddition P)
    (h : verifyFcrCommitteeWithDepth sha256 countsTowardSupport witness slots d = .ok out)
    (hacc : out.accumulatorCommitment = P.commitment (t.accRoot d) total)
    (htotal : ∑ i ∈ Finset.range (2 ^ d), (t.balance i).toNat = total.toNat) :
    let active := activeIndices d t
    let slotOf := shuffledSlot sha256 witness.seed active.length slots
    (witness.active.map (·.validatorIndex.toNat)).Pairwise (· < ·) ∧
      witness.active.map (position d) = active ∧
      (∃ high, ∀ v ∈ witness.active, v.validatorIndex.toNat / 2 ^ d = high) ∧
      out.seed = P.ofBytes witness.seed ∧ out.activeCount.toNat = active.length ∧
      (∀ i ∈ active, ∃! slot, slot < slots ∧ i ∈ slotCommittee slotOf active slot) ∧
      ∃ committees, Committee.root committees = .ok out.committeeRoot ∧
        committees.length = slots ∧
        (∀ slot < slots, committees[slot]?.join =
          slotEntry t (slotCommittee slotOf active slot)) ∧
        ∑ slot ∈ Finset.range slots, (committees[slot]?.join).elim 0 (·.balance.toNat) =
          total.toNat := by
  intro active slotOf
  obtain ⟨hcommitment, hseed, hcount, opening, sums, committees, hopening, hsummed, hroot, hsums,
    hcommittees, hcommitteeRoot⟩ := verifyFcrCommittee_eq_ok h
  obtain ⟨haccRoot, hcommitted⟩ := hP.commitment (hcommitment.symm.trans hacc)
  rw [haccRoot] at hroot
  obtain ⟨hleaf, hhigh, hactive⟩ := opened_active (t := t) hP hopening hroot
    (by rw [hsummed, hcommitted, htotal])
  have hlength : witness.active.length = active.length := by
    rw [← List.length_map (f := position d), hactive]
  have hnodup : active.Nodup := (activeIndices_sorted d t).imp fun h => Nat.ne_of_lt h
  rw [hlength] at hsums hcount
  obtain ⟨hslot, hslots, hentries⟩ := entries_eq hE hsums hcommittees hleaf (hactive ▸ hnodup)
  rw [hlength] at hslot
  rw [hactive] at hentries
  obtain ⟨-, -, -, -, hsorted⟩ := openActives_run hopening
  -- the balances of the active positions are everything there is
  have hsum : (active.map fun i => (t.balance i).toNat).sum = total.toNat := by
    rw [← htotal, ← List.sum_toFinset _ hnodup]
    apply Finset.sum_subset
    · intro i hi
      exact Finset.mem_range.mpr (mem_activeIndices.mp (List.mem_toFinset.mp hi)).1
    · intro i hi hnone
      by_contra hne
      apply hnone
      exact List.mem_toFinset.mpr
        (mem_activeIndices.mpr ⟨Finset.mem_range.mp hi, Nat.pos_of_ne_zero hne⟩)
  have hfew : active.length < 2 ^ 64 := by
    have hpos : ∀ x ∈ active.map fun i => (t.balance i).toNat, 0 < x := by
      intro x hx
      obtain ⟨i, hi, rfl⟩ := List.mem_map.mp hx
      exact (mem_activeIndices.mp hi).2
    have hle := length_le_sum_of_pos hpos
    rw [List.length_map, hsum] at hle
    exact Nat.lt_of_le_of_lt hle total.toNat_lt
  have hcommitteesum := sum_slotCommittee hnodup hslot fun i => (t.balance i).toNat
  refine ⟨hsorted, hactive, hhigh, hseed, ?_, fun i hi => existsUnique_slot hslot hi, committees,
    hcommitteeRoot, hslots, hentries, ?_⟩
  · rw [hcount]
    exact UInt64.toNat_ofNat_of_lt' hfew
  · rw [← hsum, ← hcommitteesum]
    apply Finset.sum_congr rfl
    intro slot hmem
    rw [hentries slot (Finset.mem_range.mp hmem)]
    apply slotEntry_balance
    have hle := Finset.single_le_sum
      (f := fun s => ∑ i ∈ slotCommittee slotOf active s, (t.balance i).toNat)
      (fun s _ => Nat.zero_le _) hmem
    rw [hcommitteesum, hsum] at hle
    exact Nat.lt_of_le_of_lt hle total.toNat_lt

end Entries

/-- Two validators, both of them active, in an epoch of 32 slots. -/
theorem verifyFcrCommittee_active_two :
    let P := Formal.formal {}
    let t : Contents P := fun i => if h : i < 2 then some ⟨Formal.key ⟨i, by omega⟩, 32⟩ else none
    let witness : FcrCommitteeWitness P := ⟨.commitment (t.accRoot 1) 64, t.accRoot 1, 64,
      zeroBytes 32, 7, [⟨0, Formal.key 0, 32⟩, ⟨1, Formal.key 1, 32⟩], []⟩
    ∃ out, verifyFcrCommitteeWithDepth (fun _ => zeroBytes 32) (fun _ _ _ _ _ => true) witness
        32 1 = .ok out ∧
      witness.active.map (position 1) = activeIndices 1 t ∧ out.activeCount.toNat = 2 := by
  intro P t witness
  obtain ⟨out, h, hacc⟩ : ∃ out, verifyFcrCommitteeWithDepth (fun _ => zeroBytes 32)
      (fun _ _ _ _ _ => true) witness 32 1 = .ok out ∧
        out.accumulatorCommitment = P.commitment (t.accRoot 1) 64 := by decide +kernel
  obtain ⟨-, hactive, -, -, hcount, -⟩ := verifyFcrCommittee_active
    (Formal.formal_collisionFree _) (Formal.formal_exactAddition _) h hacc (by decide)
  exact ⟨out, h, hactive, hcount.trans (by decide)⟩

/-- One leaf in a tree of depth 0, opened under index 1: a bit above the depth. -/
theorem verifyFcrCommittee_shifted :
    let P := Formal.formal {}
    let t : Contents P := fun i => if i = 0 then some ⟨Formal.key 0, 32⟩ else none
    let witness : FcrCommitteeWitness P := ⟨.commitment (t.accRoot 0) 32, t.accRoot 0, 32,
      zeroBytes 32, 7, [⟨1, Formal.key 0, 32⟩], []⟩
    ∃ out, verifyFcrCommitteeWithDepth (fun _ => zeroBytes 32) (fun _ _ _ _ _ => true) witness
        32 0 = .ok out ∧
      out.accumulatorCommitment = P.commitment (t.accRoot 0) 32 ∧
      ∑ i ∈ Finset.range (2 ^ 0), (t.balance i).toNat = (32 : UInt64).toNat ∧
      witness.active.map (·.validatorIndex.toNat) ≠ activeIndices 0 t := by
  decide +kernel

end Accepted

end Zkasper.Fcr
