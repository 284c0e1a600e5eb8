import Zkasper.Keyring
import Zkasper.Recursion

/-! # The committee proof

One proof an epoch reads every committee member once, out of a flat array of
words, and sums keys and balances per slot. The slot a member is assigned to is
plain witness; what makes the buckets disjoint is that members come in strictly
increasing index order and every one of them is a leaf of the accumulator
(`verify_buckets`). -/

namespace Zkasper.Committee

open Bls Merkle PerfectTree

variable {P : Primitives}

/-! ## The word format -/

/-- Words the header spends before the first member. -/
def headerWords : ℕ := 12

/-- Words one member spends: index, twelve public-key limbs, balance, slot. -/
def memberWords : ℕ := 15

/-- Words one digest spends. -/
def digestWords : ℕ := 4

/-- Reinterpret a run of words as the fixed-stride records it holds. -/
def records (n : ℕ) (words : List UInt64) : Guest (List (List UInt64)) := do
  Guest.assert (words.length % n = 0) "committee witness is not a whole number of records"
  return (List.range (words.length / n)).map fun i => (words.drop (i * n)).take n

/-- One validator's committee assignment, with the leaf preimage that opens it. -/
structure CommitteeMember (P : Primitives) where
  validatorIndex : UInt64
  pubkey : P.G1Point
  activeEffectiveBalance : UInt64
  slotInEpoch : UInt64

/-- A member read out of its fifteen words. -/
def CommitteeMember.ofWords (words : List UInt64) : CommitteeMember P where
  validatorIndex := words.getD 0 0
  pubkey := P.pointOfWords ((words.drop 1).take 12)
  activeEffectiveBalance := words.getD 13 0
  slotInEpoch := words.getD 14 0

/-! ## The circuit -/

/-- What the loop over the members carries: the two columns to open, and a sum of
keys and of balances for every slot. -/
structure CommitteeSums (P : Primitives) where
  nodes : List (ℕ × P.Digest)
  sums : ℕ → PointSum P
  balances : ℕ → UInt64
  previous : Option UInt64

/-- Strictly increasing is what makes the slot buckets disjoint. -/
def checkMember (previous : Option UInt64) (validatorIndex : UInt64) : Guest Unit :=
  match previous with
  | none => return ()
  | some previous =>
      Guest.assert (validatorIndex > previous)
        s!"committee members must be strictly increasing: {validatorIndex} followed {previous}"

/-- One member of the loop. -/
def addMember (s : CommitteeSums P) (m : CommitteeMember P) : Guest (CommitteeSums P) := do
  checkMember s.previous m.validatorIndex
  Guest.assert (m.slotInEpoch.toNat < maxSlots)
    s!"slot {m.slotInEpoch} is past the {maxSlots} a committee tree holds"
  let slot := m.slotInEpoch.toNat
  let sum ← Guest.expect ((s.sums slot).add m.pubkey)
    "committee aggregation hit a shared x-coordinate"
  return {
    nodes := s.nodes ++ [(m.validatorIndex.toNat, P.leaf m.pubkey m.activeEffectiveBalance)]
    sums := Function.update s.sums slot sum
    balances := Function.update s.balances slot (s.balances slot + m.activeEffectiveBalance)
    previous := some m.validatorIndex }

/-- The aggregate of a slot, where anyone was assigned to it. -/
def CommitteeSums.aggregate (s : CommitteeSums P) (slot : ℕ) : Option (CommitteeAggregate P) :=
  (s.sums slot).get.map fun pubkey => ⟨pubkey, s.balances slot⟩

/-- Verify a committee proof: sum each slot's committee out of the accumulator. -/
def verify (witness : List UInt64) (accDepth : ℕ) : Guest (CommitteeOutput P) := do
  Guest.assert (headerWords ≤ witness.length) "committee witness is shorter than its header"
  let accumulatorCommitment := P.digestOfWords (witness.take 4)
  let accRoot := P.digestOfWords ((witness.drop 4).take 4)
  let targetEpoch := witness.getD 8 0
  let memberCount := witness.getD 10 0
  Guest.assert (P.commitment accRoot (witness.getD 9 0) = accumulatorCommitment)
    "accumulator commitment mismatch"
  -- `usize` arithmetic wraps in a release build; the allocation below bounds the count.
  let auxiliaries := 12 + memberCount * 15
  Guest.assert (UInt64.ofNat witness.length = auxiliaries + witness.getD 11 0 * 4)
    "committee witness does not hold the counts its header names"
  Guest.assert (memberCount.toNat * 32 < 2 ^ 63) "capacity overflow"
  Guest.assert (auxiliaries.toNat ≤ witness.length) "range end index out of range for slice"
  let members ← records memberWords ((witness.take auxiliaries.toNat).drop headerWords)
  let s ← (members.map CommitteeMember.ofWords).foldlM addMember
    ⟨[], fun _ => ⟨none⟩, fun _ => 0, none⟩
  let digests ← records digestWords (witness.drop auxiliaries.toNat)
  let root' ← batchRootColumns P.compress s.nodes (digests.map P.digestOfWords) accDepth
  Guest.assert (root' = accRoot) "accumulator root mismatch"
  let committeeRoot ← root ((List.range maxSlots).map s.aggregate)
  return ⟨accumulatorCommitment, targetEpoch, committeeRoot⟩

/-! ## The buckets -/

section Buckets

variable {M : KeyModel P}

theorem addMember_eq_ok {s s' : CommitteeSums P} {m : CommitteeMember P}
    (h : addMember s m = .ok s') :
    (∀ previous, s.previous = some previous → previous.toNat < m.validatorIndex.toNat) ∧
      m.slotInEpoch.toNat < maxSlots ∧
      s'.nodes = s.nodes ++ [(m.validatorIndex.toNat, P.leaf m.pubkey m.activeEffectiveBalance)] ∧
      (∃ sum, (s.sums m.slotInEpoch.toNat).add m.pubkey = some sum ∧
        s'.sums = Function.update s.sums m.slotInEpoch.toNat sum) ∧
      s'.balances = Function.update s.balances m.slotInEpoch.toNat
        (s.balances m.slotInEpoch.toNat + m.activeEffectiveBalance) ∧
      s'.previous = some m.validatorIndex := by
  simp only [addMember, Guest.bind_eq_ok, Guest.assert_eq_ok, Guest.expect_eq_ok,
    Guest.pure_eq_ok, exists_const] at h
  obtain ⟨_, hincreasing, hlt, sum, hsum, rfl⟩ := h
  refine ⟨fun previous hprevious => ?_, hlt, rfl, ⟨sum, hsum, rfl⟩, rfl, rfl⟩
  rw [hprevious] at hincreasing
  exact UInt64.lt_iff_toNat_lt.mp (Guest.assert_eq_ok.mp hincreasing)

/-- The members of some list assigned to a slot. -/
def assigned (members : List (CommitteeMember P)) (slot : ℕ) : List (CommitteeMember P) :=
  members.filter fun m => m.slotInEpoch.toNat = slot

theorem assigned_cons (m : CommitteeMember P) (members : List (CommitteeMember P)) (slot : ℕ) :
    assigned (m :: members) slot =
      if m.slotInEpoch.toNat = slot then m :: assigned members slot else assigned members slot := by
  simp [assigned, List.filter_cons]

/-- **The run over the members**: the columns are theirs, every slot's sums add up
the members assigned to it in turn, and their indices increase. -/
theorem addMembers_run :
    ∀ {members : List (CommitteeMember P)} {s s' : CommitteeSums P},
      members.foldlM addMember s = .ok s' →
        s'.nodes = s.nodes ++ members.map (fun m =>
            (m.validatorIndex.toNat, P.leaf m.pubkey m.activeEffectiveBalance)) ∧
          (∀ slot, ((assigned members slot).map (·.pubkey)).foldlM PointSum.add (s.sums slot) =
            some (s'.sums slot)) ∧
          (∀ slot, s'.balances slot = s.balances slot + UInt64.ofNat
            ((assigned members slot).map fun m => m.activeEffectiveBalance.toNat).sum) ∧
          (∀ m ∈ members, m.slotInEpoch.toNat < maxSlots) ∧
          (∀ previous, s.previous = some previous →
            ∀ m ∈ members, previous.toNat < m.validatorIndex.toNat) ∧
          (members.map (·.validatorIndex.toNat)).Pairwise (· < ·) := by
  intro members
  induction members with
  | nil =>
      intro s s' h
      obtain rfl := Guest.foldlM_nil.mp h
      simp [assigned]
  | cons m members ih =>
      intro s s' h
      obtain ⟨mid, hstep, hrest⟩ := Guest.foldlM_cons.mp h
      obtain ⟨hprevious, hlt, hnodes, ⟨sum, hsum, hsums⟩, hbalances, hlast⟩ :=
        addMember_eq_ok hstep
      obtain ⟨ihnodes, ihsums, ihbalances, ihlt, ihprevious, ihpairwise⟩ := ih hrest
      have hafter := ihprevious _ hlast
      refine ⟨?_, fun slot => ?_, fun slot => ?_, List.forall_mem_cons.mpr ⟨hlt, ihlt⟩,
        fun previous hprev other hother => ?_, ?_⟩
      · rw [ihnodes, hnodes, List.map_cons, List.append_assoc, List.singleton_append]
      · rw [← ihsums, hsums, assigned_cons]
        -- only the slot of this member moves
        by_cases hslot : m.slotInEpoch.toNat = slot
        · subst hslot
          rw [Function.update_self, if_pos rfl, List.map_cons, List.foldlM_cons, hsum]
          rfl
        · rw [Function.update_of_ne (Ne.symm hslot), if_neg hslot]
      · rw [ihbalances, hbalances, assigned_cons]
        by_cases hslot : m.slotInEpoch.toNat = slot
        · subst hslot
          rw [Function.update_self, if_pos rfl, List.map_cons, List.sum_cons, UInt64.ofNat_add,
            UInt64.ofNat_toNat, UInt64.add_assoc]
        · rw [Function.update_of_ne (Ne.symm hslot), if_neg hslot]
      · cases hother with
        | head => exact hprevious previous hprev
        | tail _ hother => exact (hprevious previous hprev).trans (hafter other hother)
      · rw [List.map_cons, List.pairwise_cons]
        refine ⟨fun x hx => ?_, ihpairwise⟩
        obtain ⟨other, hother, rfl⟩ := List.mem_map.mp hx
        exact hafter other hother

/-- In coefficients, every slot's sum grows by those of the members assigned to it. -/
theorem addMembers_sumCoeff (M : KeyModel P) {members : List (CommitteeMember P)}
    {s s' : CommitteeSums P} (h : members.foldlM addMember s = .ok s') (slot : ℕ) :
    M.sumCoeff (s'.sums slot) = M.sumCoeff (s.sums slot) +
      ((assigned members slot).map fun m => M.coeff m.pubkey).sum := by
  obtain ⟨-, hsums, -⟩ := addMembers_run h
  rw [M.sumCoeff_addAll (hsums slot), List.map_map]
  rfl

theorem verify_eq_ok {witness : List UInt64} {accDepth : ℕ} {out : CommitteeOutput P}
    (h : verify witness accDepth = .ok out) :
    ∃ (accRoot : P.Digest) (total : UInt64) (members : List (CommitteeMember P))
      (s : CommitteeSums P) (aux : List P.Digest),
      out.accumulatorCommitment = P.commitment accRoot total ∧
      members.foldlM addMember ⟨[], fun _ => ⟨none⟩, fun _ => 0, none⟩ = .ok s ∧
      batchRootColumns P.compress s.nodes aux accDepth = .ok accRoot ∧
      root ((List.range maxSlots).map s.aggregate) = .ok out.committeeRoot := by
  simp only [verify, Guest.bind_eq_ok, Guest.assert_eq_ok, Guest.pure_eq_ok, exists_const] at h
  obtain ⟨-, hcommitment, -, -, -, members, -, s, hloop, digests, -, r, hrun, rfl, committeeRoot,
    hroot, rfl⟩ := h
  exact ⟨_, _, _, s, _, hcommitment.symm, hloop, hrun, hroot⟩

/-- Only a slot somebody was assigned to has an aggregate, and it is the sum over
the members assigned to it. -/
theorem aggregate_eq_some (M : KeyModel P) {members : List (CommitteeMember P)}
    {s : CommitteeSums P} {slot : ℕ} {aggregate : CommitteeAggregate P}
    (hloop : members.foldlM addMember ⟨[], fun _ => ⟨none⟩, fun _ => 0, none⟩ = .ok s)
    (h : ((List.range maxSlots).map s.aggregate)[slot]?.join = some aggregate) :
    M.coeff aggregate.pubkey = ((assigned members slot).map fun m => M.coeff m.pubkey).sum ∧
      aggregate.balance = UInt64.ofNat
        ((assigned members slot).map fun m => m.activeEffectiveBalance.toNat).sum := by
  obtain ⟨-, -, hbalances, -⟩ := addMembers_run hloop
  have hlt : slot < maxSlots := by
    by_contra hge
    rw [List.getElem?_eq_none (by simpa using hge)] at h
    cases h
  rw [List.getElem?_map, List.getElem?_range hlt] at h
  obtain ⟨pubkey, hpubkey, rfl⟩ := Option.map_eq_some_iff.mp h
  constructor
  · rw [← M.sumCoeff_get hpubkey, addMembers_sumCoeff M hloop slot]
    exact zero_add _
  · rw [hbalances slot]
    exact UInt64.zero_add _

/-- The position a member's index names in a tree of depth `d`. -/
def CommitteeMember.position (d : ℕ) (m : CommitteeMember P) : ℕ := m.validatorIndex.toNat % 2 ^ d

theorem mem_assigned {m : CommitteeMember P} {members : List (CommitteeMember P)} {slot : ℕ} :
    m ∈ assigned members slot ↔ m ∈ members ∧ m.slotInEpoch.toNat = slot := by
  simp [assigned]

/-- The positions whose member record names a slot. -/
def namedPositions (d : ℕ) (members : List (CommitteeMember P)) (slot : ℕ) : Finset ℕ :=
  ((assigned members slot).map (CommitteeMember.position d)).toFinset

theorem namedPositions_eq_empty {d : ℕ} {members : List (CommitteeMember P)} {slot : ℕ} :
    namedPositions d members slot = ∅ ↔ assigned members slot = [] := by
  rw [namedPositions, List.toFinset_eq_empty_iff, List.map_eq_nil_iff]

/-- Leaves named once each sum to what their records sum to. -/
theorem sum_namedPositions {G : Type} [AddCommMonoid G] {d : ℕ}
    {members : List (CommitteeMember P)}
    (hnodup : (members.map (CommitteeMember.position d)).Nodup) {f : ℕ → G}
    {g : CommitteeMember P → G} (hfg : ∀ m ∈ members, f (m.position d) = g m) (slot : ℕ) :
    ∑ i ∈ namedPositions d members slot, f i = ((assigned members slot).map g).sum := by
  have hnodup' : ((assigned members slot).map (CommitteeMember.position d)).Nodup :=
    hnodup.sublist (List.filter_sublist.map _)
  rw [namedPositions, List.sum_toFinset _ hnodup', List.map_map]
  apply congrArg List.sum
  apply List.map_congr_left
  intro m hm
  exact hfg m (mem_assigned.mp hm).1

theorem namedPositions_disjoint {d : ℕ} {members : List (CommitteeMember P)}
    (hnodup : (members.map (CommitteeMember.position d)).Nodup) {slot slot' : ℕ} (hne : slot ≠ slot') :
    Disjoint (namedPositions d members slot) (namedPositions d members slot') := by
  rw [Finset.disjoint_left]
  intro i hi hi'
  obtain ⟨m, hm, rfl⟩ := List.mem_map.mp (List.mem_toFinset.mp hi)
  obtain ⟨m', hm', heq⟩ := List.mem_map.mp (List.mem_toFinset.mp hi')
  obtain ⟨hm, hslot⟩ := mem_assigned.mp hm
  obtain ⟨hm', hslot'⟩ := mem_assigned.mp hm'
  -- one position, one record, and a record names one slot
  obtain rfl : m' = m := List.inj_on_of_nodup_map hnodup hm' hm heq
  exact hne (hslot.symm.trans hslot')

/-- **The slot buckets**: members that are leaves of the accumulator, no two of
them the same, fill disjoint buckets of it, whatever slots they were assigned to. -/
def assignedBuckets {d : ℕ} {t : Contents P} {members : List (CommitteeMember P)}
    {s : CommitteeSums P}
    (hloop : members.foldlM addMember ⟨[], fun _ => ⟨none⟩, fun _ => 0, none⟩ = .ok s)
    (hleaf : ∀ m ∈ members, t (m.position d) = some ⟨m.pubkey, m.activeEffectiveBalance⟩)
    (hnodup : (members.map (CommitteeMember.position d)).Nodup) :
    Buckets M d t ((List.range maxSlots).map s.aggregate) where
  bucket := namedPositions d members
  occupied slot i hi := by
    obtain ⟨m, hm, rfl⟩ := List.mem_map.mp (List.mem_toFinset.mp hi)
    refine ⟨Nat.mod_lt _ (by simp), ?_⟩
    rw [hleaf m (mem_assigned.mp hm).1]
    rfl
  disjoint _ _ hne := namedPositions_disjoint hnodup hne
  coeff slot aggregate hslot := by
    rw [(aggregate_eq_some M hloop hslot).1]
    symm
    apply sum_namedPositions hnodup
    intro m hm
    rw [hleaf m hm]
    rfl
  balance slot aggregate hslot := by
    rw [(aggregate_eq_some M hloop hslot).2]
    apply congrArg UInt64.ofNat
    symm
    apply sum_namedPositions hnodup
    intro m hm
    rw [Contents.balance, hleaf m hm]
    rfl

/-- Members opened against an accumulator are its leaves, and no two are one leaf. -/
theorem members_opened (hP : CollisionFree P) {d : ℕ} {t : Contents P}
    {members : List (CommitteeMember P)} {s : CommitteeSums P} {aux : List P.Digest}
    (hloop : members.foldlM addMember ⟨[], fun _ => ⟨none⟩, fun _ => 0, none⟩ = .ok s)
    (hrun : batchRootColumns P.compress s.nodes aux d = .ok (t.accRoot d)) :
    (∀ m ∈ members, t (m.position d) = some ⟨m.pubkey, m.activeEffectiveBalance⟩) ∧
      (members.map (CommitteeMember.position d)).Nodup := by
  obtain ⟨hnodes, -, -, -, -, hpairwise⟩ := addMembers_run hloop
  obtain ⟨high, hopen⟩ := batchRootColumns_sound hP.compress hrun
  rw [hnodes, List.nil_append] at hopen
  refine ⟨fun m hm => Contents.eq_of_leaf hP (hopen _ (List.mem_map_of_mem hm)).1, ?_⟩
  have hhigh : ∀ k ∈ members.map (·.validatorIndex.toNat), k / 2 ^ d = high := by
    intro k hk
    obtain ⟨m, hm, rfl⟩ := List.mem_map.mp hk
    exact (hopen _ (List.mem_map_of_mem hm)).2
  have hmod := nodup_mod_two_pow hpairwise hhigh
  rwa [List.map_map] at hmod

/-- **What a committee proof proves**: the tree it publishes sums disjoint buckets
of accumulator leaves, whatever slots the witness assigned. -/
theorem verify_buckets (hP : CollisionFree P) (M : KeyModel P) {witness : List UInt64} {d : ℕ}
    {out : CommitteeOutput P} {t : Contents P} {total : UInt64}
    (h : verify witness d = .ok out)
    (hacc : out.accumulatorCommitment = P.commitment (t.accRoot d) total) :
    ∃ committees, root committees = .ok out.committeeRoot ∧
      Nonempty (Buckets M d t committees) := by
  obtain ⟨accRoot, total', members, s, aux, hcommitment, hloop, hrun, hroot⟩ := verify_eq_ok h
  obtain ⟨rfl, -⟩ := hP.commitment (hcommitment.symm.trans hacc)
  obtain ⟨hleaf, hnodup⟩ := members_opened hP hloop hrun
  exact ⟨_, hroot, ⟨assignedBuckets hloop hleaf hnodup⟩⟩

end Buckets
end Zkasper.Committee
