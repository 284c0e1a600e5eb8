import Zkasper.CommitteeProof.Entries
import Zkasper.CommitteeProof.Words
import Zkasper.WitnessGen.Openings
import Zkasper.WitnessGen.Counted
import Zkasper.WitnessGen.ProvableDiff

/-! # The host's committees in the circuit

The host groups the node's table by the place of a slot within its epoch, keeps a second copy
of it by slot and index, and hands the circuit the members in index order. Whoever is listed
for a place is its member, once (`Listed`), and the circuit adds up the same members
(`aggregate_eq_sumSlot`).

The second copy keeps one row a key, and keys it by the slot itself. So a slot's rows are the
members of its place exactly if every committee listed for the place is at that slot, and no
later one takes its row (`Kept`). -/

namespace Zkasper

open Bls Committee Merkle PerfectTree

variable {P : Primitives}

/-! ## The node's table -/

namespace EpochCommittees

/-- **What the node's table leaves**: nobody listed twice, everybody assigned to the place of the
slot listed for, and in the row of a key the last committee that has it. -/
structure Listed (slotsPerEpoch : UInt64) (responses : List CommitteeResponse)
    (s : Std.TreeMap UInt64 UInt64 × Std.TreeMap (UInt64 × UInt64) (List UInt64) lexCompare) :
    Prop where
  apart : responses.Pairwise fun r r' => ∀ i ∈ r.validators, i ∉ r'.validators
  assigned : ∀ i slot : UInt64, s.1[i]? = some slot ↔
    ∃ r ∈ responses, i ∈ r.validators ∧ r.slot % slotsPerEpoch = slot
  row : ∀ seat : UInt64 × UInt64, s.2[seat]? =
    (responses.reverse.find? fun r => (r.slot, r.index) = seat).map (·.validators)

theorem Listed.nil {slotsPerEpoch : UInt64} : Listed slotsPerEpoch [] (∅, ∅) where
  apart := .nil
  assigned := by simp
  row := by simp

/-- Whoever has an assignment after a committee had it before, or is in the committee. -/
theorem assignAll_iff {targetEpoch slotInEpoch : UInt64} :
    ∀ {indices : List UInt64} {assignment assignment' : Std.TreeMap UInt64 UInt64},
      indices.foldlM (assign targetEpoch slotInEpoch) assignment = .ok assignment' →
        ∀ i slot : UInt64, assignment'[i]? = some slot ↔
          assignment[i]? = some slot ∨ i ∈ indices ∧ slotInEpoch = slot := by
  intro indices
  induction indices with
  | nil =>
      intro assignment assignment' h i slot
      obtain rfl := Guest.foldlM_nil.mp h
      simp
  | cons index indices ih =>
      intro assignment assignment' h i slot
      obtain ⟨mid, hassign, hrest⟩ := Guest.foldlM_cons.mp h
      obtain ⟨hnew, rfl⟩ := assign_eq_ok hassign
      rw [ih hrest, Std.TreeMap.getElem?_insert]
      by_cases hi : index = i
      · subst hi
        rw [if_pos (Std.compare_eq_iff_eq.mpr rfl), Std.TreeMap.getElem?_eq_none hnew]
        simp
      · rw [if_neg (fun heq => hi (Std.compare_eq_iff_eq.mp heq)), List.mem_cons]
        have hne : i ≠ index := Ne.symm hi
        tauto

/-- One committee more. -/
theorem Listed.assignCommittee {slotsPerEpoch targetEpoch : UInt64}
    {responses : List CommitteeResponse} {response : CommitteeResponse}
    {s s' : Std.TreeMap UInt64 UInt64 × Std.TreeMap (UInt64 × UInt64) (List UInt64) lexCompare}
    (h : Listed slotsPerEpoch responses s)
    (hassign : assignCommittee slotsPerEpoch targetEpoch s response = .ok s') :
    Listed slotsPerEpoch (responses ++ [response]) s' := by
  simp only [EpochCommittees.assignCommittee, Guest.bind_eq_ok, Guest.pure_eq_ok] at hassign
  obtain ⟨assignment, hall, rfl⟩ := hassign
  refine ⟨?_, fun i slot => ?_, fun seat => ?_⟩
  · refine List.pairwise_append.mpr ⟨h.apart, List.pairwise_singleton _ _, ?_⟩
    intro r hr r' hr' i hi hi'
    obtain rfl := List.mem_singleton.mp hr'
    apply assignAll_new hall i hi'
    rw [Std.TreeMap.mem_iff_isSome_getElem?, (h.assigned i _).mpr ⟨r, hr, hi, rfl⟩]
    rfl
  · show assignment[i]? = some slot ↔ _
    rw [assignAll_iff hall, h.assigned]
    simp only [List.mem_append, List.mem_singleton, or_and_right, exists_or, exists_eq_left]
  · show (s.2.insert (response.slot, response.index) response.validators)[seat]? = _
    rw [Std.TreeMap.getElem?_insert, List.reverse_append, List.reverse_singleton,
      List.singleton_append, List.find?_cons]
    by_cases heq : (response.slot, response.index) = seat
    · rw [if_pos (Std.LawfulEqCmp.compare_eq_iff_eq.mpr heq), decide_eq_true heq]
      rfl
    · rw [if_neg (fun hcmp => heq (Std.LawfulEqCmp.compare_eq_iff_eq.mp hcmp)),
        decide_eq_false heq, h.row]

/-- The whole table. -/
theorem Listed.run {slotsPerEpoch targetEpoch : UInt64} {responses : List CommitteeResponse}
    {s : Std.TreeMap UInt64 UInt64 × Std.TreeMap (UInt64 × UInt64) (List UInt64) lexCompare}
    (h : responses.foldlM (EpochCommittees.assignCommittee slotsPerEpoch targetEpoch) (∅, ∅) =
      .ok s) :
    Listed slotsPerEpoch responses s := by
  have hrun := Guest.foldlM_invariant
    (fun rest s => ∃ done, done ++ rest = responses ∧ Listed slotsPerEpoch done s)
    (fun response rest s s' ⟨done, hdone, hlisted⟩ hstep =>
      ⟨done ++ [response], by rw [List.append_assoc]; exact hdone, hlisted.assignCommittee hstep⟩)
    responses _ _ ⟨[], rfl, .nil⟩ h
  obtain ⟨done, hdone, hlisted⟩ := hrun
  rw [List.append_nil] at hdone
  exact hdone ▸ hlisted

/-- **Who is in a row**: those of the committee they are listed in, where it has the row's key and
no later one takes it. -/
theorem Listed.mem_row {slotsPerEpoch : UInt64} {before after : List CommitteeResponse}
    {r : CommitteeResponse}
    {s : Std.TreeMap UInt64 UInt64 × Std.TreeMap (UInt64 × UInt64) (List UInt64) lexCompare}
    (h : Listed slotsPerEpoch (before ++ r :: after) s) {i : UInt64} (hi : i ∈ r.validators)
    (seat : UInt64 × UInt64) : (∃ row, s.2[seat]? = some row ∧ i ∈ row) ↔
      (r.slot, r.index) = seat ∧ ∀ r' ∈ after, (r'.slot, r'.index) ≠ seat := by
  obtain ⟨-, hafter, hbefore⟩ := List.pairwise_append.mp h.apart
  have hlater := (List.pairwise_cons.mp hafter).1
  have hrow := h.row seat
  rw [List.reverse_append, List.reverse_cons, List.append_assoc, List.find?_append,
    List.singleton_append, List.find?_cons] at hrow
  rw [hrow]
  rcases htaken : after.reverse.find? fun r => (r.slot, r.index) = seat with _ | taken
  · have hfree : ∀ r' ∈ after, (r'.slot, r'.index) ≠ seat := by simpa using htaken
    rw [htaken, Option.none_or]
    by_cases hseat : (r.slot, r.index) = seat
    · rw [decide_eq_true hseat]
      exact iff_of_true ⟨_, rfl, hi⟩ ⟨hseat, hfree⟩
    · rw [decide_eq_false hseat]
      refine iff_of_false ?_ fun h => hseat h.1
      rintro ⟨row, hearlier, hmem⟩
      obtain ⟨r', hr', rfl⟩ := Option.map_eq_some_iff.mp hearlier
      have hr' := List.mem_reverse.mp (List.mem_of_find?_eq_some hr')
      exact hbefore r' hr' r List.mem_cons_self i hmem hi
  · have hmem := List.mem_reverse.mp (List.mem_of_find?_eq_some htaken)
    have hseat : (taken.slot, taken.index) = seat := by simpa using List.find?_some htaken
    rw [htaken, Option.some_or]
    refine iff_of_false ?_ fun h => h.2 taken hmem hseat
    rintro ⟨row, hrow, hin⟩
    obtain rfl := Option.some.inj hrow
    exact hlater taken hmem i hi hin

/-! ## The witness -/

section Built

variable {responses : List CommitteeResponse} {validators : List ValidatorResponse}
  {tree : AccTree P} {slotsPerEpoch targetEpoch balanceEpoch totalActiveBalance : UInt64}
  {committees : EpochCommittees P}

/-- **Who is listed is a member**: of the place of the slot listed for, and nobody else is. -/
theorem build_listed
    (h : build responses validators tree slotsPerEpoch targetEpoch balanceEpoch
      totalActiveBalance = .ok committees) :
    ∃ assignment, Listed slotsPerEpoch responses (assignment, committees.table) ∧
      ∀ i slot : UInt64, (∃ m ∈ committees.witness.members, m.validatorIndex = i ∧
        m.slotInEpoch = slot) ↔ assignment[i]? = some slot := by
  simp only [build, Guest.bind_eq_ok, Guest.pure_eq_ok] at h
  obtain ⟨-, -, ⟨assignment, table⟩, hassign, witnesses, hwitnesses, rfl⟩ := h
  refine ⟨assignment, .run hassign, fun i slot => ?_⟩
  have himages := Guest.mapM_eq_ok.mp hwitnesses
  have hnamed : ∀ {entry : UInt64 × UInt64} {m : CommitteeMember P},
      nameMember validators balanceEpoch entry = .ok m →
        m.validatorIndex = entry.1 ∧ m.slotInEpoch = entry.2 := by
    intro entry m hm
    simp only [nameMember, Guest.bind_eq_ok, Guest.expect_eq_ok, Guest.pure_eq_ok] at hm
    obtain ⟨_, -, _, -, rfl⟩ := hm
    exact ⟨rfl, rfl⟩
  rw [← Std.TreeMap.mem_toList_iff_getElem?_eq_some]
  constructor
  · rintro ⟨m, hm, rfl, rfl⟩
    have himage : Except.ok m ∈ assignment.toList.map (nameMember validators balanceEpoch) :=
      himages ▸ List.mem_map_of_mem hm
    obtain ⟨entry, hentry, hname⟩ := List.mem_map.mp himage
    obtain ⟨hindex, hslot⟩ := hnamed hname
    rw [hindex, hslot]
    exact hentry
  · intro hentry
    have himage : nameMember validators balanceEpoch (i, slot) ∈ witnesses.map .ok :=
      himages ▸ List.mem_map_of_mem hentry
    obtain ⟨m, hm, hname⟩ := List.mem_map.mp himage
    exact ⟨m, hm, hnamed hname.symm⟩

/-- What is published, and the witness over it. -/
theorem build_witness
    (h : build responses validators tree slotsPerEpoch targetEpoch balanceEpoch
      totalActiveBalance = .ok committees) :
    committees.witness = {
      accumulatorCommitment := P.commitment tree.root totalActiveBalance
      targetEpoch
      accRoot := tree.root
      totalActiveBalance
      accMultiProof :=
        tree.buildMultiProof (committees.witness.members.map (·.validatorIndex.toNat))
      members := committees.witness.members } ∧
    committees.output =
      ⟨P.commitment tree.root totalActiveBalance, targetEpoch, committees.root⟩ := by
  simp only [build, Guest.bind_eq_ok, Guest.pure_eq_ok] at h
  obtain ⟨-, -, ⟨assignment, table⟩, -, witnesses, -, rfl⟩ := h
  refine ⟨rfl, ?_⟩
  rw [root, node, List.getD_eq_getElem?_getD (l := List.getD _ _ _)]

end Built

end EpochCommittees

/-! ## The circuit's loop -/

namespace Committee

/-- The loop returns over ascending members of the tree's slots, where the adder is defined on
the keys of every slot. -/
theorem addMembers_isOk : ∀ {members : List (CommitteeMember P)} {s : CommitteeSums P},
    (members.map (·.validatorIndex)).Pairwise (· < ·) →
      (∀ previous, s.previous = some previous → ∀ m ∈ members, previous < m.validatorIndex) →
      (∀ m ∈ members, m.slotInEpoch.toNat < maxSlots) →
      (∀ slot, ((assigned members slot).map (·.pubkey)).foldlM PointSum.add (s.sums slot) ≠ none) →
        ∃ s', members.foldlM addMember s = .ok s' := by
  intro members
  induction members with
  | nil => exact fun _ _ _ _ => ⟨_, rfl⟩
  | cons m members ih =>
      intro s hascending hprevious hslots hsums
      obtain ⟨hfirst, hrest⟩ := List.pairwise_cons.mp hascending
      obtain ⟨hslot, hslots⟩ := List.forall_mem_cons.mp hslots
      obtain ⟨sum, hsum⟩ : ∃ sum, (s.sums m.slotInEpoch.toNat).add m.pubkey = some sum := by
        apply Option.ne_none_iff_exists'.mp
        intro hnone
        apply hsums m.slotInEpoch.toNat
        rw [assigned_cons, if_pos rfl, List.map_cons, List.foldlM_cons, hnone]
        rfl
      have hcheck : checkMember s.previous m.validatorIndex = .ok () := by
        unfold checkMember
        split
        · rfl
        · next previous hlast =>
            exact Guest.assert_eq_ok.mpr (hprevious previous hlast m List.mem_cons_self)
      -- what the fold holds after this member
      let mid : CommitteeSums P := {
        nodes := s.nodes ++ [(m.validatorIndex.toNat, P.leaf m.pubkey m.activeEffectiveBalance)]
        sums := Function.update s.sums m.slotInEpoch.toNat sum
        balances := Function.update s.balances m.slotInEpoch.toNat
          (s.balances m.slotInEpoch.toNat + m.activeEffectiveBalance)
        previous := some m.validatorIndex }
      have hstep : addMember s m = .ok mid := by
        simp only [addMember, Guest.bind_eq_ok, Guest.assert_eq_ok, Guest.expect_eq_ok,
          Guest.pure_eq_ok, exists_const]
        exact ⟨(), hcheck, hslot, sum, hsum, rfl⟩
      have hlast : ∀ previous, mid.previous = some previous →
          ∀ other ∈ members, previous < other.validatorIndex := by
        intro previous hlast other hother
        obtain rfl := Option.some.inj hlast
        exact hfirst _ (List.mem_map_of_mem hother)
      have hmid : ∀ slot, ((assigned members slot).map (·.pubkey)).foldlM PointSum.add
          (mid.sums slot) ≠ none := by
        intro slot
        have hsum' := hsums slot
        rw [assigned_cons] at hsum'
        show List.foldlM PointSum.add (Function.update s.sums m.slotInEpoch.toNat sum slot) _ ≠ none
        by_cases heq : m.slotInEpoch.toNat = slot
        · subst heq
          rw [Function.update_self]
          rwa [if_pos rfl, List.map_cons, List.foldlM_cons, hsum] at hsum'
        · rw [Function.update_of_ne (Ne.symm heq)]
          rwa [if_neg heq] at hsum'
      obtain ⟨s', hrun⟩ := ih hrest hlast hslots hmid
      exact ⟨s', Guest.foldlM_cons.mpr ⟨mid, hstep, hrun⟩⟩

/-- Adding the balances up in 64 bits is their sum, wrapped once. -/
theorem foldl_add_eq (balances : List UInt64) (start : UInt64) :
    balances.foldl (· + ·) start = start + UInt64.ofNat (balances.map UInt64.toNat).sum := by
  induction balances generalizing start with
  | nil => simp
  | cons balance balances ih =>
      rw [List.foldl_cons, ih, List.map_cons, List.sum_cons, UInt64.ofNat_add, UInt64.ofNat_toNat,
        UInt64.add_assoc]

/-- **One sum, twice**: what the circuit publishes for a slot is what the host summed for it. -/
theorem aggregate_eq_sumSlot {members : List (CommitteeMember P)} {s : CommitteeSums P}
    (hloop : members.foldlM addMember ⟨[], fun _ => ⟨none⟩, fun _ => 0, none⟩ = .ok s)
    (slot : ℕ) : s.aggregate slot = EpochCommittees.sumSlot (assigned members slot) := by
  obtain ⟨-, hsums, hbalances, -⟩ := addMembers_run hloop
  have hsum : (assigned members slot).foldlM (fun (sum : PointSum P) m => sum.add m.pubkey)
      ⟨none⟩ = some (s.sums slot) := by
    rw [← hsums slot, List.foldlM_map]
  rw [CommitteeSums.aggregate, EpochCommittees.sumSlot, hsum, Option.bind_eq_bind,
    Option.bind_some, Option.bind_eq_bind, foldl_add_eq, List.map_map, hbalances slot,
    Option.map_eq_bind]
  rfl

/-- The words of a witness: each value in it is what the circuit reads out of its words. -/
structure Wire.CommitteeWitness.Spells (w : Wire.CommitteeWitness)
    (witness : Zkasper.CommitteeWitness P) : Prop where
  accumulatorCommitment :
    P.digestOfWords (List.ofFn w.accumulatorCommitment) = witness.accumulatorCommitment
  targetEpoch : w.targetEpoch = witness.targetEpoch
  accRoot : P.digestOfWords (List.ofFn w.accRoot) = witness.accRoot
  totalActiveBalance : w.totalActiveBalance = witness.totalActiveBalance
  members : w.members.map (Wire.CommitteeMember.value P) = witness.members
  auxiliaries : (w.auxiliaries.map fun auxiliary => P.digestOfWords (List.ofFn auxiliary)) =
    witness.accMultiProof

instance : DecidableEq (CommitteeMember P) := fun m m' =>
  decidable_of_iff (m.validatorIndex = m'.validatorIndex ∧ m.pubkey = m'.pubkey ∧
    m.activeEffectiveBalance = m'.activeEffectiveBalance ∧ m.slotInEpoch = m'.slotInEpoch)
    (by cases m; cases m'; simp)

instance (w : Wire.CommitteeWitness) (witness : Zkasper.CommitteeWitness P) :
    Decidable (w.Spells witness) :=
  decidable_of_iff
    (P.digestOfWords (List.ofFn w.accumulatorCommitment) = witness.accumulatorCommitment ∧
      w.targetEpoch = witness.targetEpoch ∧
      P.digestOfWords (List.ofFn w.accRoot) = witness.accRoot ∧
      w.totalActiveBalance = witness.totalActiveBalance ∧
      w.members.map (Wire.CommitteeMember.value P) = witness.members ∧
      (w.auxiliaries.map fun auxiliary => P.digestOfWords (List.ofFn auxiliary)) =
        witness.accMultiProof)
    ⟨fun ⟨h1, h2, h3, h4, h5, h6⟩ => ⟨h1, h2, h3, h4, h5, h6⟩,
      fun ⟨h1, h2, h3, h4, h5, h6⟩ => ⟨h1, h2, h3, h4, h5, h6⟩⟩

end Committee

/-! ## The accumulator -/

/-- Whoever is in a registry, and has a leaf at all, has a stored one. -/
theorem lt_two_pow_dense {i n depth : ℕ} (hn : i < n) (hdepth : i < 2 ^ depth) :
    i < 2 ^ min (max (Nat.clog 2 n) 1) depth := by
  rcases le_total (max (Nat.clog 2 n) 1) depth with hle | hle
  · rw [min_eq_left hle]
    exact hn.trans_le ((Nat.le_pow_clog (by omega) _).trans
      (Nat.pow_le_pow_right (by omega) (le_max_left _ _)))
  · rwa [min_eq_right hle]

/-- **The tree over a registry opens whoever has a leaf**, listed in ascending order. -/
theorem AccTree.build_opens {validators : List ValidatorResponse} {epoch : UInt64} {depth : ℕ}
    {tree : AccTree P} (h : build (validators.map (·.data)) epoch depth = .ok tree)
    {members : List (CommitteeMember P)} (hne : members ≠ [])
    (hascending : (members.map (·.validatorIndex)).Pairwise (· < ·))
    (hleaf : ∀ m ∈ members, hostContents P validators epoch m.validatorIndex.toNat =
      some ⟨m.pubkey, m.activeEffectiveBalance⟩)
    (hin : ∀ m ∈ members, m.validatorIndex.toNat < 2 ^ depth) :
    batchRootColumns P.compress
      (members.map fun m => (m.validatorIndex.toNat, P.leaf m.pubkey m.activeEffectiveBalance))
      (tree.buildMultiProof (members.map (·.validatorIndex.toNat))) depth = .ok tree.root := by
  obtain ⟨rfl, hdense, -, hholds⟩ := build_padded h
  set ks := members.map (·.validatorIndex.toNat) with hks
  have hlt : ks.Pairwise (· < ·) := by
    have hmap := hascending.map UInt64.toNat fun _ _ => UInt64.lt_iff_toNat_lt.mp
    rwa [List.map_map] at hmap
  have hstored : ∀ k ∈ ks, k < 2 ^ tree.denseDepth := by
    intro k hk
    obtain ⟨m, hm, rfl⟩ := List.mem_map.mp hk
    rw [hdense, List.length_map]
    exact lt_two_pow_dense (lt_length_of_contentsBy (hleaf m hm)) (hin m hm)
  have hbound : ∀ k ∈ ks, k < 2 ^ tree.depth := by
    intro k hk
    obtain ⟨m, hm, rfl⟩ := List.mem_map.mp hk
    exact hin m hm
  have hsorted : ks.dedup.insertionSort (· ≤ ·) = ks := by
    rw [List.Nodup.dedup (hlt.imp fun h => ne_of_lt h)]
    exact List.Pairwise.insertionSort_eq (hlt.imp fun h => le_of_lt h)
  have hnodes : members.map (fun m => (m.validatorIndex.toNat,
      P.leaf m.pubkey m.activeEffectiveBalance)) =
        (ks.map fun k => (paddedLeaves P (validators.map (·.data)) epoch tree.depth k, k)).map
          Prod.swap := by
    rw [hks, List.map_map, List.map_map]
    apply List.map_congr_left
    intro m hm
    -- the leaf of a member is that of the registry's record
    have hentry := hleaf m hm
    simp only [hostContents, contentsBy, Option.bind_eq_bind, Option.bind_eq_some_iff] at hentry
    obtain ⟨v, hv, point, hpoint, hentry⟩ := hentry
    obtain ⟨rfl, hbalance⟩ := AccLeaf.mk.inj (Option.some.inj hentry)
    have hpadded : paddedLeaves P (validators.map (·.data)) epoch tree.depth
        m.validatorIndex.toNat = _ :=
      paddedLeaves_of_some (hin m hm)
        (List.getElem?_map (f := ValidatorResponse.data) ▸ congrArg (Option.map _) hv) hpoint
    rw [hbalance] at hpadded
    exact congrArg (Prod.mk _) hpadded.symm
  rw [hnodes, buildMultiProof, hsorted,
    multiProof_across hholds.serves hlt (.of_stored hholds.dense_le hstored), hholds.root_eq]
  exact (batchRoot_eq_ok.mp (batchRoot_canonical (by simpa [hks] using hne) hlt hbound)).2

/-! ## The three views -/

namespace EpochCommittees

/-- Whoever is listed for a place within the epoch. -/
def named (slotsPerEpoch : UInt64) (responses : List CommitteeResponse) (place : ℕ) : Finset ℕ :=
  (((responses.filter fun r => (r.slot % slotsPerEpoch).toNat = place).flatMap
    (·.validators)).map UInt64.toNat).toFinset

/-- Every committee listed for the place of a slot is at that slot, and no later one takes its
row. Empty ones do not matter. -/
def Kept (slotsPerEpoch : UInt64) (responses : List CommitteeResponse) (slot : UInt64) : Prop :=
  ∀ before r after, responses = before ++ r :: after → r.validators ≠ [] →
    r.slot % slotsPerEpoch = slot % slotsPerEpoch →
      r.slot = slot ∧ ∀ r' ∈ after, (r'.slot, r'.index) ≠ (r.slot, r.index)

/-- The members of a slot's place. -/
def membersOf (committees : EpochCommittees P) (place : ℕ) : List UInt64 :=
  committees.members.getD place []

/-- Whoever a bit of one of the slot's committees can stand for. -/
def Seated (committees : EpochCommittees P) (slot i : UInt64) : Prop :=
  ∃ index row, committees.committee slot index = some row ∧ i ∈ row

section Views

variable {responses : List CommitteeResponse} {validators : List ValidatorResponse}
  {tree : AccTree P} {slotsPerEpoch targetEpoch balanceEpoch totalActiveBalance : UInt64}
  {committees : EpochCommittees P}

/-- A place within the epoch is one of the tree's. -/
theorem place_lt (hpos : 0 < slotsPerEpoch)
    (h : build responses validators tree slotsPerEpoch targetEpoch balanceEpoch
      totalActiveBalance = .ok committees) (slot : UInt64) :
    (slot % slotsPerEpoch).toNat < maxSlots := by
  rw [UInt64.toNat_mod]
  exact (Nat.mod_lt _ (UInt64.lt_iff_toNat_lt.mp hpos)).trans_le (build_slots h)

/-- **The members of a place are those listed for it**, in ascending order. -/
theorem mem_membersOf
    (h : build responses validators tree slotsPerEpoch targetEpoch balanceEpoch
      totalActiveBalance = .ok committees) {place : ℕ} (hplace : place < maxSlots) :
    committees.membersOf place =
        (assigned committees.witness.members place).map (·.validatorIndex) ∧
      (committees.membersOf place).Pairwise (· < ·) ∧
      ∀ i, i ∈ committees.membersOf place ↔
        ∃ r ∈ responses, i ∈ r.validators ∧ (r.slot % slotsPerEpoch).toNat = place := by
  have hregistry := build_ofRegistry h
  obtain ⟨assignment, hlisted, hmembers⟩ := build_listed h
  have heq : committees.membersOf place =
      (assigned committees.witness.members place).map (·.validatorIndex) := by
    rw [membersOf, hregistry.members, List.getD_eq_getElem?_getD, List.getElem?_map,
      List.getElem?_range hplace]
    rfl
  refine ⟨heq, ?_, fun i => ?_⟩
  · rw [heq]
    exact hregistry.ascending.sublist (List.filter_sublist.map _)
  · rw [heq, List.mem_map]
    constructor
    · rintro ⟨m, hm, rfl⟩
      obtain ⟨hmem, rfl⟩ := mem_assigned.mp hm
      have hentry := (hmembers _ _).mp ⟨m, hmem, rfl, rfl⟩
      obtain ⟨r, hr, hi, hslot⟩ := (hlisted.assigned _ _).mp hentry
      exact ⟨r, hr, hi, congrArg UInt64.toNat hslot⟩
    · rintro ⟨r, hr, hi, rfl⟩
      have hentry := (hlisted.assigned i _).mpr ⟨r, hr, hi, rfl⟩
      obtain ⟨m, hm, rfl, hslot⟩ := (hmembers _ _).mpr hentry
      exact ⟨m, mem_assigned.mpr ⟨hm, congrArg UInt64.toNat hslot⟩, rfl⟩

/-- Every member of the witness is in the tree. -/
theorem member_slot_lt (hpos : 0 < slotsPerEpoch)
    (h : build responses validators tree slotsPerEpoch targetEpoch balanceEpoch
      totalActiveBalance = .ok committees) :
    ∀ m ∈ committees.witness.members, m.slotInEpoch.toNat < maxSlots := by
  intro m hm
  obtain ⟨assignment, hlisted, hmembers⟩ := build_listed h
  obtain ⟨r, -, -, hslot⟩ := (hlisted.assigned _ _).mp ((hmembers _ _).mp ⟨m, hm, rfl, rfl⟩)
  exact hslot ▸ place_lt hpos h r.slot

/-- **Whoever sits in a slot's committee** is in one that is listed at the slot, which no later one
has replaced. -/
theorem seated_iff
    (h : build responses validators tree slotsPerEpoch targetEpoch balanceEpoch
      totalActiveBalance = .ok committees) {before after : List CommitteeResponse}
    {r : CommitteeResponse} (hresponses : responses = before ++ r :: after) {i : UInt64}
    (hi : i ∈ r.validators) (slot : UInt64) : committees.Seated slot i ↔
      r.slot = slot ∧ ∀ r' ∈ after, (r'.slot, r'.index) ≠ (r.slot, r.index) := by
  obtain ⟨assignment, hlisted, -⟩ := build_listed h
  rw [hresponses] at hlisted
  have hrow : ∀ index, (∃ row, committees.committee slot index = some row ∧ i ∈ row) ↔
      (r.slot, r.index) = (slot, index) ∧ ∀ r' ∈ after, (r'.slot, r'.index) ≠ (slot, index) :=
    fun index => hlisted.mem_row hi (slot, index)
  simp only [Seated, hrow]
  constructor
  · rintro ⟨index, hseat, hafter⟩
    obtain ⟨rfl, rfl⟩ := Prod.mk.inj hseat
    exact ⟨rfl, hafter⟩
  · rintro ⟨rfl, hafter⟩
    exact ⟨r.index, rfl, hafter⟩

/-- **A slot's rows are the members of its place** exactly if the slot's committees are kept;
otherwise they are some of them. -/
theorem seated_iff_member (hpos : 0 < slotsPerEpoch)
    (h : build responses validators tree slotsPerEpoch targetEpoch balanceEpoch
      totalActiveBalance = .ok committees) (slot : UInt64) :
    (∀ i, committees.Seated slot i → i ∈ committees.membersOf (slot % slotsPerEpoch).toNat) ∧
    ((∀ i, committees.Seated slot i ↔ i ∈ committees.membersOf (slot % slotsPerEpoch).toNat) ↔
      Kept slotsPerEpoch responses slot) := by
  obtain ⟨-, -, hmem⟩ := mem_membersOf h (place_lt hpos h slot)
  have hseated : ∀ i, committees.Seated slot i →
      i ∈ committees.membersOf (slot % slotsPerEpoch).toNat := by
    rintro i ⟨index, row, hrow, hi⟩
    obtain ⟨m, hm, rfl, hslot⟩ := (build_ofRegistry h).row slot index row hrow i hi
    obtain ⟨heq, -⟩ := mem_membersOf h (place_lt hpos h slot)
    rw [heq]
    exact List.mem_map_of_mem (mem_assigned.mpr ⟨hm, congrArg UInt64.toNat hslot⟩)
  refine ⟨hseated, ?_, fun hkept i => ⟨hseated i, fun hi => ?_⟩⟩
  · rintro heq before r after hresponses hne hplace
    obtain ⟨i, hi⟩ := List.exists_mem_of_ne_nil _ hne
    have hlisted : ∃ r ∈ responses, i ∈ r.validators ∧
        (r.slot % slotsPerEpoch).toNat = (slot % slotsPerEpoch).toNat :=
      ⟨r, by simp [hresponses], hi, congrArg UInt64.toNat hplace⟩
    exact (seated_iff h hresponses hi slot).mp ((heq i).mpr ((hmem i).mpr hlisted))
  · obtain ⟨r, hr, hi, hplace⟩ := (hmem i).mp hi
    obtain ⟨before, after, hresponses⟩ := List.append_of_mem hr
    apply (seated_iff h hresponses hi slot).mpr
    exact hkept before r after hresponses (List.ne_nil_of_mem hi) (UInt64.toNat_inj.mp hplace)

/-- The circuit's loop runs over the members, and sums what the host did. -/
theorem build_runs (hpos : 0 < slotsPerEpoch)
    (h : build responses validators tree slotsPerEpoch targetEpoch balanceEpoch
      totalActiveBalance = .ok committees)
    (hsums : ∀ place < maxSlots, ((assigned committees.witness.members place).map
      (·.pubkey)).foldlM PointSum.add ⟨none⟩ ≠ none) :
    ∃ s : CommitteeSums P, committees.witness.members.foldlM addMember
        ⟨[], fun _ => ⟨none⟩, fun _ => 0, none⟩ = .ok s ∧
      (List.range maxSlots).map s.aggregate = committees.aggregates := by
  have hregistry := build_ofRegistry h
  have hslots := member_slot_lt hpos h
  have hsums' : ∀ place, ((assigned committees.witness.members place).map (·.pubkey)).foldlM
      PointSum.add ⟨none⟩ ≠ none := by
    intro place
    by_cases hplace : place < maxSlots
    · exact hsums place hplace
    · have hnone : assigned committees.witness.members place = [] := by
        apply List.eq_nil_iff_forall_not_mem.mpr
        intro m hm
        obtain ⟨hmem, rfl⟩ := mem_assigned.mp hm
        exact hplace (hslots m hmem)
      rw [hnone]
      exact Option.some_ne_none _
  obtain ⟨s, hloop⟩ := addMembers_isOk (s := ⟨[], fun _ => ⟨none⟩, fun _ => 0, none⟩)
    hregistry.ascending (by simp) hslots hsums'
  refine ⟨s, hloop, ?_⟩
  rw [hregistry.aggregates]
  exact List.map_congr_left fun place _ => aggregate_eq_sumSlot hloop place

/-- **The circuit accepts what the host built**, and publishes what the host says it does. -/
theorem verify_built {depth : ℕ} (hpos : 0 < slotsPerEpoch)
    (htree : AccTree.build (validators.map (·.data)) balanceEpoch depth = .ok tree)
    (h : build responses validators tree slotsPerEpoch targetEpoch balanceEpoch
      totalActiveBalance = .ok committees)
    (hne : committees.witness.members ≠ [])
    (hsums : ∀ place < maxSlots, ((assigned committees.witness.members place).map
      (·.pubkey)).foldlM PointSum.add ⟨none⟩ ≠ none)
    (hin : ∀ m ∈ committees.witness.members, m.validatorIndex.toNat < 2 ^ depth)
    {w : Wire.CommitteeWitness} (hfits : w.Fits) (hspells : w.Spells committees.witness) :
    verify (Wire.encode w) depth = .ok committees.output := by
  obtain ⟨s, hloop, haggregates⟩ := build_runs hpos h hsums
  have hregistry := build_ofRegistry h
  obtain ⟨hwitness, houtput⟩ := build_witness h
  obtain ⟨hnodes, -⟩ := addMembers_run hloop
  have hopens := AccTree.build_opens htree hne hregistry.ascending hregistry.leaf hin
  rw [List.nil_append] at hnodes
  rw [← hnodes] at hopens
  have hroot : Committee.root committees.aggregates = .ok committees.root := by
    apply root_eq_ok.mpr
    refine ⟨?_, hregistry.root_eq.symm⟩
    rw [hregistry.aggregates, List.length_map, List.length_range]
  apply Wire.verify_eq_ok_iff.mpr
  refine ⟨w, Wire.read_encode hfits, ?_⟩
  rw [Wire.CommitteeWitness.check, hspells.accRoot, hspells.accumulatorCommitment,
    hspells.members, hspells.auxiliaries, hspells.totalActiveBalance, hspells.targetEpoch]
  simp only [Guest.bind_eq_ok, Guest.assert_eq_ok, Guest.pure_eq_ok, exists_const]
  refine ⟨?_, s, hloop, tree.root, ?_, ?_, committees.root, haggregates ▸ hroot, ?_⟩
  · rw [hwitness]
  · rw [hwitness]
    exact hopens
  · rw [hwitness]
  · rw [houtput, hwitness]

/-- **The host's committees and the circuit's.** Whatever the node lists, what is built from it
is accepted as long as the adder is defined on every slot's keys and whoever is named has a leaf,
and publishes what was built. A slot's aggregate is the sum over whoever is listed for its place,
who are its members and those the witness names for it, each once. Whoever sits in one of a slot's
committees is among them, and they are all that sit there exactly if every committee listed for
the place is at that slot and no later one takes its row. -/
theorem build_agrees [AddCommGroup P.G1Point] (hE : ExactAddition P) {depth : ℕ}
    (hpos : 0 < slotsPerEpoch)
    (htree : AccTree.build (validators.map (·.data)) balanceEpoch depth = .ok tree)
    (h : build responses validators tree slotsPerEpoch targetEpoch balanceEpoch
      totalActiveBalance = .ok committees)
    (hne : committees.witness.members ≠ [])
    (hsums : ∀ place < maxSlots, ((assigned committees.witness.members place).map
      (·.pubkey)).foldlM PointSum.add ⟨none⟩ ≠ none) :
    ((∀ m ∈ committees.witness.members, m.validatorIndex.toNat < 2 ^ depth) →
      ∀ w : Wire.CommitteeWitness, w.Fits → w.Spells committees.witness →
        verify (Wire.encode w) depth = .ok committees.output) ∧
    (∀ place < maxSlots, committees.aggregates[place]? = some (slotEntry
      (hostContents P validators balanceEpoch) (named slotsPerEpoch responses place))) ∧
    (∀ place < maxSlots, committees.membersOf place =
        (assigned committees.witness.members place).map (·.validatorIndex) ∧
      (committees.membersOf place).Pairwise (· < ·) ∧
      ∀ i, i ∈ committees.membersOf place ↔
        ∃ r ∈ responses, i ∈ r.validators ∧ (r.slot % slotsPerEpoch).toNat = place) ∧
    (∀ m ∈ committees.witness.members, m.slotInEpoch.toNat < maxSlots) ∧
    ∀ slot : UInt64,
      (∀ i, committees.Seated slot i → i ∈ committees.membersOf (slot % slotsPerEpoch).toNat) ∧
      ((∀ i, committees.Seated slot i ↔
        i ∈ committees.membersOf (slot % slotsPerEpoch).toNat) ↔
          Kept slotsPerEpoch responses slot) := by
  refine ⟨fun hin w hfits hspells => verify_built hpos htree h hne hsums hin hfits hspells,
    fun place hplace => ?_, fun place hplace => mem_membersOf h hplace, member_slot_lt hpos h,
    seated_iff_member hpos h⟩
  obtain ⟨s, hloop, haggregates⟩ := build_runs hpos h hsums
  have hregistry := build_ofRegistry h
  -- an index is its own position among as many leaves as there are indices
  have hposition : ∀ m : CommitteeMember P, m.position 64 = m.validatorIndex.toNat :=
    fun m => Nat.mod_eq_of_lt m.validatorIndex.toNat_lt
  have hnodup : (committees.witness.members.map (CommitteeMember.position 64)).Nodup := by
    rw [List.map_congr_left fun m _ => hposition m]
    have hmap := hregistry.ascending.map UInt64.toNat fun _ _ => UInt64.lt_iff_toNat_lt.mp
    rw [List.map_map] at hmap
    exact hmap.imp fun h => ne_of_lt h
  have hnamed : namedPositions 64 committees.witness.members place =
      named slotsPerEpoch responses place := by
    obtain ⟨heq, -, hmem⟩ := mem_membersOf h hplace
    rw [namedPositions, List.map_congr_left fun m _ => hposition m, named]
    ext k
    have hmembers : k ∈ ((committees.membersOf place).map UInt64.toNat) ↔ _ := List.mem_map
    rw [heq, List.map_map] at hmembers
    rw [List.mem_toFinset, List.mem_toFinset]
    refine hmembers.trans ?_
    simp only [List.mem_map, List.mem_flatMap, List.mem_filter, decide_eq_true_eq, ← heq, hmem]
    constructor
    · rintro ⟨i, ⟨r, hr, hi, hplace⟩, rfl⟩
      exact ⟨i, ⟨r, ⟨hr, hplace⟩, hi⟩, rfl⟩
    · rintro ⟨i, ⟨r, ⟨hr, hplace⟩, hi⟩, rfl⟩
      exact ⟨i, ⟨r, hr, hi, hplace⟩, rfl⟩
  rw [← haggregates, List.getElem?_map, List.getElem?_range hplace, Option.map_some,
    aggregate_eq_slotEntry hE hloop (fun m hm => (hposition m).symm ▸ hregistry.leaf m hm) hnodup,
    hnamed]

end Views

end EpochCommittees

namespace Formal

/-- The root over the first two generators' leaves. -/
def rosterRoot : Digest := .node (.leaf (key 0) 32) (.leaf (key 1) 32)

/-- A run that names that root, and the commitment to it. -/
def namedRoster : Primitives := formal { digests := [.zero, rosterRoot, .commitment rosterRoot 64] }

/-- A word array of one word, and nothing after it. -/
def firstWord (n : ℕ) (word : UInt64) : Wire.WordArray n := fun i => if i.1 = 0 then word else 0

/-- A witness of some members over that root. -/
def rosterWitness (members : List Wire.CommitteeMember) (auxiliaries : List (Wire.WordArray 4)) :
    Wire.CommitteeWitness :=
  ⟨firstWord 4 2, 0, firstWord 4 1, 64, members, auxiliaries⟩

def rosterMember (k slot : UInt64) : Wire.CommitteeMember := ⟨k, firstWord 12 k, 32, slot⟩

end Formal

namespace EpochCommittees

open Formal

/-- Two committees of one validator each, at two slots. -/
theorem build_agrees_roster : ∃ (tree : AccTree namedRoster) (committees : EpochCommittees _),
    AccTree.build ((roster 2).map (·.data)) 0 1 = .ok tree ∧
    build [⟨32, 0, [0]⟩, ⟨33, 0, [1]⟩] (roster 2) tree 32 0 0 64 = .ok committees ∧
    verify (Wire.encode (rosterWitness [rosterMember 0 0, rosterMember 1 1] [])) 1 =
      .ok committees.output := by
  obtain ⟨tree, htree, committees, hbuild, hne, hin, hsums, hspells⟩ :
      ∃ tree : AccTree namedRoster, AccTree.build ((roster 2).map (·.data)) 0 1 = .ok tree ∧
        ∃ committees, build [⟨32, 0, [0]⟩, ⟨33, 0, [1]⟩] (roster 2) tree 32 0 0 64 =
            .ok committees ∧
          committees.witness.members ≠ [] ∧
          (∀ m ∈ committees.witness.members, m.validatorIndex.toNat < 2 ^ 1) ∧
          (∀ place < maxSlots, ((assigned committees.witness.members place).map
            (·.pubkey)).foldlM PointSum.add ⟨none⟩ ≠ none) ∧
          (rosterWitness [rosterMember 0 0, rosterMember 1 1] []).Spells committees.witness := by
    decide +kernel
  have hagrees := build_agrees (formal_exactAddition _) (by decide) htree hbuild hne hsums
  exact ⟨tree, committees, htree, hbuild, hagrees.1 hin _ ⟨by decide, by decide⟩ hspells⟩

/-- **Where the views part.** A second committee with the key of the first takes its row, a slot
of another epoch has the place of one in this epoch, and a validator past the depth of the
accumulator has no leaf in it. -/
theorem build_not_agrees :
    (∃ (tree : AccTree namedRoster) (committees : EpochCommittees _),
      AccTree.build ((roster 2).map (·.data)) 0 1 = .ok tree ∧
      build [⟨0, 0, [0]⟩, ⟨0, 0, [1]⟩] (roster 2) tree 32 0 0 64 = .ok committees ∧
      0 ∈ committees.membersOf 0 ∧ ¬ committees.Seated 0 0) ∧
    (∃ (tree : AccTree namedRoster) (committees : EpochCommittees _),
      AccTree.build ((roster 2).map (·.data)) 0 1 = .ok tree ∧
      build [⟨0, 0, [0]⟩, ⟨32, 0, [1]⟩] (roster 2) tree 32 0 0 64 = .ok committees ∧
      1 ∈ committees.membersOf 0 ∧ ¬ committees.Seated 0 1) ∧
    ∃ (tree : AccTree namedRoster) (committees : EpochCommittees _),
      AccTree.build ((roster 3).map (·.data)) 0 1 = .ok tree ∧
      build [⟨0, 0, [2]⟩] (roster 3) tree 32 0 0 64 = .ok committees ∧
      (rosterWitness [rosterMember 2 0] [firstWord 4 0]).Spells committees.witness ∧
      ¬ ∃ out, verify (P := namedRoster)
        (Wire.encode (rosterWitness [rosterMember 2 0] [firstWord 4 0])) 1 = .ok out ∧ True := by
  refine ⟨?_, ?_, ?_⟩
  · obtain ⟨tree, htree, committees, hbuild, hmember⟩ :
        ∃ tree : AccTree namedRoster, AccTree.build ((roster 2).map (·.data)) 0 1 = .ok tree ∧
          ∃ committees, build [⟨0, 0, [0]⟩, ⟨0, 0, [1]⟩] (roster 2) tree 32 0 0 64 =
            .ok committees ∧ 0 ∈ committees.membersOf 0 := by
      decide +kernel
    refine ⟨tree, committees, htree, hbuild, hmember, fun hseated => ?_⟩
    have hsplit : ([⟨0, 0, [0]⟩, ⟨0, 0, [1]⟩] : List CommitteeResponse) =
        [] ++ ⟨0, 0, [0]⟩ :: [⟨0, 0, [1]⟩] := rfl
    have hkept := (seated_iff hbuild hsplit List.mem_cons_self 0).mp hseated
    exact hkept.2 _ List.mem_cons_self rfl
  · obtain ⟨tree, htree, committees, hbuild, hmember⟩ :
        ∃ tree : AccTree namedRoster, AccTree.build ((roster 2).map (·.data)) 0 1 = .ok tree ∧
          ∃ committees, build [⟨0, 0, [0]⟩, ⟨32, 0, [1]⟩] (roster 2) tree 32 0 0 64 =
            .ok committees ∧ 1 ∈ committees.membersOf 0 := by
      decide +kernel
    refine ⟨tree, committees, htree, hbuild, hmember, fun hseated => ?_⟩
    have hsplit : ([⟨0, 0, [0]⟩, ⟨32, 0, [1]⟩] : List CommitteeResponse) =
        [⟨0, 0, [0]⟩] ++ ⟨32, 0, [1]⟩ :: [] := rfl
    have hkept := (seated_iff hbuild hsplit List.mem_cons_self 0).mp hseated
    exact absurd hkept.1 (by decide)
  · obtain ⟨tree, htree, committees, hbuild, hspells⟩ :
        ∃ tree : AccTree namedRoster, AccTree.build ((roster 3).map (·.data)) 0 1 = .ok tree ∧
          ∃ committees, build [⟨0, 0, [2]⟩] (roster 3) tree 32 0 0 64 = .ok committees ∧
            (rosterWitness [rosterMember 2 0] [firstWord 4 0]).Spells committees.witness := by
      decide +kernel
    exact ⟨tree, committees, htree, hbuild, hspells, by decide +kernel⟩

end EpochCommittees

end Zkasper
