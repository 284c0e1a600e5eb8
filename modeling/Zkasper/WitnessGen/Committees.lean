import Zkasper.CommitteeProof
import Zkasper.Registry
import Zkasper.WitnessGen.AccTree

/-! # Committees on the host

One epoch's committees, summed, with everything a slot proof needs to open them:
the node's own assignment, the members of every slot, and the tree of the
aggregates. -/

namespace Zkasper

open Committee

/-- Tuples compare first component first. -/
abbrev lexCompare {α β : Type} [Ord α] [Ord β] : α × β → α × β → Ordering :=
  compareLex (compareOn Prod.fst) (compareOn Prod.snd)

instance {α β : Type} [Ord α] [Ord β] [Std.LawfulEqOrd α] [Std.LawfulEqOrd β] :
    Std.LawfulEqCmp (lexCompare : α × β → α × β → Ordering) where
  compare_self := by simp [lexCompare, compareLex, compareOn]
  eq_of_compare {a b} h := by
    simp only [lexCompare, compareLex, compareOn, Ordering.then_eq_eq, Std.compare_eq_iff_eq] at h
    exact Prod.ext h.1 h.2

/-- One committee as the node reports it. -/
structure CommitteeResponse where
  slot : UInt64
  index : UInt64
  validators : List UInt64

variable (P : Primitives)

/-- What the committee proof reads. -/
structure CommitteeWitness where
  accumulatorCommitment : P.Digest
  targetEpoch : UInt64
  accRoot : P.Digest
  totalActiveBalance : UInt64
  accMultiProof : List P.Digest
  members : List (CommitteeMember P)

/-- One epoch's committees. -/
structure EpochCommittees where
  /-- Validator indices per slot within the epoch, sorted. -/
  members : List (List UInt64)
  /-- The node's raw table, which the bits of an attestation index into. -/
  table : Std.TreeMap (UInt64 × UInt64) (List UInt64) lexCompare
  /-- Summed public key and balance per slot within the epoch. -/
  aggregates : List (Option (CommitteeAggregate P))
  witness : CommitteeWitness P
  output : CommitteeOutput P
  /-- Level 0 are the leaves, level `treeDepth` the root. -/
  levels : List (List P.Digest)

namespace EpochCommittees

variable {P} (committees : EpochCommittees P)

/-- The node at a level and index of the committee tree. -/
def node (level idx : ℕ) : P.Digest := ((committees.levels.getD level [])[idx]?).getD P.zero

def root : P.Digest := committees.node treeDepth 0

def aggregate (slotInEpoch : UInt64) : Option (CommitteeAggregate P) :=
  committees.aggregates[slotInEpoch.toNat]?.join

/-- One committee of one slot, as the node reported it. -/
def committee (slot index : UInt64) : Option (List UInt64) := committees.table[(slot, index)]?

/-- Opening of the committee tree for `slots`, which must be strictly increasing. -/
def multiProof (slots : List UInt64) : List P.Digest :=
  Zkasper.multiProof committees.node treeDepth 0 (slots.map UInt64.toNat)

/-! ## Building them -/

/-- Assign one validator. A second assignment is the node contradicting itself. -/
def assign (targetEpoch slotInEpoch : UInt64) (assignment : Std.TreeMap UInt64 UInt64)
    (index : UInt64) : Except String (Std.TreeMap UInt64 UInt64) := do
  Guest.assert (assignment.contains index = false)
    s!"validator {index} is in two committees of epoch {targetEpoch}"
  return assignment.insert index slotInEpoch

/-- One committee of the loop: the slot within the epoch its validators attest at, and
its row of the table. -/
def assignCommittee (slotsPerEpoch targetEpoch : UInt64)
    (s : Std.TreeMap UInt64 UInt64 × Std.TreeMap (UInt64 × UInt64) (List UInt64) lexCompare)
    (response : CommitteeResponse) :
    Except String
      (Std.TreeMap UInt64 UInt64 × Std.TreeMap (UInt64 × UInt64) (List UInt64) lexCompare) := do
  let assignment ← response.validators.foldlM
    (assign targetEpoch (response.slot % slotsPerEpoch)) s.1
  return (assignment, s.2.insert (response.slot, response.index) response.validators)

/-- The leaf preimage of an assigned validator. -/
def nameMember (validators : List ValidatorResponse) (balanceEpoch : UInt64)
    (assigned : UInt64 × UInt64) : Except String (CommitteeMember P) := do
  let response ← Guest.expect validators[assigned.1.toNat]?
    s!"committee names validator {assigned.1}, which is not registered"
  let pubkey ← Guest.expect (Pubkey.decompress P response.pubkey)
    s!"decompress validator {assigned.1} public key"
  return ⟨assigned.1, pubkey, response.data.activeEffectiveBalance balanceEpoch, assigned.2⟩

/-- The same sum the circuit computes; none where two keys share an `x` coordinate. -/
def sumSlot (members : List (CommitteeMember P)) : Option (CommitteeAggregate P) := do
  let sum ← members.foldlM (fun (sum : Bls.PointSum P) m => sum.add m.pubkey) ⟨none⟩
  let pubkey ← sum.get
  return ⟨pubkey, (members.map (·.activeEffectiveBalance)).foldl (· + ·) 0⟩

/-- Sum every slot's committee out of the accumulator and assemble the proof's witness. -/
def build (committees : List CommitteeResponse) (validators : List ValidatorResponse)
    (tree : AccTree P) (slotsPerEpoch targetEpoch balanceEpoch totalActiveBalance : UInt64) :
    Except String (EpochCommittees P) := do
  Guest.assert (slotsPerEpoch.toNat ≤ maxSlots) s!"committee tree holds {maxSlots} slots"
  let (assignment, table) ← committees.foldlM (assignCommittee slotsPerEpoch targetEpoch) (∅, ∅)
  let witnesses ← assignment.toList.mapM (nameMember validators balanceEpoch)
  let slots := (List.range maxSlots).map (assigned witnesses)
  let aggregates := slots.map sumSlot
  let leaves := aggregates.map fun slot => slot.elim P.zero leaf
  let levels := List.iterate (parents P.compress) leaves (treeDepth + 1)
  let accumulatorCommitment := P.commitment tree.root totalActiveBalance
  return {
    members := slots.map fun slot => slot.map (·.validatorIndex)
    table
    aggregates
    witness := {
      accumulatorCommitment
      targetEpoch
      accRoot := tree.root
      totalActiveBalance
      accMultiProof := tree.buildMultiProof (witnesses.map (·.validatorIndex.toNat))
      members := witnesses }
    output := ⟨accumulatorCommitment, targetEpoch, (levels.getD treeDepth []).getD 0 P.zero⟩
    levels }

/-! ## What they are built from -/

/-- **The committees of a registry**: every member is the leaf its validator has in the
accumulator, every row of the table is a part of its slot's committee, and the
aggregates and the levels over them are the members', slot by slot. -/
structure OfRegistry (validators : List ValidatorResponse) (slotsPerEpoch balanceEpoch : UInt64)
    (committees : EpochCommittees P) : Prop where
  ascending : (committees.witness.members.map (·.validatorIndex)).Pairwise (· < ·)
  leaf : ∀ m ∈ committees.witness.members,
    hostContents P validators balanceEpoch m.validatorIndex.toNat =
      some ⟨m.pubkey, m.activeEffectiveBalance⟩
  row : ∀ slot index row, committees.committee slot index = some row → ∀ i ∈ row,
    ∃ m ∈ committees.witness.members, m.validatorIndex = i ∧ m.slotInEpoch = slot % slotsPerEpoch
  members : committees.members = (List.range maxSlots).map fun slot =>
    (assigned committees.witness.members slot).map (·.validatorIndex)
  aggregates : committees.aggregates = (List.range maxSlots).map fun slot =>
    sumSlot (assigned committees.witness.members slot)
  levels : committees.levels = List.iterate (parents P.compress)
    (committees.aggregates.map fun slot => slot.elim P.zero Committee.leaf) (treeDepth + 1)

/-- Every row of the table is assigned to its slot. -/
def Tabled (slotsPerEpoch : UInt64)
    (s : Std.TreeMap UInt64 UInt64 × Std.TreeMap (UInt64 × UInt64) (List UInt64) lexCompare) : Prop :=
  ∀ (slot index : UInt64) (row : List UInt64), s.2[(slot, index)]? = some row →
    ∀ i ∈ row, s.1[i]? = some (slot % slotsPerEpoch)

theorem assign_eq_ok {targetEpoch slotInEpoch index : UInt64}
    {assignment assignment' : Std.TreeMap UInt64 UInt64}
    (h : assign targetEpoch slotInEpoch assignment index = .ok assignment') :
    index ∉ assignment ∧ assignment' = assignment.insert index slotInEpoch := by
  simp only [assign, Guest.bind_eq_ok, Guest.assert_eq_ok, Guest.pure_eq_ok, exists_const] at h
  obtain ⟨hnew, rfl⟩ := h
  refine ⟨?_, rfl⟩
  rw [Std.TreeMap.mem_iff_contains, hnew]
  exact Bool.false_ne_true

/-- A committee is assigned to its slot, and nobody else's assignment changes. -/
theorem assignAll_eq_ok {targetEpoch slotInEpoch : UInt64} :
    ∀ {indices : List UInt64} {assignment assignment' : Std.TreeMap UInt64 UInt64},
      indices.foldlM (assign targetEpoch slotInEpoch) assignment = .ok assignment' →
        (∀ i slot : UInt64, assignment[i]? = some slot → assignment'[i]? = some slot) ∧
          ∀ i ∈ indices, assignment'[i]? = some slotInEpoch := by
  intro indices
  induction indices with
  | nil =>
      intro assignment assignment' h
      obtain rfl := Guest.foldlM_nil.mp h
      exact ⟨fun _ _ h => h, by simp⟩
  | cons index indices ih =>
      intro assignment assignment' h
      obtain ⟨mid, hassign, hrest⟩ := Guest.foldlM_cons.mp h
      obtain ⟨hnew, rfl⟩ := assign_eq_ok hassign
      obtain ⟨hkept, hassigned⟩ := ih hrest
      have hself : (assignment.insert index slotInEpoch)[index]? = some slotInEpoch :=
        Std.TreeMap.getElem?_insert_self
      refine ⟨fun i slot hi => hkept i slot ?_, List.forall_mem_cons.mpr ⟨hkept _ _ hself, hassigned⟩⟩
      rw [Std.TreeMap.getElem?_insert, if_neg, hi]
      rw [Std.compare_eq_iff_eq]
      rintro rfl
      rw [Std.TreeMap.getElem?_eq_none hnew] at hi
      cases hi

theorem Tabled.assignCommittee {slotsPerEpoch targetEpoch : UInt64} {response : CommitteeResponse}
    {s s' : Std.TreeMap UInt64 UInt64 × Std.TreeMap (UInt64 × UInt64) (List UInt64) lexCompare}
    (h : Tabled slotsPerEpoch s)
    (hassign : assignCommittee slotsPerEpoch targetEpoch s response = .ok s') :
    Tabled slotsPerEpoch s' := by
  simp only [EpochCommittees.assignCommittee, Guest.bind_eq_ok, Guest.pure_eq_ok] at hassign
  obtain ⟨assignment, hall, rfl⟩ := hassign
  obtain ⟨hkept, hassigned⟩ := assignAll_eq_ok hall
  intro slot index row hrow i hi
  rw [Std.TreeMap.getElem?_insert] at hrow
  split at hrow
  · next heq =>
      obtain ⟨rfl, rfl⟩ := Prod.mk.inj (Std.LawfulEqCmp.compare_eq_iff_eq.mp heq)
      obtain rfl := Option.some.inj hrow
      exact hassigned i hi
  · exact hkept i _ (h slot index row hrow i hi)

/-- Nobody sits in two rows of the table. -/
def RowsApart (table : Std.TreeMap (UInt64 × UInt64) (List UInt64) lexCompare) : Prop :=
  ∀ (seat seat' : UInt64 × UInt64) (row row' : List UInt64), table[seat]? = some row →
    table[seat']? = some row' → ∀ i ∈ row, i ∈ row' → seat = seat'

/-- Whoever is assigned was not assigned before. -/
theorem assignAll_new {targetEpoch slotInEpoch : UInt64} :
    ∀ {indices : List UInt64} {assignment assignment' : Std.TreeMap UInt64 UInt64},
      indices.foldlM (assign targetEpoch slotInEpoch) assignment = .ok assignment' →
        ∀ i ∈ indices, i ∉ assignment := by
  intro indices
  induction indices with
  | nil => simp
  | cons index indices ih =>
      intro assignment assignment' h
      obtain ⟨mid, hassign, hrest⟩ := Guest.foldlM_cons.mp h
      obtain ⟨hnew, rfl⟩ := assign_eq_ok hassign
      refine List.forall_mem_cons.mpr ⟨hnew, fun i hi hold => ih hrest i hi ?_⟩
      exact Std.TreeMap.mem_insert.mpr (.inr hold)

theorem RowsApart.assignCommittee {slotsPerEpoch targetEpoch : UInt64}
    {response : CommitteeResponse}
    {s s' : Std.TreeMap UInt64 UInt64 × Std.TreeMap (UInt64 × UInt64) (List UInt64) lexCompare}
    (htabled : Tabled slotsPerEpoch s) (h : RowsApart s.2)
    (hassign : assignCommittee slotsPerEpoch targetEpoch s response = .ok s') :
    RowsApart s'.2 := by
  simp only [EpochCommittees.assignCommittee, Guest.bind_eq_ok, Guest.pure_eq_ok] at hassign
  obtain ⟨assignment, hall, rfl⟩ := hassign
  -- the new row shares nobody with a row that is kept
  have hfresh : ∀ (seat : UInt64 × UInt64) (row : List UInt64), s.2[seat]? = some row →
      ∀ i ∈ row, i ∉ response.validators := by
    intro seat row hrow i hi hnew
    apply assignAll_new hall i hnew
    rw [Std.TreeMap.mem_iff_isSome_getElem?, htabled seat.1 seat.2 row hrow i hi]
    rfl
  intro seat seat' row row' hrow hrow' i hi hi'
  rw [Std.TreeMap.getElem?_insert] at hrow hrow'
  split at hrow
  · next heq =>
      obtain rfl := Option.some.inj hrow
      split at hrow'
      · next heq' =>
          rw [← Std.LawfulEqCmp.eq_of_compare heq, Std.LawfulEqCmp.eq_of_compare heq']
      · exact absurd hi (hfresh seat' row' hrow' i hi')
  · split at hrow'
    · obtain rfl := Option.some.inj hrow'
      exact absurd hi' (hfresh seat row hrow i hi)
    · exact h seat seat' row row' hrow hrow' i hi hi'

/-- A committee tree holds the slots of an epoch. -/
theorem build_slots {responses : List CommitteeResponse} {validators : List ValidatorResponse}
    {tree : AccTree P} {slotsPerEpoch targetEpoch balanceEpoch totalActiveBalance : UInt64}
    {committees : EpochCommittees P}
    (h : build responses validators tree slotsPerEpoch targetEpoch balanceEpoch
      totalActiveBalance = .ok committees) : slotsPerEpoch.toNat ≤ maxSlots := by
  simp only [build, Guest.bind_eq_ok, Guest.assert_eq_ok] at h
  obtain ⟨_, hslots, -⟩ := h
  exact hslots

/-- **The committees of an epoch are disjoint**: the node is refused when it puts a
validator in two of them. -/
theorem build_rowsApart {responses : List CommitteeResponse} {validators : List ValidatorResponse}
    {tree : AccTree P} {slotsPerEpoch targetEpoch balanceEpoch totalActiveBalance : UInt64}
    {committees : EpochCommittees P}
    (h : build responses validators tree slotsPerEpoch targetEpoch balanceEpoch
      totalActiveBalance = .ok committees) : RowsApart committees.table := by
  simp only [build, Guest.bind_eq_ok, Guest.pure_eq_ok] at h
  obtain ⟨-, -, ⟨assignment, table⟩, hassign, witnesses, -, rfl⟩ := h
  have hboth : Tabled slotsPerEpoch (assignment, table) ∧ RowsApart table := by
    apply Guest.foldlM_invariant (fun _ s => Tabled slotsPerEpoch s ∧ RowsApart s.2) _ responses
      (∅, ∅) _ _ hassign
    · rintro response _ s s' ⟨htabled, hs⟩ hstep
      exact ⟨htabled.assignCommittee hstep, hs.assignCommittee htabled hstep⟩
    · constructor
      · intro slot index row hrow
        simp at hrow
      · intro seat seat' row row' hrow
        simp at hrow
  exact hboth.2

/-- **Committees built over a registry are its committees.** -/
theorem build_ofRegistry {responses : List CommitteeResponse} {validators : List ValidatorResponse}
    {tree : AccTree P} {slotsPerEpoch targetEpoch balanceEpoch totalActiveBalance : UInt64}
    {committees : EpochCommittees P}
    (h : build responses validators tree slotsPerEpoch targetEpoch balanceEpoch
      totalActiveBalance = .ok committees) :
    committees.OfRegistry validators slotsPerEpoch balanceEpoch := by
  simp only [build, Guest.bind_eq_ok, Guest.pure_eq_ok] at h
  obtain ⟨-, -, ⟨assignment, table⟩, hassign, witnesses, hwitnesses, rfl⟩ := h
  have htabled : Tabled slotsPerEpoch (assignment, table) := by
    apply Guest.foldlM_invariant (fun _ => Tabled slotsPerEpoch) _ responses (∅, ∅) _ _ hassign
    · intro response _ s s' hs hstep
      exact hs.assignCommittee hstep
    · intro slot index row hrow
      simp at hrow
  have himages : assignment.toList.map (nameMember validators balanceEpoch) = witnesses.map .ok :=
    Guest.mapM_eq_ok.mp hwitnesses
  -- a member is named as the registry has it, under the slot of its row
  have hnamed : ∀ {i slot : UInt64} {m : CommitteeMember P},
      nameMember validators balanceEpoch (i, slot) = .ok m →
        m.validatorIndex = i ∧ m.slotInEpoch = slot ∧
          hostContents P validators balanceEpoch m.validatorIndex.toNat =
            some ⟨m.pubkey, m.activeEffectiveBalance⟩ := by
    intro i slot m hm
    simp only [nameMember, Guest.bind_eq_ok, Guest.expect_eq_ok, Guest.pure_eq_ok] at hm
    obtain ⟨response, hresponse, pubkey, hpubkey, rfl⟩ := hm
    exact ⟨rfl, rfl, contentsBy_of_some hresponse hpubkey⟩
  have hindices : witnesses.map (·.validatorIndex) = assignment.keys := by
    rw [← Std.TreeMap.map_fst_toList_eq_keys]
    clear hwitnesses htabled hassign
    generalize assignment.toList = entries at himages
    induction entries generalizing witnesses with
    | nil =>
        obtain rfl := List.map_eq_nil_iff.mp himages.symm
        rfl
    | cons entry entries ih =>
        cases witnesses with
        | nil => cases himages
        | cons m witnesses =>
            obtain ⟨hm, himages⟩ := List.cons_eq_cons.mp himages
            rw [List.map_cons, List.map_cons, ih _ himages, (hnamed hm).1]
  refine ⟨?_, ?_, ?_, rfl, rfl, rfl⟩
  · show (witnesses.map (·.validatorIndex)).Pairwise (· < ·)
    -- the assignment is an ordered map, so its members come ascending
    rw [hindices]
    exact Std.TreeMap.ordered_keys.imp fun h => Std.compare_eq_lt.mp h
  · intro m hm
    have hmem : Except.ok m ∈ assignment.toList.map (nameMember validators balanceEpoch) := by
      rw [himages]
      exact List.mem_map_of_mem hm
    obtain ⟨⟨i, slot⟩, -, hm⟩ := List.mem_map.mp hmem
    exact (hnamed hm).2.2
  · intro slot index row hrow i hi
    have hmem : (i, slot % slotsPerEpoch) ∈ assignment.toList :=
      Std.TreeMap.mem_toList_iff_getElem?_eq_some.mpr (htabled slot index row hrow i hi)
    have himage : nameMember validators balanceEpoch (i, slot % slotsPerEpoch) ∈
        witnesses.map .ok := himages ▸ List.mem_map_of_mem hmem
    obtain ⟨m, hm, heq⟩ := List.mem_map.mp himage
    obtain ⟨hindex, hslot, -⟩ := hnamed heq.symm
    exact ⟨m, hm, hindex, hslot⟩

end EpochCommittees
end Zkasper
