import Zkasper.CommitteeProof
import Zkasper.SlotProof
import Zkasper.Formal

/-! # What a committee tree holds

The tree a committee proof publishes, entry by entry, over points that form a
group. A running sum is then the sum of what was added to it
(`PointSum.ofList_add`), so the entry of a slot is the sum over the leaves its
members name (`verify_entries`), and an opening of the tree opens that entry and
nothing else. An entry is empty when nobody was assigned to its slot: an empty sum
and a sum that comes out as the identity are not the same thing to `PointSum`, and
the two differ on one kind of slot, a single member whose own key is the identity
(`KeySums.sum_eq_zero`). -/

namespace Zkasper

open Bls

variable {P : Primitives}

/-! ## Exact addition -/

/-- **Exact point addition**: the points are a group, a shared `x` coordinate is
either `p == q` or `p == -q`, and elsewhere the precompile adds. -/
structure ExactAddition (P : Primitives) [AddCommGroup P.G1Point] : Prop where
  identity : P.g1Identity = 0
  neg : ∀ p, P.neg p = -p
  sameX_iff : ∀ p q, P.sameX p q = true ↔ p = q ∨ p = -q
  curveAdd : ∀ p q, P.sameX p q = false → P.curveAdd p q = p + q

theorem Formal.formal_exactAddition (S : Formal.Scenario) :
    ExactAddition (Formal.formal S) where
  identity := rfl
  neg _ := rfl
  sameX_iff _ _ := decide_eq_true_iff
  curveAdd _ _ _ := rfl

namespace Bls.PointSum

variable [AddCommGroup P.G1Point]

/-- The running sum over some keys: nothing while there are none. -/
def ofList (keys : List P.G1Point) : PointSum P := ⟨if keys = [] then none else some keys.sum⟩

@[simp] theorem ofList_nil : ofList ([] : List P.G1Point) = ⟨none⟩ := rfl

@[simp] theorem ofList_get (keys : List P.G1Point) :
    (ofList keys).get = if keys = [] then none else some keys.sum := rfl

/-- Adding to the running sum sums one key more. -/
theorem ofList_add (hE : ExactAddition P) {keys : List P.G1Point} {key : P.G1Point}
    {s : PointSum P} (h : (ofList keys).add key = some s) : s = ofList (keys ++ [key]) := by
  by_cases hnil : keys = []
  · subst hnil
    obtain rfl := Option.some.inj h
    simp [ofList]
  · simp only [ofList, if_neg hnil, PointSum.add] at h
    split at h
    · cases h
    · next hx =>
        obtain rfl := Option.some.inj h
        simp [ofList, hE.curveAdd _ _ (Bool.not_eq_true _ ▸ hx)]

/-- A run of additions from nothing is the running sum over its keys. -/
theorem addAll_eq_ofList (hE : ExactAddition P) : ∀ {keys before : List P.G1Point}
    {s : PointSum P}, keys.foldlM PointSum.add (ofList before) = some s →
      s = ofList (before ++ keys) := by
  intro keys
  induction keys with
  | nil =>
      intro before s h
      rw [List.append_nil]
      exact (Option.some.inj h).symm
  | cons key keys ih =>
      intro before s h
      obtain ⟨mid, hadd, hrest⟩ := Option.bind_eq_some_iff.mp h
      obtain rfl := ofList_add hE hadd
      simpa using ih hrest

/-- **A sum that comes out as the identity** is the sum of nothing, or of the
identity alone: the precompile never adds a point to its negation. -/
theorem sum_eq_zero_of_addAll (hE : ExactAddition P) {keys : List P.G1Point} {s : PointSum P}
    (h : keys.foldlM PointSum.add ⟨none⟩ = some s) (hsum : keys.sum = 0) :
    keys = [] ∨ keys = [0] := by
  rcases List.eq_nil_or_concat keys with rfl | ⟨before, key, rfl⟩
  · exact .inl rfl
  · right
    by_cases hnil : before = []
    · subst hnil
      simpa using hsum
    · exfalso
      simp only [List.concat_eq_append] at h hsum
      rw [List.foldlM_append] at h
      obtain ⟨mid, hbefore, hadd⟩ := Option.bind_eq_some_iff.mp h
      obtain ⟨s', hadd, -⟩ := Option.bind_eq_some_iff.mp hadd
      have hrun : before.foldlM PointSum.add (ofList []) = some mid := hbefore
      obtain rfl := addAll_eq_ofList hE hrun
      simp only [List.nil_append, ofList, if_neg hnil, PointSum.add] at hadd
      have hneg : before.sum = -key := by
        rw [List.sum_append, List.sum_singleton] at hsum
        exact eq_neg_of_add_eq_zero_left hsum
      rw [if_pos ((hE.sameX_iff _ _).mpr (.inr hneg))] at hadd
      cases hadd

end Bls.PointSum

namespace Committee

open Slot Merkle

/-! ## The records of a witness -/

/-- The accumulator root a witness opens. -/
def headerAccRoot (witness : List UInt64) : P.Digest := P.digestOfWords ((witness.drop 4).take 4)

/-- The member records of a witness: as many as the header counts, one after the
other behind it. -/
def memberRecords (witness : List UInt64) : List (CommitteeMember P) :=
  (List.range (witness.getD 10 0).toNat).map fun i =>
    CommitteeMember.ofWords ((witness.drop (headerWords + i * memberWords)).take memberWords)

/-- The leaves behind a slot: those its records name, index bits above the depth shifted out. -/
def slotLeaves (P : Primitives) (d : ℕ) (witness : List UInt64) (slot : ℕ) : Finset ℕ :=
  namedPositions d (memberRecords (P := P) witness) slot

/-- The counts of an accepted header do not wrap, so the records read are these. -/
theorem verify_members {witness : List UInt64} {d : ℕ} {out : CommitteeOutput P}
    (h : verify witness d = .ok out) :
    ∃ (s : CommitteeSums P) (aux : List P.Digest),
      (memberRecords witness).foldlM addMember ⟨[], fun _ => ⟨none⟩, fun _ => 0, none⟩ = .ok s ∧
      batchRootColumns P.compress s.nodes aux d = .ok (headerAccRoot witness) ∧
      root ((List.range maxSlots).map s.aggregate) = .ok out.committeeRoot := by
  simp only [verify, Guest.bind_eq_ok, Guest.assert_eq_ok, Guest.pure_eq_ok, exists_const] at h
  obtain ⟨-, -, -, hcapacity, hfits, members, hmembers, s, hloop, digests, -, r, hrun, rfl,
    committeeRoot, hroot, rfl⟩ := h
  refine ⟨s, _, ?_, hrun, hroot⟩
  set count := witness.getD 10 0
  have hend : (12 + count * 15).toNat = headerWords + count.toNat * memberWords := by
    rw [UInt64.toNat_add, UInt64.toNat_mul]
    simp only [headerWords, memberWords, UInt64.reduceToNat]
    omega
  rw [hend] at hfits hmembers
  simp only [records, Guest.bind_eq_ok, Guest.assert_eq_ok, Guest.pure_eq_ok,
    exists_const] at hmembers
  obtain ⟨-, rfl⟩ := hmembers
  have hlength : ((witness.take (headerWords + count.toNat * memberWords)).drop
      headerWords).length / memberWords = count.toNat := by
    rw [List.length_drop, List.length_take, min_eq_left hfits, Nat.add_sub_cancel_left]
    exact Nat.mul_div_cancel _ (by decide)
  rw [hlength, List.map_map] at hloop
  rw [← hloop, memberRecords]
  congr 1
  apply List.map_congr_left
  intro i hi
  have hlt := List.mem_range.mp hi
  rw [Function.comp_apply, List.drop_drop, List.drop_take, List.take_take]
  congr 2
  have hstep : (i + 1) * memberWords ≤ count.toNat * memberWords := Nat.mul_le_mul_right _ hlt
  rw [Nat.succ_mul] at hstep
  omega

/-! ## The entries -/

/-- The key at a position of an accumulator, the identity at an empty one. -/
def leafKey (t : Contents P) (i : ℕ) : P.G1Point := (t i).elim P.g1Identity (·.pubkey)

/-- The sums over a set of leaves: their keys, and their balances in 64-bit arithmetic. -/
def leafSums [AddCommGroup P.G1Point] (t : Contents P) (bucket : Finset ℕ) :
    CommitteeAggregate P :=
  ⟨∑ i ∈ bucket, leafKey t i, UInt64.ofNat (∑ i ∈ bucket, (t.balance i).toNat)⟩

/-- The entry of a slot: the sums over the leaves named for it, none where none is. -/
def slotEntry [AddCommGroup P.G1Point] (t : Contents P) (bucket : Finset ℕ) :
    Option (CommitteeAggregate P) :=
  if bucket = ∅ then none else some (leafSums t bucket)

section Entries

variable {d : ℕ} {t : Contents P} {members : List (CommitteeMember P)}
  [AddCommGroup P.G1Point] {s : CommitteeSums P}

theorem sums_eq_ofList (hE : ExactAddition P)
    (hloop : members.foldlM addMember ⟨[], fun _ => ⟨none⟩, fun _ => 0, none⟩ = .ok s)
    (slot : ℕ) : s.sums slot = PointSum.ofList ((assigned members slot).map (·.pubkey)) := by
  obtain ⟨-, hsums, -⟩ := addMembers_run hloop
  have hrun : ((assigned members slot).map (·.pubkey)).foldlM PointSum.add
      (PointSum.ofList []) = some (s.sums slot) := hsums slot
  exact PointSum.addAll_eq_ofList hE hrun

/-- **The entry a run over the members makes** for a slot is the sum over the
leaves they name for it. -/
theorem aggregate_eq_slotEntry (hE : ExactAddition P)
    (hloop : members.foldlM addMember ⟨[], fun _ => ⟨none⟩, fun _ => 0, none⟩ = .ok s)
    (hleaf : ∀ m ∈ members, t (m.position d) = some ⟨m.pubkey, m.activeEffectiveBalance⟩)
    (hnodup : (members.map (CommitteeMember.position d)).Nodup) (slot : ℕ) :
    s.aggregate slot = slotEntry t (namedPositions d members slot) := by
  obtain ⟨-, -, hbalances, -⟩ := addMembers_run hloop
  have hkeys : ∑ i ∈ namedPositions d members slot, leafKey t i =
      ((assigned members slot).map (·.pubkey)).sum :=
    sum_namedPositions hnodup (fun m hm => by rw [leafKey, hleaf m hm]; rfl) slot
  have hweights : ∑ i ∈ namedPositions d members slot, (t.balance i).toNat =
      ((assigned members slot).map (·.activeEffectiveBalance.toNat)).sum :=
    sum_namedPositions hnodup (fun m hm => by rw [Contents.balance, hleaf m hm]; rfl) slot
  rw [CommitteeSums.aggregate, sums_eq_ofList hE hloop, PointSum.ofList_get, slotEntry, leafSums,
    hkeys, hweights, hbalances]
  by_cases hnil : assigned members slot = []
  · rw [if_pos (by rw [hnil]; rfl), if_pos (namedPositions_eq_empty.mpr hnil)]
    rfl
  · rw [if_neg (by simpa using hnil), if_neg (fun h => hnil (namedPositions_eq_empty.mp h))]
    simp

/-- A slot whose keys sum to the identity has no member, or a single one whose own
key is the identity. -/
theorem named_of_sum_eq_zero (hE : ExactAddition P)
    (hloop : members.foldlM addMember ⟨[], fun _ => ⟨none⟩, fun _ => 0, none⟩ = .ok s)
    (hleaf : ∀ m ∈ members, t (m.position d) = some ⟨m.pubkey, m.activeEffectiveBalance⟩)
    (hnodup : (members.map (CommitteeMember.position d)).Nodup) {slot : ℕ}
    (hsum : ∑ i ∈ namedPositions d members slot, leafKey t i = 0) :
    namedPositions d members slot = ∅ ∨
      ∃ i, namedPositions d members slot = {i} ∧ leafKey t i = P.g1Identity := by
  rw [sum_namedPositions hnodup (g := (·.pubkey))
    (fun m hm => by rw [leafKey, hleaf m hm]; rfl) slot] at hsum
  obtain ⟨-, hsums, -⟩ := addMembers_run hloop
  rcases PointSum.sum_eq_zero_of_addAll hE (hsums slot) hsum with hnil | hone
  · exact .inl (namedPositions_eq_empty.mpr (List.map_eq_nil_iff.mp hnil))
  · right
    obtain ⟨m, hm, hkey⟩ := List.map_eq_singleton_iff.mp hone
    have hmem : m ∈ members := (mem_assigned.mp (hm ▸ List.mem_singleton_self m)).1
    refine ⟨m.position d, by rw [namedPositions, hm]; rfl, ?_⟩
    rw [leafKey, hleaf m hmem, hE.identity]
    exact hkey

/-- **What a committee tree holds.** Over every word vector the committee proof
accepts and every accumulator with the opened root, the published tree has one
entry a slot, the sums over exactly the leaves its records name for it, an entry
empty where none is named; the leaves behind different slots are disjoint, and an
opening of the tree at a slot opens that slot's entry. A slot whose keys sum to
the identity is an empty one, but for a single leaf that holds the identity. -/
theorem verify_entries (hP : CollisionFree P) (hE : ExactAddition P) {witness : List UInt64}
    {d : ℕ} {out : CommitteeOutput P} {t : Contents P} (h : verify witness d = .ok out)
    (hacc : t.accRoot d = headerAccRoot witness) :
    (∀ m ∈ memberRecords witness,
      t (m.position d) = some ⟨m.pubkey, m.activeEffectiveBalance⟩) ∧
    (∀ slot slot', slot ≠ slot' →
      Disjoint (slotLeaves P d witness slot) (slotLeaves P d witness slot')) ∧
    (∀ slot, ∑ i ∈ slotLeaves P d witness slot, leafKey t i = P.g1Identity →
      slotLeaves P d witness slot = ∅ ∨
        ∃ i, slotLeaves P d witness slot = {i} ∧ leafKey t i = P.g1Identity) ∧
    ∃ committees, root committees = .ok out.committeeRoot ∧
      (∀ slot, committees[slot]?.join = slotEntry t (slotLeaves P d witness slot)) ∧
      ∀ (slots : List (SlotComplementWitness P)) (accRoot : P.Digest)
        (accMultiProof committeeMultiProof : List P.Digest) (link : Link P)
        (signingDomain : P.Bytes32) (accDepth : ℕ) (a : Attested P),
        verifyAttestations slots accRoot accMultiProof out.committeeRoot committeeMultiProof link
            signingDomain accDepth = .ok a →
          ∀ slot ∈ slots, slotEntry t (slotLeaves P d witness slot.slotInEpoch.toNat) =
            some slot.committee := by
  obtain ⟨s, aux, hloop, hrun, hroot⟩ := verify_members h
  rw [← hacc] at hrun
  obtain ⟨hleaf, hnodup⟩ := members_opened hP hloop hrun
  have hentry : ∀ slot, ((List.range maxSlots).map s.aggregate)[slot]?.join =
      slotEntry t (slotLeaves P d witness slot) := by
    intro slot
    by_cases hlt : slot < maxSlots
    · rw [List.getElem?_map, List.getElem?_range hlt]
      exact aggregate_eq_slotEntry hE hloop hleaf hnodup slot
    · -- no record names a slot past the tree
      have hnone : assigned (memberRecords witness) slot = ([] : List (CommitteeMember P)) := by
        apply List.eq_nil_iff_forall_not_mem.mpr
        intro m hm
        obtain ⟨hmem, rfl⟩ := mem_assigned.mp hm
        obtain ⟨-, -, -, hslots, -⟩ := addMembers_run hloop
        exact hlt (hslots m hmem)
      rw [List.getElem?_eq_none (by simpa using hlt), slotEntry, slotLeaves,
        if_pos (namedPositions_eq_empty.mpr hnone)]
      rfl
  refine ⟨hleaf, fun slot slot' hne => namedPositions_disjoint hnodup hne,
    fun slot hsum => named_of_sum_eq_zero hE hloop hleaf hnodup (hE.identity ▸ hsum), _, hroot,
    hentry, ?_⟩
  intro slots accRoot accMultiProof committeeMultiProof link signingDomain accDepth a hopen slot hslot
  rw [← hentry]
  exact verifyAttestations_committees hP hroot hopen slot hslot

end Entries

/-! ### Three members in two slots -/

/-- A tree of four leaves, the second one empty. -/
def twoSlotsTree : Formal.Digest :=
  .node (.node (.leaf (Formal.key 2) 32) .zero)
    (.node (.leaf (Formal.key 1) 16) (.leaf (Formal.key 0) 31))

/-- What the words stand for: the commitment, the root under it, and the empty leaf. -/
@[reducible] def twoSlotsModel : Primitives :=
  Formal.formal {digests := [.commitment twoSlotsTree 79, twoSlotsTree, .zero]}

/-- Validators 0 and 3 in slot 3, validator 2 in slot 5, and the leaf that is opened with them. -/
def twoSlots : List UInt64 :=
  [0, 0, 0, 0, 1, 0, 0, 0, 7, 79, 3, 1] ++
    ([0, 2] ++ List.replicate 11 0 ++ [32, 3]) ++ ([2, 1] ++ List.replicate 11 0 ++ [16, 5]) ++
    ([3, 0] ++ List.replicate 11 0 ++ [31, 3]) ++ [2, 0, 0, 0]

/-- The leaves of the tree. -/
def twoSlotsContents : Contents twoSlotsModel := fun i =>
  [some ⟨Formal.key 2, 32⟩, none, some ⟨Formal.key 1, 16⟩, some ⟨Formal.key 0, 31⟩][i]?.join

/-- Slot 3 sums two leaves of the tree and slot 5 the third one. -/
theorem verify_entries_two_slots :
    ∃ out, verify (P := twoSlotsModel) twoSlots 2 = .ok out ∧
      twoSlotsContents.accRoot 2 = headerAccRoot twoSlots ∧
      slotLeaves twoSlotsModel 2 twoSlots 3 = {0, 3} ∧
      slotLeaves twoSlotsModel 2 twoSlots 5 = {2} ∧
      ∃ committees, root committees = .ok out.committeeRoot ∧
        committees[3]?.join = slotEntry twoSlotsContents {0, 3} ∧
        committees[5]?.join = slotEntry twoSlotsContents {2} ∧ committees[4]?.join = none := by
  obtain ⟨out, h, -⟩ :
      ∃ out, verify (P := twoSlotsModel) twoSlots 2 = .ok out ∧ True := by decide +kernel
  have hacc : twoSlotsContents.accRoot 2 = headerAccRoot twoSlots := rfl
  obtain ⟨-, -, -, committees, hroot, hentry, -⟩ :=
    verify_entries (Formal.formal_collisionFree _) (Formal.formal_exactAddition _) h hacc
  have hleaves : slotLeaves twoSlotsModel 2 twoSlots 3 = {0, 3} ∧
      slotLeaves twoSlotsModel 2 twoSlots 5 = {2} ∧
      slotLeaves twoSlotsModel 2 twoSlots 4 = ∅ := by decide +kernel
  refine ⟨out, h, hacc, hleaves.1, hleaves.2.1, committees, hroot, ?_, ?_, ?_⟩
  · rw [hentry, hleaves.1]
  · rw [hentry, hleaves.2.1]
  · rw [hentry, hleaves.2.2]
    rfl

/-- A single member whose own key is the identity: the keys of slot 3 sum to the
identity, and the tree has an entry there all the same. -/
theorem verify_identity_entry :
    let P := Formal.formal {digests := [.commitment (.leaf 0 32) 32, .leaf 0 32]}
    let t : Contents P := fun i => if i = 0 then some ⟨0, 32⟩ else none
    let witness : List UInt64 := [0, 0, 0, 0, 1, 0, 0, 0, 7, 32, 1, 0] ++
      ([0, 9] ++ List.replicate 11 0 ++ [32, 3])
    ∃ out, verify (P := P) witness 0 = .ok out ∧ t.accRoot 0 = headerAccRoot witness ∧
      ∑ i ∈ slotLeaves P 0 witness 3, leafKey t i = P.g1Identity ∧
      ∀ committees, root committees = .ok out.committeeRoot → committees[3]?.join ≠ none := by
  intro P t witness
  obtain ⟨out, h, hout⟩ : ∃ out, verify (P := P) witness 0 = .ok out ∧
      out.committeeRoot = PerfectTree.root P.compress treeDepth fun slot =>
        if slot = 3 then P.leaf 0 32 else P.zero := by decide +kernel
  refine ⟨out, h, rfl, by decide +kernel, fun committees hroot hnone => ?_⟩
  have hP := Formal.formal_collisionFree {digests := [.commitment (.leaf 0 32) 32, .leaf 0 32]}
  have hleaf := PerfectTree.root_injective hP.compress
    ((root_eq_ok.mp hroot).2.trans hout) 3 (by decide)
  rw [slotLeaf, hnone] at hleaf
  exact Formal.Digest.noConfusion hleaf

end Committee
end Zkasper
