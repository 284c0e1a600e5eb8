import Zkasper.WitnessGen.Cover
import Zkasper.WitnessGen.Counted
import Zkasper.WitnessGen.TwoMessages

/-! # Equivocators

The cover is kept disjoint message by message, and the circuit wants everyone named once
and nobody named whom the primary message carries. The two are the same as long as no
validator is carried for two messages of the slot (`OneMessage`): then whatever valid
attestations arrived, the complement of the slot is accepted (`peek_accepted`). -/

namespace Zkasper

open Std Slot Committee EpochCommittees

/-- **Distinct, independent public keys**: the key at a position of the accumulator is
its validator's alone. -/
def Registered {P : Primitives} {B : Blst} (M : SignatureModel P B) (t : Contents P) : Prop :=
  ∀ (i : UInt64) (l : AccLeaf P), t i.toNat = some l → M.KeyOf l.pubkey {i}

namespace SlotStream

variable {P : Primitives} [Ord P.Bytes32] {B : Blst}

/-- The network's aggregates a slot takes: largest first, each disjoint from those taken
before it over its message. -/
def taken (s : SlotStream P B) (slot : UInt64) : List (Aggregate P B) :=
  takeApart [] ((s.pending.getD slot []).insertionSort fun a b => b.signers.size ≤ a.signers.size)

/-- Whether a slot carries a validator for a message: its single attestation over the
message has arrived, or an aggregate it signed is taken. -/
def Carries (s : SlotStream P B) (slot : UInt64) (key : DataKey P) (i : UInt64) : Prop :=
  (∃ (committeeIndex : UInt64) (running : Summed P B),
      (s.summed.getD slot ∅)[(key, committeeIndex)]? = some running ∧ i ∈ running.signers) ∨
    ∃ a ∈ s.taken slot, a.attestation.data = key ∧ i ∈ a.signers

/-- No validator is carried for two messages of the slot. -/
def OneMessage (s : SlotStream P B) (slot : UInt64) : Prop :=
  ∀ i key key', s.Carries slot key i → s.Carries slot key' i → key = key'

variable [TransOrd P.Bytes32] [LawfulEqOrd P.Bytes32] {M : SignatureModel P B}
  {signingDomain : P.Bytes32} {s : SlotStream P B} {slot : UInt64}

theorem packs_packed (s : SlotStream P B) (slot : UInt64) : Packs (s.packed slot) (s.taken slot) := by
  have hnothing : Packs (∅ : Cover P B) [] := by
    constructor
    · intro key entry hentry
      rw [TreeMap.getElem?_emptyc] at hentry
      cases hentry
    · intro a ha
      cases ha
  exact hnothing.foldl _

/-- The cover of a slot packs what is taken of the aggregates, then of the residuals. -/
theorem packs_covered (hdata : ∀ entry ∈ s.residuals slot, entry.2.attestation.data = entry.1) :
    Packs (s.covered slot) (takeApart (s.taken slot) ((s.residuals slot).map Prod.snd)) := by
  have hmap : s.residuals slot =
      ((s.residuals slot).map Prod.snd).map fun a => (a.attestation.data, a) := by
    rw [List.map_map]
    conv_lhs => rw [← List.map_id (s.residuals slot)]
    apply List.map_congr_left
    intro entry hentry
    exact Prod.ext (hdata entry hentry).symm rfl
  have hcovered := (packs_packed s slot).foldl ((s.residuals slot).map Prod.snd)
  rwa [← hmap] at hcovered

/-- **What the cover of a slot packs**: valid aggregates, and nobody for a message the slot
does not carry them for. -/
theorem Collected.covered (h : Collected M signingDomain s) (slot : UInt64) :
    ∃ list, Packs (s.covered slot) list ∧ ∀ a ∈ list,
      Filed M signingDomain s.committees s.link slot a ∧
        ∀ i ∈ a.signers, s.Carries slot a.attestation.data i := by
  have hresiduals : ∀ entry ∈ s.residuals slot, entry.2.attestation.data = entry.1 ∧
      Filed M signingDomain s.committees s.link slot entry.2 ∧
        ∀ i ∈ entry.2.signers, s.Carries slot entry.1 i := by
    intro entry hentry
    obtain ⟨⟨⟨key, committeeIndex⟩, running⟩, hrunning, hresidual⟩ := List.mem_filterMap.mp hentry
    obtain ⟨a, ha, rfl⟩ := Option.map_eq_some_iff.mp hresidual
    have hget := TreeMap.mem_toList_iff_getElem?_eq_some.mp hrunning
    obtain ⟨hfiled, hdata, hsigners⟩ := (h.summed _ _ _ hget).residual ha
    exact ⟨hdata, hfiled, fun i hi => .inl ⟨committeeIndex, running, hget, hsigners i hi⟩⟩
  refine ⟨_, packs_covered fun entry hentry => (hresiduals entry hentry).1, fun a ha => ?_⟩
  rcases mem_takeApart ha with htaken | hresidual
  · refine ⟨?_, fun i hi => .inr ⟨a, htaken, rfl, hi⟩⟩
    rcases mem_takeApart htaken with hnone | hpending
    · cases hnone
    · exact h.pending slot a ((List.mem_insertionSort _).mp hpending)
  · obtain ⟨entry, hentry, rfl⟩ := List.mem_map.mp hresidual
    obtain ⟨hdata, hfiled, hcarries⟩ := hresiduals entry hentry
    exact ⟨hfiled, hdata ▸ hcarries⟩

/-! ## The epoch's trees -/

end SlotStream

/-- **The trees of an epoch** are built over one registry: its committees, and the
accumulator that opens whoever a slot names. -/
structure EpochTrees {P : Primitives} {B : Blst} (M : SignatureModel P B)
    (validators : List ValidatorResponse) (slotsPerEpoch balanceEpoch : UInt64) (tree : AccTree P)
    (committees : EpochCommittees P) : Prop where
  ofRegistry : committees.OfRegistry validators slotsPerEpoch balanceEpoch
  holds : tree.Holds (hostContents P validators balanceEpoch).digest
  fits : validators.length ≤ 2 ^ tree.denseDepth
  keys : Registered M (hostContents P validators balanceEpoch)
  /-- The active balance of an epoch is a 64-bit number. -/
  balance : (validators.map fun v => (v.data.activeEffectiveBalance balanceEpoch).toNat).sum < 2 ^ 64

namespace EpochTrees

variable {P : Primitives} {B : Blst} {M : SignatureModel P B} {validators : List ValidatorResponse}
  {slotsPerEpoch balanceEpoch : UInt64} {tree : AccTree P} {committees : EpochCommittees P}

/-- The members of a slot within the epoch. -/
def slotMembers (committees : EpochCommittees P) (slotInEpoch : UInt64) : List UInt64 :=
  (assigned committees.witness.members slotInEpoch.toNat).map (·.validatorIndex)

/-- Entries of a list at different positions sum to no more than all of it. -/
theorem sum_getD_le {ks weights : List ℕ} (hnodup : ks.Nodup) (hks : ∀ k ∈ ks, k < weights.length) :
    (ks.map fun k => weights.getD k 0).sum ≤ weights.sum := by
  have hall : (List.range weights.length).map (fun k => weights.getD k 0) = weights := by
    apply List.ext_getElem
    · simp
    · intro k _ hk
      simp [hk]
  have hsubset : ks ⊆ List.range weights.length := fun k hk => List.mem_range.mpr (hks k hk)
  obtain ⟨ls, hperm, hsublist⟩ := List.subperm_of_subset hnodup hsubset
  calc (ks.map fun k => weights.getD k 0).sum
      = (ls.map fun k => weights.getD k 0).sum := ((hperm.map _).sum_eq).symm
    _ ≤ ((List.range weights.length).map fun k => weights.getD k 0).sum :=
        (hsublist.map _).sum_le_sum fun _ _ => Nat.zero_le _
    _ = weights.sum := by rw [hall]

/-- Different validators weigh no more than the registry. -/
theorem sum_balances_le (validators : List ValidatorResponse) (epoch : UInt64) {is : List UInt64}
    (hnodup : is.Nodup) (hin : ∀ i ∈ is, (hostContents P validators epoch i.toNat).isSome) :
    (is.map fun i => ((hostContents P validators epoch).balance i.toNat).toNat).sum ≤
      (validators.map fun v => (v.data.activeEffectiveBalance epoch).toNat).sum := by
  have hget : is.map (fun i => ((hostContents P validators epoch).balance i.toNat).toNat) =
      (is.map UInt64.toNat).map fun k =>
        (validators.map fun v => (v.data.activeEffectiveBalance epoch).toNat).getD k 0 := by
    rw [List.map_map]
    apply List.map_congr_left
    intro i hi
    obtain ⟨l, hl⟩ := Option.isSome_iff_exists.mp (hin i hi)
    obtain ⟨v, hv, point, -, hl'⟩ : ∃ v, validators[i.toNat]? = some v ∧ ∃ point,
        Pubkey.decompress P v.pubkey = some point ∧
          ⟨point, v.data.activeEffectiveBalance epoch⟩ = l := by
      simpa [hostContents, contentsBy, Option.bind_eq_some_iff] using hl
    rw [Contents.balance, hl, ← hl']
    simp [List.getD_eq_getElem?_getD, hv]
  rw [hget]
  apply sum_getD_le (hnodup.map fun _ _ => UInt64.toNat_inj.mp)
  intro k hk
  obtain ⟨i, hi, rfl⟩ := List.mem_map.mp hk
  obtain ⟨l, hl⟩ := Option.isSome_iff_exists.mp (hin i hi)
  rw [List.length_map]
  exact lt_length_of_contentsBy hl

section OfRegistry

variable (h : committees.OfRegistry validators slotsPerEpoch balanceEpoch)
include h

theorem slotMembers_nodup (slotInEpoch : UInt64) : (slotMembers committees slotInEpoch).Nodup := by
  have hascending := h.ascending.imp fun hlt => (UInt64.ne_of_lt hlt)
  exact hascending.sublist (List.filter_sublist.map _)

/-- The committee of a slot is what `peek` reads its members from. -/
theorem members_getD {slotInEpoch : UInt64} {aggregate : CommitteeAggregate P}
    (haggregate : committees.aggregate slotInEpoch = some aggregate) :
    committees.members.getD slotInEpoch.toNat [] = slotMembers committees slotInEpoch ∧
      sumSlot (assigned committees.witness.members slotInEpoch.toNat) = some aggregate := by
  have hlt := (h.openCommittees haggregate).1
  rw [EpochCommittees.aggregate, h.aggregates, List.getElem?_map, List.getElem?_range hlt]
    at haggregate
  refine ⟨?_, haggregate⟩
  rw [List.getD_eq_getElem?_getD, h.members, List.getElem?_map, List.getElem?_range hlt]
  rfl

/-- Whoever sits in a committee of a slot is a member of it. -/
theorem row_subset {slot index : UInt64} {row : List UInt64}
    (hrow : committees.committee slot index = some row) :
    row ⊆ slotMembers committees (slot % slotsPerEpoch) := by
  intro i hi
  obtain ⟨m, hm, rfl, hslot⟩ := h.row slot index row hrow i hi
  exact List.mem_map.mpr ⟨m, Committee.mem_assigned.mpr ⟨hm, congrArg UInt64.toNat hslot⟩, rfl⟩

/-- The members of a slot weigh no more than the registry. -/
theorem sum_members_le {is : List UInt64} (hnodup : is.Nodup)
    (his : is ⊆ committees.witness.members.map (·.validatorIndex)) :
    (is.map fun i => ((hostContents P validators balanceEpoch).balance i.toNat).toNat).sum ≤
      (validators.map fun v => (v.data.activeEffectiveBalance balanceEpoch).toNat).sum := by
  apply sum_balances_le validators balanceEpoch hnodup
  intro i hi
  obtain ⟨m, hm, rfl⟩ := List.mem_map.mp (his hi)
  rw [h.leaf m hm]
  rfl

omit h in
theorem slotMembers_subset (slotInEpoch : UInt64) :
    slotMembers committees slotInEpoch ⊆ committees.witness.members.map (·.validatorIndex) :=
  List.map_subset _ (List.filter_sublist.subset)

/-- The balance of an aggregate is that of its members. -/
theorem aggregate_balance
    (hfits : (validators.map fun v => (v.data.activeEffectiveBalance balanceEpoch).toNat).sum <
      2 ^ 64) {slotInEpoch : UInt64} {aggregate : CommitteeAggregate P}
    (haggregate : committees.aggregate slotInEpoch = some aggregate) :
    aggregate.balance.toNat = ((slotMembers committees slotInEpoch).map fun i =>
      ((hostContents P validators balanceEpoch).balance i.toNat).toNat).sum := by
  have hsum := (members_getD h haggregate).2
  set ms := assigned committees.witness.members slotInEpoch.toNat with hms
  simp only [sumSlot, Option.bind_eq_bind, Option.bind_eq_some_iff, Option.pure_def,
    Option.some.injEq] at hsum
  obtain ⟨-, -, pubkey, -, rfl⟩ := hsum
  have hbalances : (ms.map (·.activeEffectiveBalance)).map UInt64.toNat =
      (slotMembers committees slotInEpoch).map fun i =>
        ((hostContents P validators balanceEpoch).balance i.toNat).toNat := by
    rw [slotMembers, ← hms, List.map_map, List.map_map]
    apply List.map_congr_left
    intro m hm
    show _ = ((hostContents P validators balanceEpoch).balance m.validatorIndex.toNat).toNat
    rw [Contents.balance, h.leaf m (mem_assigned.mp hm).1]
    rfl
  have hle := (sum_members_le h (slotMembers_nodup h slotInEpoch)
    (slotMembers_subset slotInEpoch)).trans_lt hfits
  rw [← hbalances] at hle ⊢
  show UInt64.toNat ((ms.map (·.activeEffectiveBalance)).foldl (· + ·) 0) = _
  rw [toNat_foldl_add]
  · exact Nat.zero_add _
  · exact (Nat.zero_add _).trans_lt hle

end OfRegistry

variable (h : EpochTrees M validators slotsPerEpoch balanceEpoch tree committees)
include h

/-- A member of the committee proof is the leaf of its validator, and its key is the validator's. -/
theorem member {m : CommitteeMember P} (hm : m ∈ committees.witness.members) :
    hostContents P validators balanceEpoch m.validatorIndex.toNat =
        some ⟨m.pubkey, m.activeEffectiveBalance⟩ ∧
      M.KeyOf m.pubkey {m.validatorIndex} :=
  ⟨h.ofRegistry.leaf m hm, h.keys _ _ (h.ofRegistry.leaf m hm)⟩

/-- **An aggregate is its committee**: its key is the sum of the members' keys, and its
balance that of the members. -/
theorem aggregate {slotInEpoch : UInt64} {aggregate : CommitteeAggregate P}
    (haggregate : committees.aggregate slotInEpoch = some aggregate) :
    M.KeyOf aggregate.pubkey (slotMembers committees slotInEpoch).toFinset ∧
      aggregate.balance.toNat = ((slotMembers committees slotInEpoch).map fun i =>
        ((hostContents P validators balanceEpoch).balance i.toNat).toNat).sum := by
  refine ⟨?_, aggregate_balance h.ofRegistry h.balance haggregate⟩
  have hsum := (members_getD h.ofRegistry haggregate).2
  obtain ⟨s, hrun, hs⟩ := SignatureModel.Sums.addAll (fun m : CommitteeMember P => m.pubkey)
    (·.validatorIndex) SignatureModel.Sums.empty
    (fun m hm => ⟨(h.member (mem_assigned.mp hm).1).2, Finset.notMem_empty _⟩)
    (slotMembers_nodup h.ofRegistry slotInEpoch)
  simp only [sumSlot, Option.bind_eq_bind, hrun, Option.bind_some, Option.bind_eq_some_iff,
    Option.pure_def, Option.some.injEq] at hsum
  obtain ⟨pubkey, hpubkey, rfl⟩ := hsum
  rw [Finset.empty_union] at hs
  obtain ⟨_ | p⟩ := s
  · cases hpubkey
  · obtain rfl := Option.some.inj hpubkey
    exact hs

end EpochTrees

/-! ## What a complement names -/

namespace SlotStream

section Names

variable {P : Primitives} [Ord P.Bytes32] {B : Blst} {M : SignatureModel P B}
  {validators : List ValidatorResponse} {balanceEpoch : UInt64} {tree : AccTree P}
  {s : SlotStream P B} {signingDomain : P.Bytes32} {slot : UInt64}

/-- The leaf of a named validator, and its key. -/
def Names (M : SignatureModel P B) (validators : List ValidatorResponse) (balanceEpoch : UInt64)
    (v : OpenedValidator P) : Prop :=
  hostContents P validators balanceEpoch v.validatorIndex.toNat =
      some ⟨v.pubkey, v.activeEffectiveBalance⟩ ∧
    M.KeyOf v.pubkey {v.validatorIndex}

/-- A named validator is the leaf the accumulator has for it. -/
def Leaf (validators : List ValidatorResponse) (balanceEpoch : UInt64) (v : OpenedValidator P) :
    Prop :=
  hostContents P validators balanceEpoch v.validatorIndex.toNat =
    some ⟨v.pubkey, v.activeEffectiveBalance⟩

theorem Leaf.names (h : EpochTrees M validators s.slotsPerEpoch balanceEpoch tree s.committees)
    {v : OpenedValidator P} (hv : Leaf validators balanceEpoch v) :
    Names M validators balanceEpoch v := ⟨hv, h.keys _ _ hv⟩

theorem opened_eq_some (h : s.committees.OfRegistry validators s.slotsPerEpoch balanceEpoch)
    {i : UInt64} {v : OpenedValidator P} (hv : s.opened i = some v) :
    v.validatorIndex = i ∧ Leaf validators balanceEpoch v := by
  obtain ⟨m, hm, rfl⟩ := Option.map_eq_some_iff.mp hv
  have hindex : m.validatorIndex = i := by simpa using List.find?_some hm
  exact ⟨hindex, h.leaf m (List.mem_of_find?_eq_some hm)⟩

/-- Validators opened one after the other are named under their indices. -/
theorem openAll_eq_some
    (h : s.committees.OfRegistry validators s.slotsPerEpoch balanceEpoch)
    {is : List UInt64} {vs : List (OpenedValidator P)} (hvs : is.mapM s.opened = some vs) :
    vs.map (·.validatorIndex) = is ∧ ∀ v ∈ vs, Leaf validators balanceEpoch v := by
  constructor
  · have hmap := map_of_mapM (h := id) (fun i v hv => (opened_eq_some h hv).1) hvs
    rwa [List.map_id] at hmap
  · intro v hv
    obtain ⟨i, -, hi⟩ := exists_of_mem_mapM hvs hv
    exact (opened_eq_some h hi).2

/-- An aggregate of a minority message names its signers, and keeps its message. -/
theorem nameAggregate_eq_some
    (h : s.committees.OfRegistry validators s.slotsPerEpoch balanceEpoch)
    {a : Aggregate P B} {w : AttestationWitness P} (hw : s.nameAggregate a = some w) :
    w.attestingValidators.map (·.validatorIndex) = a.signers.toList ∧
      (∀ v ∈ w.attestingValidators, Leaf validators balanceEpoch v) ∧
      w = { a.attestation with attestingValidators := w.attestingValidators } := by
  obtain ⟨vs, hvs, hret⟩ := Option.bind_eq_some_iff.mp hw
  obtain rfl := Option.some.inj hret
  obtain ⟨hindices, hleaves⟩ := openAll_eq_some h hvs
  exact ⟨hindices, hleaves, rfl⟩

/-- An aggregate somebody signed names somebody. -/
theorem nameAggregate_ne_nil
    (h : s.committees.OfRegistry validators s.slotsPerEpoch balanceEpoch)
    {a : Aggregate P B} (ha : (members a.signers).Nonempty)
    {w : AttestationWitness P} (hw : s.nameAggregate a = some w) : w.attestingValidators ≠ [] := by
  obtain ⟨hindices, -, -⟩ := nameAggregate_eq_some h hw
  intro hnil
  obtain ⟨i, hi⟩ := ha
  rw [members, ← hindices, hnil] at hi
  exact absurd hi (Finset.notMem_empty i)

/-- A filed aggregate that is named is signed by whom it names. -/
theorem nameAggregate_signed
    (h : s.committees.OfRegistry validators s.slotsPerEpoch balanceEpoch)
    {a : Aggregate P B} (ha : Filed M signingDomain s.committees s.link slot a)
    {w : AttestationWitness P} (hw : s.nameAggregate a = some w) :
    w.attestingValidators ≠ [] ∧
      M.SignedBy w.signature (signingRoot signingDomain w) (indices w.attestingValidators) := by
  obtain ⟨hindices, -, hweq⟩ := nameAggregate_eq_some h hw
  have hset : indices w.attestingValidators = members a.signers := by
    rw [indices, hindices, members]
  have hsigned := ha.held.signedBy ha.nonempty ha.bytes
  have hdata : signingRoot signingDomain w = signingRoot signingDomain a.attestation := by
    rw [hweq]
    rfl
  refine ⟨nameAggregate_ne_nil h ha.nonempty hw, ?_⟩
  rw [hset, hdata, hweq]
  exact hsigned

/-- The aggregates of the messages a slot does not derive a key for. -/
def minority (byMessage : Cover P B) (primaryKey : DataKey P) : List (Aggregate P B) :=
  ((byMessage.erase primaryKey).toList.map Prod.snd).flatMap Prod.fst

variable [TransOrd P.Bytes32] [LawfulEqOrd P.Bytes32] {byMessage : Cover P B}
  {list : List (Aggregate P B)} {primaryKey : DataKey P}

/-- Who is named for a minority message is a signer of one of its aggregates. -/
theorem mem_minority (h : Packs byMessage list) {i : UInt64} :
    (∃ a ∈ minority byMessage primaryKey, i ∈ a.signers) ↔
      ∃ entry ∈ (byMessage.erase primaryKey).toList.map Prod.snd, i ∈ entry.2 := by
  have hentry : ∀ entry ∈ (byMessage.erase primaryKey).toList.map Prod.snd,
      (i ∈ entry.2 ↔ ∃ a ∈ entry.1, i ∈ a.signers) := by
    intro entry hentry
    obtain ⟨⟨key, _⟩, hmem, rfl⟩ := List.mem_map.mp hentry
    have hget := TreeMap.mem_toList_iff_getElem?_eq_some.mp hmem
    rw [TreeMap.getElem?_erase] at hget
    split at hget
    · cases hget
    · exact (h.entry key _ hget).2.2.2 i
  constructor
  · rintro ⟨a, ha, hi⟩
    obtain ⟨entry, hmem, hmem'⟩ := List.mem_flatMap.mp ha
    exact ⟨entry, hmem, (hentry entry hmem).mpr ⟨a, hmem', hi⟩⟩
  · rintro ⟨entry, hmem, hi⟩
    obtain ⟨a, ha, hi⟩ := (hentry entry hmem).mp hi
    exact ⟨a, List.mem_flatMap.mpr ⟨entry, hmem, ha⟩, hi⟩

/-- A minority aggregate was taken, over another message than the primary one. -/
theorem minority_taken (h : Packs byMessage list) {a : Aggregate P B}
    (ha : a ∈ minority byMessage primaryKey) : a ∈ list ∧ a.attestation.data ≠ primaryKey := by
  obtain ⟨entry, hmem, hmem'⟩ := List.mem_flatMap.mp ha
  obtain ⟨⟨key, _⟩, hkey, rfl⟩ := List.mem_map.mp hmem
  have hget := TreeMap.mem_toList_iff_getElem?_eq_some.mp hkey
  rw [TreeMap.getElem?_erase] at hget
  split at hget
  · cases hget
  · next hne =>
      obtain ⟨htaken, hdata⟩ := (h.entry key _ hget).2.2.1 a hmem'
      refine ⟨htaken, fun heq => hne ?_⟩
      rw [← heq, hdata]
      exact ReflCmp.compare_self

/-- **Nobody is named twice** where nobody is carried for two messages. -/
theorem minority_pairwise (h : Packs byMessage list)
    (hone : ∀ a ∈ list, ∀ b ∈ list, a.attestation.data ≠ b.attestation.data →
      Disjoint (members a.signers) (members b.signers)) :
    (minority byMessage primaryKey).Pairwise fun a b =>
      Disjoint (members a.signers) (members b.signers) := by
  have hentry : ∀ entry ∈ (byMessage.erase primaryKey).toList,
      byMessage[entry.1]? = some entry.2 := by
    intro entry hentry
    have hget := TreeMap.mem_toList_iff_getElem?_eq_some.mp hentry
    rw [TreeMap.getElem?_erase] at hget
    split at hget
    · cases hget
    · exact hget
  rw [minority, List.pairwise_flatMap, List.forall_mem_map, List.pairwise_map]
  constructor
  · intro entry hmem
    exact (h.entry _ _ (hentry entry hmem)).2.1
  · apply List.Pairwise.imp_of_mem _ TreeMap.distinct_keys_toList
    intro entry entry' hmem hmem' hne a ha b hb
    obtain ⟨hataken, hadata⟩ := (h.entry _ _ (hentry entry hmem)).2.2.1 a ha
    obtain ⟨hbtaken, hbdata⟩ := (h.entry _ _ (hentry entry' hmem')).2.2.1 b hb
    apply hone a hataken b hbtaken
    intro heq
    apply hne
    rw [← hadata, ← hbdata, heq]
    exact ReflCmp.compare_self

omit [Ord P.Bytes32] [TransOrd P.Bytes32] [LawfulEqOrd P.Bytes32] in
/-- **Aggregates over one message merge** into one, signed by all of their signers. -/
theorem merge_signedBy {committees : EpochCommittees P} {link : Link P} {key : DataKey P}
    {aggregates : List (Aggregate P B)} {w : AttestationWitness P} {S : Finset UInt64}
    (hfiled : ∀ a ∈ aggregates, Filed M signingDomain committees link slot a ∧
      a.attestation.data = key)
    (hpairwise : aggregates.Pairwise fun a b => Disjoint (members a.signers) (members b.signers))
    (hS : ∀ i, i ∈ S ↔ ∃ a ∈ aggregates, i ∈ a.signers) (hw : merge aggregates = some w) :
    Message link slot w ∧ M.SignedBy w.signature (signingRoot signingDomain w) S := by
  cases aggregates with
  | nil => cases hw
  | cons first rest =>
      obtain ⟨sum, hsum, hret⟩ := Option.bind_eq_some_iff.mp hw
      obtain rfl := Option.some.inj hret
      obtain ⟨⟨hfirst, hkey⟩, hrest⟩ := List.forall_mem_cons.mp hfiled
      obtain ⟨hothers, hpairwise⟩ := List.pairwise_cons.mp hpairwise
      obtain ⟨total, hrun, hheld⟩ := addSignatures (·.signature) (fun a => members a.signers)
        hfirst.held (fun a ha => ⟨by
          rw [signingRoot_congr (hkey.trans (hrest a ha).2.symm)]
          exact (hrest a ha).1.held, hothers a ha⟩) hpairwise
      obtain rfl := Option.some.inj (hsum.symm.trans hrun)
      have hset : rest.foldl (fun S a => S ∪ members a.signers) (members first.signers) = S := by
        ext i
        rw [mem_foldl_union, hS]
        simp
      rw [hset] at hheld
      refine ⟨⟨hfirst.message.slot, hfirst.message.checked, hfirst.message.nobody⟩, ?_⟩
      refine hheld.signedBy ?_ (M.fromBytes_toBytes sum)
      obtain ⟨i, hi⟩ := hfirst.nonempty
      exact ⟨i, (hS i).mpr ⟨first, List.mem_cons_self, mem_members.mp hi⟩⟩

omit [TransOrd P.Bytes32] [LawfulEqOrd P.Bytes32] in
/-- Whoever signed a filed aggregate is a member of its slot. -/
theorem filed_member (h : s.committees.OfRegistry validators s.slotsPerEpoch balanceEpoch)
    {a : Aggregate P B} (ha : Filed M signingDomain s.committees s.link slot a) {i : UInt64}
    (hi : i ∈ a.signers) :
    i ∈ EpochTrees.slotMembers s.committees (slot % s.slotsPerEpoch) := by
  obtain ⟨index, row, hrow, hmem⟩ := ha.row i hi
  exact EpochTrees.row_subset h hrow hmem

omit [Ord P.Bytes32] [TransOrd P.Bytes32] [LawfulEqOrd P.Bytes32] in
theorem mem_foldl_insertMany {i : UInt64} :
    ∀ {entries : List (List (Aggregate P B) × TreeSet UInt64)} {named : TreeSet UInt64},
      i ∈ entries.foldl (fun named entry => named.insertMany entry.2.toList) named ↔
        i ∈ named ∨ ∃ entry ∈ entries, i ∈ entry.2 := by
  intro entries
  induction entries with
  | nil => simp
  | cons entry entries ih =>
      intro named
      rw [List.foldl_cons, ih, ← mem_members, members_insertMany]
      simp [or_assoc]

omit [TransOrd P.Bytes32] [LawfulEqOrd P.Bytes32] in
/-- Minority aggregates name their signers, one after the other. -/
theorem secondary_names (h : s.committees.OfRegistry validators s.slotsPerEpoch balanceEpoch)
    {aggregates : List (Aggregate P B)} {secondary : List (AttestationWitness P)}
    (hsecondary : aggregates.mapM s.nameAggregate = some secondary) :
    (secondary.flatMap (·.attestingValidators)).map (·.validatorIndex) =
        aggregates.flatMap (·.signers.toList) ∧
      ∀ v ∈ secondary.flatMap (·.attestingValidators), Leaf validators balanceEpoch v := by
  constructor
  · rw [List.map_flatMap, List.flatMap_def, List.flatMap_def]
    exact congrArg List.flatten
      (map_of_mapM (fun a w hw => (nameAggregate_eq_some h hw).1) hsecondary)
  · intro v hv
    obtain ⟨w, hw, hv⟩ := List.mem_flatMap.mp hv
    obtain ⟨a, -, ha⟩ := exists_of_mem_mapM hsecondary hw
    exact (nameAggregate_eq_some h ha).2.1 v hv

omit [Ord P.Bytes32] [TransOrd P.Bytes32] [LawfulEqOrd P.Bytes32] in
theorem signers_nodup {aggregates : List (Aggregate P B)}
    (hapart : aggregates.Pairwise fun a b => Disjoint (members a.signers) (members b.signers)) :
    (aggregates.flatMap (·.signers.toList)).Nodup := by
  rw [List.nodup_flatMap]
  constructor
  · intro a _
    exact TreeSet.distinct_toList.imp fun hne heq => hne (Std.compare_eq_iff_eq.mpr heq)
  · refine hapart.imp fun hdisjoint i hi hi' => ?_
    exact Finset.disjoint_left.mp hdisjoint (List.mem_toFinset.mpr hi) (List.mem_toFinset.mpr hi')

/-- **What a complement is built of**: the aggregates of the message it derives a key for,
those of the other messages, and the members that signed neither. -/
theorem peek_eq_some (h : s.committees.OfRegistry validators s.slotsPerEpoch balanceEpoch)
    {list : List (Aggregate P B)} (hpacks : Packs (s.covered slot) list) {unit : SlotComplement P}
    (hpeek : s.peek slot = some unit) :
    ∃ (primaryKey : DataKey P) (entry : List (Aggregate P B) × TreeSet UInt64)
      (primary : AttestationWitness P),
      largest (s.covered slot) = some primaryKey ∧
      (s.covered slot)[primaryKey]? = some entry ∧ merge entry.1 = some primary ∧
      unit.witness.primary = [primary] ∧
      (minority (s.covered slot) primaryKey).mapM s.nameAggregate = some unit.witness.secondary ∧
      (unit.witness.absentees.map (·.validatorIndex)).Nodup ∧
      (∀ v ∈ unit.witness.absentees, Leaf validators balanceEpoch v) ∧
      (∀ i, i ∈ indices unit.witness.absentees ↔
        i ∈ EpochTrees.slotMembers s.committees unit.witness.slotInEpoch ∧ i ∉ entry.2 ∧
          ¬∃ a ∈ minority (s.covered slot) primaryKey, i ∈ a.signers) ∧
      ∀ i, i ∈ unit.namedIndices ↔
        (∃ a ∈ minority (s.covered slot) primaryKey, i ∈ a.signers) ∨
          i ∈ indices unit.witness.absentees := by
  unfold peek at hpeek
  simp only [Option.bind_eq_bind, Option.bind_eq_some_iff, Option.pure_def] at hpeek
  obtain ⟨committee, hcommittee, hpeek⟩ := hpeek
  split at hpeek
  · cases hpeek
  simp only [Option.bind_eq_some_iff, Option.some.injEq] at hpeek
  obtain ⟨primaryKey, hlargest, entry, hentry, secondary, hsecondary, absentees, habsentees,
    primary, hprimary, rfl⟩ := hpeek
  -- `named` is who signed for another message
  rw [(EpochTrees.members_getD h hcommittee).1] at habsentees
  set named := (((s.covered slot).erase primaryKey).toList.map Prod.snd).foldl
    (fun named entry => named.insertMany entry.2.toList) (∅ : TreeSet UInt64) with hnamed
  have hmem : ∀ i, i ∈ named ↔ ∃ a ∈ minority (s.covered slot) primaryKey, i ∈ a.signers := by
    intro i
    rw [hnamed, mem_foldl_insertMany, mem_minority hpacks]
    simp
  obtain ⟨hindices, hleaves⟩ := openAll_eq_some h habsentees
  refine ⟨primaryKey, entry, primary, hlargest, hentry, hprimary, rfl, hsecondary, ?_, hleaves, ?_,
    ?_⟩
  · rw [hindices]
    exact (EpochTrees.slotMembers_nodup h _).filter _
  · intro i
    rw [← hmem, indices, hindices, List.mem_toFinset, List.mem_filter, Bool.and_eq_true,
      Bool.not_eq_true', Bool.not_eq_true', TreeSet.mem_iff_contains, TreeSet.mem_iff_contains,
      Bool.not_eq_true, Bool.not_eq_true]
  · intro i
    rw [← hmem, TreeSet.mem_toList, ← mem_members, members_insertMany, Finset.mem_union,
      mem_members]
    rfl

omit [Ord P.Bytes32] [TransOrd P.Bytes32] [LawfulEqOrd P.Bytes32] in
/-- Different validators out of a list weigh no more than all of it. -/
theorem balanceSum_le {vs : List (OpenedValidator P)} {is : List UInt64}
    (hleaves : ∀ v ∈ vs, Leaf validators balanceEpoch v)
    (hnodup : (vs.map (·.validatorIndex)).Nodup) (hsubset : indices vs ⊆ is.toFinset) :
    balanceSum vs ≤ (is.map fun i =>
      ((hostContents P validators balanceEpoch).balance i.toNat).toNat).sum := by
  have hbalances : vs.map (·.activeEffectiveBalance.toNat) = (vs.map (·.validatorIndex)).map
      fun i => ((hostContents P validators balanceEpoch).balance i.toNat).toNat := by
    rw [List.map_map]
    apply List.map_congr_left
    intro v hv
    show _ = ((hostContents P validators balanceEpoch).balance v.validatorIndex.toNat).toNat
    rw [Contents.balance, hleaves v hv]
    rfl
  have hsubset' : vs.map (·.validatorIndex) ⊆ is := fun i hi =>
    List.mem_toFinset.mp (hsubset (List.mem_toFinset.mpr hi))
  obtain ⟨ls, hperm, hsublist⟩ := List.subperm_of_subset hnodup hsubset'
  rw [balanceSum, hbalances, ← (hperm.map _).sum_eq]
  exact (hsublist.map _).sum_le_sum fun _ _ => Nat.zero_le _

/-- An aggregate of the slot, every signer a member of its committee. -/
structure Seated (s : SlotStream P B) (slot : UInt64) (a : Aggregate P B) : Prop where
  message : Message s.link slot a.attestation
  nonempty : (members a.signers).Nonempty
  member : ∀ i ∈ a.signers, i ∈ EpochTrees.slotMembers s.committees (slot % s.slotsPerEpoch)

/-- **Three groups of a committee**, nobody in two of them. -/
structure Partition (committee primary secondary absent : Finset UInt64) : Prop where
  all : primary ∪ secondary ∪ absent = committee
  signers : Disjoint primary secondary
  absent : Disjoint (primary ∪ secondary) absent

omit [Ord P.Bytes32] [TransOrd P.Bytes32] [LawfulEqOrd P.Bytes32] in
/-- Who is left of a committee is who signed its primary message. -/
theorem Partition.sdiff {committee primary secondary absent : Finset UInt64}
    (h : Partition committee primary secondary absent) :
    committee \ (secondary ∪ absent) = primary := by
  have hdisjoint : Disjoint primary (secondary ∪ absent) :=
    Finset.disjoint_union_right.mpr
      ⟨h.signers, h.absent.mono_left Finset.subset_union_left⟩
  rw [← h.all, Finset.union_assoc, Finset.union_sdiff_cancel_right hdisjoint]

omit [Ord P.Bytes32] [TransOrd P.Bytes32] [LawfulEqOrd P.Bytes32] in
/-- Two groups of a committee, and whoever is in neither. -/
theorem Partition.of_absent {committee primary secondary absent : Finset UInt64}
    (hprimary : primary ⊆ committee) (hsecondary : secondary ⊆ committee)
    (hdisjoint : Disjoint primary secondary)
    (habsent : ∀ i, i ∈ absent ↔ i ∈ committee ∧ i ∉ primary ∧ i ∉ secondary) :
    Partition committee primary secondary absent := by
  refine ⟨?_, hdisjoint, ?_⟩
  · ext i
    have hin := @hprimary i
    have hin' := @hsecondary i
    rw [Finset.mem_union, Finset.mem_union, habsent]
    tauto
  · rw [Finset.disjoint_right]
    intro i hi
    rw [Finset.mem_union]
    exact not_or.mpr ((habsent i).mp hi).2

/-- Who signed the message a slot derives a key for. -/
def primarySigners (s : SlotStream P B) (slot : UInt64) : TreeSet UInt64 :=
  ((largest (s.covered slot)).bind fun key => (s.covered slot)[key]?).elim ∅ Prod.snd

omit [TransOrd P.Bytes32] [LawfulEqOrd P.Bytes32] in
theorem primarySigners_eq {entry : List (Aggregate P B) × TreeSet UInt64}
    (hlargest : largest (s.covered slot) = some primaryKey)
    (hentry : (s.covered slot)[primaryKey]? = some entry) : s.primarySigners slot = entry.2 := by
  rw [primarySigners, hlargest, Option.bind_some, hentry, Option.elim_some]

omit [TransOrd P.Bytes32] [LawfulEqOrd P.Bytes32] in
/-- Who is named for another message signed one of its aggregates. -/
theorem mem_secondarySigners (h : s.committees.OfRegistry validators s.slotsPerEpoch balanceEpoch)
    {w : SlotComplementWitness P} {aggregates : List (Aggregate P B)}
    (hsecondary : aggregates.mapM s.nameAggregate = some w.secondary) {i : UInt64} :
    i ∈ secondarySigners w ↔ ∃ a ∈ aggregates, i ∈ a.signers := by
  rw [secondarySigners, indices, (secondary_names h hsecondary).1, List.mem_toFinset,
    List.mem_flatMap]
  simp only [TreeSet.mem_toList]

/-- **What a complement is made of**: three groups of the slot's committee, everyone it names
named once and under the accumulator's leaf, every message over the link. -/
structure Grouped (validators : List ValidatorResponse) (balanceEpoch : UInt64)
    (s : SlotStream P B) (slot : UInt64) (unit : SlotComplement P) : Prop where
  partition : Partition
    (EpochTrees.slotMembers s.committees unit.witness.slotInEpoch).toFinset
    (members (s.primarySigners slot)) (secondarySigners unit.witness)
    (indices unit.witness.absentees)
  once : (unit.witness.named.map (·.validatorIndex)).Nodup
  leaves : ∀ v ∈ unit.witness.named, Leaf validators balanceEpoch v
  named : ∀ i, i ∈ unit.namedIndices ↔ i ∈ indices unit.witness.named
  signed : (members (s.primarySigners slot)).Nonempty
  primary : ∃ a, unit.witness.primary = [a] ∧ a.attestingValidators = []
  secondary : ∀ a ∈ unit.witness.secondary, a.attestingValidators ≠ []
  checked : ∀ a ∈ unit.witness.attestations, (attestationRules s.link).checkMessage a = .ok ()

omit [Ord P.Bytes32] [TransOrd P.Bytes32] [LawfulEqOrd P.Bytes32] in
/-- Aggregates over one message merge into a message of the slot. -/
theorem merge_message {link : Link P} {aggregates : List (Aggregate P B)}
    {w : AttestationWitness P} (hmessage : ∀ a ∈ aggregates, Message link slot a.attestation)
    (hw : merge aggregates = some w) : Message link slot w := by
  cases aggregates with
  | nil => cases hw
  | cons first rest =>
      obtain ⟨sum, -, hret⟩ := Option.bind_eq_some_iff.mp hw
      obtain rfl := Option.some.inj hret
      have hfirst := hmessage first List.mem_cons_self
      exact ⟨hfirst.slot, hfirst.checked, hfirst.nobody⟩

/-- **A complement falls into three groups**, if nobody is packed for two messages. -/
theorem peek_grouped (h : s.committees.OfRegistry validators s.slotsPerEpoch balanceEpoch)
    (hpacks : Packs (s.covered slot) list) (hseated : ∀ a ∈ list, s.Seated slot a)
    (hacross : ∀ a ∈ list, ∀ b ∈ list, a.attestation.data ≠ b.attestation.data →
      Disjoint (members a.signers) (members b.signers))
    {unit : SlotComplement P} (hpeek : s.peek slot = some unit) :
    s.Grouped validators balanceEpoch slot unit := by
  obtain ⟨primaryKey, ⟨aggregates, signers⟩, primary, hlargest, hentry, hprimary, hwitness,
    hsecondary, hnodup, habsentLeaves, habsent, hnamed⟩ := peek_eq_some h hpacks hpeek
  obtain ⟨hslot, hprices⟩ := peek_prices hpeek
  obtain ⟨hne, -, htaken, hsigners⟩ := hpacks.entry _ _ hentry
  obtain ⟨hindices, hleaves⟩ := secondary_names h hsecondary
  have hself : s.primarySigners slot = signers := primarySigners_eq hlargest hentry
  set minor := minority (s.covered slot) primaryKey with hminor
  have hapart : minor.Pairwise fun a b => Disjoint (members a.signers) (members b.signers) :=
    minority_pairwise hpacks hacross
  have hsecond : ∀ i, i ∈ secondarySigners unit.witness ↔ ∃ a ∈ minor, i ∈ a.signers :=
    fun i => mem_secondarySigners h hsecondary
  simp only [← hsecond] at habsent hnamed
  rw [hprices.slotInEpoch, hslot] at habsent
  have hin : ∀ a ∈ list, ∀ i ∈ a.signers,
      i ∈ EpochTrees.slotMembers s.committees (slot % s.slotsPerEpoch) :=
    fun a ha => (hseated a ha).member
  -- here the condition is needed: nobody was packed for the primary and for a minority
  have hapart_signers : Disjoint (members signers) (secondarySigners unit.witness) := by
    rw [Finset.disjoint_left]
    intro i hi hisecond
    obtain ⟨a, ha, hia⟩ := (hsigners i).mp (mem_members.mp hi)
    obtain ⟨b, hb, hib⟩ := (hsecond i).mp hisecond
    obtain ⟨hbtaken, hbdata⟩ := minority_taken hpacks hb
    have hdisjoint := hacross a (htaken a ha).1 b hbtaken fun heq =>
      hbdata (heq.symm.trans (htaken a ha).2)
    exact Finset.disjoint_left.mp hdisjoint (mem_members.mpr hia) (mem_members.mpr hib)
  have hmessages : ∀ a ∈ unit.witness.secondary,
      a.attestingValidators ≠ [] ∧ (attestationRules s.link).checkMessage a = .ok () := by
    intro w hw
    obtain ⟨a, ha, hname⟩ := exists_of_mem_mapM hsecondary hw
    have ha := hseated a (minority_taken hpacks ha).1
    refine ⟨nameAggregate_ne_nil h ha.nonempty hname, ?_⟩
    rw [(nameAggregate_eq_some h hname).2.2]
    exact ha.message.checked
  have hmessage : Message s.link slot primary :=
    merge_message (fun a ha => (hseated a (htaken a ha).1).message) hprimary
  exact {
    partition := by
      rw [hself, hprices.slotInEpoch, hslot]
      refine Partition.of_absent (fun i hi => ?_) (fun i hi => ?_) hapart_signers fun i => ?_
      · obtain ⟨a, ha, hia⟩ := (hsigners i).mp (mem_members.mp hi)
        exact List.mem_toFinset.mpr (hin a (htaken a ha).1 i hia)
      · obtain ⟨a, ha, hia⟩ := (hsecond i).mp hi
        exact List.mem_toFinset.mpr (hin a (minority_taken hpacks ha).1 i hia)
      · rw [habsent, List.mem_toFinset, mem_members]
    once := by
      rw [SlotComplementWitness.named, List.map_append, hindices]
      refine List.nodup_append.mpr ⟨signers_nodup hapart, hnodup, ?_⟩
      rintro i hi j hj rfl
      obtain ⟨a, ha, hia⟩ := List.mem_flatMap.mp hi
      have hiN := (hsecond i).mpr ⟨a, ha, TreeSet.mem_toList.mp hia⟩
      exact ((habsent i).mp (List.mem_toFinset.mpr hj)).2.2 hiN
    leaves := List.forall_mem_append.mpr ⟨hleaves, habsentLeaves⟩
    named := fun i => by rw [hnamed, indices_named, Finset.mem_union]
    signed := by
      rw [hself]
      obtain ⟨a, ha⟩ := List.exists_mem_of_ne_nil _ hne
      obtain ⟨i, hi⟩ := (hseated a (htaken a ha).1).nonempty
      exact ⟨i, mem_members.mpr ((hsigners i).mpr ⟨a, ha, mem_members.mp hi⟩)⟩
    primary := ⟨primary, hwitness, hmessage.nobody⟩
    secondary := fun a ha => (hmessages a ha).1
    checked := by
      rw [SlotComplementWitness.attestations, hwitness, List.forall_mem_append]
      refine ⟨fun a ha => ?_, fun a ha => (hmessages a ha).2⟩
      obtain rfl := List.mem_singleton.mp ha
      exact hmessage.checked }

omit [TransOrd P.Bytes32] [LawfulEqOrd P.Bytes32] in
/-- **A complement in three groups divides its committee**, for the circuit. -/
theorem Grouped.divides (h : EpochTrees M validators s.slotsPerEpoch balanceEpoch tree s.committees)
    {unit : SlotComplement P} (hgrouped : s.Grouped validators balanceEpoch slot unit)
    (hprices : Prices s.committees s.slotsPerEpoch unit) :
    Divides M s.link unit.witness
        (EpochTrees.slotMembers s.committees unit.witness.slotInEpoch).toFinset ∧
      (EpochTrees.slotMembers s.committees unit.witness.slotInEpoch).toFinset \
        indices unit.witness.named = members (s.primarySigners slot) := by
  obtain ⟨hkey, hbalance⟩ := h.aggregate hprices.committee
  have hunnamed : (EpochTrees.slotMembers s.committees unit.witness.slotInEpoch).toFinset \
      indices unit.witness.named = members (s.primarySigners slot) := by
    rw [indices_named]
    exact hgrouped.partition.sdiff
  have hall := hgrouped.partition.all
  refine ⟨⟨hkey, fun v hv => ((hgrouped.leaves v hv).names h).2, hgrouped.once, ?_, ?_,
    hgrouped.primary, hgrouped.secondary, hgrouped.checked, ?_⟩, hunnamed⟩
  · rw [← hall, indices_named, Finset.union_assoc]
    exact Finset.subset_union_right
  · rw [hunnamed]
    exact hgrouped.signed
  · rw [hbalance]
    have honce := hgrouped.once
    rw [SlotComplementWitness.named, List.map_append] at honce
    apply balanceSum_le (fun v hv => hgrouped.leaves v (List.mem_append_right _ hv))
      (List.nodup_append.mp honce).2.1
    rw [← hall]
    exact Finset.subset_union_right

omit [TransOrd P.Bytes32] [LawfulEqOrd P.Bytes32] in
theorem filed_seated (h : s.committees.OfRegistry validators s.slotsPerEpoch balanceEpoch)
    {a : Aggregate P B} (ha : Filed M signingDomain s.committees s.link slot a) :
    s.Seated slot a :=
  ⟨ha.message, ha.nonempty, fun _ hi => filed_member h ha hi⟩

/-- **The complement of a slot splits its committee**, if nobody is carried for two messages. -/
theorem peek_splits (h : EpochTrees M validators s.slotsPerEpoch balanceEpoch tree s.committees)
    (hcollected : Collected M signingDomain s) (hone : s.OneMessage slot)
    {unit : SlotComplement P} (hpeek : s.peek slot = some unit) :
    Splits M s.link signingDomain unit.witness
        (EpochTrees.slotMembers s.committees unit.witness.slotInEpoch).toFinset ∧
      (∀ v ∈ unit.witness.named, Names M validators balanceEpoch v) ∧
      ∀ i, i ∈ unit.namedIndices ↔ i ∈ indices unit.witness.named := by
  obtain ⟨list, hpacks, hlist⟩ := hcollected.covered slot
  have hfiled : ∀ a ∈ list, Filed M signingDomain s.committees s.link slot a :=
    fun a ha => (hlist a ha).1
  have hgrouped : s.Grouped validators balanceEpoch slot unit := by
    apply peek_grouped h.ofRegistry hpacks
      (fun a ha => filed_seated h.ofRegistry (hfiled a ha)) _ hpeek
    -- nobody is carried for two messages
    intro a ha b hb hdata
    rw [Finset.disjoint_left]
    intro i hia hib
    exact hdata (hone i _ _ ((hlist a ha).2 i (mem_members.mp hia))
      ((hlist b hb).2 i (mem_members.mp hib)))
  obtain ⟨hdivides, hunnamed⟩ := hgrouped.divides h (peek_prices hpeek).2
  obtain ⟨primaryKey, ⟨aggregates, signers⟩, primary, hlargest, hentry, hprimary, hwitness,
    hsecondary, -⟩ := peek_eq_some h.ofRegistry hpacks hpeek
  obtain ⟨-, hpairwise, htaken, hsigners⟩ := hpacks.entry _ _ hentry
  have hself : s.primarySigners slot = signers := primarySigners_eq hlargest hentry
  obtain ⟨hmessage, hsigned⟩ := merge_signedBy (S := members signers)
    (fun a ha => ⟨hfiled a (htaken a ha).1, (htaken a ha).2⟩) hpairwise
    (fun i => mem_members.trans (hsigners i)) hprimary
  refine ⟨{ key := hdivides.key, keys := hdivides.keys, once := hdivides.once
            subset := hdivides.subset, unnamed := hdivides.unnamed
            primary := ⟨primary, hwitness, hmessage.nobody, ?_⟩
            secondary := fun w hw => ?_
            checked := hdivides.checked, balance := hdivides.balance },
    fun v hv => (hgrouped.leaves v hv).names h, hgrouped.named⟩
  · rw [hunnamed, hself]
    exact hsigned
  · obtain ⟨a, ha, hname⟩ := exists_of_mem_mapM hsecondary hw
    exact nameAggregate_signed h.ofRegistry (hfiled a (minority_taken hpacks ha).1) hname

end Names

/-! ## The complement is accepted -/

section Accepted

variable {P : Primitives} [Ord P.Bytes32] [TransOrd P.Bytes32] [LawfulEqOrd P.Bytes32] {B : Blst}
  {M : SignatureModel P B} {validators : List ValidatorResponse}
  {slotsPerEpoch targetEpoch balanceEpoch totalActiveBalance slot : UInt64} {tree : AccTree P}
  {committees : EpochCommittees P} {targetRoot sourceRoot signingDomain : P.Bytes32}
  {s : SlotStream P B} {unit : SlotComplement P} {depth : ℕ} {responses : List CommitteeResponse}

/-- **Equivocators aside, every slot can be proven**: whatever valid attestations a
stream was fed, and whatever was taken in between, if nobody is carried for two messages
of a slot then its complement splits the slot's committee, `verify_attestations` accepts
it, and its pairing comes out at one. -/
theorem peek_accepted (hfits : validators.length ≤ 2 ^ depth)
    (hbalance : (validators.map fun v =>
      (v.data.activeEffectiveBalance balanceEpoch).toNat).sum < 2 ^ 64)
    (hkeys : Registered M (hostContents P validators balanceEpoch))
    (htree : AccTree.build (validators.map (·.data)) balanceEpoch depth = .ok tree)
    (hcommittees : build responses validators tree slotsPerEpoch targetEpoch balanceEpoch
      totalActiveBalance = .ok committees)
    (hfed : Fed (Valid M signingDomain committees)
      (new slotsPerEpoch committees targetEpoch targetRoot sourceRoot : SlotStream P B) s)
    (hone : s.OneMessage slot) (hpeek : s.peek slot = some unit) :
    Splits M s.link signingDomain unit.witness
        (EpochTrees.slotMembers committees unit.witness.slotInEpoch).toFinset ∧
      ∃ a, verifyAttestations [unit.witness] tree.root (Streaming.accMultiProof tree [unit])
          committees.root (Streaming.committeeMultiProof committees [unit]) s.link signingDomain
          depth = .ok a ∧
        P.finalExpIsOne a.miller = true := by
  obtain ⟨hcollected, hsame, -, hslots⟩ := hfed.collected new_collected
  obtain ⟨rfl, hdense, hholds⟩ := AccTree.build_holds hfits htree
  have htrees : EpochTrees M validators s.slotsPerEpoch balanceEpoch tree s.committees := by
    rw [hsame, hslots]
    exact ⟨build_ofRegistry hcommittees, hholds, hdense, hkeys, hbalance⟩
  obtain ⟨hsplits, hnames, hindices⟩ := peek_splits htrees hcollected hone hpeek
  obtain ⟨-, hprices⟩ := peek_prices hpeek
  rw [hsame] at hsplits hprices
  refine ⟨hsplits, ?_⟩
  apply hsplits.accepted (build_ofRegistry hcommittees) hprices.committee hholds hdense
  · exact fun v hv => (hnames v hv).1
  · intro k
    rw [List.flatMap_singleton, List.mem_map]
    constructor
    · rintro ⟨i, hi, rfl⟩
      obtain ⟨v, hv, rfl⟩ := mem_indices.mp ((hindices i).mp hi)
      exact ⟨v, hv, rfl⟩
    · rintro ⟨v, hv, rfl⟩
      exact ⟨_, (hindices _).mpr (mem_indices.mpr ⟨v, hv, rfl⟩), rfl⟩

end Accepted

/-! ## Who is carried -/

section Carried

variable {P : Primitives} [Ord P.Bytes32] {B : Blst}

/-- Everyone a slot carries, with the message. -/
def carried (s : SlotStream P B) (slot : UInt64) : List (DataKey P × UInt64) :=
  ((s.summed.getD slot ∅).toList.flatMap fun entry =>
      entry.2.signers.keys.map fun i => (entry.1.1, i)) ++
    (s.taken slot).flatMap fun a => a.signers.toList.map fun i => (a.attestation.data, i)

variable [TransOrd P.Bytes32] [LawfulEqOrd P.Bytes32] {s : SlotStream P B} {slot : UInt64}

theorem carries_iff {key : DataKey P} {i : UInt64} :
    s.Carries slot key i ↔ (key, i) ∈ s.carried slot := by
  rw [Carries, carried, List.mem_append, List.mem_flatMap, List.mem_flatMap]
  refine or_congr ?_ ?_
  · constructor
    · rintro ⟨committeeIndex, running, hget, hi⟩
      exact ⟨((key, committeeIndex), running), TreeMap.mem_toList_iff_getElem?_eq_some.mpr hget,
        List.mem_map.mpr ⟨i, TreeMap.mem_keys.mpr hi, rfl⟩⟩
    · rintro ⟨⟨⟨key', committeeIndex⟩, running⟩, hentry, hmem⟩
      obtain ⟨j, hj, heq⟩ := List.mem_map.mp hmem
      obtain ⟨rfl, rfl⟩ := Prod.mk.inj heq
      exact ⟨committeeIndex, running, TreeMap.mem_toList_iff_getElem?_eq_some.mp hentry,
        TreeMap.mem_keys.mp hj⟩
  · apply exists_congr
    intro a
    simp only [List.mem_map, TreeSet.mem_toList, Prod.mk.injEq]
    refine and_congr_right fun _ => ⟨fun ⟨hdata, hi⟩ => ⟨i, hi, hdata, rfl⟩, ?_⟩
    rintro ⟨j, hj, hdata, rfl⟩
    exact ⟨hdata, hj⟩

/-- Whether nobody is carried for two messages can be read off the state. -/
theorem oneMessage_iff : s.OneMessage slot ↔ ∀ entry ∈ s.carried slot, ∀ other ∈ s.carried slot,
    entry.2 = other.2 → dataCompare entry.1 other.1 = .eq := by
  constructor
  · rintro h ⟨key, i⟩ hentry ⟨key', _⟩ hother rfl
    rw [h i key key' (carries_iff.mpr hentry) (carries_iff.mpr hother)]
    exact ReflCmp.compare_self
  · intro h i key key' hkey hkey'
    exact LawfulEqCmp.eq_of_compare
      (h _ (carries_iff.mp hkey) _ (carries_iff.mp hkey') rfl)

instance : Decidable (s.OneMessage slot) := decidable_of_iff _ oneMessage_iff.symm

end Carried

end SlotStream

/-! ## A double vote

A committee of four. Validators 0 and 1 vote for one head, and another vote for a second
head is validator 0's or validator 2's. -/

namespace Formal

open Slot Committee EpochCommittees

def head (r : Fin 2) : Term := .bytes [UInt8.ofNat r]

/-- The two roots that are signed. -/
def headVoteRoot (r : Fin 2) : Term :=
  Bls.computeSigningRoot (formal {})
    (Ssz.attestationDataRoot (formal {}) ⟨64, 0, head r, 1, blank, 2, blank⟩) blank

/-- One validator votes for one head. -/
def single (r : Fin 2) (k : Fin 4) : AttestationResponse (signing headVoteRoot) :=
  ⟨[], [], some ⟨0, UInt64.ofNat k⟩, 64, 0, head r, 1, blank, 2, blank, (signature r k).bytes⟩

def seated : List ValidatorResponse := [validator 0 32, validator 1 32, validator 2 32, validator 3 32]

def seatedTree : AccTree (signing headVoteRoot) :=
  (AccTree.build (seated.map (·.data)) 1 2).toOption.getD ⟨0, 0, [], []⟩

def seatedCommittees : EpochCommittees (signing headVoteRoot) :=
  (EpochCommittees.build [⟨64, 0, [0, 1, 2, 3]⟩] seated seatedTree 32 2 1 128).toOption.getD
    ⟨[], ∅, [], ⟨.zero, 0, .zero, 0, [], []⟩, ⟨.zero, 0, .zero⟩, []⟩

/-- A stream that was fed some votes. -/
def fed (votes : List (Fin 2 × Fin 4)) : SlotStream (signing headVoteRoot) shares :=
  (SlotStream.ingest (.new 32 seatedCommittees 2 blank blank)
    (votes.map fun vote => single vote.1 vote.2)).1

theorem headVoteRoot_ne : headVoteRoot 0 ≠ headVoteRoot 1 := by decide

theorem single_valid (r : Fin 2) (k : Fin 4) :
    Valid (model headVoteRoot) blank seatedCommittees (single r k) := by
  intro resolved hresolved hsome
  obtain ⟨rfl, -⟩ := resolve_single rfl hresolved hsome
  refine ⟨_, congrArg some (share_bytes _), ?_⟩
  exact signature_heldBy headVoteRoot_ne r k

theorem fed_fed (votes : List (Fin 2 × Fin 4)) :
    SlotStream.Fed (Valid (model headVoteRoot) blank seatedCommittees)
      (.new 32 seatedCommittees 2 blank blank : SlotStream (signing headVoteRoot) shares)
      (fed votes) := by
  refine SlotStream.Fed.ingest (P := signing headVoteRoot) .start fun att hatt => ?_
  obtain ⟨vote, -, rfl⟩ := List.mem_map.mp hatt
  exact single_valid _ _

/-- Whether a proof went through, and its pairing comes out at one. -/
def passes {P : Primitives} : Except String (Attested P) → Bool
  | .error _ => false
  | .ok a => P.finalExpIsOne a.miller

theorem passes_iff {P : Primitives} {result : Except String (Attested P)} :
    passes result = true ↔ ∃ a, result = .ok a ∧ P.finalExpIsOne a.miller = true := by
  cases result with
  | error e => simp [passes]
  | ok a => simp [passes]

/-- Whether the complement of the slot is accepted. -/
def proves (s : SlotStream (signing headVoteRoot) shares) : Bool :=
  (s.peek 64).any fun unit => passes (verifyAttestations [unit.witness] seatedTree.root
    (Streaming.accMultiProof seatedTree [unit]) seatedCommittees.root
    (Streaming.committeeMultiProof seatedCommittees [unit]) s.link blank 2)

theorem proves_iff {s : SlotStream (signing headVoteRoot) shares}
    {unit : SlotComplement (signing headVoteRoot)} (h : s.peek 64 = some unit) :
    proves s = true ↔ ∃ a, verifyAttestations [unit.witness] seatedTree.root
        (Streaming.accMultiProof seatedTree [unit]) seatedCommittees.root
        (Streaming.committeeMultiProof seatedCommittees [unit]) s.link blank 2 = .ok a ∧
      (signing headVoteRoot).finalExpIsOne a.miller = true := by
  rw [proves, h, Option.any_some]
  exact passes_iff

theorem seated_registered :
    Registered (model headVoteRoot) (hostContents (signing headVoteRoot) seated 1) := by
  intro i l hl
  have hlt : i.toNat < 4 := lt_length_of_contentsBy hl
  obtain ⟨k, rfl⟩ : ∃ k : Fin 4, i = UInt64.ofNat k := ⟨⟨i.toNat, hlt⟩, by simp⟩
  have hkey : hostContents (signing headVoteRoot) seated 1 (UInt64.ofNat k).toNat =
      some ⟨key k, 32⟩ := by
    fin_cases k <;> rfl
  obtain rfl := Option.some.inj (hkey.symm.trans hl)
  exact key_keyOf k

theorem seatedTree_build :
    AccTree.build (P := signing headVoteRoot) (seated.map (·.data)) 1 2 = .ok seatedTree := rfl

theorem seatedCommittees_build :
    EpochCommittees.build [⟨64, 0, [0, 1, 2, 3]⟩] seated seatedTree 32 2 1 128 =
      .ok seatedCommittees := rfl

end Formal

namespace SlotStream

open Formal EpochCommittees

/-- Validator 2 votes for the other head: the slot is proven. -/
theorem peek_accepted_threeVoters :
    (fed [(0, 0), (0, 1), (1, 2)]).OneMessage 64 ∧ proves (fed [(0, 0), (0, 1), (1, 2)]) = true := by
  have hone : (fed [(0, 0), (0, 1), (1, 2)]).OneMessage 64 := by decide +kernel
  obtain ⟨unit, hunit⟩ : ∃ unit, (fed [(0, 0), (0, 1), (1, 2)]).peek 64 = some unit :=
    Option.isSome_iff_exists.mp (by decide +kernel)
  have haccepted := peek_accepted (M := model headVoteRoot) (show seated.length ≤ 2 ^ 2 by decide)
    (by decide) seated_registered seatedTree_build seatedCommittees_build (fed_fed _) hone hunit
  exact ⟨hone, (proves_iff hunit).mpr haccepted.2⟩

/-- **A double vote stops a slot**: validator 0 votes for both heads, and its key is taken
out of a sum that holds its signature. -/
theorem peek_not_accepted : ¬ ∀ (s : SlotStream (signing headVoteRoot) shares)
    (unit : SlotComplement (signing headVoteRoot)),
    Fed (Valid (model headVoteRoot) blank seatedCommittees)
        (.new 32 seatedCommittees 2 blank blank) s → s.peek 64 = some unit →
      ∃ a, verifyAttestations [unit.witness] seatedTree.root
          (Streaming.accMultiProof seatedTree [unit]) seatedCommittees.root
          (Streaming.committeeMultiProof seatedCommittees [unit]) s.link blank 2 = .ok a ∧
        (signing headVoteRoot).finalExpIsOne a.miller = true := by
  intro h
  obtain ⟨unit, hunit⟩ : ∃ unit, (fed [(0, 0), (0, 1), (1, 0)]).peek 64 = some unit :=
    Option.isSome_iff_exists.mp (by decide +kernel)
  have hproves := (proves_iff hunit).mpr (h _ unit (fed_fed _) hunit)
  have hfails : proves (fed [(0, 0), (0, 1), (1, 0)]) = false := by decide +kernel
  exact Bool.false_ne_true (hfails.symm.trans hproves)

end SlotStream
end Zkasper
