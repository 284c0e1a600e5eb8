import Zkasper.WitnessGen.Equivocation
import Zkasper.WitnessGen.History

/-! # The collector and the circuit agree

What the host prices a slot at, and what `verify_attestations` counts for it, are computed
from different data: the host from every attestation it heard, the circuit from the
witness alone. Whatever was heard, in whatever order, if nobody was heard to sign two
messages of a slot then the complement of the slot falls into three groups, everyone
heard in a single attestation has signed, and the circuit opens and counts exactly what
the host says (`complement_agrees`). -/

namespace Zkasper

open Std Slot Committee EpochCommittees

variable {P : Primitives} {B : Blst}

/-! ## What is left of a bucket -/

section Residual

variable {running : Summed P B} {covered : TreeSet UInt64}

theorem not_contains {t : TreeSet UInt64} {i : UInt64} : (!t.contains i) = true ↔ i ∉ t := by
  rw [Bool.not_eq_true', ← Bool.not_eq_true, ← TreeSet.mem_iff_contains]

/-- What is left of a bucket keeps the message, and is signed by whoever is not covered. -/
theorem Summed.residual_eq_some {a : Aggregate P B} (h : running.residual covered = some a) :
    (∃ signature, a.attestation = { running.attestation with signature }) ∧
      (∀ i, i ∈ a.signers ↔ i ∈ running.signers ∧ i ∉ covered) ∧
      ((∃ i, i ∈ running.signers) → ∃ i, i ∈ a.signers) := by
  unfold Summed.residual at h
  split at h
  · next hnone =>
      obtain rfl := Option.some.inj h
      have hall : ∀ i, i ∈ running.aggregate.signers ↔ i ∈ running.signers := by
        intro i
        rw [Summed.aggregate, ← mem_members, members_ofList, List.mem_toFinset, TreeMap.mem_keys]
      refine ⟨⟨_, rfl⟩, fun i => ?_, fun ⟨i, hi⟩ => ⟨i, (hall i).mpr hi⟩⟩
      rw [Bool.not_eq_true', List.any_eq_false] at hnone
      rw [hall]
      exact ⟨fun hi => ⟨hi, hnone i (TreeMap.mem_keys.mpr hi)⟩, And.left⟩
  · split at h
    · cases h
    · next first rest hleft =>
        obtain ⟨signature, -, hret⟩ := Option.bind_eq_some_iff.mp h
        obtain rfl := Option.some.inj hret
        refine ⟨⟨_, rfl⟩, fun i => ?_, fun _ => ⟨first.1, ?_⟩⟩
        swap
        · rw [← mem_members, members_ofList, List.mem_toFinset]
          exact List.mem_cons_self
        rw [← mem_members, members_ofList, List.mem_toFinset, ← hleft, List.mem_map]
        constructor
        · rintro ⟨entry, hentry, rfl⟩
          obtain ⟨hentry, hfree⟩ := List.mem_filter.mp hentry
          refine ⟨?_, not_contains.mp hfree⟩
          rw [TreeMap.mem_iff_isSome_getElem?, TreeMap.mem_toList_iff_getElem?_eq_some.mp hentry]
          rfl
        · rintro ⟨hi, hfree⟩
          rw [TreeMap.mem_iff_isSome_getElem?] at hi
          obtain ⟨σ, hσ⟩ := Option.isSome_iff_exists.mp hi
          refine ⟨(i, σ), List.mem_filter.mpr
            ⟨TreeMap.mem_toList_iff_getElem?_eq_some.mpr hσ, not_contains.mpr hfree⟩, rfl⟩

/-- Signatures that are added one after the other, where adding never fails. -/
theorem foldlM_addSignature (hadd : ∀ σ τ, (B.addSignature σ τ).isSome) :
    ∀ (signatures : List B.Signature) (σ : B.Signature),
      ∃ sum, signatures.foldlM B.addSignature σ = some sum
  | [], σ => ⟨σ, rfl⟩
  | τ :: signatures, σ => by
      obtain ⟨mid, hmid⟩ := Option.isSome_iff_exists.mp (hadd σ τ)
      obtain ⟨sum, hsum⟩ := foldlM_addSignature hadd signatures mid
      exact ⟨sum, by rw [List.foldlM_cons, hmid]; exact hsum⟩

/-- A bucket with a signer who is not covered has something left. -/
theorem Summed.residual_isSome (hadd : ∀ σ τ, (B.addSignature σ τ).isSome) {i : UInt64}
    (hi : i ∈ running.signers) (hfree : i ∉ covered) : ∃ a, running.residual covered = some a := by
  unfold Summed.residual
  split
  · exact ⟨_, rfl⟩
  · split
    · next hnil =>
        rw [TreeMap.mem_iff_isSome_getElem?] at hi
        obtain ⟨σ, hσ⟩ := Option.isSome_iff_exists.mp hi
        have hmem : (i, σ) ∈ running.signers.toList.filter fun entry => !covered.contains entry.1 :=
          List.mem_filter.mpr ⟨TreeMap.mem_toList_iff_getElem?_eq_some.mpr hσ,
            not_contains.mpr hfree⟩
        rw [hnil] at hmem
        cases hmem
    · next first rest _ =>
        obtain ⟨sum, hsum⟩ := foldlM_addSignature hadd (rest.map Prod.snd) first.2
        exact ⟨_, by rw [hsum]; rfl⟩

end Residual

/-! ## Taking aggregates apart -/

section TakeApart

/-- What was taken stays taken. -/
theorem subset_takeApart : ∀ {list taken : List (Aggregate P B)}, taken ⊆ takeApart taken list
  | [], _ => fun _ h => h
  | a :: list, taken => by
      rw [takeApart]
      split
      · exact subset_takeApart
      · exact fun b hb => subset_takeApart (List.mem_append_left _ hb)

variable [Ord P.Bytes32] [TransOrd P.Bytes32] [LawfulEqOrd P.Bytes32]

omit [Ord P.Bytes32] [TransOrd P.Bytes32] [LawfulEqOrd P.Bytes32] in
theorem overlaps_eq_false {a b : Aggregate P B} : overlaps a b = false ↔
    (a.attestation.data = b.attestation.data → Disjoint (members a.signers) (members b.signers)) := by
  rw [← Bool.not_eq_true, overlaps, Bool.and_eq_true, sameData_iff, any_contains, not_and]
  refine imp_congr_right fun _ => ?_
  rw [Finset.disjoint_left]
  simp only [mem_members, not_exists, not_and]

omit [Ord P.Bytes32] [TransOrd P.Bytes32] [LawfulEqOrd P.Bytes32] in
/-- A list whose aggregates overlap nothing is taken whole. -/
theorem takeApart_eq_append : ∀ {list taken : List (Aggregate P B)},
    (∀ a ∈ list, ∀ b ∈ taken, overlaps a b = false) →
      list.Pairwise (fun a b => overlaps b a = false) → takeApart taken list = taken ++ list
  | [], taken, _, _ => by simp [takeApart]
  | a :: list, taken, hfree, hpairwise => by
      obtain ⟨ha, hlist⟩ := List.forall_mem_cons.mp hfree
      obtain ⟨hlater, hpairwise⟩ := List.pairwise_cons.mp hpairwise
      have hnone : ¬taken.any (overlaps a) = true := by
        rw [List.any_eq_true]
        rintro ⟨b, hb, hoverlaps⟩
        exact Bool.false_ne_true ((ha b hb).symm.trans hoverlaps)
      have hrest : ∀ b ∈ list, ∀ c ∈ taken ++ [a], overlaps b c = false := by
        intro b hb c hc
        rcases List.mem_append.mp hc with hc | hc
        · exact hlist b hb c hc
        · exact List.mem_singleton.mp hc ▸ hlater b hb
      rw [takeApart, if_neg hnone, takeApart_eq_append hrest hpairwise, List.append_assoc]
      rfl

end TakeApart

/-! ## The cover of what was heard -/

namespace SlotStream

variable [Ord P.Bytes32]

/-- **Nobody equivocates**: two attestations that were heard for the checkpoint and share a
slot and a signer carry the same data. -/
def SingleVote (link : Link P) (committees : EpochCommittees P)
    (log : List (AttestationResponse P)) : Prop :=
  ∀ att ∈ log, ∀ other ∈ log, att.link = link → other.link = link → att.dataSlot = other.dataSlot →
    ∀ i ∈ attestors committees att, i ∈ attestors committees other →
      att.attestation.data = other.attestation.data

omit [Ord P.Bytes32] in
theorem SingleVote.heard {link : Link P} {committees : EpochCommittees P}
    {log : List (AttestationResponse P)} (h : SingleVote link committees log) {slot i : UInt64}
    {key key' : DataKey P} (hkey : Heard link committees log slot key i)
    (hkey' : Heard link committees log slot key' i) : key = key' := by
  obtain ⟨att, hatt, hlink, hslot, rfl, hi⟩ := hkey
  obtain ⟨other, hother, hlink', hslot', rfl, hi'⟩ := hkey'
  exact h att hatt other hother hlink hlink' (hslot.trans hslot'.symm) i hi hi'

variable [TransOrd P.Bytes32] [LawfulEqOrd P.Bytes32] {s : SlotStream P B}
  {log : List (AttestationResponse P)} {slot : UInt64}

omit [TransOrd P.Bytes32] in
/-- Whether anybody equivocates can be read off the attestations. -/
theorem singleVote_of_compare {link : Link P} {committees : EpochCommittees P}
    (h : ∀ att ∈ log, ∀ other ∈ log,
      dataCompare att.attestation.data other.attestation.data = .eq ∨
        attestors committees att ∩ attestors committees other = []) :
    SingleVote link committees log := by
  intro att hatt other hother _ _ _ i hi hi'
  rcases h att hatt other hother with hsame | hnobody
  · exact LawfulEqCmp.eq_of_compare hsame
  · have hboth : i ∈ attestors committees att ∩ attestors committees other :=
      List.mem_inter_iff.mpr ⟨hi, hi'⟩
    rw [hnobody] at hboth
    cases hboth

/-- A residual of a slot is what is left of one of its buckets. -/
theorem mem_residuals {entry : DataKey P × Aggregate P B} (h : entry ∈ s.residuals slot) :
    ∃ (bucket : DataKey P × UInt64) (running : Summed P B),
      (s.summed.getD slot ∅)[bucket]? = some running ∧ entry.1 = bucket.1 ∧
        running.residual ((s.packed slot).getD bucket.1 ([], ∅)).2 = some entry.2 := by
  obtain ⟨⟨⟨key, committeeIndex⟩, running⟩, hrunning, hresidual⟩ := List.mem_filterMap.mp h
  obtain ⟨a, ha, rfl⟩ := Option.map_eq_some_iff.mp hresidual
  exact ⟨_, running, TreeMap.mem_toList_iff_getElem?_eq_some.mp hrunning, rfl, ha⟩

omit [TransOrd P.Bytes32] [LawfulEqOrd P.Bytes32] in
/-- What is left of a bucket is placed like the bucket. -/
theorem Gathered.residual {bucket : DataKey P × UInt64} {running : Summed P B}
    {covered : TreeSet UInt64} {a : Aggregate P B}
    (h : Gathered s.link s.committees log slot bucket running)
    (ha : running.residual covered = some a) :
    a.attestation.data = bucket.1 ∧ Placed s.link s.committees log slot a := by
  obtain ⟨⟨signature, hmessage⟩, hsigners, hsome⟩ := Summed.residual_eq_some ha
  have hdata : a.attestation.data = bucket.1 := by
    rw [hmessage]
    exact h.key
  obtain ⟨i, hi⟩ := hsome h.nonempty
  refine ⟨hdata, ?_, ⟨i, mem_members.mpr hi⟩, fun j hj => ?_⟩
  · rw [hmessage]
    exact ⟨h.message.slot, h.message.checked, h.message.nobody⟩
  · rw [hdata]
    exact (h.heard j ((hsigners j).mp hj).1).1

theorem Keeps.residual (h : Keeps log s) {entry : DataKey P × Aggregate P B}
    (hentry : entry ∈ s.residuals slot) :
    entry.2.attestation.data = entry.1 ∧ Placed s.link s.committees log slot entry.2 := by
  obtain ⟨bucket, running, hrunning, hkey, hresidual⟩ := mem_residuals hentry
  rw [hkey]
  exact (h.summed slot bucket running hrunning).residual hresidual

/-- **The cover of a slot** packs aggregates whose signers were heard over their message. -/
theorem Keeps.covered (h : Keeps log s) (slot : UInt64) :
    Packs (s.covered slot) (takeApart (s.taken slot) ((s.residuals slot).map Prod.snd)) ∧
      ∀ a ∈ takeApart (s.taken slot) ((s.residuals slot).map Prod.snd),
        Placed s.link s.committees log slot a := by
  refine ⟨packs_covered fun entry hentry => (h.residual hentry).1, fun a ha => ?_⟩
  rcases mem_takeApart ha with htaken | hresidual
  · rcases mem_takeApart htaken with hnone | hpending
    · cases hnone
    · exact h.pending slot a ((List.mem_insertionSort _).mp hpending)
  · obtain ⟨entry, hentry, rfl⟩ := List.mem_map.mp hresidual
    exact (h.residual hentry).2

/-- **Residuals overlap nothing**: neither what is taken, nor each other, since nobody sits
in two committees. -/
theorem Keeps.residuals_apart (h : Keeps log s) (hrows : RowsApart s.committees.table)
    (slot : UInt64) :
    takeApart (s.taken slot) ((s.residuals slot).map Prod.snd) =
      s.taken slot ++ (s.residuals slot).map Prod.snd := by
  apply takeApart_eq_append
  · rw [List.forall_mem_map]
    intro entry hentry b hb
    obtain ⟨bucket, running, hrunning, hkey, hresidual⟩ := mem_residuals hentry
    rw [overlaps_eq_false, (h.residual hentry).1, hkey, Finset.disjoint_left]
    intro hdata i hi hib
    obtain ⟨packedEntry, hpacked, hmem⟩ := (packs_packed s slot).taken b hb
    rw [← hdata] at hpacked
    apply ((Summed.residual_eq_some hresidual).2.1 i |>.mp (mem_members.mp hi)).2
    rw [TreeMap.getD_eq_getD_getElem?, hpacked]
    exact ((packs_packed s slot).entry _ _ hpacked).2.2.2 i |>.mpr ⟨b, hmem, mem_members.mp hib⟩
  · rw [List.pairwise_map, residuals, List.pairwise_filterMap]
    apply List.Pairwise.imp_of_mem _ TreeMap.distinct_keys_toList
    rintro ⟨⟨key, c⟩, running⟩ ⟨⟨key', c'⟩, running'⟩ hmem hmem' hne entry hentry entry' hentry'
    obtain ⟨a, ha, rfl⟩ := Option.map_eq_some_iff.mp hentry
    obtain ⟨a', ha', rfl⟩ := Option.map_eq_some_iff.mp hentry'
    have hgather := h.summed slot _ _ (TreeMap.mem_toList_iff_getElem?_eq_some.mp hmem)
    have hgather' := h.summed slot _ _ (TreeMap.mem_toList_iff_getElem?_eq_some.mp hmem')
    show overlaps a' a = false
    rw [overlaps_eq_false, (hgather.residual ha).1, (hgather'.residual ha').1, Finset.disjoint_left]
    intro hkey i hi' hi
    obtain ⟨-, row, hrow, hin⟩ :=
      hgather.heard i ((Summed.residual_eq_some ha).2.1 i |>.mp (mem_members.mp hi)).1
    obtain ⟨-, row', hrow', hin'⟩ :=
      hgather'.heard i ((Summed.residual_eq_some ha').2.1 i |>.mp (mem_members.mp hi')).1
    have hseat := hrows _ _ _ _ hrow hrow' i hin hin'
    apply hne
    have hkey : key' = key := hkey
    have hc : c = c' := (Prod.mk.inj hseat).2
    rw [hkey, hc]
    exact ReflCmp.compare_self

/-- **Whoever was heard in a single attestation is covered**, over its message, as long as
the slot is open. -/
theorem Keeps.single_covered (h : Keeps log s) (hrows : RowsApart s.committees.table)
    (hadd : ∀ σ τ, (B.addSignature σ τ).isSome) {att : AttestationResponse P}
    {single : SingleAttester} (hatt : att ∈ log) (hlink : att.link = s.link)
    (hsingle : att.singleAttester = some single)
    (hmem : single.attesterIndex ∈ attestors s.committees att) (hopen : att.dataSlot ∉ s.closed) :
    ∃ entry : List (Aggregate P B) × TreeSet UInt64,
      (s.covered att.dataSlot)[att.attestation.data]? = some entry ∧
        single.attesterIndex ∈ entry.2 := by
  obtain ⟨running, hrunning, hin⟩ := h.single att hatt hlink single hsingle hmem hopen
  have hpacks := (h.covered att.dataSlot).1
  rw [h.residuals_apart hrows] at hpacks
  -- the packing carries the signer, or its bucket is left with it
  obtain ⟨a, ha, hdata, hia⟩ : ∃ a ∈ s.taken att.dataSlot ++ (s.residuals att.dataSlot).map Prod.snd,
      a.attestation.data = att.attestation.data ∧ single.attesterIndex ∈ a.signers := by
    by_cases hcovered : single.attesterIndex ∈
        ((s.packed att.dataSlot).getD att.attestation.data ([], ∅)).2
    · cases hpacked : (s.packed att.dataSlot)[att.attestation.data]? with
      | none =>
          rw [TreeMap.getD_eq_getD_getElem?, hpacked] at hcovered
          exact absurd hcovered TreeSet.not_mem_emptyc
      | some entry =>
          rw [TreeMap.getD_eq_getD_getElem?, hpacked] at hcovered
          obtain ⟨-, -, htaken, hsigners⟩ := (packs_packed s att.dataSlot).entry _ _ hpacked
          obtain ⟨a, ha, hia⟩ := (hsigners _).mp hcovered
          exact ⟨a, List.mem_append_left _ (htaken a ha).1, (htaken a ha).2, hia⟩
    · obtain ⟨a, ha⟩ := Summed.residual_isSome hadd hin hcovered
      refine ⟨a, List.mem_append_right _ (List.mem_map.mpr ⟨(att.attestation.data, a), ?_, rfl⟩),
        ((h.summed _ _ _ hrunning).residual ha).1,
        ((Summed.residual_eq_some ha).2.1 _).mpr ⟨hin, hcovered⟩⟩
      refine List.mem_filterMap.mpr ⟨_, TreeMap.mem_toList_iff_getElem?_eq_some.mpr hrunning, ?_⟩
      exact Option.map_eq_some_iff.mpr ⟨a, ha, rfl⟩
  obtain ⟨entry, hentry, hmem⟩ := hpacks.taken a ha
  rw [hdata] at hentry
  exact ⟨entry, hentry, ((hpacks.entry _ _ hentry).2.2.2 _).mpr ⟨a, hmem, hia⟩⟩

/-! ## The groups of what was heard -/

section Groups

variable {validators : List ValidatorResponse} {balanceEpoch : UInt64} {tree : AccTree P}
  {M : SignatureModel P B} {unit : SlotComplement P}

omit [Ord P.Bytes32] [TransOrd P.Bytes32] [LawfulEqOrd P.Bytes32] in
theorem exists_of_mem_attestors {committees : EpochCommittees P} {att : AttestationResponse P}
    {i : UInt64} (h : i ∈ attestors committees att) :
    ∃ resolved, resolveAttestingValidators att committees = .ok resolved ∧ i ∈ resolved := by
  unfold attestors at h
  cases hresolved : resolveAttestingValidators att committees with
  | error e =>
      rw [hresolved] at h
      cases h
  | ok resolved =>
      rw [hresolved] at h
      exact ⟨resolved, rfl, h⟩

omit [TransOrd P.Bytes32] [LawfulEqOrd P.Bytes32] in
/-- Whoever was heard for a slot is a member of its committee. -/
theorem Heard.member (h : s.committees.OfRegistry validators s.slotsPerEpoch balanceEpoch)
    {key : DataKey P} {i : UInt64} (hi : Heard s.link s.committees log slot key i) :
    i ∈ EpochTrees.slotMembers s.committees (slot % s.slotsPerEpoch) := by
  obtain ⟨att, -, -, rfl, -, hmem⟩ := hi
  obtain ⟨resolved, hresolved, hmem⟩ := exists_of_mem_attestors hmem
  obtain ⟨index, row, hrow, hin⟩ := resolve_row hresolved i hmem
  exact EpochTrees.row_subset h hrow hin

omit [TransOrd P.Bytes32] [LawfulEqOrd P.Bytes32] in
theorem Placed.seated (h : s.committees.OfRegistry validators s.slotsPerEpoch balanceEpoch)
    {a : Aggregate P B} (ha : Placed s.link s.committees log slot a) : s.Seated slot a :=
  ⟨ha.message, ha.nonempty, fun i hi => (ha.heard i hi).member h⟩

/-- **What was heard falls into three groups**, if nobody was heard to vote twice. -/
theorem Keeps.grouped (h : Keeps log s)
    (hregistry : s.committees.OfRegistry validators s.slotsPerEpoch balanceEpoch)
    (hvote : SingleVote s.link s.committees log) (hpeek : s.peek slot = some unit) :
    s.Grouped validators balanceEpoch slot unit := by
  obtain ⟨hpacks, hplaced⟩ := h.covered slot
  apply peek_grouped hregistry hpacks (fun a ha => (hplaced a ha).seated hregistry) _ hpeek
  intro a ha b hb hdata
  rw [Finset.disjoint_left]
  intro i hia hib
  exact hdata (hvote.heard ((hplaced a ha).heard i (mem_members.mp hia))
    ((hplaced b hb).heard i (mem_members.mp hib)))

/-- **Whoever was heard in a single attestation is a signer** of the complement. -/
theorem Keeps.single_signed (h : Keeps log s) (hrows : RowsApart s.committees.table)
    (hadd : ∀ σ τ, (B.addSignature σ τ).isSome)
    (hregistry : s.committees.OfRegistry validators s.slotsPerEpoch balanceEpoch)
    {att : AttestationResponse P} (hpeek : s.peek att.dataSlot = some unit)
    {single : SingleAttester} (hatt : att ∈ log) (hlink : att.link = s.link)
    (hsingle : att.singleAttester = some single)
    (hmem : single.attesterIndex ∈ attestors s.committees att) (hopen : att.dataSlot ∉ s.closed) :
    single.attesterIndex ∈
      members (s.primarySigners att.dataSlot) ∪ secondarySigners unit.witness := by
  obtain ⟨entry, hentry, hin⟩ := h.single_covered hrows hadd hatt hlink hsingle hmem hopen
  have hpacks := (h.covered att.dataSlot).1
  obtain ⟨primaryKey, primaryEntry, -, hlargest, hprimary, -, -, hsecondary, -⟩ :=
    peek_eq_some hregistry hpacks hpeek
  rw [Finset.mem_union, mem_members, primarySigners_eq hlargest hprimary,
    mem_secondarySigners hregistry hsecondary, mem_minority hpacks]
  by_cases heq : primaryKey = att.attestation.data
  · rw [← heq, hprimary] at hentry
    exact .inl (Option.some.inj hentry ▸ hin)
  · refine .inr ⟨entry, List.mem_map.mpr ⟨(att.attestation.data, entry), ?_, rfl⟩, hin⟩
    rw [TreeMap.mem_toList_iff_getElem?_eq_some, TreeMap.getElem?_erase, if_neg]
    · exact hentry
    · exact fun hcmp => heq (LawfulEqCmp.eq_of_compare hcmp)

/-! ## What the circuit makes of it -/

omit [TransOrd P.Bytes32] [LawfulEqOrd P.Bytes32] in
/-- The named indices come ascending. -/
theorem peek_ascending (hpeek : s.peek slot = some unit) :
    unit.namedIndices.Pairwise (· < ·) := by
  unfold peek at hpeek
  simp only [Option.bind_eq_bind, Option.bind_eq_some_iff, Option.pure_def] at hpeek
  obtain ⟨committee, -, hpeek⟩ := hpeek
  split at hpeek
  · cases hpeek
  · simp only [Option.bind_eq_some_iff, Option.some.injEq] at hpeek
    obtain ⟨primaryKey, -, entry, -, secondary, -, absentees, -, primary, -, rfl⟩ := hpeek
    exact TreeSet.ordered_toList.imp fun h => Std.compare_eq_lt.mp h

/-- The accumulator leaves of some validators, with their positions. -/
def leavesOf (validators : List ValidatorResponse) (balanceEpoch : UInt64) (is : List UInt64) :
    List (P.Digest × ℕ) :=
  is.map fun i => ((hostContents P validators balanceEpoch).digest i.toNat, i.toNat)

omit [TransOrd P.Bytes32] [LawfulEqOrd P.Bytes32] in
/-- **The leaves a complement opens are those of its named indices**, in another order. -/
theorem Grouped.opened (h : s.Grouped validators balanceEpoch slot unit)
    (hpeek : s.peek slot = some unit) : (unit.witness.named.map openedLeaf).Perm
      (leavesOf validators balanceEpoch unit.namedIndices) := by
  have hleaves : unit.witness.named.map openedLeaf =
      leavesOf validators balanceEpoch (unit.witness.named.map (·.validatorIndex)) := by
    rw [leavesOf, List.map_map]
    apply List.map_congr_left
    intro v hv
    show _ = ((hostContents P validators balanceEpoch).digest v.validatorIndex.toNat, _)
    rw [Contents.digest, h.leaves v hv]
    rfl
  rw [hleaves]
  apply List.Perm.map
  rw [List.perm_ext_iff_of_nodup h.once ((peek_ascending hpeek).imp fun hlt => UInt64.ne_of_lt hlt)]
  intro i
  rw [h.named, indices, List.mem_toFinset]

omit [Ord P.Bytes32] [TransOrd P.Bytes32] [LawfulEqOrd P.Bytes32] in
/-- What the circuit adds for a slot, and what it opens. -/
theorem attestSlot_adds {link : Link P} {signingDomain : P.Bytes32} {t t' : AttestState P}
    {w : SlotComplementWitness P} (h : attestSlot link signingDomain t w = .ok t') :
    t'.attestingBalance = t.attestingBalance + w.support ∧
      t'.tally.opened = t.tally.opened ++ w.named.map openedLeaf := by
  obtain ⟨support, hcount, -, -, hbalance, -⟩ := attestSlot_eq_ok h
  obtain ⟨rfl, -⟩ := countComplement_support hcount
  exact ⟨hbalance, countComplement_opened hcount⟩

omit [TransOrd P.Bytes32] [LawfulEqOrd P.Bytes32] in
/-- **The circuit counts a complement in three groups**, over independent keys, whatever its
signatures are worth. -/
theorem Grouped.attested (h : s.Grouped validators balanceEpoch slot unit)
    (htrees : EpochTrees M validators s.slotsPerEpoch balanceEpoch tree s.committees)
    (hprices : Prices s.committees s.slotsPerEpoch unit) (signingDomain : P.Bytes32)
    {t : AttestState P}
    (hbelow : ∀ previous, t.previousSlot = some previous → previous < unit.witness.slotInEpoch) :
    ∃ t', attestSlot s.link signingDomain t unit.witness = .ok t' := by
  obtain ⟨hdivides, -⟩ := h.divides htrees hprices
  obtain ⟨balance, queue, last, hcount, -⟩ := hdivides.countComplement signingDomain t.tally
  obtain ⟨hslot, -⟩ := htrees.ofRegistry.openCommittees hprices.committee
  obtain ⟨first, hprimary, hnobody⟩ := h.primary
  have hcheck : checkPrimary unit.witness = .ok first := by
    simp [checkPrimary, hprimary, hnobody, Guest.assert, bind, Except.bind, pure, Except.pure]
  have hincreasing : checkIncreasing t.previousSlot unit.witness.slotInEpoch = .ok () := by
    cases hprevious : t.previousSlot with
    | none => rfl
    | some previous => exact Guest.assert_eq_ok.mpr (hbelow previous hprevious)
  simp only [attestSlot, Guest.bind_eq_ok, Guest.assert_eq_ok, Guest.pure_eq_ok]
  exact ⟨_, (), hincreasing, (), hslot, first, hcheck, _, hcount, rfl⟩

/-! ## Every open slot has a complement -/

omit [Ord P.Bytes32] [TransOrd P.Bytes32] [LawfulEqOrd P.Bytes32] in
/-- A slot somebody is a member of has an aggregate, over independent keys. -/
theorem aggregate_isSome {committees : EpochCommittees P} {slotsPerEpoch slotInEpoch : UInt64}
    (h : EpochTrees M validators slotsPerEpoch balanceEpoch tree committees)
    (hlt : slotInEpoch.toNat < maxSlots)
    (hne : EpochTrees.slotMembers committees slotInEpoch ≠ []) :
    ∃ aggregate, committees.aggregate slotInEpoch = some aggregate := by
  obtain ⟨sum, hrun, hsum⟩ := SignatureModel.Sums.addAll (fun m : CommitteeMember P => m.pubkey)
    (·.validatorIndex) SignatureModel.Sums.empty
    (fun m hm => ⟨(h.member (mem_assigned.mp hm).1).2, Finset.notMem_empty _⟩)
    (EpochTrees.slotMembers_nodup h.ofRegistry slotInEpoch)
  rw [Finset.empty_union] at hsum
  obtain ⟨pubkey, hpubkey, -⟩ := hsum.get (List.toFinset_nonempty_iff _ |>.mpr hne)
  rw [EpochCommittees.aggregate, h.ofRegistry.aggregates, List.getElem?_map,
    List.getElem?_range hlt]
  show ∃ aggregate, sumSlot (assigned committees.witness.members slotInEpoch.toNat) = some aggregate
  simp only [sumSlot, Option.bind_eq_bind, hrun, Option.bind_some, hpubkey, Option.pure_def]
  exact ⟨_, rfl⟩

omit [TransOrd P.Bytes32] [LawfulEqOrd P.Bytes32] in
/-- Members of a slot can be opened. -/
theorem opened_isSome {i slotInEpoch : UInt64}
    (hi : i ∈ EpochTrees.slotMembers s.committees slotInEpoch) : ∃ v, s.opened i = some v := by
  obtain ⟨m, hm, rfl⟩ := List.mem_map.mp hi
  obtain ⟨found, hfound⟩ : ∃ found, (s.committees.witness.members.find? fun other =>
      other.validatorIndex = m.validatorIndex) = some found := by
    rw [← Option.isSome_iff_exists, List.find?_isSome]
    exact ⟨m, (mem_assigned.mp hm).1, by simp⟩
  exact ⟨_, by rw [opened, hfound]; rfl⟩

omit [Ord P.Bytes32] [TransOrd P.Bytes32] [LawfulEqOrd P.Bytes32] in
theorem mapM_isSome {α β : Type} {f : α → Option β} : ∀ {as : List α},
    (∀ a ∈ as, ∃ b, f a = some b) → ∃ bs, as.mapM f = some bs
  | [], _ => ⟨[], rfl⟩
  | a :: as, h => by
      obtain ⟨⟨b, hb⟩, hrest⟩ := List.forall_mem_cons.mp h
      obtain ⟨bs, hbs⟩ := mapM_isSome hrest
      exact ⟨b :: bs, by simp [hb, hbs]⟩

omit [Ord P.Bytes32] [TransOrd P.Bytes32] [LawfulEqOrd P.Bytes32] in
/-- A fold that keeps its pick or takes the next one picks something of the list. -/
theorem foldl_pick {α : Type} {f : Option α → α → Option α} (hnone : ∀ e, f none e = some e)
    (hsome : ∀ b e, f (some b) e = some e ∨ f (some b) e = some b) :
    ∀ (entries : List α) (b : α), ∃ e ∈ b :: entries, entries.foldl f (f none b) = some e := by
  intro entries
  induction entries with
  | nil => exact fun b => ⟨b, List.mem_singleton_self b, hnone b⟩
  | cons e entries ih =>
      intro b
      rw [List.foldl_cons, hnone]
      rcases hsome b e with heq | heq
      · obtain ⟨x, hx, hfold⟩ := ih e
        exact ⟨x, List.mem_cons_of_mem _ hx, by rw [heq, ← hfold, hnone]⟩
      · obtain ⟨x, hx, hfold⟩ := ih b
        refine ⟨x, ?_, by rw [heq, ← hfold, hnone]⟩
        rcases List.mem_cons.mp hx with rfl | hx
        · exact List.mem_cons_self
        · exact List.mem_cons_of_mem _ (List.mem_cons_of_mem _ hx)

/-- A cover with something in it has a largest message. -/
theorem largest_isSome {byMessage : Cover P B} {key : DataKey P}
    {entry : List (Aggregate P B) × TreeSet UInt64} (h : byMessage[key]? = some entry) :
    ∃ primaryKey primaryEntry, largest byMessage = some primaryKey ∧
      byMessage[primaryKey]? = some primaryEntry := by
  obtain ⟨f, hlargest, hnone, hsome⟩ : ∃ f,
      largest byMessage = (byMessage.toList.foldl f none).map Prod.fst ∧
        (∀ e, f none e = some e) ∧ ∀ b e, f (some b) e = some e ∨ f (some b) e = some b := by
    refine ⟨_, rfl, fun _ => rfl, fun b e => ?_⟩
    dsimp only
    split
    · exact .inl rfl
    · exact .inr rfl
  have hmem := TreeMap.mem_toList_iff_getElem?_eq_some.mpr h
  cases hentries : byMessage.toList with
  | nil =>
      rw [hentries] at hmem
      cases hmem
  | cons b entries =>
      obtain ⟨e, he, hfold⟩ := foldl_pick hnone hsome entries b
      rw [← hentries] at he
      refine ⟨e.1, e.2, ?_, TreeMap.mem_toList_iff_getElem?_eq_some.mp he⟩
      rw [hlargest, hentries, List.foldl_cons, hfold]
      rfl

omit [Ord P.Bytes32] [TransOrd P.Bytes32] [LawfulEqOrd P.Bytes32] in
/-- Something is taken out of a list that is not empty. -/
theorem takeApart_ne_nil {list : List (Aggregate P B)} (h : list ≠ []) : takeApart [] list ≠ [] := by
  cases list with
  | nil => exact absurd rfl h
  | cons a list =>
      show takeApart [a] list ≠ []
      exact List.ne_nil_of_mem (subset_takeApart (List.mem_singleton_self a))

/-- The cover of an open slot has something in it. -/
theorem Keeps.covered_nonempty (h : Keeps log s) (hrows : RowsApart s.committees.table)
    (hadd : ∀ σ τ, (B.addSignature σ τ).isSome) (hopen : s.IsOpen slot) :
    ∃ a, a ∈ takeApart (s.taken slot) ((s.residuals slot).map Prod.snd) := by
  by_cases hpending : s.pending.getD slot [] = []
  · -- nothing is packed, and a bucket is left whole
    have htaken : s.taken slot = [] := by
      rw [taken, hpending]
      rfl
    have hsummed : slot ∈ s.summed :=
      hopen.resolve_left fun hmem => h.pending_ne slot hmem hpending
    obtain ⟨bucket, running, hrunning⟩ := h.summed_ne slot hsummed
    obtain ⟨i, hi⟩ := (h.summed slot bucket running hrunning).nonempty
    have hfree : i ∉ ((s.packed slot).getD bucket.1 ([], ∅)).2 := by
      rw [packed, hpending]
      exact TreeSet.not_mem_emptyc
    obtain ⟨a, ha⟩ := Summed.residual_isSome hadd hi hfree
    rw [h.residuals_apart hrows]
    refine ⟨a, List.mem_append_right _ (List.mem_map.mpr ⟨(bucket.1, a), ?_, rfl⟩)⟩
    refine List.mem_filterMap.mpr ⟨_, TreeMap.mem_toList_iff_getElem?_eq_some.mpr hrunning, ?_⟩
    exact Option.map_eq_some_iff.mpr ⟨a, ha, rfl⟩
  · have htaken : s.taken slot ≠ [] := by
      apply takeApart_ne_nil
      rw [ne_eq, ← List.length_eq_zero_iff, List.length_insertionSort, List.length_eq_zero_iff]
      exact hpending
    obtain ⟨a, ha⟩ := List.exists_mem_of_ne_nil _ htaken
    exact ⟨a, subset_takeApart ha⟩

/-- **Every open slot has a complement**, over independent keys. -/
theorem Keeps.peek_isSome (h : Keeps log s) (hrows : RowsApart s.committees.table)
    (hadd : ∀ σ τ, (B.addSignature σ τ).isSome)
    (htrees : EpochTrees M validators s.slotsPerEpoch balanceEpoch tree s.committees)
    (hlt : (slot % s.slotsPerEpoch).toNat < maxSlots) (hopen : s.IsOpen slot) :
    ∃ unit, s.peek slot = some unit := by
  obtain ⟨hpacks, hplaced⟩ := h.covered slot
  have hmember : ∀ a ∈ takeApart (s.taken slot) ((s.residuals slot).map Prod.snd), ∀ i ∈ a.signers,
      i ∈ EpochTrees.slotMembers s.committees (slot % s.slotsPerEpoch) :=
    fun a ha i hi => ((hplaced a ha).heard i hi).member htrees.ofRegistry
  obtain ⟨a, ha⟩ := h.covered_nonempty hrows hadd hopen
  obtain ⟨i, hi⟩ := (hplaced a ha).nonempty
  obtain ⟨committee, hcommittee⟩ := aggregate_isSome htrees hlt
    (List.ne_nil_of_mem (hmember a ha i (mem_members.mp hi)))
  -- something was heard, so some message is the largest
  obtain ⟨someEntry, hsome, -⟩ := hpacks.taken a ha
  obtain ⟨primaryKey, entry, hlargest, hentry⟩ := largest_isSome hsome
  have hne := (hpacks.entry _ _ hentry).1
  obtain ⟨secondary, hsecondary⟩ : ∃ secondary,
      (minority (s.covered slot) primaryKey).mapM s.nameAggregate = some secondary := by
    apply mapM_isSome
    intro b hb
    have hb' := (minority_taken hpacks hb).1
    obtain ⟨named, hnamed⟩ : ∃ named, b.signers.toList.mapM s.opened = some named := by
      apply mapM_isSome
      intro j hj
      exact opened_isSome (hmember b hb' j (TreeSet.mem_toList.mp hj))
    exact ⟨_, by rw [nameAggregate, hnamed]; rfl⟩
  obtain ⟨primary, hprimary⟩ : ∃ primary, merge entry.1 = some primary := by
    cases haggregates : entry.1 with
    | nil => exact absurd haggregates hne
    | cons first rest =>
        obtain ⟨sum, hsum⟩ := foldlM_addSignature hadd (rest.map (·.signature)) first.signature
        exact ⟨_, by rw [merge, hsum]; rfl⟩
  have hmembers := (EpochTrees.members_getD htrees.ofRegistry hcommittee).1
  set named := (((s.covered slot).erase primaryKey).toList.map Prod.snd).foldl
    (fun named entry => named.insertMany entry.2.toList) (∅ : TreeSet UInt64) with hnamed
  obtain ⟨absentees, habsentees⟩ : ∃ absentees, ((s.committees.members.getD
      (slot % s.slotsPerEpoch).toNat []).filter fun index =>
        !entry.2.contains index && !named.contains index).mapM s.opened = some absentees := by
    apply mapM_isSome
    intro j hj
    rw [hmembers] at hj
    exact opened_isSome (List.mem_filter.mp hj).1
  -- and neither side of the test for a fed slot is empty
  have hfed : ((s.summed.getD slot ∅).isEmpty && (s.pending.getD slot []).isEmpty) ≠ true := by
    rw [ne_eq, Bool.and_eq_true, not_and_or]
    rcases hopen with hpending | hsummed
    · right
      rw [List.isEmpty_iff]
      exact h.pending_ne slot hpending
    · left
      obtain ⟨bucket, running, hrunning⟩ := h.summed_ne slot hsummed
      intro hempty
      rw [TreeMap.getElem?_of_isEmpty hempty] at hrunning
      cases hrunning
  rw [← Option.isSome_iff_exists, peek]
  simp only [hcommittee, Option.bind_eq_bind, Option.bind_some, if_neg hfed, hlargest, hentry]
  have hsecondary' : ((((s.covered slot).erase primaryKey).toList.map Prod.snd).flatMap
      Prod.fst).mapM s.nameAggregate = some secondary := hsecondary
  rw [hsecondary', Option.bind_some, ← hnamed, habsentees, Option.bind_some, hprimary,
    Option.bind_some]
  rfl

end Groups

/-! ## Agreement -/

section Agrees

variable {validators : List ValidatorResponse} {slotsPerEpoch epoch targetEpoch balanceEpoch
  totalActiveBalance : UInt64} {tree : AccTree P} {committees : EpochCommittees P}
  {targetRoot sourceRoot : P.Bytes32} {responses : List CommitteeResponse}

/-- **A complement agrees with what was heard, and with the circuit.** -/
structure Agrees (validators : List ValidatorResponse) (balanceEpoch : UInt64) (tree : AccTree P)
    (log : List (AttestationResponse P)) (s : SlotStream P B) (slot : UInt64)
    (unit : SlotComplement P) : Prop where
  /-- Primary signers, secondary signers and absentees, nobody in two of the groups. -/
  partition : Partition
    (EpochTrees.slotMembers s.committees (slot % s.slotsPerEpoch)).toFinset
    (members (s.primarySigners slot)) (secondarySigners unit.witness)
    (indices unit.witness.absentees)
  /-- Whoever was heard in a single attestation is in one of the first two. -/
  signed : ∀ att ∈ log, att.link = s.link → att.dataSlot = slot → ∀ single : SingleAttester,
    att.singleAttester = some single → single.attesterIndex ∈ attestors s.committees att →
      single.attesterIndex ∈ members (s.primarySigners slot) ∪ secondarySigners unit.witness
  /-- What the circuit adds is the marginal balance, and what it opens are the leaves of the
  named indices. -/
  counted : ∀ (signingDomain : P.Bytes32) (t t' : AttestState P),
    attestSlot s.link signingDomain t unit.witness = .ok t' →
      t'.attestingBalance = t.attestingBalance + unit.marginalBalance ∧
        ∃ opened, t'.tally.opened = t.tally.opened ++ opened ∧
          opened.Perm (leavesOf validators balanceEpoch unit.namedIndices)
  /-- Over independent keys the circuit does count the slot. -/
  accepted : ∀ M : SignatureModel P B,
    EpochTrees M validators s.slotsPerEpoch balanceEpoch tree s.committees →
    ∀ (signingDomain : P.Bytes32) (t : AttestState P),
      (∀ previous, t.previousSlot = some previous → previous < unit.witness.slotInEpoch) →
        ∃ t', attestSlot s.link signingDomain t unit.witness = .ok t'

/-- **The collector and the circuit agree**: after any history in which nobody equivocates,
every complement is a partition of its slot's committee in which everyone heard in a single
attestation has signed, and the circuit opens its named indices and adds its marginal
balance; and every open slot has a complement, over independent keys. -/
theorem complement_agrees (hadd : ∀ σ τ, (B.addSignature σ τ).isSome)
    (hcommittees : build responses validators tree slotsPerEpoch epoch balanceEpoch
      totalActiveBalance = .ok committees)
    {start s : SlotStream P B} (hstart : start = new slotsPerEpoch committees targetEpoch targetRoot
      sourceRoot) {calls : List (Call P)} (hrun : start.run calls = s)
    (hvote : SingleVote start.link committees (start.heard calls)) (slot : UInt64) :
    (∀ unit, s.peek slot = some unit →
        s.Agrees validators balanceEpoch tree (start.heard calls) slot unit) ∧
      (0 < slotsPerEpoch → slot ∈ s.openSlots → ∀ M : SignatureModel P B,
        EpochTrees M validators slotsPerEpoch balanceEpoch tree committees →
          ∃ unit, s.peek slot = some unit) := by
  subst hstart hrun
  have hregistry := build_ofRegistry hcommittees
  have hrows := build_rowsApart hcommittees
  set start : SlotStream P B := new slotsPerEpoch committees targetEpoch targetRoot sourceRoot
  have hnew : Keeps [] start := new_keeps
  have hkeeps : Keeps (start.heard calls) (start.run calls) := hnew.run
  have hapart : (start.run calls).Apart := new_apart.run calls
  obtain ⟨hsame, hlink, hslots, -⟩ := run_settings calls start
  set s := start.run calls
  have hsame : s.committees = committees := hsame
  have hslots : s.slotsPerEpoch = slotsPerEpoch := hslots
  rw [← hsame] at hvote hregistry hrows
  rw [← hlink] at hvote
  rw [← hslots] at hregistry
  constructor
  · intro unit hpeek
    have hgrouped := hkeeps.grouped hregistry hvote hpeek
    obtain ⟨hslot, hprices⟩ := peek_prices hpeek
    have hfed : s.IsOpen slot := isOpen_of_peek hpeek
    exact {
      partition := by
        have hpartition := hgrouped.partition
        rwa [hprices.slotInEpoch, hslot] at hpartition
      signed := by
        rintro att hatt hatt_link rfl single hsingle hmem
        exact hkeeps.single_signed hrows hadd hregistry hpeek hatt hatt_link hsingle hmem
          (hapart _ hfed)
      counted := by
        intro signingDomain t t' hattest
        obtain ⟨hbalance, hopened⟩ := attestSlot_adds hattest
        refine ⟨?_, _, hopened, hgrouped.opened hpeek⟩
        rw [hbalance, hprices.marginal]
        rfl
      accepted := fun M htrees signingDomain t hbelow =>
        hgrouped.attested htrees hprices signingDomain hbelow }
  · intro hpos hopen M htrees
    rw [← hsame, ← hslots] at htrees
    refine hkeeps.peek_isSome hrows hadd htrees ?_ (mem_openSlots.mp hopen)
    have hbound := build_slots hcommittees
    rw [hslots, UInt64.toNat_mod]
    exact (Nat.mod_lt _ (UInt64.lt_iff_toNat_lt.mp hpos)).trans_le hbound

end Agrees

section Example

open Formal

/-- A collector over a committee of four. -/
def seatedStream : SlotStream (signing headVoteRoot) shares := new 32 seatedCommittees 2 blank blank

/-- Validators 0 and 1 vote for one head and validator 2 for another; validator 3 is absent,
and nobody votes twice. -/
def threeVoters : List (Call (signing headVoteRoot)) :=
  [.ingest [single 0 0, single 0 1], .peek 64, .ingest [single 1 2, single 0 0]]

theorem complement_agrees_threeVoters :
    ∃ unit, (seatedStream.run threeVoters).peek 64 = some unit ∧
      (unit.namedIndices = [2, 3] ∧ unit.marginalBalance = 96) ∧
      (seatedStream.run threeVoters).Agrees seated 1 seatedTree (seatedStream.heard threeVoters) 64
        unit := by
  have hvote : SingleVote seatedStream.link seatedCommittees (seatedStream.heard threeVoters) :=
    singleVote_of_compare (by decide +kernel)
  obtain ⟨unit, hunit, hprice⟩ : ∃ unit, (seatedStream.run threeVoters).peek 64 = some unit ∧
      (unit.namedIndices = [2, 3] ∧ unit.marginalBalance = 96) := by decide +kernel
  have hstart : seatedStream = new 32 seatedCommittees 2 blank blank := rfl
  have hrun : seatedStream.run threeVoters = seatedStream.run threeVoters := rfl
  have hagrees := complement_agrees (fun _ _ => rfl) seatedCommittees_build hstart hrun hvote 64
  exact ⟨unit, hunit, hprice, hagrees.1 unit hunit⟩

end Example

end SlotStream

end Zkasper
