import Zkasper.WitnessGen.Complement

/-! # What a slot's cover holds

A stream fed with valid attestations files nothing but valid ones (`Filed`, `Bucketed`):
each aggregate carries the signature of exactly the validators it is filed with, all of
them in the slot's committees. `cover` then keeps what it counts disjoint message by
message (`Packs`), so the aggregates of one message add up to one signature over all its
signers. -/

namespace Zkasper

open Std Slot

/-! ## The keys of the maps -/

section Keys

variable {P : Primitives} [Ord P.Bytes32]

instance [LawfulEqOrd P.Bytes32] :
    LawfulEqCmp (dataCompare : DataKey P → DataKey P → Ordering) where
  compare_self := by simp [dataCompare, compareLex, compareOn]
  eq_of_compare {a b} h := by
    simp only [dataCompare, compareLex, compareOn, Ordering.then_eq_eq,
      Std.compare_eq_iff_eq] at h
    cases a
    cases b
    simp_all

instance [TransOrd P.Bytes32] :
    TransCmp (fun a b : DataKey P × UInt64 => dataCompare a.1 b.1) where
  eq_swap {a b} := by
    show dataCompare a.1 b.1 = (dataCompare b.1 a.1).swap
    exact OrientedCmp.eq_swap
  isLE_trans {a b c} h h' := by
    show (dataCompare a.1 c.1).isLE
    exact TransCmp.isLE_trans (b := b.1) h h'

instance [LawfulEqOrd P.Bytes32] :
    LawfulEqCmp (bucketCompare : DataKey P × UInt64 → DataKey P × UInt64 → Ordering) where
  compare_self := by simp [bucketCompare, compareLex, compareOn]
  eq_of_compare {a b} h := by
    obtain ⟨hdata, hindex⟩ : dataCompare a.1 b.1 = .eq ∧ compare a.2 b.2 = .eq :=
      Ordering.then_eq_eq.mp h
    exact Prod.ext (LawfulEqCmp.eq_of_compare hdata) (Std.compare_eq_iff_eq.mp hindex)

end Keys

/-- The validators of a sorted set. -/
def members (s : TreeSet UInt64) : Finset UInt64 := s.toList.toFinset

@[simp] theorem mem_members {s : TreeSet UInt64} {i : UInt64} : i ∈ members s ↔ i ∈ s := by
  rw [members, List.mem_toFinset, TreeSet.mem_toList]

@[simp] theorem members_empty : members ∅ = ∅ := rfl

theorem members_ofList (l : List UInt64) : members (TreeSet.ofList l) = l.toFinset := by
  ext i
  simp [TreeSet.mem_ofList]

theorem members_insertMany (s : TreeSet UInt64) (l : List UInt64) :
    members (s.insertMany l) = members s ∪ l.toFinset := by
  ext i
  simp [TreeSet.mem_insertMany_list]

theorem keys_insert {V : Type} (t : TreeMap UInt64 V) (i : UInt64) (v : V) :
    (t.insert i v).keys.toFinset = t.keys.toFinset ∪ {i} := by
  ext j
  rw [List.mem_toFinset, TreeMap.mem_keys, TreeMap.mem_insert, Std.compare_eq_iff_eq,
    Finset.mem_union, List.mem_toFinset, TreeMap.mem_keys, Finset.mem_singleton]
  tauto

/-! ## What is filed -/

section Filed

variable {P : Primitives} {B : Blst} (M : SignatureModel P B) (signingDomain : P.Bytes32)
  (committees : EpochCommittees P) (link : Link P)

/-- **A valid attestation**: its signature is that of the validators it resolves to. -/
def Valid (att : AttestationResponse P) : Prop :=
  ∀ resolved, resolveAttestingValidators att committees = .ok resolved → resolved ≠ [] →
    ∃ σ, B.fromBytes att.signature = some σ ∧
      M.HeldBy σ (signingRoot signingDomain att.attestation) resolved.toFinset

/-- A message of a slot, over the FFG link. -/
structure Message (slot : UInt64) (a : AttestationWitness P) : Prop where
  slot : a.dataSlot = slot
  checked : (attestationRules link).checkMessage a = .ok ()
  nobody : a.attestingValidators = []

/-- An aggregate filed under a slot, signed by exactly whom it is filed with. -/
structure Filed (slot : UInt64) (a : Aggregate P B) : Prop where
  message : Message link slot a.attestation
  nonempty : (members a.signers).Nonempty
  row : ∀ i ∈ a.signers, ∃ index row, committees.committee slot index = some row ∧ i ∈ row
  bytes : B.fromBytes a.attestation.signature = some a.signature
  held : M.HeldBy a.signature (signingRoot signingDomain a.attestation) (members a.signers)

/-- A bucket of single attestations filed under a slot, each signed by its attester. -/
structure Bucketed (slot : UInt64) (bucket : DataKey P × UInt64) (s : Summed P B) : Prop where
  key : s.attestation.data = bucket.1
  message : Message link slot s.attestation
  nonempty : s.signers.keys ≠ []
  row : ∀ i ∈ s.signers, ∃ row, committees.committee slot bucket.2 = some row ∧ i ∈ row
  single : ∀ (i : UInt64) (σ : B.Signature), s.signers[i]? = some σ →
    M.HeldBy σ (signingRoot signingDomain s.attestation) {i}
  held : M.HeldBy s.signature (signingRoot signingDomain s.attestation) s.signers.keys.toFinset

end Filed

/-! ## Who an attestation resolves to -/

section Resolve

variable {P : Primitives} {att : AttestationResponse P} {committees : EpochCommittees P}

theorem mem_of_mem_selected {bits : List UInt8} {offset : ℕ} {row : List UInt64} {i : UInt64}
    (h : i ∈ selected bits offset row) : i ∈ row := by
  obtain ⟨entry, hentry, hbit⟩ := List.mem_filterMap.mp h
  split at hbit
  · obtain rfl := Option.some.inj hbit
    exact List.fst_mem_of_mem_zipIdx hentry
  · cases hbit

/-- Whoever attests over several committees is in one of them. -/
theorem selectCommittees_row {ks : List ℕ} : ∀ {s : ℕ × List UInt64},
    (∀ i ∈ s.2, ∃ index row, committees.committee att.dataSlot index = some row ∧ i ∈ row) →
      ∀ i ∈ (ks.foldl (selectCommittee att committees) s).2,
        ∃ index row, committees.committee att.dataSlot index = some row ∧ i ∈ row := by
  induction ks with
  | nil => intro s h; exact h
  | cons k ks ih =>
      intro s h
      apply ih
      intro i hi
      unfold selectCommittee at hi
      split at hi
      · split at hi
        · exact h i hi
        · next row hrow =>
            rcases List.mem_append.mp hi with hi | hi
            · exact h i hi
            · exact ⟨_, row, hrow, mem_of_mem_selected hi⟩
      · exact h i hi

/-- **Resolved validators sit in the committees of the slot.** -/
theorem resolve_row {resolved : List UInt64}
    (h : resolveAttestingValidators att committees = .ok resolved) :
    ∀ i ∈ resolved, ∃ index row, committees.committee att.dataSlot index = some row ∧ i ∈ row := by
  unfold resolveAttestingValidators at h
  split at h
  · simp only [Guest.bind_eq_ok, Guest.expect_eq_ok, Guest.pure_eq_ok] at h
    obtain ⟨row, hrow, rfl⟩ := h
    intro i hi
    split at hi
    · next hmem =>
        obtain rfl := List.mem_singleton.mp hi
        exact ⟨_, row, hrow, hmem⟩
    · cases hi
  · split at h
    · simp only [Guest.bind_eq_ok, Guest.expect_eq_ok, Guest.pure_eq_ok] at h
      obtain ⟨row, hrow, rfl⟩ := h
      exact fun i hi => ⟨_, row, hrow, mem_of_mem_selected hi⟩
    · obtain rfl := Guest.pure_eq_ok.mp h
      exact selectCommittees_row (by simp)

/-- A single attestation resolves to its attester, out of the committee it names, or to nobody. -/
theorem resolve_single {single : SingleAttester} {resolved : List UInt64}
    (hsingle : att.singleAttester = some single)
    (h : resolveAttestingValidators att committees = .ok resolved) (hsome : resolved ≠ []) :
    resolved = [single.attesterIndex] ∧ ∃ row,
      committees.committee att.dataSlot single.committeeIndex = some row ∧
        single.attesterIndex ∈ row := by
  unfold resolveAttestingValidators at h
  rw [hsingle] at h
  simp only [Guest.bind_eq_ok, Guest.expect_eq_ok, Guest.pure_eq_ok] at h
  obtain ⟨row, hrow, rfl⟩ := h
  split at hsome
  · next hmem => exact ⟨if_pos hmem, row, hrow, hmem⟩
  · exact absurd rfl hsome

end Resolve

/-! ## Sums of signatures -/

section Sums

variable {P : Primitives} {B : Blst} {M : SignatureModel P B} {signingDomain : P.Bytes32}
  {committees : EpochCommittees P} {link : Link P} {slot : UInt64} {root : P.Bytes32}

/-- Signatures of different validators over one message add up. -/
theorem addSignatures {ι : Type} (signature : ι → B.Signature) (signers : ι → Finset UInt64) :
    ∀ {rest : List ι} {σ : B.Signature} {S : Finset UInt64}, M.HeldBy σ root S →
      (∀ a ∈ rest, M.HeldBy (signature a) root (signers a) ∧ Disjoint S (signers a)) →
      rest.Pairwise (fun a b => Disjoint (signers a) (signers b)) →
        ∃ sum, (rest.map signature).foldlM B.addSignature σ = some sum ∧
          M.HeldBy sum root (rest.foldl (fun S a => S ∪ signers a) S) := by
  intro rest
  induction rest with
  | nil =>
      intro σ S h _ _
      exact ⟨σ, rfl, h⟩
  | cons a rest ih =>
      intro σ S h hrest hpairwise
      obtain ⟨⟨ha, hdisjoint⟩, hrest⟩ := List.forall_mem_cons.mp hrest
      obtain ⟨hothers, hpairwise⟩ := List.pairwise_cons.mp hpairwise
      obtain ⟨mid, hadd, hgroup, hheld⟩ := M.addSignature _ _ h.1 ha.1
      have hmid : M.HeldBy mid root (S ∪ signers a) := by
        refine ⟨hgroup, ?_⟩
        rw [hheld, h.2, ha.2, M.claim_union hdisjoint]
      obtain ⟨sum, hrun, hsum⟩ := ih hmid (fun b hb => ⟨(hrest b hb).1,
        Finset.disjoint_union_left.mpr ⟨(hrest b hb).2, hothers b hb⟩⟩) hpairwise
      refine ⟨sum, ?_, hsum⟩
      rw [List.map_cons, List.foldlM_cons, hadd]
      exact hrun

theorem mem_foldl_union {ι : Type} {signers : ι → Finset UInt64} {i : UInt64} :
    ∀ {rest : List ι} {S : Finset UInt64},
      i ∈ rest.foldl (fun S a => S ∪ signers a) S ↔ i ∈ S ∨ ∃ a ∈ rest, i ∈ signers a := by
  intro rest
  induction rest with
  | nil => simp
  | cons a rest ih =>
      intro S
      rw [List.foldl_cons, ih, Finset.mem_union]
      simp [or_assoc]

/-- Part of a bucket, summed. -/
theorem Bucketed.filed {bucket : DataKey P × UInt64} {s : Summed P B}
    (h : Bucketed M signingDomain committees link slot bucket s) {σ : B.Signature}
    {signers : TreeSet UInt64} (hsigners : ∀ i ∈ signers, i ∈ s.signers)
    (hnonempty : (members signers).Nonempty)
    (hheld : M.HeldBy σ (signingRoot signingDomain s.attestation) (members signers)) :
    Filed M signingDomain committees link slot
      ⟨{ s.attestation with signature := B.toBytes σ }, σ, signers⟩ where
  message := ⟨h.message.slot, h.message.checked, h.message.nobody⟩
  nonempty := hnonempty
  row i hi := ⟨_, h.row i (hsigners i hi)⟩
  bytes := M.fromBytes_toBytes σ
  held := hheld

/-- **What is left of a bucket** is filed like any other aggregate, over its message. -/
theorem Bucketed.residual {bucket : DataKey P × UInt64} {s : Summed P B}
    (h : Bucketed M signingDomain committees link slot bucket s) {covered : TreeSet UInt64}
    {a : Aggregate P B} (ha : s.residual covered = some a) :
    Filed M signingDomain committees link slot a ∧ a.attestation.data = bucket.1 ∧
      ∀ i ∈ a.signers, i ∈ s.signers := by
  unfold Summed.residual at ha
  split at ha
  · -- the whole bucket, under its running total
    obtain rfl := Option.some.inj ha
    have hsigners : ∀ i ∈ TreeSet.ofList s.signers.keys, i ∈ s.signers := by
      intro i hi
      rwa [← mem_members, members_ofList, List.mem_toFinset, TreeMap.mem_keys] at hi
    refine ⟨h.filed hsigners ?_ ?_, h.key, hsigners⟩
    · rw [members_ofList]
      simpa using h.nonempty
    · rw [members_ofList]
      exact h.held
  · split at ha
    · cases ha
    -- some of them: their signatures are added up afresh
    · next first rest hleft =>
        obtain ⟨signature, hsum, hret⟩ := Option.bind_eq_some_iff.mp ha
        obtain rfl := Option.some.inj hret
        have hentry : ∀ entry ∈ first :: rest, s.signers[entry.1]? = some entry.2 := by
          intro entry hentry
          rw [← hleft] at hentry
          exact TreeMap.mem_toList_iff_getElem?_eq_some.mp (List.mem_filter.mp hentry).1
        have hdistinct : (first :: rest).Pairwise fun a b => a.1 ≠ b.1 := by
          rw [← hleft]
          refine (TreeMap.distinct_keys_toList.filter _).imp fun hne heq => hne ?_
          rw [heq]
          exact ReflCmp.compare_self
        have hsigners : ∀ i ∈ TreeSet.ofList ((first :: rest).map Prod.fst), i ∈ s.signers := by
          intro i hi
          rw [← mem_members, members_ofList, List.mem_toFinset] at hi
          obtain ⟨entry, he, rfl⟩ := List.mem_map.mp hi
          rw [TreeMap.mem_iff_isSome_getElem?, hentry entry he]
          rfl
        obtain ⟨hothers, hdistinct⟩ := List.pairwise_cons.mp hdistinct
        obtain ⟨sum, hrun, hheld⟩ := addSignatures Prod.snd (fun entry => {entry.1})
          (h.single _ _ (hentry first List.mem_cons_self))
          (fun entry he => ⟨h.single _ _ (hentry entry (List.mem_cons_of_mem _ he)),
            by simpa using hothers entry he⟩)
          (hdistinct.imp fun hne => by simpa using hne)
        obtain rfl := Option.some.inj (hsum.symm.trans hrun)
        refine ⟨h.filed hsigners ?_ ?_, h.key, hsigners⟩
        · rw [members_ofList]
          exact ⟨first.1, by simp⟩
        · rw [members_ofList]
          convert hheld using 1
          ext i
          rw [mem_foldl_union]
          simp

/-- The root an attestation is signed under depends on its data alone. -/
theorem signingRoot_congr {a b : AttestationWitness P} (h : a.data = b.data) :
    signingRoot signingDomain a = signingRoot signingDomain b := by
  rw [signingRoot, signingRoot, h]

/-- **A single attestation joins its bucket.** -/
theorem Bucketed.sumInto {bucket : DataKey P × UInt64} {attestation : AttestationWitness P}
    {attester : UInt64} {σ : B.Signature} {held : Option (Summed P B)} {running : Summed P B}
    (hheld : ∀ s, held = some s → Bucketed M signingDomain committees link slot bucket s)
    (hkey : attestation.data = bucket.1) (hmessage : Message link slot attestation)
    (hrow : ∃ row, committees.committee slot bucket.2 = some row ∧ attester ∈ row)
    (hσ : M.HeldBy σ (signingRoot signingDomain attestation) {attester})
    (h : SlotStream.sumInto attestation attester σ held = .ok running) :
    Bucketed M signingDomain committees link slot bucket running := by
  cases held with
  | none =>
      obtain rfl := Guest.pure_eq_ok.mp h
      rw [TreeMap.ofList_singleton]
      refine ⟨hkey, hmessage, ?_, ?_, ?_, ?_⟩
      · exact List.ne_nil_of_mem (TreeMap.mem_keys.mpr TreeMap.mem_insert_self)
      · intro i hi
        rcases TreeMap.mem_insert.mp hi with heq | hi
        · rwa [← Std.compare_eq_iff_eq.mp heq]
        · exact absurd hi TreeMap.not_mem_emptyc
      · intro i τ hτ
        rw [TreeMap.getElem?_insert] at hτ
        split at hτ
        · next heq =>
            obtain rfl := Std.compare_eq_iff_eq.mp heq
            obtain rfl := Option.some.inj hτ
            exact hσ
        · rw [TreeMap.getElem?_emptyc] at hτ
          cases hτ
      · show M.HeldBy σ _ _
        rw [keys_insert]
        show M.HeldBy σ _ (∅ ∪ {attester})
        rwa [Finset.empty_union]
  | some s =>
      have hs := hheld s rfl
      have hroot : signingRoot signingDomain attestation = signingRoot signingDomain s.attestation :=
        signingRoot_congr (hkey.trans hs.key.symm)
      simp only [SlotStream.sumInto] at h
      split at h
      -- heard before: the total stays
      · obtain rfl := Guest.pure_eq_ok.mp h
        exact hs
      · next hnew =>
          have hnew : attester ∉ s.signers := hnew
          simp only [Guest.bind_eq_ok, Guest.expect_eq_ok, Guest.pure_eq_ok] at h
          obtain ⟨sum, hsum, rfl⟩ := h
          obtain ⟨sum', hsum', hgroup, hadd⟩ := M.addSignature _ _ hs.held.1 hσ.1
          obtain rfl := Option.some.inj (hsum'.symm.trans hsum)
          refine ⟨hs.key, hs.message, ?_, ?_, ?_, hgroup, ?_⟩
          · exact List.ne_nil_of_mem (TreeMap.mem_keys.mpr TreeMap.mem_insert_self)
          · intro i hi
            rcases TreeMap.mem_insert.mp hi with heq | hi
            · rwa [← Std.compare_eq_iff_eq.mp heq]
            · exact hs.row i hi
          · intro i τ hτ
            rw [TreeMap.getElem?_insert] at hτ
            split at hτ
            · next heq =>
                obtain rfl := Std.compare_eq_iff_eq.mp heq
                obtain rfl := Option.some.inj hτ
                exact hroot ▸ hσ
            · exact hs.single i τ hτ
          · rw [hadd, hs.held.2, hσ.2, keys_insert, M.claim_union, hroot]
            simpa [TreeMap.mem_keys] using hnew

end Sums

/-! ## The stream -/

namespace SlotStream

variable {P : Primitives} [Ord P.Bytes32] {B : Blst}

/-- The FFG link the stream collects attestations for. -/
def link (s : SlotStream P B) : Link P := ⟨s.sourceEpoch, s.sourceRoot, s.targetEpoch, s.targetRoot⟩

/-- **Runs of the collector**: batches of valid attestations arrive, and slots are taken. -/
inductive Fed (valid : AttestationResponse P → Prop) (start : SlotStream P B) :
    SlotStream P B → Prop
  | start : Fed valid start start
  | ingest {s : SlotStream P B} {attestations : List (AttestationResponse P)} :
      Fed valid start s → (∀ att ∈ attestations, valid att) →
      Fed valid start (s.ingest attestations).1
  | forget {s : SlotStream P B} (slot : UInt64) : Fed valid start s →
      Fed valid start (s.forget slot)

variable (M : SignatureModel P B) (signingDomain : P.Bytes32)

/-- **Everything filed is valid.** -/
structure Collected (s : SlotStream P B) : Prop where
  pending : ∀ slot, ∀ a ∈ s.pending.getD slot [],
    Filed M signingDomain s.committees s.link slot a
  summed : ∀ (slot : UInt64) (bucket : DataKey P × UInt64) (running : Summed P B),
    (s.summed.getD slot ∅)[bucket]? = some running →
      Bucketed M signingDomain s.committees s.link slot bucket running

variable {M signingDomain} [TransOrd P.Bytes32] [LawfulEqOrd P.Bytes32] {s s' : SlotStream P B}
  {att : AttestationResponse P}

omit [TransOrd P.Bytes32] [LawfulEqOrd P.Bytes32] in
/-- What the stream accepts is a message of its slot. -/
theorem accepts_message (h : s.accepts att = true) :
    Message s.link att.dataSlot att.attestation := by
  simp only [accepts, Bool.and_eq_true, decide_eq_true_eq] at h
  obtain ⟨⟨⟨⟨htarget, hroot⟩, hsource⟩, hsourceRoot⟩, -⟩ := h
  refine ⟨rfl, ?_, rfl⟩
  simp only [attestationRules, Guest.bind_eq_ok, Guest.assert_eq_ok, exists_const]
  exact ⟨hsource, hsourceRoot, htarget, hroot⟩

theorem Collected.sumSingle (h : Collected M signingDomain s) {attestation : AttestationWitness P}
    {committeeIndex attester : UInt64} {σ : B.Signature}
    (hmessage : Message s.link attestation.dataSlot attestation)
    (hrow : ∃ row, s.committees.committee attestation.dataSlot committeeIndex = some row ∧
      attester ∈ row)
    (hbytes : B.fromBytes attestation.signature = some σ)
    (hσ : M.HeldBy σ (signingRoot signingDomain attestation) {attester})
    (hsum : s.sumSingle attestation committeeIndex attester = .ok s') :
    Collected M signingDomain s' := by
  simp only [SlotStream.sumSingle, Guest.bind_eq_ok, Guest.expect_eq_ok, Guest.pure_eq_ok] at hsum
  obtain ⟨τ, hτ, running, hsum, rfl⟩ := hsum
  obtain rfl := Option.some.inj (hτ.symm.trans hbytes)
  refine ⟨h.pending, fun slot bucket r hr => ?_⟩
  show Bucketed M signingDomain s.committees s.link slot bucket r
  simp only [TreeMap.getD_insert] at hr
  split at hr
  · next heq =>
      obtain rfl := Std.compare_eq_iff_eq.mp heq
      rw [TreeMap.getElem?_insert] at hr
      split at hr
      · next heq =>
          obtain rfl := LawfulEqCmp.eq_of_compare heq
          obtain rfl := Option.some.inj hr
          exact Bucketed.sumInto (fun running hrunning => h.summed _ _ running hrunning) rfl hmessage
            hrow hσ hsum
      · exact h.summed _ _ _ hr
  · exact h.summed _ _ _ hr

omit [TransOrd P.Bytes32] [LawfulEqOrd P.Bytes32] in
theorem Collected.pushAggregate (h : Collected M signingDomain s)
    {attestation : AttestationWitness P} {signers : TreeSet UInt64}
    (hfiled : ∀ σ, B.fromBytes attestation.signature = some σ →
      Filed M signingDomain s.committees s.link attestation.dataSlot ⟨attestation, σ, signers⟩) :
    Collected M signingDomain (s.pushAggregate attestation signers) := by
  unfold SlotStream.pushAggregate
  split
  · exact h
  · next σ hσ =>
      refine ⟨fun slot a ha => ?_, h.summed⟩
      show Filed M signingDomain s.committees s.link slot a
      simp only [TreeMap.getD_insert] at ha
      split at ha
      · next heq =>
          obtain rfl := Std.compare_eq_iff_eq.mp heq
          rcases List.mem_append.mp ha with ha | ha
          · exact h.pending _ a ha
          · obtain rfl := List.mem_singleton.mp ha
            exact hfiled σ hσ
      · exact h.pending slot a ha

/-- One attestation of the loop. -/
theorem Collected.ingestOne (h : Collected M signingDomain s)
    (hvalid : Valid M signingDomain s.committees att) (hone : s.ingestOne att = .ok s') :
    Collected M signingDomain s' := by
  unfold SlotStream.ingestOne at hone
  split at hone
  · next haccepts =>
      have hmessage := accepts_message haccepts
      obtain ⟨resolved, hresolved, hone⟩ := Guest.bind_eq_ok.mp hone
      split at hone
      · obtain rfl := Guest.pure_eq_ok.mp hone
        exact h
      · next hsome =>
          obtain ⟨σ, hbytes, hheld⟩ := hvalid resolved hresolved hsome
          split at hone
          · next single hsingle =>
              obtain ⟨rfl, hrow⟩ := resolve_single hsingle hresolved hsome
              exact h.sumSingle hmessage hrow hbytes hheld hone
          · obtain rfl := Guest.pure_eq_ok.mp hone
            apply h.pushAggregate
            intro τ hτ
            obtain rfl := Option.some.inj (hτ.symm.trans hbytes)
            refine ⟨hmessage, ?_, ?_, hbytes, ?_⟩
            · rw [members_ofList]
              simpa using hsome
            · intro i hi
              rw [← mem_members, members_ofList, List.mem_toFinset] at hi
              exact resolve_row hresolved i hi
            · rw [members_ofList]
              exact hheld
  · obtain rfl := Guest.pure_eq_ok.mp hone
    exact h

theorem Collected.ingest (h : Collected M signingDomain s)
    {attestations : List (AttestationResponse P)}
    (hvalid : ∀ att ∈ attestations, Valid M signingDomain s.committees att) :
    Collected M signingDomain (s.ingest attestations).1 := by
  induction attestations generalizing s with
  | nil => exact h
  | cons att attestations ih =>
      obtain ⟨hatt, hrest⟩ := List.forall_mem_cons.mp hvalid
      rw [SlotStream.ingest]
      cases hone : s.ingestOne att with
      | error e => exact h
      | ok s' =>
          obtain ⟨pending, summed, heq, -⟩ := ingestOne_eq_ok hone
          apply ih (h.ingestOne hatt hone)
          rwa [heq]

omit [LawfulEqOrd P.Bytes32] in
theorem Collected.forget (h : Collected M signingDomain s) (slot : UInt64) :
    Collected M signingDomain (s.forget slot) := by
  constructor
  · intro other a ha
    simp only [SlotStream.forget, TreeMap.getD_erase] at ha
    split at ha
    · cases ha
    · exact h.pending other a ha
  · intro other bucket running hrunning
    simp only [SlotStream.forget, TreeMap.getD_erase] at hrunning
    split at hrunning
    · rw [TreeMap.getElem?_emptyc] at hrunning
      cases hrunning
    · exact h.summed other bucket running hrunning

/-- **Every run of a stream files valid attestations only**, and leaves its epoch alone. -/
theorem Fed.collected {start : SlotStream P B} (hstart : Collected M signingDomain start)
    (h : Fed (Valid M signingDomain start.committees) start s) :
    Collected M signingDomain s ∧ s.committees = start.committees ∧ s.link = start.link ∧
      s.slotsPerEpoch = start.slotsPerEpoch := by
  induction h with
  | start => exact ⟨hstart, rfl, rfl, rfl⟩
  | @ingest s attestations _ hvalid ih =>
      obtain ⟨hs, hcommittees, hlink, hslots⟩ := ih
      have hs' := hs.ingest (hcommittees ▸ hvalid)
      obtain ⟨pending, summed, heq, -⟩ := ingest_eq attestations s
      rw [heq] at hs' ⊢
      exact ⟨hs', hcommittees, hlink, hslots⟩
  | forget slot _ ih =>
      obtain ⟨hs, hcommittees, hlink, hslots⟩ := ih
      exact ⟨hs.forget slot, hcommittees, hlink, hslots⟩

omit [TransOrd P.Bytes32] [LawfulEqOrd P.Bytes32] in
/-- A new stream has nothing filed. -/
theorem new_collected {slotsPerEpoch targetEpoch : UInt64} {committees : EpochCommittees P}
    {targetRoot sourceRoot : P.Bytes32} : Collected M signingDomain
      (new slotsPerEpoch committees targetEpoch targetRoot sourceRoot : SlotStream P B) := by
  constructor
  · intro slot a ha
    cases ha
  · intro slot bucket running h
    cases h

end SlotStream

/-! ## The cover -/

section Pack

variable {P : Primitives} {B : Blst}

/-- Whether two aggregates are over one message and share a signer. -/
def overlaps (a b : Aggregate P B) : Bool :=
  sameData a.attestation b.attestation && a.signers.toList.any b.signers.contains

/-- Take every aggregate that overlaps none of those taken before it. -/
def takeApart (taken : List (Aggregate P B)) : List (Aggregate P B) → List (Aggregate P B)
  | [] => taken
  | a :: rest =>
      if taken.any (overlaps a) then takeApart taken rest else takeApart (taken ++ [a]) rest

/-- What is taken was taken before, or is one of the list. -/
theorem mem_takeApart {a : Aggregate P B} : ∀ {list taken : List (Aggregate P B)},
    a ∈ takeApart taken list → a ∈ taken ∨ a ∈ list
  | [], _, h => .inl h
  | b :: list, taken, h => by
      rw [takeApart] at h
      split at h
      · exact (mem_takeApart h).imp id (List.mem_cons_of_mem b)
      · rcases mem_takeApart h with h | h
        · rcases List.mem_append.mp h with h | h
          · exact .inl h
          · exact .inr (List.mem_singleton.mp h ▸ List.mem_cons_self)
        · exact .inr (List.mem_cons_of_mem b h)

theorem any_contains {s t : TreeSet UInt64} :
    s.toList.any t.contains = true ↔ ∃ i ∈ s, i ∈ t := by
  simp only [List.any_eq_true, TreeSet.mem_toList]
  rfl

variable [Ord P.Bytes32] [TransOrd P.Bytes32] [LawfulEqOrd P.Bytes32]

/-- **A cover packs what was taken**, message by message: the aggregates over one message
are disjoint, and its signers are theirs. -/
structure Packs (byMessage : SlotStream.Cover P B) (taken : List (Aggregate P B)) : Prop where
  entry : ∀ (key : DataKey P) (entry : List (Aggregate P B) × TreeSet UInt64),
    byMessage[key]? = some entry → entry.1 ≠ [] ∧
      (entry.1.Pairwise fun a b => Disjoint (members a.signers) (members b.signers)) ∧
      (∀ a ∈ entry.1, a ∈ taken ∧ a.attestation.data = key) ∧
      ∀ i, i ∈ entry.2 ↔ ∃ a ∈ entry.1, i ∈ a.signers
  taken : ∀ a ∈ taken, ∃ entry : List (Aggregate P B) × TreeSet UInt64,
    byMessage[a.attestation.data]? = some entry ∧ a ∈ entry.1

omit [LawfulEqOrd P.Bytes32] in
/-- An aggregate overlaps what is packed exactly where it overlaps what was taken. -/
theorem Packs.overlaps_iff {byMessage : SlotStream.Cover P B} {taken : List (Aggregate P B)}
    (h : Packs byMessage taken) (a : Aggregate P B) :
    a.signers.toList.any (byMessage.getD a.attestation.data ([], ∅)).2.contains = true ↔
      taken.any (overlaps a) = true := by
  rw [any_contains]
  simp only [List.any_eq_true, overlaps, Bool.and_eq_true, sameData_iff, TreeSet.mem_toList]
  constructor
  · rintro ⟨i, hi, hpacked⟩
    cases hentry : byMessage[a.attestation.data]? with
    | none =>
        rw [TreeMap.getD_eq_getD_getElem?, hentry] at hpacked
        exact absurd hpacked TreeSet.not_mem_emptyc
    | some entry =>
        rw [TreeMap.getD_eq_getD_getElem?, hentry] at hpacked
        obtain ⟨-, -, htaken, hsigners⟩ := h.entry _ _ hentry
        obtain ⟨b, hb, hib⟩ := (hsigners i).mp hpacked
        exact ⟨b, (htaken b hb).1, (htaken b hb).2.symm, i, hi, hib⟩
  · rintro ⟨b, hb, hdata, i, hi, hib⟩
    obtain ⟨entry, hentry, hmem⟩ := h.taken b hb
    rw [← hdata] at hentry
    refine ⟨i, hi, ?_⟩
    rw [TreeMap.getD_eq_getD_getElem?, hentry]
    exact ((h.entry _ _ hentry).2.2.2 i).mpr ⟨b, hmem, hib⟩

/-- One aggregate of the loop. -/
theorem Packs.cover {byMessage : SlotStream.Cover P B} {taken : List (Aggregate P B)}
    (h : Packs byMessage taken) (a : Aggregate P B) :
    Packs (SlotStream.cover byMessage (a.attestation.data, a))
      (if taken.any (overlaps a) then taken else taken ++ [a]) := by
  have hoverlaps := h.overlaps_iff a
  set old := byMessage.getD a.attestation.data ([], ∅) with hold
  have hcover : SlotStream.cover byMessage (a.attestation.data, a) =
      byMessage.insert a.attestation.data (if a.signers.toList.any old.2.contains then old
        else (old.1 ++ [a], old.2.insertMany a.signers.toList)) := by
    rw [apply_ite (byMessage.insert a.attestation.data)]
    rfl
  rw [hcover]
  have hold_entry : ∀ entry : List (Aggregate P B) × TreeSet UInt64,
      byMessage[a.attestation.data]? = some entry → old = entry := by
    intro entry hentry
    rw [hold, TreeMap.getD_eq_getD_getElem?, hentry]
    rfl
  by_cases hany : taken.any (overlaps a) = true
  · -- the aggregate is refused, and its message keeps what it has
    rw [if_pos (hoverlaps.mpr hany), if_pos hany]
    have hkept : byMessage[a.attestation.data]? = some old := by
      cases hentry : byMessage[a.attestation.data]? with
      | none =>
          obtain ⟨i, -, hi⟩ := any_contains.mp (hoverlaps.mpr hany)
          rw [hold, TreeMap.getD_eq_getD_getElem?, hentry] at hi
          exact absurd hi TreeSet.not_mem_emptyc
      | some entry => rw [hold_entry entry hentry]
    have hsame : ∀ key : DataKey P,
        (byMessage.insert a.attestation.data old)[key]? = byMessage[key]? := by
      intro key
      rw [TreeMap.getElem?_insert]
      split
      · next heq =>
          obtain rfl := LawfulEqCmp.eq_of_compare heq
          exact hkept.symm
      · rfl
    constructor
    · intro key entry hentry
      rw [hsame] at hentry
      exact h.entry key entry hentry
    · intro b hb
      rw [hsame]
      exact h.taken b hb
  -- disjoint from all its message has: it goes to the end of both
  · rw [if_neg (fun hno => hany (hoverlaps.mp hno)), if_neg hany]
    have happended : (old.1 ++ [a]).Pairwise
        (fun a b => Disjoint (members a.signers) (members b.signers)) ∧
        (∀ b ∈ old.1, b ∈ taken ∧ b.attestation.data = a.attestation.data) ∧
        ∀ i, i ∈ old.2 ↔ ∃ b ∈ old.1, i ∈ b.signers := by
      cases hentry : byMessage[a.attestation.data]? with
      | none =>
          rw [hold, TreeMap.getD_eq_getD_getElem?, hentry]
          exact ⟨List.pairwise_singleton _ _, by simp, fun i => by simp⟩
      | some entry =>
          obtain ⟨-, hpairwise, htaken, hsigners⟩ := h.entry _ _ hentry
          rw [hold_entry entry hentry] at hoverlaps ⊢
          refine ⟨List.pairwise_append.mpr ⟨hpairwise, List.pairwise_singleton _ _, ?_⟩, htaken,
            hsigners⟩
          intro b hb c hc
          obtain rfl := List.mem_singleton.mp hc
          rw [Finset.disjoint_left]
          intro i hib hic
          rw [mem_members] at hib hic
          apply hany
          rw [← hoverlaps, any_contains]
          exact ⟨i, hic, (hsigners i).mpr ⟨b, hb, hib⟩⟩
    obtain ⟨hpairwise, htaken, hsigners⟩ := happended
    have hself : (byMessage.insert a.attestation.data
        (old.1 ++ [a], old.2.insertMany a.signers.toList))[a.attestation.data]? =
          some (old.1 ++ [a], old.2.insertMany a.signers.toList) :=
      TreeMap.getElem?_insert_self
    constructor
    · intro key entry hentry
      rw [TreeMap.getElem?_insert] at hentry
      split at hentry
      · next heq =>
          obtain rfl := LawfulEqCmp.eq_of_compare heq
          obtain rfl := Option.some.inj hentry
          refine ⟨by simp, hpairwise, ?_, fun i => ?_⟩
          · rw [List.forall_mem_append]
            exact ⟨fun b hb => ⟨List.mem_append_left _ (htaken b hb).1, (htaken b hb).2⟩, by simp⟩
          · rw [← mem_members, members_insertMany, Finset.mem_union, mem_members, hsigners]
            simp [or_and_right, exists_or]
      · obtain ⟨hne, hpairwise, htaken, hsigners⟩ := h.entry key entry hentry
        exact ⟨hne, hpairwise, fun b hb => ⟨List.mem_append_left _ (htaken b hb).1, (htaken b hb).2⟩,
          hsigners⟩
    · rw [List.forall_mem_append]
      constructor
      · intro b hb
        obtain ⟨entry, hentry, hmem⟩ := h.taken b hb
        by_cases heq : a.attestation.data = b.attestation.data
        · rw [← heq] at hentry ⊢
          rw [← hold_entry entry hentry] at hmem
          exact ⟨_, hself, List.mem_append_left _ hmem⟩
        · refine ⟨entry, ?_, hmem⟩
          rw [TreeMap.getElem?_insert, if_neg (fun hcmp => heq (LawfulEqCmp.eq_of_compare hcmp))]
          exact hentry
      · intro b hb
        obtain rfl := List.mem_singleton.mp hb
        exact ⟨_, hself, List.mem_append_right _ hb⟩

/-- **The loop packs what is taken apart.** -/
theorem Packs.foldl : ∀ (list : List (Aggregate P B)) {byMessage : SlotStream.Cover P B}
    {taken : List (Aggregate P B)}, Packs byMessage taken →
      Packs ((list.map fun a => (a.attestation.data, a)).foldl SlotStream.cover byMessage)
        (takeApart taken list)
  | [], _, _, h => h
  | a :: list, byMessage, taken, h => by
      rw [List.map_cons, List.foldl_cons, takeApart]
      have hstep := h.cover a
      split at hstep
      · next hany =>
          rw [if_pos hany]
          exact hstep.foldl list
      · next hany =>
          rw [if_neg hany]
          exact hstep.foldl list

end Pack

end Zkasper
