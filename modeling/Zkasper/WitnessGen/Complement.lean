import Zkasper.SlotProof
import Zkasper.WitnessGen.Openings
import Zkasper.WitnessGen.Signatures

/-! # A complement the circuit accepts

`verify_attestations` read the other way round: not what an accepted witness is worth,
but which witnesses are accepted. A witness that splits its committee — everyone named
is named once, each secondary aggregate is signed by the validators it names, and the
primary one by everybody else — goes through every check, and its pairing comes out at
one (`Splits.accepted`). -/

namespace Zkasper.Slot

open Bls SignatureModel

variable {P : Primitives} {B : Blst}

/-- The indices of some named validators. -/
def indices (vs : List (OpenedValidator P)) : Finset UInt64 :=
  (vs.map (·.validatorIndex)).toFinset

@[simp] theorem indices_nil : indices ([] : List (OpenedValidator P)) = ∅ := rfl

@[simp] theorem indices_cons (v : OpenedValidator P) (vs : List (OpenedValidator P)) :
    indices (v :: vs) = insert v.validatorIndex (indices vs) := by
  simp [indices]

@[simp] theorem indices_append (xs ys : List (OpenedValidator P)) :
    indices (xs ++ ys) = indices xs ∪ indices ys := by
  simp [indices]

theorem mem_indices {vs : List (OpenedValidator P)} {i : UInt64} :
    i ∈ indices vs ↔ ∃ v ∈ vs, v.validatorIndex = i := by
  simp [indices]

/-- Who a witness names for a secondary message. -/
def secondarySigners (w : SlotComplementWitness P) : Finset UInt64 :=
  indices (w.secondary.flatMap (·.attestingValidators))

theorem indices_named (w : SlotComplementWitness P) :
    indices w.named = secondarySigners w ∪ indices w.absentees := by
  rw [SlotComplementWitness.named, indices_append, secondarySigners]

variable (M : SignatureModel P B)

/-- **A witness that splits its committee** between the signers of its primary message,
who are left unnamed, the signers of its other messages, and the absentees. -/
structure Splits (link : Link P) (signingDomain : P.Bytes32) (w : SlotComplementWitness P)
    (committee : Finset UInt64) : Prop where
  key : M.KeyOf w.committee.pubkey committee
  keys : ∀ v ∈ w.named, M.KeyOf v.pubkey {v.validatorIndex}
  once : (w.named.map (·.validatorIndex)).Nodup
  subset : indices w.named ⊆ committee
  unnamed : (committee \ indices w.named).Nonempty
  primary : ∃ a, w.primary = [a] ∧ a.attestingValidators = [] ∧
    M.SignedBy a.signature (signingRoot signingDomain a) (committee \ indices w.named)
  secondary : ∀ a ∈ w.secondary, a.attestingValidators ≠ [] ∧
    M.SignedBy a.signature (signingRoot signingDomain a) (indices a.attestingValidators)
  checked : ∀ a ∈ w.attestations, (attestationRules link).checkMessage a = .ok ()
  balance : balanceSum w.absentees ≤ w.committee.balance.toNat

/-- **A witness that divides its committee**: everyone it names is named once, each
secondary aggregate names somebody, and somebody is left unnamed. Nothing is said of the
signatures. -/
structure Divides (link : Link P) (w : SlotComplementWitness P) (committee : Finset UInt64) :
    Prop where
  key : M.KeyOf w.committee.pubkey committee
  keys : ∀ v ∈ w.named, M.KeyOf v.pubkey {v.validatorIndex}
  once : (w.named.map (·.validatorIndex)).Nodup
  subset : indices w.named ⊆ committee
  unnamed : (committee \ indices w.named).Nonempty
  primary : ∃ a, w.primary = [a] ∧ a.attestingValidators = []
  secondary : ∀ a ∈ w.secondary, a.attestingValidators ≠ []
  checked : ∀ a ∈ w.attestations, (attestationRules link).checkMessage a = .ok ()
  balance : balanceSum w.absentees ≤ w.committee.balance.toNat

variable {M}

theorem Splits.divides {link : Link P} {signingDomain : P.Bytes32} {w : SlotComplementWitness P}
    {committee : Finset UInt64} (h : Splits M link signingDomain w committee) :
    Divides M link w committee :=
  have ⟨a, hprimary, hnobody, _⟩ := h.primary
  { key := h.key, keys := h.keys, once := h.once, subset := h.subset, unnamed := h.unnamed
    primary := ⟨a, hprimary, hnobody⟩
    secondary := fun a ha => (h.secondary a ha).1
    checked := h.checked, balance := h.balance }

/-- A message is queued under a key of the validators it is to be signed by. -/
def KeyedTo (M : SignatureModel P B) (signingDomain : P.Bytes32) (a : AttestationWitness P)
    (entry : SignedMessage P × Finset UInt64) : Prop :=
  ∃ key, M.KeyOf key entry.2 ∧ entry.1 = ⟨[key], signingRoot signingDomain a, [a.signature]⟩

/-- What is queued under a key, and signed by whose key it is, is what it claims. -/
theorem KeyedTo.queued {signingDomain : P.Bytes32} {a : AttestationWitness P}
    {entry : SignedMessage P × Finset UInt64} (h : KeyedTo M signingDomain a entry)
    (hsigned : M.SignedBy a.signature (signingRoot signingDomain a) entry.2) :
    M.Queued entry.1 entry.2 := by
  obtain ⟨key, hkey, heq⟩ := h
  rw [heq]
  exact ⟨⟨key, rfl, hkey⟩, a.signature, rfl, hsigned⟩

/-! ## One slot -/

section Count

variable {rules : Rules P} {signingDomain : P.Bytes32} {c : Count P} {R : Finset UInt64}

/-- The signers of a secondary message, all still in the primary sum. -/
theorem nameSigners_accepts (hdrops : rules.dropsSecondary = false) :
    ∀ {vs : List (OpenedValidator P)} {c : Count P} {keys : PointSum P} {R K : Finset UInt64},
      M.Sums c.primaryKey R → M.Sums keys K → (∀ v ∈ vs, M.KeyOf v.pubkey {v.validatorIndex}) →
      (vs.map (·.validatorIndex)).Nodup → indices vs ⊆ R → Disjoint K (indices vs) →
      (R \ indices vs).Nonempty →
        ∃ primaryKey keys', vs.foldlM (nameSigner rules) (c, keys) =
            .ok (⟨c.balance, primaryKey,
              { c.tally with opened := c.tally.opened ++ vs.map openedLeaf }⟩, keys') ∧
          M.Sums primaryKey (R \ indices vs) ∧ M.Sums keys' (K ∪ indices vs) := by
  intro vs
  induction vs with
  | nil =>
      intro c keys R K hR hK _ _ _ _ _
      refine ⟨c.primaryKey, keys, ?_, by simpa using hR, by simpa using hK⟩
      rw [List.map_nil, List.append_nil]
      rfl
  | cons v vs ih =>
      intro c keys R K hR hK hkeys hnodup hsubset hdisjoint hrest
      obtain ⟨hv, hvs⟩ := List.forall_mem_cons.mp hkeys
      obtain ⟨hnew, hnodup⟩ := List.nodup_cons.mp hnodup
      rw [indices_cons] at hsubset hdisjoint hrest ⊢
      obtain ⟨hmem, hsubset⟩ := Finset.insert_subset_iff.mp hsubset
      obtain ⟨hfresh, hdisjoint⟩ := Finset.disjoint_insert_right.mp hdisjoint
      have hv_notMem : v.validatorIndex ∉ indices vs := by simpa [indices] using hnew
      -- whoever is left in the end is somebody else than this signer
      obtain ⟨j, hj⟩ := hrest
      obtain ⟨hjR, hjne⟩ := Finset.mem_sdiff.mp hj
      obtain ⟨hjv, hjvs⟩ := not_or.mp (mt Finset.mem_insert.mpr hjne)
      obtain ⟨primaryKey, hsub, hprimary⟩ := hR.sub hv hmem ⟨j, hjR, hjv⟩
      obtain ⟨keys', hadd, hkeys'⟩ := hK.add hv hfresh
      have hstep : nameSigner rules (c, keys) v = .ok (⟨c.balance, primaryKey,
          { c.tally with opened := c.tally.opened ++ [openedLeaf v] }⟩, keys') := by
        simp only [nameSigner, Guest.bind_eq_ok, Guest.expect_eq_ok, Guest.pure_eq_ok]
        exact ⟨primaryKey, hsub, keys', hadd, c.balance, by simp [dropSigner, hdrops], rfl⟩
      have hsubset' : indices vs ⊆ R.erase v.validatorIndex :=
        Finset.subset_erase.mpr ⟨hsubset, hv_notMem⟩
      have hdisjoint' : Disjoint (insert v.validatorIndex K) (indices vs) :=
        Finset.disjoint_insert_left.mpr ⟨hv_notMem, hdisjoint⟩
      have hrest' : (R.erase v.validatorIndex \ indices vs).Nonempty :=
        ⟨j, Finset.mem_sdiff.mpr ⟨Finset.mem_erase.mpr ⟨hjv, hjR⟩, hjvs⟩⟩
      obtain ⟨primaryKey', keys'', hrun, hprimary', hkeys''⟩ :=
        ih (c := ⟨c.balance, primaryKey, { c.tally with
          opened := c.tally.opened ++ [openedLeaf v] }⟩) hprimary hkeys' hvs hnodup hsubset'
          hdisjoint' hrest'
      refine ⟨primaryKey', keys'', Guest.foldlM_cons.mpr ⟨_, hstep, ?_⟩, ?_, ?_⟩
      · rw [hrun, List.map_cons, List.append_assoc, List.singleton_append]
      · rwa [Finset.sdiff_insert, ← Finset.erase_sdiff_comm]
      · rwa [Finset.insert_union, ← Finset.union_insert] at hkeys''

/-- One secondary message. -/
theorem countSecondary_accepts (signingDomain : P.Bytes32)
    (hdrops : rules.dropsSecondary = false) {a : AttestationWitness P}
    (hcheck : rules.checkMessage a = .ok ()) (hR : M.Sums c.primaryKey R)
    (hkeys : ∀ v ∈ a.attestingValidators, M.KeyOf v.pubkey {v.validatorIndex})
    (hnodup : (a.attestingValidators.map (·.validatorIndex)).Nodup)
    (hsubset : indices a.attestingValidators ⊆ R)
    (hrest : (R \ indices a.attestingValidators).Nonempty) (hnamed : a.attestingValidators ≠ []) :
    ∃ primaryKey m, countSecondary rules signingDomain c a = .ok ⟨c.balance, primaryKey,
        ⟨c.tally.opened ++ a.attestingValidators.map openedLeaf, c.tally.messages ++ [m]⟩⟩ ∧
      M.Sums primaryKey (R \ indices a.attestingValidators) ∧
      KeyedTo M signingDomain a (m, indices a.attestingValidators) := by
  obtain ⟨primaryKey, keys, hrun, hprimary, hsums⟩ := nameSigners_accepts hdrops hR Sums.empty hkeys
    hnodup hsubset (Finset.disjoint_empty_left _) hrest
  rw [Finset.empty_union] at hsums
  have hsome : (indices a.attestingValidators).Nonempty := by
    obtain ⟨v, hv⟩ := List.exists_mem_of_ne_nil _ hnamed
    exact ⟨_, mem_indices.mpr ⟨v, hv, rfl⟩⟩
  obtain ⟨key, hget, hkey⟩ := hsums.get hsome
  refine ⟨primaryKey, ⟨[key], signingRoot signingDomain a, [a.signature]⟩, ?_, hprimary, key, hkey,
    rfl⟩
  simp only [countSecondary, pushMessage, Guest.bind_eq_ok, Guest.expect_eq_ok, Guest.pure_eq_ok]
  exact ⟨_, hrun, key, hget, _, ⟨(), hcheck, rfl⟩, rfl⟩

/-- All the secondary messages of a slot, their signers named once each. -/
theorem countSecondaries_accepts (signingDomain : P.Bytes32)
    (hdrops : rules.dropsSecondary = false) :
    ∀ {secondary : List (AttestationWitness P)} {c : Count P} {R : Finset UInt64},
      (∀ a ∈ secondary, rules.checkMessage a = .ok () ∧ a.attestingValidators ≠ []) →
      M.Sums c.primaryKey R →
      (∀ v ∈ secondary.flatMap (·.attestingValidators), M.KeyOf v.pubkey {v.validatorIndex}) →
      ((secondary.flatMap (·.attestingValidators)).map (·.validatorIndex)).Nodup →
      indices (secondary.flatMap (·.attestingValidators)) ⊆ R →
      (R \ indices (secondary.flatMap (·.attestingValidators))).Nonempty →
        ∃ primaryKey, ∃ queue : List (SignedMessage P × Finset UInt64),
          secondary.foldlM (countSecondary rules signingDomain) c = .ok ⟨c.balance, primaryKey,
            ⟨c.tally.opened ++ (secondary.flatMap (·.attestingValidators)).map openedLeaf,
              c.tally.messages ++ queue.map Prod.fst⟩⟩ ∧
          M.Sums primaryKey (R \ indices (secondary.flatMap (·.attestingValidators))) ∧
          (∀ entry ∈ queue, ∃ a ∈ secondary, entry.2 = indices a.attestingValidators ∧
            KeyedTo M signingDomain a entry) ∧
          queue.map Prod.snd = secondary.map fun a => indices a.attestingValidators := by
  intro secondary
  induction secondary with
  | nil =>
      intro c R _ hR _ _ _ _
      refine ⟨c.primaryKey, [], ?_, by simpa using hR, by simp, rfl⟩
      simp
  | cons a secondary ih =>
      intro c R hsecondary hR hkeys hnodup hsubset hrest
      obtain ⟨⟨hcheck, hnamed⟩, hothers⟩ := List.forall_mem_cons.mp hsecondary
      rw [List.flatMap_cons] at hkeys hnodup hsubset hrest ⊢
      rw [List.map_append] at hnodup
      rw [indices_append] at hsubset hrest ⊢
      obtain ⟨hkeysa, hkeys⟩ := List.forall_mem_append.mp hkeys
      obtain ⟨hnodupa, hnodup, hapart⟩ := List.nodup_append.mp hnodup
      obtain ⟨hsubseta, hsubset⟩ := Finset.union_subset_iff.mp hsubset
      have hdisjoint : Disjoint (indices (secondary.flatMap (·.attestingValidators)))
          (indices a.attestingValidators) := by
        rw [Finset.disjoint_left]
        intro i hi hia
        exact hapart i (List.mem_toFinset.mp hia) i (List.mem_toFinset.mp hi) rfl
      rw [← Finset.sup_eq_union, ← sdiff_sdiff_left] at hrest ⊢
      obtain ⟨mid, m, hstep, hmid, hkeyed⟩ := countSecondary_accepts signingDomain hdrops hcheck hR
        hkeysa hnodupa hsubseta (hrest.mono Finset.sdiff_subset) hnamed
      obtain ⟨primaryKey, queue, hrun, hprimary, hqueue, hsets⟩ :=
        ih (c := ⟨c.balance, mid, ⟨c.tally.opened ++ a.attestingValidators.map openedLeaf,
          c.tally.messages ++ [m]⟩⟩) hothers hmid hkeys hnodup
          (Finset.subset_sdiff.mpr ⟨hsubset, hdisjoint⟩) hrest
      refine ⟨primaryKey, (m, indices a.attestingValidators) :: queue,
        Guest.foldlM_cons.mpr ⟨_, hstep, ?_⟩, hprimary,
        List.forall_mem_cons.mpr ⟨⟨a, List.mem_cons_self, rfl, hkeyed⟩, fun entry hentry => ?_⟩, ?_⟩
      · rw [hrun, List.map_append, List.append_assoc, List.map_cons, List.append_assoc]
        rfl
      · obtain ⟨b, hb, hentry⟩ := hqueue entry hentry
        exact ⟨b, List.mem_cons_of_mem _ hb, hentry⟩
      · rw [List.map_cons, List.map_cons, hsets]

/-- All the absentees of a slot. -/
theorem countAbsentees_accepts : ∀ {vs : List (OpenedValidator P)} {c : Count P} {R : Finset UInt64},
    M.Sums c.primaryKey R → (∀ v ∈ vs, M.KeyOf v.pubkey {v.validatorIndex}) →
    (vs.map (·.validatorIndex)).Nodup → indices vs ⊆ R → (R \ indices vs).Nonempty →
    balanceSum vs ≤ c.balance.toNat →
      ∃ balance primaryKey, vs.foldlM countAbsentee c = .ok ⟨balance, primaryKey,
          { c.tally with opened := c.tally.opened ++ vs.map openedLeaf }⟩ ∧
        M.Sums primaryKey (R \ indices vs) := by
  intro vs
  induction vs with
  | nil =>
      intro c R hR _ _ _ _ _
      refine ⟨c.balance, c.primaryKey, ?_, by simpa using hR⟩
      rw [List.map_nil, List.append_nil]
      rfl
  | cons v vs ih =>
      intro c R hR hkeys hnodup hsubset hrest hbalance
      obtain ⟨hv, hvs⟩ := List.forall_mem_cons.mp hkeys
      obtain ⟨hnew, hnodup⟩ := List.nodup_cons.mp hnodup
      rw [indices_cons, Finset.insert_eq, ← Finset.sup_eq_union, ← sdiff_sdiff_left,
        Finset.sdiff_singleton_eq_erase] at hrest ⊢
      rw [indices_cons] at hsubset
      obtain ⟨hmem, hsubset⟩ := Finset.insert_subset_iff.mp hsubset
      have hv_notMem : v.validatorIndex ∉ indices vs := by simpa [indices] using hnew
      have hcons : balanceSum (v :: vs) = v.activeEffectiveBalance.toNat + balanceSum vs := by
        simp [balanceSum]
      have hle : v.activeEffectiveBalance ≤ c.balance := by
        rw [UInt64.le_iff_toNat_le]
        omega
      obtain ⟨j, hj⟩ := hrest
      obtain ⟨hjR, hjvs⟩ := Finset.mem_sdiff.mp hj
      obtain ⟨hjv, hjR⟩ := Finset.mem_erase.mp hjR
      obtain ⟨primaryKey, hsub, hprimary⟩ := hR.sub hv hmem ⟨j, hjR, hjv⟩
      have hstep : countAbsentee c v = .ok ⟨c.balance - v.activeEffectiveBalance, primaryKey,
          { c.tally with opened := c.tally.opened ++ [openedLeaf v] }⟩ := by
        simp only [countAbsentee, Guest.bind_eq_ok, Guest.expect_eq_ok, Guest.pure_eq_ok]
        exact ⟨primaryKey, hsub, _, if_pos hle, rfl⟩
      obtain ⟨balance, primaryKey', hrun, hprimary'⟩ :=
        ih (c := ⟨c.balance - v.activeEffectiveBalance, primaryKey, { c.tally with
          opened := c.tally.opened ++ [openedLeaf v] }⟩) hprimary hvs hnodup
          (Finset.subset_erase.mpr ⟨hsubset, hv_notMem⟩) ⟨j, hj⟩ (by
            show _ ≤ (c.balance - v.activeEffectiveBalance).toNat
            rw [UInt64.toNat_sub_of_le _ _ hle]
            omega)
      refine ⟨balance, primaryKey', Guest.foldlM_cons.mpr ⟨_, hstep, ?_⟩, hprimary'⟩
      rw [hrun, List.map_cons, List.append_assoc, List.singleton_append]

end Count

/-- Validators named once sign one message each. -/
theorem pairwise_indices {secondary : List (AttestationWitness P)}
    (h : ((secondary.flatMap (·.attestingValidators)).map (·.validatorIndex)).Nodup) :
    (secondary.map fun a => indices a.attestingValidators).Pairwise Disjoint := by
  rw [List.map_flatMap, List.nodup_flatMap] at h
  rw [List.pairwise_map]
  refine h.2.imp fun hapart => ?_
  rw [Finset.disjoint_left]
  intro i hi hi'
  exact hapart (List.mem_toFinset.mp hi) (List.mem_toFinset.mp hi')

section Accepted

variable {link : Link P} {signingDomain : P.Bytes32} {w : SlotComplementWitness P}
  {committee : Finset UInt64}

/-- **One slot is counted**: everyone it names is queued to be opened, its secondary
messages under the keys of whom they name, and its primary one under everybody else's. -/
theorem Divides.countComplement (h : Divides M link w committee) (signingDomain : P.Bytes32)
    (tally : Tally P) :
    ∃ balance, ∃ queue : List (SignedMessage P × Finset UInt64), ∃ last : SignedMessage P,
      countComplement (attestationRules link) signingDomain w tally = .ok (balance,
        ⟨tally.opened ++ w.named.map openedLeaf,
          tally.messages ++ queue.map Prod.fst ++ [last]⟩) ∧
      (∀ entry ∈ queue, ∃ a ∈ w.secondary, entry.2 = indices a.attestingValidators ∧
        KeyedTo M signingDomain a entry) ∧
      queue.map Prod.snd = (w.secondary.map fun a => indices a.attestingValidators) ∧
      ∀ a, w.primary = [a] → KeyedTo M signingDomain a (last, committee \ indices w.named) := by
  obtain ⟨first, hprimary, -⟩ := h.primary
  have hkeys := h.keys
  have honce := h.once
  have hsubset := h.subset
  have hunnamed := h.unnamed
  rw [SlotComplementWitness.named] at hkeys honce hsubset hunnamed ⊢
  rw [List.map_append] at honce
  rw [indices_append] at hsubset hunnamed ⊢
  obtain ⟨hkeys, hkeys'⟩ := List.forall_mem_append.mp hkeys
  obtain ⟨honce, honce', hapart⟩ := List.nodup_append.mp honce
  obtain ⟨hsubset, hsubset'⟩ := Finset.union_subset_iff.mp hsubset
  have hdisjoint : Disjoint (indices w.absentees)
      (indices (w.secondary.flatMap (·.attestingValidators))) := by
    rw [Finset.disjoint_left]
    intro i hi hi'
    exact hapart i (List.mem_toFinset.mp hi') i (List.mem_toFinset.mp hi) rfl
  have hchecked : ∀ a ∈ w.secondary, (attestationRules link).checkMessage a = .ok () :=
    fun a ha => h.checked a (List.mem_append_right _ ha)
  rw [← Finset.sup_eq_union, ← sdiff_sdiff_left] at hunnamed ⊢
  have hdrops : (attestationRules link).dropsSecondary = false := rfl
  obtain ⟨mid, queue, hrun, hmid, hqueue, hsets⟩ := countSecondaries_accepts signingDomain
    (c := ⟨w.committee.balance, PointSum.fromPoint w.committee.pubkey, tally⟩) hdrops
    (fun a ha => ⟨hchecked a ha, h.secondary a ha⟩) h.key hkeys honce hsubset
    (hunnamed.mono Finset.sdiff_subset)
  obtain ⟨balance, primaryKey, hrun', hleft⟩ := countAbsentees_accepts
    (c := ⟨w.committee.balance, mid,
      ⟨tally.opened ++ (w.secondary.flatMap (·.attestingValidators)).map openedLeaf,
        tally.messages ++ queue.map Prod.fst⟩⟩) hmid hkeys' honce'
    (Finset.subset_sdiff.mpr ⟨hsubset', hdisjoint⟩) hunnamed h.balance
  -- somebody is unnamed, so the key that is left is a point
  obtain ⟨key, hget, hkey⟩ := hleft.get hunnamed
  have hcheck := h.checked first (List.mem_append_left _ (hprimary ▸ List.mem_singleton_self _))
  refine ⟨balance, queue, ⟨[key], signingRoot signingDomain first, [first.signature]⟩, ?_, hqueue,
    hsets, ?_⟩
  · simp only [Slot.countComplement, Guest.bind_eq_ok, Guest.expect_eq_ok, Guest.pure_eq_ok]
    refine ⟨_, hrun, _, hrun', key, hget, _, ?_, rfl⟩
    rw [hprimary, pushMessage, Guest.bind_eq_ok]
    refine ⟨(), hcheck, ?_⟩
    rw [List.map_append, List.append_assoc]
    rfl
  · intro a ha
    obtain rfl := List.singleton_injective (hprimary.symm.trans ha)
    exact ⟨key, hkey, rfl⟩

/-- **One slot's messages** are each signed by whom they name, and nobody signs two. -/
theorem Splits.countComplement (h : Splits M link signingDomain w committee) (tally : Tally P) :
    ∃ balance, ∃ queue : List (SignedMessage P × Finset UInt64),
      countComplement (attestationRules link) signingDomain w tally = .ok (balance,
        ⟨tally.opened ++ w.named.map openedLeaf, tally.messages ++ queue.map Prod.fst⟩) ∧
      queue ≠ [] ∧ (∀ entry ∈ queue, M.Queued entry.1 entry.2 ∧ entry.2.Nonempty) ∧
      queue.Pairwise fun a b => Disjoint a.2 b.2 := by
  obtain ⟨balance, queue, last, hcount, hqueue, hsets, hlast⟩ :=
    h.divides.countComplement signingDomain tally
  obtain ⟨first, hprimary, -, hsigned⟩ := h.primary
  refine ⟨balance, queue ++ [(last, committee \ indices w.named)], ?_, by simp, ?_, ?_⟩
  · rw [hcount, List.map_append, List.append_assoc]
    rfl
  · rw [List.forall_mem_append]
    constructor
    · intro entry hentry
      obtain ⟨a, ha, hset, hkeyed⟩ := hqueue entry hentry
      obtain ⟨hnamed, hsigned⟩ := h.secondary a ha
      obtain ⟨v, hv⟩ := List.exists_mem_of_ne_nil _ hnamed
      exact ⟨hkeyed.queued (hset ▸ hsigned), hset ▸ ⟨_, mem_indices.mpr ⟨v, hv, rfl⟩⟩⟩
    · intro entry hentry
      obtain rfl := List.mem_singleton.mp hentry
      exact ⟨(hlast first hprimary).queued hsigned, h.unnamed⟩
  · have honce := h.once
    rw [SlotComplementWitness.named, List.map_append] at honce
    rw [← List.pairwise_map (R := Disjoint), List.map_append, hsets]
    refine List.pairwise_append.mpr ⟨pairwise_indices (List.nodup_append.mp honce).1,
      List.pairwise_singleton _ _, ?_⟩
    -- whoever signs a secondary message is taken out of the committee
    intro S hS T hT
    obtain rfl := List.mem_singleton.mp hT
    obtain ⟨a, ha, rfl⟩ := List.mem_map.mp hS
    rw [Finset.disjoint_left]
    intro i hi hi'
    obtain ⟨v, hv, rfl⟩ := mem_indices.mp hi
    apply (Finset.mem_sdiff.mp hi').2
    rw [SlotComplementWitness.named, indices_append]
    exact Finset.mem_union_left _
      (mem_indices.mpr ⟨v, List.mem_flatMap.mpr ⟨a, ha, hv⟩, rfl⟩)

/-- **A witness that splits its committee is accepted**, out of trees that hold what it
opens: the circuit returns, and the pairing comes out at one. -/
theorem Splits.accepted {validators : List ValidatorResponse} {slotsPerEpoch balanceEpoch : UInt64}
    {committees : EpochCommittees P} {tree : AccTree P} {named : List ℕ}
    (h : Splits M link signingDomain w committee)
    (hcommittees : committees.OfRegistry validators slotsPerEpoch balanceEpoch)
    (haggregate : committees.aggregate w.slotInEpoch = some w.committee)
    (htree : tree.Holds (hostContents P validators balanceEpoch).digest)
    (hfits : validators.length ≤ 2 ^ tree.denseDepth)
    (hleaf : ∀ v ∈ w.named, hostContents P validators balanceEpoch v.validatorIndex.toNat =
      some ⟨v.pubkey, v.activeEffectiveBalance⟩)
    (hnamed : ∀ k, k ∈ named ↔ ∃ v ∈ w.named, v.validatorIndex.toNat = k) :
    ∃ a, verifyAttestations [w] tree.root (tree.buildMultiProof named) committees.root
        (committees.multiProof [w.slotInEpoch]) link signingDomain tree.depth = .ok a ∧
      P.finalExpIsOne a.miller = true := by
  obtain ⟨balance, queue, hcount, hne, hqueue, hpairwise⟩ := h.countComplement ⟨[], []⟩
  obtain ⟨f, hmiller, hone⟩ := millerAccumulator_accepts hne hqueue hpairwise
  obtain ⟨hslot, hcommittee⟩ := hcommittees.openCommittees haggregate
  have hnamed_openings : openNamed (w.named.map openedLeaf) tree.root (tree.buildMultiProof named)
      tree.depth = .ok () := by
    apply htree.openNamed _ h.once _ hnamed
    · intro v hv
      rw [Contents.digest, hleaf v hv]
    · intro v hv
      exact (lt_length_of_contentsBy (hleaf v hv)).trans_le hfits
  have hprimary : ∃ first, checkPrimary w = .ok first := by
    obtain ⟨first, hprimary, hnobody, -⟩ := h.primary
    refine ⟨first, ?_⟩
    simp [checkPrimary, hprimary, hnobody, Guest.assert, bind, Except.bind, pure, Except.pure]
  obtain ⟨first, hprimary⟩ := hprimary
  refine ⟨⟨0 + balance, (0 : UInt64) ||| (1 <<< w.slotInEpoch), f⟩, ?_, hone⟩
  simp only [verifyAttestations, Guest.bind_eq_ok, Guest.pure_eq_ok, Guest.expect_eq_ok]
  refine ⟨⟨0 + balance, (0 : UInt64) ||| (1 <<< w.slotInEpoch),
      ⟨w.named.map openedLeaf, queue.map Prod.fst⟩, _, some w.slotInEpoch⟩,
    Guest.foldlM_cons.mpr ⟨_, ?_, Guest.foldlM_nil.mpr rfl⟩, (), hnamed_openings, (),
    hcommittee, f, hmiller, rfl⟩
  simp only [attestSlot, checkIncreasing, Guest.bind_eq_ok, Guest.pure_eq_ok, Guest.assert_eq_ok]
  exact ⟨(), trivial, (), hslot, first, hprimary, _, hcount, rfl⟩

end Accepted

end Zkasper.Slot
