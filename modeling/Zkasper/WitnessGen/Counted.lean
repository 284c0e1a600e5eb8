import Zkasper.StreamFinal
import Mathlib.Algebra.BigOperators.Fin

/-! # What the circuits count

The balance an accepted run publishes, exactly: every slot's committee less its
absentees, added up as the machine adds, over slots that are all different
(`Counted`). A run of `verify_attestations` counts its slots, and counts over disjoint
masks join. -/

namespace Zkasper

open Slot Bls

variable {P : Primitives} {link : Link P} {signingDomain : P.Bytes32}

/-! ## One slot -/

/-- What a slot counts, as the machine computes it. -/
def SlotComplementWitness.support (slot : SlotComplementWitness P) : UInt64 :=
  slot.committee.balance - (slot.absentees.map (·.activeEffectiveBalance)).foldl (· + ·) 0

/-- Naming a secondary signer leaves the balance alone where it keeps its own. -/
theorem nameSigner_balance {s s' : Count P × PointSum P} {v : OpenedValidator P}
    (h : nameSigner (attestationRules link) s v = .ok s') : s'.1.balance = s.1.balance := by
  simp only [nameSigner, Guest.bind_eq_ok, Guest.expect_eq_ok, Guest.pure_eq_ok] at h
  obtain ⟨primaryKey, -, keys, -, balance, hbalance, rfl⟩ := h
  exact (Guest.pure_eq_ok.mp hbalance).symm

theorem countSecondary_balance {c c' : Count P} {a : AttestationWitness P}
    (h : countSecondary (attestationRules link) signingDomain c a = .ok c') :
    c'.balance = c.balance := by
  simp only [countSecondary, Guest.bind_eq_ok, Guest.expect_eq_ok, Guest.pure_eq_ok] at h
  obtain ⟨⟨mid, keys⟩, hfold, key, -, tally, -, rfl⟩ := h
  exact Guest.foldlM_invariant (fun _ s => s.1.balance = c.balance)
    (fun _ _ _ _ hs hstep => (nameSigner_balance hstep).trans hs) _ _ _ rfl hfold

theorem countAbsentees_balance : ∀ {vs : List (OpenedValidator P)} {c c' : Count P},
    vs.foldlM countAbsentee c = .ok c' → c'.balance.toNat + balanceSum vs = c.balance.toNat := by
  intro vs
  induction vs with
  | nil =>
      intro c c' h
      obtain rfl := Guest.foldlM_nil.mp h
      simp [balanceSum]
  | cons v vs ih =>
      intro c c' h
      obtain ⟨mid, hstep, hrest⟩ := Guest.foldlM_cons.mp h
      simp only [countAbsentee, Guest.bind_eq_ok, Guest.expect_eq_ok, Guest.pure_eq_ok] at hstep
      obtain ⟨primaryKey, -, balance, hbalance, rfl⟩ := hstep
      have hrest' := ih hrest
      rw [← checkedSub_eq_some hbalance, ← hrest']
      simp [balanceSum]
      omega

/-- A sum the machine takes, where it does not wrap. -/
theorem toNat_foldl_add (vs : List UInt64) : ∀ start : UInt64,
    start.toNat + (vs.map UInt64.toNat).sum < 2 ^ 64 →
      (vs.foldl (· + ·) start).toNat = start.toNat + (vs.map UInt64.toNat).sum := by
  induction vs with
  | nil => simp
  | cons v vs ih =>
      intro start hlt
      rw [List.map_cons, List.sum_cons] at hlt ⊢
      have hstart : (start + v).toNat = start.toNat + v.toNat := by
        rw [UInt64.toNat_add]
        exact Nat.mod_eq_of_lt (by omega)
      rw [List.foldl_cons, ih (start + v) (by omega), hstart, Nat.add_assoc]

theorem toNat_foldl_balances (vs : List (OpenedValidator P)) (h : balanceSum vs < 2 ^ 64) :
    ((vs.map OpenedValidator.activeEffectiveBalance).foldl (· + ·) 0).toNat = balanceSum vs := by
  have hmap : ((vs.map OpenedValidator.activeEffectiveBalance).map UInt64.toNat).sum =
      balanceSum vs := by
    rw [List.map_map]
    rfl
  rw [toNat_foldl_add, hmap]
  · exact Nat.zero_add _
  · rw [hmap]
    exact (Nat.zero_add _).trans_lt h

/-- The counted balance of an accepted slot is its support. -/
theorem eq_support {slot : SlotComplementWitness P} {balance : UInt64}
    (h : balance.toNat + balanceSum slot.absentees = slot.committee.balance.toNat) :
    balance = slot.support := by
  have hlt := slot.committee.balance.toNat_lt
  have hsum := toNat_foldl_balances slot.absentees (by omega)
  apply UInt64.toNat_inj.mp
  rw [SlotComplementWitness.support, UInt64.toNat_sub_of_le, hsum]
  · omega
  · rw [UInt64.le_iff_toNat_le, hsum]
    omega

theorem countComplement_support {slot : SlotComplementWitness P} {tally tally' : Tally P}
    {balance : UInt64}
    (h : countComplement (attestationRules link) signingDomain slot tally = .ok (balance, tally')) :
    balance = slot.support ∧ balanceSum slot.absentees ≤ slot.committee.balance.toNat := by
  simp only [countComplement, Guest.bind_eq_ok, Guest.expect_eq_ok, Guest.pure_eq_ok,
    Prod.mk.injEq] at h
  obtain ⟨c, hsecondary, c', habsent, key, -, _, -, rfl, -⟩ := h
  have hkept : c.balance = slot.committee.balance :=
    Guest.foldlM_invariant (fun _ c => c.balance = slot.committee.balance)
      (fun _ _ _ _ hc hstep => (countSecondary_balance hstep).trans hc) _ _ _ rfl hsecondary
  have hbalance := countAbsentees_balance habsent
  rw [hkept] at hbalance
  exact ⟨eq_support hbalance, by omega⟩

/-- A message that is queued opens nobody. -/
theorem pushMessage_opened {rules : Rules P} {aggregates : List (AttestationWitness P)}
    {key : P.G1Point} {t t' : Tally P}
    (h : pushMessage rules signingDomain aggregates key t = .ok t') : t'.opened = t.opened := by
  cases aggregates with
  | nil => cases h
  | cons a aggregates =>
      simp only [pushMessage, Guest.bind_eq_ok, Guest.pure_eq_ok] at h
      obtain ⟨-, -, rfl⟩ := h
      rfl

theorem countSecondary_opened {rules : Rules P} {c c' : Count P} {a : AttestationWitness P}
    (h : countSecondary rules signingDomain c a = .ok c') :
    c'.tally.opened = c.tally.opened ++ a.attestingValidators.map openedLeaf := by
  simp only [countSecondary, Guest.bind_eq_ok, Guest.expect_eq_ok, Guest.pure_eq_ok] at h
  obtain ⟨⟨mid, keys⟩, hfold, key, -, tally, hpush, rfl⟩ := h
  have hrun := Guest.foldlM_invariant
    (fun vs (s : Count P × PointSum P) => s.1.tally.opened ++ vs.map openedLeaf =
      c.tally.opened ++ a.attestingValidators.map openedLeaf)
    (by
      intro v vs s s' hs hstep
      simp only [nameSigner, Guest.bind_eq_ok, Guest.expect_eq_ok, Guest.pure_eq_ok] at hstep
      obtain ⟨primaryKey, -, keys, -, balance, -, rfl⟩ := hstep
      rw [← hs, List.map_cons, List.append_assoc]
      rfl) _ _ _ rfl hfold
  rw [List.map_nil, List.append_nil] at hrun
  exact (pushMessage_opened hpush).trans hrun

/-- **What a slot opens**: everyone it names, in order. -/
theorem countComplement_opened {rules : Rules P} {slot : SlotComplementWitness P}
    {tally tally' : Tally P} {balance : UInt64}
    (h : countComplement rules signingDomain slot tally = .ok (balance, tally')) :
    tally'.opened = tally.opened ++ slot.named.map openedLeaf := by
  simp only [countComplement, Guest.bind_eq_ok, Guest.expect_eq_ok, Guest.pure_eq_ok,
    Prod.mk.injEq] at h
  obtain ⟨c, hsecondary, c', habsent, key, -, tally'', hpush, -, rfl⟩ := h
  have hnamed := Guest.foldlM_invariant
    (fun secondary (c : Count P) => c.tally.opened ++
      (secondary.flatMap (·.attestingValidators)).map openedLeaf =
        tally.opened ++ (slot.secondary.flatMap (·.attestingValidators)).map openedLeaf)
    (by
      intro a secondary c c' hc hstep
      rw [countSecondary_opened hstep, ← hc, List.flatMap_cons, List.map_append,
        List.append_assoc]) _ _ _ rfl hsecondary
  have habsent := Guest.foldlM_invariant
    (fun vs (c' : Count P) => c'.tally.opened ++ vs.map openedLeaf =
      c.tally.opened ++ slot.absentees.map openedLeaf)
    (by
      intro v vs c c' hc hstep
      simp only [countAbsentee, Guest.bind_eq_ok, Guest.expect_eq_ok, Guest.pure_eq_ok] at hstep
      obtain ⟨primaryKey, -, balance, -, rfl⟩ := hstep
      rw [← hc, List.map_cons, List.append_assoc]
      rfl) _ _ _ rfl habsent
  rw [List.flatMap_nil, List.map_nil, List.append_nil] at hnamed
  rw [List.map_nil, List.append_nil] at habsent
  rw [pushMessage_opened hpush, habsent, hnamed, SlotComplementWitness.named, List.map_append,
    List.append_assoc]

/-! ## Counts -/

/-- The numbers of some slots. -/
def slotNumbers (slots : List (SlotComplementWitness P)) : Finset ℕ :=
  (slots.map (·.slotInEpoch.toNat)).toFinset

/-- Parts of different slots are apart. -/
theorem slotNumbers_apart {parts : List (List (SlotComplementWitness P))}
    (h : (parts.flatten.map (·.slotInEpoch.toNat)).Nodup) :
    (parts.map slotNumbers).Pairwise Disjoint := by
  rw [List.map_flatten, List.nodup_flatten, List.pairwise_map] at h
  rw [List.pairwise_map]
  exact h.2.imp fun hdisjoint => List.disjoint_toFinset_iff_disjoint.mpr hdisjoint

/-- Different slots are apart. -/
theorem slots_apart {slots : List (SlotComplementWitness P)}
    (h : (slots.map (·.slotInEpoch.toNat)).Nodup) :
    (slots.map fun slot => ({slot.slotInEpoch.toNat} : Finset ℕ)).Pairwise Disjoint :=
  List.pairwise_map.mpr <| (List.pairwise_map.mp h).imp fun hne =>
    Finset.disjoint_singleton.mpr hne

/-- **What a balance and a mask count**: the supports of some slots, all different. -/
structure Counted (slots : List (SlotComplementWitness P)) (balance mask : UInt64) : Prop where
  balance_eq : balance = (slots.map (·.support)).sum
  mask_eq : slotsOf mask = (slots.map (·.slotInEpoch.toNat)).toFinset
  nodup : (slots.map (·.slotInEpoch.toNat)).Nodup
  le : ∀ slot ∈ slots, balanceSum slot.absentees ≤ slot.committee.balance.toNat

namespace Counted

variable {slots slots' : List (SlotComplementWitness P)} {balance balance' mask mask' : UInt64}

theorem nil : Counted ([] : List (SlotComplementWitness P)) 0 0 where
  balance_eq := rfl
  mask_eq := slotsOf_zero
  nodup := List.nodup_nil
  le := by simp

/-- Counts over different slots join. -/
theorem append (h : Counted slots balance mask) (h' : Counted slots' balance' mask')
    (hdisjoint : Disjoint (slotsOf mask) (slotsOf mask')) :
    Counted (slots ++ slots') (balance + balance') (mask ||| mask') where
  balance_eq := by rw [h.balance_eq, h'.balance_eq, List.map_append, List.sum_append]
  mask_eq := by rw [slotsOf_or, h.mask_eq, h'.mask_eq, List.map_append, List.toFinset_append]
  nodup := by
    rw [List.map_append, List.nodup_append']
    refine ⟨h.nodup, h'.nodup, ?_⟩
    rwa [h.mask_eq, h'.mask_eq, List.disjoint_toFinset_iff_disjoint] at hdisjoint
  le slot hslot := by
    rcases List.mem_append.mp hslot with hslot | hslot
    · exact h.le slot hslot
    · exact h'.le slot hslot

end Counted

/-! ## What a run counts -/

/-- One slot more. -/
theorem attestSlot_counted {s s' : AttestState P} {slot : SlotComplementWitness P}
    (h : attestSlot link signingDomain s slot = .ok s') :
    Counted [slot] slot.support (1 <<< slot.slotInEpoch) ∧
      s'.attestingBalance = s.attestingBalance + slot.support ∧
      s'.slotsMask = s.slotsMask ||| (1 <<< slot.slotInEpoch) ∧
      s'.previousSlot = some slot.slotInEpoch ∧
      ∀ previous, s.previousSlot = some previous → previous.toNat < slot.slotInEpoch.toNat := by
  obtain ⟨support, hcount, hprevious, hlt, hbalance, hmask, -, hlast⟩ := attestSlot_eq_ok h
  obtain ⟨rfl, hle⟩ := countComplement_support hcount
  refine ⟨?_, hbalance, hmask, hlast, hprevious⟩
  exact {
    balance_eq := by simp
    mask_eq := by
      rw [slotsOf_bit (hlt.trans (by decide))]
      rfl
    nodup := List.nodup_singleton _
    le := by simpa using hle }

/-- **The run of the loop** counts its slots, and every one of them comes after what
was counted before. -/
theorem attestSlots_counted : ∀ {slots : List (SlotComplementWitness P)} {s s' : AttestState P},
    slots.foldlM (attestSlot link signingDomain) s = .ok s' →
      ∃ balance mask, Counted slots balance mask ∧
        s'.attestingBalance = s.attestingBalance + balance ∧ s'.slotsMask = s.slotsMask ||| mask ∧
        ∀ previous, s.previousSlot = some previous →
          ∀ slot ∈ slots, previous.toNat < slot.slotInEpoch.toNat := by
  intro slots
  induction slots with
  | nil =>
      intro s s' h
      obtain rfl := Guest.foldlM_nil.mp h
      exact ⟨0, 0, .nil, by simp, by simp, by simp⟩
  | cons slot slots ih =>
      intro s s' h
      obtain ⟨mid, hstep, hrest⟩ := Guest.foldlM_cons.mp h
      obtain ⟨hone, hbalance, hmask, hlast, hprevious⟩ := attestSlot_counted hstep
      obtain ⟨balance, mask, hcounted, hbalance', hmask', hafter⟩ := ih hrest
      have hlater := hafter _ hlast
      have hapart : Disjoint (slotsOf (1 <<< slot.slotInEpoch)) (slotsOf mask) := by
        rw [hone.mask_eq, hcounted.mask_eq, List.disjoint_toFinset_iff_disjoint, List.map_singleton,
          List.singleton_disjoint]
        intro hmem
        obtain ⟨other, hother, heq⟩ := List.mem_map.mp hmem
        have hlt := hlater other hother
        omega
      refine ⟨_, _, hone.append hcounted hapart, ?_, ?_, ?_⟩
      · rw [hbalance', hbalance, UInt64.add_assoc]
      · rw [hmask', hmask, UInt64.or_assoc]
      · intro previous hprev other hother
        rcases List.mem_cons.mp hother with rfl | hother
        · exact hprevious previous hprev
        · exact (hprevious previous hprev).trans (hlater other hother)

/-- What an accepted run of `verify_attestations` counts. -/
theorem verifyAttestations_counted {slots : List (SlotComplementWitness P)} {accRoot : P.Digest}
    {accMultiProof : List P.Digest} {committeeRoot : P.Digest} {committeeMultiProof : List P.Digest}
    {accDepth : ℕ} {a : Attested P}
    (h : verifyAttestations slots accRoot accMultiProof committeeRoot committeeMultiProof link
      signingDomain accDepth = .ok a) : Counted slots a.attestingBalance a.slotsMask := by
  obtain ⟨s, hloop, -, -, -, hbalance, hmask⟩ := verifyAttestations_eq_ok h
  obtain ⟨balance, mask, hcounted, hbalance', hmask', -⟩ := attestSlots_counted hloop
  rw [hbalance, hmask, hbalance', hmask', UInt64.zero_add, UInt64.zero_or]
  exact hcounted

/-! ## What proofs count -/

theorem verifyGroupProofWithDepth_counted {w : SlotProofWitness P} {accDepth : ℕ}
    {out : GroupProofOutput P} (h : verifyGroupProofWithDepth w accDepth = .ok out) :
    Counted w.slots out.attestingBalance out.slotsMask := by
  simp only [verifyGroupProofWithDepth, attest, Guest.bind_eq_ok, Guest.assert_eq_ok,
    Guest.pure_eq_ok, exists_const] at h
  obtain ⟨attested, ⟨-, hrun⟩, rfl⟩ := h
  exact verifyAttestations_counted hrun

theorem verifySlotProofWithDepth_counted {w : SlotProofWitness P} {accDepth : ℕ}
    {out : SlotProofOutput P} (h : verifySlotProofWithDepth w accDepth = .ok out) :
    Counted w.slots out.attestingBalance out.slotsMask := by
  simp only [verifySlotProofWithDepth, attest, Guest.bind_eq_ok, Guest.assert_eq_ok,
    Guest.pure_eq_ok, exists_const] at h
  obtain ⟨attested, ⟨-, hrun⟩, -, rfl⟩ := h
  exact verifyAttestations_counted hrun

/-- A running count is of some slots. -/
def Attested.Counts (a : Attested P) (slots : List (SlotComplementWitness P)) : Prop :=
  Counted slots a.attestingBalance a.slotsMask

section Groups

variable {S : ProofSystem P} {accumulatorCommitment committeeRoot : P.Digest}
  {running running' : Attested P} {slots slots' : List (SlotComplementWitness P)}

/-- One group joins the count. -/
theorem absorbGroups_counts {group : GroupProofOutput P} {proof : List UInt64} {miller : P.Fp12}
    (hrunning : running.Counts slots)
    (hgroup : Counted slots' group.attestingBalance group.slotsMask)
    (h : absorbGroups S accumulatorCommitment committeeRoot link [group] [proof] [miller] running =
      .ok running') : running'.Counts (slots ++ slots') := by
  obtain ⟨mid, hone, hnil⟩ := Guest.foldlM_cons.mp h
  obtain rfl := Guest.foldlM_nil.mp hnil
  simp only [absorbGroup, Guest.bind_eq_ok, Guest.assert_eq_ok, Guest.pure_eq_ok,
    exists_const] at hone
  obtain ⟨_, -, hmask, rfl⟩ := hone
  exact Counted.append hrunning hgroup (slotsOf_disjoint hmask)

/-- The count of an aggregate, none of anything before the first. -/
def CountsAggregate (aggregate : Option (AggregateOutput P))
    (slots : List (SlotComplementWitness P)) : Prop :=
  Counted slots (aggregate.elim 0 (·.attestingBalance)) (aggregate.elim 0 (·.slotsMask))

/-- A fold of one group counts what the aggregate did, and the group. -/
theorem verifyAggregate_counted {w : AggregateWitness P} {out : AggregateOutput P}
    {group : GroupProofOutput P} {proof : List UInt64} {miller : P.Fp12}
    (hprevious : CountsAggregate w.previous slots) (hgroups : w.groups = [group])
    (hproofs : w.groupProofs = [proof]) (hmillers : w.groupMillers = [miller])
    (hgroup : Counted slots' group.attestingBalance group.slotsMask)
    (h : verifyAggregate S w = .ok out) : CountsAggregate (some out) (slots ++ slots') := by
  simp only [verifyAggregate, Guest.bind_eq_ok, Guest.assert_eq_ok, Guest.pure_eq_ok,
    exists_const, hgroups, hproofs, hmillers] at h
  obtain ⟨-, _, -, anchor, -, previous, hinherit, running, hrun, rfl⟩ := h
  have hcounts : previous.Counts slots := by
    unfold inheritPrevious at hinherit
    unfold CountsAggregate at hprevious
    cases hcase : w.previous with
    | none =>
        rw [hcase] at hinherit hprevious
        obtain rfl := Guest.pure_eq_ok.mp hinherit
        exact hprevious
    | some before =>
        rw [hcase] at hinherit hprevious
        simp only [Guest.bind_eq_ok, Guest.assert_eq_ok, exists_const] at hinherit
        obtain ⟨-, -, hbind⟩ := hinherit
        obtain ⟨-, -, -, -, rfl⟩ := bindAggregate_eq_ok hbind
        exact hprevious
  exact absorbGroups_counts hcounts hgroup hrun

/-- The slot proofs of a link join the count one after the other. -/
theorem absorbSlotProofs_counted {w : JustificationWitness P} :
    ∀ {outputs : List (SlotProofOutput P)} {groups : List (List (SlotComplementWitness P))}
      {proofs : List (List UInt64)} {n : ℕ} {running running' : Justified}
      {slots : List (SlotComplementWitness P)}, outputs.length = proofs.length →
      List.Forall₂ (fun group output => Counted group output.attestingBalance output.slotsMask)
        groups outputs →
      Counted slots running.attestingBalance running.slotsMask →
      ((outputs.zip proofs).zipIdx n).foldlM (absorbSlotProof S w committeeRoot) running =
        .ok running' →
      Counted (slots ++ groups.flatten) running'.attestingBalance running'.slotsMask := by
  intro outputs
  induction outputs with
  | nil =>
      intro groups proofs n running running' slots _ hgroups hrunning h
      cases hgroups
      obtain rfl := Guest.foldlM_nil.mp h
      rwa [List.flatten_nil, List.append_nil]
  | cons output outputs ih =>
      intro groups proofs n running running' slots hlength hgroups hrunning h
      obtain _ | ⟨hgroup, hgroups⟩ := hgroups
      cases proofs with
      | nil => cases hlength
      | cons proof proofs =>
          obtain ⟨mid, hone, hrest⟩ := Guest.foldlM_cons.mp h
          simp only [absorbSlotProof, Guest.bind_eq_ok, Guest.assert_eq_ok, Guest.pure_eq_ok,
            exists_const] at hone
          obtain ⟨_, -, -, -, -, -, -, -, hmask, rfl⟩ := hone
          rw [List.flatten_cons, ← List.append_assoc]
          exact ih (Nat.succ.inj hlength) hgroups
            (hrunning.append hgroup (slotsOf_disjoint hmask)) hrest

/-- What a justification counts, none of anything before the first. -/
def CountsJustification (justification : Option (JustificationOutput P))
    (slots : List (SlotComplementWitness P)) : Prop :=
  Counted slots (justification.elim 0 (·.attestingBalance)) (justification.elim 0 (·.slotsMask))

/-- **A link** counts what the chain did, and its slot proofs. -/
theorem verifyJustification_counted {w : JustificationWitness P} {out : JustificationOutput P}
    {groups : List (List (SlotComplementWitness P))} (hprevious : CountsJustification w.previous slots)
    (hgroups : List.Forall₂
      (fun group output => Counted group output.attestingBalance output.slotsMask)
      groups w.slotProofOutputs)
    (h : verifyJustification S w = .ok out) :
    CountsJustification (some out) (slots ++ groups.flatten) := by
  simp only [verifyJustification, Guest.bind_eq_ok, Guest.assert_eq_ok, Guest.pure_eq_ok,
    exists_const] at h
  obtain ⟨-, hlength, -, root, -, previous, hinherit, running, hrun, rfl⟩ := h
  have hcounts : Counted slots previous.attestingBalance previous.slotsMask := by
    unfold inheritJustification at hinherit
    unfold CountsJustification at hprevious
    cases hcase : w.previous with
    | none =>
        rw [hcase] at hinherit hprevious
        obtain rfl := Guest.pure_eq_ok.mp hinherit
        exact hprevious
    | some before =>
        rw [hcase] at hinherit hprevious
        simp only [Guest.bind_eq_ok, Guest.assert_eq_ok, Guest.pure_eq_ok, exists_const] at hinherit
        obtain ⟨-, -, -, -, -, -, -, rfl⟩ := hinherit
        exact hprevious
  exact absorbSlotProofs_counted hlength hgroups hcounts hrun

/-- The final proof starts from what the aggregate counts. -/
theorem inheritAggregate_counts {w : StreamFinalWitness P}
    (haggregate : CountsAggregate w.aggregate slots)
    (h : inheritAggregate S w = .ok running) : running.Counts slots := by
  unfold CountsAggregate at haggregate
  rcases inheritAggregate_eq_ok h with ⟨hnone, rfl⟩ | ⟨out, hsome, -, -, -, -, -, -, rfl⟩
  · rw [hnone] at haggregate
    exact haggregate
  · rw [hsome] at haggregate
    exact haggregate

/-- The inline tail joins the count last. -/
theorem countTail_counts {w : StreamFinalWitness P} {accDepth : ℕ}
    (hrunning : running.Counts slots)
    (h : countTail w committeeRoot accDepth running = .ok running') :
    ∃ mask, Counted (slots ++ w.tail) running'.attestingBalance mask := by
  unfold countTail at h
  split at h
  · next hempty =>
      obtain rfl := Guest.pure_eq_ok.mp h
      rw [hempty, List.append_nil]
      exact ⟨_, hrunning⟩
  · simp only [Guest.bind_eq_ok, Guest.assert_eq_ok, Guest.pure_eq_ok, exists_const] at h
    obtain ⟨tail, htail, hmask, rfl⟩ := h
    exact ⟨_, Counted.append hrunning (verifyAttestations_counted htail) (slotsOf_disjoint hmask)⟩

end Groups

/-! ## Balances that fit -/

/-- What all the committees of an epoch hold together. -/
def committeesBalance (committees : List (Option (CommitteeAggregate P))) : ℕ :=
  (committees.map fun slot => slot.elim 0 (·.balance.toNat)).sum

/-- Different slots hold no more than all of them. -/
theorem sum_committees_le {committees : List (Option (CommitteeAggregate P))}
    {slots : List (SlotComplementWitness P)} (hnodup : (slots.map (·.slotInEpoch.toNat)).Nodup)
    (h : ∀ slot ∈ slots, committees[slot.slotInEpoch.toNat]?.join = some slot.committee) :
    (slots.map (·.committee.balance.toNat)).sum ≤ committeesBalance committees := by
  let held (s : ℕ) : ℕ := committees[s]?.join.elim 0 (·.balance.toNat)
  have hheld : slots.map (·.committee.balance.toNat) =
      (slots.map (·.slotInEpoch.toNat)).map held := by
    rw [List.map_map]
    apply List.map_congr_left
    intro slot hslot
    show _ = Option.elim _ _ _
    rw [h slot hslot]
    rfl
  have hall : committeesBalance committees = ∑ s ∈ Finset.range committees.length, held s := by
    rw [Finset.sum_range, committeesBalance, ← Fin.sum_univ_fun_getElem]
    apply Finset.sum_congr rfl
    intro s _
    show _ = Option.elim _ _ _
    rw [List.getElem?_eq_getElem s.2]
    rfl
  rw [hheld, ← List.sum_toFinset _ hnodup, hall]
  apply Finset.sum_le_sum_of_subset
  intro s hs
  obtain ⟨slot, hslot, rfl⟩ := List.mem_map.mp (List.mem_toFinset.mp hs)
  rw [Finset.mem_range]
  by_contra hge
  have hnone := h slot hslot
  rw [List.getElem?_eq_none (by omega)] at hnone
  cases hnone

theorem toNat_sum : ∀ {vs : List UInt64}, (vs.map UInt64.toNat).sum < 2 ^ 64 →
    vs.sum.toNat = (vs.map UInt64.toNat).sum
  | [], _ => rfl
  | v :: vs, h => by
      rw [List.map_cons, List.sum_cons] at h ⊢
      rw [List.sum_cons, UInt64.toNat_add, toNat_sum (by omega), Nat.mod_eq_of_lt h]

theorem support_toNat {slot : SlotComplementWitness P}
    (h : balanceSum slot.absentees ≤ slot.committee.balance.toNat) :
    slot.support.toNat ≤ slot.committee.balance.toNat := by
  have hlt := slot.committee.balance.toNat_lt
  have hsum := toNat_foldl_balances slot.absentees (by omega)
  rw [SlotComplementWitness.support, UInt64.toNat_sub_of_le]
  · omega
  · rw [UInt64.le_iff_toNat_le, hsum]
    exact h

/-- **A count over committees that fit in 64 bits does not wrap.** -/
theorem Counted.toNat_eq {committees : List (Option (CommitteeAggregate P))}
    {slots : List (SlotComplementWitness P)} {balance mask : UInt64}
    (h : Counted slots balance mask)
    (hcommittees : ∀ slot ∈ slots,
      committees[slot.slotInEpoch.toNat]?.join = some slot.committee)
    (hfits : committeesBalance committees < 2 ^ 64) :
    balance.toNat = (slots.map (·.support.toNat)).sum := by
  have hle : (slots.map (·.support.toNat)).sum ≤ (slots.map (·.committee.balance.toNat)).sum :=
    List.sum_le_sum fun slot hslot => support_toNat (h.le slot hslot)
  have hmap : ((slots.map (·.support)).map UInt64.toNat).sum = (slots.map (·.support.toNat)).sum := by
    rw [List.map_map]
    rfl
  rw [h.balance_eq, toNat_sum, hmap]
  rw [hmap]
  exact (hle.trans (sum_committees_le h.nodup hcommittees)).trans_lt hfits

end Zkasper
