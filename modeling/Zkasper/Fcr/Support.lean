import Zkasper.Fcr.Batch
import Zkasper.Keyring

/-! # Whose support a batch publishes

A batch counts a slot as its committee less everyone named, and nothing says that
the named are of the committee, or what the secondary messages say. What rules out
inflation is the pairing: for the primary message of a slot the accumulator claims
every member of the committee that is not named, one time for each, and any
secondary signers on top. A member who did not sign must cancel, so it was named;
and a validator is named once in the whole batch.

`verifyFcrBatchWithDepth_support` sums this over the validators. -/

namespace Zkasper.Fcr

open Bls Ssz Merkle Slot

variable {P : Primitives}

/-! ## The slots that count -/

/-- The canonical head at position `j`: the last header up to it, or the head it started from. -/
def headAt (headRoot : P.Bytes32) (entries : List (FcrSlotWitness P)) (j : ℕ) : P.Bytes32 :=
  (entries.take (j + 1)).foldl extendHead headRoot

/-- Whether the slot's primary message votes for this head. -/
def votesFor (headRoot : P.Bytes32) (entry : FcrSlotWitness P) : Bool :=
  entry.complement.primary.head?.any fun first => first.dataBeaconBlockRoot = headRoot

/-- The slots whose primary message votes for the canonical head. -/
def canonicalSlots : P.Bytes32 → List (FcrSlotWitness P) → List (SlotComplementWitness P)
  | _, [] => []
  | headRoot, entry :: entries =>
      let rest := canonicalSlots (extendHead headRoot entry) entries
      if votesFor (extendHead headRoot entry) entry then entry.complement :: rest else rest

theorem canonicalSlots_cons (headRoot : P.Bytes32) (entry : FcrSlotWitness P)
    (entries : List (FcrSlotWitness P)) :
    canonicalSlots headRoot (entry :: entries) =
      if votesFor (extendHead headRoot entry) entry then
        entry.complement :: canonicalSlots (extendHead headRoot entry) entries
      else canonicalSlots (extendHead headRoot entry) entries := rfl

theorem canonicalSlots_sublist : ∀ (headRoot : P.Bytes32) (entries : List (FcrSlotWitness P)),
    (canonicalSlots headRoot entries).Sublist (entries.map (·.complement))
  | _, [] => List.Sublist.slnil
  | headRoot, entry :: entries => by
      have ih := canonicalSlots_sublist (extendHead headRoot entry) entries
      rw [canonicalSlots_cons]
      split
      · exact ih.cons_cons _
      · exact ih.cons _

theorem votesFor_eq_true {headRoot : P.Bytes32} {entry : FcrSlotWitness P} :
    votesFor headRoot entry = true ↔ ∃ first, entry.complement.primary.head? = some first ∧
      first.dataBeaconBlockRoot = headRoot := by
  simp [votesFor, Option.any_eq_true]

theorem mem_canonicalSlots {slot : SlotComplementWitness P} :
    ∀ {headRoot : P.Bytes32} {entries : List (FcrSlotWitness P)},
      slot ∈ canonicalSlots headRoot entries →
        ∃ j entry first, entries[j]? = some entry ∧ slot = entry.complement ∧
          slot.primary.head? = some first ∧
          first.dataBeaconBlockRoot = headAt headRoot entries j
  | _, [], h => by cases h
  | headRoot, entry :: entries, h => by
      have htail : slot ∈ canonicalSlots (extendHead headRoot entry) entries →
          ∃ j e first, (entry :: entries)[j]? = some e ∧ slot = e.complement ∧
            slot.primary.head? = some first ∧
            first.dataBeaconBlockRoot = headAt headRoot (entry :: entries) j := by
        intro h
        obtain ⟨j, e, first, he, rfl, hfirst, hvote⟩ := mem_canonicalSlots h
        exact ⟨j + 1, e, first, he, rfl, hfirst, hvote⟩
      rw [canonicalSlots_cons] at h
      split at h
      · next hvotes =>
          rcases List.mem_cons.mp h with rfl | h
          · obtain ⟨first, hfirst, hvote⟩ := votesFor_eq_true.mp hvotes
            exact ⟨0, entry, first, rfl, rfl, hfirst, hvote⟩
          · exact htail h
      · exact htail h

/-! ## What an accepted loop collected -/

/-- One slot adds what it counts to one of the two sums, or to neither. -/
theorem countSlot_support (M : KeyModel P) {signingDomain : P.Bytes32} {s s' : BatchState P}
    {entry : FcrSlotWitness P} (h : countSlot signingDomain s entry = .ok s') :
    s'.support.toNat + s'.emptySlotSupport.toNat ≤ s.support.toNat + s.emptySlotSupport.toNat +
      if votesFor s'.headRoot entry then counted batchRules entry.complement else 0 := by
  obtain ⟨first, balance, hfirst, hcount, -, -, -, -, hsupport, hempty, -⟩ := countSlot_eq_ok h
  obtain ⟨-, -, -, -, hbalance, -⟩ := countComplement_spec (M := M) hcount
  have hcounted : counted batchRules entry.complement = balance.toNat := by
    unfold counted
    omega
  have hvotes : votesFor s'.headRoot entry = decide (first.dataBeaconBlockRoot = s'.headRoot) := by
    simp [votesFor, hfirst]
  rw [hsupport, hempty, hvotes, hcounted]
  have := toNat_add_le s.support balance
  have := toNat_add_le s.emptySlotSupport balance
  by_cases hvote : first.dataBeaconBlockRoot = s'.headRoot
  · by_cases hheader : entry.headHeader.isSome <;>
      simp only [hvote, hheader, decide_true, true_and, if_true, if_false, not_true_eq_false,
        not_false_eq_true, Bool.false_eq_true] <;> omega
  · simp [hvote]

/-- **The run of the loop**: everyone named is queued for opening, every slot for
its committee, the messages claim what the slots claim, and the two sums hold at
most what the canonical slots count. -/
theorem countSlots_spec (M : KeyModel P) {signingDomain : P.Bytes32} :
    ∀ {entries : List (FcrSlotWitness P)} {s s' : BatchState P},
      entries.foldlM (countSlot signingDomain) s = .ok s' →
        s'.tally.opened = s.tally.opened ++
            (entries.flatMap (·.complement.named)).map openedLeaf ∧
          s'.committeeLeaves = s.committeeLeaves ++ entries.map (fun entry =>
            (Committee.leaf entry.complement.committee, entry.complement.slotInEpoch.toNat)) ∧
          M.messageClaims s'.tally.messages = M.messageClaims s.tally.messages +
            slotsClaims M signingDomain (entries.map (·.complement)) ∧
          (∀ entry ∈ entries, balanceSum (dropped batchRules entry.complement) ≤
            entry.complement.committee.balance.toNat) ∧
          s'.support.toNat + s'.emptySlotSupport.toNat ≤
            s.support.toNat + s.emptySlotSupport.toNat +
              ((canonicalSlots s.headRoot entries).map (counted batchRules)).sum := by
  intro entries
  induction entries with
  | nil =>
      intro s s' h
      obtain rfl := Guest.foldlM_nil.mp h
      simp [canonicalSlots]
  | cons entry entries ih =>
      intro s s' h
      obtain ⟨mid, hstep, hrest⟩ := Guest.foldlM_cons.mp h
      obtain ⟨first, balance, hfirst, hcount, -, -, -, hhead, -, -, hleaves, -⟩ :=
        countSlot_eq_ok hstep
      obtain ⟨first', hfirst', hopened, hclaims, hbalance, -, -⟩ :=
        countComplement_spec (M := M) hcount
      obtain rfl := Option.some.inj (hfirst.symm.trans hfirst')
      obtain ⟨ihopened, ihleaves, ihclaims, ihbalance, ihsupport⟩ := ih hrest
      refine ⟨?_, ?_, ?_, ?_, ?_⟩
      · rw [ihopened, hopened, List.flatMap_cons, List.map_append, List.append_assoc]
      · rw [ihleaves, hleaves, List.map_cons, List.append_assoc, List.singleton_append]
      · rw [ihclaims, hclaims, List.map_cons, slotsClaims_cons, hfirst, Option.elim_some,
          add_assoc]
      · exact List.forall_mem_cons.mpr ⟨by omega, ihbalance⟩
      · have hle := countSlot_support M hstep
        rw [hhead] at hle ihsupport
        rw [canonicalSlots_cons]
        split
        · next hvotes =>
            rw [if_pos hvotes] at hle
            rw [List.map_cons, List.sum_cons]
            omega
        · next hvotes =>
            rw [if_neg hvotes] at hle
            omega

/-- The slots of an accepted batch take different positions. -/
theorem countBatch_nodup {w : FcrBatchWitness P} {accDepth : ℕ} {s : BatchState P}
    (h : countBatch w accDepth = .ok s) :
    ((w.slots.map (·.complement)).map (·.slotInEpoch)).Nodup := by
  obtain ⟨base, -, hpos⟩ := countBatch_positions h
  rw [List.map_map, List.Nodup, List.pairwise_map, List.pairwise_iff_getElem]
  intro i j hi hj hlt heq
  obtain ⟨e, he, hslot, -⟩ := hpos i hi
  obtain ⟨e', he', hslot', -⟩ := hpos j hj
  obtain rfl := Option.some.inj ((List.getElem?_eq_getElem hi).symm.trans he)
  obtain rfl := Option.some.inj ((List.getElem?_eq_getElem hj).symm.trans he')
  simp only [Function.comp_apply] at heq
  rw [heq] at hslot
  omega

/-- Every slot of an accepted batch lies in the committee tree, and its primary
message is for its position. -/
theorem countBatch_entry {w : FcrBatchWitness P} {accDepth : ℕ} {s : BatchState P}
    (h : countBatch w accDepth = .ok s) {entry : FcrSlotWitness P} (hentry : entry ∈ w.slots) :
    entry.complement.slotInEpoch.toNat < Committee.maxSlots ∧
      ∃ first, entry.complement.primary.head? = some first ∧
        first.dataSlot % slotsPerEpoch = entry.complement.slotInEpoch := by
  obtain ⟨base, hmax, hpos⟩ := countBatch_positions h
  obtain ⟨i, hi, rfl⟩ := List.getElem_of_mem hentry
  obtain ⟨entry', hentry', hslot, first, hfirst, hmod⟩ := hpos i hi
  obtain rfl := Option.some.inj ((List.getElem?_eq_getElem hi).symm.trans hentry')
  refine ⟨?_, first, ?_, ?_⟩
  · unfold Committee.maxSlots Committee.treeDepth
    omega
  · rwa [FcrBatchWitness.primaryAt, hentry', Option.bind_some] at hfirst
  · rw [← UInt64.toNat_inj, hslot, ← hmod, UInt64.toNat_mod]
    rfl

theorem countBatch_data {w : FcrBatchWitness P} {accDepth : ℕ} {s : BatchState P}
    (h : countBatch w accDepth = .ok s) :
    ∀ slot ∈ w.slots.map (·.complement), ∀ first, slot.primary.head? = some first →
      first.dataSlot % slotsPerEpoch = slot.slotInEpoch := by
  intro slot hslot first hfirst
  obtain ⟨entry, hentry, rfl⟩ := List.mem_map.mp hslot
  obtain ⟨-, first', hfirst', hmod⟩ := countBatch_entry h hentry
  obtain rfl := Option.some.inj (hfirst.symm.trans hfirst')
  exact hmod

section Accepted

variable {M : KeyModel P} {d : ℕ} {t : Contents P}
  {committees : List (Option (CommitteeAggregate P))} {signingDomain : P.Bytes32}

/-- **What an accepted batch proves**, before anything is summed: its slots are
checked against the accumulator and the committee tree, and whoever they claim
signed. -/
theorem countBatch_spec (hP : CollisionFree P) (M : KeyModel P) {w : FcrBatchWitness P}
    {s : BatchState P} (h : countBatch w d = .ok s) (hacc : w.accRoot = t.accRoot d)
    (hroot : Committee.root committees = .ok w.committeeRoot) :
    (∀ slot ∈ w.slots.map (·.complement), Checked d t committees batchRules slot) ∧
      (∀ m k, slotsClaims M w.signingDomain (w.slots.map (·.complement)) m k ≠ 0 →
        M.Signed k m) ∧
      s.support.toNat + s.emptySlotSupport.toNat ≤
        ((canonicalSlots w.parentHeadRoot w.slots).map (counted batchRules)).sum := by
  obtain ⟨-, hloop, hopened, hcommittees, f, hf, hone⟩ := countBatch_eq_ok h
  obtain ⟨hnamed, hleaves, hclaims, hbalance, hsupport⟩ := countSlots_spec M hloop
  rw [hnamed, hacc] at hopened
  have hopen := (openNamed_spec hP hopened).1
  have hlt : ∀ slot ∈ w.slots.map (·.complement), slot.slotInEpoch.toNat < Committee.maxSlots := by
    intro slot hslot
    obtain ⟨entry, hentry, rfl⟩ := List.mem_map.mp hslot
    exact (countBatch_entry h hentry).1
  have hcommittee := openCommittees_spec hP hroot hlt (by
    rw [List.map_map]
    simpa [hleaves, BatchState.start, Function.comp_def] using hcommittees)
  refine ⟨fun slot hslot => ?_, fun m k hne => ?_, by simpa [BatchState.start] using hsupport⟩
  · obtain ⟨entry, hentry, rfl⟩ := List.mem_map.mp hslot
    exact {
      opened := fun v hv => hopen v (List.mem_flatMap.mpr ⟨entry, hentry, hv⟩)
      committee := hcommittee _ hslot
      balance := hbalance entry hentry }
  · -- the final exponentiation came out at one, so whoever the accumulator claims has signed
    apply (M.finalExpIsOne_iff f).mp hone m k
    rw [M.millerAccumulator_claims hf, hclaims]
    simpa [BatchState.start] using hne

/-! ## Who is claimed -/

/-- Slots with another primary message claim nothing negative for `m`. -/
theorem slotsClaims_nonneg (K : Keyring M d t) {m : P.Bytes32} {i : ℕ} (hi : i < 2 ^ d)
    (hocc : (t i).isSome) : ∀ {slots : List (SlotComplementWitness P)},
      (∀ slot ∈ slots, Opened d t slot.named ∧
        ∀ first, slot.primary.head? = some first → signingRoot signingDomain first ≠ m) →
        0 ≤ slotsClaims M signingDomain slots m (K.owner i)
  | [], _ => le_rfl
  | slot :: slots, h => by
      obtain ⟨⟨hslot, hmessage⟩, hslots⟩ := List.forall_mem_cons.mp h
      have ih := slotsClaims_nonneg K hi hocc hslots
      have hsecondary : 0 ≤ secondaryClaims M signingDomain slot.secondary m (K.owner i) :=
        K.secondaryClaims_nonneg hi hocc fun v hv =>
          hslot v (List.mem_append_left _ hv)
      rw [slotsClaims_cons, Finsupp.add_apply, Pi.add_apply]
      refine add_nonneg ?_ ih
      cases hfirst : slot.primary.head? with
      | none => exact le_rfl
      | some first =>
          rw [Option.elim_some, slotClaims, Finsupp.add_apply, Pi.add_apply,
            Finsupp.single_eq_of_ne' (hmessage first hfirst), Pi.zero_apply, zero_add]
          exact hsecondary

/-- **A member that is not named is claimed** for the primary message of its slot:
messages of other slots are other messages, and secondary signers only come on
top. -/
theorem share_le_claims (hP : CollisionFree P) (K : Keyring M d t) (B : Buckets M d t committees)
    {slots : List (SlotComplementWitness P)}
    (hchecked : ∀ slot ∈ slots, Checked d t committees batchRules slot)
    (hnodup : (slots.map (·.slotInEpoch)).Nodup)
    (hdata : ∀ slot ∈ slots, ∀ first, slot.primary.head? = some first →
      first.dataSlot % slotsPerEpoch = slot.slotInEpoch)
    {slot : SlotComplementWitness P} (hslot : slot ∈ slots) {first : AttestationWitness P}
    (hfirst : slot.primary.head? = some first) {i : ℕ} (hi : i < 2 ^ d) (hocc : (t i).isSome) :
    B.share batchRules slot i ≤
      slotsClaims M signingDomain slots (signingRoot signingDomain first) (K.owner i) := by
  obtain ⟨xs, ys, rfl⟩ := List.append_of_mem hslot
  rw [List.map_append, List.map_cons, List.nodup_middle, List.nodup_cons, ← List.map_append]
    at hnodup
  have hothers : 0 ≤ slotsClaims M signingDomain (xs ++ ys) (signingRoot signingDomain first)
      (K.owner i) := by
    apply slotsClaims_nonneg K hi hocc
    intro other hother
    have hmem : other ∈ xs ++ slot :: ys := by
      rcases List.mem_append.mp hother with h | h
      · exact List.mem_append_left _ h
      · exact List.mem_append_right _ (List.mem_cons_of_mem _ h)
    refine ⟨(hchecked other hmem).opened, fun first' hfirst' heq => hnodup.1 ?_⟩
    -- one signing root is one attestation, so both slots would take its position
    have hsame : first'.data = first.data :=
      attestationDataRoot_injective hP (hP.sha256Pair heq).1
    have hslots : first'.dataSlot = first.dataSlot := congrArg AttestationData.slot hsame
    rw [← hdata slot hslot first hfirst, ← hslots, hdata other hmem first' hfirst']
    exact List.mem_map_of_mem hother
  have hsecondary : 0 ≤ secondaryClaims M signingDomain slot.secondary
      (signingRoot signingDomain first) (K.owner i) :=
    K.secondaryClaims_nonneg hi hocc fun v hv =>
      (hchecked slot hslot).opened v (List.mem_append_left _ hv)
  have hprimary := B.primary_coeff K (hchecked slot hslot) hi hocc
  rw [slotsClaims_append, slotsClaims_cons, hfirst, Option.elim_some, slotClaims]
  rw [slotsClaims_append] at hothers
  simp only [Finsupp.add_apply, Pi.add_apply, Finsupp.single_eq_same] at hothers ⊢
  rw [hprimary]
  have hshare : B.share batchRules slot i =
      B.member slot.slotInEpoch.toNat i - timesNamed d slot.named i := rfl
  rw [hshare]
  linarith

/-- A validator that is in none of the committees has no share. -/
theorem shares_le_zero (B : Buckets M d t committees) {i : ℕ} :
    ∀ {slots : List (SlotComplementWitness P)},
      (∀ slot ∈ slots, i ∉ B.bucket slot.slotInEpoch.toNat) →
        (slots.map fun slot => B.share batchRules slot i).sum ≤ 0
  | [], _ => le_rfl
  | slot :: slots, h => by
      obtain ⟨hslot, hslots⟩ := List.forall_mem_cons.mp h
      have ih := shares_le_zero B hslots
      have hshare : B.share batchRules slot i ≤ 0 := by
        rw [Buckets.share, Buckets.member, if_neg hslot]
        omega
      rw [List.map_cons, List.sum_cons]
      omega

/-- **Over slots of different positions** a validator has the share it has in the
one slot whose committee it is in, at most. -/
theorem shares_le (B : Buckets M d t committees) {slots : List (SlotComplementWitness P)}
    (hnodup : (slots.map (·.slotInEpoch)).Nodup) {slot : SlotComplementWitness P}
    (hslot : slot ∈ slots) {i : ℕ} (hi : i ∈ B.bucket slot.slotInEpoch.toNat) :
    (slots.map fun slot => B.share batchRules slot i).sum ≤ B.share batchRules slot i := by
  obtain ⟨xs, ys, rfl⟩ := List.append_of_mem hslot
  rw [List.map_append, List.map_cons, List.nodup_middle, List.nodup_cons, ← List.map_append]
    at hnodup
  have hothers : ((xs ++ ys).map fun slot => B.share batchRules slot i).sum ≤ 0 := by
    apply shares_le_zero B
    intro other hother hmem
    have hne : slot.slotInEpoch.toNat ≠ other.slotInEpoch.toNat := fun heq =>
      hnodup.1 (UInt64.toNat_inj.mp heq ▸ List.mem_map_of_mem hother)
    exact Finset.disjoint_left.mp (B.disjoint _ _ hne) hi hmem
  simp only [List.map_append, List.sum_append, List.map_cons, List.sum_cons] at hothers ⊢
  omega

end Accepted

/-! ## The supporters -/

section Supporters

variable {M : KeyModel P} {d : ℕ} {t : Contents P}
  {committees : List (Option (CommitteeAggregate P))}

/-- The validator at `i` is in the committee of one of the batch's slots, and
signed an attestation for the canonical head at that slot's position. -/
def Supports (K : Keyring M d t) (B : Buckets M d t committees) (w : FcrBatchWitness P) (i : ℕ) :
    Prop :=
  ∃ j entry, w.slots[j]? = some entry ∧ i ∈ B.bucket entry.complement.slotInEpoch.toNat ∧
    ∃ data : AttestationData P, data.beaconBlockRoot = headAt w.parentHeadRoot w.slots j ∧
      M.Signed (K.owner i) (computeSigningRoot P (attestationDataRoot P data) w.signingDomain)

open Classical in
/-- The validators that support the batch's chain. -/
noncomputable def supporters (K : Keyring M d t) (B : Buckets M d t committees)
    (w : FcrBatchWitness P) : Finset ℕ :=
  (Finset.range (2 ^ d)).filter (Supports K B w)

theorem mem_supporters {K : Keyring M d t} {B : Buckets M d t committees} {w : FcrBatchWitness P}
    {i : ℕ} : i ∈ supporters K B w ↔ i < 2 ^ d ∧ Supports K B w i := by
  simp [supporters]

/-- **One validator's share in a batch** is at most one, and nothing unless it is a supporter. -/
theorem shares_le_supports (hP : CollisionFree P) (K : Keyring M d t)
    (B : Buckets M d t committees) {w : FcrBatchWitness P} {s : BatchState P}
    (h : countBatch w d = .ok s) (hacc : w.accRoot = t.accRoot d)
    (hroot : Committee.root committees = .ok w.committeeRoot) {i : ℕ} (hi : i < 2 ^ d)
    (hocc : (t i).isSome) :
    ((canonicalSlots w.parentHeadRoot w.slots).map fun slot => B.share batchRules slot i).sum ≤ 1 ∧
      (¬ Supports K B w i → ((canonicalSlots w.parentHeadRoot w.slots).map fun slot =>
        B.share batchRules slot i).sum ≤ 0) := by
  obtain ⟨hchecked, hsigned, -⟩ := countBatch_spec hP M h hacc hroot
  have hnodup := countBatch_nodup h
  have hsub := canonicalSlots_sublist w.parentHeadRoot w.slots
  by_cases hmember : ∃ slot ∈ canonicalSlots w.parentHeadRoot w.slots,
      i ∈ B.bucket slot.slotInEpoch.toNat
  · obtain ⟨slot, hslot, hbucket⟩ := hmember
    have hle := shares_le B (hnodup.sublist (hsub.map _)) hslot hbucket
    refine ⟨hle.trans ?_, fun hno => hle.trans ?_⟩
    · rw [Buckets.share, Buckets.member, if_pos hbucket]
      omega
    · obtain ⟨j, entry, first, hentry, rfl, hfirst, hvote⟩ := mem_canonicalSlots hslot
      -- whoever is claimed for the primary message signed it, and that would be support
      have hzero : slotsClaims M w.signingDomain (w.slots.map (·.complement))
          (signingRoot w.signingDomain first) (K.owner i) = 0 := by
        by_contra hne
        exact hno ⟨j, entry, hentry, hbucket, first.data, hvote, hsigned _ _ hne⟩
      rw [← hzero]
      exact share_le_claims hP K B hchecked hnodup (countBatch_data h) (hsub.subset hslot) hfirst
        hi hocc
  · simp only [not_exists, not_and] at hmember
    have hle := shares_le_zero B hmember
    exact ⟨hle.trans zero_le_one, fun _ => hle⟩

/-- **Support is real.** What a batch publishes as support and as empty-slot
support is together at most the balance of its supporters, each counted once. -/
theorem verifyFcrBatchWithDepth_support (hP : CollisionFree P) (fc : FastConfirmation)
    (w : FcrBatchWitness P) (K : Keyring M d t) (B : Buckets M d t committees)
    (hacc : w.accRoot = t.accRoot d) (hroot : Committee.root committees = .ok w.committeeRoot)
    (out : FcrBatchOutput P) (h : verifyFcrBatchWithDepth fc w d = .ok out) :
    out.support.toNat + out.emptySlotSupport.toNat ≤
      ∑ i ∈ supporters K B w, (t.balance i).toNat := by
  obtain ⟨s, hcount, hjudge⟩ := verifyFcrBatchWithDepth_eq_ok.mp h
  obtain ⟨-, -, -, -, -, -, -, -, -, -, rfl⟩ := judge_eq_ok hjudge
  obtain ⟨hchecked, -, hsupport⟩ := countBatch_spec hP M hcount hacc hroot
  have hcanonical := fun slot hslot =>
    hchecked slot ((canonicalSlots_sublist w.parentHeadRoot w.slots).subset hslot)
  have hsum := B.counted_sum_le hcanonical
  have hsubset : supporters K B w ⊆ Finset.range (2 ^ d) := fun i hi =>
    Finset.mem_range.mpr (mem_supporters.mp hi).1
  have hle := hsum.trans (weighted_le t hsubset
    (fun i hi hocc => (shares_le_supports hP K B hcount hacc hroot hi hocc).1)
    (fun i hi hocc hno => (shares_le_supports hP K B hcount hacc hroot hi hocc).2
      fun hyes => hno (mem_supporters.mpr ⟨hi, hyes⟩)))
  exact hsupport.trans (by exact_mod_cast hle)

end Supporters

/-! ## A batch with an absentee -/

section Absentee

open Formal

/-- Only the first of four keys signs. -/
def oneSigner : Scenario := { signed := fun k _ => k = 0 }

/-- The committee of the first two validators. -/
def twoMembers : CommitteeAggregate (formal oneSigner) := ⟨fun k => key 0 k + key 1 k, 64⟩

/-- It is the committee of the tree's only slot. -/
def twoBuckets : Buckets (keyModel oneSigner) 2 registry [some twoMembers] where
  bucket s := if s = 0 then {0, 1} else ∅
  occupied s i hi := by
    split at hi
    · rcases Finset.mem_insert.mp hi with rfl | hi
      · decide
      · obtain rfl := Finset.mem_singleton.mp hi
        decide
    · cases hi
  disjoint s s' h := by
    by_cases hs : s = 0
    · rw [if_neg (fun hs' => h (hs.trans hs'.symm) : ¬ s' = 0)]
      exact Finset.disjoint_empty_right _
    · rw [if_neg hs]
      exact Finset.disjoint_empty_left _
  coeff s aggregate h := by
    cases s with
    | zero =>
        obtain rfl := Option.some.inj h
        rw [if_pos rfl, Finset.sum_pair (by decide)]
        rfl
    | succ s => cases h
  balance s aggregate h := by
    cases s with
    | zero =>
        obtain rfl := Option.some.inj h
        decide
    | succ s => cases h

/-- Slot 32, the second member absent. -/
def absenteeWitness : FcrBatchWitness (formal oneSigner) :=
  { sampleWitness [some twoMembers]
      [.zero, emptyRoot 1, emptyRoot 2, emptyRoot 3, emptyRoot 4] 31 33
      fun parentRoot => [sampleSlot twoMembers [named 1] parentRoot 32] with
    accRoot := registry.accRoot 2
    accumulatorCommitment := .commitment (Contents.accRoot 2 (registry (S := oneSigner))) 3200
    accMultiProof := [.leaf (key 0) 32, .node (.leaf (key 2) 32) (.leaf (key 3) 32)] }

/-- The first member's balance is support, and the first member is a supporter. -/
theorem verifyFcrBatchWithDepth_support_absentee :
    ∃ out, verifyFcrBatchWithDepth (FastConfirmation.ofSpec flatRule) absenteeWitness 2 = .ok out ∧
      out.support = 32 ∧ 32 ≤ ∑ i ∈ supporters (keyring 2) twoBuckets absenteeWitness,
        ((registry (S := oneSigner)).balance i).toNat := by
  obtain ⟨out, h, hsupport⟩ : ∃ out, verifyFcrBatchWithDepth (FastConfirmation.ofSpec flatRule)
      absenteeWitness 2 = .ok out ∧ out.support = 32 := by decide +kernel
  have hle := verifyFcrBatchWithDepth_support (formal_collisionFree _) _ absenteeWitness
    (keyring 2) twoBuckets rfl (Committee.root_eq_ok.mpr ⟨by decide, rfl⟩) out h
  rw [hsupport] at hle
  exact ⟨out, h, hsupport, (Nat.le_add_right _ _).trans hle⟩

end Absentee

end Zkasper.Fcr
