import Zkasper.WitnessGen.Cover

/-! # What a collector has heard

Calls on a `SlotStream` come in any order: batches to file, slots to price, slots to
take. Every attestation a batch gets through is *heard*. Nothing is filed that was not
heard (`Keeps.pending`, `Keeps.summed`), and every single attestation that was heard for
a slot is still in its bucket when the slot has not been taken (`Keeps.single`). Nothing
here asks what a signature is worth. -/

namespace Zkasper

open Std Slot

variable {P : Primitives} {B : Blst}

/-! ## Calls -/

/-- A call on the collector. -/
inductive Call (P : Primitives)
  | ingest (attestations : List (AttestationResponse P))
  | peek (slot : UInt64)
  | close (slot : UInt64)
  | forget (slot : UInt64)

/-- The FFG link an attestation is for. -/
def AttestationResponse.link (att : AttestationResponse P) : Link P :=
  ⟨att.dataSourceEpoch, att.dataSourceRoot, att.dataTargetEpoch, att.dataTargetRoot⟩

/-- Who signed an attestation, as the collector resolves it: nobody, where the committee
it names does not exist. -/
def attestors (committees : EpochCommittees P) (att : AttestationResponse P) : List UInt64 :=
  (resolveAttestingValidators att committees).toOption.getD []

namespace SlotStream

section Calls

variable [Ord P.Bytes32]

def call (s : SlotStream P B) : Call P → SlotStream P B
  | .ingest attestations => (s.ingest attestations).1
  | .peek _ => s
  | .close slot => (s.close slot).1
  | .forget slot => s.forget slot

/-- A history of calls. -/
def run (s : SlotStream P B) (calls : List (Call P)) : SlotStream P B := calls.foldl call s

/-- The attestations a batch gets through: all of them, or those before the first that
fails. -/
def read (s : SlotStream P B) : List (AttestationResponse P) → List (AttestationResponse P)
  | [] => []
  | att :: attestations =>
      match s.ingestOne att with
      | .ok s' => att :: s'.read attestations
      | .error _ => []

/-- What a history has heard. -/
def heard (s : SlotStream P B) : List (Call P) → List (AttestationResponse P)
  | [] => []
  | .ingest attestations :: calls =>
      s.read attestations ++ (s.call (.ingest attestations)).heard calls
  | .peek slot :: calls => (s.call (.peek slot)).heard calls
  | .close slot :: calls => (s.call (.close slot)).heard calls
  | .forget slot :: calls => (s.call (.forget slot)).heard calls

/-- Closing a slot changes nothing, or forgets it. -/
theorem close_eq (s : SlotStream P B) (slot : UInt64) :
    (s.close slot = (s, none) ∧ s.peek slot = none) ∨
      ∃ unit, s.close slot = (s.forget slot, some unit) ∧ s.peek slot = some unit := by
  cases hpeek : s.peek slot with
  | none => exact .inl ⟨by rw [close, hpeek], rfl⟩
  | some unit => exact .inr ⟨unit, by rw [close, hpeek], rfl⟩

/-- **What a call can do**: file under slots that are still taken, forget a slot, or nothing. -/
theorem call_cases (s : SlotStream P B) (call : Call P) :
    (∃ attestations, call = .ingest attestations ∧ s.call call = (s.ingest attestations).1) ∨
      (∃ slot, s.call call = s.forget slot ∧ ∀ attestations, call ≠ .ingest attestations) ∨
      (s.call call = s ∧ ∀ attestations, call ≠ .ingest attestations) := by
  cases call with
  | ingest attestations => exact .inl ⟨attestations, rfl, rfl⟩
  | peek slot => exact .inr (.inr ⟨rfl, by simp⟩)
  | close slot =>
      rcases s.close_eq slot with ⟨heq, -⟩ | ⟨unit, heq, -⟩
      · exact .inr (.inr ⟨congrArg Prod.fst heq, by simp⟩)
      · exact .inr (.inl ⟨slot, congrArg Prod.fst heq, by simp⟩)
  | forget slot => exact .inr (.inl ⟨slot, rfl, by simp⟩)

end Calls

/-! ## What is filed -/

section Keeps

/-- A validator was heard to sign a message of the slot. -/
def Heard (link : Link P) (committees : EpochCommittees P) (log : List (AttestationResponse P))
    (slot : UInt64) (key : DataKey P) (i : UInt64) : Prop :=
  ∃ att ∈ log, att.link = link ∧ att.dataSlot = slot ∧ att.attestation.data = key ∧
    i ∈ attestors committees att

/-- An aggregate of a slot, every signer heard over its message. -/
structure Placed (link : Link P) (committees : EpochCommittees P)
    (log : List (AttestationResponse P)) (slot : UInt64) (a : Aggregate P B) : Prop where
  message : Message link slot a.attestation
  nonempty : (members a.signers).Nonempty
  heard : ∀ i ∈ a.signers, Heard link committees log slot a.attestation.data i

/-- A bucket of a slot, every signer heard over its message, out of its committee. -/
structure Gathered (link : Link P) (committees : EpochCommittees P)
    (log : List (AttestationResponse P)) (slot : UInt64) (bucket : DataKey P × UInt64)
    (running : Summed P B) : Prop where
  key : running.attestation.data = bucket.1
  message : Message link slot running.attestation
  nonempty : ∃ i, i ∈ running.signers
  heard : ∀ i ∈ running.signers, Heard link committees log slot bucket.1 i ∧
    ∃ row, committees.committee slot bucket.2 = some row ∧ i ∈ row

variable {link : Link P} {committees : EpochCommittees P} {log log' : List (AttestationResponse P)}
  {slot : UInt64}

theorem Heard.mono {key : DataKey P} {i : UInt64} (hsub : log ⊆ log')
    (h : Heard link committees log slot key i) : Heard link committees log' slot key i := by
  obtain ⟨att, hatt, hrest⟩ := h
  exact ⟨att, hsub hatt, hrest⟩

theorem Placed.mono {a : Aggregate P B} (hsub : log ⊆ log')
    (h : Placed link committees log slot a) : Placed link committees log' slot a :=
  { h with heard := fun i hi => (h.heard i hi).mono hsub }

theorem Gathered.mono {bucket : DataKey P × UInt64} {running : Summed P B} (hsub : log ⊆ log')
    (h : Gathered link committees log slot bucket running) :
    Gathered link committees log' slot bucket running :=
  { h with heard := fun i hi => ⟨(h.heard i hi).1.mono hsub, (h.heard i hi).2⟩ }

variable [Ord P.Bytes32]

/-- **The collector keeps what it hears**, and holds nothing empty. -/
structure Keeps (log : List (AttestationResponse P)) (s : SlotStream P B) : Prop where
  pending_ne : ∀ slot ∈ s.pending, s.pending.getD slot [] ≠ []
  summed_ne : ∀ slot ∈ s.summed, ∃ (bucket : DataKey P × UInt64) (running : Summed P B),
    (s.summed.getD slot ∅)[bucket]? = some running
  pending : ∀ slot, ∀ a ∈ s.pending.getD slot [], Placed s.link s.committees log slot a
  summed : ∀ (slot : UInt64) (bucket : DataKey P × UInt64) (running : Summed P B),
    (s.summed.getD slot ∅)[bucket]? = some running →
      Gathered s.link s.committees log slot bucket running
  single : ∀ att ∈ log, att.link = s.link → ∀ single : SingleAttester,
    att.singleAttester = some single → single.attesterIndex ∈ attestors s.committees att →
    att.dataSlot ∉ s.closed → ∃ running : Summed P B,
      (s.summed.getD att.dataSlot ∅)[(att.attestation.data, single.committeeIndex)]? =
        some running ∧ single.attesterIndex ∈ running.signers

theorem accepts_iff {s : SlotStream P B} {att : AttestationResponse P} :
    s.accepts att = true ↔ att.link = s.link ∧ att.dataSlot ∉ s.closed := by
  simp only [accepts, AttestationResponse.link, SlotStream.link, Bool.and_eq_true,
    decide_eq_true_eq, Bool.not_eq_true', Link.mk.injEq, TreeSet.mem_iff_contains,
    Bool.not_eq_true]
  tauto

theorem new_keeps {slotsPerEpoch targetEpoch : UInt64} {committees : EpochCommittees P}
    {targetRoot sourceRoot : P.Bytes32} : Keeps []
      (new slotsPerEpoch committees targetEpoch targetRoot sourceRoot : SlotStream P B) where
  pending_ne slot hslot := absurd hslot TreeMap.not_mem_emptyc
  summed_ne slot hslot := absurd hslot TreeMap.not_mem_emptyc
  pending slot a ha := by cases ha
  summed slot bucket running h := by cases h
  single att hatt := by cases hatt

end Keeps

/-! ## One attestation -/

section Step

variable [Ord P.Bytes32] {s s' : SlotStream P B} {att : AttestationResponse P}
  {log : List (AttestationResponse P)}

omit [Ord P.Bytes32] in
/-- A bucket keeps its message, and has one signer more at most. -/
theorem sumInto_eq_ok {attestation : AttestationWitness P} {attester : UInt64} {σ : B.Signature}
    {held : Option (Summed P B)} {running : Summed P B}
    (h : sumInto attestation attester σ held = .ok running) :
    running.attestation = held.elim attestation (·.attestation) ∧
      ∀ i, i ∈ running.signers ↔ i = attester ∨ ∃ old, held = some old ∧ i ∈ old.signers := by
  cases held with
  | none =>
      obtain rfl := Guest.pure_eq_ok.mp h
      refine ⟨rfl, fun i => ?_⟩
      rw [TreeMap.ofList_singleton, TreeMap.mem_insert, Std.compare_eq_iff_eq]
      simp [eq_comm]
  | some old =>
      simp only [sumInto] at h
      split at h
      · next hold =>
          obtain rfl := Guest.pure_eq_ok.mp h
          refine ⟨rfl, fun i => ⟨fun hi => .inr ⟨old, rfl, hi⟩, ?_⟩⟩
          rintro (rfl | ⟨_, heq, hi⟩)
          · exact hold
          · exact Option.some.inj heq ▸ hi
      · simp only [Guest.bind_eq_ok, Guest.expect_eq_ok, Guest.pure_eq_ok] at h
        obtain ⟨sum, -, rfl⟩ := h
        refine ⟨rfl, fun i => ?_⟩
        rw [TreeMap.mem_insert, Std.compare_eq_iff_eq]
        simp [eq_comm]

omit [Ord P.Bytes32] in
theorem mem_attestors {committees : EpochCommittees P} {resolved : List UInt64}
    (h : resolveAttestingValidators att committees = .ok resolved) :
    attestors committees att = resolved := by
  rw [attestors, h]
  rfl

variable [TransOrd P.Bytes32] [LawfulEqOrd P.Bytes32]

/-- A single attestation is summed into its bucket. -/
theorem Keeps.sumSingle (h : Keeps log s) {single : SingleAttester}
    (haccepts : s.accepts att = true) (hsingle : att.singleAttester = some single)
    (hresolved : attestors s.committees att = [single.attesterIndex])
    (hrow : ∃ row, s.committees.committee att.dataSlot single.committeeIndex = some row ∧
      single.attesterIndex ∈ row)
    (hsum : s.sumSingle att.attestation single.committeeIndex single.attesterIndex = .ok s') :
    Keeps (log ++ [att]) s' := by
  have hmessage := accepts_message haccepts
  have hlink := (accepts_iff.mp haccepts).1
  have hsub : log ⊆ log ++ [att] := List.subset_append_left _ _
  simp only [SlotStream.sumSingle, Guest.bind_eq_ok, Guest.expect_eq_ok, Guest.pure_eq_ok] at hsum
  obtain ⟨σ, -, running, hsum, rfl⟩ := hsum
  set bucket : DataKey P × UInt64 := (att.attestation.data, single.committeeIndex) with hbucket
  have hsum : sumInto att.attestation single.attesterIndex σ
      (s.summed.getD att.dataSlot ∅)[bucket]? = .ok running := hsum
  obtain ⟨hmessage', hsigners⟩ := sumInto_eq_ok hsum
  have hself : Heard s.link s.committees (log ++ [att]) att.dataSlot bucket.1
      single.attesterIndex :=
    ⟨att, List.mem_append_right _ (List.mem_singleton_self _), hlink, rfl, rfl,
      hresolved ▸ List.mem_singleton_self _⟩
  -- what is looked up afterwards: the bucket as it is now, or what was there
  set summed := s.summed.insert att.dataSlot ((s.summed.getD att.dataSlot ∅).insert bucket running)
    with hsummed
  have hnow : (summed.getD att.dataSlot ∅)[bucket]? = some running := by
    rw [hsummed, TreeMap.getD_insert_self, TreeMap.getElem?_insert_self]
  have hbefore : ∀ (slot : UInt64) (other : DataKey P × UInt64),
      ¬(att.dataSlot = slot ∧ bucket = other) →
        (summed.getD slot ∅)[other]? = (s.summed.getD slot ∅)[other]? := by
    intro slot other hne
    rw [hsummed, TreeMap.getD_insert]
    split
    · next heq =>
        obtain rfl := Std.compare_eq_iff_eq.mp heq
        rw [TreeMap.getElem?_insert, if_neg]
        exact fun hcmp => hne ⟨rfl, LawfulEqCmp.eq_of_compare hcmp⟩
    · rfl
  have hgathered : Gathered s.link s.committees (log ++ [att]) att.dataSlot bucket running := by
    cases hold : (s.summed.getD att.dataSlot ∅)[bucket]? with
    | none =>
        rw [hold] at hmessage' hsigners
        refine ⟨congrArg AttestationWitness.data hmessage', hmessage' ▸ hmessage,
          ⟨_, (hsigners _).mpr (.inl rfl)⟩, fun i hi => ?_⟩
        rcases (hsigners i).mp hi with rfl | ⟨_, heq, -⟩
        · exact ⟨hself, hrow⟩
        · cases heq
    | some old =>
        rw [hold] at hmessage' hsigners
        have hgather := (h.summed _ _ _ hold).mono hsub
        have hmessage' : running.attestation = old.attestation := hmessage'
        refine ⟨hmessage' ▸ hgather.key, hmessage' ▸ hgather.message,
          ⟨_, (hsigners _).mpr (.inl rfl)⟩, fun i hi => ?_⟩
        rcases (hsigners i).mp hi with rfl | ⟨_, heq, hi⟩
        · exact ⟨hself, hrow⟩
        · obtain rfl := Option.some.inj heq
          exact hgather.heard i hi
  constructor
  · exact h.pending_ne
  · intro slot hslot
    by_cases heq : att.dataSlot = slot
    · exact heq ▸ ⟨bucket, running, hnow⟩
    · obtain ⟨other, old, hold⟩ := h.summed_ne slot
        ((TreeMap.mem_insert.mp hslot).resolve_left fun hcmp => heq (Std.compare_eq_iff_eq.mp hcmp))
      exact ⟨other, old, (hbefore slot other fun hboth => heq hboth.1).trans hold⟩
  · intro slot a ha
    exact (h.pending slot a ha).mono hsub
  · intro slot other r hr
    by_cases heq : att.dataSlot = slot ∧ bucket = other
    · obtain ⟨rfl, rfl⟩ := heq
      obtain rfl := Option.some.inj (hnow.symm.trans hr)
      exact hgathered
    · exact (h.summed slot other r ((hbefore slot other heq).symm.trans hr)).mono hsub
  · intro other hother hotherLink otherSingle hsame hmem hopen
    -- an attestation heard before keeps its bucket, or a bucket that grew
    have hheard : other = att ∨ other ∈ log := by
      rcases List.mem_append.mp hother with hother | hother
      · exact .inr hother
      · exact .inl (List.mem_singleton.mp hother)
    by_cases heq : att.dataSlot = other.dataSlot ∧
        bucket = (other.attestation.data, otherSingle.committeeIndex)
    · rw [← heq.1, ← heq.2]
      refine ⟨running, hnow, (hsigners _).mpr ?_⟩
      rcases hheard with rfl | hlog
      · obtain rfl := Option.some.inj (hsingle.symm.trans hsame)
        exact .inl rfl
      · obtain ⟨old, hold, hin⟩ := h.single other hlog hotherLink _ hsame hmem hopen
        rw [← heq.1, ← heq.2] at hold
        exact .inr ⟨old, hold, hin⟩
    · show ∃ running, (summed.getD _ ∅)[_]? = _ ∧ _
      rw [hbefore _ _ heq]
      rcases hheard with rfl | hlog
      · obtain rfl := Option.some.inj (hsingle.symm.trans hsame)
        exact absurd ⟨rfl, rfl⟩ heq
      · exact h.single other hlog hotherLink _ hsame hmem hopen

omit [TransOrd P.Bytes32] [LawfulEqOrd P.Bytes32] in
/-- An aggregate is held aside, or cannot be read. -/
theorem Keeps.pushAggregate (h : Keeps log s) (haccepts : s.accepts att = true)
    (hnone : att.singleAttester = none) (hsome : attestors s.committees att ≠ []) :
    Keeps (log ++ [att])
      (s.pushAggregate att.attestation (TreeSet.ofList (attestors s.committees att))) := by
  have hsub : log ⊆ log ++ [att] := List.subset_append_left _ _
  have hsingle : ∀ other ∈ log ++ [att], ∀ single : SingleAttester,
      other.singleAttester = some single → other ∈ log := by
    intro other hother single hsame
    rcases List.mem_append.mp hother with hother | hother
    · exact hother
    · obtain rfl := List.mem_singleton.mp hother
      cases hnone.symm.trans hsame
  unfold SlotStream.pushAggregate
  split
  · refine ⟨h.pending_ne, h.summed_ne, ?_, ?_, ?_⟩
    · intro slot a ha
      exact (h.pending slot a ha).mono hsub
    · intro slot bucket running hrunning
      exact (h.summed slot bucket running hrunning).mono hsub
    · intro other hother hlink single hsame
      exact h.single other (hsingle other hother single hsame) hlink single hsame
  · next σ hσ =>
      refine ⟨?_, h.summed_ne, ?_, ?_, ?_⟩
      · intro slot hslot
        simp only [TreeMap.getD_insert]
        split
        · exact List.append_ne_nil_of_right_ne_nil _ (List.cons_ne_nil _ _)
        · next hne => exact h.pending_ne slot ((TreeMap.mem_insert.mp hslot).resolve_left hne)
      · intro slot a ha
        show Placed s.link s.committees (log ++ [att]) slot a
        simp only [TreeMap.getD_insert] at ha
        split at ha
        · next heq =>
            obtain rfl := Std.compare_eq_iff_eq.mp heq
            rcases List.mem_append.mp ha with ha | ha
            · exact (h.pending _ a ha).mono hsub
            · obtain rfl := List.mem_singleton.mp ha
              refine ⟨accepts_message haccepts, ?_, fun i hi => ?_⟩
              · rw [members_ofList]
                exact List.toFinset_nonempty_iff _ |>.mpr hsome
              · rw [← mem_members, members_ofList, List.mem_toFinset] at hi
                exact ⟨att, List.mem_append_right _ (List.mem_singleton_self _),
                  (accepts_iff.mp haccepts).1, rfl, rfl, hi⟩
        · exact (h.pending slot a ha).mono hsub
      · intro slot bucket running hrunning
        exact (h.summed slot bucket running hrunning).mono hsub
      · intro other hother hlink single hsame
        exact h.single other (hsingle other hother single hsame) hlink single hsame

omit [TransOrd P.Bytes32] [LawfulEqOrd P.Bytes32] in
/-- What is heard to no effect: it is for another checkpoint or a slot that was taken, or
resolves to nobody. -/
theorem Keeps.skip (h : Keeps log s)
    (hskip : s.accepts att = true → attestors s.committees att = []) :
    Keeps (log ++ [att]) s := by
  have hsub : log ⊆ log ++ [att] := List.subset_append_left _ _
  refine ⟨h.pending_ne, h.summed_ne, ?_, ?_, ?_⟩
  · intro slot a ha
    exact (h.pending slot a ha).mono hsub
  · intro slot bucket running hrunning
    exact (h.summed slot bucket running hrunning).mono hsub
  · intro other hother hlink single hsame hmem hopen
    rcases List.mem_append.mp hother with hother | hother
    · exact h.single other hother hlink single hsame hmem hopen
    · obtain rfl := List.mem_singleton.mp hother
      rw [hskip (accepts_iff.mpr ⟨hlink, hopen⟩)] at hmem
      cases hmem

/-- **One attestation is kept.** -/
theorem Keeps.ingestOne (h : Keeps log s) (hone : s.ingestOne att = .ok s') :
    Keeps (log ++ [att]) s' := by
  unfold SlotStream.ingestOne at hone
  split at hone
  · next haccepts =>
      obtain ⟨resolved, hresolved, hone⟩ := Guest.bind_eq_ok.mp hone
      have hmem := mem_attestors hresolved
      split at hone
      · next hnil =>
          obtain rfl := Guest.pure_eq_ok.mp hone
          exact h.skip fun _ => hmem.trans hnil
      · next hsome =>
          split at hone
          · next single hsingle =>
              obtain ⟨heq, hrow⟩ := resolve_single hsingle hresolved hsome
              exact h.sumSingle haccepts hsingle (hmem.trans heq) hrow hone
          · next hnone =>
              obtain rfl := Guest.pure_eq_ok.mp hone
              rw [← hmem] at hsome ⊢
              exact h.pushAggregate haccepts hnone hsome
  · next hrefused =>
      obtain rfl := Guest.pure_eq_ok.mp hone
      exact h.skip fun haccepts => absurd haccepts hrefused

theorem Keeps.ingest {attestations : List (AttestationResponse P)} :
    ∀ {s : SlotStream P B} {log : List (AttestationResponse P)}, Keeps log s →
      Keeps (log ++ s.read attestations) (s.ingest attestations).1 := by
  induction attestations with
  | nil =>
      intro s log h
      simpa [SlotStream.read, SlotStream.ingest] using h
  | cons att attestations ih =>
      intro s log h
      rw [SlotStream.read, SlotStream.ingest]
      cases hone : s.ingestOne att with
      | error e => simpa using h
      | ok s' => simpa using ih (h.ingestOne hone)

omit [LawfulEqOrd P.Bytes32] in
/-- A slot that is forgotten has nothing left to keep. -/
theorem Keeps.forget (h : Keeps log s) (slot : UInt64) : Keeps log (s.forget slot) := by
  constructor
  · intro other hother
    obtain ⟨hne, hother⟩ := TreeMap.mem_erase.mp hother
    simp only [SlotStream.forget, TreeMap.getD_erase, if_neg hne]
    exact h.pending_ne other hother
  · intro other hother
    obtain ⟨hne, hother⟩ := TreeMap.mem_erase.mp hother
    simp only [SlotStream.forget, TreeMap.getD_erase, if_neg hne]
    exact h.summed_ne other hother
  · intro other a ha
    simp only [SlotStream.forget, TreeMap.getD_erase] at ha
    split at ha
    · cases ha
    · exact h.pending other a ha
  · intro other bucket running hrunning
    simp only [SlotStream.forget, TreeMap.getD_erase] at hrunning
    split at hrunning
    · rw [TreeMap.getElem?_emptyc] at hrunning
      cases hrunning
    · exact h.summed other bucket running hrunning
  · intro att hatt hlink single hsame hmem hopen
    rw [mem_closed_forget, not_or] at hopen
    obtain ⟨running, hrunning, hin⟩ := h.single att hatt hlink single hsame hmem hopen.2
    refine ⟨running, ?_, hin⟩
    simp only [SlotStream.forget, TreeMap.getD_erase, Std.compare_eq_iff_eq, if_neg hopen.1]
    exact hrunning

/-- **Every history is kept.** -/
theorem Keeps.run : ∀ {calls : List (Call P)} {s : SlotStream P B}
    {log : List (AttestationResponse P)}, Keeps log s →
      Keeps (log ++ s.heard calls) (s.run calls) := by
  intro calls
  induction calls with
  | nil =>
      intro s log h
      simpa [SlotStream.heard, SlotStream.run] using h
  | cons call calls ih =>
      intro s log h
      cases call with
      | ingest attestations =>
          rw [SlotStream.heard, ← List.append_assoc]
          exact ih h.ingest
      | peek slot => exact ih h
      | forget slot => exact ih (h.forget slot)
      | close slot =>
          rw [SlotStream.heard]
          apply ih
          rcases s.close_eq slot with ⟨heq, -⟩ | ⟨unit, heq, -⟩
          · rw [SlotStream.call, heq]
            exact h
          · rw [SlotStream.call, heq]
            exact h.forget slot

end Step

/-! ## What no call changes -/

section Settings

variable [Ord P.Bytes32]

/-- The epoch a collector is for, and the slots it has taken, which only grow. -/
theorem call_settings (s : SlotStream P B) (call : Call P) :
    (s.call call).committees = s.committees ∧ (s.call call).link = s.link ∧
      (s.call call).slotsPerEpoch = s.slotsPerEpoch ∧
        ∀ slot ∈ s.closed, slot ∈ (s.call call).closed := by
  rcases s.call_cases call with ⟨attestations, -, heq⟩ | ⟨slot, heq, -⟩ | ⟨heq, -⟩
  · obtain ⟨pending, summed, heq', -⟩ := ingest_eq attestations s
    rw [heq, heq']
    exact ⟨rfl, rfl, rfl, fun _ hslot => hslot⟩
  · rw [heq]
    exact ⟨rfl, rfl, rfl, fun _ hslot => mem_closed_forget.mpr (.inr hslot)⟩
  · rw [heq]
    exact ⟨rfl, rfl, rfl, fun _ hslot => hslot⟩

theorem run_settings : ∀ (calls : List (Call P)) (s : SlotStream P B),
    (s.run calls).committees = s.committees ∧ (s.run calls).link = s.link ∧
      (s.run calls).slotsPerEpoch = s.slotsPerEpoch ∧
        ∀ slot ∈ s.closed, slot ∈ (s.run calls).closed
  | [], _ => ⟨rfl, rfl, rfl, fun _ hslot => hslot⟩
  | call :: calls, s => by
      obtain ⟨hcommittees, hlink, hslots, hclosed⟩ := s.call_settings call
      obtain ⟨hcommittees', hlink', hslots', hclosed'⟩ := run_settings calls (s.call call)
      exact ⟨hcommittees'.trans hcommittees, hlink'.trans hlink, hslots'.trans hslots,
        fun slot hslot => hclosed' slot (hclosed slot hslot)⟩

theorem Apart.call {s : SlotStream P B} (h : s.Apart) (call : Call P) : (s.call call).Apart := by
  rcases s.call_cases call with ⟨attestations, -, heq⟩ | ⟨slot, heq, -⟩ | ⟨heq, -⟩
  · rw [heq]
    exact h.ingest attestations
  · rw [heq]
    exact h.forget slot
  · rw [heq]
    exact h

theorem Apart.run {s : SlotStream P B} (h : s.Apart) (calls : List (Call P)) :
    (s.run calls).Apart := by
  induction calls generalizing s with
  | nil => exact h
  | cons call calls ih => exact ih (h.call call)

end Settings

end SlotStream
end Zkasper
