import Zkasper.WitnessGen.Agreement
import Mathlib.Data.List.TakeWhile

/-! # Attestations that cannot be used

A batch may hold attestations nothing can be made of: their committee does not exist,
nobody of it signed, their signature does not decompress. An aggregate of that kind is
passed over. A single attestation, or one that names a committee that does not exist, ends
the batch with an error, and whatever stood behind it is gone with the batch.

`ingest_filter_iff` says exactly when that costs nothing: when everything usable behind the
first such entry is a single attestation the collector already holds. -/

namespace Zkasper.SlotStream

open Std

variable {P : Primitives} [Ord P.Bytes32] {B : Blst}

/-! ## Entries of a batch -/

/-- Something can be made of an attestation: it resolves to somebody, and its signature
decompresses. -/
def usable (s : SlotStream P B) (att : AttestationResponse P) : Bool :=
  attestors s.committees att ≠ [] && (B.fromBytes att.signature).isSome

/-- An attestation `ingest` stops at: for the checkpoint, for a slot that is still taken, and
its committee does not exist, or it is a single attestation whose signature does not
decompress. -/
def fails (s : SlotStream P B) (att : AttestationResponse P) : Bool :=
  s.accepts att &&
    match resolveAttestingValidators att s.committees with
    | .error _ => true
    | .ok resolved =>
        resolved ≠ [] && att.singleAttester.isSome && (B.fromBytes att.signature).isNone

/-- A validator's single attestation over a message is in its committee's bucket. -/
def InBucket (s : SlotStream P B) (slot : UInt64) (bucket : DataKey P × UInt64) (i : UInt64) : Prop :=
  ∃ running : Summed P B, (s.summed.getD slot ∅)[bucket]? = some running ∧ i ∈ running.signers

/-- A single attestation that adds nothing: its attester is in the bucket, or an earlier entry
of the batch puts it there. -/
def Repeats (s : SlotStream P B) (earlier : List (AttestationResponse P))
    (att : AttestationResponse P) : Prop :=
  ∃ single, att.singleAttester = some single ∧
    (s.InBucket att.dataSlot (att.attestation.data, single.committeeIndex) single.attesterIndex ∨
      ∃ other ∈ earlier, s.accepts other = true ∧ s.usable other = true ∧
        other.attestation.data = att.attestation.data ∧ other.singleAttester = some single)

/-- Two collectors that hold the same: the maps are compared entry by entry. -/
structure Alike (s s' : SlotStream P B) : Prop where
  settings : { s' with pending := s.pending, summed := s.summed } = s
  pending : ∀ slot : UInt64, s.pending[slot]? = s'.pending[slot]?
  summed : ∀ slot : UInt64, slot ∈ s.summed ↔ slot ∈ s'.summed
  buckets : ∀ (slot : UInt64) (bucket : DataKey P × UInt64),
    (s.summed.getD slot ∅)[bucket]? = (s'.summed.getD slot ∅)[bucket]?

theorem Alike.refl (s : SlotStream P B) : s.Alike s :=
  ⟨rfl, fun _ => rfl, fun _ => .rfl, fun _ _ => rfl⟩

theorem Alike.trans {s s' s'' : SlotStream P B} (h : s.Alike s') (h' : s'.Alike s'') :
    s.Alike s'' where
  settings := by
    rw [← h.settings, ← h'.settings]
  pending slot := (h.pending slot).trans (h'.pending slot)
  summed slot := (h.summed slot).trans (h'.summed slot)
  buckets slot bucket := (h.buckets slot bucket).trans (h'.buckets slot bucket)

/-! ## One entry -/

/-- What an entry leaves behind. One that fails leaves the collector as it was. -/
def absorb (s : SlotStream P B) (att : AttestationResponse P) : SlotStream P B :=
  match s.ingestOne att with
  | .ok s' => s'
  | .error _ => s

/-- Hold one more aggregate of a slot aside. -/
def hold (s : SlotStream P B) (slot : UInt64) (a : Aggregate P B) : SlotStream P B :=
  { s with pending := s.pending.insert slot (s.pending.getD slot [] ++ [a]) }

/-- Put a bucket of a slot in its place. -/
def refill (s : SlotStream P B) (slot : UInt64) (bucket : DataKey P × UInt64)
    (running : Summed P B) : SlotStream P B :=
  { s with summed := s.summed.insert slot ((s.summed.getD slot ∅).insert bucket running) }

/-- **What an entry does**: nothing, when it is not accepted or not usable; hold an aggregate
aside; or sum a single attestation into its bucket. -/
inductive Absorbs (s : SlotStream P B) (att : AttestationResponse P) : SlotStream P B → Prop
  | nothing : (s.accepts att && s.usable att) = false → Absorbs s att s
  | aggregate (a : Aggregate P B) : s.accepts att = true → s.usable att = true →
      att.singleAttester = none → Absorbs s att (s.hold att.dataSlot a)
  | single (single : SingleAttester) (σ : B.Signature) (running : Summed P B) :
      s.accepts att = true → s.usable att = true → att.singleAttester = some single →
      sumInto att.attestation single.attesterIndex σ
        (s.summed.getD att.dataSlot ∅)[(att.attestation.data, single.committeeIndex)]? =
          .ok running →
      Absorbs s att (s.refill att.dataSlot (att.attestation.data, single.committeeIndex) running)

omit [Ord P.Bytes32] in
/-- A sum into a bucket is made, where adding a signature never fails. -/
theorem sumInto_isOk (hadd : ∀ σ τ, (B.addSignature σ τ).isSome) (attestation : AttestationWitness P)
    (attester : UInt64) (σ : B.Signature) (held : Option (Summed P B)) :
    ∃ running, sumInto attestation attester σ held = .ok running := by
  cases held with
  | none => exact ⟨_, rfl⟩
  | some old =>
      simp only [sumInto]
      split
      · exact ⟨_, rfl⟩
      · obtain ⟨sum, hsum⟩ := Option.isSome_iff_exists.mp (hadd old.signature σ)
        exact ⟨_, by rw [hsum]; rfl⟩

/-- **One entry of the loop**: it fails and leaves the collector as it was, or it is absorbed. -/
theorem ingestOne_spec (hadd : ∀ σ τ, (B.addSignature σ τ).isSome) (s : SlotStream P B)
    (att : AttestationResponse P) :
    (s.fails att = true ∧ s.usable att = false ∧ ∃ e, s.ingestOne att = .error e) ∨
      (s.fails att = false ∧ ∃ s', s.ingestOne att = .ok s' ∧ Absorbs s att s') := by
  unfold ingestOne fails
  by_cases haccepts : s.accepts att = true
  · rw [if_pos haccepts, haccepts, Bool.true_and]
    cases hresolved : resolveAttestingValidators att s.committees with
    | error e =>
        have hnobody : attestors s.committees att = [] := by
          rw [attestors, hresolved]
          rfl
        exact .inl ⟨rfl, by simp [usable, hnobody], e, rfl⟩
    | ok resolved =>
        have hmem := mem_attestors hresolved
        by_cases hnil : resolved = []
        · refine .inr ⟨by simp [hnil], s, ?_, .nothing ?_⟩
          · show (if resolved = [] then _ else _) = _
            rw [if_pos hnil]
            rfl
          · simp [usable, hmem, hnil]
        -- an aggregate whose signature does not read is passed over, a single one is refused
        · cases hsingle : att.singleAttester with
          | none =>
              cases hσ : B.fromBytes att.signature with
              | none =>
                  refine .inr ⟨by simp, s, ?_, .nothing (by simp [usable, hσ])⟩
                  show (if resolved = [] then _ else _) = _
                  rw [if_neg hnil]
                  show Except.ok (s.pushAggregate _ _) = _
                  rw [pushAggregate, show att.attestation.signature = att.signature from rfl, hσ]
              | some σ =>
                  refine .inr ⟨by simp, s.hold att.dataSlot ⟨att.attestation, σ,
                    TreeSet.ofList resolved⟩, ?_, .aggregate _ haccepts ?_ hsingle⟩
                  · show (if resolved = [] then _ else _) = _
                    rw [if_neg hnil]
                    show Except.ok (s.pushAggregate _ _) = _
                    rw [pushAggregate, show att.attestation.signature = att.signature from rfl, hσ]
                    rfl
                  · simp [usable, hmem, hnil, hσ]
          | some single =>
              cases hσ : B.fromBytes att.signature with
              | none =>
                  refine .inl ⟨by simp [hnil], by simp [usable, hσ],
                    "a gossiped signature does not decompress", ?_⟩
                  show (if resolved = [] then _ else _) = _
                  rw [if_neg hnil]
                  show s.sumSingle _ _ _ = _
                  rw [sumSingle]
                  show (Guest.expect (B.fromBytes att.signature) _ >>= _) = _
                  rw [hσ]
                  rfl
              | some σ =>
                  obtain ⟨running, hrunning⟩ := sumInto_isOk hadd att.attestation
                    single.attesterIndex σ
                    (s.summed.getD att.dataSlot ∅)[(att.attestation.data, single.committeeIndex)]?
                  refine .inr ⟨by simp, _, ?_,
                    .single single σ running haccepts ?_ hsingle hrunning⟩
                  · show (if resolved = [] then _ else _) = _
                    rw [if_neg hnil]
                    show s.sumSingle _ _ _ = _
                    rw [sumSingle]
                    show (Guest.expect (B.fromBytes att.signature) _ >>= _) = _
                    rw [hσ]
                    show (sumInto att.attestation single.attesterIndex σ
                      (s.summed.getD att.dataSlot ∅)[(att.attestation.data,
                        single.committeeIndex)]? >>= _) = _
                    rw [hrunning]
                    rfl
                  · simp [usable, hmem, hnil, hσ]
  · rw [if_neg haccepts]
    rw [Bool.not_eq_true] at haccepts
    refine .inr ⟨by simp [haccepts], s, rfl, .nothing (by simp [haccepts])⟩

variable {s s' s'' : SlotStream P B} {att : AttestationResponse P}

theorem absorbs (hadd : ∀ σ τ, (B.addSignature σ τ).isSome) (s : SlotStream P B)
    (att : AttestationResponse P) : Absorbs s att (s.absorb att) := by
  rcases ingestOne_spec hadd s att with ⟨-, husable, e, he⟩ | ⟨-, s', hs', habsorbs⟩
  · rw [absorb, he]
    exact .nothing (by rw [husable, Bool.and_false])
  · rw [absorb, hs']
    exact habsorbs

/-- What can be used does not end the batch. -/
theorem fails_of_usable (hadd : ∀ σ τ, (B.addSignature σ τ).isSome) (h : s.usable att = true) :
    s.fails att = false := by
  rcases ingestOne_spec hadd s att with ⟨-, husable, -⟩ | ⟨hfails, -⟩
  · cases h.symm.trans husable
  · exact hfails

/-- No entry changes what is accepted, usable or fails. -/
theorem Absorbs.same (h : Absorbs s att s') (other : AttestationResponse P) :
    s'.accepts other = s.accepts other ∧ s'.usable other = s.usable other ∧
      s'.fails other = s.fails other := by
  cases h with
  | nothing => exact ⟨rfl, rfl, rfl⟩
  | aggregate => exact ⟨rfl, rfl, rfl⟩
  | single => exact ⟨rfl, rfl, rfl⟩

/-! ## A batch -/

/-- The entries of a batch before the first that fails. -/
def before (s : SlotStream P B) (batch : List (AttestationResponse P)) :
    List (AttestationResponse P) := batch.takeWhile fun att => !s.fails att

/-- The entries of a batch behind the first that fails. -/
def behind (s : SlotStream P B) (batch : List (AttestationResponse P)) :
    List (AttestationResponse P) := (batch.dropWhile fun att => !s.fails att).tail

theorem before_of_fails (h : s.fails att = true) (batch : List (AttestationResponse P)) :
    s.before (att :: batch) = [] ∧ s.behind (att :: batch) = batch := by
  rw [before, behind, List.takeWhile_cons_of_neg (by simp [h]),
    List.dropWhile_cons_of_neg (by simp [h])]
  exact ⟨rfl, rfl⟩

theorem before_of_not_fails (h : s.fails att = false) (batch : List (AttestationResponse P)) :
    s.before (att :: batch) = att :: s.before batch ∧
      s.behind (att :: batch) = s.behind batch := by
  rw [before, behind, List.takeWhile_cons_of_pos (by simp [h]),
    List.dropWhile_cons_of_pos (by simp [h])]
  exact ⟨rfl, rfl⟩

/-- An entry that is absorbed moves neither what is before nor what is behind. -/
theorem Absorbs.before_behind (h : Absorbs s att s') (batch : List (AttestationResponse P)) :
    s.before batch = s'.before batch ∧ s.behind batch = s'.behind batch := by
  have hsame : s.fails = s'.fails := funext fun other => (h.same other).2.2.symm
  rw [before, behind, hsame]
  exact ⟨rfl, rfl⟩

/-- **A batch is absorbed as far as the first entry that fails.** -/
theorem ingest_eq_foldl (hadd : ∀ σ τ, (B.addSignature σ τ).isSome) :
    ∀ (batch : List (AttestationResponse P)) (s : SlotStream P B),
      (s.ingest batch).1 = (s.before batch).foldl absorb s
  | [], _ => rfl
  | att :: batch, s => by
      rw [ingest]
      rcases ingestOne_spec hadd s att with ⟨hfails, -, e, he⟩ | ⟨hfails, s', hs', habsorbs⟩
      · rw [(before_of_fails hfails batch).1, he]
        rfl
      · have habsorb : s.absorb att = s' := by rw [absorb, hs']
        rw [(before_of_not_fails hfails batch).1, List.foldl_cons, habsorb, hs',
          (habsorbs.before_behind batch).1]
        exact ingest_eq_foldl hadd batch s'

/-- Entries nothing can be made of change nothing. -/
theorem foldl_filter_usable (hadd : ∀ σ τ, (B.addSignature σ τ).isSome) :
    ∀ (batch : List (AttestationResponse P)) (s : SlotStream P B),
      (batch.filter s.usable).foldl absorb s = batch.foldl absorb s
  | [], _ => rfl
  | att :: batch, s => by
      have habsorbs := absorbs hadd s att
      have husable : s.usable = (s.absorb att).usable :=
        funext fun other => (habsorbs.same other).2.1.symm
      rw [List.foldl_cons, ← foldl_filter_usable hadd batch (s.absorb att), ← husable]
      by_cases h : s.usable att = true
      · rw [List.filter_cons_of_pos h, List.foldl_cons]
      · have hself : s.absorb att = s := by
          generalize s.absorb att = s' at habsorbs
          cases habsorbs with
          | nothing => rfl
          | aggregate _ _ hyes => exact absurd hyes h
          | single _ _ _ _ hyes => exact absurd hyes h
        rw [List.filter_cons_of_neg h, hself]

/-- The entry that fails is absorbed to no effect, between what is before it and behind it. -/
theorem foldl_before_behind (hadd : ∀ σ τ, (B.addSignature σ τ).isSome) :
    ∀ (batch : List (AttestationResponse P)) (s : SlotStream P B),
      batch.foldl absorb s = (s.behind batch).foldl absorb ((s.before batch).foldl absorb s)
  | [], _ => rfl
  | att :: batch, s => by
      rcases ingestOne_spec hadd s att with ⟨hfails, -, e, he⟩ | ⟨hfails, s', hs', habsorbs⟩
      · have hself : s.absorb att = s := by rw [absorb, he]
        rw [(before_of_fails hfails batch).1, (before_of_fails hfails batch).2, List.foldl_cons,
          hself]
        rfl
      · have habsorb : s.absorb att = s' := by rw [absorb, hs']
        rw [(before_of_not_fails hfails batch).1, (before_of_not_fails hfails batch).2,
          List.foldl_cons, List.foldl_cons, habsorb, (habsorbs.before_behind batch).1,
          (habsorbs.before_behind batch).2]
        exact foldl_before_behind hadd batch s'

/-- **What is left of a batch without its unusable entries** is absorbed in full: what the
batch got through, and then what is behind the entry that fails. -/
theorem ingest_filter_eq (hadd : ∀ σ τ, (B.addSignature σ τ).isSome) (s : SlotStream P B)
    (batch : List (AttestationResponse P)) :
    (s.ingest (batch.filter s.usable)).1 =
      (s.behind batch).foldl absorb (s.ingest batch).1 := by
  have hall : s.before (batch.filter s.usable) = batch.filter s.usable := by
    rw [before, List.takeWhile_eq_self_iff]
    intro att hatt
    rw [fails_of_usable hadd (List.mem_filter.mp hatt).2]
    rfl
  calc (s.ingest (batch.filter s.usable)).1
      = (batch.filter s.usable).foldl absorb s := by rw [ingest_eq_foldl hadd, hall]
    _ = batch.foldl absorb s := foldl_filter_usable hadd batch s
    _ = (s.behind batch).foldl absorb ((s.before batch).foldl absorb s) :=
        foldl_before_behind hadd batch s
    _ = (s.behind batch).foldl absorb (s.ingest batch).1 := by rw [ingest_eq_foldl hadd]

/-! ## What entries add -/

/-- A single attestation that is accepted and usable, for a bucket. -/
def Adds (s : SlotStream P B) (att : AttestationResponse P) (slot : UInt64)
    (bucket : DataKey P × UInt64) (i : UInt64) : Prop :=
  s.accepts att = true ∧ s.usable att = true ∧ att.dataSlot = slot ∧
    ∃ single, att.singleAttester = some single ∧
      bucket = (att.attestation.data, single.committeeIndex) ∧ i = single.attesterIndex

section Buckets

variable [TransOrd P.Bytes32] [LawfulEqOrd P.Bytes32] {slot i : UInt64}
  {bucket : DataKey P × UInt64}

omit [LawfulEqOrd P.Bytes32] in
theorem refill_self (running : Summed P B) :
    ((s.refill slot bucket running).summed.getD slot ∅)[bucket]? = some running := by
  rw [refill, TreeMap.getD_insert_self, TreeMap.getElem?_insert_self]

theorem refill_other {other : UInt64} {otherBucket : DataKey P × UInt64} (running : Summed P B)
    (hne : ¬(slot = other ∧ bucket = otherBucket)) :
    ((s.refill slot bucket running).summed.getD other ∅)[otherBucket]? =
      (s.summed.getD other ∅)[otherBucket]? := by
  rw [refill, TreeMap.getD_insert]
  split
  · next heq =>
      obtain rfl := Std.compare_eq_iff_eq.mp heq
      rw [TreeMap.getElem?_insert, if_neg]
      exact fun hcmp => hne ⟨rfl, LawfulEqCmp.eq_of_compare hcmp⟩
  · rfl

/-- **Who is in a bucket afterwards**: whoever was, and the attester it was added for. -/
theorem Absorbs.inBucket (h : Absorbs s att s') :
    s'.InBucket slot bucket i ↔ s.InBucket slot bucket i ∨ s.Adds att slot bucket i := by
  cases h with
  | nothing hnot =>
      refine ⟨.inl, fun hor => hor.resolve_right ?_⟩
      rintro ⟨haccepts, husable, -⟩
      rw [haccepts, husable] at hnot
      cases hnot
  | aggregate a _ _ hnone =>
      refine ⟨.inl, fun hor => hor.resolve_right ?_⟩
      rintro ⟨-, -, -, single, hsingle, -⟩
      cases hnone.symm.trans hsingle
  | single single σ running haccepts husable hsingle hsum =>
      obtain ⟨-, hsigners⟩ := sumInto_eq_ok hsum
      by_cases heq : att.dataSlot = slot ∧ (att.attestation.data, single.committeeIndex) = bucket
      · obtain ⟨rfl, rfl⟩ := heq
        rw [InBucket, refill_self]
        constructor
        · rintro ⟨_, hsome, hi⟩
          obtain rfl := Option.some.inj hsome
          rcases (hsigners i).mp hi with rfl | ⟨old, hold, hi⟩
          · exact .inr ⟨haccepts, husable, rfl, single, hsingle, rfl, rfl⟩
          · exact .inl ⟨old, hold, hi⟩
        · intro hor
          refine ⟨running, rfl, (hsigners i).mpr ?_⟩
          rcases hor with ⟨old, hold, hi⟩ | ⟨-, -, -, other, hother, -, rfl⟩
          · exact .inr ⟨old, hold, hi⟩
          · exact .inl (Option.some.inj (hsingle.symm.trans hother) ▸ rfl)
      · rw [InBucket, refill_other _ heq]
        refine ⟨.inl, fun hor => hor.resolve_right ?_⟩
        rintro ⟨-, -, hslot, other, hother, hbucket, -⟩
        obtain rfl := Option.some.inj (hsingle.symm.trans hother)
        exact heq ⟨hslot, hbucket.symm⟩

theorem foldl_inBucket (hadd : ∀ σ τ, (B.addSignature σ τ).isSome) :
    ∀ (entries : List (AttestationResponse P)) (s : SlotStream P B),
      (entries.foldl absorb s).InBucket slot bucket i ↔
        s.InBucket slot bucket i ∨ ∃ att ∈ entries, s.Adds att slot bucket i
  | [], s => by simp
  | att :: entries, s => by
      have habsorbs := absorbs hadd s att
      have hadds : ∀ other, (s.absorb att).Adds other slot bucket i ↔ s.Adds other slot bucket i := by
        intro other
        rw [Adds, Adds, (habsorbs.same other).1, (habsorbs.same other).2.1]
      rw [List.foldl_cons, foldl_inBucket hadd entries, habsorbs.inBucket]
      simp only [hadds, List.mem_cons, exists_eq_or_imp, or_assoc]

/-! ## When nothing is added -/

omit [TransOrd P.Bytes32] [LawfulEqOrd P.Bytes32] in
/-- What is held aside for a slot only grows, and does with every usable aggregate. -/
theorem Absorbs.pending_length (h : Absorbs s att s') (slot : UInt64) :
    (s.pending.getD slot []).length ≤ (s'.pending.getD slot []).length ∧
      (s.accepts att = true → s.usable att = true → att.singleAttester = none →
        (s.pending.getD att.dataSlot []).length < (s'.pending.getD att.dataSlot []).length) := by
  cases h with
  | nothing hnot =>
      refine ⟨le_rfl, fun haccepts husable => ?_⟩
      rw [haccepts, husable] at hnot
      cases hnot
  | aggregate a =>
      constructor
      · rw [hold, TreeMap.getD_insert]
        split
        · next heq =>
            obtain rfl := Std.compare_eq_iff_eq.mp heq
            simp
        · exact le_rfl
      · intro _ _ _
        rw [hold, TreeMap.getD_insert_self]
        simp
  | single single _ _ _ _ hsingle =>
      exact ⟨le_rfl, fun _ _ hnone => by cases hnone.symm.trans hsingle⟩

omit [TransOrd P.Bytes32] [LawfulEqOrd P.Bytes32] in
theorem foldl_pending_length (hadd : ∀ σ τ, (B.addSignature σ τ).isSome) (slot : UInt64) :
    ∀ (entries : List (AttestationResponse P)) (s : SlotStream P B),
      (s.pending.getD slot []).length ≤ ((entries.foldl absorb s).pending.getD slot []).length
  | [], _ => le_rfl
  | att :: entries, s => by
      rw [List.foldl_cons]
      exact ((absorbs hadd s att).pending_length slot).1.trans
        (foldl_pending_length hadd slot entries _)

omit [TransOrd P.Bytes32] [LawfulEqOrd P.Bytes32] in
/-- A usable aggregate is held aside for good. -/
theorem pending_length_lt (hadd : ∀ σ τ, (B.addSignature σ τ).isSome) :
    ∀ (entries : List (AttestationResponse P)) (s : SlotStream P B), att ∈ entries →
      s.accepts att = true → s.usable att = true → att.singleAttester = none →
        (s.pending.getD att.dataSlot []).length <
          ((entries.foldl absorb s).pending.getD att.dataSlot []).length
  | other :: entries, s, hmem, haccepts, husable, hnone => by
      have habsorbs := absorbs hadd s other
      rw [List.foldl_cons]
      rcases List.mem_cons.mp hmem with rfl | hmem
      · exact ((habsorbs.pending_length att.dataSlot).2 haccepts husable hnone).trans_le
          (foldl_pending_length hadd _ entries _)
      · rw [← (habsorbs.same att).1] at haccepts
        rw [← (habsorbs.same att).2.1] at husable
        exact ((habsorbs.pending_length att.dataSlot).1).trans_lt
          (pending_length_lt hadd entries _ hmem haccepts husable hnone)

omit [TransOrd P.Bytes32] [LawfulEqOrd P.Bytes32] in
theorem Alike.inBucket (h : s.Alike s') :
    s.InBucket slot bucket i ↔ s'.InBucket slot bucket i := by
  rw [InBucket, InBucket, h.buckets]

omit [TransOrd P.Bytes32] [LawfulEqOrd P.Bytes32] in
theorem Alike.same (h : s.Alike s') (att : AttestationResponse P) :
    s.accepts att = s'.accepts att ∧ s.usable att = s'.usable att := by
  rw [← h.settings]
  exact ⟨rfl, rfl⟩

/-- An attester that is in its bucket already is passed over. -/
theorem Absorbs.alike (h : Absorbs s att s')
    (hrepeat : s.accepts att = true → s.usable att = true → ∃ single,
      att.singleAttester = some single ∧ s.InBucket att.dataSlot
        (att.attestation.data, single.committeeIndex) single.attesterIndex) : s.Alike s' := by
  cases h with
  | nothing => exact .refl s
  | aggregate a haccepts husable hnone =>
      obtain ⟨single, hsingle, -⟩ := hrepeat haccepts husable
      cases hnone.symm.trans hsingle
  | single single σ running haccepts husable hsingle hsum =>
      obtain ⟨other, hother, old, hold, hin⟩ := hrepeat haccepts husable
      obtain rfl := Option.some.inj (hsingle.symm.trans hother)
      obtain rfl : old = running := by
        simp only [hold, sumInto] at hsum
        rw [if_pos (TreeMap.mem_iff_contains.mp hin)] at hsum
        exact Guest.pure_eq_ok.mp hsum
      refine ⟨rfl, fun _ => rfl, fun slot => ?_, fun slot bucket => ?_⟩
      · rw [refill, TreeMap.mem_insert, Std.compare_eq_iff_eq]
        refine ⟨.inr, fun hor => hor.elim ?_ id⟩
        rintro rfl
        by_contra hnot
        rw [TreeMap.getD_eq_fallback hnot, TreeMap.getElem?_emptyc] at hold
        cases hold
      · by_cases heq : att.dataSlot = slot ∧
            (att.attestation.data, single.committeeIndex) = bucket
        · obtain ⟨rfl, rfl⟩ := heq
          rw [refill_self, hold]
        · rw [refill_other _ heq]

theorem foldl_alike (hadd : ∀ σ τ, (B.addSignature σ τ).isSome) :
    ∀ (entries : List (AttestationResponse P)) (s' : SlotStream P B), s.Alike s' →
      (∀ att ∈ entries, s.accepts att = true → s.usable att = true → ∃ single,
        att.singleAttester = some single ∧ s.InBucket att.dataSlot
          (att.attestation.data, single.committeeIndex) single.attesterIndex) →
        s.Alike (entries.foldl absorb s')
  | [], _, h, _ => h
  | att :: entries, s', h, hrepeat => by
      obtain ⟨hatt, hentries⟩ := List.forall_mem_cons.mp hrepeat
      refine foldl_alike hadd entries _ (h.trans ((absorbs hadd s' att).alike ?_)) hentries
      intro haccepts husable
      rw [← (h.same att).1] at haccepts
      rw [← (h.same att).2] at husable
      obtain ⟨single, hsingle, hin⟩ := hatt haccepts husable
      exact ⟨single, hsingle, h.inBucket.mp hin⟩

/-- Entries add nothing exactly when each usable one repeats a single attestation. -/
theorem alike_foldl_iff (hadd : ∀ σ τ, (B.addSignature σ τ).isSome)
    (entries : List (AttestationResponse P)) (s : SlotStream P B) :
    s.Alike (entries.foldl absorb s) ↔ ∀ att ∈ entries, s.accepts att = true →
      s.usable att = true → ∃ single, att.singleAttester = some single ∧ s.InBucket att.dataSlot
        (att.attestation.data, single.committeeIndex) single.attesterIndex := by
  refine ⟨fun h att hatt haccepts husable => ?_, foldl_alike hadd entries s (.refl s)⟩
  cases hsingle : att.singleAttester with
  | none =>
      have hlt := pending_length_lt hadd entries s hatt haccepts husable hsingle
      rw [TreeMap.getD_eq_getD_getElem?, TreeMap.getD_eq_getD_getElem?, h.pending] at hlt
      exact absurd hlt (lt_irrefl _)
  | some single =>
      refine ⟨single, rfl, h.inBucket.mpr ((foldl_inBucket hadd entries s).mpr (.inr ?_))⟩
      exact ⟨att, hatt, haccepts, husable, rfl, single, hsingle, rfl, rfl⟩

/-- **A bad attestation costs only itself** exactly when every usable one behind the first
that fails repeats a single attestation: of the collector's, or of the batch before it. -/
theorem ingest_filter_iff (hadd : ∀ σ τ, (B.addSignature σ τ).isSome) (s : SlotStream P B)
    (batch : List (AttestationResponse P)) :
    (s.ingest batch).1.Alike (s.ingest (batch.filter s.usable)).1 ↔
      ∀ att ∈ s.behind batch, s.accepts att = true → s.usable att = true →
        s.Repeats (s.before batch) att := by
  have hsettings : ∀ att, (s.ingest batch).1.accepts att = s.accepts att ∧
      (s.ingest batch).1.usable att = s.usable att := by
    intro att
    obtain ⟨pending, summed, heq, -⟩ := ingest_eq batch s
    rw [heq]
    exact ⟨rfl, rfl⟩
  rw [ingest_filter_eq hadd, alike_foldl_iff hadd]
  refine forall₂_congr fun att _ => ?_
  rw [(hsettings att).1, (hsettings att).2]
  refine imp_congr_right fun _ => imp_congr_right fun _ => exists_congr fun single => ?_
  refine and_congr_right fun _ => ?_
  rw [ingest_eq_foldl hadd, foldl_inBucket hadd]
  refine or_congr_right (exists_congr fun other => and_congr_right fun _ => ?_)
  constructor
  · rintro ⟨haccepts, husable, -, ⟨otherCommittee, otherIndex⟩, hother, hbucket, hindex⟩
    obtain ⟨hdata, hcommittee⟩ := Prod.mk.inj hbucket
    refine ⟨haccepts, husable, hdata.symm, ?_⟩
    obtain ⟨committeeIndex, attesterIndex⟩ := single
    rw [hother]
    simp only at hcommittee hindex
    rw [hcommittee, hindex]
  · rintro ⟨haccepts, husable, hdata, hother⟩
    exact ⟨haccepts, husable, congrArg AttestationData.slot hdata, single, hother, by rw [hdata], rfl⟩

end Buckets

/-! ## A committee that does not exist -/

section Example

open Formal

/-- A vote out of a committee the slot does not have. -/
def nowhere : AttestationResponse (signing headVoteRoot) :=
  { single 0 1 with singleAttester := some ⟨7, 1⟩ }

/-- Behind the bad entry stands a vote that was counted before it: nothing is lost. -/
theorem ingest_filter_iff_repeat :
    (seatedStream.ingest [single 0 0, nowhere, single 0 0]).1.Alike
      (seatedStream.ingest ([single 0 0, nowhere, single 0 0].filter seatedStream.usable)).1 := by
  refine (ingest_filter_iff (fun _ _ => rfl) seatedStream _).mpr ?_
  intro att hatt haccepts husable
  have hbatch : att ∈ [single 0 0, nowhere, single 0 0] :=
    (List.dropWhile_sublist _).subset (List.mem_of_mem_tail hatt)
  have hbad : seatedStream.usable nowhere = false := by decide +kernel
  have hgood : att = single 0 0 := by
    rcases List.mem_cons.mp hbatch with rfl | hbatch
    · rfl
    · rcases List.mem_cons.mp hbatch with rfl | hbatch
      · cases husable.symm.trans hbad
      · exact List.mem_singleton.mp hbatch
  subst hgood
  have hmem : single 0 0 ∈ seatedStream.before [single 0 0, nowhere, single 0 0] :=
    (before_of_not_fails (fails_of_usable (fun _ _ => rfl) husable) _).1 ▸ List.mem_cons_self
  exact ⟨⟨0, 0⟩, rfl, .inr ⟨single 0 0, hmem, haccepts, husable, rfl, rfl⟩⟩

/-- **A bad attestation costs what stands behind it**: validator 0's vote is lost. -/
theorem ingest_loses : ¬ ∀ (s : SlotStream (signing headVoteRoot) shares)
    (batch : List (AttestationResponse (signing headVoteRoot))),
      (s.ingest batch).1.Alike (s.ingest (batch.filter s.usable)).1 := by
  intro h
  have hsame := (h seatedStream [nowhere, single 0 0]).summed 64
  have hlost : ¬(64 ∈ (seatedStream.ingest [nowhere, single 0 0]).1.summed ↔
      64 ∈ (seatedStream.ingest ([nowhere, single 0 0].filter seatedStream.usable)).1.summed) := by
    decide +kernel
  exact hlost hsame

end Example

end Zkasper.SlotStream
