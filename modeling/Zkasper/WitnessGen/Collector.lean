import Zkasper.WitnessGen.Committees
import Mathlib.Data.List.Sort

/-! # The attestation collector

`SlotStream` files every attestation for one target checkpoint under the slot it
attests to: network aggregates as they were published, single attestations summed
per message and committee. At any instant a slot can be priced as the complement
that would prove it (`peek`), and once it is taken it is forgotten for good.

The host's signature library is a parameter (`Blst`), and so is the order of 32-byte
values, which only decides the order the maps are walked in. -/

namespace Zkasper

open Std

/-- A `collect` into an option: every element has its image, in order. -/
theorem mapM_eq_some {α β : Type} {f : α → Option β} {as : List α} {bs : List β} :
    as.mapM f = some bs ↔ as.map f = bs.map some := by
  induction as generalizing bs with
  | nil => cases bs <;> simp
  | cons a as ih =>
      rw [List.mapM_cons]
      cases bs with
      | nil => simp [Option.bind_eq_some_iff]
      | cons b bs => simp [Option.bind_eq_some_iff, ih]

/-- Everything collected is the image of something. -/
theorem exists_of_mem_mapM {α β : Type} {f : α → Option β} {as : List α} {bs : List β} {b : β}
    (h : as.mapM f = some bs) (hb : b ∈ bs) : ∃ a ∈ as, f a = some b := by
  apply List.mem_map.mp
  rw [mapM_eq_some.mp h]
  exact List.mem_map_of_mem hb

/-- What is read off the images was there before. -/
theorem map_of_mapM {α β γ : Type} {f : α → Option β} {g : β → γ} {h : α → γ}
    (hf : ∀ a b, f a = some b → g b = h a) : ∀ {as : List α} {bs : List β},
      as.mapM f = some bs → bs.map g = as.map h := by
  intro as
  induction as with
  | nil =>
      intro bs hbs
      obtain rfl := Option.some.inj hbs
      rfl
  | cons a as ih =>
      intro bs hbs
      rw [List.mapM_cons] at hbs
      obtain ⟨b, hb, hrest⟩ := Option.bind_eq_some_iff.mp hbs
      obtain ⟨rest, hmap, hret⟩ := Option.bind_eq_some_iff.mp hrest
      obtain rfl := Option.some.inj hret
      rw [List.map_cons, List.map_cons, hf a b hb, ih hmap]

/-! ## Records -/

/-- `blst::min_pk`: how the host reads, adds and writes signatures. -/
structure Blst where
  Signature : Type
  /-- `Signature::from_bytes` -/
  fromBytes : BlsSignature → Option Signature
  /-- `AggregateSignature::add_signature`, its group check off. -/
  addSignature : Signature → Signature → Option Signature
  /-- `Signature::to_bytes` -/
  toBytes : Signature → BlsSignature

/-- The one validator a single attestation names, and the committee it sits in. -/
structure SingleAttester where
  committeeIndex : UInt64
  attesterIndex : UInt64

section Records

variable (P : Primitives)

/-- An attestation as the node delivers it. -/
structure AttestationResponse where
  aggregationBits : List UInt8
  committeeBits : List UInt8
  singleAttester : Option SingleAttester
  dataSlot : UInt64
  dataIndex : UInt64
  dataBeaconBlockRoot : P.Bytes32
  dataSourceEpoch : UInt64
  dataSourceRoot : P.Bytes32
  dataTargetEpoch : UInt64
  dataTargetRoot : P.Bytes32
  signature : BlsSignature

/-- One attestation slot, ready to be proven as a complement. -/
structure SlotComplement where
  /-- The attestation slot, globally numbered. -/
  slot : UInt64
  witness : SlotComplementWitness P
  /-- What this slot adds to the epoch: committee balance minus absentees. -/
  marginalBalance : UInt64
  /-- Validator indices the witness names, sorted. -/
  namedIndices : List UInt64

/-- One aggregate as the node published it, with its signers resolved. -/
structure Aggregate (B : Blst) where
  attestation : AttestationWitness P
  signature : B.Signature
  signers : TreeSet UInt64

/-- One committee's single attestations over one message, summed as they arrive. -/
structure Summed (B : Blst) where
  attestation : AttestationWitness P
  signature : B.Signature
  /-- Every signer, with the signature it arrived under. -/
  signers : TreeMap UInt64 B.Signature

/-- `AttestationData`, as the key that decides which aggregates share a message. -/
abbrev DataKey := AttestationData P

end Records

variable {P : Primitives} {B : Blst}

/-- The source compares the key as a tuple. -/
abbrev dataCompare [Ord P.Bytes32] : DataKey P → DataKey P → Ordering :=
  compareLex (compareOn (·.slot)) <| compareLex (compareOn (·.index)) <|
    compareLex (compareOn (·.beaconBlockRoot)) <| compareLex (compareOn (·.sourceEpoch)) <|
    compareLex (compareOn (·.sourceRoot)) <| compareLex (compareOn (·.targetEpoch))
      (compareOn (·.targetRoot))

/-- A message, and the committee that signed it. -/
abbrev bucketCompare [Ord P.Bytes32] : DataKey P × UInt64 → DataKey P × UInt64 → Ordering :=
  compareLex (fun a b => dataCompare a.1 b.1) (compareOn Prod.snd)

/-- Incremental collector for one target checkpoint. -/
structure SlotStream (P : Primitives) [Ord P.Bytes32] (B : Blst) where
  targetEpoch : UInt64
  targetRoot : P.Bytes32
  sourceEpoch : UInt64
  sourceRoot : P.Bytes32
  slotsPerEpoch : UInt64
  committees : EpochCommittees P
  /-- Network aggregates seen so far, keyed by the slot they attest to. -/
  pending : TreeMap UInt64 (List (Aggregate P B))
  /-- Single attestations, summed per message and committee, keyed likewise. -/
  summed : TreeMap UInt64 (TreeMap (DataKey P × UInt64) (Summed P B) bucketCompare)
  /-- Slots `forget` has been called for. -/
  closed : TreeSet UInt64

/-! ## Sums of signatures -/

/-- The running total, as an aggregate like any other. -/
def Summed.aggregate (s : Summed P B) : Aggregate P B where
  attestation := { s.attestation with signature := B.toBytes s.signature }
  signature := s.signature
  signers := TreeSet.ofList s.signers.keys

/-- The part of a bucket that `covered` does not already carry, none if it carries
all of it. -/
def Summed.residual (s : Summed P B) (covered : TreeSet UInt64) : Option (Aggregate P B) :=
  if !s.signers.keys.any covered.contains then some s.aggregate
  else
    match s.signers.toList.filter fun entry => !covered.contains entry.1 with
    | [] => none
    | first :: rest => do
        let signature ← (rest.map Prod.snd).foldlM B.addSignature first.2
        return {
          attestation := { s.attestation with signature := B.toBytes signature }
          signature
          signers := TreeSet.ofList ((first :: rest).map Prod.fst) }

/-- Sum a message's chosen aggregates into the one the circuit derives a key for. -/
def merge : List (Aggregate P B) → Option (AttestationWitness P)
  | [] => none
  | first :: rest => do
      let sum ← (rest.map (·.signature)).foldlM B.addSignature first.signature
      return { first.attestation with signature := B.toBytes sum }

/-! ## Who signed -/

/-- Get the bit at position `idx` of a little-endian bitfield. -/
def getBit (bitfield : List UInt8) (idx : ℕ) : Bool :=
  match bitfield[idx / 8]? with
  | none => false
  | some byte => (byte >>> UInt8.ofNat (idx % 8)) &&& 1 = 1

/-- The members of a committee whose bits are set, the first one's at `offset`. -/
def selected (aggregationBits : List UInt8) (offset : ℕ) (committee : List UInt64) : List UInt64 :=
  (committee.zipIdx offset).filterMap fun entry =>
    if getBit aggregationBits entry.2 then some entry.1 else none

/-- One committee of an attestation over several: its attesters, and where the next
one's bits start. A committee that does not exist has no bits. -/
def selectCommittee (att : AttestationResponse P) (committees : EpochCommittees P)
    (s : ℕ × List UInt64) (committeeIndex : ℕ) : ℕ × List UInt64 :=
  if getBit att.committeeBits committeeIndex then
    match committees.committee att.dataSlot (UInt64.ofNat committeeIndex) with
    | none => s
    | some committee =>
        (s.1 + committee.length, s.2 ++ selected att.aggregationBits s.1 committee)
  else s

/-- Resolve which validators are attesting in an attestation. -/
def resolveAttestingValidators (att : AttestationResponse P) (committees : EpochCommittees P) :
    Except String (List UInt64) :=
  match att.singleAttester with
  | some single => do
      let committee ← Guest.expect (committees.committee att.dataSlot single.committeeIndex)
        "committee not found"
      return if single.attesterIndex ∈ committee then [single.attesterIndex] else []
  | none =>
      if att.committeeBits = [] then do
        -- before Electra: one committee, identified by the index of the data
        let committee ← Guest.expect (committees.committee att.dataSlot att.dataIndex)
          "committee not found"
        return selected att.aggregationBits 0 committee
      else
        return ((List.range (att.committeeBits.length * 8)).foldl (selectCommittee att committees)
          (0, [])).2

/-- The message of an attestation, its signature as it arrived. -/
def AttestationResponse.attestation (att : AttestationResponse P) : AttestationWitness P where
  dataSlot := att.dataSlot
  dataIndex := att.dataIndex
  dataBeaconBlockRoot := att.dataBeaconBlockRoot
  dataSourceEpoch := att.dataSourceEpoch
  dataSourceRoot := att.dataSourceRoot
  dataTargetEpoch := att.dataTargetEpoch
  dataTargetRoot := att.dataTargetRoot
  signature := att.signature
  attestingValidators := []

namespace SlotStream

variable [Ord P.Bytes32]

/-! ## Collecting -/

def new (slotsPerEpoch : UInt64) (committees : EpochCommittees P) (targetEpoch : UInt64)
    (targetRoot sourceRoot : P.Bytes32) : SlotStream P B where
  targetEpoch
  targetRoot
  -- `saturating_sub`
  sourceEpoch := if targetEpoch = 0 then 0 else targetEpoch - 1
  sourceRoot
  slotsPerEpoch
  committees
  pending := ∅
  summed := ∅
  closed := ∅

/-- Add a signature to a bucket, unless its attester is already in it. -/
def sumInto (attestation : AttestationWitness P) (attester : UInt64) (signature : B.Signature) :
    Option (Summed P B) → Except String (Summed P B)
  | none => return ⟨attestation, signature, TreeMap.ofList [(attester, signature)]⟩
  | some running =>
      if running.signers.contains attester then return running
      else do
        let sum ← Guest.expect (B.addSignature running.signature signature)
          "summing a gossiped signature failed"
        return ⟨running.attestation, sum, running.signers.insert attester signature⟩

/-- Add one single attestation to its committee's running signature. -/
def sumSingle (s : SlotStream P B) (attestation : AttestationWitness P)
    (committeeIndex attester : UInt64) : Except String (SlotStream P B) := do
  let signature ← Guest.expect (B.fromBytes attestation.signature)
    "a gossiped signature does not decompress"
  let messages := s.summed.getD attestation.dataSlot ∅
  let bucket := (attestation.data, committeeIndex)
  let running ← sumInto attestation attester signature messages[bucket]?
  return { s with
    summed := s.summed.insert attestation.dataSlot (messages.insert bucket running) }

/-- Hold an aggregate aside. One that cannot be read is one less cover to choose from. -/
def pushAggregate (s : SlotStream P B) (attestation : AttestationWitness P)
    (signers : TreeSet UInt64) : SlotStream P B :=
  match B.fromBytes attestation.signature with
  | none => s
  | some signature =>
      let aggregates := s.pending.getD attestation.dataSlot []
      { s with
        pending := s.pending.insert attestation.dataSlot
          (aggregates ++ [⟨attestation, signature, signers⟩]) }

/-- Whether an attestation is for this checkpoint, and for a slot that is still taken. -/
def accepts (s : SlotStream P B) (att : AttestationResponse P) : Bool :=
  att.dataTargetEpoch = s.targetEpoch && att.dataTargetRoot = s.targetRoot &&
    att.dataSourceEpoch = s.sourceEpoch && att.dataSourceRoot = s.sourceRoot &&
    !s.closed.contains att.dataSlot

/-- One attestation of the loop. One that fails has changed nothing. -/
def ingestOne (s : SlotStream P B) (att : AttestationResponse P) :
    Except String (SlotStream P B) :=
  if s.accepts att then do
    let resolved ← resolveAttestingValidators att s.committees
    if resolved = [] then return s
    else
      match att.singleAttester with
      | some single => s.sumSingle att.attestation single.committeeIndex single.attesterIndex
      | none => return s.pushAggregate att.attestation (TreeSet.ofList resolved)
  else return s

/-- Feed whatever has arrived, gossiped or included in a block. The first attestation
that fails ends the loop: what came before it stays, what comes after it is lost. -/
def ingest (s : SlotStream P B) : List (AttestationResponse P) → SlotStream P B × Except String Unit
  | [] => (s, .ok ())
  | att :: attestations =>
      match s.ingestOne att with
      | .ok s' => s'.ingest attestations
      | .error e => (s, .error e)

/-- Drop a slot that has been taken, for good. -/
def forget (s : SlotStream P B) (slot : UInt64) : SlotStream P B :=
  { s with
    pending := s.pending.erase slot
    summed := s.summed.erase slot
    closed := s.closed.insert slot }

/-- Network aggregates seen for `slot` so far. -/
def aggregates (s : SlotStream P B) (slot : UInt64) : ℕ := (s.pending.getD slot []).length

/-- Attestation slots that have been fed and not yet closed. -/
def openSlots (s : SlotStream P B) : List UInt64 :=
  (s.pending.keys ++ s.summed.keys).dedup.insertionSort (· ≤ ·)

/-! ## Pricing a slot -/

/-- The accumulator leaf preimage for one validator. The members of the committee
proof are sorted, and the source searches them by bisection. -/
def opened (s : SlotStream P B) (index : UInt64) : Option (OpenedValidator P) :=
  (s.committees.witness.members.find? fun m => m.validatorIndex = index).map fun m =>
    ⟨m.validatorIndex, m.pubkey, m.activeEffectiveBalance⟩

/-- What a cover holds for each message: the aggregates counted, and who they cover. -/
abbrev Cover (P : Primitives) [Ord P.Bytes32] (B : Blst) :=
  TreeMap (DataKey P) (List (Aggregate P B) × TreeSet UInt64) dataCompare

/-- Count an aggregate over its message, unless someone in it is covered already. -/
def cover (byMessage : Cover P B) (entry : DataKey P × Aggregate P B) : Cover P B :=
  let (aggregates, signers) := byMessage.getD entry.1 ([], ∅)
  if entry.2.signers.toList.any signers.contains then
    byMessage.insert entry.1 (aggregates, signers)
  else
    byMessage.insert entry.1
      (aggregates ++ [entry.2], signers.insertMany entry.2.signers.toList)

/-- The network's aggregates, largest first and only where disjoint from what is
already counted over their message. -/
def packed (s : SlotStream P B) (slot : UInt64) : Cover P B :=
  let order := (s.pending.getD slot []).insertionSort fun a b => b.signers.size ≤ a.signers.size
  (order.map fun aggregate => (aggregate.attestation.data, aggregate)).foldl cover ∅

/-- What the packing missed of every bucket. -/
def residuals (s : SlotStream P B) (slot : UInt64) : List (DataKey P × Aggregate P B) :=
  (s.summed.getD slot ∅).toList.filterMap fun ((key, _), summed) =>
    (summed.residual ((s.packed slot).getD key ([], ∅)).2).map fun aggregate => (key, aggregate)

/-- The whole cover: the packing, then every residual that is disjoint from it. -/
def covered (s : SlotStream P B) (slot : UInt64) : Cover P B :=
  (s.residuals slot).foldl cover (s.packed slot)

/-- `max_by_key` over the number of signers: the last of the largest. -/
def largest (byMessage : Cover P B) : Option (DataKey P) :=
  (byMessage.toList.foldl (fun best entry =>
    match best with
    | none => some entry
    | some b => if b.2.2.size ≤ entry.2.2.size then some entry else some b) none).map Prod.fst

/-- An aggregate of a minority message, its own signers named. -/
def nameAggregate (s : SlotStream P B) (aggregate : Aggregate P B) :
    Option (AttestationWitness P) := do
  let attestingValidators ← aggregate.signers.toList.mapM s.opened
  return { aggregate.attestation with attestingValidators }

/-- What closing `slot` right now would produce, without closing it. -/
def peek (s : SlotStream P B) (slot : UInt64) : Option (SlotComplement P) := do
  let slotInEpoch := slot % s.slotsPerEpoch
  let committee ← s.committees.aggregate slotInEpoch
  -- both tables hold an entry for every slot a committee tree has
  let members := s.committees.members.getD slotInEpoch.toNat []
  if (s.summed.getD slot ∅).isEmpty && (s.pending.getD slot []).isEmpty then none
  else do
    let byMessage := s.covered slot
    let primaryKey ← largest byMessage
    let (primaryAggregates, primarySigners) ← byMessage[primaryKey]?
    let minority := (byMessage.erase primaryKey).toList.map Prod.snd
    let secondary ← (minority.flatMap Prod.fst).mapM s.nameAggregate
    let named := minority.foldl (fun named entry => named.insertMany entry.2.toList)
      (∅ : TreeSet UInt64)
    let absentees ← (members.filter fun index =>
      !primarySigners.contains index && !named.contains index).mapM s.opened
    let primary ← merge primaryAggregates
    return {
      slot
      marginalBalance :=
        committee.balance - (absentees.map (·.activeEffectiveBalance)).foldl (· + ·) 0
      namedIndices := (named.insertMany (absentees.map (·.validatorIndex))).toList
      witness := { slotInEpoch, committee, primary := [primary], secondary, absentees } }

/-- Close an attestation slot into the complement that proves it. -/
def close (s : SlotStream P B) (slot : UInt64) : SlotStream P B × Option (SlotComplement P) :=
  match s.peek slot with
  | none => (s, none)
  | some complement => (s.forget slot, some complement)

/-! ## Open and closed slots -/

/-- Something has been filed under the slot. -/
def IsOpen (s : SlotStream P B) (slot : UInt64) : Prop := slot ∈ s.pending ∨ slot ∈ s.summed

/-- No slot that was taken is collected all over again. -/
def Apart (s : SlotStream P B) : Prop := ∀ slot, s.IsOpen slot → slot ∉ s.closed

theorem mem_openSlots {s : SlotStream P B} {slot : UInt64} :
    slot ∈ s.openSlots ↔ s.IsOpen slot := by
  rw [openSlots, List.mem_insertionSort, List.mem_dedup, List.mem_append, TreeMap.mem_keys,
    TreeMap.mem_keys]
  rfl

/-- Open slots come in ascending order, each once. -/
theorem openSlots_pairwise (s : SlotStream P B) : s.openSlots.Pairwise (· < ·) := by
  have hsorted : s.openSlots.Pairwise (· ≤ ·) := List.pairwise_insertionSort _ _
  have hnodup : s.openSlots.Nodup :=
    (List.perm_insertionSort _ _).nodup_iff.mpr (List.nodup_dedup _)
  exact (hsorted.and hnodup).imp fun ⟨hle, hne⟩ => lt_of_le_of_ne hle hne

/-- What one attestation does: it files itself under a slot that is still taken, or
does nothing. -/
theorem ingestOne_eq_ok {s s' : SlotStream P B} {att : AttestationResponse P}
    (h : s.ingestOne att = .ok s') :
    ∃ pending summed, s' = { s with pending, summed } ∧
      ∀ slot, slot ∈ pending ∨ slot ∈ summed → s.IsOpen slot ∨ slot ∉ s.closed := by
  unfold ingestOne at h
  split at h
  · next haccepts =>
      have hclosed : att.dataSlot ∉ s.closed := by
        simp only [accepts, Bool.and_eq_true, Bool.not_eq_true'] at haccepts
        rw [TreeSet.mem_iff_contains, haccepts.2]
        exact Bool.false_ne_true
      obtain ⟨resolved, -, h⟩ := Guest.bind_eq_ok.mp h
      split at h
      · obtain rfl := Guest.pure_eq_ok.mp h
        exact ⟨s.pending, s.summed, rfl, fun slot hslot => .inl hslot⟩
      · split at h
        · simp only [sumSingle, Guest.bind_eq_ok, Guest.pure_eq_ok] at h
          obtain ⟨signature, -, running, -, rfl⟩ := h
          refine ⟨_, _, rfl, fun slot hslot => ?_⟩
          rcases hslot with hslot | hslot
          · exact .inl (.inl hslot)
          · rcases TreeMap.mem_insert.mp hslot with heq | hslot
            · rw [← Std.compare_eq_iff_eq.mp heq]
              exact .inr hclosed
            · exact .inl (.inr hslot)
        · obtain rfl := Guest.pure_eq_ok.mp h
          unfold pushAggregate
          split
          · exact ⟨s.pending, s.summed, rfl, fun slot hslot => .inl hslot⟩
          · refine ⟨_, _, rfl, fun slot hslot => ?_⟩
            rcases hslot with hslot | hslot
            · rcases TreeMap.mem_insert.mp hslot with heq | hslot
              · rw [← Std.compare_eq_iff_eq.mp heq]
                exact .inr hclosed
              · exact .inl (.inl hslot)
            · exact .inl (.inr hslot)
  · obtain rfl := Guest.pure_eq_ok.mp h
    exact ⟨s.pending, s.summed, rfl, fun slot hslot => .inl hslot⟩

/-- **What a batch does**, whether or not it ends early: it files attestations under
slots that are still taken. -/
theorem ingest_eq (attestations : List (AttestationResponse P)) : ∀ s : SlotStream P B,
    ∃ pending summed, (s.ingest attestations).1 = { s with pending, summed } ∧
      ∀ slot, slot ∈ pending ∨ slot ∈ summed → s.IsOpen slot ∨ slot ∉ s.closed := by
  induction attestations with
  | nil => intro s; exact ⟨s.pending, s.summed, rfl, fun slot hslot => .inl hslot⟩
  | cons att attestations ih =>
      intro s
      rw [ingest]
      cases hone : s.ingestOne att with
      | error e => exact ⟨s.pending, s.summed, rfl, fun slot hslot => .inl hslot⟩
      | ok s' =>
          obtain ⟨pending, summed, rfl, hopen⟩ := ingestOne_eq_ok hone
          obtain ⟨pending', summed', hrest, hopen'⟩ := ih { s with pending, summed }
          refine ⟨pending', summed', hrest, fun slot hslot => ?_⟩
          rcases hopen' slot hslot with hslot | hslot
          · exact hopen slot hslot
          · exact .inr hslot

theorem Apart.ingest {s : SlotStream P B} (h : s.Apart) (attestations : List (AttestationResponse P)) :
    (s.ingest attestations).1.Apart := by
  obtain ⟨pending, summed, heq, hopen⟩ := ingest_eq attestations s
  rw [heq]
  intro slot hslot
  rcases hopen slot hslot with hslot | hslot
  · exact h slot hslot
  · exact hslot

theorem isOpen_forget {s : SlotStream P B} {slot other : UInt64} :
    (s.forget slot).IsOpen other ↔ slot ≠ other ∧ s.IsOpen other := by
  simp only [IsOpen, forget, TreeMap.mem_erase, ne_eq, Std.compare_eq_iff_eq]
  tauto

theorem mem_closed_forget {s : SlotStream P B} {slot other : UInt64} :
    other ∈ (s.forget slot).closed ↔ slot = other ∨ other ∈ s.closed := by
  simp only [forget, TreeSet.mem_insert, Std.compare_eq_iff_eq]

theorem Apart.forget {s : SlotStream P B} (h : s.Apart) (slot : UInt64) : (s.forget slot).Apart := by
  intro other hother
  obtain ⟨hne, hopen⟩ := isOpen_forget.mp hother
  rw [mem_closed_forget]
  rintro (rfl | hclosed)
  · exact hne rfl
  · exact h other hopen hclosed

theorem new_apart {slotsPerEpoch targetEpoch : UInt64} {committees : EpochCommittees P}
    {targetRoot sourceRoot : P.Bytes32} :
    (new slotsPerEpoch committees targetEpoch targetRoot sourceRoot : SlotStream P B).Apart := by
  rintro slot (hslot | hslot)
  · exact absurd hslot TreeMap.not_mem_emptyc
  · exact absurd hslot TreeMap.not_mem_emptyc

/-! ## What a complement says -/

/-- **A complement of the slot**: its committee is the epoch's, and its balance is the
committee's less the absentees'. -/
structure Prices (committees : EpochCommittees P) (slotsPerEpoch : UInt64)
    (unit : SlotComplement P) : Prop where
  slotInEpoch : unit.witness.slotInEpoch = unit.slot % slotsPerEpoch
  committee : committees.aggregate unit.witness.slotInEpoch = some unit.witness.committee
  marginal : unit.marginalBalance = unit.witness.committee.balance -
    (unit.witness.absentees.map (·.activeEffectiveBalance)).foldl (· + ·) 0

theorem peek_prices {s : SlotStream P B} {slot : UInt64} {unit : SlotComplement P}
    (h : s.peek slot = some unit) :
    unit.slot = slot ∧ Prices s.committees s.slotsPerEpoch unit := by
  unfold peek at h
  simp only [Option.bind_eq_bind, Option.bind_eq_some_iff, Option.pure_def] at h
  obtain ⟨committee, hcommittee, h⟩ := h
  split at h
  · cases h
  · simp only [Option.bind_eq_some_iff, Option.some.injEq] at h
    obtain ⟨primaryKey, -, ⟨aggregates, signers⟩, -, secondary, -, absentees, -, primary, -, rfl⟩ := h
    exact ⟨rfl, rfl, hcommittee, rfl⟩

/-- A slot that can be priced has been fed. -/
theorem isOpen_of_peek {s : SlotStream P B} {slot : UInt64} {unit : SlotComplement P}
    (h : s.peek slot = some unit) : s.IsOpen slot := by
  unfold peek at h
  simp only [Option.bind_eq_bind, Option.bind_eq_some_iff] at h
  obtain ⟨committee, -, h⟩ := h
  split at h
  · cases h
  · next hfed =>
      by_contra hopen
      obtain ⟨hpending, hsummed⟩ := not_or.mp hopen
      apply hfed
      rw [TreeMap.getD_eq_fallback hpending, TreeMap.getD_eq_fallback hsummed]
      rfl

end SlotStream
end Zkasper
