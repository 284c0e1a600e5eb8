import Zkasper.Supermajority
import Zkasper.WitnessGen.Units

/-! # The order of the slots

A slot proof insists on strictly ascending slots, and so does the opening of the
committee tree. The pipeline hands over units in the order it closed them, which is
ascending within a tick and says nothing across ticks: a slot whose first attestation
arrives after a later slot was closed is appended behind it. Where no slot opens below
a unit that still waits to be handed over, everything handed over is ascending. -/

namespace Zkasper.Streaming

open StreamAggregator StreamPipeline

variable {P : Primitives} [Ord P.Bytes32] {B : Blst} {𝕜 : Type} [LinearOrder 𝕜] [AddCommGroup 𝕜]

/-- Slots come strictly ascending, as the circuit insists. -/
def Ascending (slots : List (SlotComplementWitness P)) : Prop :=
  (slots.map (·.slotInEpoch)).Pairwise (· < ·)

/-- The slots a witness has proven: a group's, or the final proof's inline tail. -/
def Job.slots : Job P → List (SlotComplementWitness P)
  | .group witness => witness.slots
  | .aggregate _ => []
  | .final witness => witness.tail

/-- No slot is open below a unit that still waits to be handed over. -/
def NoneBelow (slotsPerEpoch : UInt64) (a : StreamAggregator P B) : Prop :=
  ∀ unit ∈ a.units.drop a.handed, ∀ opened ∈ a.openUnits slotsPerEpoch, unit.slot < opened.slot

/-- A tick of an epoch whose slots are numbered in 64 bits, with nothing open below a
waiting unit when the trigger is asked. -/
def InOrder (config : Config 𝕜) (tick : Tick P) (s : StreamPipeline P B) : Prop :=
  (tick.cursorEpoch.toNat + 1) * config.slotsPerEpoch.toNat ≤ 2 ^ 64 ∧
    ∀ a, prepare config tick s = .free a → NoneBelow config.slotsPerEpoch a

instance (slots : List (SlotComplementWitness P)) : Decidable (Ascending slots) :=
  inferInstanceAs (Decidable (List.Pairwise _ _))

instance (slotsPerEpoch : UInt64) (a : StreamAggregator P B) :
    Decidable (NoneBelow slotsPerEpoch a) :=
  inferInstanceAs (Decidable (∀ unit ∈ a.units.drop a.handed,
    ∀ opened ∈ a.openUnits slotsPerEpoch, unit.slot < opened.slot))

instance (slotsPerEpoch : UInt64) : (prepared : Prepared P B) →
    Decidable (∀ a, prepared = .free a → NoneBelow slotsPerEpoch a)
  | .over .. => isTrue (by simp)
  | .free a => decidable_of_iff (NoneBelow slotsPerEpoch a) (by simp)

instance (config : Config 𝕜) (tick : Tick P) (s : StreamPipeline P B) :
    Decidable (InOrder config tick s) :=
  inferInstanceAs (Decidable (_ ∧ _))

/-! ## Slots within the epoch -/

section Slots

variable {slotsPerEpoch epoch s t : UInt64}

/-- Within an epoch a later slot has the larger number. -/
theorem slotInEpoch_lt (hfits : (epoch.toNat + 1) * slotsPerEpoch.toNat ≤ 2 ^ 64)
    (hs : InEpoch slotsPerEpoch epoch s) (ht : InEpoch slotsPerEpoch epoch t) (hlt : s < t) :
    s % slotsPerEpoch < t % slotsPerEpoch := by
  have hend : ((epoch + 1) * slotsPerEpoch).toNat ≤ (epoch.toNat + 1) * slotsPerEpoch.toNat := by
    rw [UInt64.toNat_mul, UInt64.toNat_add]
    exact (Nat.mod_le _ _).trans (Nat.mul_le_mul_right _ (Nat.mod_le _ _))
  have ht' : t.toNat < (epoch.toNat + 1) * slotsPerEpoch.toNat :=
    (UInt64.lt_iff_toNat_lt.mp ht.2).trans_le hend
  have hpos : 0 < slotsPerEpoch.toNat := Nat.pos_of_mul_pos_left (Nat.zero_lt_of_lt ht')
  have hlt' : s.toNat < t.toNat := UInt64.lt_iff_toNat_lt.mp hlt
  have hs' : epoch.toNat * slotsPerEpoch.toNat ≤ s.toNat := by
    have hle := UInt64.le_iff_toNat_le.mp hs.1
    rw [UInt64.toNat_mul, Nat.mod_eq_of_lt] at hle
    · exact hle
    · rw [Nat.add_mul] at hfits ht'
      omega
  rw [UInt64.lt_iff_toNat_lt, UInt64.toNat_mod, UInt64.toNat_mod]
  -- both slots are the epoch's first plus less than an epoch
  obtain ⟨i, hi⟩ := Nat.exists_eq_add_of_le hs'
  obtain ⟨j, hj⟩ := Nat.exists_eq_add_of_le (hs'.trans hlt'.le)
  rw [Nat.add_mul, Nat.one_mul] at ht'
  rw [hi, hj, Nat.mul_add_mod_self_right, Nat.mul_add_mod_self_right, Nat.mod_eq_of_lt (by omega),
    Nat.mod_eq_of_lt (by omega)]
  omega

end Slots

/-! ## The invariant -/

/-- What is waiting is ascending; a proof in flight has taken its units with it. -/
def Waiting (a : StreamAggregator P B) : Option (Pending P) → Prop
  | none => Ascending ((a.units.drop a.handed).map (·.witness))
  | some (.group group) => Ascending ((a.units.drop group.range.stop).map (·.witness))
  | some (.fold _ proved _) =>
      a.unfolded = none ∧ Ascending ((a.units.drop proved).map (·.witness))
  | some (.late ..) => False
  | some (.final ..) => True

/-- Each slot is taken once, and what is waiting is ascending. -/
structure Ordered (config : Config 𝕜) (a : StreamAggregator P B) (pending : Option (Pending P)) :
    Prop where
  taken : a.Taken config.slotsPerEpoch
  fits : (a.context.targetEpoch.toNat + 1) * config.slotsPerEpoch.toNat ≤ 2 ^ 64
  waiting : Waiting a pending

variable {config : Config 𝕜} {tick : Tick P} {a a' : StreamAggregator P B}
  {pending : Option (Pending P)}

omit [Ord P.Bytes32] [LinearOrder 𝕜] [AddCommGroup 𝕜] in
theorem Ascending.sublist {slots slots' : List (SlotComplementWitness P)} (h : Ascending slots')
    (hsublist : slots.Sublist slots') : Ascending slots :=
  List.Pairwise.sublist (hsublist.map _) h

omit [LinearOrder 𝕜] [AddCommGroup 𝕜] in
theorem Ordered.stable (pending : Option (Pending P)) :
    Stable fun a : StreamAggregator P B => Ordered config a pending := by
  intro a attestations nextSlot gap reorged crossed since blocked h
  refine
    ⟨taken_stable a attestations nextSlot gap reorged crossed since blocked h.taken, h.fits, ?_⟩
  -- arrivals leave the units and the progress alone
  have hwaiting := h.waiting
  rcases pending with _ | group | fold | late | final <;> exact hwaiting

omit [LinearOrder 𝕜] [AddCommGroup 𝕜] in
/-- **Closing slots** above what is waiting. -/
theorem Ordered.close {units : List (SlotComplement P)} (h : Ordered config a none)
    (hbelow : NoneBelow config.slotsPerEpoch a)
    (hfirst : units <+: a.openUnits config.slotsPerEpoch) :
    Ordered config (a.closeUnits units) none := by
  have htaken := h.taken.close hfirst
  obtain ⟨stream, balance, heq⟩ := closeUnits_eq units a
  rw [heq] at htaken ⊢
  refine ⟨htaken, h.fits, ?_⟩
  -- all of it lies in the epoch, so it is enough to compare the slots as they are numbered
  have hslots : ∀ unit ∈ a.units ++ units, unit.witness.slotInEpoch =
      unit.slot % config.slotsPerEpoch ∧
        InEpoch config.slotsPerEpoch a.context.targetEpoch unit.slot := fun unit hunit =>
    ⟨(htaken.prices unit hunit).slotInEpoch, htaken.inEpoch unit hunit⟩
  have hlt : ∀ unit ∈ a.units ++ units, ∀ other ∈ a.units ++ units, unit.slot < other.slot →
      unit.witness.slotInEpoch < other.witness.slotInEpoch := by
    intro unit hunit other hother hslot
    rw [(hslots unit hunit).1, (hslots other hother).1]
    exact slotInEpoch_lt h.fits (hslots unit hunit).2 (hslots other hother).2 hslot
  show Ascending (((a.units ++ units).drop a.handed).map (·.witness))
  rw [List.drop_append, Ascending, List.map_map, List.map_append, List.pairwise_append]
  refine ⟨?_, ?_, ?_⟩
  · have hwaiting := h.waiting
    rwa [Waiting, Ascending, List.map_map] at hwaiting
  · apply List.pairwise_map.mpr
    have hsublist : (units.drop (a.handed - a.units.length)).Sublist
        (a.openUnits config.slotsPerEpoch) := (List.drop_sublist _ _).trans hfirst.sublist
    apply ((openUnits_pairwise a config.slotsPerEpoch).sublist hsublist).imp_of_mem
    intro unit other hunit hother
    exact hlt unit (List.mem_append_right _ (List.mem_of_mem_drop hunit)) other
      (List.mem_append_right _ (List.mem_of_mem_drop hother))
  · rintro x hx y hy
    obtain ⟨unit, hunit, rfl⟩ := List.mem_map.mp hx
    obtain ⟨other, hother, rfl⟩ := List.mem_map.mp hy
    have hmem := List.mem_of_mem_drop hother
    exact hlt unit (List.mem_append_left _ (List.mem_of_mem_drop hunit)) other
      (List.mem_append_right _ hmem) (hbelow unit hunit other (hfirst.subset hmem))

/-- The tail is a part of what is waiting. -/
theorem drop_take_sublist {α : Type} (units : List α) (start stop : ℕ) :
    ((units.take stop).drop (min start stop)).Sublist (units.drop start) := by
  rcases le_total start stop with hle | hle
  · rw [Nat.min_eq_left hle]
    exact (List.take_sublist stop units).drop start
  · rw [Nat.min_eq_right hle, List.drop_eq_nil_of_le (List.length_take_le stop units)]
    exact List.nil_sublist _

/-- **Starting a proof** takes what is waiting, and what it takes is ascending. -/
theorem Ordered.starts {jobs : List (Job P)} (h : Ordered config a none)
    (hstarts : Starts config tick a a' pending jobs) :
    Ordered config a' pending ∧ ∀ job ∈ jobs, Ascending job.slots := by
  have hwaiting : Ascending ((a.units.drop a.handed).map (·.witness)) := h.waiting
  cases hstarts with
  | nothing => exact ⟨h, by simp⟩
  | @fold proved group hunfolded =>
      rw [handed, hunfolded, Option.elim_some] at hwaiting
      refine ⟨⟨h.taken, h.fits, rfl, hwaiting⟩, ?_⟩
      simp [Job.slots, Ascending]
  | group hunfolded hlt =>
      rw [handed, hunfolded, Option.elim_none] at hwaiting
      refine ⟨⟨h.taken, h.fits, ?_⟩, ?_⟩
      · show Ascending ((a.units.drop a.units.length).map (·.witness))
        rw [List.drop_length]
        exact List.Pairwise.nil
      · rw [List.forall_mem_singleton]
        show Ascending (((a.units.take a.units.length).drop a.proved).map (·.witness))
        rwa [List.take_length]
  | final htail =>
      refine ⟨⟨h.taken, h.fits, trivial⟩, ?_⟩
      obtain ⟨c, -, rfl⟩ := tail_eq_some htail
      rw [List.forall_mem_singleton]
      exact hwaiting.sublist ((drop_take_sublist a.units a.handed (c + 1)).map _)

/-- What is waiting stays ascending for as long as nothing opens below it. -/
theorem ordered_preserved : Preserved config (InOrder config)
    (Ordered config : StreamAggregator P B → Option (Pending P) → Prop) where
  stable := Ordered.stable
  opened h _ := ⟨taken_openEpoch, h.1, List.Pairwise.nil⟩
  group _ h _ := ⟨h.taken, h.fits, h.waiting⟩
  fold _ h hfold := by
    obtain ⟨hnone, hwaiting⟩ := h.waiting
    simp only [finishFold, Guest.bind_eq_ok, Guest.assert_eq_ok, Guest.pure_eq_ok,
      exists_const] at hfold
    obtain ⟨_, -, -, rfl⟩ := hfold
    refine ⟨h.taken, h.fits, ?_⟩
    show Ascending ((List.drop (Option.elim _ _ _) _).map _)
    rwa [hnone]
  late h := h.waiting
  close h hfree ha hfirst := ha.close (h.2 _ hfree) hfirst
  starts _ ha hstarts := (ha.starts hstarts).1

/-- **Slot-ordered witnesses**: in a run in which nothing ever opens below a unit that
waits, every group and every tail handed to the prover is strictly ascending. -/
theorem jobs_ascending {s : StreamPipeline P B} (h : Reachable config (InOrder config) s)
    (hready : InOrder config tick s) :
    ∀ job ∈ (drive config tick s).2, Ascending job.slots := by
  intro job hjob
  obtain ⟨a, a', pending, ha, hstarts, -⟩ :=
    ordered_preserved.reachable_drive h hready hjob
  exact (ha.starts hstarts).2 job hjob

end Zkasper.Streaming

/-! ## A late slot

Three validators, one in each of the first three slots of epoch 2. Two of them carry
the epoch over two thirds, and all of them are waited for where the policy wants it all. -/

namespace Zkasper.Formal

open Streaming StreamPipeline

/-- Bytes before pairs, and either by its parts. -/
def Term.compare : Term → Term → Ordering
  | .bytes raw, .bytes raw' => Ord.compare raw raw'
  | .bytes _, .pair _ _ => .lt
  | .pair _ _, .bytes _ => .gt
  | .pair left right, .pair left' right' =>
      (Term.compare left left').then (Term.compare right right')

instance : Ord Term := ⟨Term.compare⟩

/-- Signatures that are never summed. -/
def lone : Blst := ⟨BlsSignature, some, fun signature _ => some signature, id⟩

def slotted : List ValidatorResponse := [validator 0 32, validator 1 32, validator 2 32]

def slottedTree : AccTree (formal {}) :=
  (AccTree.build (slotted.map (·.data)) 1 2).toOption.getD ⟨0, 0, [], []⟩

def slottedCommittees : Option (EpochCommittees (formal {})) :=
  (EpochCommittees.build [⟨64, 0, [0]⟩, ⟨65, 0, [1]⟩, ⟨66, 0, [2]⟩] slotted slottedTree 32 2 1
    96).toOption

def slottedCommitment : Digest := .commitment slottedTree.root 96

def slottedOpening : Option (Opening (formal {})) :=
  slottedCommittees.map fun committees =>
    { targetRoot := nextRoot
      sourceRoot := genesisRoot
      signingDomain := blank
      committees
      committeeOutput := committees.output
      committeeProof := [1]
      accumulatorCommitment := slottedCommitment
      accRoot := slottedTree.root
      totalActiveBalance := 96
      aggregateProgramVk
      streamProgramVk := finalVk
      epochDiff := ⟨commitmentAt 0, stateRootAt 0, 1, slottedCommitment, slottedTree.root, 96, blank,
        2⟩
      epochDiffProof := [1]
      previous := .batch ⟨commitmentAt 0, committeeRootAt 0, 0, genesisRoot, 1, genesisRoot, 32, 1,
        true, justificationProgramVk⟩
      previousProof := [1]
      boundary := nextBlock {} }

/-- The circuits themselves, over a proof system that accepts everything. -/
def circuits : Prover (formal {}) where
  proveGroup w := do
    let attested ← attest w 2
    let output ← verifyGroupProofWithDepth w 2
    return (output, attested.miller, [1])
  proveAggregate w := do
    let output ← verifyAggregate (fun _ _ _ => true) w
    return (output, [1])
  proveStreamFinal w := do
    let output ← verifyStreamFinalWith (fun _ _ _ => true) w 2 32
    return (output, [1])

/-- Two thirds, on one lane, every proof at one price. -/
def twoThirds : Config ℤ where
  slotsPerEpoch := 32
  attestationLookaheadEpochs := 2
  accTreeDepth := 2
  streamPolicy := {
    thresholdNumerator := 2
    thresholdDenominator := 3
    secondsPerSlot := 12
    slotsPerEpoch := 32
    lanes := 1
    lanePool := .fungible
    owesCommittee := false
    committeeChunks := 1
    prover := ⟨fun _ _ _ => 1, fun _ _ => 1, fun _ _ _ _ _ => 1, 1, fun _ => 1, fun _ => 1⟩
    tenths := (10 * ·) }

/-- The aggregate of a slot with one validator in it. -/
def alone (slot : UInt64) : AttestationResponse (formal {}) :=
  ⟨[1], [1], none, slot, 0, nextRoot, 1, genesisRoot, 2, nextRoot, zeroBytes 96⟩

/-- A tick in which gossip brings the aggregates of some slots. -/
def tickAt (headSlot : UInt64) (slots : List UInt64) (worthWaiting : Bool) : Tick (formal {}) where
  cursorEpoch := 2
  opening := slottedOpening
  headSlot
  gossip := some [⟨slots.map alone, false, false⟩]
  blocks _ := none
  landed := true
  prover := circuits
  written := true
  checkpointRoot := some nextRoot
  worthWaiting
  tree := slottedTree
  clock := ⟨0, 0, 0, 0, 0, 0, 0⟩

/-- All of the balance, on one lane. -/
def allOfIt : Config ℤ :=
  { twoThirds with
    streamPolicy := { twoThirds.streamPolicy with
      thresholdNumerator := 1
      thresholdDenominator := 1 } }

/-- Slot 0 is there, and is proven in a group. -/
def afterOne : StreamPipeline (formal {}) lone := (drive allOfIt (tickAt 66 [64] false) .empty).1

/-- The group lands, slot 1 is closed, and the fold of the group starts. -/
def beforeFold : StreamPipeline (formal {}) lone :=
  (drive allOfIt (tickAt 66 [65] false) afterOne).1

/-- The fold lands. -/
def afterFold : StreamPipeline (formal {}) lone := (drive allOfIt (tickAt 66 [] false) beforeFold).1

/-- The same, with slot 2 there before slot 1. -/
def skipped : StreamPipeline (formal {}) lone :=
  (drive allOfIt (tickAt 67 [] false) (drive allOfIt (tickAt 67 [66] false) afterOne).1).1

end Zkasper.Formal

namespace Zkasper.Streaming

open StreamPipeline Formal

/-- The slots arrive in order, and the tail is slot 1, then slot 2. -/
theorem jobs_ascending_inOrder :
    (∀ job ∈ (drive allOfIt (tickAt 67 [66] false) afterFold).2, Ascending job.slots) ∧
      (drive allOfIt (tickAt 67 [66] false) afterFold).2.map
        (fun job => job.slots.map (·.slotInEpoch)) = [[1, 2]] := by
  refine ⟨jobs_ascending (.drive (.drive (.drive .empty ?_) ?_) ?_) ?_, ?_⟩ <;> decide +kernel

/-- **A late slot**: slot 2 is closed while the group of slot 0 lands and its fold starts; then
slot 1 arrives, and the tail of the final proof is slot 2, then slot 1. -/
theorem jobs_not_ascending : ¬ ∀ (s : StreamPipeline (formal {}) lone) (tick : Tick (formal {})),
    Reachable allOfIt (fun _ _ => True) s →
      ∀ job ∈ (drive allOfIt tick s).2, Ascending job.slots := by
  intro h
  have hrun := h skipped (tickAt 67 [65] false)
    (.drive (.drive (.drive .empty trivial) trivial) trivial)
  exact absurd hrun (by decide +kernel)

end Zkasper.Streaming
