import Zkasper.FinalityChain
import Zkasper.WitnessGen.Coverage
import Zkasper.WitnessGen.Ledger

/-! # A slot is taken at most once

A collector never gives a slot back: once it is closed or forgotten it is not open, has no
price and no aggregates, whatever arrives (`takes_run`). So the units of an epoch are
different slots, and so is what its proofs are handed, from the opening of the epoch to its
end. An epoch that a failing tick has dropped is opened again, on a new collector, and its
slots are taken again (`slots_proven_again`). -/

namespace Zkasper

/-! ## The collector -/

namespace SlotStream

variable {P : Primitives} {B : Blst} [Ord P.Bytes32] {s : SlotStream P B} {slot : UInt64}
  {call : Call P}

/-- The call takes the slot: it forgets it, or closes it into a complement. -/
def Takes (s : SlotStream P B) (slot : UInt64) : Call P → Prop
  | .close other => other = slot ∧ (s.close other).2.isSome
  | .forget other => other = slot
  | _ => False

/-- Nothing is left of the slot. -/
structure Gone (s : SlotStream P B) (slot : UInt64) : Prop where
  notOpen : slot ∉ s.openSlots
  peek : s.peek slot = none
  aggregates : s.aggregates slot = 0

theorem Takes.call_eq (h : s.Takes slot call) : s.call call = s.forget slot := by
  cases call with
  | ingest attestations => cases h
  | peek other => cases h
  | close other =>
      obtain ⟨rfl, hsome⟩ := h
      rcases s.close_eq other with ⟨heq, -⟩ | ⟨unit, heq, -⟩
      · rw [heq] at hsome
        cases hsome
      · exact congrArg Prod.fst heq
  | forget other =>
      obtain rfl : other = slot := h
      rfl

theorem Apart.gone (h : s.Apart) (hclosed : slot ∈ s.closed) : s.Gone slot := by
  have hopen : ¬ s.IsOpen slot := fun hopen => h slot hopen hclosed
  refine ⟨fun hmem => hopen (mem_openSlots.mp hmem), ?_, ?_⟩
  · by_contra hpeek
    obtain ⟨unit, hunit⟩ := Option.ne_none_iff_exists'.mp hpeek
    exact hopen (isOpen_of_peek hunit)
  · rw [SlotStream.aggregates, Std.TreeMap.getD_eq_fallback fun hmem => hopen (.inl hmem)]
    rfl

/-- **What is taken stays taken**, whatever is called afterwards. -/
theorem takes_run (h : s.Apart) (htakes : s.Takes slot call) (later : List (Call P)) :
    ((s.call call).run later).Gone slot := by
  apply ((h.call call).run later).gone
  apply ((s.call call).run_settings later).2.2.2
  rw [htakes.call_eq]
  exact mem_closed_forget.mpr (.inl rfl)

end SlotStream

/-! ## Streaming jobs -/

namespace Streaming

variable {P : Primitives} [Ord P.Bytes32] {B : Blst} {𝕜 : Type} [LinearOrder 𝕜] [AddCommGroup 𝕜]

/-- What each part of a witness counts: a slot itself, a proof the slots of its mask. -/
def Job.counts : Job P → List (Finset ℕ)
  | .group w => w.slots.map fun slot => {slot.slotInEpoch.toNat}
  | .aggregate w => w.previous.toList.map (fun previous => slotsOf previous.slotsMask) ++
      w.groups.map fun group => slotsOf group.slotsMask
  | .final w => w.aggregate.toList.map (fun aggregate => slotsOf aggregate.slotsMask) ++
      w.groups.map (fun group => slotsOf group.slotsMask) ++
      w.tail.map fun slot => {slot.slotInEpoch.toNat}

section Counts

variable {Trusted : Prover P → Prop} {S : ProofSystem P} {accDepth : ℕ} {config : Config 𝕜}
  {tick : Tick P} {a a' : StreamAggregator P B} {pending : Option (Pending P)} {jobs : List (Job P)}

omit [Ord P.Bytes32] in
/-- An aggregate, at most one group and a tail over different slots are apart. -/
theorem counts_apart {aggregate : Option (AggregateOutput P)} {g : Option (GroupProofOutput P)}
    {folded grouped tail : List (SlotComplementWitness P)}
    (haggregate : CountsAggregate aggregate folded)
    (hgroup : ∀ out, g = some out → Counted grouped out.attestingBalance out.slotsMask)
    (hnodup : ((folded ++ grouped ++ tail).map (·.slotInEpoch.toNat)).Nodup) :
    (aggregate.toList.map (fun out => slotsOf out.slotsMask) ++
      g.toList.map (fun out => slotsOf out.slotsMask) ++
      tail.map fun slot => ({slot.slotInEpoch.toNat} : Finset ℕ)).Pairwise Disjoint := by
  have hparts : ([slotNumbers folded] ++ [slotNumbers grouped] ++
      tail.map fun slot => ({slot.slotInEpoch.toNat} : Finset ℕ)).Pairwise Disjoint := by
    have hsingles : (tail.map fun slot => [slot]).flatten = tail := by
      rw [← List.flatMap_def]
      exact List.flatMap_singleton' tail
    have hflatten : (folded :: grouped :: tail.map fun slot => [slot]).flatten =
        folded ++ grouped ++ tail := by
      rw [List.flatten_cons, List.flatten_cons, hsingles, List.append_assoc]
    have h := slotNumbers_apart (hflatten ▸ hnodup)
    rw [List.map_cons, List.map_cons, List.map_map] at h
    exact h
  -- each part that is missing only makes the list shorter
  have hfirst : (aggregate.toList.map fun out => slotsOf out.slotsMask).Sublist
      [slotNumbers folded] := by
    cases aggregate with
    | none => exact List.nil_sublist _
    | some out =>
        have hmask := haggregate.mask_eq
        rw [Option.elim_some] at hmask
        rw [Option.toList_some, List.map_singleton, hmask]
        exact List.Sublist.refl _
  have hsecond : (g.toList.map fun out => slotsOf out.slotsMask).Sublist
      [slotNumbers grouped] := by
    cases g with
    | none => exact List.nil_sublist _
    | some out =>
        rw [Option.toList_some, List.map_singleton, (hgroup out rfl).mask_eq]
        exact List.Sublist.refl _
  exact hparts.sublist ((hfirst.append hsecond).append (List.Sublist.refl _))

omit [LinearOrder 𝕜] [AddCommGroup 𝕜] in
theorem FinalCovers.counts {policy : StreamPolicy 𝕜} {w : StreamFinalWitness P} {p c : ℕ}
    (h : FinalCovers Trusted policy a w p c)
    (hhonest : ∀ prover, Trusted prover → Honest S accDepth prover)
    (hdistinct : ((a.units.map (·.witness)).map (·.slotInEpoch.toNat)).Nodup) :
    (Job.final w).counts.Pairwise Disjoint := by
  have haggregate := h.aggregate.counts hhonest
  have hnodup : (((a.units.take a.proved).map (·.witness) ++
      ((a.units.take p).drop a.proved).map (·.witness) ++ w.tail).map
      (·.slotInEpoch.toNat)).Nodup := by
    rw [h.tail, ← List.map_append, ← List.map_append, h.exactly_once]
    exact hdistinct.sublist (((List.take_sublist _ a.units).map _).map _)
  rcases h.group with ⟨-, hgroups, -, -⟩ | ⟨group, hcovers, hgroups, -, -⟩
  · have hapart := counts_apart haggregate (g := none) (fun out hout => by cases hout) hnodup
    rwa [Job.counts, hgroups]
  · have hapart := counts_apart haggregate (g := some group.output)
      (fun out hout => Option.some.inj hout ▸ hcovers.counted hhonest) hnodup
    rwa [Job.counts, hgroups]

/-- **What is handed over counts no slot twice.** -/
theorem Covering.counts (h : Covering Trusted config a none)
    (hhonest : ∀ prover, Trusted prover → Honest S accDepth prover)
    (hstarts : Starts config tick a a' pending jobs) :
    ∀ job ∈ jobs, job.counts.Pairwise Disjoint := by
  obtain ⟨hbehind, hnext⟩ := h.inFlight
  have haggregate := Covered.counts hhonest hbehind
  have hdistinct : ((a.units.map (·.witness)).map (·.slotInEpoch.toNat)).Nodup := by
    rw [List.map_map]
    exact h.taken.distinct
  cases hstarts with
  | nothing => simp
  | @fold proved group hgroup =>
      obtain ⟨hstart, -, hcovers⟩ := hnext proved group hgroup
      rw [List.forall_mem_singleton]
      have hnodup : (((a.units.take a.proved).map (·.witness) ++
          ((a.units.take proved).drop a.proved).map (·.witness) ++
          ([] : List (SlotComplementWitness P))).map (·.slotInEpoch.toNat)).Nodup := by
        rw [List.append_nil, ← List.map_append, take_append_drop_take a.units hstart]
        exact hdistinct.sublist (((List.take_sublist proved a.units).map _).map _)
      have hapart := counts_apart haggregate (g := some group.output)
        (fun out hout => Option.some.inj hout ▸ hcovers.counted hhonest) hnodup
      rw [List.map_nil, List.append_nil] at hapart
      exact hapart
  | group hnone hlt =>
      rw [List.forall_mem_singleton]
      apply slots_apart
      exact hdistinct.sublist ((((List.drop_sublist _ _).trans (List.take_sublist _ _)).map _).map _)
  | @final tail htail =>
      rw [List.forall_mem_singleton]
      obtain ⟨c, hfinal⟩ := h.startFinal htail tick.clock.fired
      exact hfinal.counts hhonest hdistinct

end Counts
end Streaming

/-! ## Every run -/

section Runs

open Streaming (Trusting)

variable {P : Primitives} [Ord P.Bytes32] {B : Blst} {𝕜 : Type} [LinearOrder 𝕜] [AddCommGroup 𝕜]

/-- **A slot is taken at most once**: by a collector, whatever it is called with; by the
units of an epoch that streams, whose parts never collide; and by the slot proofs of an
epoch of the batch pipeline, from its opening on. -/
theorem taken_once :
    (∀ (slotsPerEpoch targetEpoch : UInt64) (committees : EpochCommittees P)
        (targetRoot sourceRoot : P.Bytes32) (calls later : List (Call P)) (call : Call P)
        (slot : UInt64) (s : SlotStream P B),
      s = (SlotStream.new slotsPerEpoch committees targetEpoch targetRoot sourceRoot).run calls →
      s.Takes slot call → ((s.call call).run later).Gone slot) ∧
    (∀ (config : Streaming.Config 𝕜) (Trusted : Streaming.Prover P → Prop) (S : ProofSystem P)
        (accDepth : ℕ) (s : Streaming.StreamPipeline P B),
      (∀ prover, Trusted prover → Streaming.Honest S accDepth prover) →
      Streaming.Reachable config (Trusting Trusted) s →
        (∀ a, s.aggregator = some a → (a.units.map (·.slot)).Nodup) ∧
        ∀ tick, Trusted tick.prover → ∀ job ∈ (Streaming.StreamPipeline.drive config tick s).2,
          job.counts.Pairwise Disjoint) ∧
    ∀ (config : Batch.Config) (Ready : Batch.Tick P → Prop) (S : ProofSystem P) (accDepth : ℕ)
        (s : Batch.BatchPipeline P B) (log : List (Batch.Job P)),
      (∀ tick, Ready tick → Batch.Honest S accDepth tick.prover) →
      Batch.Reachable config Ready s log → Batch.OnlyOnce log := by
  refine ⟨?_, ?_, ?_⟩
  · rintro slotsPerEpoch targetEpoch committees targetRoot sourceRoot calls later call slot s rfl
      htakes
    exact SlotStream.takes_run (SlotStream.new_apart.run calls) htakes later
  · intro config Trusted S accDepth s hhonest h
    have hinv := Streaming.covering_preserved.reachable h
    refine ⟨fun a ha => (hinv a ha).taken.nodup, fun tick htick job hjob => ?_⟩
    obtain ⟨a, a', pending, hcovering, hstarts, -⟩ :=
      Streaming.covering_preserved.reachable_drive h htick hjob
    exact hcovering.counts hhonest hstarts job hjob
  · intro config Ready S accDepth s log hhonest h
    exact ((Batch.accounted_preserved hhonest).reachable h).1

end Runs
end Zkasper

/-! ## An epoch that is opened twice

Three validators, one in each of the first three slots of epoch 2, each in the block after
its slot. Two of them carry the epoch to two thirds. -/

namespace Zkasper.Formal

open Streaming

def batchTree (S : Scenario) : AccTree (formal S) :=
  (AccTree.build (slotted.map (·.data)) 1 2).toOption.getD ⟨0, 0, [], []⟩

def batchCommittees (S : Scenario) (totalActiveBalance : UInt64) :
    Except String (EpochCommittees (formal S)) :=
  EpochCommittees.build [⟨64, 0, [0]⟩, ⟨65, 0, [1]⟩, ⟨66, 0, [2]⟩] slotted (batchTree S) 32 2 1
    totalActiveBalance

def batchOpening (S : Scenario) (totalActiveBalance : UInt64) :
    Except String (Batch.Opening (formal S)) := do
  let committees ← batchCommittees S totalActiveBalance
  return {
    targetRoot := nextRoot
    sourceRoot := genesisRoot
    signingDomain := blank
    committees
    committeeOutput := committees.output
    committeeProof := [1]
    accRoot := (batchTree S).root
    accCommitment := .commitment (batchTree S).root totalActiveBalance
    totalActiveBalance }

/-- The circuits themselves, over a proof system that accepts everything. -/
def batchCircuits (S : Scenario) : Batch.Prover (formal S) where
  proveSlot w := do
    let output ← verifySlotProofWithDepth w 2
    return (output, [1])
  proveJustification w := do
    let output ← verifyJustification (fun _ _ _ => true) w
    return (output, [1])

theorem batchCircuits_honest (S : Scenario) :
    Batch.Honest (fun _ _ _ => true) 2 (batchCircuits S) where
  slot w out proof h := by
    simp only [batchCircuits, Guest.bind_eq_ok, Guest.pure_eq_ok, Prod.mk.injEq] at h
    obtain ⟨output, hrun, rfl, -⟩ := h
    exact hrun
  justification w out proof h := by
    simp only [batchCircuits, Guest.bind_eq_ok, Guest.pure_eq_ok, Prod.mk.injEq] at h
    obtain ⟨output, hrun, rfl, -⟩ := h
    exact hrun

/-- A slot proof per slot, and a link per slot proof. -/
def oneByOne : Batch.Config where
  slotsPerEpoch := 32
  attestationLookaheadEpochs := 2
  slotGroupWidth := 1
  justificationFoldWidth := 1
  justificationProgramVk

/-- The vote of a slot with one validator in it. -/
def vote (S : Scenario) (slot : UInt64) : AttestationResponse (formal S) :=
  ⟨[1], [1], none, slot, 0, nextRoot, 1, genesisRoot, 2, nextRoot, zeroBytes 96⟩

/-- A tick with blocks up to the head; its artifacts are written or not. -/
def batchTick (S : Scenario) (totalActiveBalance headSlot : UInt64) (written : Except String Unit) :
    Batch.Tick (formal S) where
  cursorEpoch := 2
  opening := batchOpening S totalActiveBalance
  headSlot
  blocks slot := if 65 ≤ slot ∧ slot ≤ 67 then some [vote S (slot - 1)] else none
  prover := batchCircuits S
  tree := batchTree S
  write _ := written
  tryFinalize _ := .ok none
  save := .ok ()

/-- Nothing has been opened. -/
def idle : Batch.BatchPipeline (formal willing) lone := .empty

end Zkasper.Formal

namespace Zkasper.Batch

open Formal

section

variable {P : Primitives} [Ord P.Bytes32] {B : Blst}

/-- What a whole run hands to the prover. -/
def BatchPipeline.handed (config : Config) : BatchPipeline P B → List (Tick P) → List (Job P)
  | _, [] => []
  | s, tick :: ticks => (s.run config tick).log ++ (s.drive config tick).handed config ticks

/-- The slots a witness has proven, with their epoch. -/
def Job.attested : Job P → List (UInt64 × UInt64)
  | .slotProof w => w.slots.map fun slot => (w.targetEpoch, slot.slotInEpoch)
  | .justification _ => []

end

/-- Slot 0 is closed and voted for again; it is folded, and slot 1 goes inline; two slots are
proven and folded one by one. -/
theorem taken_once_runs :
    (∃ s : SlotStream (formal {}) lone, s.Takes 64 (.close 64) ∧
      ((s.call (.close 64)).run [.ingest [alone 64], .peek 64]).Gone 64) ∧
    (∀ job ∈ (Streaming.StreamPipeline.drive twoThirds (tickAt 67 [65] false) folded).2,
      job.counts.Pairwise Disjoint) ∧
    (idle.run oneByOne (batchTick willing 96 68 (.ok ()))).log.length = 4 ∧
      OnlyOnce (idle.run oneByOne (batchTick willing 96 68 (.ok ()))).log := by
  obtain ⟨committees, -, hclose⟩ : ∃ committees, slottedCommittees = some committees ∧
      ((((SlotStream.new 32 committees 2 nextRoot genesisRoot : SlotStream (formal {}) lone).run
        [.ingest [alone 64]]).close 64).2.isSome = true) := by
    decide +kernel
  have hstreams := taken_once (P := formal {}) (B := lone) (𝕜 := ℤ)
  refine ⟨⟨_, ⟨rfl, hclose⟩, ?_⟩, ?_, by decide +kernel, ?_⟩
  · exact hstreams.1 32 2 committees nextRoot genesisRoot [.ingest [alone 64]] _ _ 64 _ rfl
      ⟨rfl, hclose⟩
  · have hreach : Streaming.Reachable twoThirds (Streaming.Trusting (· = circuits)) folded :=
      .drive (.drive (.drive .empty rfl) rfl) rfl
    exact (hstreams.2.1 twoThirds (· = circuits) (fun _ _ _ => true) 2 folded
      (fun _ h => h ▸ circuits_honest) hreach).2 _ rfl
  · have hreach : Reachable oneByOne (fun tick => tick.prover = batchCircuits willing)
        (idle.drive oneByOne (batchTick willing 96 68 (.ok ())))
        ([] ++ (idle.run oneByOne (batchTick willing 96 68 (.ok ()))).log) :=
      .drive .empty rfl
    refine (taken_once (P := formal willing) (B := lone) (𝕜 := ℤ)).2.2 oneByOne _
      (fun _ _ _ => true) 2 _ _ ?_ hreach
    intro tick (h : tick.prover = batchCircuits willing)
    rw [h]
    exact batchCircuits_honest willing

/-- A tick that fails on its artifacts once slot 0 is proven, and a tick after it. -/
def failedAndRetried : List (Tick (formal willing)) :=
  [batchTick willing 96 65 (.error "disk full"), batchTick willing 96 65 (.ok ())]

theorem failedAndRetried_honest : ∀ tick ∈ failedAndRetried,
    Honest (fun _ _ _ => true) 2 tick.prover := by
  intro tick htick
  rcases List.mem_pair.mp htick with rfl | rfl
  · exact batchCircuits_honest willing
  · exact batchCircuits_honest willing

theorem failedAndRetried_again :
    ¬ ((idle.handed oneByOne failedAndRetried).flatMap Job.attested).Nodup := by
  decide +kernel

/-- **An epoch that was dropped starts over**: slot 0 of epoch 2 is handed to the prover
before a tick fails, and once more when the epoch is opened again. -/
theorem slots_proven_again : ¬ ∀ ticks : List (Tick (formal willing)),
    (∀ tick ∈ ticks, Honest (fun _ _ _ => true) 2 tick.prover) →
      ((idle.handed oneByOne ticks).flatMap Job.attested).Nodup := by
  intro h
  exact failedAndRetried_again (h failedAndRetried failedAndRetried_honest)

end Zkasper.Batch
