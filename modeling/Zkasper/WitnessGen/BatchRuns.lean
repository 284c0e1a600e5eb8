import Zkasper.WitnessGen.Batch
import Zkasper.WitnessGen.Counted
import Zkasper.WitnessGen.History
import Zkasper.WitnessGen.Units

/-! # Runs of the batch pipeline

What a tick can do, said once: it reads a block, closes a slot, proves what is queued or
folds what is proven. An invariant of an epoch, and of what was handed to the prover since
it was opened, survives a tick if it survives each of these (`Preserved`); then it holds in
every reachable state, at every turn of every loop and under every link that closes an
epoch. -/

namespace Zkasper.Batch

open Library EpochAggregator BatchPipeline Streaming

variable {P : Primitives} [Ord P.Bytes32] {B : Blst}

/-! ## Runs -/

/-- The states a run reaches if `Ready` allows every tick of it, each with what was handed
to the prover since the last epoch was opened. -/
inductive Reachable (config : Config) (Ready : Tick P → Prop) : BatchPipeline P B → List (Job P) → Prop
  | empty : Reachable config Ready .empty []
  | forget {s : BatchPipeline P B} {log : List (Job P)} : Reachable config Ready s log →
      Reachable config Ready s.forget log
  | drive {s : BatchPipeline P B} {log : List (Job P)} {tick : Tick P} :
      Reachable config Ready s log → Ready tick →
      Reachable config Ready (s.drive config tick)
        ((if (s.resumed tick).isSome then log else []) ++ (s.run config tick).log)

/-- **What an invariant has to survive**: reading blocks, closing a slot of the epoch, and
the two proofs, whether or not they come out. -/
structure Preserved (config : Config) (Ready : Tick P → Prop) (Log : List (Job P) → Prop)
    (Inv : List (Job P) → EpochAggregator P B → Prop) : Prop where
  start : Log []
  opened : ∀ {tick o}, Ready tick → tick.opening = .ok o →
    Inv [] (BatchPipeline.openEpoch config tick.cursorEpoch o)
  read : ∀ {log a} attestations nextSlot, Inv log a →
    Inv log { a with nextSlot, stream := (a.stream.ingest attestations).1 }
  close : ∀ {log a slot unit}, Inv log a → InEpoch config.slotsPerEpoch a.targetEpoch slot →
    a.stream.peek slot = some unit → Inv log (a.queue (a.stream.forget slot) unit)
  prove : ∀ {tick log a}, Ready tick → Log log → Inv log a → a.slots ≠ [] →
    Log (log ++ [.slotProof (a.slotProofWitness tick.tree)]) ∧
      ∀ proven, tick.prover.proveSlot (a.slotProofWitness tick.tree) = .ok proven →
        Inv (log ++ [.slotProof (a.slotProofWitness tick.tree)]) (a.adoptSlotProof proven)
  fold : ∀ {tick log a}, Ready tick → Log log → Inv log a →
    Log (log ++ [.justification (a.justificationWitness config)]) ∧
      ∀ proven, tick.prover.proveJustification (a.justificationWitness config) = .ok proven →
        Inv (log ++ [.justification (a.justificationWitness config)]) (a.adoptJustification proven)

/-- The epoch in flight, if there is one, has the invariant. -/
def Holds (Inv : List (Job P) → EpochAggregator P B → Prop) (s : BatchPipeline P B)
    (log : List (Job P)) : Prop :=
  ∀ a, s.pending = some a → Inv log a

/-- The end of a tick leaves an epoch that has the invariant, or none. -/
def Leftover (Inv : List (Job P) → EpochAggregator P B → Prop) (ending : Ending P B)
    (log : List (Job P)) : Prop :=
  ∀ a, ending = .waiting a → Inv log a

/-! ## One tick -/

namespace Preserved

variable {config : Config} {Ready : Tick P → Prop} {Log : List (Job P) → Prop}
  {Inv : List (Job P) → EpochAggregator P B → Prop} {tick : Tick P} {log : List (Job P)}
  {a : EpochAggregator P B} {s : BatchPipeline P B}

theorem proveSlotGroup (hInv : Preserved config Ready Log Inv) (hready : Ready tick)
    (hlog : Log log) (ha : Inv log a) :
    Logged.Leaves log (proveSlotGroup tick a) Log fun a' log' => Inv log' a' := by
  refine Logged.Leaves.bind (Q := fun _ log' => log = log' ∧ a.slots ≠ []) (.lift hlog ?_) ?_
  · intro first hfirst
    refine ⟨rfl, fun hnil => ?_⟩
    rw [hnil] at hfirst
    cases Guest.expect_eq_ok.mp hfirst
  · rintro first _ ⟨rfl, hne⟩ -
    obtain ⟨hhanded, hadopt⟩ := hInv.prove hready hlog ha hne
    refine Logged.Leaves.bind (Q := fun _ log' =>
      log' = log ++ [.slotProof (a.slotProofWitness tick.tree)]) (.tell hhanded rfl) ?_
    rintro - _ rfl -
    refine Logged.Leaves.bind (Q := fun proven log' => Inv log' (a.adoptSlotProof proven))
      (.lift hhanded hadopt) ?_
    intro proven log' hproven hlog'
    exact Logged.Leaves.bind (.lift hlog' fun _ _ => hproven) fun _ _ hproven hlog' =>
      .pure hlog' hproven

theorem foldJustification (hInv : Preserved config Ready Log Inv) (hready : Ready tick)
    (hlog : Log log) (ha : Inv log a) :
    Logged.Leaves log (foldJustification config tick a) Log fun a' log' => Inv log' a' := by
  obtain ⟨hhanded, hadopt⟩ := hInv.fold hready hlog ha
  refine Logged.Leaves.bind (Q := fun _ log' =>
    log' = log ++ [.justification (a.justificationWitness config)]) (.tell hhanded rfl) ?_
  rintro - _ rfl -
  refine Logged.Leaves.bind (Q := fun proven log' => Inv log' (a.adoptJustification proven))
    (.lift hhanded hadopt) ?_
  intro proven log' hproven hlog'
  exact Logged.Leaves.bind (.lift hlog' fun _ _ => hproven) fun _ _ hproven hlog' =>
    .pure hlog' hproven

theorem closeSlot (hInv : Preserved config Ready Log Inv) (hready : Ready tick) (hlog : Log log)
    (ha : Inv log a) {slot : UInt64} (hslot : InEpoch config.slotsPerEpoch a.targetEpoch slot) :
    Logged.Leaves log (closeSlot config tick a slot) Log fun a' log' => Inv log' a' := by
  unfold EpochAggregator.closeSlot
  rcases a.stream.close_eq slot with ⟨heq, -⟩ | ⟨unit, heq, hpeek⟩
  · rw [heq]
    exact .pure hlog ha
  · rw [heq]
    have hqueued := hInv.close ha hslot hpeek
    refine Logged.Leaves.bind (Q := fun a' log' => Inv log' a') ?_ ?_
    · unfold proveIfWide
      split
      · exact hInv.proveSlotGroup hready hlog hqueued
      · exact .pure hlog hqueued
    · intro a' log' ha' hlog'
      unfold foldIfWide
      split
      · exact hInv.foldJustification hready hlog' ha'
      · exact .pure hlog' ha'

/-- A block closes a slot of the epoch, or none. -/
theorem attestationSlot_inEpoch {slot attested : UInt64}
    (h : attestationSlot config a slot = some attested) :
    InEpoch config.slotsPerEpoch a.targetEpoch attested := by
  unfold attestationSlot at h
  split at h
  · cases h
  · split at h
    · cases h
    · next houtside =>
        obtain rfl := Option.some.inj h
        rw [not_or, UInt64.not_lt, UInt64.not_le] at houtside
        exact houtside

theorem readBlock (hInv : Preserved config Ready Log Inv) (ha : Inv log a) (nextSlot : UInt64)
    {block : Option (List (AttestationResponse P))} {a' : EpochAggregator P B}
    (h : readBlock { a with nextSlot } block = .ok a') : Inv log a' := by
  cases block with
  | none =>
      obtain rfl := Guest.pure_eq_ok.mp h
      exact hInv.read (a := a) [] nextSlot ha
  | some attestations =>
      obtain ⟨_, -, hret⟩ := Guest.bind_eq_ok.mp h
      obtain rfl := Guest.pure_eq_ok.mp hret
      exact hInv.read (a := a) attestations nextSlot ha

/-- **One turn of the loop.** -/
theorem scan (hInv : Preserved config Ready Log Inv) (hready : Ready tick) (hlog : Log log)
    (ha : Inv log a) : Logged.Leaves log (scan config tick a) Log fun a' log' => Inv log' a' := by
  refine Logged.Leaves.bind (Q := fun a' log' => Inv log' a')
    (.lift hlog fun a' h => hInv.readBlock ha _ h) ?_
  intro a' log' ha' hlog'
  cases hattested : attestationSlot config a' a.nextSlot with
  | none => exact .pure hlog' ha'
  | some attested =>
      exact hInv.closeSlot hready hlog' ha' (attestationSlot_inEpoch hattested)

theorem walk (hInv : Preserved config Ready Log Inv) (hready : Ready tick) :
    ∀ (fuel : ℕ) {log : List (Job P)} {a : EpochAggregator P B}, Log log → Inv log a →
      Logged.Leaves log (walk config tick fuel a) Log fun a' log' => Inv log' a' := by
  intro fuel
  induction fuel with
  | zero =>
      intro log a hlog ha
      exact .pure hlog ha
  | succ fuel ih =>
      intro log a hlog ha
      unfold EpochAggregator.walk
      split
      · exact Logged.Leaves.bind (hInv.scan hready hlog ha) fun a' log' ha' hlog' => ih hlog' ha'
      · exact .pure hlog ha

theorem closingGroup (hInv : Preserved config Ready Log Inv) (hready : Ready tick)
    (hlog : Log log) (ha : Inv log a) :
    Logged.Leaves log (closingGroup tick a) Log fun a' log' => Inv log' a' := by
  unfold EpochAggregator.closingGroup
  split
  · exact .pure hlog ha
  · exact hInv.proveSlotGroup hready hlog ha

/-- An epoch that is closed is not left over. -/
theorem close_leftover (hInv : Preserved config Ready Log Inv) (hready : Ready tick)
    (hlog : Log log) (ha : Inv log a) :
    Logged.Leaves log (EpochAggregator.close config tick a) Log (Leftover Inv) := by
  refine Logged.Leaves.bind (hInv.closingGroup hready hlog ha) fun a' log' ha' hlog' => ?_
  refine Logged.Leaves.bind (hInv.foldJustification hready hlog' ha') fun _ _ _ hlog' => ?_
  refine Logged.Leaves.bind (Q := fun _ _ => True) (.lift hlog' fun _ _ => trivial) ?_
  intro record _ _ hlog'
  refine Logged.Leaves.bind (Q := fun _ _ => True) (.lift hlog' fun _ _ => trivial) ?_
  intro _ _ _ hlog'
  refine Logged.Leaves.bind (Q := fun _ _ => True) (.lift hlog' fun _ _ => trivial) ?_
  intro finalized _ _ hlog'
  refine Logged.Leaves.bind (Q := fun _ _ => True) (.lift hlog' fun _ _ => trivial) ?_
  intro _ _ _ hlog'
  exact .pure hlog' fun a' h => by cases h

theorem settle (hInv : Preserved config Ready Log Inv) (hready : Ready tick) (hlog : Log log)
    (ha : Inv log a) : Logged.Leaves log (settle config tick a) Log (Leftover Inv) := by
  unfold EpochAggregator.settle
  split
  · exact hInv.close_leftover hready hlog ha
  · split
    · refine Logged.Leaves.bind (Q := fun _ _ => True) (.lift hlog fun _ _ => trivial) ?_
      intro _ _ _ hlog'
      exact .pure hlog' fun a' h => by cases h
    · refine .pure hlog fun a' h => ?_
      obtain rfl := Ending.waiting.inj h
      exact ha

/-! ## Every run -/

/-- What the log of a tick is on top of. -/
theorem resume (hInv : Preserved config Ready Log Inv) (hready : Ready tick) (hlog : Log log)
    (hs : Holds Inv s log) {a : EpochAggregator P B} (h : s.resume config tick = .ok a) :
    Log (if (s.resumed tick).isSome then log else []) ∧
      Inv (if (s.resumed tick).isSome then log else []) a := by
  unfold BatchPipeline.resume at h
  cases hresumed : s.resumed tick with
  | some b =>
      rw [hresumed] at h
      obtain rfl := Except.ok.inj h
      exact ⟨hlog, hs _ (Option.filter_eq_some_iff.mp hresumed).1⟩
  | none =>
      rw [hresumed] at h
      cases hopening : tick.opening with
      | error e =>
          rw [hopening] at h
          cases h
      | ok o =>
          rw [hopening] at h
          obtain rfl := Except.ok.inj h
          exact ⟨hInv.start, hInv.opened hready hopening⟩

/-- **A tick up to the end of its loop**, and at every turn of it. -/
theorem walked (hInv : Preserved config Ready Log Inv) (hready : Ready tick) (hlog : Log log)
    (hs : Holds Inv s log) (turns : EpochAggregator P B → ℕ) :
    Logged.Leaves (if (s.resumed tick).isSome then log else [])
      (do let a ← Logged.lift (s.resume config tick); EpochAggregator.walk config tick (turns a) a)
      Log fun a' log' => Inv log' a' := by
  have hstart : Log (if (s.resumed tick).isSome then log else []) := by
    split
    · exact hlog
    · exact hInv.start
  refine Logged.Leaves.bind (Q := fun a' log' => Inv log' a')
    (.lift hstart fun a h => (hInv.resume hready hlog hs h).2) ?_
  intro a' log' ha' hlog'
  exact hInv.walk hready (turns a') hlog' ha'

/-- **One tick.** -/
theorem run (hInv : Preserved config Ready Log Inv) (hready : Ready tick) (hlog : Log log)
    (hs : Holds Inv s log) :
    Logged.Leaves (if (s.resumed tick).isSome then log else []) (s.run config tick) Log
      (Leftover Inv) :=
  Logged.Leaves.bind (hInv.walked hready hlog hs fun a => a.scanEnd.toNat - a.nextSlot.toNat)
    fun _ _ ha' hlog' => hInv.settle hready hlog' ha'

/-- **Every run** keeps the invariant. -/
theorem reachable (hInv : Preserved config Ready Log Inv) (h : Reachable config Ready s log) :
    Log log ∧ Holds Inv s log := by
  induction h with
  | empty => exact ⟨hInv.start, fun a h => by cases h⟩
  | forget _ ih => exact ⟨ih.1, fun a h => by cases h⟩
  | @drive s log tick _ hready ih =>
      have hrun := hInv.run hready ih.1 ih.2
      refine ⟨hrun.log, fun a h => ?_⟩
      -- only a tick that waits leaves anything
      cases hresult : (s.run config tick).result with
      | error e =>
          rw [BatchPipeline.drive, hresult] at h
          cases h
      | ok ending =>
          rw [BatchPipeline.drive, hresult] at h
          cases ending with
          | justified record finalized => cases h
          | gaveUpOn targetEpoch => cases h
          | waiting b =>
              obtain rfl := Option.some.inj h
              exact hrun.ok _ hresult _ rfl

end Preserved
end Zkasper.Batch
