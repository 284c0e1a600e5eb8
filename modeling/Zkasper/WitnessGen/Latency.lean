import Zkasper.Library.Periods
import Zkasper.Library.Transition
import Zkasper.WitnessGen.Inline
import Zkasper.WitnessGen.Progress
import Zkasper.WitnessGen.TakenOnce

/-! # What a published epoch took

The daemon stamps the crossing of the quorum, the start of every proof, the fire and the start of
the final proof, each in another tick. What it publishes of an epoch splits the time from the
crossing slot to the proof into five terms.

Beside the pipeline a run carries what its clock showed (`History`): the periods in which proofs
off the critical path ran, from where they were handed over to where they landed, and when the
final proof started. The pipeline reads none of it: a proof that has landed is found so by the
next tick that looks. -/

namespace Zkasper.Streaming

open StreamAggregator StreamPipeline Periods

variable {P : Primitives} [Ord P.Bytes32] {B : Blst} {𝕜 : Type} [LinearOrder 𝕜] [AddCommGroup 𝕜]

/-! ## The row -/

/-- What the daemon publishes of an epoch. -/
structure EpochLatency where
  epoch : UInt64
  thresholdSlot : UInt64
  thresholdUnixMillis : UInt64
  observedUnixMillis : UInt64
  observationMillis : UInt64
  blockedMillis : UInt64
  firedUnixMillis : UInt64
  proofUnixMillis : UInt64
  t2MinusTMillis : UInt64
  waitMillis : UInt64
  lateGroupMillis : UInt64
  finalProofMillis : UInt64
  tailNamed : ℕ
  foldedGroups : ℕ
  lateGroups : ℕ
  tail : ℕ

/-- When the slot of a unit in the final witness began; none while the genesis is not known. -/
def began (config : Config 𝕜) (slotUnixMillis : UInt64 → Option UInt64) (targetEpoch : UInt64)
    (unit : SlotComplementWitness P) : Option UInt64 :=
  slotUnixMillis (targetEpoch * config.slotsPerEpoch + unit.slotInEpoch)

/-- The end of `finish_final`: the row, where the crossing slot and the crossing are known. -/
def epochLatency (config : Config 𝕜) (slotUnixMillis : UInt64 → Option UInt64)
    (a : StreamAggregator P B) (closing : Closing) (witness : StreamFinalWitness P)
    (proofUnixMillis : UInt64) : Option EpochLatency := do
  let unit ← witness.tail.getLast?
  let thresholdUnixMillis ← began config slotUnixMillis a.context.targetEpoch unit
  let observedUnixMillis ← a.crossedUnixMillis
  let heldBack := saturatingSub closing.firedUnixMillis observedUnixMillis
  let blockedMillis := min a.blockedMillis heldBack
  return {
    epoch := a.context.targetEpoch
    thresholdSlot := a.context.targetEpoch * config.slotsPerEpoch + unit.slotInEpoch
    thresholdUnixMillis
    observedUnixMillis
    observationMillis := saturatingSub observedUnixMillis thresholdUnixMillis
    blockedMillis
    firedUnixMillis := closing.firedUnixMillis
    proofUnixMillis
    t2MinusTMillis := saturatingSub proofUnixMillis thresholdUnixMillis
    waitMillis := heldBack - blockedMillis
    lateGroupMillis := closing.lateGroupMillis
    finalProofMillis :=
      saturatingSub proofUnixMillis (closing.firedUnixMillis + closing.lateGroupMillis)
    tailNamed := closing.tailNamed
    foldedGroups := a.foldedGroups
    lateGroups := closing.lateGroups
    tail := closing.tail }

/-- Adopt the final proof: it is there, it can be written, and its checkpoint is the chain's. -/
def finishFinal (config : Config 𝕜) (slotUnixMillis : UInt64 → Option UInt64) (tick : Tick P)
    (a : StreamAggregator P B) (closing : Closing) (witness : StreamFinalWitness P)
    (proofUnixMillis : UInt64) : Option EpochLatency :=
  if (tick.prover.proveStreamFinal witness).isOk && tick.written &&
      tick.checkpointRoot = some a.context.targetRoot then
    epochLatency config slotUnixMillis a closing witness proofUnixMillis
  else none

/-- What a tick publishes, by a final proof that was there at `proofUnixMillis`. -/
def published (config : Config 𝕜) (slotUnixMillis : UInt64 → Option UInt64) (tick : Tick P)
    (s : StreamPipeline P B) (proofUnixMillis : UInt64) : Option EpochLatency :=
  match s.aggregator.filter fun a => a.context.targetEpoch = tick.cursorEpoch, s.pending with
  | some a, some (.final closing witness) =>
      match takeArrivals config tick a s.pending with
      | .ok (a, _) =>
          if tick.landed then
            finishFinal config slotUnixMillis tick a closing witness proofUnixMillis
          else none
      | .error _ => none
  | _, _ => none

/-! ## What the clock showed -/

/-- The clock does not go back within a tick, nor behind an earlier one, and a proof has landed
when it is collected. -/
structure Clock.From (clock : Clock) (now : ℕ) : Prop where
  observed : now ≤ clock.observed.toNat
  freed : clock.observed.toNat ≤ clock.freed.toNat
  landed : clock.landed.toNat ≤ clock.freed.toNat
  reobserved : clock.freed.toNat ≤ clock.reobserved.toNat
  queued : clock.reobserved.toNat ≤ clock.queued.toNat
  fired : clock.queued.toNat ≤ clock.fired.toNat
  closing : clock.fired.toNat ≤ clock.closing.toNat

/-- What a clock beside the pipeline has shown. -/
structure History where
  /-- The end of the last tick. -/
  now : ℕ
  /-- When the last proof off the critical path was handed over. -/
  started : ℕ
  /-- When each proof off the critical path that was collected was handed over, and landed. -/
  busy : List (ℕ × ℕ)
  /-- When the final proof started. -/
  closing : ℕ

/-- A proof off the critical path. -/
def offPath : Option (Pending P) → Bool
  | some (.group _) | some (.fold ..) => true
  | _ => false

/-- A tick of an epoch that collects a proof off the critical path. -/
def collectsEpoch (config : Config 𝕜) (tick : Tick P) (a : StreamAggregator P B)
    (pending : Option (Pending P)) : Bool :=
  (takeArrivals config tick a pending).isOk && tick.landed && offPath pending

def collects (config : Config 𝕜) (tick : Tick P) (s : StreamPipeline P B) : Bool :=
  match s.aggregator.filter fun a => a.context.targetEpoch = tick.cursorEpoch with
  | some a => collectsEpoch config tick a s.pending
  | none => false

/-- What a tick adds before the trigger is asked. -/
def History.collect (h : History) (tick : Tick P) (collected : Bool) : History :=
  { h with
    now := tick.clock.freed.toNat
    busy := if collected then h.busy ++ [(h.started, tick.clock.landed.toNat)] else h.busy }

/-- What a tick adds that handed these witnesses to the prover. -/
def History.hand (h : History) (tick : Tick P) (jobs : List (Job P)) : History :=
  { h with
    now := tick.clock.closing.toNat
    started := if jobs.isEmpty then h.started else tick.clock.queued.toNat
    closing := if jobs.isEmpty then h.closing else tick.clock.closing.toNat }

/-- What a tick adds. -/
def History.tick (config : Config 𝕜) (tick : Tick P) (s : StreamPipeline P B) (h : History) :
    History :=
  (h.collect tick (collects config tick s)).hand tick (drive config tick s).2

/-- One tick, or the epoch is dropped from outside. -/
def timedStep (config : Config 𝕜) (state : StreamPipeline P B × History) :
    Option (Tick P) → Option (StreamPipeline P B × History)
  | some tick => some ((drive config tick state.1).1, state.2.tick config tick state.1)
  | none => some (state.1.forget, state.2)

/-- The clock of a run does not go back, and a proof lands after it was handed over. -/
def Timely (state : StreamPipeline P B × History) : Option (Tick P) → Prop
  | some tick => tick.clock.From state.2.now ∧
      (tick.landed → state.2.started ≤ tick.clock.landed.toNat)
  | none => True

/-- Before anything has run. -/
def History.start : History := ⟨0, 0, [], 0⟩

/-- **The five terms** are five pieces of the time from the crossing slot to the proof, one after
the other, and what is blocked is time in which a proof was in flight. -/
structure EpochLatency.Exact (latency : EpochLatency) (h : History) : Prop where
  threshold : latency.thresholdUnixMillis.toNat ≤ latency.observedUnixMillis.toNat
  observed : latency.observedUnixMillis.toNat ≤ latency.firedUnixMillis.toNat
  fired : latency.firedUnixMillis.toNat ≤ latency.proofUnixMillis.toNat
  total : latency.observationMillis.toNat + latency.blockedMillis.toNat +
    latency.waitMillis.toNat + latency.lateGroupMillis.toNat + latency.finalProofMillis.toNat =
      latency.t2MinusTMillis.toNat
  t2 : latency.t2MinusTMillis.toNat =
    latency.proofUnixMillis.toNat - latency.thresholdUnixMillis.toNat
  observation : latency.observationMillis.toNat =
    latency.observedUnixMillis.toNat - latency.thresholdUnixMillis.toNat
  heldBack : latency.blockedMillis.toNat + latency.waitMillis.toNat =
    latency.firedUnixMillis.toNat - latency.observedUnixMillis.toNat
  closing : ∃ closing, latency.firedUnixMillis.toNat ≤ closing ∧
    closing ≤ latency.proofUnixMillis.toNat ∧
      latency.lateGroupMillis.toNat = closing - latency.firedUnixMillis.toNat ∧
        latency.finalProofMillis.toNat = latency.proofUnixMillis.toNat - closing
  blocked : latency.blockedMillis.toNat ≤
    elapsed h.busy latency.observedUnixMillis.toNat latency.firedUnixMillis.toNat

/-! ## When it is exact -/

/-- The units of slots that had begun when the crossing was observed reach the target: what fires
is not a later slot. -/
def Begun (config : Config 𝕜) (slotUnixMillis : UInt64 → Option UInt64) (tick : Tick P)
    (a : StreamAggregator P B) : Prop :=
  ∃ n < (allUnits config a).length,
    config.streamPolicy.targetBalance a.context.totalActiveBalance ≤
      runningBalance (allUnits config a) (n + 1) ∧
    ∀ unit ∈ (allUnits config a).take (n + 1),
      ∀ millis ∈ began config slotUnixMillis a.context.targetEpoch unit.witness,
        millis ≤ a.crossedUnixMillis.getD tick.clock.reobserved

/-- A group off the critical path. -/
def grouped : Option (Pending P) → Bool
  | some (.group _) => true
  | _ => false

/-- **A tick that keeps the split exact.** -/
structure KeepsSplit (config : Config 𝕜) (slotUnixMillis : UInt64 → Option UInt64)
    (tick : Tick P) (s : StreamPipeline P B) : Prop where
  /-- If it fires, what it fires on had begun when the crossing was observed. -/
  begun : ∀ a, prepare config tick s = .free a → Fires config tick a →
    Begun config slotUnixMillis tick a
  /-- If it is the first after a fold has landed, the epoch has not crossed. -/
  folded : ∀ a ∈ s.aggregator, a.context.targetEpoch = tick.cursorEpoch → s.pending.isNone →
    a.provingSince.isSome → ∀ arrived ∈ (takeArrivals config tick a none).toOption,
      arrived.1.crossedUnixMillis = none
  /-- If it collects a group of an epoch that has crossed, no time has passed since the group
  landed, or since the crossing where that came later. -/
  collected : ∀ a ∈ s.aggregator, a.context.targetEpoch = tick.cursorEpoch → grouped s.pending →
    tick.landed → ∀ arrived ∈ (takeArrivals config tick a s.pending).toOption,
      ∀ crossed ∈ arrived.1.crossedUnixMillis, tick.clock.freed ≤ max tick.clock.landed crossed

/-- A run whose clock does not go back, and whose ticks keep the split exact. -/
def Splits (config : Config 𝕜) (slotUnixMillis : UInt64 → Option UInt64)
    (state : StreamPipeline P B × History) (e : Option (Tick P)) : Prop :=
  Timely state e ∧ ∀ tick ∈ e, KeepsSplit config slotUnixMillis tick state.1

section Decide

variable {config : Config 𝕜} {slotUnixMillis : UInt64 → Option UInt64} {tick : Tick P}
  {s : StreamPipeline P B} {state : StreamPipeline P B × History}

instance {clock : Clock} {now : ℕ} : Decidable (clock.From now) :=
  decidable_of_iff (_ ∧ _ ∧ _ ∧ _ ∧ _ ∧ _ ∧ _)
    ⟨fun ⟨h₁, h₂, h₃, h₄, h₅, h₆, h₇⟩ => ⟨h₁, h₂, h₃, h₄, h₅, h₆, h₇⟩,
      fun ⟨h₁, h₂, h₃, h₄, h₅, h₆, h₇⟩ => ⟨h₁, h₂, h₃, h₄, h₅, h₆, h₇⟩⟩

instance {a : StreamAggregator P B} : Decidable (Begun config slotUnixMillis tick a) :=
  -- a start is looked at, and not every integer compared with it
  haveI (start : Option UInt64) (bound : UInt64) : Decidable (∀ millis ∈ start, millis ≤ bound) :=
    Option.decidableForallMem start
  inferInstanceAs (Decidable (∃ n, n < _ ∧ _))

instance {a : Prepared P B} : Decidable (∀ b, a = .free b → Fires config tick b →
    Begun config slotUnixMillis tick b) :=
  match a with
  | .free a => decidable_of_iff (Fires config tick a → Begun config slotUnixMillis tick a)
      ⟨fun h b hb => by obtain rfl := Prepared.free.inj hb; exact h, fun h => h a rfl⟩
  | .over .. => isTrue fun _ h => by cases h

instance : Decidable (KeepsSplit config slotUnixMillis tick s) :=
  haveI (crossed : Option UInt64) (freed landed : UInt64) :
      Decidable (∀ millis ∈ crossed, freed ≤ max landed millis) :=
    Option.decidableForallMem crossed
  decidable_of_iff ((∀ a, prepare config tick s = .free a → Fires config tick a →
      Begun config slotUnixMillis tick a) ∧
    (∀ a ∈ s.aggregator, a.context.targetEpoch = tick.cursorEpoch → s.pending.isNone →
      a.provingSince.isSome → ∀ arrived ∈ (takeArrivals config tick a none).toOption,
        arrived.1.crossedUnixMillis = none) ∧
    ∀ a ∈ s.aggregator, a.context.targetEpoch = tick.cursorEpoch → grouped s.pending →
      tick.landed → ∀ arrived ∈ (takeArrivals config tick a s.pending).toOption,
        ∀ crossed ∈ arrived.1.crossedUnixMillis, tick.clock.freed ≤ max tick.clock.landed crossed)
    ⟨fun ⟨h₁, h₂, h₃⟩ => ⟨h₁, h₂, h₃⟩, fun ⟨h₁, h₂, h₃⟩ => ⟨h₁, h₂, h₃⟩⟩

instance {e : Option (Tick P)} : Decidable (Timely state e) :=
  match e with
  | some tick => inferInstanceAs (Decidable (tick.clock.From state.2.now ∧ _))
  | none => isTrue trivial

instance {e : Option (Tick P)} : Decidable (Splits config slotUnixMillis state e) :=
  inferInstanceAs (Decidable (_ ∧ ∀ tick ∈ e, _))

end Decide

variable {config : Config 𝕜} {slotUnixMillis : UInt64 → Option UInt64} {tick : Tick P}
  {s : StreamPipeline P B} {a b : StreamAggregator P B} {h : History}

/-! ## A row that is exact -/

theorem saturatingSub_toNat (x y : UInt64) : (saturatingSub x y).toNat = x.toNat - y.toNat := by
  unfold saturatingSub
  split
  · next hle => exact UInt64.toNat_sub_of_le _ _ hle
  · next hlt =>
      have hlt : x.toNat < y.toNat := UInt64.lt_iff_toNat_lt.mp (UInt64.not_le.mp hlt)
      rw [Nat.sub_eq_zero_of_le hlt.le]
      rfl

theorem toNat_le_max {x y z : UInt64} (h : x ≤ max y z) : x.toNat ≤ max y.toNat z.toNat := by
  have hle : x.toNat ≤ (if y ≤ z then z else y).toNat := UInt64.le_iff_toNat_le.mp h
  split at hle
  · exact hle.trans (le_max_right _ _)
  · exact hle.trans (le_max_left _ _)

/-- The final proof in flight was started on time. -/
structure Fired.OnTime (config : Config 𝕜) (slotUnixMillis : UInt64 → Option UInt64) (h : History)
    (a : StreamAggregator P B) (closing : Closing) (witness : StreamFinalWitness P) : Prop where
  crossed : ∃ crossed, a.crossedUnixMillis = some crossed ∧
    crossed.toNat ≤ closing.firedUnixMillis.toNat ∧
    a.blockedMillis.toNat ≤ elapsed h.busy crossed.toNat closing.firedUnixMillis.toNat ∧
    ∀ unit, witness.tail.getLast? = some unit → ∀ millis,
      began config slotUnixMillis a.context.targetEpoch unit = some millis →
        millis.toNat ≤ crossed.toNat
  fired : closing.firedUnixMillis.toNat ≤ h.closing
  late : closing.lateGroupMillis.toNat = h.closing - closing.firedUnixMillis.toNat

omit [LinearOrder 𝕜] [AddCommGroup 𝕜] in
theorem Fired.OnTime.exact {closing : Closing} {witness : StreamFinalWitness P}
    {proofUnixMillis : UInt64} {latency : EpochLatency}
    (hon : Fired.OnTime config slotUnixMillis h a closing witness)
    (hproof : h.closing ≤ proofUnixMillis.toNat)
    (hrow : epochLatency config slotUnixMillis a closing witness proofUnixMillis = some latency) :
    latency.Exact h := by
  obtain ⟨crossed, hcrossed, hfired, hblocked, hbegan⟩ := hon.crossed
  obtain ⟨unit, hunit, hrow⟩ := Option.bind_eq_some_iff.mp hrow
  obtain ⟨threshold, hthreshold, hrow⟩ := Option.bind_eq_some_iff.mp hrow
  obtain ⟨observed, hobserved, hrow⟩ := Option.bind_eq_some_iff.mp hrow
  obtain rfl : crossed = observed := Option.some.inj (hcrossed.symm.trans hobserved)
  obtain rfl := Option.some.inj hrow
  have hbefore : threshold.toNat ≤ crossed.toNat := hbegan unit hunit threshold hthreshold
  have hwindow := (elapsed_le h.busy crossed.toNat closing.firedUnixMillis.toNat)
  have hheld : (saturatingSub closing.firedUnixMillis crossed).toNat =
      closing.firedUnixMillis.toNat - crossed.toNat := saturatingSub_toNat _ _
  -- what was blocked fits between the crossing and the fire
  have hmin : min a.blockedMillis (saturatingSub closing.firedUnixMillis crossed) =
      a.blockedMillis := by
    apply if_pos
    rw [UInt64.le_iff_toNat_le, hheld]
    exact hblocked.trans hwindow
  have hwait : (saturatingSub closing.firedUnixMillis crossed - a.blockedMillis).toNat =
      closing.firedUnixMillis.toNat - crossed.toNat - a.blockedMillis.toNat := by
    rw [UInt64.toNat_sub_of_le, hheld]
    rw [UInt64.le_iff_toNat_le, hheld]
    exact hblocked.trans hwindow
  have hclosing : (closing.firedUnixMillis + closing.lateGroupMillis).toNat = h.closing := by
    have hlt := proofUnixMillis.toNat_lt
    have hstarted := hon.fired
    rw [UInt64.toNat_add, hon.late, Nat.mod_eq_of_lt (by omega)]
    omega
  have hfinal : (saturatingSub proofUnixMillis
      (closing.firedUnixMillis + closing.lateGroupMillis)).toNat =
        proofUnixMillis.toNat - h.closing := by rw [saturatingSub_toNat, hclosing]
  have hobservation := saturatingSub_toNat crossed threshold
  have ht2 := saturatingSub_toNat proofUnixMillis threshold
  have hstarted := hon.fired
  have hlate := hon.late
  refine ⟨hbefore, hfired, hstarted.trans hproof, ?_, ht2, hobservation, ?_,
    ⟨h.closing, hstarted, hproof, hlate, hfinal⟩, ?_⟩
  · simp only [hmin, hwait, hfinal, hobservation, ht2, hlate]
    omega
  · simp only [hmin, hwait]
    omega
  · simp only [hmin]
    exact hblocked

/-! ## What a tick does to the stamps -/

/-- Arrivals leave the stamps alone. -/
structure SameStamps (a b : StreamAggregator P B) : Prop where
  context : b.context = a.context
  crossed : b.crossedUnixMillis = a.crossedUnixMillis
  since : b.provingSince = a.provingSince
  blocked : b.blockedMillis = a.blockedMillis

theorem SameStamps.refl (a : StreamAggregator P B) : SameStamps a a := ⟨rfl, rfl, rfl, rfl⟩

theorem SameStamps.arriving (a : StreamAggregator P B) : Arriving (SameStamps a) :=
  fun _ _ _ _ _ h => ⟨h.context, h.crossed, h.since, h.blocked⟩

omit [LinearOrder 𝕜] [AddCommGroup 𝕜] in
theorem SameStamps.closeUnits (units : List (SlotComplement P)) (a : StreamAggregator P B) :
    SameStamps a (a.closeUnits units) := by
  obtain ⟨stream, balance, hclose⟩ := closeUnits_eq units a
  rw [hclose]
  exact ⟨rfl, rfl, rfl, rfl⟩

omit [LinearOrder 𝕜] [AddCommGroup 𝕜] in
/-- The top of a tick stamps the crossing if it is new, and nothing else. -/
theorem takeArrivals_stamps {pending : Option (Pending P)} {gossip : Option (List (Drain P))}
    (h : takeArrivals config tick a pending = .ok (b, gossip)) :
    b.context = a.context ∧ b.provingSince = a.provingSince ∧ b.blockedMillis = a.blockedMillis ∧
      (b.crossedUnixMillis = a.crossedUnixMillis ∨
        a.crossedUnixMillis = none ∧ b.crossedUnixMillis = some tick.clock.observed) := by
  obtain ⟨⟨c, drains⟩, habsorb, hrun⟩ := Guest.bind_eq_ok.mp h
  obtain ⟨⟨d, drains'⟩, hfill, hret⟩ := Guest.bind_eq_ok.mp hrun
  have harriving := SameStamps.arriving a
  have hd : SameStamps a d := harriving.fillGap (harriving.absorbGossip
    (harriving.arrive (SameStamps.refl a) _ _ _) habsorb) hfill
  obtain ⟨rfl, -⟩ := Prod.mk.inj (Guest.pure_eq_ok.mp hret)
  split
  · exact ⟨hd.context, hd.since, hd.blocked, .inl hd.crossed⟩
  · next hnone =>
      unfold observeCrossing
      split
      · exact ⟨hd.context, hd.since, hd.blocked, .inl hd.crossed⟩
      · refine ⟨hd.context, hd.since, hd.blocked, .inr ⟨?_, rfl⟩⟩
        rw [← hd.crossed]
        simpa using hnone

omit [LinearOrder 𝕜] [AddCommGroup 𝕜] in
/-- Where the prover is found free, what it ran is charged. -/
theorem freshen_stamps {gossip : Option (List (Drain P))}
    (h : freshen config tick a gossip = .free b) :
    SameStamps (a.chargeBlocked tick.clock.freed) b := by
  unfold freshen at h
  split at h
  · cases h
  · split at h
    · cases h
    · next habsorb =>
        obtain rfl := Prepared.free.inj h
        have hstart : SameStamps (a.chargeBlocked tick.clock.freed)
            (({ a with reorged := false }).chargeBlocked tick.clock.freed) := ⟨rfl, rfl, rfl, rfl⟩
        exact (SameStamps.arriving _).absorbGossip hstart habsorb

/-! ## What is charged -/

/-- What is charged so far is time in which a proof was in flight, and the epoch had crossed. -/
def Charged (busy : List (ℕ × ℕ)) (now : ℕ) (a : StreamAggregator P B) : Prop :=
  a.blockedMillis.toNat ≤ a.crossedUnixMillis.elim 0 fun crossed =>
    elapsed busy crossed.toNat now

variable {busy : List (ℕ × ℕ)} {now now' : ℕ}

theorem Charged.mono (hcharged : Charged busy now a) (more : List (ℕ × ℕ)) (hnow : now ≤ now') :
    Charged (busy ++ more) now' a := by
  unfold Charged at *
  cases hcrossed : a.crossedUnixMillis with
  | none => rwa [hcrossed] at hcharged
  | some crossed =>
      rw [hcrossed] at hcharged
      exact hcharged.trans (elapsed_mono hnow)

theorem Charged.later (hcharged : Charged busy now a) (hnow : now ≤ now') :
    Charged busy now' a := by
  have hlater := hcharged.mono [] hnow
  rwa [List.append_nil] at hlater

/-- Nothing is charged before the crossing. -/
theorem Charged.uncrossed (hcharged : Charged busy now a) (hnone : a.crossedUnixMillis = none)
    (hblocked : b.blockedMillis = a.blockedMillis) : Charged busy now' b := by
  unfold Charged at *
  rw [hnone] at hcharged
  rw [hblocked, Nat.le_zero.mp hcharged]
  exact Nat.zero_le _

theorem Charged.same (hcharged : Charged busy now a) (hsame : SameStamps a b) :
    Charged busy now b := by
  unfold Charged at *
  rw [hsame.crossed, hsame.blocked]
  exact hcharged

/-- With no start on record nothing more is charged. -/
theorem Charged.idle (hcharged : Charged busy now a) (hnone : a.provingSince = none)
    (freed : UInt64) : Charged busy now (a.chargeBlocked freed) := by
  unfold Charged at *
  cases hcrossed : a.crossedUnixMillis with
  | none =>
      rw [hcrossed] at hcharged
      simp only [chargeBlocked, hcrossed]
      exact hcharged
  | some crossed =>
      rw [hcrossed] at hcharged
      simp only [chargeBlocked, hcrossed, hnone]
      exact hcharged

/-- **The proof in flight is charged** from its start, or from the crossing, to where it is found
to have landed. -/
theorem Charged.charge {started landed : ℕ} {since freed : UInt64} (hcharged : Charged busy now a)
    (hsince : a.provingSince = some since) (hstarted : since.toNat = started)
    (hbusy : ∀ p ∈ busy, p.2 ≤ started) (hnow : now ≤ freed.toNat) (hlanded : landed ≤ freed.toNat)
    (hcollected : ∀ crossed, a.crossedUnixMillis = some crossed →
      freed.toNat ≤ max landed crossed.toNat) :
    Charged (busy ++ [(started, landed)]) freed.toNat (a.chargeBlocked freed) := by
  unfold Charged at *
  cases hcrossed : a.crossedUnixMillis with
  | none =>
      rw [hcrossed] at hcharged
      simp only [chargeBlocked, hcrossed]
      exact hcharged
  | some crossed =>
      rw [hcrossed] at hcharged
      have happend : elapsed busy crossed.toNat now + (landed - max started crossed.toNat) ≤
          elapsed (busy ++ [(started, landed)]) crossed.toNat freed.toNat :=
        elapsed_append (started, landed) hbusy hnow hlanded
      -- what passed since it landed was before the crossing
      have hcovers : freed.toNat - max started crossed.toNat ≤
          landed - max started crossed.toNat := by
        have hwindow := hcollected crossed hcrossed
        omega
      have hmax : (max since crossed).toNat = max started crossed.toNat := by
        show (if since ≤ crossed then crossed else since).toNat = _
        split
        · next hle => rw [max_eq_right (hstarted ▸ UInt64.le_iff_toNat_le.mp hle)]
        · next hlt =>
            have hlt := UInt64.lt_iff_toNat_lt.mp (UInt64.not_le.mp hlt)
            rw [max_eq_left (hstarted ▸ hlt.le), hstarted]
      have hcharge : (saturatingSub freed (max since crossed)).toNat =
          freed.toNat - max started crossed.toNat := by rw [saturatingSub_toNat, hmax]
      -- what is charged fits between the crossing and now
      have hfits := elapsed_le (busy ++ [(started, landed)]) crossed.toNat freed.toNat
      have hlt := freed.toNat_lt
      simp only [chargeBlocked, hcrossed, hsince, Option.elim_some] at hcharged ⊢
      rw [UInt64.toNat_add, hcharge, Nat.mod_eq_of_lt (by omega)]
      omega

/-! ## What is in flight -/

/-- What the stamps say about the proof in flight. -/
def Stamped (config : Config 𝕜) (slotUnixMillis : UInt64 → Option UInt64) (h : History)
    (a : StreamAggregator P B) : Option (Pending P) → Prop
  | none => True
  | some (.group _) | some (.fold ..) =>
      (∃ since, a.provingSince = some since ∧ since.toNat = h.started) ∧
        ∀ p ∈ h.busy, p.2 ≤ h.started
  | some (.late ..) => False
  | some (.final closing witness) => Fired.OnTime config slotUnixMillis h a closing witness

/-- **The stamps of an epoch** agree with what the clock showed. -/
structure Timed (config : Config 𝕜) (slotUnixMillis : UInt64 → Option UInt64) (h : History)
    (a : StreamAggregator P B) (pending : Option (Pending P)) : Prop where
  crossed : ∀ crossed, a.crossedUnixMillis = some crossed → crossed.toNat ≤ h.now
  charged : Charged h.busy h.now a
  inFlight : Stamped config slotUnixMillis h a pending

variable {pending : Option (Pending P)} {gossip : Option (List (Drain P))}

omit [LinearOrder 𝕜] [AddCommGroup 𝕜] in
theorem Stamped.same (hflight : Stamped config slotUnixMillis h a pending)
    (hcontext : b.context = a.context) (hsince : b.provingSince = a.provingSince)
    (hblocked : b.blockedMillis = a.blockedMillis)
    (hcrossed : ∀ crossed, a.crossedUnixMillis = some crossed →
      b.crossedUnixMillis = some crossed) (now : ℕ) :
    Stamped config slotUnixMillis { h with now } b pending := by
  rcases pending with _ | group | ⟨index, proved, witness⟩ | ⟨group, fired⟩ | ⟨closing, witness⟩
  · trivial
  · exact ⟨hsince ▸ hflight.1, hflight.2⟩
  · exact ⟨hsince ▸ hflight.1, hflight.2⟩
  · exact hflight
  · obtain ⟨crossed, hsome, hfired, hcharged, hbegan⟩ := hflight.crossed
    refine ⟨⟨crossed, hcrossed crossed hsome, hfired, ?_, ?_⟩, hflight.fired, hflight.late⟩
    · rw [hblocked]
      exact hcharged
    · rw [hcontext]
      exact hbegan

omit [LinearOrder 𝕜] [AddCommGroup 𝕜] in
/-- A stamp of the crossing stays. -/
theorem takeArrivals_crossed (hrun : takeArrivals config tick a pending = .ok (b, gossip))
    {crossed : UInt64} (hsome : a.crossedUnixMillis = some crossed) :
    b.crossedUnixMillis = some crossed := by
  obtain ⟨-, -, -, hsame | ⟨hnone, -⟩⟩ := takeArrivals_stamps hrun
  · exact hsame.trans hsome
  · rw [hnone] at hsome
    cases hsome

omit [LinearOrder 𝕜] [AddCommGroup 𝕜] in
/-- The top of a tick. -/
theorem Timed.arrive (htimed : Timed config slotUnixMillis h a pending)
    (hclock : tick.clock.From h.now) (hrun : takeArrivals config tick a pending = .ok (b, gossip)) :
    Timed config slotUnixMillis { h with now := tick.clock.observed.toNat } b pending := by
  obtain ⟨hcontext, hsince, hblocked, hcrossed⟩ := takeArrivals_stamps hrun
  refine ⟨?_, ?_, htimed.inFlight.same hcontext hsince hblocked
    (fun _ => takeArrivals_crossed hrun) _⟩
  · intro crossed hsome
    rcases hcrossed with hsame | ⟨-, hnew⟩
    · exact (htimed.crossed crossed (hsame ▸ hsome)).trans hclock.observed
    · rw [hnew] at hsome
      obtain rfl := Option.some.inj hsome
      exact le_rfl
  · rcases hcrossed with hsame | ⟨hnone, -⟩
    · exact (htimed.charged.later hclock.observed).same ⟨hcontext, hsame, hsince, hblocked⟩
    · exact htimed.charged.uncrossed hnone hblocked

omit [LinearOrder 𝕜] [AddCommGroup 𝕜] in
/-- What is left once the prover is found free. -/
theorem Timed.freshen {busy : List (ℕ × ℕ)}
    (hcrossed : ∀ crossed, a.crossedUnixMillis = some crossed →
      crossed.toNat ≤ tick.clock.freed.toNat)
    (hcharged : Charged busy tick.clock.freed.toNat (a.chargeBlocked tick.clock.freed))
    (hrun : freshen config tick a gossip = .free b) :
    Timed config slotUnixMillis { h with now := tick.clock.freed.toNat, busy } b none := by
  have hsame := freshen_stamps hrun
  refine ⟨?_, hcharged.same hsame, trivial⟩
  intro crossed hsome
  rw [hsame.crossed] at hsome
  exact hcrossed crossed hsome

omit [LinearOrder 𝕜] [AddCommGroup 𝕜] in
theorem Timed.later (htimed : Timed config slotUnixMillis h a pending) (hnow : h.now ≤ now) :
    Timed config slotUnixMillis { h with now } a pending where
  crossed crossed hsome := (htimed.crossed crossed hsome).trans hnow
  charged := htimed.charged.later hnow
  inFlight := htimed.inFlight.same rfl rfl rfl (fun _ hsome => hsome) now

theorem finishFold_stamps {proved : ℕ} {witness : AggregateWitness P}
    (hfold : finishFold tick a proved witness = .ok b) : SameStamps a b := by
  unfold finishFold at hfold
  obtain ⟨⟨output, proof⟩, -, hfold⟩ := Guest.bind_eq_ok.mp hfold
  obtain ⟨-, -, hret⟩ := Guest.bind_eq_ok.mp hfold
  obtain rfl := Guest.pure_eq_ok.mp hret
  exact ⟨rfl, rfl, rfl, rfl⟩

omit [LinearOrder 𝕜] [AddCommGroup 𝕜] in
/-- A proof off the critical path is collected. -/
theorem collectsEpoch_eq {inFlight : Pending P} (hpath : offPath (some inFlight) = true)
    (hlanded : tick.landed = true)
    (hrun : takeArrivals config tick a (some inFlight) = .ok (b, gossip)) :
    collectsEpoch config tick a (some inFlight) = true := by
  rw [collectsEpoch, hrun, hlanded, hpath]
  rfl

omit [LinearOrder 𝕜] [AddCommGroup 𝕜] in
/-- **A tick that gets to the trigger.** -/
theorem Timed.prepareEpoch_free (htimed : Timed config slotUnixMillis h a pending)
    (hclock : tick.clock.From h.now)
    (hfolded : pending.isNone → a.provingSince.isSome →
      ∀ arrived ∈ (takeArrivals config tick a none).toOption, arrived.1.crossedUnixMillis = none)
    (hcollected : grouped pending → tick.landed →
      ∀ arrived ∈ (takeArrivals config tick a pending).toOption,
        ∀ crossed ∈ arrived.1.crossedUnixMillis, tick.clock.freed ≤ max tick.clock.landed crossed)
    (hfree : prepareEpoch config tick a pending = .free b) :
    Timed config slotUnixMillis (h.collect tick (collectsEpoch config tick a pending)) b none := by
  have hobserved := hclock.freed
  unfold prepareEpoch at hfree
  split at hfree
  · cases hfree
  · next c gossip harrivals =>
      have harrived := htimed.arrive hclock harrivals
      have hcrossed : ∀ crossed, c.crossedUnixMillis = some crossed →
          crossed.toNat ≤ tick.clock.freed.toNat :=
        fun crossed hsome => (harrived.crossed crossed hsome).trans hobserved
      split at hfree
      · -- the prover has been free since the last tick
        have hidle : collectsEpoch config tick a none = false := Bool.and_false _
        rw [hidle]
        apply Timed.freshen hcrossed _ hfree
        obtain ⟨-, hsince, -, -⟩ := takeArrivals_stamps harrivals
        cases hsome : a.provingSince with
        | none => exact (harrived.charged.later hobserved).idle (hsince.trans hsome) _
        | some since =>
            have huncrossed : c.crossedUnixMillis = none :=
              hfolded rfl (hsome ▸ rfl) (c, gossip) (harrivals ▸ rfl)
            apply harrived.charged.uncrossed huncrossed
            simp only [chargeBlocked, huncrossed]
      · next inFlight =>
          split at hfree
          · next hlanded =>
              cases inFlight with
              | group group =>
                  rw [collectsEpoch_eq rfl hlanded harrivals]
                  simp only [collect] at hfree
                  split at hfree
                  · cases hfree
                  -- a group has landed: what it blocked is charged
                  · obtain ⟨⟨since, hsince, hstarted⟩, hbusy⟩ := harrived.inFlight
                    refine Timed.freshen ?_ ?_ hfree
                    · exact hcrossed
                    · apply harrived.charged.charge hsince hstarted hbusy hobserved hclock.landed
                      intro crossed hsome
                      exact toNat_le_max
                        (hcollected rfl hlanded (c, gossip) (harrivals ▸ rfl) crossed hsome)
              | fold index proved witness =>
                  simp only [collect] at hfree
                  split at hfree <;> cases hfree
              | late group fired => exact harrived.inFlight.elim
              | final closing witness => cases hfree
          · cases hfree

omit [LinearOrder 𝕜] [AddCommGroup 𝕜] in
/-- **A tick that does not get to the trigger** hands nothing over. -/
theorem Timed.prepareEpoch_over (htimed : Timed config slotUnixMillis h a pending)
    (hclock : tick.clock.From h.now) {last : StreamPipeline P B} {jobs : List (Job P)}
    (hover : prepareEpoch config tick a pending = .over last jobs) :
    jobs = [] ∧ ∀ a', last.aggregator = some a' → Timed config slotUnixMillis
      (h.collect tick (collectsEpoch config tick a pending)) a' last.pending := by
  have hobserved := hclock.freed
  have hgone : ∀ {pending' : Option (Pending P)} (a' : StreamAggregator P B),
      (⟨none, pending'⟩ : StreamPipeline P B).aggregator = some a' → Timed config slotUnixMillis
        (h.collect tick (collectsEpoch config tick a pending)) a' pending' :=
    fun a' hnone => by cases hnone
  unfold prepareEpoch at hover
  split at hover
  · obtain ⟨rfl, rfl⟩ := Prepared.over.inj hover
    exact ⟨rfl, hgone⟩
  · next c gossip harrivals =>
      have harrived := htimed.arrive hclock harrivals
      split at hover
      · obtain ⟨rfl, rfl⟩ := Preserved.freshen_over hover
        exact ⟨rfl, hgone⟩
      · next inFlight =>
          split at hover
          · next hlanded =>
              cases inFlight with
              | group group =>
                  simp only [collect] at hover
                  split at hover
                  · obtain ⟨rfl, rfl⟩ := Prepared.over.inj hover
                    exact ⟨rfl, hgone⟩
                  · obtain ⟨rfl, rfl⟩ := Preserved.freshen_over hover
                    exact ⟨rfl, hgone⟩
              | fold index proved witness =>
                  simp only [collect] at hover
                  split at hover
                  · obtain ⟨rfl, rfl⟩ := Prepared.over.inj hover
                    exact ⟨rfl, hgone⟩
                  -- a fold has landed, and the tick ends with it
                  · next hfold =>
                      obtain ⟨rfl, rfl⟩ := Prepared.over.inj hover
                      refine ⟨rfl, fun a' ha' => ?_⟩
                      obtain rfl := Option.some.inj ha'
                      rw [collectsEpoch_eq rfl hlanded harrivals]
                      have hsame := finishFold_stamps hfold
                      refine ⟨?_, (harrived.charged.mono _ hobserved).same hsame, trivial⟩
                      intro crossed hsome
                      rw [hsame.crossed] at hsome
                      exact (harrived.crossed crossed hsome).trans hobserved
              | late group fired => exact harrived.inFlight.elim
              | final closing witness =>
                  obtain ⟨rfl, rfl⟩ := Prepared.over.inj hover
                  exact ⟨rfl, hgone⟩
          -- still in flight
          · next hlanded =>
              obtain ⟨rfl, rfl⟩ := Prepared.over.inj hover
              refine ⟨rfl, fun a' ha' => ?_⟩
              obtain rfl := Option.some.inj ha'
              have hidle : collectsEpoch config tick a (some inFlight) = false := by
                rw [collectsEpoch, Bool.eq_false_of_not_eq_true hlanded, Bool.and_false,
                  Bool.false_and]
              rw [hidle]
              exact harrived.later hobserved

/-! ## What the trigger starts -/

/-- An epoch that holds the quorum has its crossing stamped. -/
theorem observeCrossing_crossed {balance now : UInt64}
    (hquorum : quorumBalance a.context.totalActiveBalance ≤ balance.toNat) :
    (a.observeCrossing balance now).crossedUnixMillis = some (a.crossedUnixMillis.getD now) := by
  unfold observeCrossing
  split
  · next hstamped =>
      have hsome := hstamped.resolve_right (not_lt.mpr hquorum)
      rw [Option.isSome_iff_exists] at hsome
      obtain ⟨crossed, hsome⟩ := hsome
      rw [hsome, Option.getD_some]
  · next hnone =>
      have hnone : a.crossedUnixMillis = none := by
        simpa using fun hsome => hnone (.inl hsome)
      rw [hnone, Option.getD_none]

omit [LinearOrder 𝕜] [AddCommGroup 𝕜] in
theorem Timed.observeCrossing (htimed : Timed config slotUnixMillis h a none) (balance : UInt64)
    {now : UInt64} (hnow : h.now ≤ now.toNat) : Timed config slotUnixMillis
      { h with now := now.toNat } (a.observeCrossing balance now) none := by
  unfold StreamAggregator.observeCrossing
  split
  · exact htimed.later hnow
  · next hnone =>
      have hnone : a.crossedUnixMillis = none := by
        simpa using fun hsome => hnone (.inl hsome)
      refine ⟨?_, htimed.charged.uncrossed hnone rfl, trivial⟩
      intro crossed hsome
      obtain rfl := Option.some.inj hsome
      exact le_rfl

/-- What the final proof carries inline is of slots that had begun. -/
theorem Begun.tail {units : List (SlotComplement P)} {tail : Range} {c : StreamAggregator P B}
    (hbegun : Begun config slotUnixMillis tick a)
    (hunits : units <+: a.openUnits config.slotsPerEpoch) (hclosed : c.units = a.units ++ units)
    (hcontext : c.context = a.context) (htail : c.tail config.streamPolicy = some tail) :
    ∀ unit ∈ tail.of c.units, ∀ millis ∈ began config slotUnixMillis a.context.targetEpoch
      unit.witness, millis ≤ a.crossedUnixMillis.getD tick.clock.reobserved := by
  obtain ⟨crossing, hcrossing, rfl⟩ := tail_eq_some htail
  obtain ⟨n, -, hreached, hbegan⟩ := hbegun
  obtain ⟨hlt, -, hbelow⟩ := crossing_eq_some.mp hcrossing
  obtain ⟨rest, hrest⟩ := hunits
  have hall : allUnits config a = c.units ++ rest := by
    rw [allUnits, ← hrest, hclosed, List.append_assoc]
  have htake : ∀ {m}, m ≤ c.units.length → (allUnits config a).take m = c.units.take m := by
    intro m hm
    rw [hall, List.take_append_of_le_length hm]
  -- the plan stops where the target is reached, so not beyond
  have hle : crossing ≤ n := by
    by_contra hgt
    have hbefore := hbelow n (not_le.mp hgt)
    rw [runningBalance, ← htake (by omega), hcontext] at hbefore
    exact absurd hreached (not_le.mpr hbefore)
  intro unit hunit
  apply hbegan
  have hmem : unit ∈ c.units.take (crossing + 1) := List.mem_of_mem_drop hunit
  rw [← htake hlt] at hmem
  exact (List.take_prefix_take_left (Nat.succ_le_succ hle)).subset hmem

/-- **The trigger** starts proofs on the stamps the epoch has. -/
theorem Timed.trigger
    (htarget : ∀ total, quorumBalance total ≤ config.streamPolicy.targetBalance total)
    (htimed : Timed config slotUnixMillis h a none) (hclock : tick.clock.From now)
    (hnow : h.now = tick.clock.freed.toNat) (hbusy : ∀ p ∈ h.busy, p.2 ≤ h.now)
    (hbegun : Fires config tick a → Begun config slotUnixMillis tick a) :
    ∀ a', (trigger config tick a).1.aggregator = some a' → Timed config slotUnixMillis
      (h.hand tick (trigger config tick a).2) a' (trigger config tick a).1.pending := by
  obtain ⟨units, c, inFlight, jobs, hunits, hstarts, hjobs, hend⟩ := trigger_starts config tick a
  have hfires : ∀ w, Job.final w ∈ jobs → Fires config tick a :=
    fun w hw => (trigger_fires (hjobs ▸ hw)).1
  intro a' ha'
  rcases hend with hend | ⟨hnone, -⟩
  · rw [hend] at ha' ⊢
    obtain rfl := Option.some.inj ha'
    rw [hjobs]
    generalize hheld : (a.held config.slotsPerEpoch tick.headSlot config.streamPolicy).balance =
      balance at hstarts
    have hreobserved : h.now ≤ tick.clock.reobserved.toNat := hnow ▸ hclock.reobserved
    have hqueued := hclock.queued
    have hfired := hclock.fired
    have hclosing := hclock.closing
    have hstamped := htimed.observeCrossing balance hreobserved
    have hsame := SameStamps.closeUnits units (a.observeCrossing balance tick.clock.reobserved)
    have hclosed : ((a.observeCrossing balance tick.clock.reobserved).closeUnits units).units =
        a.units ++ units := by
      obtain ⟨crossed, hobserve⟩ := observeCrossing_eq a balance tick.clock.reobserved
      rw [hobserve]
      obtain ⟨stream, attesting, hclose⟩ :=
        closeUnits_eq units { a with crossedUnixMillis := crossed }
      rw [hclose]
    have hcontext : (a.observeCrossing balance tick.clock.reobserved).context = a.context := by
      obtain ⟨crossed, hobserve⟩ := observeCrossing_eq a balance tick.clock.reobserved
      rw [hobserve]
    have hquorum : Fires config tick a →
        (a.observeCrossing balance tick.clock.reobserved).crossedUnixMillis =
          some (a.crossedUnixMillis.getD tick.clock.reobserved) :=
      fun hfires => observeCrossing_crossed ((htarget _).trans (hheld ▸ hfires.1))
    generalize (a.observeCrossing balance tick.clock.reobserved).closeUnits units = d
      at hstarts hsame hclosed
    have hcrossed : ∀ crossed, d.crossedUnixMillis = some crossed →
        crossed.toNat ≤ tick.clock.reobserved.toNat :=
      fun crossed hsome => hstamped.crossed crossed (hsame.crossed ▸ hsome)
    have hcharged := hstamped.charged.same hsame
    -- whatever is started, the crossing was stamped before it
    cases hstarts with
    | nothing =>
        refine ⟨fun crossed hsome => ?_, hcharged.later ?_, trivial⟩
        · exact (hcrossed crossed hsome).trans (hqueued.trans (hfired.trans hclosing))
        · exact hqueued.trans (hfired.trans hclosing)
    | fold _ =>
        refine ⟨fun crossed hsome => ?_, hcharged.later ?_, ⟨_, rfl, rfl⟩, fun p hp => ?_⟩
        · exact (hcrossed crossed hsome).trans (hqueued.trans (hfired.trans hclosing))
        · exact hqueued.trans (hfired.trans hclosing)
        · exact (hbusy p hp).trans (hreobserved.trans hqueued)
    | group _ _ =>
        refine ⟨fun crossed hsome => ?_, hcharged.later ?_, ⟨_, rfl, rfl⟩, fun p hp => ?_⟩
        · exact (hcrossed crossed hsome).trans (hqueued.trans (hfired.trans hclosing))
        · exact hqueued.trans (hfired.trans hclosing)
        · exact (hbusy p hp).trans (hreobserved.trans hqueued)
    | final htail =>
        have hfires := hfires _ (List.mem_singleton_self _)
        have hsome := hsame.crossed.trans (hquorum hfires)
        have hbefore := hcrossed _ hsome
        refine ⟨fun crossed hsome => ?_, hcharged.later ?_, ⟨_, hsome, ?_, ?_, ?_⟩, hclosing, ?_⟩
        · exact (hcrossed crossed hsome).trans (hqueued.trans (hfired.trans hclosing))
        · exact hqueued.trans (hfired.trans hclosing)
        · exact hbefore.trans (hqueued.trans hfired)
        · have hlater := hcharged.later (hqueued.trans hfired)
          rw [Charged, hsome] at hlater
          exact hlater
        -- the last slot of the tail had begun when the quorum was seen
        · intro unit hunit millis hmillis
          obtain ⟨closed, hmem, rfl⟩ := List.mem_map.mp (List.mem_of_getLast? hunit)
          apply UInt64.le_iff_toNat_le.mp
          apply (hbegun hfires).tail hunits hclosed (hsame.context.trans hcontext) htail closed hmem
          rw [← hcontext, ← hsame.context]
          exact hmillis
        · exact saturatingSub_toNat _ _
  · rw [hnone] at ha'
    cases ha'

/-! ## Runs -/

/-- Whatever was collected was so by now. -/
def History.Ended (h : History) : Prop := ∀ p ∈ h.busy, p.2 ≤ h.now

omit [Ord P.Bytes32] in
theorem History.Ended.collect (hended : h.Ended) (hclock : tick.clock.From h.now)
    (collected : Bool) : (h.collect tick collected).Ended := by
  have hfreed := hclock.observed.trans hclock.freed
  intro p hp
  cases collected with
  | false => exact (hended p hp).trans hfreed
  | true =>
      rcases List.mem_append.mp hp with hp | hp
      · exact (hended p hp).trans hfreed
      · obtain rfl := List.mem_singleton.mp hp
        exact hclock.landed

/-- What an epoch in flight is left with. -/
theorem Timed.prepareEpoch
    (htarget : ∀ total, quorumBalance total ≤ config.streamPolicy.targetBalance total)
    (htimed : Timed config slotUnixMillis h a pending) (hclock : tick.clock.From h.now)
    (hended : h.Ended)
    (hfolded : pending.isNone → a.provingSince.isSome →
      ∀ arrived ∈ (takeArrivals config tick a none).toOption, arrived.1.crossedUnixMillis = none)
    (hcollected : grouped pending → tick.landed →
      ∀ arrived ∈ (takeArrivals config tick a pending).toOption,
        ∀ crossed ∈ arrived.1.crossedUnixMillis, tick.clock.freed ≤ max tick.clock.landed crossed)
    (hbegun : ∀ b, prepareEpoch config tick a pending = .free b → Fires config tick b →
      Begun config slotUnixMillis tick b) {last : StreamPipeline P B × List (Job P)}
    (hlast : (match prepareEpoch config tick a pending with
      | .over s jobs => (s, jobs)
      | .free a => StreamPipeline.trigger config tick a) = last) :
    ∀ a', last.1.aggregator = some a' → Timed config slotUnixMillis
      ((h.collect tick (collectsEpoch config tick a pending)).hand tick last.2) a'
        last.1.pending := by
  intro a' ha'
  split at hlast
  · next hover =>
      obtain rfl := hlast
      obtain ⟨rfl, htimed⟩ := htimed.prepareEpoch_over hclock hover
      have hlater := hclock.reobserved.trans
        (hclock.queued.trans (hclock.fired.trans hclock.closing))
      exact (htimed a' ha').later hlater
  · next b hfree =>
      obtain rfl := hlast
      have hfreed := htimed.prepareEpoch_free hclock hfolded hcollected hfree
      exact hfreed.trigger htarget hclock rfl (hended.collect hclock _) (hbegun b hfree) a' ha'

/-- The stamps of a pipeline agree with what the clock showed. -/
def Kept (config : Config 𝕜) (slotUnixMillis : UInt64 → Option UInt64)
    (state : StreamPipeline P B × History) : Prop :=
  state.2.Ended ∧ ∀ a, state.1.aggregator = some a →
    Timed config slotUnixMillis state.2 a state.1.pending

/-- **One tick.** -/
theorem Kept.drive
    (htarget : ∀ total, quorumBalance total ≤ config.streamPolicy.targetBalance total)
    (hkept : Kept config slotUnixMillis (s, h)) (hclock : tick.clock.From h.now)
    (hsplit : KeepsSplit config slotUnixMillis tick s) :
    Kept config slotUnixMillis ((drive config tick s).1, h.tick config tick s) := by
  obtain ⟨hended, htimed⟩ := hkept
  have hlater := hclock.reobserved.trans
    (hclock.queued.trans (hclock.fired.trans hclock.closing))
  refine ⟨fun p hp => (hended.collect hclock _ p hp).trans hlater, ?_⟩
  have hbegun := hsplit.begun
  unfold History.tick StreamPipeline.drive collects
  unfold prepare at hbegun ⊢
  generalize hfound : s.aggregator.filter (fun a => a.context.targetEpoch = tick.cursorEpoch) =
    found at hbegun ⊢
  cases found with
  | some a =>
      obtain ⟨hsome, hepoch⟩ := Option.filter_eq_some_iff.mp hfound
      exact (htimed a hsome).prepareEpoch htarget hclock hended
        (hsplit.folded a hsome (of_decide_eq_true hepoch))
        (hsplit.collected a hsome (of_decide_eq_true hepoch)) hbegun rfl
  | none =>
      cases hopening : tick.opening with
      | none => exact fun a' ha' => by cases ha'
      | some o =>
          rw [hopening] at hbegun
          have hopened : Timed config slotUnixMillis h
              (StreamPipeline.openEpoch config tick.cursorEpoch o : StreamAggregator P B) none :=
            ⟨fun _ hsome => (by cases hsome), le_rfl, trivial⟩
          have hnew : collectsEpoch config tick
              (StreamPipeline.openEpoch config tick.cursorEpoch o : StreamAggregator P B) none =
                false := Bool.and_false _
          have hstarted := hopened.prepareEpoch htarget hclock hended
            (fun _ hsince => (by cases hsince)) (fun hgroup => (by cases hgroup)) hbegun rfl
          rw [hnew] at hstarted
          exact hstarted

/-- **The split is exact**: whatever a run publishes, if each of its ticks keeps the split. -/
theorem latency_exact
    (htarget : ∀ total, quorumBalance total ≤ config.streamPolicy.targetBalance total)
    {state : StreamPipeline P B × History}
    (hrun : Transition.Reached (timedStep config) (Splits config slotUnixMillis) (.empty, .start)
      state)
    {proofUnixMillis : UInt64} (hproof : state.2.closing ≤ proofUnixMillis.toNat)
    {latency : EpochLatency}
    (hpublished : published config slotUnixMillis tick state.1 proofUnixMillis = some latency) :
    latency.Exact state.2 := by
  have hkept : Kept config slotUnixMillis state := by
    apply hrun.invariant
    · exact ⟨fun p hp => (by cases hp), fun a ha => (by cases ha)⟩
    · intro state e state' hkept hmeets hstep
      cases e with
      | none =>
          obtain rfl := Option.some.inj hstep
          exact ⟨hkept.1, fun a ha => (by cases ha)⟩
      | some tick =>
          obtain rfl := Option.some.inj hstep
          exact hkept.drive htarget hmeets.1.1 (hmeets.2 tick rfl)
  unfold published at hpublished
  split at hpublished
  · next a closing witness hfound hpending =>
      have htimed := hkept.2 a (Option.filter_eq_some_iff.mp hfound).1
      split at hpublished
      · next b gossip harrivals =>
          obtain ⟨hcontext, hsince, hblocked, -⟩ := takeArrivals_stamps harrivals
          have hflight := htimed.inFlight.same hcontext hsince hblocked
            (fun _ => takeArrivals_crossed harrivals) state.2.now
          rw [hpending] at hflight
          split at hpublished
          · unfold finishFinal at hpublished
            split at hpublished
            · exact hflight.exact hproof hpublished
            · cases hpublished
          · cases hpublished
      · cases hpublished
  · cases hpublished

end Zkasper.Streaming

/-! ## Runs of one epoch

The epoch of three validators again, all of whom sign, on a chain whose slots take twelve
seconds. -/

namespace Zkasper.Formal

open Streaming StreamPipeline Slot

def willingOpening : Option (Opening (formal willing)) :=
  (batchCommittees willing 96).toOption.map fun committees =>
    { targetRoot := nextRoot
      sourceRoot := genesisRoot
      signingDomain := blank
      committees
      committeeOutput := committees.output
      committeeProof := [1]
      accumulatorCommitment := .commitment (batchTree willing).root 96
      accRoot := (batchTree willing).root
      totalActiveBalance := 96
      aggregateProgramVk
      streamProgramVk := finalVk
      epochDiff := ⟨commitmentAt 0, stateRootAt 0, 1, .commitment (batchTree willing).root 96,
        (batchTree willing).root, 96, blank, 2⟩
      epochDiffProof := [1]
      previous := .batch ⟨commitmentAt 0, committeeRootAt 0, 0, genesisRoot, 1, genesisRoot, 32, 1,
        true, justificationProgramVk⟩
      previousProof := [1]
      boundary := nextBlock willing }

/-- The circuits themselves, over a proof system that accepts everything. -/
def willingCircuits : Prover (formal willing) where
  proveGroup w := do
    let attested ← attest w 2
    let output ← verifyGroupProofWithDepth w 2
    return (output, attested.miller, [1])
  proveAggregate w := do
    let output ← verifyAggregate (fun _ _ _ => true) w
    return (output, [1])
  proveStreamFinal w := do
    let output ← verifyStreamFinalWith (fun _ _ _ => true) w 2 32
    return (output, [1])

/-- A tick that takes no time, in which gossip brings the votes of some slots. -/
def tickOn (millis headSlot : UInt64) (slots : List UInt64) (landed : Bool) :
    Tick (formal willing) where
  cursorEpoch := 2
  opening := willingOpening
  headSlot
  gossip := some [⟨slots.map (vote willing), false, false⟩]
  blocks _ := none
  landed
  prover := willingCircuits
  written := true
  checkpointRoot := some nextRoot
  worthWaiting := false
  tree := batchTree willing
  clock := ⟨millis, millis, millis, millis, millis, millis, millis⟩

def slotMillis (slot : UInt64) : Option UInt64 := some (slot * 12000)

/-- A pipeline, and what the clock beside it showed. -/
abbrev Clocked := StreamPipeline (formal willing) lone × History

abbrev clockedStep (config : Config ℤ) :
    Clocked → Option (Tick (formal willing)) → Option Clocked :=
  timedStep config

/-- Before anything has run. -/
def unstarted : Clocked := (.empty, .start)

/-- Slot 64 is proven in a group, under which slot 65 crosses. -/
def blockedRun : List (Option (Tick (formal willing))) :=
  [some (tickOn 780000 65 [64] true), some (tickOn 785000 66 [65] false),
    some (tickOn 795000 66 [] true)]

/-- The quorum is there at slot 65, and all of the balance at slot 66. -/
def laterSlotRun : List (Option (Tick (formal willing))) :=
  [some (tickOn 782000 65 [64, 65] true), some (tickOn 796000 66 [66] true)]

/-- The same, but the group landed nine seconds before the loop looked again. -/
def heldUpRun : List (Option (Tick (formal willing))) :=
  [some (tickOn 780000 65 [64] true), some (tickOn 785000 66 [65] false),
    some { tickOn 795000 66 [] true with
      clock := ⟨795000, 795000, 795000, 795000, 795000, 795000, 786000⟩ }]

/-- Slot 64 is proven and folded, and slot 65 crosses on the tick that collects the fold. -/
def landedFoldRun : List (Option (Tick (formal willing))) :=
  [some (tickOn 780000 66 [64] true), some (tickOn 781000 66 [] true),
    some (tickOn 785000 66 [65] true), some (tickOn 785003 66 [] true)]

end Zkasper.Formal

namespace Zkasper.Streaming

open StreamPipeline Formal Periods

/-- The group is charged from the crossing on. -/
theorem latency_exact_blocked : ∃ (state : Clocked)
    (latency : EpochLatency),
    published twoThirds slotMillis (tickOn 800000 67 [] true) state.1 799000 = some latency ∧
      latency.blockedMillis = 10000 ∧ latency.Exact state.2 := by
  have htarget : ∀ total, quorumBalance total ≤ twoThirds.streamPolicy.targetBalance total :=
    fun _ => le_rfl
  obtain ⟨state, hrun, hclosing, latency, hpublished, hblocked⟩ :
      ∃ state : Clocked,
        Transition.run (clockedStep twoThirds) (Splits twoThirds slotMillis) unstarted
          blockedRun = some state ∧ state.2.closing ≤ (799000 : UInt64).toNat ∧
        ∃ latency, published twoThirds slotMillis (tickOn 800000 67 [] true) state.1 799000 =
          some latency ∧ latency.blockedMillis = 10000 := by
    decide +kernel
  exact ⟨state, latency, hpublished, hblocked,
    latency_exact htarget (Transition.Reached.of_run hrun) hclosing hpublished⟩

/-- A run of the epoch after which the final proof, there at 799000, publishes a row that is not
exact. -/
def Inexact (config : Config ℤ) (events : List (Option (Tick (formal willing)))) : Prop :=
  ∃ (state : Clocked) (latency : EpochLatency),
    (∀ total, quorumBalance total ≤ config.streamPolicy.targetBalance total) ∧
    Transition.run (clockedStep config) Timely unstarted events = some state ∧
    state.2.closing ≤ (799000 : UInt64).toNat ∧
    published config slotMillis (tickOn 800000 67 [] true) state.1 799000 = some latency ∧
    ¬ latency.Exact state.2

/-- What is charged and did not run. -/
theorem Inexact.of_charged {events : List (Option (Tick (formal willing)))}
    (h : ∃ state : Clocked,
      Transition.run (clockedStep twoThirds) Timely unstarted events = some state ∧
      state.2.closing ≤ (799000 : UInt64).toNat ∧
      ∃ latency, published twoThirds slotMillis (tickOn 800000 67 [] true) state.1 799000 =
        some latency ∧ elapsed state.2.busy latency.observedUnixMillis.toNat
          latency.firedUnixMillis.toNat < latency.blockedMillis.toNat) :
    Inexact twoThirds events := by
  obtain ⟨state, hrun, hclosing, latency, hpublished, hcharged⟩ := h
  exact ⟨state, latency, fun _ => le_rfl, hrun, hclosing, hpublished,
    fun hexact => absurd hexact.blocked (not_le.mpr hcharged)⟩

/-- **Not every run is exact**: under a target above the quorum the last unit of the tail may be of
a slot that began after the crossing was observed; what passes after a fold has landed is charged
as well; and so is what passes until a group that has landed is looked for. -/
theorem latency_not_exact :
    Inexact allOfIt laterSlotRun ∧ Inexact twoThirds landedFoldRun ∧
      Inexact twoThirds heldUpRun := by
  refine ⟨?_, .of_charged (by decide +kernel), .of_charged (by decide +kernel)⟩
  have htarget : ∀ total, quorumBalance total ≤ allOfIt.streamPolicy.targetBalance total := by
    intro total
    show (total.toNat * 2 + 2) / 3 ≤ (total.toNat * 1 + 1 - 1) / 1
    omega
  obtain ⟨state, hrun, hclosing, latency, hpublished, hlater⟩ :
      ∃ state : Clocked,
        Transition.run (clockedStep allOfIt) Timely unstarted laterSlotRun = some state ∧
        state.2.closing ≤ (799000 : UInt64).toNat ∧
        ∃ latency, published allOfIt slotMillis (tickOn 800000 67 [] true) state.1 799000 =
          some latency ∧
            latency.observedUnixMillis.toNat < latency.thresholdUnixMillis.toNat := by
    decide +kernel
  exact ⟨state, latency, htarget, hrun, hclosing, hpublished,
    fun hexact => absurd hexact.threshold (not_le.mpr hlater)⟩

end Zkasper.Streaming
