import Zkasper.WitnessGen.Stream

/-! # Runs of the streaming pipeline

What a tick can do, said once. Arrivals and stamps leave an epoch's progress alone
(`Stable`), and what the trigger starts is one of five things (`Starts`). An invariant
of an epoch and its proof in flight is preserved by a tick if it is stable, survives
the collection of each proof, the closing of slots and each of the five (`Preserved`);
then it holds in every reachable state, and every witness handed to the prover is one
that an epoch with the invariant starts. -/

namespace Zkasper.Streaming

variable {P : Primitives} [Ord P.Bytes32] {B : Blst} {𝕜 : Type} [LinearOrder 𝕜] [AddCommGroup 𝕜]

open StreamAggregator StreamPipeline

/-! ## Arrivals -/

/-- A property of an epoch that arrivals leave alone. -/
def Arriving (Q : StreamAggregator P B → Prop) : Prop :=
  ∀ (a : StreamAggregator P B) attestations nextSlot gap reorged, Q a →
    Q { a with stream := (a.stream.ingest attestations).1, nextSlot, gap, reorged }

/-- A property of an epoch that arrivals and stamps leave alone. -/
def Stable (Q : StreamAggregator P B → Prop) : Prop :=
  ∀ (a : StreamAggregator P B) attestations nextSlot gap reorged crossedUnixMillis provingSince
    blockedMillis, Q a →
      Q { a with
        stream := (a.stream.ingest attestations).1
        nextSlot, gap, reorged, crossedUnixMillis, provingSince, blockedMillis }

namespace Arriving

variable {config : Config 𝕜} {tick : Tick P} {Q : StreamAggregator P B → Prop}
  {a a' : StreamAggregator P B} {gossip gossip' : Option (List (Drain P))}

theorem arrive (hQ : Arriving Q) (h : Q a) (nextSlot gap reorged) :
    Q { a with nextSlot, gap, reorged } :=
  hQ a [] nextSlot gap reorged h

omit [LinearOrder 𝕜] [AddCommGroup 𝕜] in
theorem absorbGossip (hQ : Arriving Q) (h : Q a)
    (hrun : absorbGossip config a gossip = .ok (a', gossip')) : Q a' := by
  unfold StreamAggregator.absorbGossip at hrun
  cases gossip with
  | none =>
      obtain ⟨rfl, -⟩ := Prod.mk.inj (Guest.pure_eq_ok.mp hrun)
      exact h
  | some drains =>
      obtain ⟨_, -, hret⟩ := Guest.bind_eq_ok.mp hrun
      obtain ⟨rfl, -⟩ := Prod.mk.inj (Guest.pure_eq_ok.mp hret)
      exact hQ a _ _ _ _ h

theorem repairBlock (hQ : Arriving Q) (h : Q a) {block : Option (List (AttestationResponse P))}
    (hrun : repairBlock a block = .ok a') : Q a' := by
  unfold StreamAggregator.repairBlock at hrun
  cases block with
  | none =>
      obtain rfl := Guest.pure_eq_ok.mp hrun
      exact h
  | some attestations =>
      obtain ⟨_, -, hret⟩ := Guest.bind_eq_ok.mp hrun
      obtain rfl := Guest.pure_eq_ok.mp hret
      exact hQ a attestations _ _ _ h

omit [LinearOrder 𝕜] [AddCommGroup 𝕜] in
theorem repairBlocks (hQ : Arriving Q) : ∀ {fuel : ℕ} {a : StreamAggregator P B}
    {gossip : Option (List (Drain P))}, Q a →
      repairBlocks config tick fuel a gossip = .ok (a', gossip') → Q a' := by
  intro fuel
  induction fuel with
  | zero =>
      intro a gossip h hrun
      obtain ⟨rfl, -⟩ := Prod.mk.inj (Guest.pure_eq_ok.mp hrun)
      exact h
  | succ fuel ih =>
      intro a gossip h hrun
      rw [StreamAggregator.repairBlocks] at hrun
      split at hrun
      · obtain ⟨rfl, -⟩ := Prod.mk.inj (Guest.pure_eq_ok.mp hrun)
        exact h
      · obtain ⟨b, hblock, hrun⟩ := Guest.bind_eq_ok.mp hrun
        obtain ⟨⟨c, drains⟩, habsorb, hrest⟩ := Guest.bind_eq_ok.mp hrun
        have hb : Q b := hQ.repairBlock (hQ.arrive h _ _ _) hblock
        exact ih (hQ.absorbGossip hb habsorb) hrest

omit [LinearOrder 𝕜] [AddCommGroup 𝕜] in
theorem fillGap (hQ : Arriving Q) {pending : Option (Pending P)} (h : Q a)
    (hrun : fillGap config tick a pending gossip = .ok (a', gossip')) : Q a' := by
  unfold StreamPipeline.fillGap at hrun
  split at hrun
  · exact hQ.repairBlocks (hQ.arrive h _ _ _) hrun
  · obtain ⟨rfl, -⟩ := Prod.mk.inj (Guest.pure_eq_ok.mp hrun)
    exact h

end Arriving

namespace Stable

variable {config : Config 𝕜} {tick : Tick P} {Q : StreamAggregator P B → Prop}
  {a a' : StreamAggregator P B} {gossip gossip' : Option (List (Drain P))}

theorem arriving (hQ : Stable Q) : Arriving Q :=
  fun a attestations nextSlot gap reorged h => hQ a attestations nextSlot gap reorged _ _ _ h

theorem stamp (hQ : Stable Q) (h : Q a) (nextSlot gap reorged crossedUnixMillis provingSince
    blockedMillis) :
    Q { a with nextSlot, gap, reorged, crossedUnixMillis, provingSince, blockedMillis } :=
  hQ a [] nextSlot gap reorged crossedUnixMillis provingSince blockedMillis h

theorem observeCrossing (hQ : Stable Q) (h : Q a) (balance now : UInt64) :
    Q (a.observeCrossing balance now) := by
  unfold StreamAggregator.observeCrossing
  split
  · exact h
  · exact hQ.stamp h _ _ _ _ _ _

theorem chargeBlocked (hQ : Stable Q) (h : Q a) (now : UInt64) : Q (a.chargeBlocked now) :=
  hQ.stamp h _ _ _ _ _ _

omit [LinearOrder 𝕜] [AddCommGroup 𝕜] in
theorem takeArrivals (hQ : Stable Q) {pending : Option (Pending P)} (h : Q a)
    (hrun : takeArrivals config tick a pending = .ok (a', gossip)) : Q a' := by
  obtain ⟨⟨b, drains⟩, habsorb, hrun⟩ := Guest.bind_eq_ok.mp hrun
  obtain ⟨⟨c, drains'⟩, hfill, hret⟩ := Guest.bind_eq_ok.mp hrun
  have hb : Q b := hQ.arriving.absorbGossip (hQ.stamp h _ _ _ _ _ _) habsorb
  have hc : Q c := hQ.arriving.fillGap hb hfill
  obtain ⟨rfl, -⟩ := Prod.mk.inj (Guest.pure_eq_ok.mp hret)
  split
  · exact hc
  · exact hQ.observeCrossing hc _ _

omit [LinearOrder 𝕜] [AddCommGroup 𝕜] in
theorem freshen (hQ : Stable Q) (h : Q a) (hrun : freshen config tick a gossip = .free a') :
    Q a' := by
  unfold StreamPipeline.freshen at hrun
  split at hrun
  · cases hrun
  · split at hrun
    · cases hrun
    · next habsorb =>
        obtain rfl := Prepared.free.inj hrun
        exact hQ.arriving.absorbGossip (hQ.chargeBlocked (hQ.stamp h _ _ _ _ _ _) _) habsorb

end Stable

/-! ## What the trigger can do -/

/-- What a tick starts out of an epoch whose slots it has closed: the epoch it leaves,
the proof in flight, and the witness handed to the prover. -/
inductive Starts (config : Config 𝕜) (tick : Tick P) (a : StreamAggregator P B) :
    StreamAggregator P B → Option (Pending P) → List (Job P) → Prop
  | nothing : Starts config tick a a none []
  | fold {proved : ℕ} {group : GroupProof P} (h : a.unfolded = some (proved, group)) :
      Starts config tick a
        { a with unfolded := none, aggregateProof := [], provingSince := some tick.clock.queued }
        (some (.fold a.foldedGroups proved (a.startFold group).2))
        [.aggregate (a.startFold group).2]
  | group (h : a.unfolded = none) (hlt : a.proved < a.units.length) :
      Starts config tick a { a with provingSince := some tick.clock.queued }
        (some (.group (a.startGroup tick.tree ⟨a.proved, a.units.length⟩)))
        [.group (a.startGroup tick.tree ⟨a.proved, a.units.length⟩).witness]
  | final {tail : Range} (htail : a.tail config.streamPolicy = some tail) :
      Starts config tick a { a with unfolded := none }
        (some (.final (a.startFinal tick (a.unfolded.map Prod.snd) ⟨tick.clock.fired, tail⟩).1
          (a.startFinal tick (a.unfolded.map Prod.snd) ⟨tick.clock.fired, tail⟩).2))
        [.final (a.startFinal tick (a.unfolded.map Prod.snd) ⟨tick.clock.fired, tail⟩).2]

variable {config : Config 𝕜} {tick : Tick P} {a : StreamAggregator P B}

/-- Whether a tick built the final proof's witness. -/
def Job.IsFinal : Job P → Prop
  | .final _ => True
  | _ => False

theorem startNext_starts : ∃ a' pending jobs, startNext tick a = (a', pending, jobs) ∧
    Starts config tick a a' pending jobs ∧ ∀ job ∈ jobs, ¬ job.IsFinal := by
  unfold startNext
  split
  · next h => exact ⟨_, _, _, rfl, .fold h, by simp [Job.IsFinal]⟩
  · next h =>
      split
      · next hlt => exact ⟨_, _, _, rfl, .group h hlt, by simp [Job.IsFinal]⟩
      · exact ⟨_, _, _, rfl, .nothing, by simp⟩

/-- The end of a tick: the epoch goes on with what was started, or is given up, and not
with its final proof. -/
def EndsWith (last : StreamPipeline P B × List (Job P)) (a : StreamAggregator P B)
    (pending : Option (Pending P)) (jobs : List (Job P)) : Prop :=
  last.2 = jobs ∧
    (last.1 = ⟨some a, pending⟩ ∨ last.1.aggregator = none ∧ ∀ job ∈ jobs, ¬ job.IsFinal)

theorem endsWith_of_eq {last : StreamPipeline P B × List (Job P)} {a : StreamAggregator P B}
    {pending : Option (Pending P)} {jobs : List (Job P)} (h : last = (⟨some a, pending⟩, jobs)) :
    EndsWith last a pending jobs :=
  ⟨congrArg Prod.snd h, .inl (congrArg Prod.fst h)⟩

theorem goOn_endsWith {a : StreamAggregator P B} {pending : Option (Pending P)} {jobs : List (Job P)}
    (hjobs : ∀ job ∈ jobs, ¬ job.IsFinal) :
    EndsWith (goOn tick (a, pending, jobs)) a pending jobs := by
  cases hend : a.exhausted tick.headSlot with
  | true =>
      rw [EndsWith, goOn, if_pos hend]
      exact ⟨rfl, .inr ⟨rfl, hjobs⟩⟩
  | false => simp [EndsWith, goOn, hend]

theorem holdBack_starts (held : Held P) (enough : Bool) :
    ∃ units a' pending jobs, units <+: held.openUnits ∧
      Starts config tick (a.closeUnits units) a' pending jobs ∧
      EndsWith (holdBack tick a held enough) a' pending jobs := by
  cases enough with
  | true => exact ⟨complete held, _, _, _, List.take_prefix _ _, .nothing, goOn_endsWith (by simp)⟩
  | false =>
      obtain ⟨a', pending, jobs, hnext, hstarts, hjobs⟩ : ∃ a' pending jobs,
          startNext tick (a.closeUnits (complete held)) = (a', pending, jobs) ∧
          Starts config tick (a.closeUnits (complete held)) a' pending jobs ∧
          ∀ job ∈ jobs, ¬ job.IsFinal := startNext_starts
      refine ⟨complete held, a', pending, jobs, List.take_prefix _ _, hstarts, ?_⟩
      simp only [holdBack, Bool.false_eq_true, if_false, hnext]
      exact goOn_endsWith hjobs

/-- Where the epoch holds no group, what is proven reaches the tail already. -/
theorem tail_start_le {tail : Range} (htail : a.tail config.streamPolicy = some tail)
    (h : a.unfolded = none) : tail.start ≤ a.proved := by
  simp only [StreamAggregator.tail, Option.bind_eq_bind, Option.bind_eq_some_iff, h,
    Option.elim_none] at htail
  obtain ⟨plan, -, htail⟩ := htail
  split at htail
  · cases htail
  · obtain ⟨crossing, -, hret⟩ := Option.bind_eq_some_iff.mp htail
    obtain rfl := Option.some.inj hret
    exact Nat.min_le_left _ _

/-- **Firing starts the final proof** straight away, wherever there is a tail. -/
theorem fire_eq {held : Held P} {tail : Range}
    (htail : (a.closeUnits held.openUnits).tail config.streamPolicy = some tail) :
    fire config tick a held =
      let a := a.closeUnits held.openUnits
      let (closing, witness) := ({ a with unfolded := none }).startFinal tick
        (a.unfolded.map Prod.snd) ⟨tick.clock.fired, tail⟩
      (⟨some { a with unfolded := none }, some (.final closing witness)⟩, [.final witness]) := by
  simp only [fire, htail]
  -- a late group would start where the aggregate ends, and the tail starts no later
  apply if_neg
  simp only [Bool.and_eq_true, Option.isNone_map, Option.isNone_iff_eq_none,
    decide_eq_true_eq, not_and, not_lt]
  exact tail_start_le htail

theorem fire_starts (config : Config 𝕜) (tick : Tick P) (a : StreamAggregator P B) (held : Held P) :
    ∃ units a' pending jobs, units <+: held.openUnits ∧
      Starts config tick (a.closeUnits units) a' pending jobs ∧
      EndsWith (fire config tick a held) a' pending jobs := by
  cases htail : (a.closeUnits held.openUnits).tail config.streamPolicy with
  | none =>
      refine ⟨[], a, none, [], List.nil_prefix, .nothing, ?_⟩
      simp [EndsWith, fire, htail]
  | some tail =>
      refine ⟨held.openUnits, _, _, _, List.prefix_refl _, .final htail, ?_⟩
      exact endsWith_of_eq (fire_eq htail)

/-- **What the trigger does**: it closes some of the open units, first to last, and
starts at most one proof. -/
theorem trigger_starts (config : Config 𝕜) (tick : Tick P) (a : StreamAggregator P B) :
    ∃ units a' pending jobs,
    units <+: a.openUnits config.slotsPerEpoch ∧
      Starts config tick ((a.observeCrossing (a.held config.slotsPerEpoch tick.headSlot
        config.streamPolicy).balance tick.clock.reobserved).closeUnits units) a' pending jobs ∧
      EndsWith (trigger config tick a) a' pending jobs := by
  dsimp only [trigger]
  split
  · exact fire_starts config tick _ (a.held config.slotsPerEpoch tick.headSlot config.streamPolicy)
  · exact holdBack_starts (a.held config.slotsPerEpoch tick.headSlot config.streamPolicy) _

omit [LinearOrder 𝕜] [AddCommGroup 𝕜] in
/-- Closing slots does not touch the stamp of the crossing, nor the stamp the units. -/
theorem closeUnits_observeCrossing (units : List (SlotComplement P)) (balance now : UInt64) :
    ∀ a : StreamAggregator P B, (a.observeCrossing balance now).closeUnits units =
      (a.closeUnits units).observeCrossing balance now := by
  induction units with
  | nil => intro a; rfl
  | cons unit units ih =>
      intro a
      have hunit : (a.observeCrossing balance now).closeUnit unit =
          (a.closeUnit unit).observeCrossing balance now := by
        by_cases hstamped : a.crossedUnixMillis.isSome ∨
            balance.toNat < quorumBalance a.context.totalActiveBalance
        · rw [StreamAggregator.observeCrossing, if_pos hstamped]
          exact (if_pos hstamped).symm
        · rw [StreamAggregator.observeCrossing, if_neg hstamped]
          exact (if_neg hstamped).symm
      show ((a.observeCrossing balance now).closeUnit unit).closeUnits units = _
      rw [hunit, ih]
      rfl

/-! ## Runs -/

/-- The states a run reaches if `Ready` allows every tick of it. -/
inductive Reachable (config : Config 𝕜) (Ready : Tick P → StreamPipeline P B → Prop) :
    StreamPipeline P B → Prop
  | empty : Reachable config Ready .empty
  | forget {s : StreamPipeline P B} : Reachable config Ready s → Reachable config Ready s.forget
  | drive {s : StreamPipeline P B} {tick : Tick P} : Reachable config Ready s → Ready tick s →
      Reachable config Ready (drive config tick s).1

/-- **What an invariant has to survive**: arrivals, the collection of a proof, the
closing of slots and the start of the next proof. No group is ever late. -/
structure Preserved (config : Config 𝕜) (Ready : Tick P → StreamPipeline P B → Prop)
    (Inv : StreamAggregator P B → Option (Pending P) → Prop) : Prop where
  stable : ∀ pending, Stable (Inv · pending)
  opened : ∀ {tick s o}, Ready tick s → tick.opening = some o →
    Inv (StreamPipeline.openEpoch config tick.cursorEpoch o) none
  group : ∀ {tick s a group proof}, Ready tick s → Inv a (some (.group group)) →
    finishGroup tick group = .ok proof → Inv { a with unfolded := some (group.range.stop, proof) } none
  fold : ∀ {tick s a a' index proved witness}, Ready tick s →
    Inv a (some (.fold index proved witness)) → finishFold tick a proved witness = .ok a' →
      Inv a' none
  late : ∀ {a group fired}, ¬ Inv a (some (.late group fired))
  close : ∀ {tick s a units}, Ready tick s → prepare config tick s = .free a → Inv a none →
    units <+: a.openUnits config.slotsPerEpoch → Inv (a.closeUnits units) none
  starts : ∀ {tick s a a' pending jobs}, Ready tick s → Inv a none →
    Starts config tick a a' pending jobs → Inv a' pending

/-- The epoch in flight, if there is one, has the invariant. -/
def Holds (Inv : StreamAggregator P B → Option (Pending P) → Prop) (s : StreamPipeline P B) : Prop :=
  ∀ a, s.aggregator = some a → Inv a s.pending

namespace Preserved

variable {Ready : Tick P → StreamPipeline P B → Prop}
  {Inv : StreamAggregator P B → Option (Pending P) → Prop} {s s' : StreamPipeline P B}
  {jobs : List (Job P)} {a' : StreamAggregator P B} {pending : Option (Pending P)}

theorem holds_none : Holds Inv ⟨none, pending⟩ := fun _ h => by cases h

theorem holds_some (h : Inv a pending) : Holds Inv ⟨some a, pending⟩ := by
  intro b hb
  obtain rfl := Option.some.inj hb
  exact h

omit [LinearOrder 𝕜] [AddCommGroup 𝕜] in
theorem freshen_over {gossip : Option (List (Drain P))}
    (h : freshen config tick a gossip = .over s jobs) : s = ⟨none, none⟩ ∧ jobs = [] := by
  unfold freshen at h
  split at h
  · obtain ⟨rfl, rfl⟩ := Prepared.over.inj h
    exact ⟨rfl, rfl⟩
  · split at h
    · obtain ⟨rfl, rfl⟩ := Prepared.over.inj h
      exact ⟨rfl, rfl⟩
    · cases h

theorem collect_over (hInv : Preserved config Ready Inv) (hready : Ready tick s')
    {gossip : Option (List (Drain P))} {inFlight : Pending P} (ha : Inv a (some inFlight))
    (h : collect config tick a gossip inFlight = .over s jobs) : Holds Inv s ∧ jobs = [] := by
  cases inFlight with
  | group group =>
      simp only [collect] at h
      split at h
      · obtain ⟨rfl, rfl⟩ := Prepared.over.inj h
        exact ⟨holds_none, rfl⟩
      · obtain ⟨rfl, rfl⟩ := freshen_over h
        exact ⟨holds_none, rfl⟩
  | fold index proved witness =>
      simp only [collect] at h
      split at h
      · obtain ⟨rfl, rfl⟩ := Prepared.over.inj h
        exact ⟨holds_none, rfl⟩
      · next hfold =>
          obtain ⟨rfl, rfl⟩ := Prepared.over.inj h
          exact ⟨holds_some (hInv.fold hready ha hfold), rfl⟩
  | late group fired => exact absurd ha hInv.late
  | final closing witness =>
      obtain ⟨rfl, rfl⟩ := Prepared.over.inj h
      exact ⟨holds_none, rfl⟩

theorem collect_free (hInv : Preserved config Ready Inv) (hready : Ready tick s')
    {gossip : Option (List (Drain P))} {inFlight : Pending P} (ha : Inv a (some inFlight))
    (h : collect config tick a gossip inFlight = .free a') : Inv a' none := by
  cases inFlight with
  | group group =>
      simp only [collect] at h
      split at h
      · cases h
      · next hgroup => exact (hInv.stable none).freshen (hInv.group hready ha hgroup) h
  | fold index proved witness =>
      simp only [collect] at h
      split at h <;> cases h
  | late group fired => exact absurd ha hInv.late
  | final closing witness => cases h

theorem prepareEpoch_over (hInv : Preserved config Ready Inv) (hready : Ready tick s')
    (ha : Inv a pending) (h : prepareEpoch config tick a pending = .over s jobs) :
    Holds Inv s ∧ jobs = [] := by
  unfold prepareEpoch at h
  split at h
  · obtain ⟨rfl, rfl⟩ := Prepared.over.inj h
    exact ⟨holds_none, rfl⟩
  · next harrivals =>
      have hb := (hInv.stable pending).takeArrivals ha harrivals
      split at h
      · obtain ⟨rfl, rfl⟩ := freshen_over h
        exact ⟨holds_none, rfl⟩
      · split at h
        · exact hInv.collect_over hready hb h
        · obtain ⟨rfl, rfl⟩ := Prepared.over.inj h
          exact ⟨holds_some hb, rfl⟩

theorem prepareEpoch_free (hInv : Preserved config Ready Inv) (hready : Ready tick s')
    (ha : Inv a pending) (h : prepareEpoch config tick a pending = .free a') : Inv a' none := by
  unfold prepareEpoch at h
  split at h
  · cases h
  · next harrivals =>
      have hb := (hInv.stable pending).takeArrivals ha harrivals
      split at h
      · exact (hInv.stable none).freshen hb h
      · split at h
        · exact hInv.collect_free hready hb h
        · cases h

theorem prepare_over (hInv : Preserved config Ready Inv) (hready : Ready tick s')
    (hs : Holds Inv s') (h : prepare config tick s' = .over s jobs) : Holds Inv s ∧ jobs = [] := by
  unfold prepare at h
  split at h
  · next hsome =>
      exact hInv.prepareEpoch_over hready (hs _ (Option.filter_eq_some_iff.mp hsome).1) h
  · split at h
    · obtain ⟨rfl, rfl⟩ := Prepared.over.inj h
      exact ⟨holds_none, rfl⟩
    · next hopening => exact hInv.prepareEpoch_over hready (hInv.opened hready hopening) h

theorem prepare_free (hInv : Preserved config Ready Inv) (hready : Ready tick s')
    (hs : Holds Inv s') (h : prepare config tick s' = .free a') : Inv a' none := by
  unfold prepare at h
  split at h
  · next hsome =>
      exact hInv.prepareEpoch_free hready (hs _ (Option.filter_eq_some_iff.mp hsome).1) h
  · split at h
    · cases h
    · next hopening => exact hInv.prepareEpoch_free hready (hInv.opened hready hopening) h

/-- **One tick**: the invariant is kept, and a tick that hands anything to the prover
does so out of an epoch that has it. -/
theorem drive (hInv : Preserved config Ready Inv) (hready : Ready tick s) (hs : Holds Inv s) :
    Holds Inv (drive config tick s).1 ∧
      ((drive config tick s).2 = [] ∨ ∃ a a' pending, Inv a none ∧
        Starts config tick a a' pending (drive config tick s).2 ∧
        EndsWith (drive config tick s) a' pending (drive config tick s).2) := by
  unfold StreamPipeline.drive
  split
  · next hover =>
      obtain ⟨hs', rfl⟩ := hInv.prepare_over hready hs hover
      exact ⟨hs', .inl rfl⟩
  · next a hfree =>
      have ha := hInv.prepare_free hready hs hfree
      obtain ⟨units, a', pending, jobs, hfirst, hstarts, hend⟩ :=
        trigger_starts config tick a
      rw [closeUnits_observeCrossing] at hstarts
      have hclosed := (hInv.stable none).observeCrossing (hInv.close hready hfree ha hfirst)
        (a.held config.slotsPerEpoch tick.headSlot config.streamPolicy).balance tick.clock.reobserved
      have ha' := hInv.starts hready hclosed hstarts
      refine ⟨?_, .inr ⟨_, a', pending, hclosed, hend.1 ▸ hstarts, hend.1 ▸ hend⟩⟩
      rcases hend.2 with hend | ⟨hend, -⟩
      · rw [hend]
        exact holds_some ha'
      · intro b hb
        rw [hend] at hb
        cases hb

/-- **Every run** keeps the invariant. -/
theorem reachable (hInv : Preserved config Ready Inv) (h : Reachable config Ready s) :
    Holds Inv s := by
  induction h with
  | empty => exact holds_none
  | forget _ _ => exact holds_none
  | drive _ hready ih => exact (hInv.drive hready ih).1

/-- What a run hands to the prover comes out of an epoch that has the invariant. -/
theorem reachable_drive (hInv : Preserved config Ready Inv) (h : Reachable config Ready s)
    (hready : Ready tick s) {job : Job P} (hjob : job ∈ (StreamPipeline.drive config tick s).2) :
    ∃ a a' pending, Inv a none ∧
      Starts config tick a a' pending (StreamPipeline.drive config tick s).2 ∧
      EndsWith (StreamPipeline.drive config tick s) a' pending
        (StreamPipeline.drive config tick s).2 := by
  rcases (hInv.drive hready (hInv.reachable h)).2 with hnone | hstarts
  · rw [hnone] at hjob
    cases hjob
  · exact hstarts

end Preserved
end Zkasper.Streaming
