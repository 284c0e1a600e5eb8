import Zkasper.WitnessGen.Coverage
import Zkasper.WitnessGen.Equivocation

/-! # The progress a status reports

The balance of an epoch in flight is kept in one counter. Closing a slot adds to it, and a
fold that lands overwrites it with the figure of the guest, which counts the units the fold
covers. Units closed between the start of the folded group and the start of its fold drop out
of the counter there, until the epoch's next fold. -/

namespace Zkasper.Streaming

open Slot StreamAggregator StreamPipeline SlotStream EpochTrees

variable {P : Primitives} [Ord P.Bytes32] {B : Blst} {𝕜 : Type} [LinearOrder 𝕜] [AddCommGroup 𝕜]

/-! ## What is reported -/

/-- What some units attest to. -/
def closedBalance (units : List (SlotComplement P)) : ℕ :=
  (units.map (·.marginalBalance.toNat)).sum

/-- **The counter is what is closed**, and the aggregate's figure what it covers. -/
structure Reports (a : StreamAggregator P B) : Prop where
  closed : a.attestingBalance.toNat = closedBalance a.units
  folded : (a.aggregate.elim 0 (·.attestingBalance)).toNat = closedBalance (a.units.take a.proved)

instance (a : StreamAggregator P B) : Decidable (Reports a) :=
  decidable_of_iff (_ ∧ _) ⟨fun h => ⟨h.1, h.2⟩, fun h => ⟨h.closed, h.folded⟩⟩

/-- What has been closed beyond the fold in flight. -/
def beyondFold (s : StreamPipeline P B) : ℕ :=
  match s.aggregator, s.pending with
  | some a, some (.fold _ proved _) => closedBalance (a.units.drop proved)
  | _, _ => 0

/-- The fold in flight lands on its epoch: nothing goes wrong before, and its proof is there. -/
def Lands (config : Config 𝕜) (tick : Tick P) (s : StreamPipeline P B) : Prop :=
  ∃ a index proved witness b gossip answer, s.aggregator = some a ∧
    a.context.targetEpoch = tick.cursorEpoch ∧ s.pending = some (.fold index proved witness) ∧
      takeArrivals config tick a s.pending = .ok (b, gossip) ∧ tick.landed = true ∧
        tick.prover.proveAggregate witness = .ok answer ∧ tick.written = true

/-- Committees out of a registry whose active balance is a 64-bit number. -/
def Funded (slotsPerEpoch : UInt64) (committees : EpochCommittees P) : Prop :=
  ∃ validators balanceEpoch, committees.OfRegistry validators slotsPerEpoch balanceEpoch ∧
    (validators.map fun v => (v.data.activeEffectiveBalance balanceEpoch).toNat).sum < 2 ^ 64

/-- A tick whose prover is honest, and which opens an epoch with the committees of a registry. -/
structure Staffed (S : ProofSystem P) (accDepth : ℕ) (config : Config 𝕜) (tick : Tick P)
    (_ : StreamPipeline P B) : Prop where
  honest : Honest S accDepth tick.prover
  funded : ∀ o, tick.opening = some o → Funded config.slotsPerEpoch o.committees

/-- **A tick that loses nothing**: if a fold lands, nothing has been closed beyond it. -/
structure Settled (S : ProofSystem P) (accDepth : ℕ) (config : Config 𝕜) (tick : Tick P)
    (s : StreamPipeline P B) : Prop extends Staffed S accDepth config tick s where
  nothing : Lands config tick s → beyondFold s = 0

/-! ## What a tick does to the counter -/

/-- The epoch has closed some more units, and counted them. -/
structure Closes (a : StreamAggregator P B) (more : List (SlotComplement P))
    (a' : StreamAggregator P B) : Prop where
  targetEpoch : a'.context.targetEpoch = a.context.targetEpoch
  units : a'.units = a.units ++ more
  balance : a'.attestingBalance = a.attestingBalance + (more.map (·.marginalBalance)).sum
  aggregate : a'.aggregate = a.aggregate
  proved : a'.proved = a.proved

/-- The epoch has adopted a fold. -/
structure Adopts (a : StreamAggregator P B) (out : AggregateOutput P) (proved : ℕ)
    (a' : StreamAggregator P B) : Prop where
  targetEpoch : a'.context.targetEpoch = a.context.targetEpoch
  units : a'.units = a.units
  balance : a'.attestingBalance = out.attestingBalance
  aggregate : a'.aggregate = some out
  proved : a'.proved = proved

variable {config : Config 𝕜} {tick : Tick P} {s : StreamPipeline P B}
  {a a' b : StreamAggregator P B} {pending : Option (Pending P)}

theorem Closes.refl (a : StreamAggregator P B) : Closes a [] a where
  targetEpoch := rfl
  units := (List.append_nil _).symm
  balance := (UInt64.add_zero _).symm
  aggregate := rfl
  proved := rfl

theorem Closes.trans {more more' : List (SlotComplement P)} (h : Closes a more b)
    (h' : Closes b more' a') : Closes a (more ++ more') a' where
  targetEpoch := h'.targetEpoch.trans h.targetEpoch
  units := by rw [h'.units, h.units, List.append_assoc]
  balance := by rw [h'.balance, h.balance, List.map_append, List.sum_append, UInt64.add_assoc]
  aggregate := h'.aggregate.trans h.aggregate
  proved := h'.proved.trans h.proved

/-- Arrivals and stamps leave the counter alone. -/
theorem closes_stable (a : StreamAggregator P B) : Stable (Closes a []) :=
  fun _ _ _ _ _ _ _ _ h => ⟨h.targetEpoch, h.units, h.balance, h.aggregate, h.proved⟩

theorem closes_closeUnits : ∀ (units : List (SlotComplement P)) (a : StreamAggregator P B),
    Closes a units (a.closeUnits units) := by
  intro units
  induction units with
  | nil => exact Closes.refl
  | cons unit units ih =>
      intro a
      have hunit : Closes a [unit] (a.closeUnit unit) :=
        ⟨rfl, rfl, by rw [List.map_singleton, List.sum_singleton]; rfl, rfl, rfl⟩
      exact hunit.trans (ih (a.closeUnit unit))

/-- A group that has landed waits. -/
theorem Closes.wait {more : List (SlotComplement P)} (h : Closes a more b)
    (unfolded : Option (ℕ × GroupProof P)) : Closes a more { b with unfolded } :=
  ⟨h.targetEpoch, h.units, h.balance, h.aggregate, h.proved⟩

omit [LinearOrder 𝕜] [AddCommGroup 𝕜] in
theorem collect_free_closes {gossip : Option (List (Drain P))} {inFlight : Pending P}
    (hb : Closes a [] b) (h : collect config tick b gossip inFlight = .free a') :
    Closes a [] a' := by
  cases inFlight with
  | group group =>
      simp only [collect] at h
      split at h
      · cases h
      · exact (closes_stable a).freshen (hb.wait _) h
  | fold index proved witness =>
      simp only [collect] at h
      split at h <;> cases h
  | late group fired =>
      simp only [collect] at h
      split at h <;> cases h
  | final closing witness => cases h

omit [LinearOrder 𝕜] [AddCommGroup 𝕜] in
/-- The collection of a proof counts nothing, unless a fold lands. -/
theorem collect_over_closes {gossip : Option (List (Drain P))} {inFlight : Pending P}
    {last : StreamPipeline P B} {jobs : List (Job P)} (hb : Closes a [] b)
    (h : collect config tick b gossip inFlight = .over last jobs)
    (hlast : last.aggregator = some a') :
    Closes a [] a' ∨ ∃ index proved witness answer, inFlight = .fold index proved witness ∧
      tick.prover.proveAggregate witness = .ok answer ∧ tick.written = true := by
  cases inFlight with
  | group group =>
      simp only [collect] at h
      split at h
      · obtain ⟨rfl, -⟩ := Prepared.over.inj h
        cases hlast
      · obtain ⟨rfl, -⟩ := Preserved.freshen_over h
        cases hlast
  | fold index proved witness =>
      simp only [collect] at h
      split at h
      · obtain ⟨rfl, -⟩ := Prepared.over.inj h
        cases hlast
      · next c hfold =>
          simp only [finishFold, Guest.bind_eq_ok, Guest.assert_eq_ok, exists_const] at hfold
          obtain ⟨answer, hprove, hwritten, -⟩ := hfold
          exact .inr ⟨index, proved, witness, answer, rfl, hprove, hwritten⟩
  | late group fired =>
      simp only [collect] at h
      split at h
      · obtain ⟨rfl, -⟩ := Prepared.over.inj h
        cases hlast
      · obtain ⟨rfl, -⟩ := Prepared.over.inj h
        obtain rfl := Option.some.inj hlast
        exact .inl hb
  | final closing witness =>
      obtain ⟨rfl, -⟩ := Prepared.over.inj h
      cases hlast

omit [LinearOrder 𝕜] [AddCommGroup 𝕜] in
/-- The end of a tick that does not ask the trigger. -/
theorem prepareEpoch_over_closes {last : StreamPipeline P B} {jobs : List (Job P)}
    (h : prepareEpoch config tick a pending = .over last jobs) (hlast : last.aggregator = some a') :
    Closes a [] a' ∨ ∃ index proved witness b gossip answer,
      pending = some (.fold index proved witness) ∧
        takeArrivals config tick a pending = .ok (b, gossip) ∧ tick.landed = true ∧
          tick.prover.proveAggregate witness = .ok answer ∧ tick.written = true := by
  unfold prepareEpoch at h
  split at h
  · obtain ⟨rfl, -⟩ := Prepared.over.inj h
    cases hlast
  · next b gossip harrivals =>
      have harrived := (closes_stable a).takeArrivals (Closes.refl a) harrivals
      split at h
      · obtain ⟨rfl, -⟩ := Preserved.freshen_over h
        cases hlast
      · split at h
        · next hlanded =>
            rcases collect_over_closes harrived h hlast with hcloses | hadopts
            · exact .inl hcloses
            · obtain ⟨index, proved, witness, answer, rfl, hprove, hwritten⟩ := hadopts
              exact .inr ⟨index, proved, witness, b, gossip, answer, rfl, harrivals, hlanded,
                hprove, hwritten⟩
        · obtain ⟨rfl, -⟩ := Prepared.over.inj h
          obtain rfl := Option.some.inj hlast
          exact .inl harrived

omit [LinearOrder 𝕜] [AddCommGroup 𝕜] in
theorem prepareEpoch_free_closes (h : prepareEpoch config tick a pending = .free b) :
    Closes a [] b := by
  unfold prepareEpoch at h
  split at h
  · cases h
  · next harrivals =>
      have harrived := (closes_stable a).takeArrivals (Closes.refl a) harrivals
      split at h
      · exact (closes_stable a).freshen harrived h
      · split at h
        · exact collect_free_closes harrived h
        · cases h

/-- The trigger closes slots, and starts proofs. -/
theorem trigger_closes (h : (trigger config tick b).1.aggregator = some a') :
    ∃ more, Closes b more a' := by
  obtain ⟨units, c, inFlight, jobs, -, hstarts, -, hend⟩ := trigger_starts config tick b
  have hstamped := (closes_stable b).observeCrossing (Closes.refl b) (b.held config.slotsPerEpoch
    tick.headSlot config.streamPolicy).balance tick.clock.reobserved
  have hclosed := hstamped.trans (closes_closeUnits units _)
  have hstarted : ∃ more, Closes b more c := by
    cases hstarts with
    | nothing => exact ⟨_, hclosed⟩
    | fold _ => exact ⟨_, ⟨hclosed.targetEpoch, hclosed.units, hclosed.balance, hclosed.aggregate,
        hclosed.proved⟩⟩
    | group _ _ => exact ⟨_, ⟨hclosed.targetEpoch, hclosed.units, hclosed.balance,
        hclosed.aggregate, hclosed.proved⟩⟩
    | final _ => exact ⟨_, hclosed.wait none⟩
  rcases hend with hend | ⟨hnone, -⟩
  · rw [hend] at h
    obtain rfl := Option.some.inj h
    exact hstarted
  · rw [hnone] at h
    cases h

/-- What a tick leaves of an epoch it goes on with. -/
theorem prepareEpoch_counts (h : (match prepareEpoch config tick a pending with
      | .over s jobs => (s, jobs)
      | .free a => trigger config tick a).1.aggregator = some a') :
    (∃ more, Closes a more a') ∨ ∃ index proved witness b gossip answer,
      pending = some (.fold index proved witness) ∧
        takeArrivals config tick a pending = .ok (b, gossip) ∧ tick.landed = true ∧
          tick.prover.proveAggregate witness = .ok answer ∧ tick.written = true := by
  split at h
  · next hprepare =>
      rcases prepareEpoch_over_closes hprepare h with hcloses | hadopts
      · exact .inl ⟨_, hcloses⟩
      · exact .inr hadopts
  · next hprepare =>
      obtain ⟨more, hmore⟩ := trigger_closes h
      exact .inl ⟨_, (prepareEpoch_free_closes hprepare).trans hmore⟩

/-- **What a tick makes of the counter**: it closes slots of the epoch it found, or of the one it
opens, unless the fold in flight lands. -/
theorem drive_counts (h : (drive config tick s).1.aggregator = some a') :
    (∃ a more, s.aggregator = some a ∧ Closes a more a') ∨
      (∃ o more, Closes (StreamPipeline.openEpoch config tick.cursorEpoch o) more a' ∧
        ∀ a, s.aggregator = some a → a.context.targetEpoch ≠ tick.cursorEpoch) ∨
      Lands config tick s := by
  unfold drive prepare at h
  generalize hfound : s.aggregator.filter (fun a => a.context.targetEpoch = tick.cursorEpoch) =
    found at h
  cases found with
  | some a =>
      obtain ⟨hsome, hepoch⟩ := Option.filter_eq_some_iff.mp hfound
      rcases prepareEpoch_counts h with ⟨more, hcloses⟩ | hlands
      · exact .inl ⟨a, more, hsome, hcloses⟩
      · obtain ⟨index, proved, witness, b, gossip, answer, hpending, hlands⟩ := hlands
        exact .inr (.inr ⟨a, index, proved, witness, b, gossip, answer, hsome,
          of_decide_eq_true hepoch, hpending, hlands⟩)
  | none =>
      cases hopening : tick.opening with
      | none =>
          rw [hopening] at h
          cases h
      | some o =>
          rw [hopening] at h
          have hother : ∀ a, s.aggregator = some a → a.context.targetEpoch ≠ tick.cursorEpoch := by
            intro a ha hepoch
            rw [ha] at hfound
            simp [hepoch] at hfound
          rcases prepareEpoch_counts h with ⟨more, hcloses⟩ | hlands
          · exact .inr (.inl ⟨o, more, hcloses, hother⟩)
          · obtain ⟨_, _, _, _, _, _, hnone, -⟩ := hlands
            cases hnone

/-- **A fold that lands** is adopted, and the prover is free. -/
theorem Lands.adopts (h : Lands config tick s) : ∃ a index proved witness out a',
    s.aggregator = some a ∧ s.pending = some (.fold index proved witness) ∧
      (drive config tick s).1 = ⟨some a', none⟩ ∧ Adopts a out proved a' := by
  obtain ⟨a, index, proved, witness, b, gossip, ⟨out, proof⟩, hsome, hepoch, hpending, harrivals,
    hlanded, hprove, hwritten⟩ := h
  have hfound : s.aggregator.filter (fun a => a.context.targetEpoch = tick.cursorEpoch) =
      some a := Option.filter_eq_some_iff.mpr ⟨hsome, decide_eq_true hepoch⟩
  have harrived := (closes_stable a).takeArrivals (Closes.refl a) harrivals
  have hfold : ∃ a', finishFold tick b proved witness = .ok a' ∧ Adopts a out proved a' := by
    simp only [finishFold, Guest.bind_eq_ok, Guest.assert_eq_ok, Guest.pure_eq_ok, exists_const]
    refine ⟨_, ⟨(out, proof), hprove, hwritten, rfl⟩, ?_⟩
    exact ⟨harrived.targetEpoch, harrived.units.trans (List.append_nil _), rfl, rfl, rfl⟩
  obtain ⟨a', hfold, hadopts⟩ := hfold
  refine ⟨a, index, proved, witness, out, a', hsome, hpending, ?_, hadopts⟩
  simp only [drive, prepare, hfound, prepareEpoch, harrivals]
  simp only [hpending, hlanded, if_true, collect, hfold]

/-! ## What the counter can hold -/

section Balances

variable {validators : List ValidatorResponse} {balanceEpoch : UInt64} {stream : SlotStream P B}

omit [Ord P.Bytes32] in
/-- Members of different slots are different. -/
theorem slotMembers_disjoint {committees : EpochCommittees P} {slotsPerEpoch i j : UInt64}
    (h : committees.OfRegistry validators slotsPerEpoch balanceEpoch) (hne : i.toNat ≠ j.toNat) :
    List.Disjoint (slotMembers committees i) (slotMembers committees j) := by
  intro index hi hj
  obtain ⟨m, hm, rfl⟩ := List.mem_map.mp hi
  obtain ⟨m', hm', heq⟩ := List.mem_map.mp hj
  obtain ⟨hmember, hslot⟩ := Committee.mem_assigned.mp hm
  obtain ⟨hmember', hslot'⟩ := Committee.mem_assigned.mp hm'
  have hnodup : (committees.witness.members.map (·.validatorIndex)).Nodup :=
    h.ascending.imp fun hlt => UInt64.ne_of_lt hlt
  obtain rfl := List.inj_on_of_nodup_map hnodup hmember hmember' heq.symm
  exact hne (hslot.symm.trans hslot')

/-- The absentees of a complement weigh no more than its committee. -/
theorem peek_absentees_le
    (h : stream.committees.OfRegistry validators stream.slotsPerEpoch balanceEpoch)
    (hfits : (validators.map fun v => (v.data.activeEffectiveBalance balanceEpoch).toNat).sum <
      2 ^ 64) {slot : UInt64} {unit : SlotComplement P} (hpeek : stream.peek slot = some unit) :
    balanceSum unit.witness.absentees ≤ unit.witness.committee.balance.toNat := by
  unfold peek at hpeek
  simp only [Option.bind_eq_bind, Option.bind_eq_some_iff, Option.pure_def] at hpeek
  obtain ⟨committee, hcommittee, hpeek⟩ := hpeek
  split at hpeek
  · cases hpeek
  simp only [Option.bind_eq_some_iff, Option.some.injEq] at hpeek
  obtain ⟨_, _, _, _, _, _, absentees, habsentees, _, _, rfl⟩ := hpeek
  show balanceSum absentees ≤ committee.balance.toNat
  rw [(members_getD h hcommittee).1] at habsentees
  obtain ⟨hindices, hleaves⟩ := openAll_eq_some h habsentees
  rw [aggregate_balance h hfits hcommittee]
  apply balanceSum_le hleaves
  · rw [hindices]
    exact (slotMembers_nodup h _).filter _
  · intro i hi
    rw [indices, hindices] at hi
    exact List.mem_toFinset.mpr (List.mem_of_mem_filter (List.mem_toFinset.mp hi))

omit [Ord P.Bytes32] in
/-- **Units of different slots weigh no more than the registry.** -/
theorem closedBalance_le {committees : EpochCommittees P} {slotsPerEpoch : UInt64}
    (h : committees.OfRegistry validators slotsPerEpoch balanceEpoch)
    (hfits : (validators.map fun v => (v.data.activeEffectiveBalance balanceEpoch).toNat).sum <
      2 ^ 64) {units : List (SlotComplement P)}
    (hprices : ∀ unit ∈ units, Prices committees slotsPerEpoch unit)
    (hdistinct : (units.map (·.witness.slotInEpoch.toNat)).Nodup)
    (habsentees : ∀ unit ∈ units,
      balanceSum unit.witness.absentees ≤ unit.witness.committee.balance.toNat) :
    closedBalance units ≤
      (validators.map fun v => (v.data.activeEffectiveBalance balanceEpoch).toNat).sum := by
  let weight (i : UInt64) : ℕ := ((hostContents P validators balanceEpoch).balance i.toNat).toNat
  have hunit : ∀ unit ∈ units, unit.marginalBalance.toNat ≤
      ((slotMembers committees unit.witness.slotInEpoch).map weight).sum := by
    intro unit hunit
    rw [← aggregate_balance h hfits (hprices unit hunit).committee, (hprices unit hunit).marginal]
    exact support_toNat (habsentees unit hunit)
  have hmembers : ((units.flatMap fun unit =>
      slotMembers committees unit.witness.slotInEpoch).map weight).sum ≤
        (validators.map fun v => (v.data.activeEffectiveBalance balanceEpoch).toNat).sum := by
    apply sum_members_le h
    · rw [List.nodup_flatMap]
      refine ⟨fun unit _ => slotMembers_nodup h _, ?_⟩
      exact (List.pairwise_map.mp hdistinct).imp fun hne => slotMembers_disjoint h hne
    · intro i hi
      obtain ⟨unit, -, hi⟩ := List.mem_flatMap.mp hi
      exact slotMembers_subset _ hi
  refine le_trans ?_ hmembers
  rw [List.map_flatMap, List.flatMap_def, List.sum_flatten, List.map_map]
  exact List.sum_le_sum hunit

end Balances

/-! ## Runs -/

section Runs

variable {S : ProofSystem P} {accDepth : ℕ}

/-- What keeps the counter exact: the proofs cover the units, and the units fit. -/
structure Audited (S : ProofSystem P) (accDepth : ℕ) (config : Config 𝕜)
    (a : StreamAggregator P B) (pending : Option (Pending P)) : Prop where
  covering : Covering (Honest S accDepth) config a pending
  funded : Funded config.slotsPerEpoch a.committees
  absentees : ∀ unit ∈ a.units,
    balanceSum unit.witness.absentees ≤ unit.witness.committee.balance.toNat

theorem audited_preserved : Preserved config (Staffed S accDepth config)
    (Audited S accDepth config : StreamAggregator P B → Option (Pending P) → Prop) where
  stable pending a attestations nextSlot gap reorged crossed since blocked h :=
    ⟨Covering.stable pending a attestations nextSlot gap reorged crossed since blocked h.covering,
      h.funded, h.absentees⟩
  opened hready hopening :=
    ⟨⟨taken_openEpoch, le_rfl, .nothing, fun _ _ h => by cases h⟩, hready.funded _ hopening,
      fun _ hunit => by cases hunit⟩
  group hready h hgroup := ⟨h.covering.finishGroup hready.honest hgroup, h.funded, h.absentees⟩
  fold hready h hfold := by
    have hcovering := h.covering.finishFold hready.honest hfold
    simp only [finishFold, Guest.bind_eq_ok, Guest.assert_eq_ok, Guest.pure_eq_ok,
      exists_const] at hfold
    obtain ⟨_, -, -, rfl⟩ := hfold
    exact ⟨hcovering, h.funded, h.absentees⟩
  late h := h.covering.inFlight
  close {tick s a units} _ _ h hfirst := by
    obtain ⟨stream, balance, heq⟩ := closeUnits_eq units a
    have hcovering := h.covering.close hfirst
    rw [heq] at hcovering ⊢
    refine ⟨hcovering, h.funded, fun unit hunit => ?_⟩
    rcases List.mem_append.mp hunit with hunit | hunit
    · exact h.absentees unit hunit
    · obtain ⟨slot, -, hpeek⟩ := List.mem_filterMap.mp (hfirst.subset hunit)
      obtain ⟨validators, balanceEpoch, hregistry, hfits⟩ := h.funded
      have htaken := h.covering.taken
      rw [← Streaming.Taken.sameCommittees htaken, ← Streaming.Taken.sameWidth htaken] at hregistry
      exact peek_absentees_le hregistry hfits hpeek
  starts {tick s a a' pending jobs} _ h hstarts := by
    have hcovering := h.covering.starts hstarts
    cases hstarts with
    | nothing => exact h
    | fold _ => exact ⟨hcovering, h.funded, h.absentees⟩
    | group _ _ => exact ⟨hcovering, h.funded, h.absentees⟩
    | final _ => exact ⟨hcovering, h.funded, h.absentees⟩

omit [LinearOrder 𝕜] [AddCommGroup 𝕜] in
/-- **The units of an epoch fit in the counter.** -/
theorem Audited.fits (h : Audited S accDepth config a pending) : closedBalance a.units < 2 ^ 64 := by
  obtain ⟨validators, balanceEpoch, hregistry, hfits⟩ := h.funded
  have htaken := h.covering.taken
  exact (closedBalance_le hregistry hfits (Streaming.Taken.prices htaken)
    (Streaming.Taken.distinct htaken) h.absentees).trans_lt hfits

omit [Ord P.Bytes32] in
/-- The machine's sum of some units, where it does not wrap. -/
theorem sum_marginal {units : List (SlotComplement P)} (h : closedBalance units < 2 ^ 64) :
    (units.map SlotComplement.marginalBalance).sum.toNat = closedBalance units := by
  have hmap : ((units.map (·.marginalBalance)).map UInt64.toNat).sum = closedBalance units := by
    rw [List.map_map]
    rfl
  rw [toNat_sum (hmap ▸ h), hmap]

omit [Ord P.Bytes32] in
theorem closedBalance_append (units more : List (SlotComplement P)) :
    closedBalance (units ++ more) = closedBalance units + closedBalance more := by
  rw [closedBalance, List.map_append, List.sum_append]
  rfl

omit [Ord P.Bytes32] in
theorem closedBalance_take_add_drop (units : List (SlotComplement P)) (n : ℕ) :
    closedBalance (units.take n) + closedBalance (units.drop n) = closedBalance units := by
  rw [← closedBalance_append, List.take_append_drop]

/-- **Closing slots keeps the counter right**, and only adds to it. -/
theorem Reports.closes {more : List (SlotComplement P)} (h : Reports a)
    (hproved : a.proved ≤ a.units.length) (hfits : closedBalance a'.units < 2 ^ 64)
    (hcloses : Closes a more a') : Reports a' ∧ a.attestingBalance ≤ a'.attestingBalance := by
  rw [hcloses.units, closedBalance_append] at hfits
  have hmore : (more.map SlotComplement.marginalBalance).sum.toNat = closedBalance more :=
    sum_marginal (by omega)
  have hbalance : a'.attestingBalance.toNat = closedBalance a.units + closedBalance more := by
    rw [hcloses.balance, UInt64.toNat_add, h.closed, hmore]
    exact Nat.mod_eq_of_lt hfits
  refine ⟨⟨?_, ?_⟩, ?_⟩
  · rw [hbalance, hcloses.units, closedBalance_append]
  · rw [hcloses.aggregate, hcloses.units, hcloses.proved, List.take_append_of_le_length hproved]
    exact h.folded
  · rw [UInt64.le_iff_toNat_le, hbalance, h.closed]
    exact Nat.le_add_right _ _

omit [LinearOrder 𝕜] [AddCommGroup 𝕜] in
/-- **What a landed fold reports**: the balance of the units it covers. -/
theorem Adopts.folded {out : AggregateOutput P} {proved : ℕ} (h : Adopts a out proved a')
    (haudited : Audited S accDepth config a' none) :
    out.attestingBalance.toNat = closedBalance (a.units.take proved) := by
  have hcounted := haudited.covering.inFlight.1.counts fun _ hhonest => hhonest
  rw [h.aggregate, h.units, h.proved] at hcounted
  have hmarginal : (a.units.take proved).map (·.marginalBalance) =
      ((a.units.take proved).map (·.witness)).map (·.support) := by
    rw [List.map_map]
    apply List.map_congr_left
    intro unit hunit
    have hunit' : unit ∈ a'.units := h.units ▸ List.mem_of_mem_take hunit
    exact (Streaming.Taken.prices haudited.covering.taken unit hunit').marginal
  have hle := closedBalance_take_add_drop a.units proved
  have hfits := haudited.fits
  rw [h.units] at hfits
  have hbalance := hcounted.balance_eq
  rw [← hmarginal] at hbalance
  show (Option.elim (some out) 0 (·.attestingBalance)).toNat = _
  rw [hbalance]
  exact sum_marginal (by omega)

/-- A landed fold keeps the counter right exactly if nothing was closed beyond it. -/
theorem Lands.reports (hlands : Lands config tick s)
    (hkept : Holds (Audited S accDepth config) (drive config tick s).1) :
    (∀ a, (drive config tick s).1.aggregator = some a → Reports a) ↔ beyondFold s = 0 := by
  obtain ⟨a, index, proved, witness, out, a', hsome, hpending, hdrive, hadopts⟩ := hlands.adopts
  rw [hdrive] at hkept ⊢
  have hfolded := hadopts.folded (hkept a' rfl)
  have hsplit := closedBalance_take_add_drop a.units proved
  have hbeyond : beyondFold s = closedBalance (a.units.drop proved) := by
    rw [beyondFold, hsome, hpending]
  have hclosed : a'.attestingBalance.toNat = closedBalance a'.units ↔ beyondFold s = 0 := by
    rw [hadopts.balance, hadopts.units, hfolded, hbeyond]
    omega
  constructor
  · intro h
    exact hclosed.mp (h a' rfl).closed
  · intro hnothing b hb
    obtain rfl := Option.some.inj hb
    refine ⟨hclosed.mpr hnothing, ?_⟩
    rw [hadopts.aggregate, hadopts.units, hadopts.proved]
    exact hfolded

/-- **One tick that loses nothing** keeps the counter right, and only adds to it. -/
theorem Settled.reports (hready : Settled S accDepth config tick s)
    (haudited : Holds (Audited S accDepth config) s)
    (hreports : ∀ a, s.aggregator = some a → Reports a)
    (h : (drive config tick s).1.aggregator = some a') :
    Reports a' ∧ ∀ a, s.aggregator = some a →
      a'.context.targetEpoch = a.context.targetEpoch → a.attestingBalance ≤ a'.attestingBalance := by
  have hkept := (audited_preserved.drive hready.toStaffed haudited).1
  rcases drive_counts h with ⟨a, more, ha, hcloses⟩ | ⟨o, more, hcloses, hother⟩ | hlands
  · obtain ⟨hreports', hle⟩ := (hreports a ha).closes (haudited a ha).covering.proved_le
      (hkept a' h).fits hcloses
    refine ⟨hreports', fun b hb _ => ?_⟩
    obtain rfl := Option.some.inj (ha.symm.trans hb)
    exact hle
  · have hopened : Reports (StreamPipeline.openEpoch config tick.cursorEpoch o :
        StreamAggregator P B) := ⟨rfl, rfl⟩
    refine ⟨(hopened.closes le_rfl (hkept a' h).fits hcloses).1, fun a ha hepoch => ?_⟩
    -- the epoch it found was another one
    exact absurd (hepoch.symm.trans hcloses.targetEpoch) (hother a ha)
  · have hreports' := (hlands.reports hkept).mpr (hready.nothing hlands) a' h
    refine ⟨hreports', fun a ha _ => ?_⟩
    obtain ⟨b, _, _, _, _, b', hb, -, hdrive, hadopts⟩ := hlands.adopts
    rw [hdrive] at h
    obtain rfl := Option.some.inj h
    obtain rfl := Option.some.inj (ha.symm.trans hb)
    rw [UInt64.le_iff_toNat_le, (hreports a ha).closed, hreports'.closed, hadopts.units]

/-- A run that loses nothing is a run. -/
theorem Reachable.audited (h : Reachable config (Settled S accDepth config) s) :
    Holds (Audited S accDepth config) s := by
  induction h with
  | empty => exact Preserved.holds_none
  | forget _ _ => exact Preserved.holds_none
  | drive _ hready ih => exact (audited_preserved.drive hready.toStaffed ih).1

theorem Reachable.reports (h : Reachable config (Settled S accDepth config) s) :
    ∀ a, s.aggregator = some a → Reports a := by
  induction h with
  | empty => exact fun _ h => by cases h
  | forget _ _ => exact fun _ h => by cases h
  | drive hrun hready ih => exact fun _ h => (hready.reports hrun.audited ih h).1

end Runs

/-- **The status reports what is closed**, in every run in which no fold lands behind units that
were closed beyond it: the counter is the balance of the closed units and never goes down while
the epoch is open. A fold that lands behind such units leaves it short. -/
theorem status_reports_closed {S : ProofSystem P} {accDepth : ℕ}
    (h : Reachable config (Settled S accDepth config) s) :
    (∀ a, s.aggregator = some a → Reports a) ∧
      (∀ tick, Settled S accDepth config tick s → ∀ a a', s.aggregator = some a →
        (drive config tick s).1.aggregator = some a' →
          a'.context.targetEpoch = a.context.targetEpoch →
            a.attestingBalance ≤ a'.attestingBalance) ∧
      ∀ tick, Staffed S accDepth config tick s → Lands config tick s →
        ((∀ a, (drive config tick s).1.aggregator = some a → Reports a) ↔ beyondFold s = 0) := by
  refine ⟨h.reports, ?_, ?_⟩
  · intro tick hready a a' ha ha' hepoch
    exact (hready.reports h.audited h.reports ha').2 a ha hepoch
  · intro tick hready hlands
    exact hlands.reports (audited_preserved.drive hready h.audited).1

end Zkasper.Streaming

/-! ## A slot closed beside a fold -/

namespace Zkasper.Formal

open Streaming StreamPipeline

theorem slotted_funded {o : Opening (formal {})} (h : slottedOpening = some o) :
    Funded 32 o.committees := by
  obtain ⟨committees, hcommittees, rfl⟩ := Option.map_eq_some_iff.mp h
  unfold slottedCommittees at hcommittees
  generalize hbuild : EpochCommittees.build _ _ _ _ _ _ _ = built at hcommittees
  cases built with
  | error e => cases hcommittees
  | ok c =>
      obtain rfl := Option.some.inj hcommittees
      exact ⟨slotted, 1, EpochCommittees.build_ofRegistry hbuild, by decide⟩

/-- Accepts everything. -/
def credulous : ProofSystem (formal {}) := fun _ _ _ => true

theorem tickAt_staffed (config : Config ℤ) (hwidth : config.slotsPerEpoch = 32) (headSlot : UInt64)
    (slots : List UInt64) (worthWaiting : Bool) (s : StreamPipeline (formal {}) lone) :
    Staffed credulous 2 config (tickAt headSlot slots worthWaiting) s where
  honest := circuits_honest
  funded _ hopening := hwidth ▸ slotted_funded hopening

end Zkasper.Formal

namespace Zkasper.Streaming

open StreamPipeline Formal

/-- Slot 0 is folded with nothing closed beside it, and slot 1 adds to the counter. -/
theorem status_reports_folded :
    ∃ a a', folded.aggregator = some a ∧ Reports a ∧
      (drive twoThirds (tickAt 67 [65] false) folded).1.aggregator = some a' ∧
        a.attestingBalance ≤ a'.attestingBalance := by
  have hsettled : ∀ headSlot slots (s : StreamPipeline (formal {}) lone), beyondFold s = 0 →
      Settled credulous 2 twoThirds (tickAt headSlot slots false) s :=
    fun headSlot slots s h => ⟨tickAt_staffed twoThirds rfl headSlot slots false s, fun _ => h⟩
  have hreach : Reachable twoThirds (Settled credulous 2 twoThirds) folded := by
    apply Reachable.drive _ (hsettled 66 [] _ (by decide +kernel))
    apply Reachable.drive _ (hsettled 66 [] _ (by decide +kernel))
    exact Reachable.drive .empty (hsettled 66 [64] _ rfl)
  obtain ⟨a, a', ha, ha', hepoch⟩ : ∃ a a', folded.aggregator = some a ∧
      (drive twoThirds (tickAt 67 [65] false) folded).1.aggregator = some a' ∧
        a'.context.targetEpoch = a.context.targetEpoch := by
    obtain ⟨a, ha, hepoch⟩ : ∃ a, folded.aggregator = some a ∧ a.context.targetEpoch = 2 := by
      decide +kernel
    obtain ⟨a', ha', hepoch'⟩ : ∃ a, (drive twoThirds (tickAt 67 [65] false)
        folded).1.aggregator = some a ∧ a.context.targetEpoch = 2 := by
      decide +kernel
    exact ⟨a, a', ha, ha', hepoch'.trans hepoch.symm⟩
  obtain ⟨hreports, hmono, -⟩ := status_reports_closed hreach
  exact ⟨a, a', ha, hreports a ha, ha', hmono _ (hsettled 67 [65] _ (by decide +kernel)) a a' ha ha'
    hepoch⟩

/-- **A slot closed beside a fold** drops out: the counter goes from 64 down to 32, with 64
closed. -/
theorem status_not_closed :
    Reachable allOfIt (Staffed credulous 2 allOfIt) afterFold ∧
      (∃ a, beforeFold.aggregator = some a ∧ a.context.targetEpoch = 2 ∧ Reports a ∧
        a.attestingBalance = 64) ∧
      ∃ a, afterFold.aggregator = some a ∧ a.context.targetEpoch = 2 ∧ ¬ Reports a ∧
        a.attestingBalance = 32 ∧ closedBalance a.units = 64 := by
  refine ⟨?_, by decide +kernel, by decide +kernel⟩
  apply Reachable.drive _ (tickAt_staffed allOfIt rfl 66 [] false _)
  apply Reachable.drive _ (tickAt_staffed allOfIt rfl 66 [65] false _)
  exact Reachable.drive .empty (tickAt_staffed allOfIt rfl 66 [64] false _)

end Zkasper.Streaming
