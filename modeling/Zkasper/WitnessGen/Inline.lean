import Zkasper.WitnessGen.Order

/-! # How much the final proof carries inline

The planner only searches tails of up to 24 units. The daemon takes the crossing from
its plan and starts the tail where its own progress ends, so what bounds a real tail is
how far the prover has got when the trigger fires (`KeptUp`). -/

namespace Zkasper.Streaming

open StreamAggregator StreamPipeline

variable {P : Primitives} [Ord P.Bytes32] {B : Blst} {𝕜 : Type} [LinearOrder 𝕜] [AddCommGroup 𝕜]

/-! ## Where an epoch crosses -/

section Crossing

omit [Ord P.Bytes32]

theorem runningBalance_mono (units : List (SlotComplement P)) {m n : ℕ} (h : m ≤ n) :
    runningBalance units m ≤ runningBalance units n := by
  rw [runningBalance, runningBalance]
  apply List.Sublist.sum_le_sum _ fun _ _ => Nat.zero_le _
  exact (List.take_prefix_take_left h).sublist.map _

/-- Some units cross within the first few exactly where those reach the target. -/
theorem crossing_lt_iff {units : List (SlotComplement P)} {target c n : ℕ}
    (h : crossing units target = some c) : c ≤ n ↔ target ≤ runningBalance units (n + 1) := by
  obtain ⟨-, hreached, hbelow⟩ := crossing_eq_some.mp h
  constructor
  · intro hle
    exact hreached.trans (runningBalance_mono units (Nat.succ_le_succ hle))
  · intro htarget
    by_contra hlt
    exact absurd htarget (not_le.mpr (hbelow n (not_le.mp hlt)))

theorem crossing_isSome {units : List (SlotComplement P)} {target : ℕ} (hne : units ≠ [])
    (h : target ≤ runningBalance units units.length) : ∃ c, crossing units target = some c := by
  rw [← Option.isSome_iff_exists, crossing, List.find?_isSome]
  have hlength : 0 < units.length := List.length_pos_iff.mpr hne
  refine ⟨units.length - 1, List.mem_range.mpr (by omega), ?_⟩
  rw [Nat.sub_add_cancel hlength]
  exact decide_eq_true h

end Crossing

/-! ## Firing -/

/-- Whether the trigger of a tick fires on an epoch. -/
def Fires (config : Config 𝕜) (tick : Tick P) (a : StreamAggregator P B) : Prop :=
  let held := a.held config.slotsPerEpoch tick.headSlot config.streamPolicy
  config.streamPolicy.targetBalance a.context.totalActiveBalance ≤ held.balance.toNat ∧
    ¬(held.filling.isSome ∧ tick.worthWaiting)

/-- Everything a firing epoch closes, after what it has closed already. -/
def allUnits (config : Config 𝕜) (a : StreamAggregator P B) : List (SlotComplement P) :=
  a.units ++ a.openUnits config.slotsPerEpoch

/-- **The prover kept up**: what the aggregate and the landed group carry, and 24 units
more, reach the target, if all the units do. -/
def KeptUp (config : Config 𝕜) (a : StreamAggregator P B) : Prop :=
  let target := config.streamPolicy.targetBalance a.context.totalActiveBalance
  target ≤ runningBalance (allUnits config a) (allUnits config a).length →
    target ≤ runningBalance (allUnits config a) (a.handed + 24)

variable {config : Config 𝕜} {tick : Tick P} {a : StreamAggregator P B}

instance : Decidable (Fires config tick a) := inferInstanceAs (Decidable (_ ∧ _))

instance : Decidable (KeptUp config a) := inferInstanceAs (Decidable (_ → _))

/-- The plan exists, so the tail does wherever the units cross. -/
theorem tail_of_crossing {policy : StreamPolicy 𝕜} {c : ℕ}
    (h : crossing a.units (policy.targetBalance a.context.totalActiveBalance) = some c) :
    a.tail policy = some ⟨min a.handed (c + 1), c + 1⟩ := by
  obtain ⟨p, hp⟩ := plan_isSome a.units a.context.totalActiveBalance policy
  have hne : a.units ≠ [] := by
    intro hnil
    have hlt := (crossing_eq_some.mp h).1
    rw [hnil] at hlt
    exact absurd hlt (Nat.not_lt_zero c)
  obtain ⟨hcovered, hreached⟩ := plan_units hne hp
  rw [h] at hcovered hreached
  have hmax : p.covered.max? = some c := by
    rw [hcovered, Option.getD_some, List.max?_eq_some_iff]
    exact ⟨List.mem_range.mpr (Nat.lt_succ_self c),
      fun i hi => Nat.lt_succ_iff.mp (List.mem_range.mp hi)⟩
  simp only [StreamAggregator.tail, hp, Option.bind_eq_bind, Option.bind_some, hreached,
    Option.isSome_some, Bool.not_true, Bool.false_eq_true, if_false, hmax]
  rfl

omit [LinearOrder 𝕜] [AddCommGroup 𝕜] in
/-- The stamp of the crossing touches neither the units nor the progress. -/
theorem observeCrossing_eq (a : StreamAggregator P B) (balance now : UInt64) :
    ∃ crossedUnixMillis, a.observeCrossing balance now = { a with crossedUnixMillis } := by
  unfold observeCrossing
  split
  · exact ⟨_, rfl⟩
  · exact ⟨_, rfl⟩

/-- **What firing hands over**: a final proof whose tail runs from what is handed over to
the crossing. -/
theorem trigger_final (hfires : Fires config tick a) {c : ℕ}
    (hcrossing : crossing (allUnits config a)
      (config.streamPolicy.targetBalance a.context.totalActiveBalance) = some c) :
    ∃ w, (trigger config tick a).2 = [.final w] ∧
      w.tail.length = c + 1 - min a.handed (c + 1) := by
  obtain ⟨henough, hwait⟩ := hfires
  set held := a.held config.slotsPerEpoch tick.headSlot config.streamPolicy with hheld
  obtain ⟨crossed, hobserve⟩ := observeCrossing_eq a held.balance tick.clock.reobserved
  have htrigger : trigger config tick a =
      fire config tick { a with crossedUnixMillis := crossed } held := by
    unfold trigger
    simp only [← hheld, hobserve]
    apply if_pos
    rw [Bool.and_eq_true, Bool.not_eq_true', ← Bool.not_eq_true, Bool.and_eq_true]
    exact ⟨decide_eq_true henough, hwait⟩
  obtain ⟨stream, balance, hclose⟩ :=
    closeUnits_eq held.openUnits { a with crossedUnixMillis := crossed }
  have htail : (({ a with crossedUnixMillis := crossed } : StreamAggregator P B).closeUnits
      held.openUnits).tail config.streamPolicy = some ⟨min a.handed (c + 1), c + 1⟩ := by
    rw [hclose]
    exact tail_of_crossing hcrossing
  rw [htrigger, fire_eq htail, hclose]
  refine ⟨_, rfl, ?_⟩
  have hlt : c < (a.units ++ held.openUnits).length := (crossing_eq_some.mp hcrossing).1
  show ((((a.units ++ held.openUnits).take (c + 1)).drop _).map _).length = _
  rw [List.length_map, List.length_drop, List.length_take, Nat.min_eq_left hlt]

/-- A trigger that holds back never builds the final proof. -/
theorem holdBack_notFinal (config : Config 𝕜) (held : Held P) (enough : Bool) :
    ∀ job ∈ (holdBack tick a held enough).2, ¬ job.IsFinal := by
  cases enough with
  | true =>
      rw [holdBack, if_pos rfl, (goOn_endsWith (by simp)).1]
      simp
  | false =>
      obtain ⟨a', pending, jobs, hnext, -, hjobs⟩ : ∃ a' pending jobs,
          startNext tick (a.closeUnits (complete held)) = (a', pending, jobs) ∧
          Starts config tick (a.closeUnits (complete held)) a' pending jobs ∧
          ∀ job ∈ jobs, ¬ job.IsFinal := startNext_starts
      simp only [holdBack, Bool.false_eq_true, if_false, hnext]
      rwa [(goOn_endsWith hjobs).1]

/-- A final proof comes out of a firing, over units that cross. -/
theorem trigger_fires {w : StreamFinalWitness P} (hw : Job.final w ∈ (trigger config tick a).2) :
    Fires config tick a ∧ ∃ c, crossing (allUnits config a)
      (config.streamPolicy.targetBalance a.context.totalActiveBalance) = some c := by
  set held := a.held config.slotsPerEpoch tick.headSlot config.streamPolicy with hheld
  obtain ⟨crossed, hobserve⟩ := observeCrossing_eq a held.balance tick.clock.reobserved
  unfold trigger at hw
  simp only [← hheld, hobserve] at hw
  split at hw
  · next hfires =>
      simp only [Bool.and_eq_true, Bool.not_eq_true', decide_eq_true_eq] at hfires
      obtain ⟨henough, hwait⟩ := hfires
      refine ⟨⟨henough, ?_⟩, ?_⟩
      · rwa [← Bool.not_eq_true, Bool.and_eq_true] at hwait
      · unfold fire at hw
        cases htail : (({ a with crossedUnixMillis := crossed } : StreamAggregator P B).closeUnits
            held.openUnits).tail config.streamPolicy with
        | none =>
            simp only [htail] at hw
            cases hw
        | some tail =>
            obtain ⟨c, hcrossing, -⟩ := tail_eq_some htail
            obtain ⟨stream, balance, hclose⟩ :=
              closeUnits_eq held.openUnits { a with crossedUnixMillis := crossed }
            rw [hclose] at hcrossing
            exact ⟨c, hcrossing⟩
  · exact absurd trivial (holdBack_notFinal config held _ _ hw)

/-! ## The tail of a run -/

/-- No group is ever late: the tail starts where the aggregate ends. -/
def NotLate (_ : StreamAggregator P B) : Option (Pending P) → Prop
  | some (.late ..) => False
  | _ => True

theorem notLate_preserved : Preserved config (fun _ _ => True)
    (NotLate : StreamAggregator P B → Option (Pending P) → Prop) where
  stable pending _ _ _ _ _ _ _ _ h := by
    rcases pending with _ | group | fold | late | final <;> exact h
  opened _ _ := trivial
  group _ _ _ := trivial
  fold _ _ _ := trivial
  late h := h
  close _ _ _ _ := trivial
  starts _ _ hstarts := by
    cases hstarts <;> trivial

/-- **What bounds the tail**: in every run, a tick hands over at most 24 units inline
exactly if the prover has kept up wherever its trigger fires. -/
theorem tail_capped_iff {s : StreamPipeline P B} (h : Reachable config (fun _ _ => True) s) :
    (∀ w, Job.final w ∈ (drive config tick s).2 → w.tail.length ≤ 24) ↔
      ∀ a, prepare config tick s = .free a → Fires config tick a → KeptUp config a := by
  have hlate := notLate_preserved.reachable h
  constructor
  · intro hcapped a hfree hfires hreach
    by_cases hnil : allUnits config a = []
    · rw [hnil] at hreach ⊢
      simpa [runningBalance] using hreach
    · obtain ⟨c, hcrossing⟩ := crossing_isSome hnil hreach
      obtain ⟨w, hjobs, hlength⟩ := trigger_final hfires hcrossing
      have hle := hcapped w (by rw [drive, hfree]; exact hjobs ▸ List.mem_singleton_self _)
      exact (crossing_lt_iff hcrossing).mp (by omega)
  · intro hkept w hw
    unfold drive at hw
    split at hw
    · next hover =>
        obtain ⟨-, rfl⟩ := notLate_preserved.prepare_over trivial hlate hover
        cases hw
    · next a hfree =>
        obtain ⟨hfires, c, hcrossing⟩ := trigger_fires hw
        obtain ⟨w', hjobs, hlength⟩ := trigger_final hfires hcrossing
        rw [hjobs] at hw
        obtain rfl := Job.final.inj (List.mem_singleton.mp hw)
        have hreach := (crossing_eq_some.mp hcrossing)
        have htarget := hkept a hfree hfires
          (hreach.2.1.trans (runningBalance_mono _ hreach.1))
        have hle := (crossing_lt_iff (n := a.handed + 23) hcrossing).mpr htarget
        omega

end Zkasper.Streaming

/-! ## A late start

37 validators of equal balance. The first 25 slots of epoch 2 have one attester each,
and the other 12 validators sit in the seven slots that are left. -/

namespace Zkasper.Formal

open Streaming StreamPipeline

def crowd : List ValidatorResponse :=
  (List.range 37).map fun i => validator (UInt8.ofNat (i % 4)) 32

def crowdTree : AccTree (formal {}) :=
  (AccTree.build (crowd.map (·.data)) 1 6).toOption.getD ⟨0, 0, [], []⟩

def crowdResponses : List CommitteeResponse :=
  (List.range 32).map fun i => ⟨64 + UInt64.ofNat i, 0,
    UInt64.ofNat i :: if 25 ≤ i ∧ i < 30 then [UInt64.ofNat (i + 7)] else []⟩

def crowdCommittees : Option (EpochCommittees (formal {})) :=
  (EpochCommittees.build crowdResponses crowd crowdTree 32 2 1 1184).toOption

def crowdOpening : Option (Opening (formal {})) :=
  crowdCommittees.bind fun committees => slottedOpening.map fun o =>
    { o with
      committees
      committeeOutput := committees.output
      accumulatorCommitment := .commitment crowdTree.root 1184
      accRoot := crowdTree.root
      totalActiveBalance := 1184 }

/-- The epoch opens at slot 89, with an attestation for each of the first `n` slots. -/
def lateStart (n : ℕ) : Tick (formal {}) :=
  { tickAt 89 ((List.range n).map fun i => 64 + UInt64.ofNat i) false with
    opening := crowdOpening
    tree := crowdTree }

/-- What the trigger is asked about, if it is. -/
def asked (config : Config ℤ) (tick : Tick (formal {})) (s : StreamPipeline (formal {}) lone) :
    Option (StreamAggregator (formal {}) lone) :=
  match prepare config tick s with
  | .over .. => none
  | .free a => some a

theorem asked_eq_some {config : Config ℤ} {tick : Tick (formal {})}
    {s : StreamPipeline (formal {}) lone} {a : StreamAggregator (formal {}) lone} :
    asked config tick s = some a ↔ prepare config tick s = .free a := by
  unfold asked
  rcases prepare config tick s with ⟨s', jobs⟩ | b
  · simp
  · simp

end Zkasper.Formal

namespace Zkasper.Streaming

open StreamPipeline Formal

/-- Three slots, the first of them folded: the prover has kept up with what the tick hands over. -/
theorem tail_capped_slotted :
    (drive allOfIt (tickAt 67 [66] false) afterFold).2 ≠ [] ∧ ∀ w,
      Job.final w ∈ (drive allOfIt (tickAt 67 [66] false) afterFold).2 → w.tail.length ≤ 24 := by
  have hjobs : (drive allOfIt (tickAt 67 [66] false) afterFold).2.isEmpty = false := by
    decide +kernel
  have hkept : (asked allOfIt (tickAt 67 [66] false) afterFold).all
      (fun a : StreamAggregator (formal {}) lone => KeptUp allOfIt a) = true := by
    decide +kernel
  refine ⟨by simpa using hjobs, ?_⟩
  have hreached : Reachable allOfIt (fun _ _ => True) afterFold :=
    .drive (.drive (.drive .empty trivial) trivial) trivial
  apply (tail_capped_iff (P := formal {}) (B := lone) hreached).mpr
  intro a hfree _
  have hasked : asked allOfIt (tickAt 67 [66] false) afterFold = some a := asked_eq_some.mpr hfree
  rw [hasked] at hkept
  exact of_decide_eq_true hkept

/-- **A late start**: the epoch opens at its 26th slot with 25 slots to prove, fires, and
puts all 25 of them inline. -/
theorem tail_not_capped : ¬ ∀ (s : StreamPipeline (formal {}) lone) (tick : Tick (formal {}))
    (w : StreamFinalWitness (formal {})), Reachable twoThirds (fun _ _ => True) s →
      Job.final w ∈ (drive twoThirds tick s).2 → w.tail.length ≤ 24 := by
  intro h
  have hasked : (asked twoThirds (lateStart 25) .empty).any (fun a =>
      decide (Fires twoThirds (lateStart 25) a) &&
      decide (a.handed = 0 ∧ crossing (allUnits twoThirds a)
        (twoThirds.streamPolicy.targetBalance a.context.totalActiveBalance) = some 24)) = true := by
    decide +kernel
  obtain ⟨a, ha, hfacts⟩ := Option.any_eq_true _ _ |>.mp hasked
  simp only [Bool.and_eq_true, decide_eq_true_eq] at hfacts
  obtain ⟨hfires, hhanded, hcrossing⟩ := hfacts
  obtain ⟨w, hjobs, hlength⟩ := trigger_final hfires hcrossing
  have hdrive : drive twoThirds (lateStart 25) .empty = trigger twoThirds (lateStart 25) a := by
    unfold drive
    rw [asked_eq_some.mp ha]
  have hle := h .empty (lateStart 25) w .empty (by
    rw [hdrive, hjobs]
    exact List.mem_singleton_self _)
  rw [hlength, hhanded] at hle
  omega

end Zkasper.Streaming
