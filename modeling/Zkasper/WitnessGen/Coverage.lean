import Zkasper.WitnessGen.Counted
import Zkasper.WitnessGen.Order

/-! # What the final proof covers

Coverage is spread over a counter, a group waiting to be folded, a fold in flight with
a count of its own, and a tail that is computed anew when the trigger fires. Held
together: the running aggregate is a chain of folds over consecutive groups of units
(`Covered`), and whatever is waiting or in flight starts where it ends (`InFlight`).
So the final proof covers the units up to the crossing, each once, and what its guest
adds up is their balance. -/

namespace Zkasper.Streaming

open StreamAggregator StreamPipeline

variable {P : Primitives} [Ord P.Bytes32] {B : Blst} {𝕜 : Type} [LinearOrder 𝕜] [AddCommGroup 𝕜]

/-! ## Proofs and what they cover -/

section Covers

variable (Trusted : Prover P → Prop) (context : StreamContext P) (committees : EpochCommittees P)

/-- A group proof covers exactly the units its witness was built from. -/
def GroupProof.Covers (group : GroupProof P) (units : List (SlotComplement P)) : Prop :=
  ∃ prover tree, Trusted prover ∧
    prover.proveGroup (context.groupWitness tree committees units) =
      .ok (group.output, group.miller, group.proof)

/-- **The running aggregate covers some units**: it is a chain of folds, each of the
group after the one before it. -/
inductive Covered : List (SlotComplement P) → Option (AggregateOutput P) → Proof → P.Fp12 → Prop
  | nothing : Covered [] none [] P.fp12One
  | fold {units more : List (SlotComplement P)} {aggregate : Option (AggregateOutput P)}
      {proof proof' : Proof} {miller : P.Fp12} {group : GroupProof P} {prover : Prover P}
      {out : AggregateOutput P} : Covered units aggregate proof miller →
      group.Covers Trusted context committees more → Trusted prover →
      prover.proveAggregate (context.aggregateWitness aggregate proof miller [group.output]
        [group.proof] [group.miller]) = .ok (out, proof') →
      Covered (units ++ more) (some out) proof' (P.fp12Mul miller group.miller)

end Covers

/-! ## The invariant -/

section Invariant

variable (Trusted : Prover P → Prop)

/-- The aggregate, with this proof of it, covers the units up to `proved`. -/
def Behind (a : StreamAggregator P B) (proof : Proof) : Prop :=
  Covered Trusted a.context a.committees (a.units.take a.proved) a.aggregate proof
    a.aggregateMiller

/-- A group covers the units from `proved` up to `p`. -/
def Next (a : StreamAggregator P B) (p : ℕ) (group : GroupProof P) : Prop :=
  a.proved ≤ p ∧ p ≤ a.units.length ∧
    group.Covers Trusted a.context a.committees ((a.units.take p).drop a.proved)

/-- Where the proofs of an epoch stand. The aggregate ends at `proved`; a group that
has landed, is in flight or is being folded starts there. -/
def InFlight (a : StreamAggregator P B) : Option (Pending P) → Prop
  | none => Behind Trusted a a.aggregateProof ∧
      ∀ p group, a.unfolded = some (p, group) → Next Trusted a p group
  | some (.group group) => Behind Trusted a a.aggregateProof ∧ a.proved ≤ group.range.stop ∧
      group.range.stop ≤ a.units.length ∧ ∃ tree, group.witness =
        a.context.groupWitness tree a.committees ((a.units.take group.range.stop).drop a.proved)
  | some (.fold _ p witness) => a.unfolded = none ∧
      ∃ (proof : Proof) (group : GroupProof P), Behind Trusted a proof ∧ Next Trusted a p group ∧
        witness = a.context.aggregateWitness a.aggregate proof a.aggregateMiller [group.output]
          [group.proof] [group.miller]
  | some (.late ..) => False
  | some (.final ..) => True

/-- Each slot is taken once, and the proofs cover the units from the first one on. -/
structure Covering (config : Config 𝕜) (a : StreamAggregator P B) (pending : Option (Pending P)) :
    Prop where
  taken : a.Taken config.slotsPerEpoch
  proved_le : a.proved ≤ a.units.length
  inFlight : InFlight Trusted a pending

variable {Trusted} {config : Config 𝕜} {tick : Tick P} {a a' : StreamAggregator P B}
  {pending : Option (Pending P)}

omit [LinearOrder 𝕜] [AddCommGroup 𝕜] in
theorem Covering.stable (pending : Option (Pending P)) :
    Stable fun a : StreamAggregator P B => Covering Trusted config a pending := by
  intro a attestations nextSlot gap reorged crossed since blocked h
  refine ⟨taken_stable a attestations nextSlot gap reorged crossed since blocked h.taken,
    h.proved_le, ?_⟩
  -- arrivals leave the units and the progress alone
  have hinFlight := h.inFlight
  rcases pending with _ | group | fold | late | final <;> exact hinFlight

omit [LinearOrder 𝕜] [AddCommGroup 𝕜] in
/-- **Closing slots** appends units behind everything that is covered. -/
theorem Covering.close {units : List (SlotComplement P)} (h : Covering Trusted config a none)
    (hfirst : units <+: a.openUnits config.slotsPerEpoch) :
    Covering Trusted config (a.closeUnits units) none := by
  have htaken := h.taken.close hfirst
  obtain ⟨stream, balance, heq⟩ := closeUnits_eq units a
  rw [heq] at htaken ⊢
  obtain ⟨hbehind, hnext⟩ := h.inFlight
  refine ⟨htaken, ?_, ?_, ?_⟩
  · show a.proved ≤ (a.units ++ units).length
    rw [List.length_append]
    exact Nat.le_add_right_of_le h.proved_le
  · show Covered _ _ _ ((a.units ++ units).take a.proved) _ _ _
    rwa [List.take_append_of_le_length h.proved_le]
  · intro p group hgroup
    obtain ⟨hstart, hstop, hcovers⟩ := hnext p group hgroup
    refine ⟨hstart, ?_, ?_⟩
    · show p ≤ (a.units ++ units).length
      rw [List.length_append]
      exact Nat.le_add_right_of_le hstop
    · show group.Covers _ _ _ (((a.units ++ units).take p).drop a.proved)
      rwa [List.take_append_of_le_length hstop]

/-- **Starting a proof** hands over what starts where the aggregate ends. -/
theorem Covering.starts {jobs : List (Job P)} (h : Covering Trusted config a none)
    (hstarts : Starts config tick a a' pending jobs) : Covering Trusted config a' pending := by
  obtain ⟨hbehind, hnext⟩ := h.inFlight
  cases hstarts with
  | nothing => exact h
  | @fold proved group hgroup =>
      exact ⟨h.taken, h.proved_le, rfl, _, group, hbehind, hnext proved group hgroup, rfl⟩
  | group hnone hlt => exact ⟨h.taken, h.proved_le, hbehind, hlt.le, le_rfl, tick.tree, rfl⟩
  | final htail => exact ⟨h.taken, h.proved_le, trivial⟩

/-- Up to a later unit is up to an earlier one, and from there on. -/
theorem take_append_drop_take {α : Type} (units : List α) {p q : ℕ} (h : p ≤ q) :
    units.take p ++ (units.take q).drop p = units.take q := by
  conv_rhs => rw [← List.take_append_drop p (units.take q)]
  rw [List.take_take, Nat.min_eq_left h]

omit [LinearOrder 𝕜] [AddCommGroup 𝕜] in
/-- **Adopting a fold**: the aggregate now ends where the group did. -/
theorem Covering.finishFold {index proved : ℕ} {witness : AggregateWitness P}
    (htrusted : Trusted tick.prover)
    (h : Covering Trusted config a (some (.fold index proved witness)))
    (hfold : finishFold tick a proved witness = .ok a') : Covering Trusted config a' none := by
  obtain ⟨hnone, proof, group, hbehind, ⟨hstart, hstop, hcovers⟩, rfl⟩ := h.inFlight
  simp only [StreamAggregator.finishFold, Guest.bind_eq_ok, Guest.assert_eq_ok, Guest.pure_eq_ok,
    exists_const] at hfold
  obtain ⟨⟨out, proof'⟩, hprove, -, rfl⟩ := hfold
  refine ⟨h.taken, hstop, ?_, ?_⟩
  · have hfolded := Covered.fold hbehind hcovers htrusted hprove
    rwa [take_append_drop_take a.units hstart] at hfolded
  · intro p group hsome
    exact absurd (hnone.symm.trans hsome) (by simp)

omit [LinearOrder 𝕜] [AddCommGroup 𝕜] in
/-- **Collecting a group**: it waits to be folded, from where the aggregate ends. -/
theorem Covering.finishGroup {group : GroupInFlight P} {proof : GroupProof P}
    (htrusted : Trusted tick.prover) (h : Covering Trusted config a (some (.group group)))
    (hgroup : finishGroup tick group = .ok proof) :
    Covering Trusted config { a with unfolded := some (group.range.stop, proof) } none := by
  obtain ⟨hbehind, hstart, hstop, tree, hwitness⟩ := h.inFlight
  simp only [StreamAggregator.finishGroup, Guest.bind_eq_ok, Guest.assert_eq_ok, Guest.pure_eq_ok,
    exists_const] at hgroup
  obtain ⟨⟨output, miller, bytes⟩, hprove, -, rfl⟩ := hgroup
  refine ⟨h.taken, h.proved_le, hbehind, ?_⟩
  intro p group' hsome
  obtain ⟨rfl, rfl⟩ := Prod.mk.inj (Option.some.inj hsome)
  exact ⟨hstart, hstop, tick.prover, tree, htrusted, hwitness ▸ hprove⟩

/-- A tick whose prover is trusted. -/
def Trusting (Trusted : Prover P → Prop) (tick : Tick P) (_ : StreamPipeline P B) : Prop :=
  Trusted tick.prover

/-- Coverage is kept in every run whose provers are trusted. -/
theorem covering_preserved : Preserved config (Trusting Trusted)
    (Covering Trusted config : StreamAggregator P B → Option (Pending P) → Prop) where
  stable := Covering.stable
  opened _ _ := ⟨taken_openEpoch, le_rfl, .nothing, fun _ _ h => by cases h⟩
  group htrusted h hgroup := h.finishGroup htrusted hgroup
  fold htrusted h hfold := h.finishFold htrusted hfold
  late h := h.inFlight
  close _ _ h hfirst := h.close hfirst
  starts _ h hstarts := h.starts hstarts

end Invariant

/-! ## What the proofs count -/

/-- An honest prover answers with the public outputs the circuit commits to. -/
structure Honest (S : ProofSystem P) (accDepth : ℕ) (prover : Prover P) : Prop where
  group : ∀ w out miller proof, prover.proveGroup w = .ok (out, miller, proof) →
    verifyGroupProofWithDepth w accDepth = .ok out
  aggregate : ∀ w out proof, prover.proveAggregate w = .ok (out, proof) →
    verifyAggregate S w = .ok out

section Counts

variable {Trusted : Prover P → Prop} {S : ProofSystem P} {accDepth : ℕ} {context : StreamContext P}
  {committees : EpochCommittees P} {units : List (SlotComplement P)}

omit [Ord P.Bytes32] in
theorem GroupProof.Covers.counted {group : GroupProof P}
    (hhonest : ∀ prover, Trusted prover → Honest S accDepth prover)
    (h : group.Covers Trusted context committees units) :
    Counted (units.map (·.witness)) group.output.attestingBalance group.output.slotsMask := by
  obtain ⟨prover, tree, htrusted, hprove⟩ := h
  exact verifyGroupProofWithDepth_counted ((hhonest prover htrusted).group _ _ _ _ hprove)

omit [Ord P.Bytes32] in
/-- **The aggregate counts the units it covers**, each once. -/
theorem Covered.counts {aggregate : Option (AggregateOutput P)} {proof : Proof} {miller : P.Fp12}
    (hhonest : ∀ prover, Trusted prover → Honest S accDepth prover)
    (h : Covered Trusted context committees units aggregate proof miller) :
    CountsAggregate aggregate (units.map (·.witness)) := by
  induction h with
  | nothing => exact .nil
  | fold _ hgroup htrusted hprove ih =>
      rw [List.map_append]
      exact verifyAggregate_counted ih rfl rfl rfl (hgroup.counted hhonest)
        ((hhonest _ htrusted).aggregate _ _ _ hprove)

end Counts

/-! ## The final proof -/

/-- **What a final proof covers**: the aggregate the units up to `proved`, the group it
absorbs those up to `p`, and the inline tail those up to the crossing `c`. -/
structure FinalCovers (Trusted : Prover P → Prop) (policy : StreamPolicy 𝕜)
    (a : StreamAggregator P B) (w : StreamFinalWitness P) (p c : ℕ) : Prop where
  once : (a.units.map (·.slot)).Nodup
  aggregate : Covered Trusted a.context a.committees (a.units.take a.proved) w.aggregate
    w.aggregateProof w.aggregateMiller
  start : a.proved ≤ p
  stop : p ≤ a.units.length
  group : p = a.proved ∧ w.groups = [] ∧ w.groupProofs = [] ∧ w.groupMillers = [] ∨
    ∃ group : GroupProof P,
      group.Covers Trusted a.context a.committees ((a.units.take p).drop a.proved) ∧
      w.groups = [group.output] ∧ w.groupProofs = [group.proof] ∧ w.groupMillers = [group.miller]
  crossing : crossing a.units (policy.targetBalance a.context.totalActiveBalance) = some c
  tail : w.tail = ((a.units.take (c + 1)).drop p).map (·.witness)
  total : w.totalActiveBalance = a.context.totalActiveBalance

namespace FinalCovers

variable {Trusted : Prover P → Prop} {policy : StreamPolicy 𝕜} {a : StreamAggregator P B}
  {w : StreamFinalWitness P} {p c : ℕ}

omit [LinearOrder 𝕜] [AddCommGroup 𝕜] in
/-- No unit is covered twice, and none up to the crossing is left out. -/
theorem exactly_once (h : FinalCovers Trusted policy a w p c) :
    a.units.take a.proved ++ (a.units.take p).drop a.proved ++ (a.units.take (c + 1)).drop p =
      a.units.take (max p (c + 1)) := by
  rw [take_append_drop_take a.units h.start]
  rcases le_total p (c + 1) with hle | hle
  · rw [take_append_drop_take a.units hle, Nat.max_eq_right hle]
  · rw [List.drop_eq_nil_of_le ((List.length_take_le _ _).trans hle), List.append_nil,
      Nat.max_eq_left hle]

omit [LinearOrder 𝕜] [AddCommGroup 𝕜] in
/-- What the guest of a final proof counts. -/
theorem counted {S : ProofSystem P} {accDepth : ℕ} {anchor : EpochAnchor P} {count : Attested P}
    (h : FinalCovers Trusted policy a w p c)
    (hhonest : ∀ prover, Trusted prover → Honest S accDepth prover)
    (hrun : streamFinalCount S w accDepth = .ok (anchor, count)) :
    ∃ mask, Counted ((a.units.take (max p (c + 1))).map (·.witness)) count.attestingBalance mask := by
  obtain ⟨-, -, aggregated, grouped, hinherit, habsorb, htail⟩ := streamFinalCount_eq_ok hrun
  have haggregated := inheritAggregate_counts (h.aggregate.counts hhonest) hinherit
  have hgrouped : grouped.Counts
      ((a.units.take a.proved ++ (a.units.take p).drop a.proved).map (·.witness)) := by
    rw [List.map_append]
    rcases h.group with ⟨rfl, hgroups, -, -⟩ | ⟨group, hcovers, hgroups, hproofs, hmillers⟩
    · rw [hgroups] at habsorb
      obtain rfl := Guest.foldlM_nil.mp habsorb
      rw [List.drop_eq_nil_of_le (List.length_take_le _ _), List.map_nil, List.append_nil]
      exact haggregated
    · rw [hgroups, hproofs, hmillers] at habsorb
      exact absorbGroups_counts haggregated (hcovers.counted hhonest) habsorb
  obtain ⟨mask, hcounted⟩ := countTail_counts hgrouped htail
  rw [h.tail, ← List.map_append, h.exactly_once] at hcounted
  exact ⟨mask, hcounted⟩

omit [LinearOrder 𝕜] [AddCommGroup 𝕜] in
/-- **Two thirds**: where the policy waits for two thirds, the guest's assertion holds.
The committees of an epoch are disjoint, so together they hold no more than the total. -/
theorem supermajority {S : ProofSystem P} {accDepth : ℕ} {anchor : EpochAnchor P}
    {count : Attested P} {slotsPerEpoch : UInt64} (h : FinalCovers Trusted policy a w p c)
    (htaken : a.Taken slotsPerEpoch)
    (hhonest : ∀ prover, Trusted prover → Honest S accDepth prover)
    (hcommittees : committeesBalance a.committees.aggregates ≤
      a.context.totalActiveBalance.toNat)
    (htarget : 2 * a.context.totalActiveBalance.toNat ≤
      3 * policy.targetBalance a.context.totalActiveBalance)
    (hrun : streamFinalCount S w accDepth = .ok (anchor, count)) :
    IsSupermajority count.attestingBalance w.totalActiveBalance := by
  obtain ⟨mask, hcounted⟩ := h.counted hhonest hrun
  have hprices : ∀ unit ∈ a.units.take (max p (c + 1)),
      SlotStream.Prices a.committees slotsPerEpoch unit :=
    fun unit hunit => htaken.prices unit (List.mem_of_mem_take hunit)
  have hslots : ∀ slot ∈ (a.units.take (max p (c + 1))).map (·.witness),
      a.committees.aggregates[slot.slotInEpoch.toNat]?.join = some slot.committee := by
    intro slot hslot
    obtain ⟨unit, hunit, rfl⟩ := List.mem_map.mp hslot
    exact (hprices unit hunit).committee
  have hsum : count.attestingBalance.toNat = runningBalance a.units (max p (c + 1)) := by
    rw [hcounted.toNat_eq hslots (hcommittees.trans_lt (UInt64.toNat_lt _)), runningBalance,
      List.map_map]
    apply congrArg
    apply List.map_congr_left
    intro unit hunit
    rw [(hprices unit hunit).marginal]
    rfl
  have hreached := (crossing_eq_some.mp h.crossing).2.1
  have hmono : runningBalance a.units (c + 1) ≤ runningBalance a.units (max p (c + 1)) := by
    rw [runningBalance, runningBalance,
      ← take_append_drop_take a.units (Nat.le_max_right p (c + 1)), List.map_append,
      List.sum_append]
    exact Nat.le_add_right _ _
  rw [IsSupermajority, hsum, h.total]
  omega

end FinalCovers

/-- **The trigger fires** on an epoch whose proofs cover its units from the first one on. -/
theorem Covering.startFinal {Trusted : Prover P → Prop} {config : Config 𝕜} {tick : Tick P}
    {a : StreamAggregator P B} {tail : Range} (h : Covering Trusted config a none)
    (htail : a.tail config.streamPolicy = some tail) (unixMillis : UInt64) :
    ∃ c, FinalCovers Trusted config.streamPolicy { a with unfolded := none }
      (a.startFinal tick (a.unfolded.map Prod.snd) ⟨unixMillis, tail⟩).2 a.handed c := by
  obtain ⟨hbehind, hnext⟩ := h.inFlight
  obtain ⟨c, hcrossing, rfl⟩ := tail_eq_some htail
  have hgroup : a.unfolded = none ∨ ∃ group, a.unfolded = some (a.handed, group) := by
    unfold handed
    rcases a.unfolded with _ | ⟨p, group⟩
    · exact .inl rfl
    · exact .inr ⟨group, rfl⟩
  have hrange : a.proved ≤ a.handed ∧ a.handed ≤ a.units.length := by
    rcases hgroup with hnone | ⟨group, hsome⟩
    · rw [handed, hnone]
      exact ⟨le_rfl, h.proved_le⟩
    · obtain ⟨hstart, hstop, -⟩ := hnext _ _ hsome
      exact ⟨hstart, hstop⟩
  refine ⟨c, ?_⟩
  exact {
    once := h.taken.nodup
    aggregate := hbehind
    start := hrange.1
    stop := hrange.2
    group := by
      rcases hgroup with hnone | ⟨group, hsome⟩
      · left
        simp only [StreamAggregator.startFinal, StreamContext.finalWitness, hnone, Option.map_none,
          Option.toList_none, List.map_nil, and_self, and_true]
        rw [handed, hnone]
        rfl
      · right
        refine ⟨group, (hnext _ _ hsome).2.2, ?_⟩
        simp [StreamAggregator.startFinal, StreamContext.finalWitness, hsome]
    crossing := hcrossing
    tail := by
      show ((a.units.take (c + 1)).drop (min a.handed (c + 1))).map _ = _
      rcases le_total a.handed (c + 1) with hle | hle
      · rw [Nat.min_eq_left hle]
      · have hlength := List.length_take_le (c + 1) a.units
        rw [List.drop_eq_nil_of_le (by omega), List.drop_eq_nil_of_le (hlength.trans hle)]
    total := rfl }

/-- **Exactly-once coverage**: in every run, whatever arrives, lands or fires when, the
final proof's witness covers the units of its epoch up to the crossing, each once; and
where the provers are honest and the policy waits for two thirds, so does its guest. -/
theorem final_covers {Trusted : Prover P → Prop} {config : Config 𝕜} {tick : Tick P}
    {s : StreamPipeline P B} {w : StreamFinalWitness P}
    (h : Reachable config (Trusting Trusted) s) (htrusted : Trusted tick.prover)
    (hw : Job.final w ∈ (drive config tick s).2) :
    ∃ a p c, (drive config tick s).1.aggregator = some a ∧
      FinalCovers Trusted config.streamPolicy a w p c ∧
      (c < p → w.tail = []) ∧
      a.units.take a.proved ++ (a.units.take p).drop a.proved ++ (a.units.take (c + 1)).drop p =
        a.units.take (max p (c + 1)) ∧
      ∀ S accDepth, (∀ prover, Trusted prover → Honest S accDepth prover) →
        committeesBalance a.committees.aggregates ≤ a.context.totalActiveBalance.toNat →
        2 * w.totalActiveBalance.toNat ≤
          3 * config.streamPolicy.targetBalance w.totalActiveBalance →
        ∀ anchor count, streamFinalCount S w accDepth = .ok (anchor, count) →
          IsSupermajority count.attestingBalance w.totalActiveBalance := by
  obtain ⟨a, a', pending, hcovering, hstarts, hend⟩ :=
    covering_preserved.reachable_drive h htrusted hw
  obtain ⟨-, hend⟩ := hend
  generalize (drive config tick s).2 = jobs at hw hstarts hend
  have htaken := hcovering.taken
  cases hstarts with
  | nothing => cases hw
  | fold _ => simp at hw
  | group _ _ => simp at hw
  | @final tail htail =>
      obtain rfl := Job.final.inj (List.mem_singleton.mp hw)
      obtain ⟨c, hfinal⟩ := hcovering.startFinal htail tick.clock.fired
      refine ⟨_, a.handed, c, ?_, hfinal, ?_, hfinal.exactly_once, ?_⟩
      · -- an epoch that fires is not given up
        rcases hend with hend | ⟨-, hnone⟩
        · rw [hend]
        · exact absurd trivial (hnone _ (List.mem_singleton.mpr rfl))
      · intro hlt
        rw [hfinal.tail, List.drop_eq_nil_of_le ((List.length_take_le _ _).trans hlt), List.map_nil]
      · intro S accDepth hhonest hcommittees htarget anchor count hrun
        exact hfinal.supermajority htaken hhonest hcommittees htarget hrun

end Zkasper.Streaming

namespace Zkasper.Formal

open Streaming StreamPipeline

/-- Slot 0 arrives, is closed and proven in a group, and the group is folded. -/
def folded : StreamPipeline (formal {}) lone :=
  (drive twoThirds (tickAt 66 [] false) (drive twoThirds (tickAt 66 [] false)
    (drive twoThirds (tickAt 66 [64] false) .empty).1).1).1

theorem circuits_honest : Honest (fun _ _ _ => true) 2 circuits where
  group w out miller proof h := by
    simp only [circuits, Guest.bind_eq_ok, Guest.pure_eq_ok, Prod.mk.injEq] at h
    obtain ⟨attested, -, output, hrun, rfl, -⟩ := h
    exact hrun
  aggregate w out proof h := by
    simp only [circuits, Guest.bind_eq_ok, Guest.pure_eq_ok, Prod.mk.injEq] at h
    obtain ⟨output, hrun, rfl, -⟩ := h
    exact hrun

/-- A final proof whose guest gets to its assertion, under a policy that waits for two thirds. -/
def counts : Job (formal {}) → Bool
  | .final w => (streamFinalCount (fun _ _ _ => true) w 2).toBool &&
      2 * w.totalActiveBalance.toNat ≤
        3 * twoThirds.streamPolicy.targetBalance w.totalActiveBalance
  | _ => false

end Zkasper.Formal

namespace Zkasper.Streaming

open StreamPipeline Formal

/-- Slot 0 was folded, slot 1 carries the epoch over two thirds and goes inline. -/
theorem final_covers_folded :
    ∃ (w : StreamFinalWitness (formal {})) (a : StreamAggregator (formal {}) lone) (p c : ℕ),
      Job.final w ∈ (drive twoThirds (tickAt 67 [65] false) folded).2 ∧
      FinalCovers (· = circuits) twoThirds.streamPolicy a w p c ∧
      ∃ anchor count, streamFinalCount (fun _ _ _ => true) w 2 = .ok (anchor, count) ∧
        IsSupermajority count.attestingBalance w.totalActiveBalance := by
  obtain ⟨job, hw, hcounts⟩ :
      ∃ job ∈ (drive twoThirds (tickAt 67 [65] false) folded).2, counts job = true := by
    decide +kernel
  have hcommittees : (drive twoThirds (tickAt 67 [65] false) folded).1.aggregator.all (fun a =>
      committeesBalance a.committees.aggregates ≤ a.context.totalActiveBalance.toNat) = true := by
    decide +kernel
  cases job with
  | group _ => cases hcounts
  | aggregate _ => cases hcounts
  | final w =>
      have hreach : Reachable twoThirds (Trusting (· = circuits)) folded :=
        .drive (.drive (.drive .empty rfl) rfl) rfl
      obtain ⟨a, p, c, ha, hcovers, -, -, hcount⟩ :=
        final_covers hreach rfl hw
      rw [ha] at hcommittees
      simp only [counts, Bool.and_eq_true, decide_eq_true_eq] at hcounts
      obtain ⟨hok, htarget⟩ := hcounts
      cases hrun : streamFinalCount (fun _ _ _ => true) w 2 with
      | error e =>
          rw [hrun] at hok
          cases hok
      | ok counted =>
          obtain ⟨anchor, count⟩ := counted
          refine ⟨w, a, p, c, hw, hcovers, anchor, count, hrun, ?_⟩
          exact hcount _ 2 (fun _ h => h ▸ circuits_honest) (of_decide_eq_true hcommittees) htarget
            anchor count hrun

end Zkasper.Streaming
