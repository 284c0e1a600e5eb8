import Zkasper.Library.Windows
import Zkasper.WitnessGen.Schedule

/-! # Well-formed schedules

What a schedule promises (`Schedule.WellFormed`): every unit up to the crossing is proven once,
every group is folded or absorbed, no lane runs two proofs at once, and no proof starts before
what it is made of is there.

Every stage of the placement only appends proofs, so each promise is kept by what is appended. The
lanes hold exactly the windows of the proofs placed so far (`Placed.Booked`), which is why a lane
that is clear for a proof has no proof in the way. The wrap is booked without looking: everything
placed before it has ended by then. -/

namespace Zkasper.Streaming

variable {P : Primitives} {𝕜 : Type} [LinearOrder 𝕜] [AddCommGroup 𝕜]

/-! ## What a schedule promises -/

/-- Nothing the prover does takes less than no time. -/
structure ProverModel.Nonneg (prover : ProverModel 𝕜) : Prop where
  group : ∀ named slots messages, 0 ≤ prover.groupS named slots messages
  fold : ∀ groups opening, 0 ≤ prover.foldS groups opening
  final : ∀ named slots messages absorbed folded,
    0 ≤ prover.finalS named slots messages absorbed folded
  wrap : 0 ≤ prover.wrapS
  committeeChunk : ∀ chunks, 0 ≤ prover.committeeChunkS chunks
  committeeFold : ∀ chunks, 0 ≤ prover.committeeFoldS chunks

/-- Two proofs do not run on one lane at once. -/
def ScheduledProof.Apart (p q : ScheduledProof 𝕜) : Prop :=
  p.lane = q.lane → p.endS ≤ q.startS ∨ q.endS ≤ p.startS

/-- The committee proofs of a schedule. -/
def committeeStages (policy : StreamPolicy 𝕜) : List Stage :=
  if policy.owesCommittee then
    (List.range policy.committeeChunks).map .committee ++
      if policy.committeeChunks > 1 then [.committeeFold] else []
  else []

/-- How many units a plan proves: those up to the first that reaches the target, or all. -/
def coverage (units : List (SlotComplement P)) (target : ℕ) : ℕ :=
  if units = [] then 0 else (crossing units target).getD (units.length - 1) + 1

/-- Every proof of a schedule has its place. -/
structure Schedule.WellPlaced (units : List (SlotComplement P)) (policy : StreamPolicy 𝕜)
    (s : Schedule 𝕜) : Prop where
  partition : (s.plan.folds.flatten ++ s.plan.absorbed).Perm (List.range s.plan.groups.length)
  /-- One proof for everything the plan has. -/
  stages : units ≠ [] → (s.proofs.map (·.stage)).Perm
    ((List.range s.plan.groups.length).map .group ++ (List.range s.plan.folds.length).map .fold ++
      [.final, .wrap] ++ committeeStages policy)
  lasts : ∀ p ∈ s.proofs, p.startS ≤ p.endS
  apart : s.proofs.Pairwise ScheduledProof.Apart
  /-- A group starts after its units have arrived. -/
  group : ∀ p ∈ s.proofs, ∀ i, p.stage = .group i → ∃ members, s.plan.groups[i]? = some members ∧
    ∀ unit ∈ members, arrival units policy unit ≤ p.startS
  /-- A fold starts after its groups and the folds before it. -/
  fold : ∀ p ∈ s.proofs, ∀ k, p.stage = .fold k → ∃ batch, s.plan.folds[k]? = some batch ∧
    (∀ i ∈ batch, ∀ q ∈ s.proofs, q.stage = .group i → q.endS ≤ p.startS) ∧
    ∀ j < k, ∀ q ∈ s.proofs, q.stage = .fold j → q.endS ≤ p.startS
  /-- The final proof starts after every fold, every absorbed group and every unit of the tail. -/
  final : ∀ p ∈ s.proofs, p.stage = .final →
    (∀ k, ∀ q ∈ s.proofs, q.stage = .fold k → q.endS ≤ p.startS) ∧
    (∀ i ∈ s.plan.absorbed, ∀ q ∈ s.proofs, q.stage = .group i → q.endS ≤ p.startS) ∧
    ∀ unit ∈ s.plan.tail, arrival units policy unit ≤ p.startS

/-- **A well-formed schedule.** -/
structure Schedule.WellFormed (units : List (SlotComplement P)) (totalActiveBalance : UInt64)
    (policy : StreamPolicy 𝕜) (s : Schedule 𝕜) : Prop extends s.WellPlaced units policy where
  covered : s.plan.groups.flatten ++ s.plan.tail =
    List.range (coverage units (policy.targetBalance totalActiveBalance))
  thresholdReached : s.plan.thresholdReached =
    (crossing units (policy.targetBalance totalActiveBalance)).isSome
  nonempty : ∀ members ∈ s.plan.groups, members ≠ []

/-! ## Booked lanes -/

/-- **The lanes hold what runs on them**, by start, and nothing runs at once. -/
structure Placed.Booked (lanes : ℕ) (s : Placed 𝕜) : Prop where
  length : s.lanes.length = lanes
  ordered : ∀ lane, Windows.Ordered (s.lanes.getD lane [])
  windows : ∀ lane w, w ∈ s.lanes.getD lane [] ↔
    ∃ p ∈ s.proofs, p.lane = lane ∧ (p.startS, p.endS) = w
  lasts : ∀ p ∈ s.proofs, p.startS ≤ p.endS
  apart : s.proofs.Pairwise ScheduledProof.Apart

omit [AddCommGroup 𝕜] in
theorem Placed.Booked.empty (lanes : ℕ) :
    (⟨List.replicate lanes [], []⟩ : Placed 𝕜).Booked lanes where
  length := List.length_replicate
  ordered lane := by
    rw [List.getD_eq_getElem?_getD, List.getElem?_replicate]
    split <;> exact .nil
  windows lane w := by
    rw [List.getD_eq_getElem?_getD, List.getElem?_replicate]
    split <;> simp
  lasts _ hp := by cases hp
  apart := .nil

omit [AddCommGroup 𝕜] in
/-- A proof whose lane is clear is booked. -/
theorem Placed.Booked.book {lanes : ℕ} {s : Placed 𝕜} (h : s.Booked lanes) {p : ScheduledProof 𝕜}
    (hlane : p.lane < lanes) (hlasts : p.startS ≤ p.endS)
    (hclear : Windows.Clear (s.lanes.getD p.lane []) p.startS p.endS) :
    (⟨s.lanes.modify p.lane fun windows => Windows.book windows (p.startS, p.endS),
      s.proofs ++ [p]⟩ : Placed 𝕜).Booked lanes := by
  have hmodify : ∀ lane, (s.lanes.modify p.lane fun windows =>
      Windows.book windows (p.startS, p.endS)).getD lane [] =
        if p.lane = lane then Windows.book (s.lanes.getD lane []) (p.startS, p.endS)
        else s.lanes.getD lane [] := by
    intro lane
    rw [List.getD_eq_getElem?_getD, List.getElem?_modify, List.getD_eq_getElem?_getD]
    by_cases heq : p.lane = lane
    · subst heq
      rw [if_pos rfl, List.getElem?_eq_getElem (h.length.symm ▸ hlane)]
      simp
    · rw [if_neg heq]
      simp [heq]
  refine ⟨?_, fun lane => ?_, fun lane w => ?_, ?_, ?_⟩
  · rw [List.length_modify, h.length]
  · rw [hmodify]
    split
    · exact (h.ordered lane).book _
    · exact h.ordered lane
  · rw [hmodify]
    simp only [List.mem_append, List.mem_singleton, or_and_right, exists_or, exists_eq_left]
    split
    · next heq =>
        rw [Windows.mem_book, h.windows, or_comm]
        apply or_congr_right
        rw [eq_comm]
        exact (and_iff_right heq).symm
    · next hne => rw [h.windows, or_iff_left (fun h => hne h.1)]
  · intro q hq
    rcases List.mem_append.mp hq with hq | hq
    · exact h.lasts q hq
    · obtain rfl := List.mem_singleton.mp hq
      exact hlasts
  · refine List.pairwise_append.mpr ⟨h.apart, List.pairwise_singleton _ _, ?_⟩
    intro q hq p' hp' heq
    obtain rfl := List.mem_singleton.mp hp'
    exact (hclear _ ((h.windows p'.lane _).mpr ⟨q, hq, heq, rfl⟩)).symm

section Place

variable [IsOrderedAddMonoid 𝕜] {policy : StreamPolicy 𝕜} {s : Placed 𝕜}

/-- Lanes to choose from, all of them there. -/
def Lanes.Choice (lanes : ℕ) (eligible : List ℕ) : Prop :=
  eligible ≠ [] ∧ ∀ lane ∈ eligible, lane < lanes

theorem Lanes.choice_range {lanes n : ℕ} (hn : 0 < n) (hle : n ≤ lanes) :
    Lanes.Choice lanes (List.range n) :=
  ⟨by simpa using hn.ne', fun _ hlane => (List.mem_range.mp hlane).trans_le hle⟩

theorem Lanes.choice_singleton {lanes lane : ℕ} (hlane : lane < lanes) :
    Lanes.Choice lanes [lane] :=
  ⟨List.cons_ne_nil _ _, by simpa using hlane⟩

theorem Lanes.Choice.reverse {lanes : ℕ} {eligible : List ℕ} (h : Lanes.Choice lanes eligible) :
    Lanes.Choice lanes eligible.reverse :=
  ⟨by simpa using h.1, fun lane hlane => h.2 lane (List.mem_reverse.mp hlane)⟩

omit [LinearOrder 𝕜] [AddCommGroup 𝕜] [IsOrderedAddMonoid 𝕜] in
/-- Every stage has a lane to run on. -/
theorem eligible_choice (hlanes : 0 < policy.lanes) (stage : Stage) :
    Lanes.Choice policy.lanes (policy.eligible stage) := by
  have hall : Lanes.Choice policy.lanes (List.range policy.lanes) :=
    Lanes.choice_range hlanes le_rfl
  have hgroups : Lanes.Choice policy.lanes (List.range (max (policy.lanes - 1 - 1) 1)) :=
    Lanes.choice_range (by omega) (by omega)
  have hfold : Lanes.Choice policy.lanes [policy.lanes - 1 - 1] :=
    Lanes.choice_singleton (by omega)
  have hlast : Lanes.Choice policy.lanes [policy.lanes - 1] := Lanes.choice_singleton (by omega)
  unfold StreamPolicy.eligible
  split
  · cases stage with
    | committee chunk => exact hall.reverse
    | committeeFold => exact hall.reverse
    | group i => exact hall
    | fold i => exact hall
    | final => exact hall
    | wrap => exact hall
  · cases stage with
    | committee chunk => exact hgroups.reverse
    | committeeFold => exact hfold.reverse
    | group i => exact hgroups
    | fold i => exact hfold
    | final => exact hlast
    | wrap => exact hlast

omit [IsOrderedAddMonoid 𝕜] in
/-- The lane that is peeked at is one of the eligible, and free from then on. -/
theorem Lanes.peek_eq {lanes : Lanes 𝕜} {eligible : List ℕ} (hne : eligible ≠ [])
    (release duration : 𝕜) : ∃ lane ∈ eligible, lanes.peek eligible release duration =
      (lane, Windows.firstClear (lanes.getD lane []) release duration) := by
  have hne : eligible.map (fun lane => (lane, lanes.earliest lane release duration)) ≠ [] := by
    simpa using hne
  obtain ⟨placed, hplaced⟩ := minBy_isSome (fun a b : ℕ × 𝕜 => compare a.2 b.2) hne
  obtain ⟨lane, hlane, rfl⟩ := List.mem_map.mp (minBy_mem hplaced)
  refine ⟨lane, hlane, ?_⟩
  rw [Lanes.peek, hplaced]
  rfl

/-- **What is placed** starts after its release, on a lane that is clear. -/
theorem Placed.Booked.peek (h : s.Booked policy.lanes) (hlanes : 0 < policy.lanes) (stage : Stage)
    (release : 𝕜) {duration : 𝕜} (hduration : 0 ≤ duration) :
    ∃ lane start, s.lanes.peek (policy.eligible stage) release duration = (lane, start) ∧
      lane < policy.lanes ∧ release ≤ start ∧
      (⟨s.lanes.commit lane start duration,
        s.proofs ++ [⟨stage, lane, start, start + duration, duration⟩]⟩ : Placed 𝕜).Booked
          policy.lanes := by
  obtain ⟨hne, hlt⟩ := eligible_choice hlanes stage
  obtain ⟨lane, hlane, hpeek⟩ : ∃ lane ∈ policy.eligible stage,
      s.lanes.peek (policy.eligible stage) release duration = (lane, _) :=
    Lanes.peek_eq hne release duration
  refine ⟨lane, _, hpeek, hlt lane hlane, Windows.le_firstClear _ _ _, ?_⟩
  exact h.book (p := ⟨stage, lane, _, _, duration⟩) (hlt lane hlane)
    (le_add_of_nonneg_right hduration) (Windows.firstClear_clear (h.ordered lane) _ _)

theorem Placed.Booked.place (h : s.Booked policy.lanes) (hlanes : 0 < policy.lanes) (stage : Stage)
    (release : 𝕜) {duration : 𝕜} (hduration : 0 ≤ duration) :
    ∃ p : ScheduledProof 𝕜, p.stage = stage ∧ release ≤ p.startS ∧
      (s.place policy stage release duration).1.proofs = s.proofs ++ [p] ∧
      (s.place policy stage release duration).2 = p.endS ∧
      (s.place policy stage release duration).1.Booked policy.lanes := by
  obtain ⟨lane, start, hpeek, -, hrelease, hbooked⟩ := h.peek hlanes stage release hduration
  have hplace : s.place policy stage release duration = (⟨s.lanes.commit lane start duration,
      s.proofs ++ [⟨stage, lane, start, start + duration, duration⟩]⟩, start + duration) := by
    simp only [Placed.place, Lanes.place, hpeek]
  rw [hplace]
  exact ⟨⟨stage, lane, start, start + duration, duration⟩, rfl, hrelease, rfl, rfl, hbooked⟩

/-! ## Groups -/

/-- When the last unit of a group has arrived. -/
def groupRelease (units : List (SlotComplement P)) (policy : StreamPolicy 𝕜)
    (members : List ℕ) : 𝕜 :=
  (members.getLast?).elim 0 (arrival units policy)

/-- The groups of a partition, placed in turn. -/
structure GroupsPlaced (units : List (SlotComplement P)) (policy : StreamPolicy 𝕜)
    (groups : List (List ℕ)) (placed : Placed 𝕜 × List 𝕜) : Prop where
  booked : placed.1.Booked policy.lanes
  stages : placed.1.proofs.map (·.stage) = (List.range groups.length).map .group
  ends : placed.2.length = groups.length
  group : ∀ p ∈ placed.1.proofs, ∀ i, p.stage = .group i → placed.2.getD i 0 = p.endS ∧
    ∃ members, groups[i]? = some members ∧ groupRelease units policy members ≤ p.startS

theorem placeGroups (units : List (SlotComplement P)) (hlanes : 0 < policy.lanes)
    (hprover : policy.prover.Nonneg) (groups : List (List ℕ)) :
    GroupsPlaced units policy groups (groups.zipIdx.foldl (placeGroup units policy)
      (⟨List.replicate policy.lanes [], []⟩, [])) := by
  induction groups using List.reverseRecOn with
  | nil => exact ⟨.empty _, rfl, rfl, fun p hp => by cases hp⟩
  | append_singleton groups members ih =>
      rw [List.zipIdx_append, List.foldl_append]
      generalize groups.zipIdx.foldl (placeGroup units policy)
        (⟨List.replicate policy.lanes [], []⟩, []) = before at ih ⊢
      obtain ⟨p, hstage, hrelease, hproofs, hend, hbooked⟩ := ih.booked.place hlanes
        (.group groups.length) (groupRelease units policy members)
        (hprover.group (named units members) members.length (messages units members))
      rw [List.zipIdx_singleton, Nat.zero_add, List.foldl_cons, List.foldl_nil]
      refine ⟨hbooked, ?_, ?_, ?_⟩
      · show List.map _ (before.1.place policy (.group groups.length)
          (groupRelease units policy members) _).1.proofs = _
        rw [hproofs, List.map_append, ih.stages, List.length_append, List.length_singleton,
          List.range_succ, List.map_append, List.map_singleton, List.map_singleton, hstage]
      · show (before.2 ++ [_]).length = _
        rw [List.length_append, List.length_append, ih.ends]
        rfl
      · intro q hq i hi
        show (before.2 ++ [_]).getD i 0 = q.endS ∧ _
        rw [List.getD_eq_getElem?_getD]
        have hq : q ∈ before.1.proofs ++ [p] := hproofs ▸ hq
        rcases List.mem_append.mp hq with hq | hq
        · obtain ⟨hends, earlier, hgroup, hstart⟩ := ih.group q hq i hi
          have hlt : i < groups.length := (List.getElem?_eq_some_iff.mp hgroup).1
          rw [List.getElem?_append_left (ih.ends.symm ▸ hlt), List.getElem?_append_left hlt,
            ← List.getD_eq_getElem?_getD]
          exact ⟨hends, earlier, hgroup, hstart⟩
        · obtain rfl := List.mem_singleton.mp hq
          obtain rfl : groups.length = i := Stage.group.inj (hstage.symm.trans hi)
          rw [← ih.ends, List.getElem?_concat_length, ih.ends, List.getElem?_concat_length]
          exact ⟨hend, members, rfl, hrelease⟩

/-! ## Folds -/

/-- The fold chain so far, over the proofs placed before it. -/
structure Folding (lanes : ℕ) (groupEnd : ℕ → 𝕜) (all : List ℕ)
    (base : List (ScheduledProof 𝕜)) (s : Placed 𝕜) (chainFree : 𝕜) (folds : List (List ℕ))
    (order : List ℕ) : Prop where
  booked : s.Booked lanes
  chain : ∃ chain, s.proofs = base ++ chain ∧
    chain.map (·.stage) = (List.range folds.length).map .fold
  taken : folds.flatten ++ order = all
  landed : ∀ i ∈ folds.flatten, groupEnd i ≤ chainFree
  fold : ∀ p ∈ s.proofs, ∀ k, p.stage = .fold k → p.endS ≤ chainFree ∧
    (∃ batch, folds[k]? = some batch ∧ ∀ i ∈ batch, groupEnd i ≤ p.startS) ∧
    ∀ j < k, ∀ q ∈ s.proofs, q.stage = .fold j → q.endS ≤ p.startS

/-- One fold more. -/
theorem Folding.step {groupEnd : ℕ → 𝕜} {all : List ℕ} {base : List (ScheduledProof 𝕜)}
    {chainFree ready start : 𝕜} {folds : List (List ℕ)} {order batch rest : List ℕ} {lane : ℕ}
    {duration : 𝕜} (h : Folding policy.lanes groupEnd all base s chainFree folds order)
    (hduration : 0 ≤ duration) (hready : chainFree ≤ ready) (hstart : ready ≤ start)
    (hbatch : ∀ i ∈ batch, groupEnd i ≤ ready) (horder : batch ++ rest = order)
    (hbooked : (⟨s.lanes.commit lane start duration,
      s.proofs ++ [⟨.fold folds.length, lane, start, start + duration, duration⟩]⟩ :
        Placed 𝕜).Booked policy.lanes) :
    Folding policy.lanes groupEnd all base ⟨s.lanes.commit lane start duration,
      s.proofs ++ [⟨.fold folds.length, lane, start, start + duration, duration⟩]⟩
        (start + duration) (folds ++ [batch]) rest := by
  have hend : start ≤ start + duration := le_add_of_nonneg_right hduration
  refine ⟨hbooked, ?_, ?_, ?_, ?_⟩
  · obtain ⟨chain, hproofs, hstages⟩ := h.chain
    refine ⟨chain ++ [⟨.fold folds.length, lane, start, start + duration, duration⟩], ?_, ?_⟩
    · rw [hproofs, List.append_assoc]
    · rw [List.map_append, hstages, List.length_append, List.length_singleton, List.range_succ,
        List.map_append]
      rfl
  · rw [List.flatten_append, List.flatten_cons, List.flatten_nil, List.append_nil,
      List.append_assoc, horder, h.taken]
  -- a group that was folded before has landed, one of this batch lands before the fold is ready
  · intro i hi
    rw [List.flatten_append, List.flatten_cons, List.flatten_nil, List.append_nil] at hi
    rcases List.mem_append.mp hi with hi | hi
    · exact (h.landed i hi).trans (hready.trans (hstart.trans hend))
    · exact (hbatch i hi).trans (hstart.trans hend)
  · intro p hp k hk
    rcases List.mem_append.mp hp with hp | hp
    · obtain ⟨hfree, ⟨earlier, hfold, hgroups⟩, hfolds⟩ := h.fold p hp k hk
      have hlt : k < folds.length := (List.getElem?_eq_some_iff.mp hfold).1
      refine ⟨hfree.trans (hready.trans (hstart.trans hend)), ⟨earlier, ?_, hgroups⟩, ?_⟩
      · rw [List.getElem?_append_left hlt, hfold]
      · intro j hj q hq hqj
        rcases List.mem_append.mp hq with hq | hq
        · exact hfolds j hj q hq hqj
        · -- the new fold is none of the earlier ones
          obtain rfl := List.mem_singleton.mp hq
          have hnew : folds.length = j := Stage.fold.inj hqj
          omega
    · obtain rfl := List.mem_singleton.mp hp
      obtain rfl : folds.length = k := Stage.fold.inj hk
      refine ⟨le_rfl, ⟨batch, List.getElem?_concat_length, fun i hi =>
        (hbatch i hi).trans hstart⟩, ?_⟩
      intro j hj q hq hqj
      rcases List.mem_append.mp hq with hq | hq
      · exact (h.fold q hq j hqj).1.trans (hready.trans hstart)
      · obtain rfl := List.mem_singleton.mp hq
        have hnew : folds.length = j := Stage.fold.inj hqj
        omega

/-- The whole chain. -/
theorem Folding.run {groupEnd : ℕ → 𝕜} {all : List ℕ} {base : List (ScheduledProof 𝕜)}
    (deadlineS : 𝕜) (hlanes : 0 < policy.lanes) (hprover : policy.prover.Nonneg) : ∀ (fuel : ℕ)
    {s : Placed 𝕜} {chainFree : 𝕜} {folds : List (List ℕ)} {order : List ℕ},
      Folding policy.lanes groupEnd all base s chainFree folds order →
        ∃ s' chainFree' folds' order', foldChain policy groupEnd deadlineS fuel s chainFree folds
            order = (s', chainFree', folds', order') ∧
          Folding policy.lanes groupEnd all base s' chainFree' folds' order' := by
  intro fuel
  induction fuel with
  | zero => exact fun h => ⟨_, _, _, _, rfl, h⟩
  | succ fuel ih =>
      intro s chainFree folds order h
      cases order with
      | nil => exact ⟨_, _, _, _, rfl, h⟩
      | cons first rest =>
          obtain ⟨lane, start, hpeek, -, hstart, hbooked⟩ := h.booked.peek hlanes
            (.fold folds.length) (max (groupEnd first) chainFree) (hprover.fold
              ((first :: rest).takeWhile (groupEnd · ≤ max (groupEnd first) chainFree)).length
              folds.isEmpty)
          simp only [foldChain, hpeek]
          split
          · exact ⟨_, _, _, _, rfl, h⟩
          · apply ih
            apply h.step (hprover.fold _ _) (le_max_right _ _) hstart _
              List.takeWhile_append_dropWhile hbooked
            intro i hi
            simpa using List.mem_takeWhile_imp hi

omit [AddCommGroup 𝕜] [IsOrderedAddMonoid 𝕜] in
/-- What is placed before the fold chain or else is a fold. -/
theorem Folding.mem {lanes : ℕ} {groupEnd : ℕ → 𝕜} {all : List ℕ}
    {base : List (ScheduledProof 𝕜)} {chainFree : 𝕜} {folds : List (List ℕ)} {order : List ℕ}
    (h : Folding lanes groupEnd all base s chainFree folds order) {p : ScheduledProof 𝕜}
    (hp : p ∈ s.proofs) : p ∈ base ∨ ∃ k, p.stage = .fold k := by
  obtain ⟨chain, hproofs, hstages⟩ := h.chain
  rcases List.mem_append.mp (hproofs ▸ hp) with hp | hp
  · exact .inl hp
  · have hfold : p.stage ∈ (List.range folds.length).map Stage.fold :=
      hstages ▸ List.mem_map_of_mem hp
    obtain ⟨k, -, hk⟩ := List.mem_map.mp hfold
    exact .inr ⟨k, hk.symm⟩

omit [IsOrderedAddMonoid 𝕜] in
theorem GroupsPlaced.stage {units : List (SlotComplement P)} {groups : List (List ℕ)}
    {placed : Placed 𝕜 × List 𝕜} (h : GroupsPlaced units policy groups placed)
    {p : ScheduledProof 𝕜} (hp : p ∈ placed.1.proofs) :
    ∃ i < groups.length, p.stage = .group i := by
  have hgroup : p.stage ∈ (List.range groups.length).map Stage.group :=
    h.stages ▸ List.mem_map_of_mem hp
  obtain ⟨i, hlt, hi⟩ := List.mem_map.mp hgroup
  exact ⟨i, List.mem_range.mp hlt, hi.symm⟩

omit [IsOrderedAddMonoid 𝕜] in
/-- The fold chain starts on the groups that are placed. -/
theorem GroupsPlaced.folding {units : List (SlotComplement P)} {groups : List (List ℕ)}
    {placed : Placed 𝕜 × List 𝕜} (h : GroupsPlaced units policy groups placed)
    (groupEnd : ℕ → 𝕜) (order : List ℕ) :
    Folding policy.lanes groupEnd order placed.1.proofs placed.1 0 [] order where
  booked := h.booked
  chain := ⟨[], (List.append_nil _).symm, rfl⟩
  taken := rfl
  landed _ hi := by cases hi
  fold p hp k hk := by
    obtain ⟨i, -, hi⟩ := h.stage hp
    cases hi.symm.trans hk

/-! ## The committee -/

/-- Proofs of these stages are placed after all that is there. -/
def Placed.Appends (policy : StreamPolicy 𝕜) (s s' : Placed 𝕜) (stages : List Stage) : Prop :=
  s'.Booked policy.lanes ∧ ∃ proofs, s'.proofs = s.proofs ++ proofs ∧
    proofs.map (·.stage) = stages

omit [AddCommGroup 𝕜] [IsOrderedAddMonoid 𝕜] in
theorem Placed.Appends.trans {s s' s'' : Placed 𝕜} {stages stages' : List Stage}
    (h : s.Appends policy s' stages) (h' : s'.Appends policy s'' stages') :
    s.Appends policy s'' (stages ++ stages') := by
  obtain ⟨-, proofs, hproofs, hstages⟩ := h
  obtain ⟨hbooked, proofs', hproofs', hstages'⟩ := h'
  refine ⟨hbooked, proofs ++ proofs', ?_, ?_⟩
  · rw [hproofs', hproofs, List.append_assoc]
  · rw [List.map_append, hstages, hstages']

theorem Placed.Booked.place_appends (h : s.Booked policy.lanes) (hlanes : 0 < policy.lanes)
    (stage : Stage) (release : 𝕜) {duration : 𝕜} (hduration : 0 ≤ duration) :
    s.Appends policy (s.place policy stage release duration).1 [stage] := by
  obtain ⟨p, hstage, -, hproofs, -, hbooked⟩ := h.place hlanes stage release hduration
  exact ⟨hbooked, [p], hproofs, by rw [List.map_singleton, hstage]⟩

omit [LinearOrder 𝕜] [AddCommGroup 𝕜] [IsOrderedAddMonoid 𝕜] in
/-- A committee proof is for a chunk or folds them. -/
theorem mem_committeeStages {stage : Stage} (h : stage ∈ committeeStages policy) :
    (∃ chunk, stage = .committee chunk) ∨ stage = .committeeFold := by
  unfold committeeStages at h
  split at h
  · rcases List.mem_append.mp h with h | h
    · obtain ⟨chunk, -, rfl⟩ := List.mem_map.mp h
      exact .inl ⟨chunk, rfl⟩
    · split at h
      · exact .inr (List.mem_singleton.mp h)
      · cases h
  · cases h

theorem placeCommittee_appends (h : s.Booked policy.lanes) (hlanes : 0 < policy.lanes)
    (hprover : policy.prover.Nonneg) :
    s.Appends policy (placeCommittee policy s).1 (committeeStages policy) := by
  have hchunks : ∀ n, s.Appends policy ((List.range n).foldl (fun (s : Placed 𝕜 × 𝕜) chunk =>
      let chunkPlaced := s.1.place policy (.committee chunk) 0
        (policy.prover.committeeChunkS policy.committeeChunks)
      (chunkPlaced.1, max s.2 chunkPlaced.2)) (s, 0)).1 ((List.range n).map .committee) := by
    intro n
    induction n with
    | zero => exact ⟨h, [], (List.append_nil _).symm, rfl⟩
    | succ n ih =>
        rw [List.range_succ, List.foldl_append, List.map_append]
        exact ih.trans (ih.1.place_appends hlanes (.committee n) 0 (hprover.committeeChunk _))
  unfold placeCommittee committeeStages
  cases policy.owesCommittee with
  | false => exact ⟨h, [], (List.append_nil _).symm, rfl⟩
  | true =>
      simp only [Bool.not_true, Bool.false_eq_true, if_false, if_true]
      split
      · exact (hchunks _).trans ((hchunks _).1.place_appends hlanes .committeeFold _
          (hprover.committeeFold _))
      · rw [List.append_nil]
        exact hchunks _

/-! ## The final proof and its wrap -/

omit [AddCommGroup 𝕜] [IsOrderedAddMonoid 𝕜] in
theorem le_foldl_max {l : List 𝕜} {a b : 𝕜} (h : b ∈ a :: l) : b ≤ l.foldl max a := by
  induction l generalizing a b with
  | nil => exact (List.mem_singleton.mp h).le
  | cons c l ih =>
      rw [List.foldl_cons]
      have hmax : max a c ≤ l.foldl max (max a c) := ih List.mem_cons_self
      rcases List.mem_cons.mp h with rfl | h
      · exact (le_max_left _ _).trans hmax
      · rcases List.mem_cons.mp h with rfl | h
        · exact (le_max_right _ _).trans hmax
        · exact ih (List.mem_cons_of_mem _ h)

/-- The wrap follows on the lane of the final proof, where nothing ends later. -/
theorem Placed.Booked.final (h : s.Booked policy.lanes) (hlanes : 0 < policy.lanes)
    {release duration wrapS : 𝕜} (hduration : 0 ≤ duration) (hwrap : 0 ≤ wrapS)
    (hends : ∀ p ∈ s.proofs, p.endS ≤ release) :
    ∃ lane start, s.lanes.peek (policy.eligible .final) release duration = (lane, start) ∧
      release ≤ start ∧
      s.Appends policy ⟨(s.lanes.commit lane start duration).commit lane (start + duration) wrapS,
        s.proofs ++ [⟨.final, lane, start, start + duration, duration⟩,
          ⟨.wrap, lane, start + duration, start + duration + wrapS, wrapS⟩]⟩ [.final, .wrap] := by
  obtain ⟨lane, start, hpeek, hlane, hstart, hbooked⟩ := h.peek hlanes .final release hduration
  refine ⟨lane, start, hpeek, hstart, ?_, _, rfl, rfl⟩
  have hclear : Windows.Clear ((s.lanes.commit lane start duration).getD lane [])
      (start + duration) (start + duration + wrapS) := by
    intro w hw
    right
    obtain ⟨p, hp, -, rfl⟩ := (hbooked.windows lane w).mp hw
    rcases List.mem_append.mp hp with hp | hp
    · exact (hends p hp).trans (hstart.trans (le_add_of_nonneg_right hduration))
    · obtain rfl := List.mem_singleton.mp hp
      exact le_rfl
  have hwrapped := hbooked.book
    (p := ⟨.wrap, lane, start + duration, start + duration + wrapS, wrapS⟩) hlane
    (le_add_of_nonneg_right hwrap) hclear
  rw [List.append_assoc] at hwrapped
  exact hwrapped

/-- What is left to do once everything is released: the final proof, its wrap, the committee. -/
theorem Placed.Booked.finish (h : s.Booked policy.lanes) (hlanes : 0 < policy.lanes)
    (hprover : policy.prover.Nonneg) {release duration : 𝕜} (hduration : 0 ≤ duration)
    (hends : ∀ p ∈ s.proofs, p.endS ≤ release) :
    ∃ lane start, s.lanes.peek (policy.eligible .final) release duration = (lane, start) ∧
      (placeCommittee policy ⟨(s.lanes.commit lane start duration).commit lane (start + duration)
        policy.prover.wrapS, s.proofs ++ [⟨.final, lane, start, start + duration, duration⟩,
          ⟨.wrap, lane, start + duration, start + duration + policy.prover.wrapS,
            policy.prover.wrapS⟩]⟩).1.Booked policy.lanes ∧
      ∃ late, (placeCommittee policy ⟨(s.lanes.commit lane start duration).commit lane
          (start + duration) policy.prover.wrapS,
            s.proofs ++ [⟨.final, lane, start, start + duration, duration⟩,
              ⟨.wrap, lane, start + duration, start + duration + policy.prover.wrapS,
                policy.prover.wrapS⟩]⟩).1.proofs = s.proofs ++ late ∧
        late.map (·.stage) = [.final, .wrap] ++ committeeStages policy ∧
        ∀ p ∈ late, p.stage = .final → release ≤ p.startS := by
  obtain ⟨lane, start, hpeek, hstart, hfinal⟩ := h.final hlanes hduration hprover.wrap hends
  obtain ⟨hbooked, committee, hproofs, hstages⟩ :=
    placeCommittee_appends hfinal.1 hlanes hprover
  refine ⟨lane, start, hpeek, hbooked, _, by rw [hproofs, List.append_assoc], ?_, ?_⟩
  · rw [List.map_append, hstages]
    rfl
  · intro p hp hstage
    rcases List.mem_append.mp hp with hp | hp
    · rcases List.mem_cons.mp hp with rfl | hp
      · exact hstart
      · obtain rfl := List.mem_singleton.mp hp
        cases hstage
    · have hmem : p.stage ∈ committeeStages policy := hstages ▸ List.mem_map_of_mem hp
      rcases mem_committeeStages hmem with ⟨chunk, hchunk⟩ | hchunk
      · cases hchunk.symm.trans hstage
      · cases hchunk.symm.trans hstage

omit [LinearOrder 𝕜] [AddCommGroup 𝕜] [IsOrderedAddMonoid 𝕜] in
/-- Past the fold chain there are no groups and no folds. -/
theorem late_stage {late : List (ScheduledProof 𝕜)} {p : ScheduledProof 𝕜}
    (h : late.map (·.stage) = [.final, .wrap] ++ committeeStages policy) (hp : p ∈ late) :
    (∀ i, p.stage ≠ .group i) ∧ ∀ k, p.stage ≠ .fold k := by
  have hmem : p.stage ∈ [.final, .wrap] ++ committeeStages policy := h ▸ List.mem_map_of_mem hp
  rcases List.mem_append.mp hmem with hmem | hmem
  · rcases List.mem_cons.mp hmem with hstage | hmem
    · simp [hstage]
    · simp [List.mem_singleton.mp hmem]
  · rcases mem_committeeStages hmem with ⟨chunk, hstage⟩ | hstage
    · simp [hstage]
    · simp [hstage]

/-! ## A partition, placed -/

omit [IsOrderedAddMonoid 𝕜] in
/-- All there is ends by the time the chain and the groups it leaves are done. -/
theorem Folding.ends_le {units : List (SlotComplement P)} {groups : List (List ℕ)}
    {placed : Placed 𝕜 × List 𝕜} {chainFree : 𝕜} {folds : List (List ℕ)} {all order : List ℕ}
    (hgroups : GroupsPlaced units policy groups placed) (hall : all.Perm (List.range groups.length))
    (h : Folding policy.lanes (placed.2.getD · 0) all placed.1.proofs s chainFree folds order)
    {release : 𝕜} (hchain : chainFree ≤ release)
    (hleft : ∀ i ∈ order, placed.2.getD i 0 ≤ release) : ∀ p ∈ s.proofs, p.endS ≤ release := by
  intro p hp
  rcases h.mem hp with hbase | ⟨k, hk⟩
  · obtain ⟨i, hlt, hi⟩ := hgroups.stage hbase
    rw [← (hgroups.group p hbase i hi).1]
    -- the group is folded or it is left to the final proof
    have hmem : i ∈ folds.flatten ++ order := by
      rw [h.taken]
      exact hall.mem_iff.mpr (List.mem_range.mpr hlt)
    rcases List.mem_append.mp hmem with hmem | hmem
    · exact (h.landed i hmem).trans hchain
    · exact hleft i hmem
  · exact (h.fold p hp k hk).1.trans hchain

theorem simulate_wellPlaced {units : List (SlotComplement P)} {groups : List (List ℕ)}
    (hlanes : 0 < policy.lanes) (hprover : policy.prover.Nonneg)
    (harrived : ∀ members ∈ groups, ∀ unit ∈ members,
      arrival units policy unit ≤ groupRelease units policy members)
    (tail : List ℕ) (thresholdS : 𝕜) :
    (simulate units groups tail thresholdS policy).WellPlaced units policy := by
  have hgroups := placeGroups units hlanes hprover groups
  unfold simulate
  generalize groups.zipIdx.foldl (placeGroup units policy)
    (⟨List.replicate policy.lanes [], []⟩, []) = placed at hgroups ⊢
  obtain ⟨base, ends⟩ := placed
  dsimp only
  generalize hdeadline :
    ((tail ++ groups.flatten).map (arrival units policy)).foldl max 0 = deadlineS
  have horder : ((List.range groups.length).insertionSort
      (fun a b => ends.getD a 0 ≤ ends.getD b 0)).Perm (List.range groups.length) :=
    List.perm_insertionSort _ _
  generalize (List.range groups.length).insertionSort
    (fun a b => ends.getD a 0 ≤ ends.getD b 0) = order at horder ⊢
  obtain ⟨s, chainFree, folds, unfolded, hrun, hfolding⟩ :=
    Folding.run deadlineS hlanes hprover order.length
      (hgroups.folding (ends.getD · 0) order)
  rw [hrun]
  dsimp only
  -- the final proof waits for everything
  have hrelease : ∀ t ∈ max deadlineS chainFree :: unfolded.map (ends.getD · 0),
      t ≤ (unfolded.map (ends.getD · 0)).foldl max (max deadlineS chainFree) :=
    fun t ht => le_foldl_max ht
  generalize (unfolded.map (ends.getD · 0)).foldl max (max deadlineS chainFree) = release
    at hrelease ⊢
  obtain ⟨hearly, hleft⟩ := List.forall_mem_cons.mp hrelease
  have hleft : ∀ i ∈ unfolded, ends.getD i 0 ≤ release :=
    fun i hi => hleft _ (List.mem_map_of_mem hi)
  obtain ⟨hdeadlineS, hchain⟩ := max_le_iff.mp hearly
  obtain ⟨lane, start, hpeek, hbooked, late, hproofs, hstages, hfinal⟩ :=
    hfolding.booked.finish hlanes hprover
      (hprover.final (named units tail) tail.length (messages units tail) unfolded.length
        (!folds.isEmpty)) (hfolding.ends_le hgroups horder hchain hleft)
  rw [hpeek]
  dsimp only
  generalize placeCommittee policy _ = done at hbooked hproofs ⊢
  obtain ⟨done, committeeDoneS⟩ := done
  dsimp only at hbooked hproofs ⊢
  have hperm := List.perm_insertionSort (fun a b => a.startS ≤ b.startS) done.proofs
  have hfold : ∀ p ∈ done.proofs, ∀ k, p.stage = .fold k → p ∈ s.proofs := by
    intro p hp k hk
    rcases List.mem_append.mp (hproofs ▸ hp) with hp | hp
    · exact hp
    · exact absurd hk ((late_stage hstages hp).2 k)
  have hgroup : ∀ p ∈ done.proofs, ∀ i, p.stage = .group i → p ∈ base.proofs := by
    intro p hp i hi
    rcases List.mem_append.mp (hproofs ▸ hp) with hp | hp
    · rcases hfolding.mem hp with hbase | ⟨k, hk⟩
      · exact hbase
      · cases hk.symm.trans hi
    · exact absurd hi ((late_stage hstages hp).1 i)
  refine ⟨?_, fun _ => ?_, ?_, ?_, ?_, ?_, ?_⟩
  · show (folds.flatten ++ unfolded).Perm _
    rw [hfolding.taken]
    exact horder
  · obtain ⟨chain, hchained, hfolds⟩ := hfolding.chain
    have hall : done.proofs.map (·.stage) = (List.range groups.length).map .group ++
        (List.range folds.length).map .fold ++ [.final, .wrap] ++ committeeStages policy := by
      rw [hproofs, hchained, List.map_append, List.map_append, hgroups.stages, hfolds, hstages,
        ← List.append_assoc]
    exact (hperm.map _).trans (.of_eq hall)
  · exact fun p hp => hbooked.lasts p (hperm.mem_iff.mp hp)
  · exact (hperm.pairwise_iff fun h heq => (h heq.symm).symm).mpr hbooked.apart
  · intro p hp i hi
    obtain ⟨-, members, hmembers, hstart⟩ :=
      hgroups.group p (hgroup p (hperm.mem_iff.mp hp) i hi) i hi
    exact ⟨members, hmembers, fun unit hunit =>
      (harrived members (List.mem_of_getElem? hmembers) unit hunit).trans hstart⟩
  · intro p hp k hk
    obtain ⟨-, ⟨batch, hbatch, hready⟩, hbefore⟩ :=
      hfolding.fold p (hfold p (hperm.mem_iff.mp hp) k hk) k hk
    refine ⟨batch, hbatch, ?_, ?_⟩
    · intro i hi q hq hqi
      rw [← (hgroups.group q (hgroup q (hperm.mem_iff.mp hq) i hqi) i hqi).1]
      exact hready i hi
    · intro j hj q hq hqj
      exact hbefore j hj q (hfold q (hperm.mem_iff.mp hq) j hqj) hqj
  · intro p hp hstage
    have hstart : release ≤ p.startS := by
      rcases List.mem_append.mp (hproofs ▸ hperm.mem_iff.mp hp) with hp | hp
      · rcases hfolding.mem hp with hbase | ⟨k, hk⟩
        · obtain ⟨i, -, hi⟩ := hgroups.stage hbase
          cases hi.symm.trans hstage
        · cases hk.symm.trans hstage
      · exact hfinal p hp hstage
    refine ⟨?_, ?_, ?_⟩
    · intro k q hq hqk
      exact ((hfolding.fold q (hfold q (hperm.mem_iff.mp hq) k hqk) k hqk).1.trans hchain).trans
        hstart
    · intro i hi q hq hqi
      rw [← (hgroups.group q (hgroup q (hperm.mem_iff.mp hq) i hqi) i hqi).1]
      exact (hleft i hi).trans hstart
    · intro unit hunit
      have harrival : arrival units policy unit ≤ deadlineS := by
        rw [← hdeadline]
        apply le_foldl_max
        exact List.mem_cons_of_mem _ (List.mem_map_of_mem (List.mem_append_left _ hunit))
      exact (harrival.trans hdeadlineS).trans hstart

/-! ## The plan -/

theorem arrival_mono {units : List (SlotComplement P)}
    (hslots : (units.map (·.slot)).Pairwise (· ≤ ·)) (hseconds : 0 ≤ policy.secondsPerSlot)
    {i j : ℕ} (hij : i ≤ j) (hj : j < units.length) :
    arrival units policy i ≤ arrival units policy j := by
  have hmono : ∀ {i j : ℕ}, i ≤ j → j < units.length →
      ((units[i]?).elim 0 (·.slot)).toNat ≤ ((units[j]?).elim 0 (·.slot)).toNat := by
    intro i j hij hj
    rw [List.getElem?_eq_getElem (hij.trans_lt hj), List.getElem?_eq_getElem hj]
    rcases hij.eq_or_lt with rfl | hlt
    · exact le_rfl
    · have hpair := List.pairwise_iff_getElem.mp hslots i j (by simpa using hij.trans_lt hj)
        (by simpa using hj) hlt
      simpa using UInt64.le_iff_toNat_le.mp hpair
  apply nsmul_le_nsmul_left hseconds
  -- no slot lies before the first
  have hfirst := hmono (Nat.zero_le i) (hij.trans_lt hj)
  have hboth := hmono hij hj
  rw [UInt64.toNat_sub_of_le _ _ (UInt64.le_iff_toNat_le.mpr hfirst),
    UInt64.toNat_sub_of_le _ _ (UInt64.le_iff_toNat_le.mpr (hfirst.trans hboth))]
  exact Nat.sub_le_sub_right hboth _

/-- The last unit of a group arrives last. -/
theorem arrival_le_groupRelease {units : List (SlotComplement P)}
    (hslots : (units.map (·.slot)).Pairwise (· ≤ ·)) (hseconds : 0 ≤ policy.secondsPerSlot)
    {groups : List (List ℕ)} {n : ℕ} (hflatten : groups.flatten = List.range n)
    (hn : n ≤ units.length) : ∀ members ∈ groups, ∀ unit ∈ members,
      arrival units policy unit ≤ groupRelease units policy members := by
  intro members hmembers unit hunit
  have hordered : members.Pairwise (· < ·) := by
    have hall : groups.flatten.Pairwise (· < ·) := hflatten ▸ List.pairwise_lt_range
    exact (List.pairwise_flatten.mp hall).1 members hmembers
  have hne : members ≠ [] := List.ne_nil_of_mem hunit
  have hlast : members.getLast hne < n := by
    rw [← List.mem_range, ← hflatten]
    exact List.mem_flatten_of_mem hmembers (List.getLast_mem hne)
  rw [groupRelease, List.getLast?_eq_some_getLast hne]
  apply arrival_mono hslots hseconds _ (hlast.trans_le hn)
  exact (hordered.imp le_of_lt).rel_getLast hunit

omit [LinearOrder 𝕜] [AddCommGroup 𝕜] [IsOrderedAddMonoid 𝕜] in
/-- A plan proves no unit that is not there. -/
theorem coverage_le {units : List (SlotComplement P)} (hne : units ≠ []) (target : ℕ) :
    (crossing units target).getD (units.length - 1) + 1 ≤ units.length := by
  have hpos : 0 < units.length := List.length_pos_iff.mpr hne
  cases hcrossing : crossing units target with
  | none =>
      rw [Option.getD_none]
      omega
  | some c => exact (crossing_eq_some.mp hcrossing).1

/-- Every schedule the search weighs is placed. -/
theorem candidates_wellPlaced {units : List (SlotComplement P)} {last maxTail : ℕ}
    {thresholdS : 𝕜} {s : Schedule 𝕜} (hlanes : 0 < policy.lanes) (hprover : policy.prover.Nonneg)
    (hslots : (units.map (·.slot)).Pairwise (· ≤ ·)) (hseconds : 0 ≤ policy.secondsPerSlot)
    (hlast : last + 1 ≤ units.length)
    (h : s ∈ candidates units last maxTail thresholdS policy) :
    s.WellPlaced units policy ∧ ∀ members ∈ s.plan.groups, members ≠ [] := by
  obtain ⟨inline, -, hinline⟩ := List.mem_flatMap.mp h
  obtain ⟨groups, hgroups, rfl⟩ := List.mem_map.mp hinline
  have harrived := arrival_le_groupRelease hslots hseconds (search_flatten hgroups)
    ((Nat.sub_le _ _).trans hlast)
  exact ⟨simulate_wellPlaced hlanes hprover harrived _ _, search_nonempty hgroups⟩

theorem withLanes_wellFormed {units : List (SlotComplement P)} {totalActiveBalance : UInt64}
    {maxTail : ℕ} {s : Schedule 𝕜} (hlanes : 0 < policy.lanes) (hprover : policy.prover.Nonneg)
    (hslots : (units.map (·.slot)).Pairwise (· ≤ ·)) (hseconds : 0 ≤ policy.secondsPerSlot)
    (h : withLanes units totalActiveBalance policy maxTail = some s) :
    s.WellFormed units totalActiveBalance policy := by
  by_cases hne : units = []
  · subst hne
    rw [withLanes, if_pos rfl] at h
    obtain rfl := Option.some.inj h
    constructor
    · constructor <;> simp [emptySchedule]
    · rw [coverage, if_pos rfl]
      rfl
    · rfl
    · simp [emptySchedule]
  · obtain ⟨hcovered, hreached⟩ := withLanes_covered hne h
    rw [withLanes, if_neg hne] at h
    obtain ⟨best, hbest, hret⟩ := Option.bind_eq_some_iff.mp h
    obtain rfl := Option.some.inj hret
    obtain ⟨hplaced, hnonempty⟩ := candidates_wellPlaced hlanes hprover hslots hseconds
      (coverage_le hne _) (minBy_mem hbest)
    refine ⟨?_, ?_, hreached, hnonempty⟩
    · exact ⟨hplaced.partition, hplaced.stages, hplaced.lasts, hplaced.apart, hplaced.group,
        hplaced.fold, hplaced.final⟩
    · rw [coverage, if_neg hne]
      exact hcovered

omit [IsOrderedAddMonoid 𝕜] in
/-- Neither the plan nor its times depend on how many lanes there could be. -/
theorem Schedule.WellFormed.budget {units : List (SlotComplement P)} {totalActiveBalance : UInt64}
    {s : Schedule 𝕜} {lanes : ℕ}
    (h : s.WellFormed units totalActiveBalance { policy with lanes := lanes }) :
    s.WellFormed units totalActiveBalance policy := by
  refine ⟨?_, h.covered, h.thresholdReached, h.nonempty⟩
  exact ⟨h.partition, h.stages, h.lasts, h.apart, h.group, h.fold, h.final⟩

/-- **Every schedule is well formed.** -/
theorem schedule_wellFormed {units : List (SlotComplement P)} (totalActiveBalance : UInt64)
    {policy : StreamPolicy 𝕜} (hprover : policy.prover.Nonneg)
    (hslots : (units.map (·.slot)).Pairwise (· ≤ ·)) (hseconds : 0 ≤ policy.secondsPerSlot) :
    ∃ s, schedule units totalActiveBalance policy = some s ∧
      s.WellFormed units totalActiveBalance policy := by
  obtain ⟨p, hp⟩ := plan_isSome units totalActiveBalance policy
  obtain ⟨s, hs, -⟩ := Option.map_eq_some_iff.mp hp
  obtain ⟨schedules, hschedules, hbest⟩ := Option.bind_eq_some_iff.mp hs
  obtain ⟨lane, -, hlane⟩ := exists_of_mem_mapM hschedules (minBy_mem hbest)
  have hlanes : 0 < ({ policy with lanes := lane + 1 } : StreamPolicy 𝕜).lanes := Nat.succ_pos lane
  exact ⟨s, hs, (withLanes_wellFormed hlanes hprover hslots hseconds hlane).budget⟩

end Place

end Zkasper.Streaming

namespace Zkasper.Formal

open Streaming

/-- A slot in which one validator is at stake. -/
def unitIn (slot : UInt64) : SlotComplement (formal {}) :=
  ⟨slot, ⟨slot % 32, ⟨key 0, 32⟩, [], [], []⟩, 32, []⟩

/-- Three lanes of one program each, and a committee proof in two chunks. -/
def specialised : StreamPolicy ℤ where
  thresholdNumerator := 2
  thresholdDenominator := 3
  secondsPerSlot := 12
  slotsPerEpoch := 32
  lanes := 3
  lanePool := .specialised
  owesCommittee := true
  committeeChunks := 2
  prover := ⟨fun _ _ _ => 7, fun _ _ => 3, fun _ _ _ _ _ => 5, 1, fun _ => 20, fun _ => 4⟩
  tenths := (10 * ·)

end Zkasper.Formal

namespace Zkasper.Streaming

open Formal

/-- Four slots, the third of which reaches two thirds. -/
theorem schedule_wellFormed_specialised :
    ∃ s, schedule [unitIn 64, unitIn 65, unitIn 66, unitIn 68] 144 specialised = some s ∧
      s.WellFormed [unitIn 64, unitIn 65, unitIn 66, unitIn 68] 144 specialised := by
  apply schedule_wellFormed 144
  · constructor <;> simp [specialised]
  · decide
  · decide

end Zkasper.Streaming
