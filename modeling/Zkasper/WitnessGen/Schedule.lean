import Zkasper.WitnessGen.Collector
import Mathlib.Algebra.Order.Group.Defs

/-! # Planning an epoch

How a list of slot complements is cut into group proofs, folds, absorbed groups and
an inline tail, and where every proof runs. Every partition a pruned dynamic program
keeps is placed on lanes, and the best schedule wins.

Seconds are any ordered group, and the prover's prices are parameters: the source
computes both in floating point, and nothing below depends on their values. What the
plan covers does not depend on them either: its groups and its tail are the units up
to the one that reaches the target, in order and each once (`plan_units`). -/

namespace Zkasper.Streaming

/-! ## Policy -/

/-- Whether a warm prover can run any stage or is pinned to one program. -/
inductive LanePool where
  | fungible
  | specialised
  deriving DecidableEq

/-- Which stage of the pipeline a scheduled proof is. -/
inductive Stage where
  | group (i : ℕ)
  | fold (i : ℕ)
  | final
  | wrap
  | committee (chunk : ℕ)
  | committeeFold

/-- What the prover charges. -/
structure ProverModel (𝕜 : Type) where
  groupS (named slots messages : ℕ) : 𝕜
  foldS (groups : ℕ) (opening : Bool) : 𝕜
  finalS (named slots messages absorbed : ℕ) (folded : Bool) : 𝕜
  wrapS : 𝕜
  committeeChunkS (chunks : ℕ) : 𝕜
  committeeFoldS (chunks : ℕ) : 𝕜

/-- How to cut an epoch. -/
structure StreamPolicy (𝕜 : Type) where
  thresholdNumerator : UInt64
  thresholdDenominator : UInt64
  secondsPerSlot : 𝕜
  slotsPerEpoch : UInt64
  lanes : ℕ
  lanePool : LanePool
  /-- `validators > 0.0` -/
  owesCommittee : Bool
  committeeChunks : ℕ
  prover : ProverModel 𝕜
  /-- Seconds in tenths, rounded: what two latencies are compared in. -/
  tenths : 𝕜 → ℤ

/-- Balance the circuit itself insists on. -/
def quorumBalance (totalActiveBalance : UInt64) : ℕ := (totalActiveBalance.toNat * 2 + 2) / 3

namespace StreamPolicy

variable {𝕜 : Type} (policy : StreamPolicy 𝕜)

/-- Balance at which the schedule stops collecting: a `u128` division, rounded up. -/
def targetBalance (totalActiveBalance : UInt64) : ℕ :=
  let scaled := totalActiveBalance.toNat * policy.thresholdNumerator.toNat
  (scaled + policy.thresholdDenominator.toNat - 1) / policy.thresholdDenominator.toNat

/-- Lanes each stage may run on, in the order it should prefer them. -/
def eligible (stage : Stage) : List ℕ :=
  let last := policy.lanes - 1
  let fold := last - 1
  let lanes := if policy.lanePool = .fungible then List.range policy.lanes
    else match stage with
      | .group _ | .committee _ => List.range (max fold 1)
      | .fold _ | .committeeFold => [fold]
      | .final | .wrap => [last]
  match stage with
  | .committee _ | .committeeFold => lanes.reverse
  | _ => lanes

end StreamPolicy

/-! ## Plans -/

/-- Which units go into which proof. -/
structure StreamPlan where
  /-- Units per group proof, as indices into the unit list. -/
  groups : List (List ℕ)
  /-- Groups each fold absorbs, as indices into `groups`. -/
  folds : List (List ℕ)
  /-- Groups the final proof verifies directly. -/
  absorbed : List ℕ
  /-- Units the final proof verifies inline. -/
  tail : List ℕ
  attestingBalance : UInt64
  thresholdReached : Bool

/-- One proof, and the lane and window it runs in. -/
structure ScheduledProof (𝕜 : Type) where
  stage : Stage
  lane : ℕ
  startS : 𝕜
  endS : 𝕜
  durationS : 𝕜

/-- A plan, placed on lanes and on the clock. -/
structure Schedule (𝕜 : Type) where
  plan : StreamPlan
  proofs : List (ScheduledProof 𝕜)
  lanes : ℕ
  thresholdS : 𝕜
  postableS : 𝕜
  committeeDoneS : 𝕜
  epochS : 𝕜
  totalProverS : 𝕜

/-- `Iterator::min_by`: the first of the least. -/
def minBy {α : Type} (compare : α → α → Ordering) : List α → Option α
  | [] => none
  | a :: as => some (as.foldl (fun best b => if compare best b = .gt then b else best) a)

theorem minBy_mem {α : Type} {compare : α → α → Ordering} {as : List α} {a : α}
    (h : minBy compare as = some a) : a ∈ as := by
  rcases as with _ | ⟨b, as⟩
  · cases h
  · obtain rfl := Option.some.inj h
    have hfold : ∀ (as : List α) (b : α),
        as.foldl (fun best b => if compare best b = .gt then b else best) b ∈ b :: as := by
      intro as
      induction as with
      | nil => intro b; exact List.mem_singleton.mpr rfl
      | cons c as ih =>
          intro b
          have hmem := ih (if compare b c = .gt then c else b)
          rcases List.mem_cons.mp hmem with heq | hmem
          · rw [List.foldl_cons, heq]
            split <;> simp
          · exact List.mem_cons_of_mem _ (List.mem_cons_of_mem _ hmem)
    exact hfold as b

section Planner

variable {P : Primitives} {𝕜 : Type} [LinearOrder 𝕜] [AddCommGroup 𝕜]

/-! ## Lanes -/

/-- Busy windows per lane. -/
abbrev Lanes (𝕜 : Type) := List (List (𝕜 × 𝕜))

namespace Lanes

/-- Earliest start at or after `release` that leaves `duration` clear. -/
def earliest (lanes : Lanes 𝕜) (lane : ℕ) (release duration : 𝕜) : 𝕜 :=
  (lanes.getD lane []).foldl (fun start busy =>
    if busy.1 < start + duration ∧ start < busy.2 then busy.2 else start) release

/-- Whichever eligible lane could start it first, ties going to the one listed first. -/
def peek (lanes : Lanes 𝕜) (eligible : List ℕ) (release duration : 𝕜) : ℕ × 𝕜 :=
  (minBy (fun a b : ℕ × 𝕜 => compare a.2 b.2)
    (eligible.map fun lane => (lane, lanes.earliest lane release duration))).getD (0, release)

/-- Book a window, in order. -/
def commit (lanes : Lanes 𝕜) (lane : ℕ) (start duration : 𝕜) : Lanes 𝕜 :=
  lanes.modify lane fun windows =>
    windows.takeWhile (·.1 < start) ++ (start, start + duration) :: windows.dropWhile (·.1 < start)

def place (lanes : Lanes 𝕜) (eligible : List ℕ) (release duration : 𝕜) : (ℕ × 𝕜) × Lanes 𝕜 :=
  let placed := lanes.peek eligible release duration
  (placed, lanes.commit placed.1 placed.2 duration)

end Lanes

/-! ## Cutting an epoch into groups -/

/-- Accumulator leaves a set of units opens. -/
def named (units : List (SlotComplement P)) (members : List ℕ) : ℕ :=
  (members.map fun i => (units[i]?).elim 0 (·.namedIndices.length)).sum

/-- Distinct messages a set of units pairs against. -/
def messages (units : List (SlotComplement P)) (members : List ℕ) : ℕ :=
  (members.map fun i => (units[i]?).elim 0 fun unit => 1 + unit.witness.secondary.length).sum

/-- When a unit's last attestation arrives, measured from the first slot. -/
def arrival (units : List (SlotComplement P)) (policy : StreamPolicy 𝕜) (i : ℕ) : 𝕜 :=
  let slot (i : ℕ) := (units[i]?).elim 0 (·.slot)
  (slot i - slot 0).toNat • policy.secondsPerSlot

/-- A prefix of the epoch cut into groups, and where that left the lanes. -/
structure Partial (𝕜 : Type) where
  /-- Lane finish times, ascending. -/
  ends : List 𝕜
  proverS : 𝕜
  groups : List (List ℕ)

/-- Drop the states an earlier one beats on every lane. -/
def undominated (states : List (Partial 𝕜)) : List (Partial 𝕜) :=
  states.foldl (fun kept state =>
    if kept.any fun other => (other.ends.zip state.ends).all fun e => e.1 ≤ e.2 then kept
    else kept ++ [state]) []

/-- Drop states another state beats on prover time and on every lane. Past the cap,
both ends of the trade are kept. -/
def prune (states : List (Partial 𝕜)) (cap : ℕ) : List (Partial 𝕜) :=
  let kept := undominated (states.insertionSort fun a b => a.proverS ≤ b.proverS)
  if kept.length > cap then
    let finish (state : Partial 𝕜) := state.ends.getLast?.getD 0
    let byFinish := kept.insertionSort fun a b => finish a ≤ finish b
    kept.take (cap / 2) ++ byFinish.take (cap / 2)
  else kept

/-- Cut one more group off the head, onto the lane that is free first. -/
def Partial.cut (state : Partial 𝕜) (units : List (SlotComplement P)) (policy : StreamPolicy 𝕜)
    (members : List ℕ) : Partial 𝕜 :=
  let release := (members.getLast?).elim 0 (arrival units policy)
  let duration := policy.prover.groupS (named units members) members.length (messages units members)
  let lane := ((minBy (fun a b : 𝕜 × ℕ => compare a.1 b.1) state.ends.zipIdx).map Prod.snd).getD 0
  { ends := (state.ends.modify lane fun free => max release free + duration).insertionSort (· ≤ ·)
    proverS := state.proverS + duration
    groups := state.groups ++ [members] }

/-- A state of the dynamic program, by the length of the prefix it cuts. -/
abbrev Levels (𝕜 : Type) := ℕ → List (Partial 𝕜)

/-- Every way of cutting one more group off the head where a state left it. -/
def extend (units : List (SlotComplement P)) (head : List ℕ) (policy : StreamPolicy 𝕜)
    (start : ℕ) (levels : Levels 𝕜) (state : Partial 𝕜) : Levels 𝕜 :=
  ((List.range (head.length + 1)).filter (start < ·)).foldl (fun levels stop =>
    Function.update levels stop
      (levels stop ++ [state.cut units policy ((head.take stop).drop start)])) levels

/-- The dynamic program over slots: the states after cutting each prefix of the head. -/
def cutLevels (units : List (SlotComplement P)) (head : List ℕ) (policy : StreamPolicy 𝕜)
    (groupLanes frontier : ℕ) : Levels 𝕜 :=
  (List.range head.length).foldl (fun levels start =>
    (prune (levels start) frontier).foldl (extend units head policy start) levels)
    (Function.update (fun _ => []) 0 [⟨List.replicate groupLanes 0, 0, []⟩])

def cuts (units : List (SlotComplement P)) (head : List ℕ) (policy : StreamPolicy 𝕜)
    (groupLanes frontier : ℕ) : List (List (List ℕ)) :=
  (prune (cutLevels units head policy groupLanes frontier head.length) frontier).map (·.groups)

/-- Every group partition worth simulating: the frontier bounds the search, once for
every width the lanes allow. -/
def search (units : List (SlotComplement P)) (head : List ℕ) (policy : StreamPolicy 𝕜) :
    List (List (List ℕ)) :=
  if head = [] then [[]]
  else (List.range (policy.eligible (.group 0)).length).flatMap fun width =>
    cuts units head policy (width + 1) 256

/-! ## Placing a partition -/

/-- Lanes and the proofs placed on them so far. -/
structure Placed (𝕜 : Type) where
  lanes : Lanes 𝕜
  proofs : List (ScheduledProof 𝕜)

/-- Place one proof; when it ends. -/
def Placed.place (s : Placed 𝕜) (policy : StreamPolicy 𝕜) (stage : Stage) (release duration : 𝕜) :
    Placed 𝕜 × 𝕜 :=
  let ((lane, start), lanes) := s.lanes.place (policy.eligible stage) release duration
  (⟨lanes, s.proofs ++ [⟨stage, lane, start, start + duration, duration⟩]⟩, start + duration)

/-- One group proof of a partition. -/
def placeGroup (units : List (SlotComplement P)) (policy : StreamPolicy 𝕜)
    (s : Placed 𝕜 × List 𝕜) (entry : List ℕ × ℕ) : Placed 𝕜 × List 𝕜 :=
  let (members, i) := entry
  let duration := policy.prover.groupS (named units members) members.length (messages units members)
  let (placed, finished) := s.1.place policy (.group i)
    ((members.getLast?).elim 0 (arrival units policy)) duration
  (placed, s.2 ++ [finished])

/-- The fold chain: fold whatever has finished since the last fold, until one cannot
land before the deadline. Every turn takes a group, so `fuel` is their number. -/
def foldChain (policy : StreamPolicy 𝕜) (groupEnd : ℕ → 𝕜) (deadlineS : 𝕜) :
    (fuel : ℕ) → Placed 𝕜 → (chainFree : 𝕜) → (folds : List (List ℕ)) → (order : List ℕ) →
      Placed 𝕜 × 𝕜 × List (List ℕ) × List ℕ
  | 0, s, chainFree, folds, order => (s, chainFree, folds, order)
  | _ + 1, s, chainFree, folds, [] => (s, chainFree, folds, [])
  | fuel + 1, s, chainFree, folds, first :: rest =>
      let order := first :: rest
      let ready := max (groupEnd first) chainFree
      let batch := order.takeWhile (groupEnd · ≤ ready)
      let duration := policy.prover.foldS batch.length folds.isEmpty
      let (lane, start) := s.lanes.peek (policy.eligible (.fold folds.length)) ready duration
      if start + duration > deadlineS then (s, chainFree, folds, order)
      else
        let proof : ScheduledProof 𝕜 :=
          ⟨.fold folds.length, lane, start, start + duration, duration⟩
        foldChain policy groupEnd deadlineS fuel
          ⟨s.lanes.commit lane start duration, s.proofs ++ [proof]⟩ (start + duration)
          (folds ++ [batch]) (order.dropWhile (groupEnd · ≤ ready))

/-- The committee proof the next epoch needs takes whatever the deadline work leaves. -/
def placeCommittee (policy : StreamPolicy 𝕜) (s : Placed 𝕜) : Placed 𝕜 × 𝕜 :=
  if !policy.owesCommittee then (s, 0)
  else
    let (s, done) := (List.range policy.committeeChunks).foldl (fun (s : Placed 𝕜 × 𝕜) chunk =>
      let (placed, finished) := s.1.place policy (.committee chunk) 0
        (policy.prover.committeeChunkS policy.committeeChunks)
      (placed, max s.2 finished)) (s, 0)
    if policy.committeeChunks > 1 then
      s.place policy .committeeFold done (policy.prover.committeeFoldS policy.committeeChunks)
    else (s, done)

/-- Place one partition's proofs on lanes and read off when the epoch is postable. -/
def simulate (units : List (SlotComplement P)) (groups : List (List ℕ)) (tail : List ℕ)
    (thresholdS : 𝕜) (policy : StreamPolicy 𝕜) : Schedule 𝕜 :=
  let deadlineS := ((tail ++ groups.flatten).map (arrival units policy)).foldl max 0
  let (s, ends) := groups.zipIdx.foldl (placeGroup units policy)
    (⟨List.replicate policy.lanes [], []⟩, [])
  let groupEnd (i : ℕ) : 𝕜 := ends.getD i 0
  let order := (List.range groups.length).insertionSort fun a b => groupEnd a ≤ groupEnd b
  let (s, chainFree, folds, unfolded) := foldChain policy groupEnd deadlineS order.length s 0 [] order
  let release := (unfolded.map groupEnd).foldl max (max deadlineS chainFree)
  let duration := policy.prover.finalS (named units tail) tail.length (messages units tail)
    unfolded.length (!folds.isEmpty)
  let (lane, start) := s.lanes.peek (policy.eligible .final) release duration
  let finished := start + duration
  let wrapped := finished + policy.prover.wrapS
  -- the wrap is one more call on the lane the final proof holds
  let s : Placed 𝕜 := {
    lanes := (s.lanes.commit lane start duration).commit lane finished policy.prover.wrapS
    proofs := s.proofs ++ [⟨.final, lane, start, finished, duration⟩,
      ⟨.wrap, lane, finished, wrapped, policy.prover.wrapS⟩] }
  let (s, committeeDoneS) := placeCommittee policy s
  { plan := ⟨groups, folds, unfolded, tail, 0, false⟩
    proofs := s.proofs.insertionSort fun a b => a.startS ≤ b.startS
    lanes := (s.proofs.map (·.lane)).dedup.length
    thresholdS
    postableS := wrapped
    committeeDoneS
    epochS := policy.slotsPerEpoch.toNat • policy.secondsPerSlot
    totalProverS := (s.proofs.map (·.durationS)).sum }

/-! ## The schedule -/

/-- The objective: no committee overrun first, then latency, then lanes, then prover time. -/
def better (policy : StreamPolicy 𝕜) (a b : Schedule 𝕜) : Ordering :=
  let overrun (s : Schedule 𝕜) := policy.tenths (max (s.committeeDoneS - s.epochS) 0)
  let latency (s : Schedule 𝕜) := policy.tenths (s.postableS - s.thresholdS)
  (compare (overrun a) (overrun b)).then <| (compare (latency a) (latency b)).then <|
    (compare a.lanes b.lanes).then (compare a.totalProverS b.totalProverS)

/-- Balance of the first `n` units together, as a `u128`. -/
def runningBalance (units : List (SlotComplement P)) (n : ℕ) : ℕ :=
  ((units.take n).map (·.marginalBalance.toNat)).sum

/-- The first unit at which the running balance reaches `target`. -/
def crossing (units : List (SlotComplement P)) (target : ℕ) : Option ℕ :=
  (List.range units.length).find? fun i => target ≤ runningBalance units (i + 1)

/-- Nothing to plan. -/
def emptySchedule : Schedule 𝕜 := ⟨⟨[], [], [], [], 0, false⟩, [], 0, 0, 0, 0, 0, 0⟩

/-- Every split of the epoch into a head that is grouped and a tail of at most
`maxTail` units that is not, each with every partition of its head. -/
def candidates (units : List (SlotComplement P)) (last maxTail : ℕ) (thresholdS : 𝕜)
    (policy : StreamPolicy 𝕜) : List (Schedule 𝕜) :=
  (List.range (min maxTail (last + 1) + 1)).flatMap fun inline =>
    (search units (List.range (last + 1 - inline)) policy).map fun groups =>
      simulate units groups ((List.range inline).map (· + (last + 1 - inline))) thresholdS policy

def withLanes (units : List (SlotComplement P)) (totalActiveBalance : UInt64)
    (policy : StreamPolicy 𝕜) (maxTail : ℕ) : Option (Schedule 𝕜) :=
  if units = [] then some emptySchedule
  else do
    let reached := crossing units (policy.targetBalance totalActiveBalance)
    let quorum := crossing units (quorumBalance totalActiveBalance)
    let last := reached.getD (units.length - 1)
    let thresholdS := arrival units policy ((quorum.filter (· ≤ last)).getD (units.length - 1))
    let best ← minBy (better policy) (candidates units last maxTail thresholdS policy)
    return { best with plan := { best.plan with
      attestingBalance := ((units.take (last + 1)).map (·.marginalBalance)).sum
      thresholdReached := reached.isSome } }

/-- The schedule over every number of lanes in the budget, its tail capped. -/
def scheduleCapped (units : List (SlotComplement P)) (totalActiveBalance : UInt64)
    (policy : StreamPolicy 𝕜) (maxTail : ℕ) : Option (Schedule 𝕜) := do
  let schedules ← (List.range (max policy.lanes 1)).mapM fun lane =>
    withLanes units totalActiveBalance { policy with lanes := lane + 1 } maxTail
  minBy (better policy) schedules

/-- Plan an epoch and place every proof on a lane and on the clock; none where an
`expect` of the search fails. -/
def schedule (units : List (SlotComplement P)) (totalActiveBalance : UInt64)
    (policy : StreamPolicy 𝕜) : Option (Schedule 𝕜) :=
  scheduleCapped units totalActiveBalance policy 24

/-- Cut a stream of slot complements into groups plus an inline tail. -/
def plan (units : List (SlotComplement P)) (totalActiveBalance : UInt64)
    (policy : StreamPolicy 𝕜) : Option StreamPlan :=
  (schedule units totalActiveBalance policy).map (·.plan)

/-! ## What a plan covers -/

theorem crossing_eq_some {units : List (SlotComplement P)} {target c : ℕ} :
    crossing units target = some c ↔ c < units.length ∧ target ≤ runningBalance units (c + 1) ∧
      ∀ i < c, runningBalance units (i + 1) < target := by
  rw [crossing, List.find?_range_eq_some]
  simp only [decide_eq_true_eq, List.mem_range, Bool.not_eq_eq_eq_not, Bool.not_true,
    decide_eq_false_iff_not, not_le]
  tauto

variable {units : List (SlotComplement P)} {policy : StreamPolicy 𝕜}

omit [AddCommGroup 𝕜] in
theorem undominated_subset (states : List (Partial 𝕜)) : undominated states ⊆ states := by
  apply List.foldlRecOn (motive := (· ⊆ states))
  · exact List.nil_subset _
  · intro kept ih state hstate
    split
    · exact ih
    · exact List.append_subset.mpr ⟨ih, List.cons_subset.mpr ⟨hstate, List.nil_subset _⟩⟩

theorem mem_of_mem_prune {states : List (Partial 𝕜)} {cap : ℕ} {state : Partial 𝕜}
    (h : state ∈ prune states cap) : state ∈ states := by
  have hkept : ∀ state ∈ undominated (states.insertionSort fun a b => a.proverS ≤ b.proverS),
      state ∈ states := fun state hstate =>
    (List.mem_insertionSort _).mp (undominated_subset _ hstate)
  unfold prune at h
  simp only at h
  split at h
  · rcases List.mem_append.mp h with h | h
    · exact hkept state (List.mem_of_mem_take h)
    · exact hkept state ((List.mem_insertionSort _).mp (List.mem_of_mem_take h))
  · exact hkept state h

/-- Cutting one more group, up to here. -/
theorem mem_extend {head : List ℕ} {start n : ℕ} {levels : Levels 𝕜} {state cut : Partial 𝕜}
    (h : cut ∈ extend units head policy start levels state n) : cut ∈ levels n ∨
      start < n ∧ n ≤ head.length ∧ cut = state.cut units policy ((head.take n).drop start) := by
  revert h
  apply List.foldlRecOn (motive := fun levels' : Levels 𝕜 => cut ∈ levels' n → cut ∈ levels n ∨
    start < n ∧ n ≤ head.length ∧ cut = state.cut units policy ((head.take n).drop start))
  · exact .inl
  · intro levels' ih stop hstop hcut
    by_cases hn : n = stop
    · subst hn
      rw [Function.update_self] at hcut
      rcases List.mem_append.mp hcut with hcut | hcut
      · exact ih hcut
      · obtain ⟨hle, hlt⟩ := List.mem_filter.mp hstop
        refine .inr ⟨by simpa using hlt, ?_, List.mem_singleton.mp hcut⟩
        exact Nat.lt_succ_iff.mp (List.mem_range.mp hle)
    · rw [Function.update_of_ne hn] at hcut
      exact ih hcut

/-- What holds of the empty cut and of one more group, holds of every cut. -/
theorem cutLevels_induction {head : List ℕ} {groupLanes frontier : ℕ}
    {motive : ℕ → Partial 𝕜 → Prop} (empty : motive 0 ⟨List.replicate groupLanes 0, 0, []⟩)
    (cut : ∀ start stop state, start < stop → stop ≤ head.length → motive start state →
      motive stop (state.cut units policy ((head.take stop).drop start))) :
    ∀ n, ∀ state ∈ cutLevels units head policy groupLanes frontier n, motive n state := by
  apply List.foldlRecOn (motive := fun levels : Levels 𝕜 =>
    ∀ n, ∀ state ∈ levels n, motive n state)
  · intro n state hstate
    by_cases hn : n = 0
    · subst hn
      rw [Function.update_self] at hstate
      obtain rfl := List.mem_singleton.mp hstate
      exact empty
    · rw [Function.update_of_ne hn] at hstate
      cases hstate
  · intro levels hlevels start _
    apply List.foldlRecOn (motive := fun levels : Levels 𝕜 =>
      ∀ n, ∀ state ∈ levels n, motive n state) _ _ hlevels
    intro levels' ih state hstate n next hnext
    rcases mem_extend hnext with hnext | ⟨hlt, hle, rfl⟩
    · exact ih n next hnext
    · exact cut start n state hlt hle (hlevels start state (mem_of_mem_prune hstate))

/-- What the search yields cuts the whole head. -/
theorem mem_search {head : List ℕ} {groups : List (List ℕ)}
    (h : groups ∈ search units head policy) : head = [] ∧ groups = [] ∨
      ∃ width, ∃ state ∈ cutLevels units head policy width 256 head.length,
        state.groups = groups := by
  unfold search at h
  split at h
  · next hnil => exact .inl ⟨hnil, List.mem_singleton.mp h⟩
  · obtain ⟨width, -, hcuts⟩ := List.mem_flatMap.mp h
    obtain ⟨state, hstate, rfl⟩ := List.mem_map.mp hcuts
    exact .inr ⟨width + 1, state, mem_of_mem_prune hstate, rfl⟩

theorem search_flatten {head : List ℕ} {groups : List (List ℕ)}
    (h : groups ∈ search units head policy) : groups.flatten = head := by
  rcases mem_search h with ⟨rfl, rfl⟩ | ⟨width, state, hstate, rfl⟩
  · rfl
  · rw [← List.take_length (l := head)]
    -- every state cuts the prefix it is filed under, in order and each unit once
    apply cutLevels_induction (motive := fun n (state : Partial 𝕜) =>
      state.groups.flatten = head.take n) rfl _ _ state hstate
    intro start stop state hlt _ hstate
    have htake : (head.take stop).take start = head.take start := by
      rw [List.take_take, Nat.min_eq_left (le_of_lt hlt)]
    simp only [Partial.cut, List.flatten_append, hstate, List.flatten_cons, List.flatten_nil,
      List.append_nil]
    rw [← htake, List.take_append_drop]

theorem search_nonempty {head : List ℕ} {groups : List (List ℕ)}
    (h : groups ∈ search units head policy) : ∀ members ∈ groups, members ≠ [] := by
  rcases mem_search h with ⟨rfl, rfl⟩ | ⟨width, state, hstate, rfl⟩
  · simp
  · apply cutLevels_induction (motive := fun _ (state : Partial 𝕜) =>
      ∀ members ∈ state.groups, members ≠ []) (by simp) _ _ state hstate
    intro start stop state hlt hle hstate members hmembers
    rcases List.mem_append.mp hmembers with hmembers | hmembers
    · exact hstate members hmembers
    · obtain rfl := List.mem_singleton.mp hmembers
      apply List.ne_nil_of_length_pos
      simp only [List.length_drop, List.length_take]
      omega

/-- What a plan proves, group by group and then inline. -/
def StreamPlan.covered (plan : StreamPlan) : List ℕ := plan.groups.flatten ++ plan.tail

theorem candidates_covered {last maxTail : ℕ} {thresholdS : 𝕜} {s : Schedule 𝕜}
    (h : s ∈ candidates units last maxTail thresholdS policy) :
    s.plan.covered = List.range (last + 1) := by
  obtain ⟨inline, hinline, hs⟩ := List.mem_flatMap.mp h
  obtain ⟨groups, hgroups, rfl⟩ := List.mem_map.mp hs
  have hle : inline ≤ last + 1 := by
    have := List.mem_range.mp hinline
    omega
  show groups.flatten ++ (List.range inline).map (· + (last + 1 - inline)) = _
  rw [search_flatten hgroups]
  conv_rhs => rw [← Nat.sub_add_cancel hle, List.range_add]
  simp only [Nat.add_comm]

theorem withLanes_covered {totalActiveBalance : UInt64} {maxTail : ℕ} {s : Schedule 𝕜}
    (hne : units ≠ []) (h : withLanes units totalActiveBalance policy maxTail = some s) :
    s.plan.covered = List.range
        ((crossing units (policy.targetBalance totalActiveBalance)).getD (units.length - 1) + 1) ∧
      s.plan.thresholdReached =
        (crossing units (policy.targetBalance totalActiveBalance)).isSome := by
  rw [withLanes, if_neg hne] at h
  obtain ⟨best, hbest, hret⟩ := Option.bind_eq_some_iff.mp h
  obtain rfl := Option.some.inj hret
  have hcovered := candidates_covered (minBy_mem hbest)
  exact ⟨hcovered, rfl⟩

/-- **What a plan covers**: the units up to the one that reaches the target, or all of
them where none does, in order and each once. -/
theorem plan_units {totalActiveBalance : UInt64} {p : StreamPlan} (hne : units ≠ [])
    (h : plan units totalActiveBalance policy = some p) :
    p.covered = List.range
        ((crossing units (policy.targetBalance totalActiveBalance)).getD (units.length - 1) + 1) ∧
      p.thresholdReached =
        (crossing units (policy.targetBalance totalActiveBalance)).isSome := by
  obtain ⟨s, hs, rfl⟩ := Option.map_eq_some_iff.mp h
  obtain ⟨schedules, hschedules, hbest⟩ := Option.bind_eq_some_iff.mp hs
  -- the schedule is the one for some number of lanes, and the target has none
  obtain ⟨lane, -, hlane⟩ := exists_of_mem_mapM hschedules (minBy_mem hbest)
  obtain ⟨hcovered, hreached⟩ := withLanes_covered hne hlane
  exact ⟨hcovered, hreached⟩

/-- With nothing to plan nothing is reached, and the plan says so as well. -/
theorem plan_thresholdReached {totalActiveBalance : UInt64} {p : StreamPlan}
    (h : plan units totalActiveBalance policy = some p) :
    p.thresholdReached = (crossing units (policy.targetBalance totalActiveBalance)).isSome := by
  by_cases hne : units = []
  · subst hne
    obtain ⟨s, hs, rfl⟩ := Option.map_eq_some_iff.mp h
    obtain ⟨schedules, hschedules, hbest⟩ := Option.bind_eq_some_iff.mp hs
    obtain ⟨lane, -, hlane⟩ := exists_of_mem_mapM hschedules (minBy_mem hbest)
    rw [withLanes, if_pos rfl] at hlane
    obtain rfl := Option.some.inj hlane
    rfl
  · exact (plan_units hne h).2

/-! ## The search never comes up empty

The `expect`s of the source hold: there is a lane, and every head can be cut. -/

omit [AddCommGroup 𝕜] in
theorem undominated_ne_nil {states : List (Partial 𝕜)} (h : states ≠ []) :
    undominated states ≠ [] := by
  cases states with
  | nil => exact absurd rfl h
  | cons first rest =>
      rw [undominated, List.foldl_cons]
      apply List.foldlRecOn (motive := (· ≠ [])) rest
      · simp
      · intro kept hkept state _
        split
        · exact hkept
        · exact List.append_ne_nil_of_left_ne_nil hkept _

theorem prune_ne_nil {states : List (Partial 𝕜)} {cap : ℕ} (hcap : 2 ≤ cap) (h : states ≠ []) :
    prune states cap ≠ [] := by
  have hkept : undominated (states.insertionSort fun a b => a.proverS ≤ b.proverS) ≠ [] := by
    apply undominated_ne_nil
    obtain ⟨state, hstate⟩ := List.exists_mem_of_ne_nil _ h
    exact List.ne_nil_of_mem ((List.mem_insertionSort _).mpr hstate)
  unfold prune
  simp only
  split
  · apply List.append_ne_nil_of_left_ne_nil
    intro hnil
    rcases List.take_eq_nil_iff.mp hnil with hzero | hnone
    · omega
    · exact hkept hnone
  · exact hkept

/-- Cutting one more group only adds states. -/
theorem extend_subset {head : List ℕ} {start n : ℕ} {levels : Levels 𝕜} {state : Partial 𝕜} :
    levels n ⊆ extend units head policy start levels state n := by
  apply List.foldlRecOn (motive := fun levels' : Levels 𝕜 => levels n ⊆ levels' n)
  · exact List.Subset.refl _
  · intro levels' ih stop _
    by_cases hn : n = stop
    · subst hn
      rw [Function.update_self]
      exact fun other hother => List.mem_append_left _ (ih hother)
    · rwa [Function.update_of_ne hn]

/-- The whole head is one of the groups that can be cut. -/
theorem extend_whole {head : List ℕ} {start : ℕ} (hlt : start < head.length) {levels : Levels 𝕜}
    {state : Partial 𝕜} : extend units head policy start levels state head.length ≠ [] := by
  have hstop : head.length ∈ (List.range (head.length + 1)).filter (start < ·) := by
    simp [hlt]
  obtain ⟨before, after, hsplit⟩ := List.append_of_mem hstop
  rw [extend, hsplit, List.foldl_append, List.foldl_cons]
  apply List.foldlRecOn (motive := fun levels' : Levels 𝕜 => levels' head.length ≠ []) after
  · rw [Function.update_self]
    simp
  · intro levels' ih stop _
    by_cases hn : head.length = stop
    · rw [← hn, Function.update_self]
      simp
    · rwa [Function.update_of_ne hn]

theorem cutLevels_ne_nil {head : List ℕ} {groupLanes frontier : ℕ} (hhead : head ≠ [])
    (hfrontier : 2 ≤ frontier) :
    cutLevels units head policy groupLanes frontier head.length ≠ [] := by
  have hlength : 0 < head.length := List.length_pos_iff.mpr hhead
  have hkeeps : ∀ (states : List (Partial 𝕜)) (start : ℕ) (levels : Levels 𝕜),
      levels head.length ≠ [] →
        states.foldl (extend units head policy start) levels head.length ≠ [] := by
    intro states start levels hlevels
    apply List.foldlRecOn (motive := fun levels' : Levels 𝕜 => levels' head.length ≠ []) states _
      hlevels
    intro levels' ih state _
    obtain ⟨other, hother⟩ := List.exists_mem_of_ne_nil _ ih
    exact List.ne_nil_of_mem (extend_subset hother)
  rw [cutLevels, ← Nat.sub_add_cancel hlength, List.range_succ_eq_map, List.foldl_cons]
  apply List.foldlRecOn (motive := fun levels' : Levels 𝕜 => levels' (head.length - 1 + 1) ≠ [])
  · -- the empty cut is extended to the whole head first
    rw [Nat.sub_add_cancel hlength, Function.update_self]
    obtain ⟨state, states, hstates⟩ := List.exists_cons_of_ne_nil
      (prune_ne_nil hfrontier
        (List.cons_ne_nil (⟨List.replicate groupLanes 0, 0, []⟩ : Partial 𝕜) []))
    rw [hstates, List.foldl_cons]
    exact hkeeps _ _ _ (extend_whole hlength)
  · intro levels' ih start _
    rw [Nat.sub_add_cancel hlength] at ih ⊢
    exact hkeeps _ _ _ ih

theorem search_ne_nil (hlanes : policy.lanes ≠ 0) (head : List ℕ) :
    search units head policy ≠ [] := by
  unfold search
  split
  · simp
  · next hhead =>
      have heligible : 0 < (policy.eligible (.group 0)).length := by
        unfold StreamPolicy.eligible
        split
        · show 0 < (List.range policy.lanes).length
          rw [List.length_range]
          exact Nat.pos_of_ne_zero hlanes
        · show 0 < (List.range (max (policy.lanes - 1 - 1) 1)).length
          rw [List.length_range]
          exact lt_max_of_lt_right Nat.one_pos
      have hcuts : cuts units head policy 1 256 ≠ [] := by
        rw [cuts, Ne, List.map_eq_nil_iff]
        exact prune_ne_nil (by omega) (cutLevels_ne_nil hhead (by omega))
      obtain ⟨groups, hgroups⟩ := List.exists_mem_of_ne_nil _ hcuts
      exact List.ne_nil_of_mem (List.mem_flatMap.mpr ⟨0, List.mem_range.mpr heligible, hgroups⟩)

theorem minBy_isSome {α : Type} (compare : α → α → Ordering) {as : List α} (h : as ≠ []) :
    ∃ a, minBy compare as = some a := by
  cases as with
  | nil => exact absurd rfl h
  | cons a as => exact ⟨_, rfl⟩

theorem candidates_ne_nil (hlanes : policy.lanes ≠ 0) (units : List (SlotComplement P))
    (last maxTail : ℕ) (thresholdS : 𝕜) : candidates units last maxTail thresholdS policy ≠ [] := by
  obtain ⟨groups, hgroups⟩ := List.exists_mem_of_ne_nil _
    (search_ne_nil hlanes (List.range (last + 1 - 0)))
  apply List.ne_nil_of_mem
  rw [candidates, List.mem_flatMap]
  exact ⟨0, List.mem_range.mpr (Nat.succ_pos _), List.mem_map.mpr ⟨groups, hgroups, rfl⟩⟩

theorem withLanes_isSome (hlanes : policy.lanes ≠ 0) (units : List (SlotComplement P))
    (totalActiveBalance : UInt64) (maxTail : ℕ) :
    ∃ s, withLanes units totalActiveBalance policy maxTail = some s := by
  unfold withLanes
  split
  · exact ⟨_, rfl⟩
  · obtain ⟨best, hbest⟩ := minBy_isSome (better policy)
      (candidates_ne_nil hlanes units _ maxTail _)
    exact ⟨_, Option.bind_eq_some_iff.mpr ⟨best, hbest, rfl⟩⟩

/-- **Every list of units has a plan**, under every policy. -/
theorem plan_isSome (units : List (SlotComplement P)) (totalActiveBalance : UInt64)
    (policy : StreamPolicy 𝕜) : ∃ p, plan units totalActiveBalance policy = some p := by
  have hlanes : ∀ lane : ℕ, ∃ s, withLanes units totalActiveBalance
      { policy with lanes := lane + 1 } 24 = some s :=
    fun lane => withLanes_isSome (Nat.succ_ne_zero lane) units totalActiveBalance 24
  choose schedules hschedules using hlanes
  have hall : (List.range (max policy.lanes 1)).mapM (fun lane => withLanes units totalActiveBalance
      { policy with lanes := lane + 1 } 24) =
        some ((List.range (max policy.lanes 1)).map schedules) := by
    rw [mapM_eq_some, List.map_map]
    exact List.map_congr_left fun lane _ => hschedules lane
  have hne : (List.range (max policy.lanes 1)).map schedules ≠ [] := by
    rw [Ne, List.map_eq_nil_iff, List.range_eq_nil]
    omega
  obtain ⟨best, hbest⟩ := minBy_isSome (better policy) hne
  refine ⟨best.plan, Option.map_eq_some_iff.mpr ⟨best, ?_, rfl⟩⟩
  exact Option.bind_eq_some_iff.mpr ⟨_, hall, hbest⟩

end Planner
end Zkasper.Streaming
