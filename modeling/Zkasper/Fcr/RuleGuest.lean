import Zkasper.Bytes
import Zkasper.Guest
import Mathlib.Data.Finset.Insert
import Mathlib.Data.List.Chain

/-! # One slot of the rule itself

The guest that runs the fast confirmation rule as it is, over a node's fork-choice
store and votes. The rule is a dependency that is not part of the repository: here
it is any machine that takes a state and a slot's inputs to the next state.

A proof covers one slot, and its state is published as a digest, so that the next
proof can start where it stopped. But the state that is hashed names the rule's
three balance sources by their places in the witness's own table, and the place of
a source is looked up by its epoch. So the digest says where a source is, and not
what it is: `chained_runs_continuous` gives what two consecutive tables have to
agree on for the runs to be one run, and a table with two registries of one epoch
is enough for them not to be.

The rule also holds two thresholds and the slot assignments it was built with. They come
out of every witness anew and the digest says nothing about them, so chained runs are one
run only where the witnesses agree on them too. -/

namespace Zkasper.Fcr

/-! ## Records -/

/-- A checkpoint. -/
structure Cp where
  epoch : UInt64
  root : Bytes 32
  deriving DecidableEq

/-- `FastConfirmationRule`'s fields, registries named by index into `Header.registries`. -/
structure RuleState where
  confirmedRoot : Bytes 32
  previousEpochObservedJustified : Cp
  previousEpochObservedJustifiedRegistry : UInt32
  currentEpochObservedJustified : Cp
  currentEpochObservedJustifiedRegistry : UInt32
  previousEpochGreatestUnrealizedCheckpoint : Cp
  previousSlotHead : Bytes 32
  currentSlotHead : Bytes 32
  headBalanceRegistry : UInt32
  lastUpdateSlot : Option UInt64
  deriving DecidableEq

/-- One proto-array node. -/
structure BlockNode where
  root : Bytes 32
  slot : UInt64
  parent : Option UInt32
  justifiedCheckpoint : Cp
  unrealizedJustifiedCheckpoint : Option Cp
  optimisticOrInvalid : Bool

/-- A registry as a diff against the base blobs. -/
structure RegistryHeader where
  epoch : UInt64
  totalActiveBalance : UInt64
  balanceChanges : List (UInt32 × UInt64)
  slashedToggles : List UInt32

/-- The attester seed of an epoch and the registry whose active set it shuffles. -/
structure EpochSeed where
  epoch : UInt64
  seed : Bytes 32
  registry : UInt32

structure Header where
  slot : UInt64
  headRoot : Bytes 32
  finalizedCheckpoint : Cp
  unrealizedJustifiedCheckpoint : Cp
  byzantineThreshold : UInt64
  proposerScoreBoost : UInt64
  state : RuleState
  blocks : List BlockNode
  /-- Vote roots naming blocks the store no longer holds; indexed after `blocks`. -/
  extraRoots : List (Bytes 32)
  registries : List RegistryHeader
  nValidators : UInt32
  equivocatingIndices : List UInt64
  headBalanceUpdate : Option UInt32
  checkpointBalanceUpdate : Option UInt32
  epochSeeds : List EpochSeed

/-- The header plus the blobs. -/
structure Witness where
  header : Header
  /-- Per validator: index into blocks ++ extra roots, or `NO_VOTE`. -/
  voteRoots : List UInt32
  voteSlots : List UInt32
  /-- Registry 0, per validator: effective balance, 0 when inactive. -/
  balances : List UInt64
  /-- Registry 0, bitset of slashed flags. -/
  slashed : List UInt8

/-- A registry as the rule owns it. -/
structure BalanceSourceData where
  epoch : UInt64
  totalActiveBalance : UInt64
  effectiveBalances : List UInt64
  slashed : List Bool
  deriving DecidableEq

/-- What the slot assignments of a witness are derived from: the validators there are,
and for an epoch its seed with the active set that it shuffles. -/
structure LazyAssignments where
  nValidators : UInt32
  shuffled : UInt64 → Option (Bytes 32 × Guest (List UInt32))

/-- The state of the rule: its checkpoints with their balances, the heads, the source it
weighs the head with, and what it was built with, the thresholds and the assignments. -/
structure FastConfirmationRule where
  confirmedRoot : Bytes 32
  previousEpochObservedJustified : Cp
  previousEpochObservedJustifiedBalances : BalanceSourceData
  currentEpochObservedJustified : Cp
  currentEpochObservedJustifiedBalances : BalanceSourceData
  previousEpochGreatestUnrealizedCheckpoint : Cp
  previousSlotHead : Bytes 32
  currentSlotHead : Bytes 32
  byzantineThreshold : UInt64
  proposerScoreBoost : UInt64
  assignments : LazyAssignments
  headBalanceSource : BalanceSourceData
  lastUpdateSlot : Option UInt64

/-- Everybody's latest votes, their roots by place in a table. -/
structure VoteView where
  roots : List UInt32
  slots : List UInt32
  table : List (Bytes 32)

/-- What a slot brings to the rule: the arguments of `on_fast_confirmation`. -/
structure SlotInputs where
  headRoot : Bytes 32
  finalizedCheckpoint : Cp
  unrealizedJustifiedCheckpoint : Cp
  slot : UInt64
  store : List BlockNode
  votes : VoteView
  equivocating : Finset UInt64
  headBalanceUpdate : Option BalanceSourceData
  assignments : LazyAssignments
  checkpointBalanceUpdate : Option BalanceSourceData

structure OutcomeBits where
  advanced : Bool
  restartedFromJustified : Bool
  revertedToFinalized : Bool
  unconfirmedSupport : Option (UInt64 × UInt64)

/-- The rule: `on_fast_confirmation`, as what it takes a state to. -/
abbrev RuleMachine := SlotInputs → FastConfirmationRule → Guest (FastConfirmationRule × OutcomeBits)

structure RuleOutput where
  slot : UInt64
  headRoot : Bytes 32
  confirmedRootBefore : Bytes 32
  confirmedRootAfter : Bytes 32
  outcome : OutcomeBits
  preState : RuleState
  postState : RuleState

/-! ## The registries of a witness -/

/-- The bits of a byte, lowest first. -/
def bitsOf (byte : UInt8) : List Bool := (List.range 8).map byte.toNat.testBit

/-- `xs[i] = f(xs[i])` -/
def updateAt {α : Type} (xs : List α) (i : UInt32) (f : α → α) : Guest (List α) := do
  Guest.assert (i.toNat < xs.length) "index out of bounds"
  return xs.modify i.toNat f

/-- `insert` into a map: what a key had before is replaced. -/
def insertChange (m : UInt32 → Option UInt64) (change : UInt32 × UInt64) : UInt32 → Option UInt64 :=
  Function.update m change.1 (some change.2)

/-- `collect` into a map. -/
def collectChanges (changes : List (UInt32 × UInt64)) : UInt32 → Option UInt64 :=
  changes.foldl insertChange fun _ => none

namespace Witness

variable (w : Witness)

/-- Registry 0 as the rule's owned vectors. -/
def baseRegistry : List UInt64 × List Bool :=
  (w.balances, (w.slashed.flatMap bitsOf).take w.header.nValidators.toNat)

/-- Materialize registry `idx`: the base blobs with the diff applied. -/
def registry (idx : UInt32) : Guest BalanceSourceData := do
  let r ← Guest.expect w.header.registries[idx.toNat]? "index out of bounds"
  let effectiveBalances ← r.balanceChanges.foldlM
    (fun balances change => updateAt balances change.1 fun _ => change.2) w.baseRegistry.1
  let slashed ← r.slashedToggles.foldlM (fun slashed i => updateAt slashed i (!·)) w.baseRegistry.2
  return ⟨r.epoch, r.totalActiveBalance, effectiveBalances, slashed⟩

/-- The first registry of an epoch. -/
def registryByEpoch (epoch : UInt64) : Option UInt32 :=
  (w.header.registries.findIdx? fun r => r.epoch = epoch).map UInt32.ofNat

/-- The turn of the filter for one validator. -/
def pushActive (changed : UInt32 → Option UInt64) (active : List UInt32) (i : ℕ) :
    Guest (List UInt32) := do
  let base ← Guest.expect w.balances[i]? "index out of bounds"
  return if 0 < (changed (UInt32.ofNat i)).getD base then active ++ [UInt32.ofNat i] else active

/-- Active validator indices of registry `idx`, in index order. -/
def activeIndices (idx : UInt32) : Guest (List UInt32) := do
  let r ← Guest.expect w.header.registries[idx.toNat]? "index out of bounds"
  (List.range w.header.nValidators.toNat).foldlM (w.pushActive (collectChanges r.balanceChanges)) []

/-- The first seed of an epoch. -/
def seedOf (epoch : UInt64) : Option EpochSeed :=
  w.header.epochSeeds.find? fun s => s.epoch = epoch

/-- `LazyAssignments::new` -/
def lazyAssignments : LazyAssignments where
  nValidators := w.header.nValidators
  shuffled epoch := (w.seedOf epoch).map fun s => (s.seed, w.activeIndices s.registry)

/-- The registry behind an index, where there is one. -/
def registryOf : Option UInt32 → Guest (Option BalanceSourceData)
  | none => return none
  | some idx => some <$> w.registry idx

/-! ## A run -/

/-- `FastConfirmationRule::from_parts` -/
def rebuild : Guest FastConfirmationRule := do
  let st := w.header.state
  let previous ← w.registry st.previousEpochObservedJustifiedRegistry
  let current ← w.registry st.currentEpochObservedJustifiedRegistry
  let head ← w.registry st.headBalanceRegistry
  return ⟨st.confirmedRoot, st.previousEpochObservedJustified, previous,
    st.currentEpochObservedJustified, current, st.previousEpochGreatestUnrealizedCheckpoint,
    st.previousSlotHead, st.currentSlotHead, w.header.byzantineThreshold,
    w.header.proposerScoreBoost, w.lazyAssignments, head, st.lastUpdateSlot⟩

def slotInputs : Guest SlotInputs := do
  let h := w.header
  let headBalanceUpdate ← w.registryOf h.headBalanceUpdate
  let checkpointBalanceUpdate ← w.registryOf h.checkpointBalanceUpdate
  return {
    headRoot := h.headRoot
    finalizedCheckpoint := h.finalizedCheckpoint
    unrealizedJustifiedCheckpoint := h.unrealizedJustifiedCheckpoint
    slot := h.slot
    store := h.blocks
    votes := ⟨w.voteRoots, w.voteSlots, h.blocks.map (·.root) ++ h.extraRoots⟩
    equivocating := h.equivocatingIndices.toFinset
    headBalanceUpdate
    assignments := w.lazyAssignments
    checkpointBalanceUpdate }

/-- The place a source is reported at. -/
def placeOf (source : BalanceSourceData) : Guest UInt32 :=
  Guest.expect (w.registryByEpoch source.epoch) s!"no registry for epoch {source.epoch}"

/-- The state the rule leaves behind, as it is reported. -/
def postState (rule : FastConfirmationRule) : Guest RuleState := do
  let previous ← w.placeOf rule.previousEpochObservedJustifiedBalances
  let current ← w.placeOf rule.currentEpochObservedJustifiedBalances
  let head ← w.placeOf rule.headBalanceSource
  return ⟨rule.confirmedRoot, rule.previousEpochObservedJustified, previous,
    rule.currentEpochObservedJustified, current, rule.previousEpochGreatestUnrealizedCheckpoint,
    rule.previousSlotHead, rule.currentSlotHead, head, rule.lastUpdateSlot⟩

end Witness

/-- The rule's state after the slot of a witness, and what it did. -/
def transition (rule : RuleMachine) (w : Witness) : Guest (FastConfirmationRule × OutcomeBits) := do
  let state ← w.rebuild
  let inputs ← w.slotInputs
  rule inputs state

/-- Rebuild the rule from the header's state, call `on_fast_confirmation` for its
slot, and report the state it leaves behind. -/
def run (rule : RuleMachine) (w : Witness) : Guest RuleOutput := do
  let (left, outcome) ← transition rule w
  let postState ← w.postState left
  return {
    slot := w.header.slot
    headRoot := w.header.headRoot
    confirmedRootBefore := w.header.state.confirmedRoot
    confirmedRootAfter := left.confirmedRoot
    outcome
    preState := w.header.state
    postState }

/-! ## The digest of a state -/

def Cp.serialize (cp : Cp) : List UInt8 := leBytes 8 cp.epoch.toNat ++ cp.root.1

/-- `bincode::serialize`: fields in order, integers little-endian, and a byte that
says whether an optional one is there. -/
def RuleState.serialize (s : RuleState) : List UInt8 :=
  s.confirmedRoot.1 ++ (s.previousEpochObservedJustified.serialize ++
    (leBytes 4 s.previousEpochObservedJustifiedRegistry.toNat ++
    (s.currentEpochObservedJustified.serialize ++
    (leBytes 4 s.currentEpochObservedJustifiedRegistry.toNat ++
    (s.previousEpochGreatestUnrealizedCheckpoint.serialize ++
    (s.previousSlotHead.1 ++ (s.currentSlotHead.1 ++
    (leBytes 4 s.headBalanceRegistry.toNat ++
    match s.lastUpdateSlot with
    | none => [0]
    | some slot => 1 :: leBytes 8 slot.toNat))))))))

/-- `state_digest`, over some SHA-256. -/
def stateDigest {D : Type} (sha256 : List UInt8 → D) (s : RuleState) : D := sha256 s.serialize

@[simp] theorem Cp.serialize_length (cp : Cp) : cp.serialize.length = 40 := by
  rw [Cp.serialize, List.length_append, leBytes_length, cp.root.2]

theorem Cp.serialize_injective : Function.Injective Cp.serialize := by
  rintro ⟨epoch, root⟩ ⟨epoch', root'⟩ h
  obtain ⟨hepoch, hroot⟩ := List.append_inj h (by simp)
  obtain rfl := UInt64.toNat_inj.mp (leBytes_injective epoch.toNat_lt epoch'.toNat_lt hepoch)
  obtain rfl := Subtype.ext hroot
  rfl

theorem leBytes_u32_injective {v w : UInt32} (h : leBytes 4 v.toNat = leBytes 4 w.toNat) : v = w :=
  UInt32.toNat_inj.mp (leBytes_injective v.toNat_lt w.toNat_lt h)

/-- The encoding loses nothing: all but its last field have a fixed width. -/
theorem RuleState.serialize_injective : Function.Injective RuleState.serialize := by
  rintro ⟨confirmed, previous, previousIdx, current, currentIdx, greatest, previousHead,
    currentHead, headIdx, slot⟩ ⟨confirmed', previous', previousIdx', current', currentIdx',
    greatest', previousHead', currentHead', headIdx', slot'⟩ h
  obtain ⟨hconfirmed, h⟩ := List.append_inj h (by rw [confirmed.2, confirmed'.2])
  obtain ⟨hprevious, h⟩ := List.append_inj h (by simp)
  obtain ⟨hpreviousIdx, h⟩ := List.append_inj h (by simp)
  obtain ⟨hcurrent, h⟩ := List.append_inj h (by simp)
  obtain ⟨hcurrentIdx, h⟩ := List.append_inj h (by simp)
  obtain ⟨hgreatest, h⟩ := List.append_inj h (by simp)
  obtain ⟨hpreviousHead, h⟩ := List.append_inj h (by rw [previousHead.2, previousHead'.2])
  obtain ⟨hcurrentHead, h⟩ := List.append_inj h (by rw [currentHead.2, currentHead'.2])
  obtain ⟨hheadIdx, h⟩ := List.append_inj h (by simp)
  obtain rfl := Subtype.ext hconfirmed
  obtain rfl := Cp.serialize_injective hprevious
  obtain rfl := leBytes_u32_injective hpreviousIdx
  obtain rfl := Cp.serialize_injective hcurrent
  obtain rfl := leBytes_u32_injective hcurrentIdx
  obtain rfl := Cp.serialize_injective hgreatest
  obtain rfl := Subtype.ext hpreviousHead
  obtain rfl := Subtype.ext hcurrentHead
  obtain rfl := leBytes_u32_injective hheadIdx
  have hslot : slot = slot' := by
    cases slot with
    | none =>
        cases slot' with
        | none => rfl
        | some slot' => cases h
    | some slot =>
        cases slot' with
        | none => cases h
        | some slot' =>
            have hbytes := (List.cons.inj h).2
            exact congrArg some
              (UInt64.toNat_inj.mp (leBytes_injective slot.toNat_lt slot'.toNat_lt hbytes))
  rw [hslot]

/-! ## Runs one after another -/

/-- The state the rule is left in by the run of a witness. -/
def leftBy (rule : RuleMachine) (w : Witness) : Guest FastConfirmationRule :=
  Prod.fst <$> transition rule w

/-- **One continuous run**: the rule over the slots of the witnesses, from a state
on, never rebuilt. -/
def oneRun (rule : RuleMachine) :
    FastConfirmationRule → List Witness → Guest (List FastConfirmationRule)
  | _, [] => return []
  | state, w :: ws => do
      let inputs ← w.slotInputs
      let (left, _) ← rule inputs state
      let rest ← oneRun rule left ws
      return left :: rest

/-- Runs that all succeed, each publishing the digest the next one starts from. -/
structure Chained {D : Type} (sha256 : List UInt8 → D) (rule : RuleMachine) (ws : List Witness) :
    Prop where
  runs : ∀ w ∈ ws, ∃ out, run rule w = .ok out
  digests : ws.IsChain fun before after => ∀ out out', run rule before = .ok out →
    run rule after = .ok out' → stateDigest sha256 out.postState = stateDigest sha256 out'.preState

/-- The three sources of a state. -/
def FastConfirmationRule.sources (s : FastConfirmationRule) : List BalanceSourceData :=
  [s.previousEpochObservedJustifiedBalances, s.currentEpochObservedJustifiedBalances,
    s.headBalanceSource]

/-- The rule makes no source up: what it holds it was holding or was given. -/
def KeepsSources (rule : RuleMachine) : Prop :=
  ∀ inputs state left outcome, rule inputs state = .ok (left, outcome) →
    ∀ source ∈ left.sources, source ∈ state.sources ++
      (inputs.headBalanceUpdate.toList ++ inputs.checkpointBalanceUpdate.toList)

/-- The rule changes no threshold, and the assignments it holds it was holding or was
given. -/
def KeepsParts (rule : RuleMachine) : Prop :=
  ∀ inputs state left outcome, rule inputs state = .ok (left, outcome) →
    left.byzantineThreshold = state.byzantineThreshold ∧
      left.proposerScoreBoost = state.proposerScoreBoost ∧
      (left.assignments = state.assignments ∨ left.assignments = inputs.assignments)

/-- Two witnesses build the rule with the same thresholds and assignments. -/
structure SameParts (w w' : Witness) : Prop where
  byzantineThreshold : w.header.byzantineThreshold = w'.header.byzantineThreshold
  proposerScoreBoost : w.header.proposerScoreBoost = w'.header.proposerScoreBoost
  assignments : w.lazyAssignments = w'.lazyAssignments

/-- The places a state names. -/
def RuleState.registries (s : RuleState) : List UInt32 :=
  [s.previousEpochObservedJustifiedRegistry, s.currentEpochObservedJustifiedRegistry,
    s.headBalanceRegistry]

/-- The places a witness names, in its state and for the updates. -/
def Witness.named (w : Witness) : List UInt32 :=
  w.header.state.registries ++
    (w.header.headBalanceUpdate.toList ++ w.header.checkpointBalanceUpdate.toList)

/-- **What two tables have to agree on**: a registry the first witness names is the
one the second reads wherever it reads the place of that registry's epoch. -/
def Carries (w w' : Witness) : Prop :=
  ∀ i ∈ w.named, ∀ source, w.registry i = .ok source →
    ∀ j ∈ w'.header.state.registries, w.registryByEpoch source.epoch = some j →
      w'.registry j = .ok source

section Runs

variable {rule : RuleMachine} {w w' : Witness}

theorem rebuild_eq_ok {s : FastConfirmationRule} :
    w.rebuild = .ok s ↔
      w.registry w.header.state.previousEpochObservedJustifiedRegistry =
          .ok s.previousEpochObservedJustifiedBalances ∧
        w.registry w.header.state.currentEpochObservedJustifiedRegistry =
          .ok s.currentEpochObservedJustifiedBalances ∧
        w.registry w.header.state.headBalanceRegistry = .ok s.headBalanceSource ∧
        s = ⟨w.header.state.confirmedRoot, w.header.state.previousEpochObservedJustified,
          s.previousEpochObservedJustifiedBalances, w.header.state.currentEpochObservedJustified,
          s.currentEpochObservedJustifiedBalances,
          w.header.state.previousEpochGreatestUnrealizedCheckpoint,
          w.header.state.previousSlotHead, w.header.state.currentSlotHead,
          w.header.byzantineThreshold, w.header.proposerScoreBoost, w.lazyAssignments,
          s.headBalanceSource, w.header.state.lastUpdateSlot⟩ := by
  simp only [Witness.rebuild, Guest.bind_eq_ok, Guest.pure_eq_ok]
  constructor
  · rintro ⟨previous, hprevious, current, hcurrent, head, hhead, rfl⟩
    exact ⟨hprevious, hcurrent, hhead, rfl⟩
  · rintro ⟨hprevious, hcurrent, hhead, hs⟩
    exact ⟨_, hprevious, _, hcurrent, _, hhead, hs.symm⟩

theorem registryOf_eq_ok {idx : Option UInt32} {o : Option BalanceSourceData}
    (h : w.registryOf idx = .ok o) : ∀ source ∈ o, ∃ i ∈ idx, w.registry i = .ok source := by
  intro source hsource
  cases idx with
  | none =>
      obtain rfl := Guest.pure_eq_ok.mp h
      cases hsource
  | some i =>
      rw [Witness.registryOf, map_eq_pure_bind, Guest.bind_eq_ok] at h
      obtain ⟨source', hrun, hret⟩ := h
      obtain rfl := Guest.pure_eq_ok.mp hret
      obtain rfl := Option.mem_some.mp hsource
      exact ⟨i, rfl, hrun⟩

/-- What the rule is given is behind the places the witness names. -/
theorem exists_named {s : FastConfirmationRule} {inputs : SlotInputs} (hs : w.rebuild = .ok s)
    (hinputs : w.slotInputs = .ok inputs) {source : BalanceSourceData}
    (hsource : source ∈ s.sources ++
      (inputs.headBalanceUpdate.toList ++ inputs.checkpointBalanceUpdate.toList)) :
    ∃ i ∈ w.named, w.registry i = .ok source := by
  obtain ⟨hprevious, hcurrent, hhead, -⟩ := rebuild_eq_ok.mp hs
  simp only [Witness.slotInputs, Guest.bind_eq_ok, Guest.pure_eq_ok] at hinputs
  obtain ⟨headUpdate, hheadUpdate, checkpointUpdate, hcheckpointUpdate, rfl⟩ := hinputs
  simp only [FastConfirmationRule.sources, List.mem_append, List.mem_cons, List.not_mem_nil,
    or_false, Option.mem_toList] at hsource
  simp only [Witness.named, RuleState.registries, List.mem_append, List.mem_cons, List.not_mem_nil,
    or_false, Option.mem_toList]
  rcases hsource with (rfl | rfl | rfl) | h | h
  · exact ⟨_, .inl (.inl rfl), hprevious⟩
  · exact ⟨_, .inl (.inr (.inl rfl)), hcurrent⟩
  · exact ⟨_, .inl (.inr (.inr rfl)), hhead⟩
  · obtain ⟨i, hi, hrun⟩ := registryOf_eq_ok hheadUpdate source h
    exact ⟨i, .inr (.inl hi), hrun⟩
  · obtain ⟨i, hi, hrun⟩ := registryOf_eq_ok hcheckpointUpdate source h
    exact ⟨i, .inr (.inr hi), hrun⟩

/-- What the rule is built with is what it is left with. -/
theorem parts_left (hrule : KeepsParts rule) {s left : FastConfirmationRule} {inputs : SlotInputs}
    {outcome : OutcomeBits} (hs : w.rebuild = .ok s) (hinputs : w.slotInputs = .ok inputs)
    (hstep : rule inputs s = .ok (left, outcome)) :
    left.byzantineThreshold = w.header.byzantineThreshold ∧
      left.proposerScoreBoost = w.header.proposerScoreBoost ∧
      left.assignments = w.lazyAssignments := by
  obtain ⟨-, -, -, hfields⟩ := rebuild_eq_ok.mp hs
  have hgiven : inputs.assignments = w.lazyAssignments := by
    simp only [Witness.slotInputs, Guest.bind_eq_ok, Guest.pure_eq_ok] at hinputs
    obtain ⟨_, -, _, -, rfl⟩ := hinputs
    rfl
  obtain ⟨hbyzantine, hboost, hassignments⟩ := hrule inputs s left outcome hstep
  refine ⟨hbyzantine.trans ?_, hboost.trans ?_, ?_⟩
  · rw [hfields]
  · rw [hfields]
  · rcases hassignments with h | h
    · rw [h, hfields]
    · rw [h, hgiven]

/-- A reported state has the fields of the rule's, and its sources at their places. -/
theorem postState_eq_ok {left : FastConfirmationRule} {post : RuleState}
    (h : w.postState left = .ok post) :
    w.registryByEpoch left.previousEpochObservedJustifiedBalances.epoch =
        some post.previousEpochObservedJustifiedRegistry ∧
      w.registryByEpoch left.currentEpochObservedJustifiedBalances.epoch =
        some post.currentEpochObservedJustifiedRegistry ∧
      w.registryByEpoch left.headBalanceSource.epoch = some post.headBalanceRegistry ∧
      left = ⟨post.confirmedRoot, post.previousEpochObservedJustified,
        left.previousEpochObservedJustifiedBalances, post.currentEpochObservedJustified,
        left.currentEpochObservedJustifiedBalances, post.previousEpochGreatestUnrealizedCheckpoint,
        post.previousSlotHead, post.currentSlotHead, left.byzantineThreshold,
        left.proposerScoreBoost, left.assignments, left.headBalanceSource,
        post.lastUpdateSlot⟩ := by
  simp only [Witness.postState, Witness.placeOf, Guest.bind_eq_ok, Guest.expect_eq_ok,
    Guest.pure_eq_ok] at h
  obtain ⟨previous, hprevious, current, hcurrent, head, hhead, rfl⟩ := h
  exact ⟨hprevious, hcurrent, hhead, rfl⟩

theorem run_eq_ok {out : RuleOutput} (h : run rule w = .ok out) :
    ∃ s inputs left outcome, w.rebuild = .ok s ∧ w.slotInputs = .ok inputs ∧
      rule inputs s = .ok (left, outcome) ∧ leftBy rule w = .ok left ∧
      w.postState left = .ok out.postState ∧ out.preState = w.header.state := by
  simp only [run, transition, Guest.bind_eq_ok, Guest.pure_eq_ok] at h
  obtain ⟨⟨left, outcome⟩, ⟨s, hs, inputs, hinputs, hrule⟩, post, hpost, rfl⟩ := h
  refine ⟨s, inputs, left, outcome, hs, hinputs, hrule, ?_, hpost, rfl⟩
  rw [leftBy, map_eq_pure_bind, Guest.bind_eq_ok]
  refine ⟨(left, outcome), ?_, rfl⟩
  rw [transition, Guest.bind_eq_ok]
  exact ⟨s, hs, Guest.bind_eq_ok.mpr ⟨inputs, hinputs, hrule⟩⟩

/-- **One link**: the digest puts the sources in their places, and what is read
there is what was left. -/
theorem rebuild_eq_left {D : Type} {sha256 : List UInt8 → D} (hsha256 : Function.Injective sha256)
    (hrule : KeepsSources rule) (hparts : KeepsParts rule) {out out' : RuleOutput}
    (hrun : run rule w = .ok out) (hrun' : run rule w' = .ok out')
    (hdigest : stateDigest sha256 out.postState = stateDigest sha256 out'.preState)
    (hcarries : Carries w w') (hsame : SameParts w w') :
    ∃ left, leftBy rule w = .ok left ∧ w'.rebuild = .ok left := by
  obtain ⟨s, inputs, left, outcome, hs, hinputs, hstep, hleft, hpost, -⟩ := run_eq_ok hrun
  obtain ⟨-, -, -, -, -, -, -, -, -, hpre⟩ := run_eq_ok hrun'
  have hstate : out.postState = w'.header.state :=
    (RuleState.serialize_injective (hsha256 hdigest)).trans hpre
  obtain ⟨hprevious, hcurrent, hhead, hfields⟩ := postState_eq_ok hpost
  obtain ⟨hbyzantine, hboost, hassignments⟩ := parts_left hparts hs hinputs hstep
  rw [hstate] at hprevious hcurrent hhead hfields
  rw [hbyzantine, hboost, hassignments, hsame.byzantineThreshold, hsame.proposerScoreBoost,
    hsame.assignments] at hfields
  have hread : ∀ source ∈ left.sources, ∀ j ∈ w'.header.state.registries,
      w.registryByEpoch source.epoch = some j → w'.registry j = .ok source := by
    intro source hsource
    obtain ⟨i, hi, hregistry⟩ :=
      exists_named hs hinputs (hrule inputs s left outcome hstep source hsource)
    exact hcarries i hi source hregistry
  refine ⟨left, hleft, rebuild_eq_ok.mpr ⟨?_, ?_, ?_, hfields⟩⟩
  · apply hread _ _ _ _ hprevious
    · simp [FastConfirmationRule.sources]
    · simp [RuleState.registries]
  · apply hread _ _ _ _ hcurrent
    · simp [FastConfirmationRule.sources]
    · simp [RuleState.registries]
  · apply hread _ _ _ _ hhead
    · simp [FastConfirmationRule.sources]
    · simp [RuleState.registries]

/-- Runs that each start where the one before stopped are one run. -/
theorem oneRun_eq (first : Witness) (rest : List Witness) :
    (∀ w ∈ first :: rest, ∃ out, run rule w = .ok out) →
    (first :: rest).IsChain (fun before after => leftBy rule before = after.rebuild) →
      ∃ s, first.rebuild = .ok s ∧
        oneRun rule s (first :: rest) = (first :: rest).mapM (leftBy rule) := by
  induction rest generalizing first with
  | nil =>
      intro hruns _
      obtain ⟨out, hout⟩ := hruns first List.mem_cons_self
      obtain ⟨s, inputs, left, outcome, hs, hinputs, hstep, hleft, -⟩ := run_eq_ok hout
      refine ⟨s, hs, ?_⟩
      simp [oneRun, hinputs, hstep, hleft, bind, Except.bind]
  | cons second rest ih =>
      intro hruns hchain
      obtain ⟨hfirst, hruns⟩ := List.forall_mem_cons.mp hruns
      obtain ⟨hlink, hchain⟩ := List.isChain_cons_cons.mp hchain
      obtain ⟨out, hout⟩ := hfirst
      obtain ⟨s, inputs, left, outcome, hs, hinputs, hstep, hleft, -⟩ := run_eq_ok hout
      obtain ⟨s', hs', hrest⟩ := ih second hruns hchain
      -- the second run starts from what the first one left
      obtain rfl := Except.ok.inj ((hleft.symm.trans hlink).trans hs')
      refine ⟨s, hs, ?_⟩
      rw [List.mapM_cons, hleft, oneRun, hinputs]
      simp only [hstep, hrest, bind, Except.bind]

end Runs

/-- **Chained runs are one run**, for every number of witnesses, wherever consecutive
tables carry the registries on and the rule is built with the same parts. -/
theorem chained_runs_continuous {D : Type} {sha256 : List UInt8 → D}
    (hsha256 : Function.Injective sha256) {rule : RuleMachine} (hrule : KeepsSources rule)
    (hparts : KeepsParts rule) {ws : List Witness} (hchained : Chained sha256 rule ws)
    (hcarries : ws.IsChain Carries) (hsame : ws.IsChain SameParts) :
    ws.IsChain (fun before after => leftBy rule before = after.rebuild) ∧
      ∀ first rest, ws = first :: rest → ∃ s, first.rebuild = .ok s ∧
        oneRun rule s ws = ws.mapM (leftBy rule) := by
  have hlinks : ws.IsChain (fun before after => leftBy rule before = after.rebuild) := by
    rw [List.isChain_iff_getElem] at hcarries hsame ⊢
    have hdigests := List.isChain_iff_getElem.mp hchained.digests
    intro k hk
    obtain ⟨out, hrun⟩ := hchained.runs ws[k] (List.getElem_mem _)
    obtain ⟨out', hrun'⟩ := hchained.runs ws[k + 1] (List.getElem_mem _)
    obtain ⟨left, hleft, hrebuild⟩ := rebuild_eq_left hsha256 hrule hparts hrun hrun'
      (hdigests k hk out out' hrun hrun') (hcarries k hk) (hsame k hk)
    rw [hleft, hrebuild]
  refine ⟨hlinks, ?_⟩
  rintro first rest rfl
  exact oneRun_eq first rest hchained.runs hlinks

/-! ## Two slots of one validator -/

/-- A rule that weighs the head with the newest source it was given. -/
def adopting : RuleMachine := fun inputs s =>
  return ({ s with
    headBalanceSource := inputs.headBalanceUpdate.getD s.headBalanceSource
    lastUpdateSlot := some inputs.slot }, ⟨false, false, false, none⟩)

theorem keepsSources_adopting : KeepsSources adopting := by
  intro inputs s left outcome h source hsource
  obtain rfl : _ = left := congrArg Prod.fst (Guest.pure_eq_ok.mp h)
  simp only [FastConfirmationRule.sources, List.mem_cons, List.not_mem_nil, or_false] at hsource
  rcases hsource with rfl | rfl | rfl
  · simp [FastConfirmationRule.sources]
  · simp [FastConfirmationRule.sources]
  · cases hupdate : inputs.headBalanceUpdate with
    | none => simp [FastConfirmationRule.sources]
    | some update => simp

theorem keepsParts_adopting : KeepsParts adopting := by
  intro inputs s left outcome h
  obtain rfl : _ = left := congrArg Prod.fst (Guest.pure_eq_ok.mp h)
  exact ⟨rfl, rfl, .inl rfl⟩

def noRoot : Bytes 32 := zeroBytes 32

def checkpoint : Cp := ⟨5, noRoot⟩

/-- One validator with a balance of 10, and of 20 in the second registry. -/
def witnessAt (slot secondEpoch : UInt64) (head : UInt32) (update : Option UInt32)
    (lastUpdateSlot : Option UInt64) : Witness where
  header := {
    slot
    headRoot := noRoot
    finalizedCheckpoint := checkpoint
    unrealizedJustifiedCheckpoint := checkpoint
    byzantineThreshold := 25
    proposerScoreBoost := 40
    state := ⟨noRoot, checkpoint, 0, checkpoint, 0, checkpoint, noRoot, noRoot, head,
      lastUpdateSlot⟩
    blocks := []
    extraRoots := []
    registries := [⟨5, 10, [], []⟩, ⟨secondEpoch, 20, [(0, 20)], []⟩]
    nValidators := 1
    equivocatingIndices := []
    headBalanceUpdate := update
    checkpointBalanceUpdate := none
    epochSeeds := [⟨6, noRoot, 0⟩] }
  voteRoots := [4294967295]
  voteSlots := [0]
  balances := [10]
  slashed := [0]

/-- Slot 192 takes up the registry of epoch 6, and slot 193 starts from it. -/
theorem chained_runs_continuous_two :
    ∃ s, (witnessAt 192 6 0 (some 1) none).rebuild = .ok s ∧
      oneRun adopting s [witnessAt 192 6 0 (some 1) none, witnessAt 193 6 1 none (some 192)] =
        [witnessAt 192 6 0 (some 1) none, witnessAt 193 6 1 none (some 192)].mapM
          (leftBy adopting) := by
  have hcarries :
      Carries (witnessAt 192 6 0 (some 1) none) (witnessAt 193 6 1 none (some 192)) := by
    intro i hi source hsource j hj hplace
    simp only [Witness.named, witnessAt, RuleState.registries, List.mem_append, List.mem_cons,
      List.not_mem_nil, or_false, Option.mem_toList, reduceCtorEq, or_self] at hi
    rcases hi with rfl | hi
    · obtain rfl := Except.ok.inj hsource
      obtain rfl := Option.some.inj hplace
      rfl
    · obtain rfl := Option.some.inj hi
      obtain rfl := Except.ok.inj hsource
      obtain rfl := Option.some.inj hplace
      rfl
  have hchained : Chained id adopting
      [witnessAt 192 6 0 (some 1) none, witnessAt 193 6 1 none (some 192)] := {
    runs := List.forall_mem_cons.mpr ⟨⟨_, rfl⟩, List.forall_mem_singleton.mpr ⟨_, rfl⟩⟩
    digests := List.isChain_pair.mpr fun out out' hrun hrun' => by
      obtain rfl := Except.ok.inj hrun
      obtain rfl := Except.ok.inj hrun'
      rfl }
  exact (chained_runs_continuous Function.injective_id keepsSources_adopting keepsParts_adopting
    hchained (List.isChain_pair.mpr hcarries) (List.isChain_pair.mpr ⟨rfl, rfl, rfl⟩)).2 _ _ rfl

/-- **Two registries of one epoch**: the first run weighs the head with the second
of them and reports the first. The digests chain, the tables and the parts are the same,
and the second run starts from another state. -/
theorem chained_runs_break :
    KeepsSources adopting ∧ KeepsParts adopting ∧
      Chained id adopting [witnessAt 192 5 1 none none, witnessAt 193 5 0 none (some 192)] ∧
      (witnessAt 192 5 1 none none).header.registries =
        (witnessAt 193 5 0 none (some 192)).header.registries ∧
      SameParts (witnessAt 192 5 1 none none) (witnessAt 193 5 0 none (some 192)) ∧
      ¬ leftBy adopting (witnessAt 192 5 1 none none) =
        (witnessAt 193 5 0 none (some 192)).rebuild := by
  refine ⟨keepsSources_adopting, keepsParts_adopting, ⟨?_, ?_⟩, rfl, ⟨rfl, rfl, rfl⟩, ?_⟩
  · exact List.forall_mem_cons.mpr ⟨⟨_, rfl⟩, List.forall_mem_singleton.mpr ⟨_, rfl⟩⟩
  · refine List.isChain_pair.mpr fun out out' hrun hrun' => ?_
    obtain rfl := Except.ok.inj hrun
    obtain rfl := Except.ok.inj hrun'
    rfl
  · intro h
    have hheads : (20 : UInt64) = 10 :=
      congrArg (fun s => s.headBalanceSource.totalActiveBalance) (Except.ok.inj h)
    exact absurd hheads (by decide)

/-- A witness that lets everything through. -/
def Witness.lenient (w : Witness) : Witness :=
  { w with header := { w.header with byzantineThreshold := 0, proposerScoreBoost := 0 } }

/-- **Thresholds of the second witness's own**: the digests chain, the registries are
carried on, and the second run starts from another state. -/
theorem chained_runs_lenient :
    Chained id adopting
        [witnessAt 192 6 0 none none, (witnessAt 193 6 0 none (some 192)).lenient] ∧
      Carries (witnessAt 192 6 0 none none) (witnessAt 193 6 0 none (some 192)).lenient ∧
      ¬ leftBy adopting (witnessAt 192 6 0 none none) =
        (witnessAt 193 6 0 none (some 192)).lenient.rebuild := by
  refine ⟨⟨?_, ?_⟩, ?_, ?_⟩
  · exact List.forall_mem_cons.mpr ⟨⟨_, rfl⟩, List.forall_mem_singleton.mpr ⟨_, rfl⟩⟩
  · refine List.isChain_pair.mpr fun out out' hrun hrun' => ?_
    obtain rfl := Except.ok.inj hrun
    obtain rfl := Except.ok.inj hrun'
    rfl
  · intro i hi source hsource j hj hplace
    simp only [Witness.named, witnessAt, RuleState.registries, List.mem_append, List.mem_cons,
      List.not_mem_nil, or_false, Option.mem_toList, reduceCtorEq, or_self] at hi
    obtain rfl := hi
    obtain rfl := Except.ok.inj hsource
    obtain rfl := Option.some.inj hplace
    rfl
  · intro h
    have hthresholds : (25 : UInt64) = 0 :=
      congrArg (fun s => s.byzantineThreshold) (Except.ok.inj h)
    exact absurd hthresholds (by decide)

end Zkasper.Fcr
