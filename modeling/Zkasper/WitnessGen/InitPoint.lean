import Zkasper.WitnessGen.ProvableDiff
import Zkasper.WitnessGen.Store

/-! # Init points

`init_point.rs`: where an accumulator chain starts. A point is taken out of a beacon state by
walking its registry, and a chain is opened from one by walking the registry again and holding
every field against the walk.

The two walks are one function of the registry, so they agree wherever the point comes from.
What opening does not compare with anything is the state root, which is trusted, and the branch
is only held against that root: a point opens exactly if it is the one taken at its slot but
for these two, and its branch leads from the registry to its root (`openAt_iff_taken`). Where the
root is the one the chain has, hashing leaves one branch of the state's length. -/

namespace Zkasper

open Merkle PerfectTree Ssz
open Store (Snapshot StoreState)

variable {P : Primitives}

/-! ## The tuple -/

/-- The trusted starting point of an accumulator chain. -/
@[ext] structure InitPoint (P : Primitives) where
  chain : String
  epoch : UInt64
  /-- The trusted input: nothing here proves it is canonical. -/
  stateRoot : P.Bytes32
  numValidators : UInt64
  totalActiveBalance : UInt64
  accRoot : P.Digest
  accumulatorCommitment : P.Digest
  /-- The branch from the state root down to the validators field. -/
  stateToValidatorsSiblings : List P.Bytes32

/-- The part of the chain's configuration a walk reads. -/
structure InitConfig where
  slotsPerEpoch : UInt64
  validatorsTreeDepth : ℕ
  accTreeDepth : ℕ

/-- A node that also serves the registry of a slot. -/
structure InitApi (P : Primitives) extends BeaconApi P where
  getValidators : UInt64 → Except String (List ValidatorResponse)

namespace InitPoint

/-- Everything that can be checked from the tuple alone. -/
def check (init : InitPoint P) : Except String Unit := do
  Guest.assert (init.chain ≠ "") "init point names no chain"
  Guest.assert (init.numValidators ≠ 0) "init point has no validators"
  Guest.assert (P.commitment init.accRoot init.totalActiveBalance = init.accumulatorCommitment)
    ("accumulator_commitment does not bind acc_root and total_active_balance " ++
      s!"{init.totalActiveBalance}")

/-- First slot of the epoch, the state the registry was read at. -/
def slot (init : InitPoint P) (config : InitConfig) : UInt64 := init.epoch * config.slotsPerEpoch

/-! ## Walking a registry -/

/-- What walking a state's validator registry produces. -/
structure Walk (P : Primitives) where
  tree : AccTree P
  validatorRoots : List P.Bytes32
  sszDataRoot : P.Bytes32
  numValidators : UInt64
  totalActiveBalance : UInt64

/-- Build the accumulator and the SSZ view of the registry at `slot`. -/
def walk (validators : List ValidatorResponse) (config : InitConfig) (slot epoch : UInt64) :
    Except String (Walk P) := do
  let numValidators := UInt64.ofNat validators.length
  Guest.assert (0 < numValidators) s!"the registry at slot {slot} is empty"
  let validatorRoots := buildValidatorRoots P validators
  let (sszDataRoot, _) ← buildValidatorsSszTree validatorRoots config.validatorsTreeDepth []
  let tree ← AccTree.build (validators.map (·.data)) epoch config.accTreeDepth
  return {
    tree
    validatorRoots
    sszDataRoot
    numValidators
    totalActiveBalance := activeBalance validators epoch }

/-- The registry's root, as a state has it. -/
def Walk.validatorsHtr (walked : Walk P) : P.Bytes32 :=
  listHashTreeRoot P walked.sszDataRoot walked.numValidators

/-! ## Taking one, and opening one -/

/-- The branch out of the state a node serves, or out of a synthetic one, which is the base of its
chain and records no boundary before it. -/
def stateProof (api : InitApi P) (slot : UInt64) (walked : Walk P) :
    Except String (P.Bytes32 × List P.Bytes32) := do
  match ← api.getStateSsz slot with
  | some raw => parseStateProof api.toBeaconApi raw walked.validatorsHtr slot
  | none =>
      return makeStateProof walked.sszDataRoot walked.numValidators ⟨0, P.zeroChunk, P.zeroChunk⟩

/-- Take an init point from a registry, with the snapshot of a daemon that starts from it. -/
def takeHeld (api : InitApi P) (config : InitConfig) (chain : String) (slot : UInt64)
    (validators : List ValidatorResponse) : Except String (InitPoint P × Snapshot P) := do
  Guest.assert (slot % config.slotsPerEpoch = 0) s!"slot {slot} is not an epoch boundary"
  let epoch := slot / config.slotsPerEpoch
  let walked ← walk validators config slot epoch
  let (stateRoot, siblings) ← stateProof api slot walked
  let claimed ← expectedStateRoot api.toBeaconApi slot s!"fetch the header at slot {slot}"
  Guest.assert (stateRoot = claimed)
    s!"the state root computed at slot {slot} is not the one the chain says"
  let accRoot := walked.tree.root
  return ({
    chain
    epoch
    stateRoot
    numValidators := walked.numValidators
    totalActiveBalance := walked.totalActiveBalance
    accRoot
    accumulatorCommitment := P.commitment accRoot walked.totalActiveBalance
    stateToValidatorsSiblings := siblings },
  {
    state := .started chain epoch accRoot walked.totalActiveBalance walked.numValidators
    tree := walked.tree
    epochState := {
      slot
      stateRoot
      stateToValidatorsSiblings := siblings
      validatorRoots := walked.validatorRoots
      sszDataRoot := walked.sszDataRoot
      numValidators := walked.numValidators } })

def fetchRegistry (api : InitApi P) (slot : UInt64) : Except String (List ValidatorResponse) :=
  (api.getValidators slot).mapError fun _ => s!"fetch the validator registry at slot {slot}"

def take (api : InitApi P) (config : InitConfig) (chain : String) (slot : UInt64) :
    Except String (InitPoint P × Snapshot P) := do
  takeHeld api config chain slot (← fetchRegistry api slot)

/-- Start a chain from an init point, checking it against a walk of the registry. -/
def openHeld (config : InitConfig) (chainName : String) (init : InitPoint P)
    (validators : List ValidatorResponse) : Except String (Snapshot P) := do
  init.check
  Guest.assert (init.chain = chainName)
    s!"init point is for {init.chain}, but this run is configured for {chainName}"
  let slot := init.slot config
  let walked ← (walk validators config slot init.epoch).mapError fun _ =>
    s!"walk the registry the init point names, at slot {slot}"
  Guest.assert (walked.numValidators = init.numValidators)
    (s!"init point claims {init.numValidators} validators at epoch {init.epoch}, " ++
      s!"but the state at slot {slot} has {walked.numValidators}")
  Guest.assert (walked.totalActiveBalance = init.totalActiveBalance)
    (s!"init point claims a total active balance of {init.totalActiveBalance} at epoch " ++
      s!"{init.epoch}, but the state at slot {slot} gives {walked.totalActiveBalance}")
  let accRoot := walked.tree.root
  Guest.assert (accRoot = init.accRoot)
    (s!"init point claims another accumulator root at epoch {init.epoch} than the state " ++
      s!"at slot {slot} builds")
  let opened := computeSszMerkleRoot P walked.validatorsHtr beaconStateValidatorsFieldIndex
    init.stateToValidatorsSiblings
  Guest.assert (opened = init.stateRoot)
    s!"the registry at slot {slot} and the init point's branch do not open to its state root"
  return {
    state := .started init.chain init.epoch accRoot init.totalActiveBalance init.numValidators
    tree := walked.tree
    epochState := {
      slot
      stateRoot := init.stateRoot
      stateToValidatorsSiblings := init.stateToValidatorsSiblings
      validatorRoots := walked.validatorRoots
      sszDataRoot := walked.sszDataRoot
      numValidators := walked.numValidators } }

/-- `open` -/
def openAt (api : InitApi P) (config : InitConfig) (chainName : String) (init : InitPoint P) :
    Except String (Snapshot P) := do
  openHeld config chainName init (← fetchRegistry api (init.slot config))

/-! ## What is taken -/

section Points

variable {api : InitApi P} {config : InitConfig} {chain : String} {slot : UInt64}
  {init taken : InitPoint P} {snapshot : Snapshot P}

/-- A walk hashes the registry as a state does. -/
theorem walk_validatorsHtr {validators : List ValidatorResponse} {epoch : UInt64} {walked : Walk P}
    (h : walk validators config slot epoch = .ok walked) :
    walked.validatorsHtr = registryRoot P config.validatorsTreeDepth validators := by
  simp only [walk, Guest.bind_eq_ok, Guest.assert_eq_ok, Guest.pure_eq_ok, exists_const] at h
  obtain ⟨-, ⟨dataRoot, auxiliaries⟩, htree, tree, -, rfl⟩ := h
  have hfits := length_le_of_buildValidatorsSszTree htree
  obtain ⟨_, _, -, hbuild⟩ := buildValidatorsSszTree_dense (P := P) [] hfits
  have hroot := (Prod.mk.inj (Except.ok.inj (htree.symm.trans hbuild))).1
  rw [Walk.validatorsHtr, registryRoot, hroot]
  simp only [buildValidatorRoots_getD]

/-- Either branch leads from the registry's root to the state root. -/
theorem stateProof_opens {walked : Walk P} {stateRoot : P.Bytes32} {siblings : List P.Bytes32}
    (h : stateProof api slot walked = .ok (stateRoot, siblings)) :
    computeSszMerkleRoot P walked.validatorsHtr beaconStateValidatorsFieldIndex siblings =
      stateRoot := by
  simp only [stateProof, Guest.bind_eq_ok] at h
  obtain ⟨served, -, h⟩ := h
  cases served with
  | some raw =>
      simp only [parseStateProof, Guest.bind_eq_ok, Guest.pure_eq_ok] at h
      obtain ⟨fields, -, hextract⟩ := h
      have hopens := buildStateTreeAndExtract_opens _ (by decide) hextract
      rwa [Function.update_self] at hopens
  | none => exact makeStateProof_opens (Guest.pure_eq_ok.mp h)

/-- **What is taken**: the walk of the registry at the slot, and a branch from its root to the
state root that opens it. -/
theorem take_eq_ok (h : take api config chain slot = .ok (taken, snapshot)) :
    ∃ validators walked, api.getValidators slot = .ok validators ∧
      slot % config.slotsPerEpoch = 0 ∧
      walk validators config slot (slot / config.slotsPerEpoch) = .ok walked ∧
      computeSszMerkleRoot P walked.validatorsHtr beaconStateValidatorsFieldIndex
        taken.stateToValidatorsSiblings = taken.stateRoot ∧
      taken = {
        chain
        epoch := slot / config.slotsPerEpoch
        stateRoot := taken.stateRoot
        numValidators := walked.numValidators
        totalActiveBalance := walked.totalActiveBalance
        accRoot := walked.tree.root
        accumulatorCommitment := P.commitment walked.tree.root walked.totalActiveBalance
        stateToValidatorsSiblings := taken.stateToValidatorsSiblings } ∧
      snapshot = {
        state := .started chain (slot / config.slotsPerEpoch) walked.tree.root
          walked.totalActiveBalance walked.numValidators
        tree := walked.tree
        epochState := {
          slot
          stateRoot := taken.stateRoot
          stateToValidatorsSiblings := taken.stateToValidatorsSiblings
          validatorRoots := walked.validatorRoots
          sszDataRoot := walked.sszDataRoot
          numValidators := walked.numValidators } } := by
  simp only [take, takeHeld, Guest.bind_eq_ok, Guest.assert_eq_ok, Guest.pure_eq_ok,
    exists_const] at h
  obtain ⟨validators, hfetch, hboundary, walked, hwalk, ⟨stateRoot, siblings⟩, hproof, -, -, -,
    hpair⟩ := h
  obtain ⟨rfl, rfl⟩ := Prod.mk.inj hpair
  refine ⟨validators, walked, ?_, hboundary, hwalk, stateProof_opens hproof, rfl, rfl⟩
  exact Guest.mapError_eq_ok.mp hfetch

/-! ## What opens -/

/-- **What is opened**: a point whose every field but two is the walk's at its epoch, and whose
branch leads from the registry's root to its state root. -/
theorem openAt_eq_ok {chainName : String} {opened : Snapshot P} :
    openAt api config chainName init = .ok opened ↔
      (init.chain ≠ "" ∧ init.numValidators ≠ 0 ∧
        P.commitment init.accRoot init.totalActiveBalance = init.accumulatorCommitment ∧
        init.chain = chainName) ∧
      ∃ validators walked, api.getValidators (init.slot config) = .ok validators ∧
        walk validators config (init.slot config) init.epoch = .ok walked ∧
        walked.numValidators = init.numValidators ∧
        walked.totalActiveBalance = init.totalActiveBalance ∧ walked.tree.root = init.accRoot ∧
        computeSszMerkleRoot P walked.validatorsHtr beaconStateValidatorsFieldIndex
          init.stateToValidatorsSiblings = init.stateRoot ∧
        {
          state := .started init.chain init.epoch walked.tree.root init.totalActiveBalance
            init.numValidators
          tree := walked.tree
          epochState := {
            slot := init.slot config
            stateRoot := init.stateRoot
            stateToValidatorsSiblings := init.stateToValidatorsSiblings
            validatorRoots := walked.validatorRoots
            sszDataRoot := walked.sszDataRoot
            numValidators := walked.numValidators } } = opened := by
  simp only [openAt, openHeld, check, fetchRegistry, Guest.bind_eq_ok, Guest.assert_eq_ok,
    Guest.pure_eq_ok, Guest.mapError_eq_ok, exists_const]
  constructor
  · rintro ⟨validators, hfetch, ⟨hnamed, hcount, hbinds⟩, hchain, walked, hwalk, h⟩
    exact ⟨⟨hnamed, hcount, hbinds, hchain⟩, validators, walked, hfetch, hwalk, h⟩
  · rintro ⟨⟨hnamed, hcount, hbinds, hchain⟩, validators, walked, hfetch, hwalk, h⟩
    exact ⟨validators, hfetch, ⟨hnamed, hcount, hbinds⟩, hchain, walked, hwalk, h⟩

/-- A first slot that is a slot at all is on a boundary, of its own epoch. -/
theorem slot_boundary (hpos : 0 < config.slotsPerEpoch)
    (hslot : init.epoch.toNat * config.slotsPerEpoch.toNat < 2 ^ 64) :
    init.slot config % config.slotsPerEpoch = 0 ∧
      init.slot config / config.slotsPerEpoch = init.epoch := by
  have hpos : 0 < config.slotsPerEpoch.toNat := UInt64.lt_iff_toNat_lt.mp hpos
  have hmul : (init.slot config).toNat = init.epoch.toNat * config.slotsPerEpoch.toNat := by
    rw [slot, UInt64.toNat_mul, Nat.mod_eq_of_lt hslot]
  constructor
  · apply UInt64.toNat_inj.mp
    rw [UInt64.toNat_mod, hmul, Nat.mul_mod_left]
    rfl
  · apply UInt64.toNat_inj.mp
    rw [UInt64.toNat_div, hmul, Nat.mul_div_cancel _ hpos]

/-- The snapshot of a daemon that goes by another state root and branch. -/
def rebased (snapshot : Snapshot P) (init : InitPoint P) : Snapshot P :=
  { snapshot with epochState := { snapshot.epochState with
      stateRoot := init.stateRoot
      stateToValidatorsSiblings := init.stateToValidatorsSiblings } }

/-- **A point opens exactly if it is the one taken at its slot**, but for the state root it is
trusted for and the branch to it. -/
theorem openAt_iff_taken (hpos : 0 < config.slotsPerEpoch)
    (hslot : init.epoch.toNat * config.slotsPerEpoch.toNat < 2 ^ 64)
    (htake : take api config chain (init.slot config) = .ok (taken, snapshot))
    {opened : Snapshot P} :
    openAt api config chain init = .ok opened ↔
      chain ≠ "" ∧
      init = { taken with
        stateRoot := init.stateRoot
        stateToValidatorsSiblings := init.stateToValidatorsSiblings } ∧
      computeSszMerkleRoot P
        (listHashTreeRoot P snapshot.epochState.sszDataRoot snapshot.epochState.numValidators)
        beaconStateValidatorsFieldIndex init.stateToValidatorsSiblings = init.stateRoot ∧
      opened = rebased snapshot init := by
  obtain ⟨-, hepoch⟩ := slot_boundary hpos hslot
  obtain ⟨validators, walked, hfetch, -, hwalk, -, htaken, hsnapshot⟩ := take_eq_ok htake
  rw [hepoch] at hwalk htaken hsnapshot
  -- `take` refused an empty registry already
  have hcount : walked.numValidators ≠ 0 := by
    simp only [walk, Guest.bind_eq_ok, Guest.assert_eq_ok, Guest.pure_eq_ok, exists_const] at hwalk
    obtain ⟨hpos, _, -, _, -, rfl⟩ := hwalk
    intro hzero
    have hlength : UInt64.ofNat validators.length = 0 := hzero
    rw [hlength] at hpos
    exact absurd hpos (by decide)
  rw [openAt_eq_ok]
  constructor
  · rintro ⟨⟨hchain, -, hbinds, hnamed⟩, validators', walked', hfetch', hwalk', hnum, htotal,
      hroot, hopens, rfl⟩
    -- both asked for the same epoch, so they walked the same records
    obtain rfl : validators = validators' := Except.ok.inj (hfetch.symm.trans hfetch')
    obtain rfl : walked = walked' := Except.ok.inj (hwalk.symm.trans hwalk')
    refine ⟨hnamed ▸ hchain, ?_, ?_, ?_⟩
    · rw [htaken]
      refine InitPoint.ext hnamed rfl rfl hnum.symm htotal.symm hroot.symm ?_ rfl
      rw [← hbinds, ← hroot, ← htotal]
    · rw [hsnapshot]
      exact hopens
    · rw [rebased, hsnapshot, hnamed, htotal, hnum]
  · rintro ⟨hchain, hinit, hopens, rfl⟩
    rw [htaken] at hinit
    rw [hsnapshot] at hopens
    have hnamed : init.chain = chain := congrArg InitPoint.chain hinit
    have hnum : init.numValidators = walked.numValidators := congrArg InitPoint.numValidators hinit
    have htotal : init.totalActiveBalance = walked.totalActiveBalance :=
      congrArg InitPoint.totalActiveBalance hinit
    have hroot : init.accRoot = walked.tree.root := congrArg InitPoint.accRoot hinit
    have hbinds : init.accumulatorCommitment = _ :=
      congrArg InitPoint.accumulatorCommitment hinit
    refine ⟨⟨hnamed ▸ hchain, hnum ▸ hcount, ?_, hnamed⟩, validators, walked, hfetch, hwalk,
      hnum.symm, htotal.symm, hroot.symm, hopens, ?_⟩
    · rw [hbinds, hroot, htotal]
    · rw [rebased, hsnapshot, hnamed, htotal, hnum]

/-- **Opening is regenerating, up to what is trusted.** Where a node has a point to take at the
first slot of a tuple's epoch, the tuple opens exactly if the chain is named, it is that point in
every field but its state root and branch, and the branch leads from the registry's root to its own
state root; the snapshot is then the one taken, with that root and branch. The point taken opens to
its own snapshot, and it is the only one of its state root with a branch of that length. -/
theorem opened_is_taken (hsha : Function.Injective2 P.sha256Pair) (hpos : 0 < config.slotsPerEpoch)
    (hslot : init.epoch.toNat * config.slotsPerEpoch.toNat < 2 ^ 64)
    (htake : take api config chain (init.slot config) = .ok (taken, snapshot)) :
    (∃ validators, api.getValidators (init.slot config) = .ok validators ∧
      ∀ opened, openAt api config chain init = .ok opened ↔
        chain ≠ "" ∧
        init = { taken with
          stateRoot := init.stateRoot
          stateToValidatorsSiblings := init.stateToValidatorsSiblings } ∧
        computeSszMerkleRoot P (registryRoot P config.validatorsTreeDepth validators)
          beaconStateValidatorsFieldIndex init.stateToValidatorsSiblings = init.stateRoot ∧
        opened = rebased snapshot init) ∧
    (chain ≠ "" → openAt api config chain taken = .ok snapshot) ∧
    (init.stateRoot = taken.stateRoot →
      init.stateToValidatorsSiblings.length = taken.stateToValidatorsSiblings.length →
      ∀ opened, openAt api config chain init = .ok opened → init = taken ∧ opened = snapshot) := by
  obtain ⟨-, hepoch⟩ := slot_boundary hpos hslot
  obtain ⟨validators, walked, hfetch, -, hwalk, hbranch, htaken, hsnapshot⟩ := take_eq_ok htake
  have hregistry := walk_validatorsHtr hwalk
  have hhtr : listHashTreeRoot P snapshot.epochState.sszDataRoot
      snapshot.epochState.numValidators = walked.validatorsHtr := by
    rw [hsnapshot]
    rfl
  have hsame : taken.epoch = init.epoch := by
    rw [htaken]
    exact hepoch
  have hbase : rebased snapshot taken = snapshot := by
    rw [rebased, hsnapshot]
  have htakenSlot : taken.slot config = init.slot config := by
    rw [slot, slot, hsame]
  refine ⟨⟨validators, hfetch, fun opened => ?_⟩, ?_, ?_⟩
  · rw [openAt_iff_taken hpos hslot htake, hhtr, hregistry]
  · intro hchain
    rw [← htakenSlot] at htake
    rw [openAt_iff_taken hpos (hsame ▸ hslot) htake, hhtr, hbase]
    exact ⟨hchain, rfl, hbranch, rfl⟩
  · intro hroot hlength opened hopened
    obtain ⟨-, hinit, hopens, rfl⟩ := (openAt_iff_taken hpos hslot htake).mp hopened
    rw [hhtr] at hopens
    -- two branches of one length from one leaf to one root are the same
    have hsiblings : init.stateToValidatorsSiblings = taken.stateToValidatorsSiblings :=
      (computeRoot_injective hsha hlength (hopens.trans (hroot.trans hbranch.symm))).2
    have heq : init = taken := by
      rw [hinit, hroot, hsiblings]
    exact ⟨heq, heq ▸ hbase⟩

/-! ### A synthetic chain -/

/-- A node without raw states that goes by the synthetic root has a point to take. -/
theorem take_synthetic {validators : List ValidatorResponse} {walked : Walk P}
    (hfetch : api.getValidators slot = .ok validators) (hslot : slot % config.slotsPerEpoch = 0)
    (hwalk : walk validators config slot (slot / config.slotsPerEpoch) = .ok walked)
    (hserves : api.getStateSsz slot = .ok none)
    (hclaims : api.getStateRoot slot = .ok (some (makeStateProof walked.sszDataRoot
      walked.numValidators ⟨0, P.zeroChunk, P.zeroChunk⟩).1)) :
    ∃ taken snapshot, take api config chain slot = .ok (taken, snapshot) ∧
      taken.epoch = slot / config.slotsPerEpoch ∧
      snapshot.epochState.stateToValidatorsSiblings = taken.stateToValidatorsSiblings ∧
      taken.stateToValidatorsSiblings.length = stateDepth := by
  have hproof : stateProof api slot walked = .ok (makeStateProof walked.sszDataRoot
      walked.numValidators ⟨0, P.zeroChunk, P.zeroChunk⟩) := by
    rw [stateProof, hserves]
    rfl
  have hclaimed : ∀ context, expectedStateRoot api.toBeaconApi slot context =
      .ok (makeStateProof walked.sszDataRoot walked.numValidators
        ⟨0, P.zeroChunk, P.zeroChunk⟩).1 := by
    intro context
    rw [expectedStateRoot, hclaims]
    rfl
  simp only [take, takeHeld, fetchRegistry, Guest.bind_eq_ok, Guest.assert_eq_ok,
    Guest.pure_eq_ok, Guest.mapError_eq_ok, exists_const]
  refine ⟨_, _, ⟨validators, hfetch, hslot, walked, hwalk, _, hproof, _, hclaimed _, rfl, rfl⟩,
    rfl, rfl, ?_⟩
  rw [makeStateProof, buildStateTreeAndExtract_siblings _ (by decide), siblingPath_length]

end Points

end InitPoint

namespace Formal

/-- Mainnet's tree depths and epochs. -/
def mainnetInit : InitConfig := ⟨32, 40, 22⟩

/-- The data root of a registry of three validators. -/
def rosterDataRoot : Term := root Term.pair 40 (registryLeaf (formal {}) (roster 3))

/-- A chain of three validators whose states are the synthetic ones. -/
def syntheticChain : InitApi (formal {}) where
  toBeaconApi := { headerless with
    getStateRoot := fun _ => .ok (some (makeStateProof (P := formal {}) rosterDataRoot 3
      ⟨0, (formal {}).zeroChunk, (formal {}).zeroChunk⟩).1) }
  getValidators := fun _ => .ok (roster 3)

theorem roster_walk : ∃ walked : InitPoint.Walk (formal {}),
    InitPoint.walk (roster 3) mainnetInit 0 0 = .ok walked ∧
      walked.sszDataRoot = rosterDataRoot ∧ walked.numValidators = 3 := by
  obtain ⟨tree, htree⟩ : ∃ tree : AccTree (formal {}),
      AccTree.build ((roster 3).map (·.data)) 0 22 = .ok tree := ⟨_, rfl⟩
  have hfits : (buildValidatorRoots (formal {}) (roster 3)).length ≤ 2 ^ 40 := by
    rw [buildValidatorRoots, List.length_map, roster, List.length_map, List.length_range]
    decide
  obtain ⟨_, _, -, hbuild⟩ := buildValidatorsSszTree_dense [] hfits
  have hroot : root (formal {}).sha256Pair 40 (fun i =>
      (buildValidatorRoots (formal {}) (roster 3)).getD i (formal {}).zeroChunk) =
        rosterDataRoot :=
    congrArg (root _ 40) (funext (buildValidatorRoots_getD (roster 3)))
  rw [hroot] at hbuild
  refine ⟨⟨tree, buildValidatorRoots (formal {}) (roster 3), rosterDataRoot,
    UInt64.ofNat (roster 3).length, activeBalance (roster 3) 0⟩, ?_, rfl, rfl⟩
  simp only [InitPoint.walk, Guest.bind_eq_ok, Guest.assert_eq_ok, Guest.pure_eq_ok, exists_const]
  exact ⟨by decide, _, hbuild, tree, htree, rfl⟩

/-- Its point at the first slot. -/
theorem syntheticChain_take : ∃ taken snapshot,
    InitPoint.take syntheticChain mainnetInit "mainnet" 0 = .ok (taken, snapshot) ∧
      taken.epoch = 0 ∧
      snapshot.epochState.stateToValidatorsSiblings = taken.stateToValidatorsSiblings ∧
      taken.stateToValidatorsSiblings.length = stateDepth := by
  obtain ⟨walked, hwalk, hroot, hnum⟩ := roster_walk
  refine InitPoint.take_synthetic rfl (by decide) hwalk rfl ?_
  rw [hroot, hnum]
  rfl

end Formal

namespace InitPoint

open Formal

/-- The point of that chain, opened. -/
theorem opened_synthetic : ∃ taken snapshot,
    take syntheticChain mainnetInit "mainnet" 0 = .ok (taken, snapshot) ∧
      openAt syntheticChain mainnetInit "mainnet" taken = .ok snapshot := by
  obtain ⟨taken, snapshot, htake, hepoch, -⟩ := syntheticChain_take
  have hslot : taken.slot mainnetInit = 0 := by
    rw [slot, hepoch]
    rfl
  have hfirst : taken.epoch.toNat * mainnetInit.slotsPerEpoch.toNat < 2 ^ 64 := by
    rw [hepoch]
    decide
  rw [← hslot] at htake
  have hopen := (opened_is_taken (formal_collisionFree {}).sha256Pair (by decide) hfirst htake).2.1
  exact ⟨taken, snapshot, hslot ▸ htake, hopen (by decide)⟩

/-- **Another root and branch.** A branch of no siblings leads from the registry's root to that
root itself, so the point that names it opens, and it is not the one the chain has. -/
theorem opened_not_taken : ∃ (init taken : InitPoint (formal {})) (snapshot opened : Snapshot _),
    take syntheticChain mainnetInit "mainnet" (init.slot mainnetInit) = .ok (taken, snapshot) ∧
      openAt syntheticChain mainnetInit "mainnet" init = .ok opened ∧
      init ≠ taken ∧ opened ≠ snapshot := by
  obtain ⟨taken, snapshot, htake, hepoch, hsame, hlength⟩ := syntheticChain_take
  let htr := listHashTreeRoot (formal {}) snapshot.epochState.sszDataRoot
    snapshot.epochState.numValidators
  let init : InitPoint (formal {}) := { taken with stateRoot := htr, stateToValidatorsSiblings := [] }
  have hslot : init.slot mainnetInit = 0 := by
    show taken.epoch * 32 = 0
    rw [hepoch]
    rfl
  have hfirst : init.epoch.toNat * mainnetInit.slotsPerEpoch.toNat < 2 ^ 64 := by
    show taken.epoch.toNat * 32 < 2 ^ 64
    rw [hepoch]
    decide
  refine ⟨init, taken, snapshot, rebased snapshot init, hslot.symm ▸ htake, ?_, ?_, ?_⟩
  · exact (openAt_iff_taken (by decide) hfirst (hslot.symm ▸ htake)).mpr
      ⟨by decide, rfl, rfl, rfl⟩
  · intro heq
    have hnil : 0 = taken.stateToValidatorsSiblings.length :=
      congrArg (fun point => point.stateToValidatorsSiblings.length) heq
    rw [hlength] at hnil
    exact absurd hnil (by decide)
  · intro heq
    have hnil : 0 = snapshot.epochState.stateToValidatorsSiblings.length :=
      congrArg (fun held => held.epochState.stateToValidatorsSiblings.length) heq
    rw [hsame, hlength] at hnil
    exact absurd hnil (by decide)

end InitPoint

end Zkasper
