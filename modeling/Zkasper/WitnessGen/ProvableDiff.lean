import Zkasper.WitnessGen.HostDiff

/-! # When a step has a diff

The accumulator advances by exactly one epoch at a time, so an epoch without a diff is
an epoch it stays at. Between two registries with room in the tree a diff is assembled
and accepted exactly if something changed, a record or whether a validator is active
(`stepProvable_iff`): a diff of nothing is refused on both sides, by the host before it
opens anything and by the circuit as an empty leaf set.

A registry that outgrows the tree's power of two is another matter; the update of its
leaf stops the host (`AccTree.build_tracks_iff`). -/

namespace Zkasper

open Merkle PerfectTree Ssz

variable {P : Primitives}

/-! ## What changed -/

/-- The diff of a grown registry is empty exactly if the registry is the same and everybody's
activity is. -/
theorem findMutations_eq_nil_iff {R1 R2 : List ValidatorResponse} {epoch1 epoch2 : UInt64}
    (hgrow : Grows R1 R2) :
    findMutations R1 R2 epoch1 epoch2 = [] ↔
      R1 = R2 ∧ ∀ v ∈ R2, v.data.isActive epoch1 = v.data.isActive epoch2 := by
  rw [List.eq_nil_iff_forall_not_mem]
  simp only [mem_findMutations_iff hgrow, Changed, not_or, not_ne_iff]
  constructor
  · intro hsame
    obtain rfl := List.ext_getElem? fun i => (hsame i).1
    refine ⟨rfl, fun v hv => ?_⟩
    obtain ⟨i, hi⟩ := List.getElem?_of_mem hv
    have hactive := (hsame i).2
    rw [hi] at hactive
    exact Option.some.inj hactive
  · rintro ⟨rfl, hactive⟩ i
    refine ⟨rfl, ?_⟩
    cases hi : R1[i]? with
    | none => rfl
    | some v => exact congrArg some (hactive v (List.mem_of_getElem? hi))

/-! ## What has to be served -/

/-- The node serves the state a registry is in: no raw state at all, or one whose root, with
the registry's in its place, is the one the node has for the slot. -/
def BeaconApi.HasState (api : BeaconApi P) (slot : UInt64) (validatorsHtr : P.Bytes32) : Prop :=
  api.getStateSsz slot = .ok none ∨ ∃ raw fields,
    api.getStateSsz slot = .ok (some raw) ∧ api.fieldHtrs raw slot = .ok fields ∧
    ∀ context, expectedStateRoot api slot context = .ok (root P.sha256Pair stateDepth
      (Function.update fields beaconStateValidatorsFieldIndex validatorsHtr))

theorem checkedStateProof_isOk {api : BeaconApi P} {raw : api.RawState} {fields : ℕ → P.Bytes32}
    {validatorsHtr : P.Bytes32} {slot : UInt64} {context : String} (mismatch : String)
    (hfields : api.fieldHtrs raw slot = .ok fields)
    (hroot : expectedStateRoot api slot context = .ok (root P.sha256Pair stateDepth
      (Function.update fields beaconStateValidatorsFieldIndex validatorsHtr))) :
    ∃ out, checkedStateProof api raw validatorsHtr slot context mismatch = .ok out := by
  simp only [checkedStateProof, parseStateProof, Guest.bind_eq_ok, Guest.assert_eq_ok,
    Guest.pure_eq_ok, exists_const]
  exact ⟨_, _, hroot, _, ⟨fields, hfields, rfl⟩, buildStateTreeAndExtract_root _ _, rfl⟩

/-- **One legitimate step of the chain**: registries of consecutive epochs that fit both trees,
keys that host and circuit read alike, a cache of the first registry, and a node that serves what
is not cached. -/
structure ChainStep (api : BeaconApi P) (config : DiffConfig) (depth : ℕ)
    (oldState : EpochState P) (R1 R2 : List ValidatorResponse) (slot2 : UInt64) : Prop where
  grows : Grows R1 R2
  size : R2.length < 2 ^ 64
  accFits : R2.length ≤ 2 ^ depth
  sszFits : R2.length ≤ 2 ^ config.validatorsTreeDepth
  keys : ∀ v ∈ R2, ∃ point, Pubkey.decompress P v.pubkey = some point ∧
    Bls.decompressPubkey P v.pubkey = some point
  valid : oldState.Valid config.validatorsTreeDepth R1
  oldServed : oldState.stateToValidatorsSiblings = [] →
    api.HasState oldState.slot (registryRoot P config.validatorsTreeDepth R1)
  newServed : api.HasState slot2 (registryRoot P config.validatorsTreeDepth R2)
  next : slot2 / config.slotsPerEpoch = oldState.slot / config.slotsPerEpoch + 1

/-- **The step has a provable diff**: from the accumulator of the first registry the host
assembles a witness, and the circuit accepts it. -/
def StepProvable (api : BeaconApi P) (config : DiffConfig) (depth : ℕ) (oldState : EpochState P)
    (R1 R2 : List ValidatorResponse) (slot2 : UInt64) : Prop :=
  ∀ (tree : AccTree P) (total1 : UInt64),
    AccTree.build (R1.map (·.data)) (oldState.slot / config.slotsPerEpoch) depth = .ok tree →
      ∃ d out, buildHeld api config tree oldState R1 R2 slot2 total1 = .ok d ∧
        verifyEpochDiffWithDepth d.witness config.validatorsTreeDepth depth = .ok out

section Step

variable {api : BeaconApi P} {config : DiffConfig} {depth : ℕ} {oldState : EpochState P}
  {R1 R2 : List ValidatorResponse} {slot2 : UInt64}

/-- Mutations with a place in the tree and a key are built, whatever the tree holds. -/
theorem buildMutations_isOk {epoch2 : UInt64}
    (hkeys : ∀ v ∈ R2, ∃ point, Pubkey.decompress P v.pubkey = some point) :
    ∀ {indices : List ℕ} {tree : AccTree P} {t : ℕ → P.Digest}, tree.Keeps t →
      (∀ i ∈ indices, i < R2.length ∧ i < 2 ^ tree.denseDepth) →
        ∃ out, buildMutations R1 R2 epoch2 tree indices = .ok out := by
  intro indices
  induction indices with
  | nil => intro tree t _ _; exact ⟨_, rfl⟩
  | cons idx indices ih =>
      intro tree t hkeeps hindices
      obtain ⟨⟨hlt, hstored⟩, hrest⟩ := List.forall_mem_cons.mp hindices
      obtain ⟨point, hpoint⟩ := hkeys R2[idx] (List.getElem_mem hlt)
      obtain ⟨tree', hupdate, hkeeps', -, hdense⟩ := hkeeps.updateLeaf hstored
        (P.leaf point (R2[idx].data.activeEffectiveBalance epoch2))
      obtain ⟨out, hout⟩ := ih hkeeps' (hdense ▸ hrest)
      have hfirst : ∃ m, buildMutation R1 R2 epoch2 tree idx = .ok (m, tree') := by
        by_cases hlength : R1.length ≤ idx
        · simp only [buildMutation, Guest.bind_eq_ok, Guest.index_eq_ok, Guest.expect_eq_ok,
            if_pos hlength]
          exact ⟨_, R2[idx], List.getElem?_eq_getElem hlt, point, hpoint, _, hupdate, rfl⟩
        · simp only [buildMutation, Guest.bind_eq_ok, Guest.index_eq_ok, Guest.expect_eq_ok,
            if_neg hlength]
          exact ⟨_, R2[idx], List.getElem?_eq_getElem hlt, point, hpoint, _, hupdate, R1[idx],
            List.getElem?_eq_getElem (not_le.mp hlength), rfl⟩
      obtain ⟨m, hm⟩ := hfirst
      simp only [buildMutations, Guest.bind_eq_ok, Guest.pure_eq_ok]
      exact ⟨_, _, hm, _, hout, rfl⟩

theorem ChainStep.oldStateProof (h : ChainStep api config depth oldState R1 R2 slot2) :
    ∃ out, oldStateProof api oldState
      (root P.sha256Pair config.validatorsTreeDepth (registryLeaf P R1)) = .ok out := by
  unfold Zkasper.oldStateProof
  by_cases hcached : oldState.stateToValidatorsSiblings ≠ []
  · rw [if_pos hcached]
    exact ⟨_, rfl⟩
  · rw [if_neg hcached]
    simp only [Guest.bind_eq_ok]
    rcases h.oldServed (not_not.mp hcached) with hnone | ⟨raw, fields, hraw, hfields, hroot⟩
    · exact ⟨_, none, hnone, rfl⟩
    · rw [registryRoot, ← h.valid.numValidators] at hroot
      obtain ⟨out, hout⟩ := checkedStateProof_isOk "SSZ state root mismatch at slot_1" hfields
        (hroot "fetch header at slot_1")
      exact ⟨out, some raw, hraw, hout⟩

theorem ChainStep.newStateProof (h : ChainStep api config depth oldState R1 R2 slot2)
    (slot1 : UInt64) (stateRoot1 : P.Bytes32) :
    ∃ out, newStateProof api slot1 slot2 stateRoot1
      (root P.sha256Pair config.validatorsTreeDepth (registryLeaf P R2))
      (UInt64.ofNat R2.length) = .ok out := by
  unfold Zkasper.newStateProof
  simp only [Guest.bind_eq_ok]
  rcases h.newServed with hnone | ⟨raw, fields, hraw, hfields, hroot⟩
  · exact ⟨_, none, hnone, rfl⟩
  · obtain ⟨out, hout⟩ := checkedStateProof_isOk "SSZ state root mismatch at slot_2" hfields
      (hroot "fetch header at slot_2")
    exact ⟨out, some raw, hraw, hout⟩

/-- **A step with something to prove has a diff.** Where the tree has room, a legitimate step is
provable exactly if a record changed, a validator joined or an activity flipped. A step without
any is refused, whatever the tree and the total. -/
theorem stepProvable_iff (h : ChainStep api config depth oldState R1 R2 slot2)
    (hroom : R2.length ≤ 2 ^ max (Nat.clog 2 R1.length) 1) :
    (StepProvable api config depth oldState R1 R2 slot2 ↔
      R1 ≠ R2 ∨ ∃ v ∈ R2, v.data.isActive (oldState.slot / config.slotsPerEpoch) ≠
        v.data.isActive (slot2 / config.slotsPerEpoch)) ∧
    (¬ (R1 ≠ R2 ∨ ∃ v ∈ R2, v.data.isActive (oldState.slot / config.slotsPerEpoch) ≠
        v.data.isActive (slot2 / config.slotsPerEpoch)) →
      ∀ (tree : AccTree P) (total1 : UInt64) (d : HeldDiff P),
        buildHeld api config tree oldState R1 R2 slot2 total1 ≠ .ok d) := by
  have hchanged : (R1 ≠ R2 ∨ ∃ v ∈ R2, v.data.isActive (oldState.slot / config.slotsPerEpoch) ≠
      v.data.isActive (slot2 / config.slotsPerEpoch)) ↔
        findMutations R1 R2 (oldState.slot / config.slotsPerEpoch)
          (slot2 / config.slotsPerEpoch) ≠ [] := by
    rw [ne_eq (findMutations _ _ _ _), findMutations_eq_nil_iff h.grows, not_and_or]
    simp only [ne_eq, not_forall, exists_prop]
  rw [hchanged]
  have hrefuses : ∀ (tree : AccTree P) (total1 : UInt64) (d : HeldDiff P),
      buildHeld api config tree oldState R1 R2 slot2 total1 = .ok d →
        findMutations R1 R2 (oldState.slot / config.slotsPerEpoch)
          (slot2 / config.slotsPerEpoch) ≠ [] := by
    intro tree total1 d hrun
    obtain ⟨_, _, _, _, _, _, hne, -⟩ := buildHeld_eq_ok h.grows hroom h.valid rfl rfl hrun
    exact hne
  have hkeys1 : ∀ v ∈ R1.map (·.data), ∃ point, Pubkey.decompress P v.pubkey = some point := by
    intro v hv
    obtain ⟨r, hr, rfl⟩ := List.mem_map.mp hv
    obtain ⟨i, hi, rfl⟩ := List.getElem_of_mem hr
    have hi2 := hi.trans_le h.grows.length_le
    have hkey := h.grows.pubkey i _ _ (List.getElem?_eq_getElem hi) (List.getElem?_eq_getElem hi2)
    obtain ⟨point, hpoint, -⟩ := h.keys _ (List.getElem_mem hi2)
    exact ⟨point, (congrArg (Pubkey.decompress P) hkey).trans hpoint⟩
  refine ⟨?_, fun hsame tree total1 d hrun => hsame (hrefuses tree total1 d hrun)⟩
  constructor
  · intro hprovable
    obtain ⟨tree, htree⟩ := AccTree.build_isOk_iff.mpr hkeys1
    -- any total will do for the refusal
    obtain ⟨d, out, hrun, -⟩ := hprovable tree 0 htree
    exact hrefuses tree 0 d hrun
  · intro hne tree total1 htree
    obtain ⟨rfl, hdense, hcount, hholds⟩ := AccTree.build_padded htree
    rw [AccTree.paddedLeaves_registry (h.grows.length_le.trans h.accFits)] at hholds
    rw [List.length_map] at hdense
    have hplace : R2.length ≤ 2 ^ tree.denseDepth := by
      rw [hdense]
      rcases le_total (max (Nat.clog 2 R1.length) 1) tree.depth with hle | hle
      · rwa [min_eq_left hle]
      · rw [min_eq_right hle]
        exact h.accFits
    obtain ⟨proof1, hproof1⟩ := h.oldStateProof
    obtain ⟨proof2, hproof2⟩ := h.newStateProof oldState.slot proof1.1
    -- every step of the host goes through, and then the circuit accepts
    obtain ⟨mutations, hmutations⟩ : ∃ out,
        buildMutations R1 R2 (slot2 / config.slotsPerEpoch) tree
          (findMutations R1 R2 (oldState.slot / config.slotsPerEpoch)
            (slot2 / config.slotsPerEpoch)) = .ok out :=
      buildMutations_isOk (fun v hv => (h.keys v hv).imp fun _ hpoint => hpoint.1)
        ⟨hholds, hcount⟩ fun i hi =>
          ⟨lt_of_mem_findMutations hi, (lt_of_mem_findMutations hi).trans_le hplace⟩
    have hrun : ∃ d, buildHeld api config tree oldState R1 R2 slot2 total1 = .ok d := by
      simp only [buildHeld, h.valid.oldRoots, patchRoots_eq h.grows, Guest.bind_eq_ok,
        Guest.assert_eq_ok, exists_const, Guest.pure_eq_ok]
      exact ⟨_, hne,
        _, buildValidatorsSszTree_eq (h.grows.length_le.trans h.sszFits) findMutations_pairwise
          (findMutations_stored h.grows hroom h.sszFits (.inl rfl)),
        _, rfl,
        _, buildValidatorsSszTree_eq h.sszFits findMutations_pairwise
          (findMutations_stored h.grows hroom h.sszFits (.inr rfl)),
        proof1, hproof1, proof2, hproof2, mutations, hmutations, rfl⟩
    obtain ⟨d, hd⟩ := hrun
    have hagrees : ∀ i ∈ findMutations R1 R2 (oldState.slot / config.slotsPerEpoch)
        (slot2 / config.slotsPerEpoch), KeyAgrees P R2 i := by
      intro i _ v hv
      obtain ⟨point, hhost, hcircuit⟩ := h.keys v (List.mem_of_getElem? hv)
      rw [hhost, hcircuit]
    obtain ⟨⟨out, hout, -⟩, -⟩ :=
      buildHeld_accepted h.grows h.size hagrees ⟨hholds, hcount⟩ hroom h.valid rfl rfl hd
    exact ⟨d, out, hd, hout⟩

end Step

/-! ## Steps over the free instance -/

namespace Formal

/-- The first `n` generators' keys, 32 units each. -/
def roster (n : ℕ) : List ValidatorResponse :=
  (List.range n).map fun k => validator (UInt8.ofNat k) 32

theorem roster_grows {n m : ℕ} (h : n ≤ m) : Grows (roster n) (roster m) := by
  refine ⟨by simpa [roster] using h, fun i old new hold hnew => ?_⟩
  have hi : i < n := by
    simpa [roster] using (List.getElem?_eq_some_iff.mp hold).1
  rw [roster, List.getElem?_map, List.getElem?_range hi, Option.map_some] at hold
  rw [roster, List.getElem?_map, List.getElem?_range (hi.trans_le h), Option.map_some] at hnew
  obtain rfl := Option.some.inj hold
  obtain rfl := Option.some.inj hnew
  rfl

/-- From the first to the second epoch, in trees of `2 ^ depth` leaves. -/
theorem roster_chainStep {n m depth : ℕ} (h : n ≤ m) (hfits : m ≤ 2 ^ depth)
    (hsize : m < 2 ^ 64)
    (hkeys : ∀ k < m, ∃ point,
      Pubkey.decompress (formal {}) (validator (.ofNat k) 32).pubkey = some point ∧
        Bls.decompressPubkey (formal {}) (validator (.ofNat k) 32).pubkey = some point) :
    ChainStep headerless ⟨depth, 32⟩ depth (EpochState.empty 0 (UInt64.ofNat n)) (roster n)
      (roster m) 32 where
  grows := roster_grows h
  size := by simpa [roster] using hsize
  accFits := by simpa [roster] using hfits
  sszFits := by simpa [roster] using hfits
  keys := by
    intro v hv
    obtain ⟨k, hk, rfl⟩ := List.mem_map.mp hv
    exact hkeys k (List.mem_range.mp hk)
  valid := ⟨by simp [roster, EpochState.empty], .inl rfl, .inl rfl⟩
  oldServed := fun _ => .inl rfl
  newServed := .inl rfl
  next := by
    show (32 / 32 : UInt64) = 0 / 32 + 1
    decide

end Formal

/-- A second validator joins the first. -/
theorem stepProvable_joined : StepProvable Formal.headerless ⟨1, 32⟩ 1
    (Formal.EpochState.empty 0 1) (Formal.roster 1) (Formal.roster 2) 32 := by
  have hstep : ChainStep Formal.headerless ⟨1, 32⟩ 1 (Formal.EpochState.empty 0 1)
      (Formal.roster 1) (Formal.roster 2) 32 :=
    Formal.roster_chainStep (by decide) (by decide) (by decide) (by decide)
  apply (stepProvable_iff hstep (by decide)).1.mpr
  left
  intro h
  exact absurd (congrArg List.length h) (by decide)

/-- **Steps without a diff**: one in which nothing changes, and one that grows past a power of
two. -/
theorem chainStep_not_provable :
    (ChainStep Formal.headerless ⟨1, 32⟩ 1 (Formal.EpochState.empty 0 1) (Formal.roster 1)
        (Formal.roster 1) 32 ∧
      ¬ StepProvable Formal.headerless ⟨1, 32⟩ 1 (Formal.EpochState.empty 0 1) (Formal.roster 1)
        (Formal.roster 1) 32) ∧
    (ChainStep Formal.headerless ⟨2, 32⟩ 2 (Formal.EpochState.empty 0 2) (Formal.roster 2)
        (Formal.roster 3) 32 ∧
      ¬ StepProvable Formal.headerless ⟨2, 32⟩ 2 (Formal.EpochState.empty 0 2) (Formal.roster 2)
        (Formal.roster 3) 32) := by
  refine ⟨⟨Formal.roster_chainStep (by decide) (by decide) (by decide) (by decide), fun h => ?_⟩,
    Formal.roster_chainStep (by decide) (by decide) (by decide) (by decide), fun h => ?_⟩
  · obtain ⟨tree, htree, hstop⟩ : ∃ tree : AccTree (Formal.formal {}),
        AccTree.build ((Formal.roster 1).map (·.data)) (0 / 32) 1 = .ok tree ∧
          (buildHeld Formal.headerless ⟨1, 32⟩ tree (Formal.EpochState.empty 0 1)
            (Formal.roster 1) (Formal.roster 1) 32 32).isOk = false := by
      decide +kernel
    obtain ⟨d, out, hrun, -⟩ := h tree 32 htree
    rw [hrun] at hstop
    cases hstop
  · obtain ⟨tree, htree, hstop⟩ : ∃ tree : AccTree (Formal.formal {}),
        AccTree.build ((Formal.roster 2).map (·.data)) (0 / 32) 2 = .ok tree ∧
          (buildHeld Formal.headerless ⟨2, 32⟩ tree (Formal.EpochState.empty 0 2)
            (Formal.roster 2) (Formal.roster 3) 32 64).isOk = false := by
      decide +kernel
    obtain ⟨d, out, hrun, -⟩ := h tree 64 htree
    rw [hrun] at hstop
    cases hstop

end Zkasper
