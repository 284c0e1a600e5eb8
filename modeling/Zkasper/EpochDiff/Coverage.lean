import Zkasper.EpochDiff
import Zkasper.Merkle.Unnamed

/-! # Which registry changes an epoch diff covers

The circuit opens its mutations against the registries of both states, so each of
them says the truth about the validator it names (`Opened`). It never compares
what the two openings leave unnamed: the auxiliaries of the two multi-proofs are
independent, and a record, or an activity change, that no mutation names passes
unseen.

So the published accumulator is that of the second registry exactly when the
mutations name every position whose leaf changed (`accRoot_eq_iff`), and a diff
that omits one is accepted all the same. What it takes that none is omitted can be
read off the witness: the two openings take the same auxiliaries, both trees read
each index at one position, and nobody without a mutation becomes active or ceases
to be (`diff_covers_iff`). -/

namespace Zkasper

open PerfectTree Merkle Ssz

variable {P : Primitives}

/-! ## What the loop collects for the SSZ openings -/

/-- A mutation with the two SSZ leaves it put into the openings. -/
structure OpensSsz (m : ValidatorMutation P) (oldRoot newRoot : P.Bytes32) : Prop where
  key : ∃ point, Bls.decompressPubkey P m.newData.pubkey = some point
  fields : ∃ u, verifyFieldLeaves P m.newData m.newFieldLeaves m.newPubkeyChunks = .ok u
  new : newRoot = validatorHashTreeRoot P m.newFieldLeaves
  old : m.isNew = true → oldRoot = P.zeroChunk

theorem openMutation_ssz {epoch1 : UInt64} {accRoot : P.Digest} {m : ValidatorMutation P}
    {point : P.G1Point} {oldRoot newRoot : P.Bytes32}
    (hpoint : Bls.decompressPubkey P m.newData.pubkey = some point)
    (h : openMutation epoch1 accRoot m point = .ok (oldRoot, newRoot)) :
    OpensSsz m oldRoot newRoot := by
  unfold openMutation at h
  cases hnew : m.isNew <;> simp only [hnew, if_true, if_false, Bool.false_eq_true,
    Guest.bind_eq_ok, Guest.assert_eq_ok, exists_const, Guest.pure_eq_ok,
    validatorHashTreeRootPair_eq, Prod.mk.injEq] at h
  · obtain ⟨u, hfields, -, -, -, -, -, rfl⟩ := h
    exact ⟨⟨point, hpoint⟩, ⟨u, hfields⟩, rfl, by simp [hnew]⟩
  · obtain ⟨-, u, hfields, rfl, rfl⟩ := h
    exact ⟨⟨point, hpoint⟩, ⟨u, hfields⟩, rfl, fun _ => rfl⟩

/-- The loop collects one leaf of each tree for every mutation, in their order. -/
theorem mutations_ssz {epoch1 epoch2 : UInt64} :
    ∀ {ms : List (ValidatorMutation P)} {s s' : DiffState P},
      ms.foldlM (applyMutation epoch1 epoch2) s = .ok s' →
        ∃ roots : List (P.Bytes32 × P.Bytes32),
          List.Forall₂ (fun m r => OpensSsz m r.1 r.2) ms roots ∧
          s'.oldSszLeaves = s.oldSszLeaves ++
            (roots.zip ms).map (fun x => (x.1.1, x.2.validatorIndex.toNat)) ∧
          s'.newSszLeaves = s.newSszLeaves ++
            (roots.zip ms).map (fun x => (x.1.2, x.2.validatorIndex.toNat)) := by
  intro ms
  induction ms with
  | nil =>
      intro s s' hrun
      obtain rfl := Guest.foldlM_nil.mp hrun
      exact ⟨[], .nil, by simp, by simp⟩
  | cons m ms ih =>
      intro s s' hrun
      obtain ⟨mid, hstep, hrest⟩ := Guest.foldlM_cons.mp hrun
      obtain ⟨point, oldRoot, newRoot, hpoint, hopen, rfl⟩ := applyMutation_eq_ok hstep
      obtain ⟨roots, hroots, hold, hnew⟩ := ih hrest
      refine ⟨(oldRoot, newRoot) :: roots, .cons (openMutation_ssz hpoint hopen) hroots, ?_, ?_⟩
      · rw [hold]
        simp
      · rw [hnew]
        simp

/-! ## Every named validator is the registry's -/

/-- A state root opened at the validators field along a branch of the registry's
length is opened at the registry's own data root. -/
theorem dataRoot_eq_of_stateRoot (hP : CollisionFree P) {sszDepth : ℕ}
    {R : List ValidatorResponse} {dataRoot stateRoot : P.Bytes32} {length : UInt64}
    {siblings : List P.Bytes32} (hR : HashesInto P sszDepth siblings.length R stateRoot)
    (h : computeSszMerkleRoot P (listHashTreeRoot P dataRoot length)
      beaconStateValidatorsFieldIndex siblings = stateRoot) :
    dataRoot = root P.sha256Pair sszDepth (registryLeaf P R) := by
  obtain ⟨-, own, hlen, hown⟩ := hR
  have hleaf := (computeRoot_injective hP.sha256Pair hlen.symm (h.trans hown.symm)).1
  exact (hP.sha256Pair_inj.mp hleaf).1

/-- What the openings say of the mutations of an accepted diff: each names a
record of the new registry and carries its data, a new one names nothing of the
old registry, and their positions in the registry differ and agree above its
depth. -/
structure Names (sszDepth : ℕ) (R1 R2 : List ValidatorResponse)
    (ms : List (ValidatorMutation P)) : Prop where
  record : ∀ m ∈ ms, ∃ v point, R2[m.validatorIndex.toNat % 2 ^ sszDepth]? = some v ∧
    m.newData = v.data ∧ Bls.decompressPubkey P v.pubkey = some point
  absent : ∀ m ∈ ms, m.isNew = true → R1[m.validatorIndex.toNat % 2 ^ sszDepth]? = none
  high : ∃ high, ∀ m ∈ ms, m.validatorIndex.toNat / 2 ^ sszDepth = high
  nodup : (ms.map fun m => m.validatorIndex.toNat % 2 ^ sszDepth).Nodup

theorem OpensSsz.record (hP : CollisionFree P) {m : ValidatorMutation P}
    {oldRoot newRoot : P.Bytes32} {R : List ValidatorResponse} {i : ℕ}
    (h : OpensSsz m oldRoot newRoot) (hroot : newRoot = registryLeaf P R i) :
    ∃ v point, R[i]? = some v ∧ m.newData = v.data ∧
      Bls.decompressPubkey P v.pubkey = some point := by
  rw [h.new, registryLeaf] at hroot
  split at hroot
  · next v hv =>
      obtain ⟨u, hfields⟩ := h.fields
      -- the record's own field leaves, and the data was checked against them
      rw [validatorHashTreeRoot_injective hP hroot] at hfields
      have hdata := verifyFieldLeaves_eq_ok hP hfields
      obtain ⟨point, hpoint⟩ := h.key
      rw [hdata] at hpoint
      exact ⟨v, point, hv, hdata, hpoint⟩
  · exact absurd hroot (validatorHashTreeRoot_ne_zeroChunk hP _)

theorem OpensSsz.absent (hP : CollisionFree P) {m : ValidatorMutation P}
    {oldRoot newRoot : P.Bytes32} {R : List ValidatorResponse} {i : ℕ}
    (h : OpensSsz m oldRoot newRoot) (hroot : oldRoot = registryLeaf P R i)
    (hnew : m.isNew = true) : R[i]? = none := by
  rw [h.old hnew, registryLeaf] at hroot
  split at hroot
  · exact absurd hroot.symm (validatorHashTreeRoot_ne_zeroChunk hP _)
  · assumption

/-- **An accepted diff names registry records.** -/
theorem verifyEpochDiff_names (hP : CollisionFree P) {w : EpochDiffWitness P}
    {sszDepth accDepth : ℕ} {out : EpochDiffOutput P} {R1 R2 : List ValidatorResponse}
    (h : verifyEpochDiffWithDepth w sszDepth accDepth = .ok out)
    (h1 : HashesInto P sszDepth w.stateToValidatorsSiblings1.length R1 w.stateRoot1)
    (h2 : HashesInto P sszDepth w.stateToValidatorsSiblings2.length R2 w.stateRoot2) :
    Names sszDepth R1 R2 w.mutations := by
  obtain ⟨s, root1, root2, -, hloop, hroot1, hroot2, hstate1, hstate2, -⟩ :=
    verifyEpochDiff_eq_ok h
  obtain rfl := dataRoot_eq_of_stateRoot hP h1 hstate1
  obtain rfl := dataRoot_eq_of_stateRoot hP h2 hstate2
  obtain ⟨roots, hroots, hold, hnew⟩ := mutations_ssz hloop
  rw [List.nil_append] at hold hnew
  have hold1 := (batchRoot_sound hP.sha256Pair hroot1).1
  obtain ⟨hnew1, ⟨high, hhigh⟩, hnodup⟩ := batchRoot_sound hP.sha256Pair hroot2
  rw [hold] at hold1
  rw [hnew] at hnew1 hhigh hnodup
  -- every mutation stands in the zipped list with the roots it produced
  have hzip : ∀ m ∈ w.mutations, ∃ r, (r, m) ∈ roots.zip w.mutations ∧ OpensSsz m r.1 r.2 := by
    intro m hm
    obtain ⟨i, hi, rfl⟩ := List.getElem_of_mem hm
    have hi' : i < roots.length := hroots.length_eq ▸ hi
    exact ⟨roots[i], List.mem_iff_getElem.mpr ⟨i, by simp [hi, hi'], by simp⟩,
      (List.forall₂_iff_get.mp hroots).2 i hi hi'⟩
  refine ⟨fun m hm => ?_, fun m hm hisNew => ?_, ⟨high, fun m hm => ?_⟩, ?_⟩
  · obtain ⟨r, hr, hopens⟩ := hzip m hm
    exact hopens.record hP (hnew1 _ (List.mem_map_of_mem hr))
  · obtain ⟨r, hr, hopens⟩ := hzip m hm
    exact hopens.absent hP (hold1 _ (List.mem_map_of_mem hr)) hisNew
  · obtain ⟨r, hr, -⟩ := hzip m hm
    exact hhigh _ (List.mem_map_of_mem hr)
  · have hsnd : (roots.zip w.mutations).map Prod.snd = w.mutations :=
      List.map_snd_zip (le_of_eq hroots.length_eq)
    rw [List.map_map] at hnodup
    rw [← hsnd, List.map_map]
    exact hnodup

/-! ## Where the accumulator is written -/

/-- A position no mutation names is left as it was. -/
theorem Writes.of_unnamed {d : ℕ} {epoch2 : UInt64} {ms : List (ValidatorMutation P)}
    {t t' : Contents P} (h : Writes d epoch2 ms t t') {i : ℕ}
    (hi : ∀ m ∈ ms, m.validatorIndex.toNat % 2 ^ d ≠ i) : t' i = t i := by
  induction h with
  | nil t => rfl
  | cons leaf rest ih =>
      rw [ih fun m hm => hi m (List.mem_cons_of_mem _ hm),
        Function.update_of_ne (hi _ List.mem_cons_self).symm]

/-- A position one mutation names holds its new leaf. -/
theorem Writes.of_named {d : ℕ} {epoch2 : UInt64} {ms : List (ValidatorMutation P)}
    {t t' : Contents P} (h : Writes d epoch2 ms t t')
    (hnodup : (ms.map fun m => m.validatorIndex.toNat % 2 ^ d).Nodup) {m : ValidatorMutation P}
    (hm : m ∈ ms) : t' (m.validatorIndex.toNat % 2 ^ d) = m.newLeaf epoch2 := by
  induction h with
  | nil t => exact absurd hm (by simp)
  | cons leaf rest ih =>
      rw [List.map_cons, List.nodup_cons] at hnodup
      rcases List.mem_cons.mp hm with rfl | hm
      · rw [rest.of_unnamed fun m' hm' heq => hnodup.1 (List.mem_map.mpr ⟨m', hm', heq⟩),
          Function.update_self, leaf]
      · exact ih hnodup.2 hm

/-- A mutation of an existing validator replaces an occupied leaf of the old accumulator. -/
theorem mutations_occupied (hP : CollisionFree P) {d : ℕ} {epoch1 epoch2 : UInt64} :
    ∀ {ms : List (ValidatorMutation P)} {s s' : DiffState P} {t : Contents P},
      (∀ m ∈ ms, m.accSiblings.length = d) → s.accRoot = t.accRoot d →
        ms.foldlM (applyMutation epoch1 epoch2) s = .ok s' →
          (ms.map fun m => m.validatorIndex.toNat % 2 ^ d).Nodup →
            ∀ m ∈ ms, m.isNew = false → ∃ l, t (m.validatorIndex.toNat % 2 ^ d) = some l := by
  intro ms
  induction ms with
  | nil => intro s s' t _ _ _ _ m hm; exact absurd hm (by simp)
  | cons a ms ih =>
      intro s s' t hlen hroot hrun hnodup m hm hold
      obtain ⟨mid, hstep, hrest⟩ := Guest.foldlM_cons.mp hrun
      rw [List.map_cons, List.nodup_cons] at hnodup
      rcases List.mem_cons.mp hm with rfl | hm
      · obtain ⟨point, oldRoot, newRoot, -, hopen, -⟩ := applyMutation_eq_ok hstep
        exact ⟨_, by rw [openMutation_old hP (hlen m List.mem_cons_self) hroot hopen, hold]; rfl⟩
      · obtain ⟨l, -, hmid, -⟩ :=
          applyMutation_writes hP (hlen a List.mem_cons_self) hroot hstep
        obtain ⟨l', hl'⟩ := ih (fun m' hm' => hlen m' (List.mem_cons_of_mem _ hm')) hmid hrest
          hnodup.2 m hm hold
        rw [Function.update_of_ne fun heq =>
          hnodup.1 (List.mem_map.mpr ⟨m, hm, heq⟩)] at hl'
        exact ⟨l', hl'⟩

/-! ## The two depths

A validator index is read modulo the depth of the tree it opens, so the same
mutation can name one position of the registry and another of the accumulator. It
does not where both trees hold the registry. -/

/-- A position of the registry that fits the accumulator is found again in the accumulator's. -/
theorem accPosition_mod {k sszDepth accDepth : ℕ} (h : k % 2 ^ sszDepth < 2 ^ accDepth) :
    k % 2 ^ accDepth % 2 ^ sszDepth = k % 2 ^ sszDepth := by
  rcases le_total accDepth sszDepth with hle | hle
  · have hmod : k % 2 ^ sszDepth % 2 ^ accDepth = k % 2 ^ accDepth :=
      Nat.mod_mod_of_dvd k (pow_dvd_pow 2 hle)
    rw [Nat.mod_eq_of_lt h] at hmod
    rw [← hmod, Nat.mod_mod]
  · exact Nat.mod_mod_of_dvd k (pow_dvd_pow 2 hle)

/-- A mutation that carries a record's data writes the record's leaf. -/
theorem newLeaf_eq_registryContents {R : List ValidatorResponse} {m : ValidatorMutation P}
    {v : ValidatorResponse} {point : P.G1Point} {i : ℕ} (epoch : UInt64) (hv : R[i]? = some v)
    (hdata : m.newData = v.data) (hpoint : Bls.decompressPubkey P v.pubkey = some point) :
    m.newLeaf epoch = registryContents P R epoch i := by
  rw [registryContents_of_some hv hpoint, ValidatorMutation.newLeaf, hdata]
  exact congrArg (Option.map _) hpoint

namespace Names

variable {sszDepth accDepth : ℕ} {R1 R2 : List ValidatorResponse}
  {ms : List (ValidatorMutation P)} {m : ValidatorMutation P}

theorem position_lt (h : Names sszDepth R1 R2 ms) (hm : m ∈ ms) :
    m.validatorIndex.toNat % 2 ^ sszDepth < R2.length := by
  obtain ⟨v, -, hv, -⟩ := h.record m hm
  exact (List.getElem?_eq_some_iff.mp hv).1

theorem position_mod (h : Names sszDepth R1 R2 ms) (hfit : R2.length < 2 ^ accDepth)
    (hm : m ∈ ms) :
    m.validatorIndex.toNat % 2 ^ accDepth % 2 ^ sszDepth =
      m.validatorIndex.toNat % 2 ^ sszDepth :=
  accPosition_mod ((h.position_lt hm).trans hfit)

/-- The mutations name different positions of the accumulator too. -/
theorem nodup_accPositions (h : Names sszDepth R1 R2 ms) (hfit : R2.length < 2 ^ accDepth) :
    (ms.map fun m => m.validatorIndex.toNat % 2 ^ accDepth).Nodup := by
  apply List.Nodup.of_map (· % 2 ^ sszDepth)
  have hpositions := List.map_congr_left fun m hm => h.position_mod (m := m) hfit hm
  rw [List.map_map]
  exact hpositions ▸ h.nodup

/-- An existing validator's mutation names one position in both trees: the leaf it
replaced lies inside the old registry. -/
theorem position_of_old (h : Names sszDepth R1 R2 ms) (hfit : R2.length < 2 ^ accDepth)
    (hm : m ∈ ms) {epoch1 : UInt64} {l : AccLeaf P} (hR1 : R1.length ≤ 2 ^ sszDepth)
    (hl : registryContents P R1 epoch1 (m.validatorIndex.toNat % 2 ^ accDepth) = some l) :
    m.validatorIndex.toNat % 2 ^ accDepth = m.validatorIndex.toNat % 2 ^ sszDepth := by
  have hlt := (lt_length_of_registryContents hl).trans_le hR1
  rw [← h.position_mod hfit hm, Nat.mod_eq_of_lt hlt]

/-- So does a new validator's, where every changed leaf is named: its position of
the registry changed, and the mutation that names it can only be this one. -/
theorem position_of_new (hP : CollisionFree P) (h : Names sszDepth R1 R2 ms)
    (hfit : R2.length < 2 ^ accDepth) {epoch1 epoch2 : UInt64}
    (hcover : ∀ i < 2 ^ accDepth, (registryContents P R1 epoch1).digest i ≠
        (registryContents P R2 epoch2).digest i →
      ∃ m ∈ ms, m.validatorIndex.toNat % 2 ^ accDepth = i)
    (hm : m ∈ ms) (hisNew : m.isNew = true) :
    m.validatorIndex.toNat % 2 ^ accDepth = m.validatorIndex.toNat % 2 ^ sszDepth := by
  obtain ⟨v, point, hv, -, hpoint⟩ := h.record m hm
  have hchanged : (registryContents P R1 epoch1).digest (m.validatorIndex.toNat % 2 ^ sszDepth) ≠
      (registryContents P R2 epoch2).digest (m.validatorIndex.toNat % 2 ^ sszDepth) := by
    rw [Contents.digest, registryContents_of_none (h.absent m hm hisNew),
      Contents.digest, registryContents_of_some hv hpoint]
    exact (hP.leaf_ne_zero _ _).symm
  obtain ⟨m', hm', heq⟩ := hcover _ ((h.position_lt hm).trans hfit) hchanged
  -- both indices agree above the registry and inside it
  obtain ⟨high, hhigh⟩ := h.high
  have hmod : m'.validatorIndex.toNat % 2 ^ sszDepth =
      m.validatorIndex.toNat % 2 ^ sszDepth := by
    rw [← h.position_mod hfit hm', heq, Nat.mod_mod]
  have hindex : m'.validatorIndex.toNat = m.validatorIndex.toNat := by
    rw [← Nat.div_add_mod m'.validatorIndex.toNat (2 ^ sszDepth), hhigh m' hm', hmod,
      ← hhigh m hm, Nat.div_add_mod]
  rw [← hindex, heq, hindex]

end Names

/-- **Coverage.** Over registries that hash into the two state roots, the
accumulator an accepted diff publishes is the second registry's exactly when every
position whose leaf changed between the two is named by a mutation. -/
theorem accRoot_eq_iff (hP : CollisionFree P) {w : EpochDiffWitness P} {sszDepth accDepth : ℕ}
    {out : EpochDiffOutput P} {R1 R2 : List ValidatorResponse}
    (h : verifyEpochDiffWithDepth w sszDepth accDepth = .ok out)
    (h1 : HashesInto P sszDepth w.stateToValidatorsSiblings1.length R1 w.stateRoot1)
    (h2 : HashesInto P sszDepth w.stateToValidatorsSiblings2.length R2 w.stateRoot2)
    (hfit : R2.length < 2 ^ accDepth)
    (hroot : w.accRoot1 = (registryContents P R1 w.epoch1).accRoot accDepth) :
    out.accRoot = (registryContents P R2 w.epoch2).accRoot accDepth ↔
      ∀ i < 2 ^ accDepth, (registryContents P R1 w.epoch1).digest i ≠
          (registryContents P R2 w.epoch2).digest i →
        ∃ m ∈ w.mutations, m.validatorIndex.toNat % 2 ^ accDepth = i := by
  have hnames := verifyEpochDiff_names hP h h1 h2
  have hnodup := hnames.nodup_accPositions hfit
  obtain ⟨t', hwrites, hout, -⟩ := verifyEpochDiff_writes hP h hroot
  obtain ⟨s, -, -, hlen, hloop, -⟩ := verifyEpochDiff_eq_ok h
  constructor
  · intro heq i hi hne
    -- the diff leaves an unnamed position as it was, so the roots can only agree if nothing moved
    by_contra hunnamed
    simp only [not_exists, not_and] at hunnamed
    apply hne
    rw [hout] at heq
    rw [← Contents.eq_of_accRoot hP heq i hi, Contents.digest, Contents.digest,
      hwrites.of_unnamed hunnamed]
  · intro hcover
    rw [hout]
    apply root_congr _
    intro i hi
    -- a named position holds the record the diff brings, any other the leaf it had
    by_cases hnamed : ∃ m ∈ w.mutations, m.validatorIndex.toNat % 2 ^ accDepth = i
    · obtain ⟨m, hm, rfl⟩ := hnamed
      obtain ⟨v, point, hv, hdata, hpoint⟩ := hnames.record m hm
      have hsame : m.validatorIndex.toNat % 2 ^ accDepth =
          m.validatorIndex.toNat % 2 ^ sszDepth := by
        cases hisNew : m.isNew with
        | false =>
            obtain ⟨l, hl⟩ := mutations_occupied hP hlen hroot hloop hnodup m hm hisNew
            exact hnames.position_of_old hfit hm h1.1 hl
        | true => exact hnames.position_of_new hP hfit hcover hm hisNew
      rw [Contents.digest, Contents.digest, hwrites.of_named hnodup hm, hsame,
        newLeaf_eq_registryContents w.epoch2 hv hdata hpoint]
    · have hunnamed : ∀ m ∈ w.mutations, m.validatorIndex.toNat % 2 ^ accDepth ≠ i :=
        fun m hm heq => hnamed ⟨m, hm, heq⟩
      have hunchanged := not_imp_comm.mp (hcover i hi) hnamed
      rw [← hunchanged, Contents.digest, Contents.digest, hwrites.of_unnamed hunnamed]

/-! ## What the circuit would have to compare -/

theorem fieldLeaves_injective (hP : CollisionFree P) :
    Function.Injective (ValidatorResponse.fieldLeaves P) := by
  intro v v' h
  have hleaf := fun i => congrFun h i
  obtain ⟨hlow, hhigh⟩ := hP.sha256Pair_inj.mp (hleaf 0)
  have hlow' := congrArg Subtype.val (hP.ofBytes hlow)
  have hhigh' := congrArg Subtype.val (hP.ofBytes hhigh)
  have hkey : v.pubkey = v'.pubkey := by
    apply Subtype.ext
    rw [← List.take_append_drop 32 v.pubkey.1, ← List.take_append_drop 32 v'.pubkey.1]
    exact congrArg₂ _ hlow' (List.append_cancel_right hhigh')
  have hslashed : v.slashed = v'.slashed := by
    have hflag := hP.chunk_injective (hleaf 3)
    cases hv : v.slashed <;> cases hv' : v'.slashed <;> simp [hv, hv'] at hflag ⊢
  cases v
  cases v'
  obtain rfl := hkey
  obtain rfl := hslashed
  rw [ValidatorResponse.mk.injEq]
  exact ⟨rfl, hP.chunk_injective (hleaf 2), hP.chunk_injective (hleaf 5),
    hP.chunk_injective (hleaf 6), hP.ofBytes (hleaf 1), rfl, hP.chunk_injective (hleaf 4),
    hP.chunk_injective (hleaf 7)⟩

/-- A position of the registry's tree holds its record, or nothing. -/
theorem registryLeaf_eq_iff (hP : CollisionFree P) {R R' : List ValidatorResponse} {i : ℕ} :
    registryLeaf P R i = registryLeaf P R' i ↔ R[i]? = R'[i]? := by
  constructor
  · intro h
    unfold registryLeaf at h
    split at h
    · next v hv =>
        split at h
        · next v' hv' =>
            have hleaves := validatorHashTreeRoot_injective hP h
            rw [hv, hv', fieldLeaves_injective hP hleaves]
        · exact absurd h (validatorHashTreeRoot_ne_zeroChunk hP _)
    · next hv =>
        split at h
        · exact absurd h.symm (validatorHashTreeRoot_ne_zeroChunk hP _)
        · next hv' => rw [hv, hv']
  · intro h
    unfold registryLeaf
    rw [h]

/-- **The two openings take the same auxiliaries** exactly when the registries agree on every
record that no mutation names. -/
theorem multiProofs_eq_iff (hP : CollisionFree P) {w : EpochDiffWitness P} {sszDepth accDepth : ℕ}
    {out : EpochDiffOutput P} {R1 R2 : List ValidatorResponse}
    (h : verifyEpochDiffWithDepth w sszDepth accDepth = .ok out)
    (h1 : HashesInto P sszDepth w.stateToValidatorsSiblings1.length R1 w.stateRoot1)
    (h2 : HashesInto P sszDepth w.stateToValidatorsSiblings2.length R2 w.stateRoot2) :
    w.sszMultiProof1 = w.sszMultiProof2 ↔ ∀ i < 2 ^ sszDepth,
      (∀ m ∈ w.mutations, m.validatorIndex.toNat % 2 ^ sszDepth ≠ i) → R1[i]? = R2[i]? := by
  obtain ⟨s, root1, root2, -, hloop, hroot1, hroot2, hstate1, hstate2, -⟩ :=
    verifyEpochDiff_eq_ok h
  obtain rfl := dataRoot_eq_of_stateRoot hP h1 hstate1
  obtain rfl := dataRoot_eq_of_stateRoot hP h2 hstate2
  obtain ⟨roots, hroots, hold, hnew⟩ := mutations_ssz hloop
  have hindices : ∀ f : P.Bytes32 × P.Bytes32 → P.Bytes32, ((roots.zip w.mutations).map
      fun x => (f x.1, x.2.validatorIndex.toNat)).map Prod.snd =
        w.mutations.map fun m => m.validatorIndex.toNat := by
    intro f
    have hsnd : (roots.zip w.mutations).map Prod.snd = w.mutations :=
      List.map_snd_zip (le_of_eq hroots.length_eq)
    rw [List.map_map]
    nth_rewrite 2 [← hsnd]
    rw [List.map_map]
    rfl
  have hold' : s.oldSszLeaves.map Prod.snd = w.mutations.map fun m => m.validatorIndex.toNat := by
    rw [hold]
    exact hindices Prod.fst
  have hnew' : s.newSszLeaves.map Prod.snd = w.mutations.map fun m => m.validatorIndex.toNat := by
    rw [hnew]
    exact hindices Prod.snd
  -- both openings are asked at the same positions, those of the mutations
  have hnamed : ∀ i, (∀ n ∈ s.oldSszLeaves, n.2 % 2 ^ sszDepth ≠ i) ↔
      ∀ m ∈ w.mutations, m.validatorIndex.toNat % 2 ^ sszDepth ≠ i := by
    intro i
    have hkeys : (∀ k ∈ s.oldSszLeaves.map Prod.snd, k % 2 ^ sszDepth ≠ i) ↔
        ∀ k ∈ w.mutations.map fun m => m.validatorIndex.toNat, k % 2 ^ sszDepth ≠ i := by
      rw [hold']
    simpa only [List.forall_mem_map] using hkeys
  rw [auxiliaries_eq_iff hP.sha256Pair hroot1 hroot2 (hold'.trans hnew'.symm)]
  simp only [hnamed, registryLeaf_eq_iff hP]

/-- **What the circuit does not compare**, of a witness over a registry: the two openings take
the same auxiliaries, an index names the same position in both trees, and nobody who is not named
becomes active or ceases to be. -/
structure Compares (w : EpochDiffWitness P) (sszDepth accDepth : ℕ) (R1 : List ValidatorResponse) :
    Prop where
  auxiliaries : w.sszMultiProof1 = w.sszMultiProof2
  positions : ∀ m ∈ w.mutations,
    m.validatorIndex.toNat % 2 ^ accDepth = m.validatorIndex.toNat % 2 ^ sszDepth
  activity : ∀ i v, R1[i]? = some v →
    (∀ m ∈ w.mutations, m.validatorIndex.toNat % 2 ^ accDepth ≠ i) →
      v.data.isActive w.epoch1 = v.data.isActive w.epoch2

/-- **Nothing is left out exactly where the circuit's openings agree**: the accumulator an
accepted diff publishes is the second registry's, with every changed validator named, if and only
if the witness says the same of both states wherever it names nothing. -/
theorem diff_covers_iff (hP : CollisionFree P) {w : EpochDiffWitness P} {sszDepth accDepth : ℕ}
    {out : EpochDiffOutput P} {R1 R2 : List ValidatorResponse}
    (h : verifyEpochDiffWithDepth w sszDepth accDepth = .ok out)
    (h1 : HashesInto P sszDepth w.stateToValidatorsSiblings1.length R1 w.stateRoot1)
    (h2 : HashesInto P sszDepth w.stateToValidatorsSiblings2.length R2 w.stateRoot2)
    (hlonger : R1.length ≤ R2.length) (hfit : R2.length < 2 ^ accDepth)
    (hroot : w.accRoot1 = (registryContents P R1 w.epoch1).accRoot accDepth) :
    (out.accRoot = (registryContents P R2 w.epoch2).accRoot accDepth ∧
      ∀ i < R2.length, Changed R1 R2 w.epoch1 w.epoch2 i →
        ∃ m ∈ w.mutations, m.validatorIndex.toNat % 2 ^ accDepth = i) ↔
      Compares w sszDepth accDepth R1 := by
  have hcovers := accRoot_eq_iff hP h h1 h2 hfit hroot
  have hsame := multiProofs_eq_iff hP h h1 h2
  have hnames := verifyEpochDiff_names hP h h1 h2
  constructor
  · rintro ⟨haccumulator, hnamed⟩
    have hcover := hcovers.mp haccumulator
    have hnodup := hnames.nodup_accPositions hfit
    obtain ⟨s, -, -, hlen, hloop, -⟩ := verifyEpochDiff_eq_ok h
    -- the two trees have different depths: an index must name one position in both
    have hpositions : ∀ m ∈ w.mutations,
        m.validatorIndex.toNat % 2 ^ accDepth = m.validatorIndex.toNat % 2 ^ sszDepth := by
      intro m hm
      cases hisNew : m.isNew with
      | false =>
          obtain ⟨l, hl⟩ := mutations_occupied hP hlen hroot hloop hnodup m hm hisNew
          exact hnames.position_of_old hfit hm h1.1 hl
      | true => exact hnames.position_of_new hP hfit hcover hm hisNew
    have hunchanged : ∀ i, (∀ m ∈ w.mutations, m.validatorIndex.toNat % 2 ^ accDepth ≠ i) →
        ¬ Changed R1 R2 w.epoch1 w.epoch2 i := by
      intro i hunnamed hchanged
      by_cases hi : i < R2.length
      · obtain ⟨m, hm, hposition⟩ := hnamed i hi hchanged
        exact hunnamed m hm hposition
      · have hnone : R1[i]? = none ∧ R2[i]? = none :=
          ⟨List.getElem?_eq_none (by omega), List.getElem?_eq_none (by omega)⟩
        simp [Changed, hnone.1, hnone.2] at hchanged
    refine ⟨hsame.mpr fun i _ hunnamed => ?_, hpositions, fun i v hv hunnamed => ?_⟩
    · refine not_ne_iff.mp (not_or.mp (hunchanged i fun m hm => ?_)).1
      rw [hpositions m hm]
      exact hunnamed m hm
    · obtain ⟨hrecord, hactivity⟩ := not_or.mp (hunchanged i hunnamed)
      rw [not_ne_iff, ← not_ne_iff.mp hrecord, hv] at hactivity
      exact Option.some.inj hactivity
  · rintro ⟨hauxiliaries, hpositions, hactivity⟩
    have hrecords := hsame.mp hauxiliaries
    have hnamed : ∀ i, Changed R1 R2 w.epoch1 w.epoch2 i →
        ∃ m ∈ w.mutations, m.validatorIndex.toNat % 2 ^ accDepth = i := by
      intro i hchanged
      by_contra hunnamed
      simp only [not_exists, not_and] at hunnamed
      have hrecord : R1[i]? = R2[i]? := by
        by_cases hi : i < 2 ^ sszDepth
        · refine hrecords i hi fun m hm => ?_
          rw [← hpositions m hm]
          exact hunnamed m hm
        · have hlength1 := h1.1
          have hlength2 := h2.1
          rw [List.getElem?_eq_none (by omega), List.getElem?_eq_none (by omega)]
      rcases hchanged with hchanged | hchanged
      · exact hchanged hrecord
      · apply hchanged
        rw [← hrecord]
        cases hv : R1[i]? with
        | none => rfl
        | some v => exact congrArg some (hactivity i v hv hunnamed)
    refine ⟨hcovers.mpr fun i _ hdigest => hnamed i ?_, fun i _ => hnamed i⟩
    by_contra hsame
    apply hdigest
    rw [Contents.digest, Contents.digest, registryContents, registryContents,
      contentsBy_of_not_changed hsame]

/-! ## A diff that leaves a change out -/

namespace Formal

/-- Two validators before and after an epoch in which both balances changed. -/
def before : List ValidatorResponse := [validator 0 32, validator 1 32]
def after : List ValidatorResponse := [validator 0 31, validator 1 16]

/-- A witness between the two registries that names the first validator and leaves
the second one out: each multi-proof carries the second validator's root of its
own state. -/
def omission : EpochDiffWitness (formal {}) :=
  .between 1 2 before after 0 1
    [.ofRecords 0 false (validator 0 32) (validator 0 31)
      [.leaf (key 1) 32, .node .zero .zero]]
    [registryLeaf _ before 1] [registryLeaf _ after 1]

/-- The same, where the second balance stays. -/
def settled : List ValidatorResponse := [validator 0 31, validator 1 32]

/-- The first validator is named, and the second is the same in both openings. -/
def covering : EpochDiffWitness (formal {}) :=
  .between 1 2 before settled 0 1
    [.ofRecords 0 false (validator 0 32) (validator 0 31)
      [.leaf (key 1) 32, .node .zero .zero]]
    [registryLeaf _ before 1] [registryLeaf _ settled 1]

end Formal

/-- **A changed validator can be left out.** The registries keep their keys, hash
into the two state roots and fit the accumulator, the old root is the old
registry's, and the diff is accepted; what it publishes is not the new registry's
accumulator. -/
theorem omission_accepted :
    CollisionFree (Formal.formal {}) ∧
    Formal.before.map (·.pubkey) = Formal.after.map (·.pubkey) ∧
    HashesInto (Formal.formal {}) 1 Formal.omission.stateToValidatorsSiblings1.length
      Formal.before Formal.omission.stateRoot1 ∧
    HashesInto (Formal.formal {}) 1 Formal.omission.stateToValidatorsSiblings2.length
      Formal.after Formal.omission.stateRoot2 ∧
    Formal.before.length < 2 ^ 2 ∧ Formal.after.length < 2 ^ 2 ∧
    Formal.omission.accRoot1 =
      (registryContents _ Formal.before Formal.omission.epoch1).accRoot 2 ∧
    ∃ out, verifyEpochDiffWithDepth Formal.omission 1 2 = .ok out ∧
      out.accRoot ≠ (registryContents _ Formal.after Formal.omission.epoch2).accRoot 2 :=
  ⟨Formal.formal_collisionFree {}, by decide, ⟨by decide, _, rfl, rfl⟩, ⟨by decide, _, rfl, rfl⟩,
    by decide, by decide, rfl, by decide +kernel⟩

/-- One validator changes and is named, and one stays. -/
theorem diff_covers_iff_covering :
    ∃ out, verifyEpochDiffWithDepth Formal.covering 1 2 = .ok out ∧
      out.accRoot = (registryContents _ Formal.settled 1).accRoot 2 := by
  obtain ⟨out, hout, -⟩ :
      ∃ out, verifyEpochDiffWithDepth Formal.covering 1 2 = .ok out ∧ True := by
    decide +kernel
  have hcompares : Compares Formal.covering 1 2 Formal.before := by
    refine ⟨rfl, by decide, fun i v hv _ => ?_⟩
    have hactive : ∀ v ∈ Formal.before, v.data.isActive 0 = v.data.isActive 1 := by decide
    exact hactive v (List.mem_of_getElem? hv)
  exact ⟨out, hout, ((diff_covers_iff (Formal.formal_collisionFree {}) hout
    ⟨by decide, _, rfl, rfl⟩ ⟨by decide, _, rfl, rfl⟩ (by decide) (by decide) rfl).mpr
      hcompares).1⟩

end Zkasper
