import Zkasper.Formal
import Zkasper.Registry

/-! # The epoch diff

The circuit that carries the accumulator from one epoch to the next: it folds a
list of mutations through the accumulator one leaf at a time, collects the old and
the new SSZ leaf of each, and opens the two collections against the two state
roots at the end.

The balance subtracted for a mutation comes from its claimed old record, the leaf
written from its new one, and the public key only from the new one. What holds
them together is the accumulator itself: the old leaf is opened against the
running root before it is replaced, so the running root is at every point the root
of definite contents (`applyMutation_writes`), and the running total their sum.
`Writes` says which contents; `epochDiff_conserves` is that invariant over whole
diffs and over chains of them. -/

namespace Zkasper

open Merkle Ssz

variable (P : Primitives)

/-! ## The circuit -/

/-- One changed validator between two consecutive epochs. -/
structure ValidatorMutation where
  validatorIndex : UInt64
  /-- True if this validator is not present in the old state; then the old leaf of
  both trees is all zeros. -/
  isNew : Bool
  oldData : ValidatorData
  newData : ValidatorData
  oldFieldLeaves : Fin 8 → P.Bytes32
  newFieldLeaves : Fin 8 → P.Bytes32
  oldPubkeyChunks : Fin 2 → Bytes 32
  newPubkeyChunks : Fin 2 → Bytes 32
  accSiblings : List P.Digest

/-- Witness for an epoch diff. -/
structure EpochDiffWitness where
  stateRoot1 : P.Bytes32
  stateRoot2 : P.Bytes32
  accRoot1 : P.Digest
  totalActiveBalance1 : UInt64
  epoch1 : UInt64
  epoch2 : UInt64
  stateToValidatorsSiblings1 : List P.Bytes32
  stateToValidatorsSiblings2 : List P.Bytes32
  validatorsListLength1 : UInt64
  validatorsListLength2 : UInt64
  mutations : List (ValidatorMutation P)
  sszMultiProof1 : List P.Bytes32
  sszMultiProof2 : List P.Bytes32

variable {P}

/-- What the circuit carries from mutation to mutation. -/
structure DiffState (P : Primitives) where
  accRoot : P.Digest
  totalActiveBalance : UInt64
  oldSszLeaves : List (P.Bytes32 × ℕ)
  newSszLeaves : List (P.Bytes32 × ℕ)

/-- The checks of one mutation against the running root, and its SSZ roots before and after. -/
def openMutation (epoch1 : UInt64) (accRoot : P.Digest) (m : ValidatorMutation P)
    (point : P.G1Point) : Guest (P.Bytes32 × P.Bytes32) :=
  let idx := m.validatorIndex
  if m.isNew then do
    -- new validator: the old leaf is empty in both trees
    Guest.assert (computeRoot P.compress P.zero idx.toNat m.accSiblings = accRoot)
      s!"accumulator root mismatch before new validator {idx}"
    verifyFieldLeaves P m.newData m.newFieldLeaves m.newPubkeyChunks
    return (P.zeroChunk, validatorHashTreeRoot P m.newFieldLeaves)
  else do
    -- existing validator: one public key leaf serves both records, so it is hashed once
    verifyFieldLeaves P m.newData m.newFieldLeaves m.newPubkeyChunks
    verifyFieldLeavesNoPubkeyHash P m.oldData m.oldFieldLeaves m.oldPubkeyChunks
    Guest.assert (m.oldFieldLeaves 0 = m.newFieldLeaves 0)
      s!"pubkey leaf changed for existing validator {idx}"
    let roots := validatorHashTreeRootPair P m.oldFieldLeaves m.newFieldLeaves
    let oldAccLeaf := P.leaf point (m.oldData.activeEffectiveBalance epoch1)
    Guest.assert (computeRoot P.compress oldAccLeaf idx.toNat m.accSiblings = accRoot)
      s!"accumulator root mismatch before mutation {idx}"
    return roots

/-- One iteration of the mutation loop. -/
def applyMutation (epoch1 epoch2 : UInt64) (s : DiffState P) (m : ValidatorMutation P) :
    Guest (DiffState P) := do
  let idx := m.validatorIndex
  let point ← Guest.expect (Bls.decompressPubkey P m.newData.pubkey)
    s!"validator {idx} has an invalid public key"
  let (oldRoot, newRoot) ← openMutation epoch1 s.accRoot m point
  let newActiveBalance := m.newData.activeEffectiveBalance epoch2
  let oldActiveBalance := if m.isNew then 0 else m.oldData.activeEffectiveBalance epoch1
  return {
    accRoot := computeRoot P.compress (P.leaf point newActiveBalance) idx.toNat m.accSiblings
    totalActiveBalance := s.totalActiveBalance - oldActiveBalance + newActiveBalance
    oldSszLeaves := s.oldSszLeaves ++ [(oldRoot, idx.toNat)]
    newSszLeaves := s.newSszLeaves ++ [(newRoot, idx.toNat)] }

/-- Epoch-diff verification with configurable tree depths. -/
def verifyEpochDiffWithDepth (w : EpochDiffWitness P) (sszDepth accDepth : ℕ) :
    Guest (EpochDiffOutput P) := do
  w.mutations.forM fun m =>
    Guest.assert (m.accSiblings.length = accDepth)
      s!"poseidon siblings length mismatch for validator {m.validatorIndex}"
  let s ← w.mutations.foldlM (applyMutation w.epoch1 w.epoch2)
    ⟨w.accRoot1, w.totalActiveBalance1, [], []⟩
  let sszDataRoot1 ← verifySszMultiProof P s.oldSszLeaves w.sszMultiProof1 sszDepth
  let sszDataRoot2 ← verifySszMultiProof P s.newSszLeaves w.sszMultiProof2 sszDepth
  let validatorsRoot1 := listHashTreeRoot P sszDataRoot1 w.validatorsListLength1
  Guest.assert (computeSszMerkleRoot P validatorsRoot1 beaconStateValidatorsFieldIndex
    w.stateToValidatorsSiblings1 = w.stateRoot1) "state_root_1 mismatch"
  let validatorsRoot2 := listHashTreeRoot P sszDataRoot2 w.validatorsListLength2
  Guest.assert (computeSszMerkleRoot P validatorsRoot2 beaconStateValidatorsFieldIndex
    w.stateToValidatorsSiblings2 = w.stateRoot2) "state_root_2 mismatch"
  return {
    prevAccumulatorCommitment := P.commitment w.accRoot1 w.totalActiveBalance1
    stateRoot1 := w.stateRoot1
    epoch1 := w.epoch1
    accumulatorCommitment := P.commitment s.accRoot s.totalActiveBalance
    accRoot := s.accRoot
    totalActiveBalance := s.totalActiveBalance
    stateRoot2 := w.stateRoot2
    epoch2 := w.epoch2 }

/-! ## What one mutation does -/

/-- The validator a mutation leaves in the accumulator. -/
def ValidatorMutation.newLeaf (m : ValidatorMutation P) (epoch2 : UInt64) :
    Option (AccLeaf P) :=
  (Bls.decompressPubkey P m.newData.pubkey).map fun point =>
    ⟨point, m.newData.activeEffectiveBalance epoch2⟩

/-- An accepted iteration: what it checked and what it produced. -/
theorem applyMutation_eq_ok {epoch1 epoch2 : UInt64} {s s' : DiffState P}
    {m : ValidatorMutation P} (h : applyMutation epoch1 epoch2 s m = .ok s') :
    ∃ point oldRoot newRoot, Bls.decompressPubkey P m.newData.pubkey = some point ∧
      openMutation epoch1 s.accRoot m point = .ok (oldRoot, newRoot) ∧
      s' = {
        accRoot := computeRoot P.compress
          (P.leaf point (m.newData.activeEffectiveBalance epoch2)) m.validatorIndex.toNat
          m.accSiblings
        totalActiveBalance := s.totalActiveBalance -
          (if m.isNew then 0 else m.oldData.activeEffectiveBalance epoch1) +
            m.newData.activeEffectiveBalance epoch2
        oldSszLeaves := s.oldSszLeaves ++ [(oldRoot, m.validatorIndex.toNat)]
        newSszLeaves := s.newSszLeaves ++ [(newRoot, m.validatorIndex.toNat)] } := by
  obtain ⟨point, hpoint, h⟩ := Guest.bind_eq_ok.mp h
  obtain ⟨⟨oldRoot, newRoot⟩, hopen, h⟩ := Guest.bind_eq_ok.mp h
  exact ⟨point, oldRoot, newRoot, Guest.expect_eq_ok.mp hpoint, hopen,
    (Guest.pure_eq_ok.mp h).symm⟩

/-- The leaf a mutation claims to replace, and it is that leaf which opens against the root. -/
theorem openMutation_opens {epoch1 : UInt64} {accRoot : P.Digest} {m : ValidatorMutation P}
    {point : P.G1Point} {roots : P.Bytes32 × P.Bytes32}
    (h : openMutation epoch1 accRoot m point = .ok roots) :
    computeRoot P.compress
      (if m.isNew then P.zero else P.leaf point (m.oldData.activeEffectiveBalance epoch1))
      m.validatorIndex.toNat m.accSiblings = accRoot := by
  unfold openMutation at h
  cases hnew : m.isNew <;> simp only [hnew, if_true, if_false, Bool.false_eq_true,
    Guest.bind_eq_ok, Guest.assert_eq_ok] at h ⊢
  · obtain ⟨-, -, -, -, -, -, -, hroot, -⟩ := h
    exact hroot
  · obtain ⟨-, hroot, -⟩ := h
    exact hroot

/-- Over contents, it is the leaf at the mutation's position. -/
theorem openMutation_old (hP : CollisionFree P) {d : ℕ} {epoch1 : UInt64} {accRoot : P.Digest}
    {m : ValidatorMutation P} {point : P.G1Point} {roots : P.Bytes32 × P.Bytes32} {t : Contents P}
    (hlen : m.accSiblings.length = d) (hroot : accRoot = t.accRoot d)
    (h : openMutation epoch1 accRoot m point = .ok roots) :
    t (m.validatorIndex.toNat % 2 ^ d) =
      if m.isNew then none else some ⟨point, m.oldData.activeEffectiveBalance epoch1⟩ := by
  have hold := (computeRoot_eq_root hP.compress hlen ((openMutation_opens h).trans hroot)).1
  split at hold
  · rw [Contents.eq_none_of_zero hP hold, if_pos ‹_›]
  · rw [Contents.eq_of_leaf hP hold, if_neg ‹_›]

/-- **Writing the mutations in order**: `Writes d epoch2 ms t t'` when `t'` is `t`
after each mutation of `ms`, one after the other, put its validator's new leaf at
its position. -/
inductive Writes (d : ℕ) (epoch2 : UInt64) :
    List (ValidatorMutation P) → Contents P → Contents P → Prop
  | nil (t : Contents P) : Writes d epoch2 [] t t
  | cons {m : ValidatorMutation P} {ms : List (ValidatorMutation P)} {t t' : Contents P}
      {l : AccLeaf P} (leaf : m.newLeaf epoch2 = some l)
      (rest : Writes d epoch2 ms
        (Function.update t (m.validatorIndex.toNat % 2 ^ d) (some l)) t') :
      Writes d epoch2 (m :: ms) t t'

/-- Writing is deterministic. -/
theorem Writes.unique {d : ℕ} {epoch2 : UInt64} {ms : List (ValidatorMutation P)}
    {t t₁ t₂ : Contents P} (h₁ : Writes d epoch2 ms t t₁) (h₂ : Writes d epoch2 ms t t₂) :
    t₁ = t₂ := by
  induction h₁ with
  | nil t => cases h₂; rfl
  | cons leaf₁ rest₁ ih =>
      cases h₂ with
      | cons leaf₂ rest₂ =>
          obtain rfl := Option.some.inj (leaf₁.symm.trans leaf₂)
          exact ih rest₂

/-- **One mutation**: from the root of some contents to the root of those contents
with one leaf rewritten, and the total moves with their sum. -/
theorem applyMutation_writes (hP : CollisionFree P) {d : ℕ} {epoch1 epoch2 : UInt64}
    {s s' : DiffState P} {m : ValidatorMutation P} {t : Contents P}
    (hlen : m.accSiblings.length = d) (hroot : s.accRoot = t.accRoot d)
    (h : applyMutation epoch1 epoch2 s m = .ok s') :
    ∃ l, m.newLeaf epoch2 = some l ∧
      s'.accRoot =
        Contents.accRoot d (Function.update t (m.validatorIndex.toNat % 2 ^ d) (some l)) ∧
      (s.totalActiveBalance = t.totalActiveBalance d → s'.totalActiveBalance =
        Contents.totalActiveBalance d
          (Function.update t (m.validatorIndex.toNat % 2 ^ d) (some l))) := by
  obtain ⟨point, oldRoot, newRoot, hpoint, hopen, rfl⟩ := applyMutation_eq_ok h
  have hwrite :=
    (computeRoot_eq_root hP.compress hlen ((openMutation_opens hopen).trans hroot)).2
  have hbalance : (if m.isNew then 0 else m.oldData.activeEffectiveBalance epoch1) =
      t.balance (m.validatorIndex.toNat % 2 ^ d) := by
    -- what is subtracted is the balance of the leaf that opened, not just a claim
    rw [Contents.balance, openMutation_old hP hlen hroot hopen]
    split <;> rfl
  refine ⟨_, by rw [ValidatorMutation.newLeaf, hpoint]; rfl, ?_, fun htotal => ?_⟩
  · rw [Contents.accRoot_update]
    exact hwrite _
  · rw [Contents.totalActiveBalance_update t _ (Nat.mod_lt _ (Nat.two_pow_pos d)), ← htotal,
      ← hbalance]

/-- **The whole mutation loop**: it ends at the root of the contents the mutations
write, and at their sum if it started from one. -/
theorem mutations_writes (hP : CollisionFree P) {d : ℕ} {epoch1 epoch2 : UInt64} :
    ∀ {ms : List (ValidatorMutation P)} {s s' : DiffState P} {t : Contents P},
      (∀ m ∈ ms, m.accSiblings.length = d) → s.accRoot = t.accRoot d →
        ms.foldlM (applyMutation epoch1 epoch2) s = .ok s' →
          ∃ t', Writes d epoch2 ms t t' ∧ s'.accRoot = t'.accRoot d ∧
            (s.totalActiveBalance = t.totalActiveBalance d →
              s'.totalActiveBalance = t'.totalActiveBalance d) := by
  intro ms
  induction ms with
  | nil =>
      intro s s' t _ hroot hrun
      obtain rfl := Guest.foldlM_nil.mp hrun
      exact ⟨t, .nil t, hroot, id⟩
  | cons m ms ih =>
      intro s s' t hlen hroot hrun
      obtain ⟨mid, hstep, hrest⟩ := Guest.foldlM_cons.mp hrun
      obtain ⟨l, hl, hmid, htotal⟩ :=
        applyMutation_writes hP (hlen m List.mem_cons_self) hroot hstep
      obtain ⟨t', hwrites, hroot', htotal'⟩ :=
        ih (fun m' hm' => hlen m' (List.mem_cons_of_mem _ hm')) hmid hrest
      exact ⟨t', .cons hl hwrites, hroot', fun h => htotal' (htotal h)⟩

/-! ## Accepted diffs -/

/-- An accepted diff: every check it passed, and what it published. -/
theorem verifyEpochDiff_eq_ok {w : EpochDiffWitness P} {sszDepth accDepth : ℕ}
    {out : EpochDiffOutput P} (h : verifyEpochDiffWithDepth w sszDepth accDepth = .ok out) :
    ∃ s sszDataRoot1 sszDataRoot2,
      (∀ m ∈ w.mutations, m.accSiblings.length = accDepth) ∧
      w.mutations.foldlM (applyMutation w.epoch1 w.epoch2)
        ⟨w.accRoot1, w.totalActiveBalance1, [], []⟩ = .ok s ∧
      verifySszMultiProof P s.oldSszLeaves w.sszMultiProof1 sszDepth = .ok sszDataRoot1 ∧
      verifySszMultiProof P s.newSszLeaves w.sszMultiProof2 sszDepth = .ok sszDataRoot2 ∧
      computeSszMerkleRoot P (listHashTreeRoot P sszDataRoot1 w.validatorsListLength1)
        beaconStateValidatorsFieldIndex w.stateToValidatorsSiblings1 = w.stateRoot1 ∧
      computeSszMerkleRoot P (listHashTreeRoot P sszDataRoot2 w.validatorsListLength2)
        beaconStateValidatorsFieldIndex w.stateToValidatorsSiblings2 = w.stateRoot2 ∧
      out = {
        prevAccumulatorCommitment := P.commitment w.accRoot1 w.totalActiveBalance1
        stateRoot1 := w.stateRoot1
        epoch1 := w.epoch1
        accumulatorCommitment := P.commitment s.accRoot s.totalActiveBalance
        accRoot := s.accRoot
        totalActiveBalance := s.totalActiveBalance
        stateRoot2 := w.stateRoot2
        epoch2 := w.epoch2 } := by
  simp only [verifyEpochDiffWithDepth, Guest.bind_eq_ok, Guest.assert_eq_ok, Guest.forM_eq_ok,
    Guest.pure_eq_ok, exists_const] at h
  obtain ⟨hlen, s, hloop, root1, hroot1, root2, hroot2, hstate1, hstate2, rfl⟩ := h
  exact ⟨s, root1, root2, hlen, hloop, hroot1, hroot2, hstate1, hstate2, rfl⟩

/-- **An accepted diff over contents**: the published root is the root of the
contents its mutations write, and the published total their sum if the total it
started from was one. -/
theorem verifyEpochDiff_writes (hP : CollisionFree P) {w : EpochDiffWitness P}
    {sszDepth accDepth : ℕ} {out : EpochDiffOutput P} {t : Contents P}
    (h : verifyEpochDiffWithDepth w sszDepth accDepth = .ok out)
    (hroot : w.accRoot1 = t.accRoot accDepth) :
    ∃ t', Writes accDepth w.epoch2 w.mutations t t' ∧ out.accRoot = t'.accRoot accDepth ∧
      (w.totalActiveBalance1 = t.totalActiveBalance accDepth →
        out.totalActiveBalance = t'.totalActiveBalance accDepth) := by
  obtain ⟨s, -, -, hlen, hloop, -, -, -, -, rfl⟩ := verifyEpochDiff_eq_ok h
  exact mutations_writes hP hlen hroot hloop

theorem verifyEpochDiff_commitments {w : EpochDiffWitness P} {sszDepth accDepth : ℕ}
    {out : EpochDiffOutput P} (h : verifyEpochDiffWithDepth w sszDepth accDepth = .ok out) :
    out.prevAccumulatorCommitment = P.commitment w.accRoot1 w.totalActiveBalance1 ∧
      out.accumulatorCommitment = P.commitment out.accRoot out.totalActiveBalance := by
  obtain ⟨s, -, -, -, -, -, -, -, -, rfl⟩ := verifyEpochDiff_eq_ok h
  exact ⟨rfl, rfl⟩

/-! ## Chains of diffs -/

/-- The commitment that binds a root to the sum of its own leaves. -/
def Contents.boundCommitment (d : ℕ) (t : Contents P) : P.Digest :=
  P.commitment (t.accRoot d) (t.totalActiveBalance d)

/-- Some witness makes the circuit publish `out`. -/
def EpochDiffAccepted (accDepth : ℕ) (out : EpochDiffOutput P) : Prop :=
  ∃ w sszDepth, verifyEpochDiffWithDepth w sszDepth accDepth = .ok out

/-- A diff that starts from a commitment to contents and their sum ends at one. -/
theorem EpochDiffAccepted.advances (hP : CollisionFree P) {d : ℕ} {out : EpochDiffOutput P}
    {t : Contents P} (h : EpochDiffAccepted d out)
    (hprev : out.prevAccumulatorCommitment = t.boundCommitment d) :
    ∃ t' : Contents P, out.accRoot = t'.accRoot d ∧
      out.totalActiveBalance = t'.totalActiveBalance d ∧
        out.accumulatorCommitment = t'.boundCommitment d := by
  obtain ⟨w, sszDepth, hrun⟩ := h
  obtain ⟨hfrom, hto⟩ := verifyEpochDiff_commitments hrun
  obtain ⟨hroot, htotal⟩ := hP.commitment (hfrom.symm.trans hprev)
  obtain ⟨t', -, hroot', htotal'⟩ := verifyEpochDiff_writes hP hrun hroot
  refine ⟨t', hroot', htotal' htotal, ?_⟩
  rw [hto, hroot', htotal' htotal, Contents.boundCommitment]

/-- Every diff of a linked chain that starts from a commitment to contents and
their sum publishes two commitments to contents and their sum. -/
theorem diffChain_bound (hP : CollisionFree P) {d : ℕ} :
    ∀ (outs : List (EpochDiffOutput P)) (t₀ : Contents P),
      (∀ out ∈ outs, EpochDiffAccepted d out) →
      outs.IsChain (fun a b => a.accumulatorCommitment = b.prevAccumulatorCommitment) →
      (∀ out ∈ outs.head?, out.prevAccumulatorCommitment = t₀.boundCommitment d) →
        ∀ out ∈ outs, (∃ t : Contents P, out.prevAccumulatorCommitment = t.boundCommitment d) ∧
          ∃ t : Contents P, out.accRoot = t.accRoot d ∧
            out.totalActiveBalance = t.totalActiveBalance d ∧
              out.accumulatorCommitment = t.boundCommitment d := by
  -- along the chain, carrying the contents behind the commitment the head starts from
  intro outs
  induction outs with
  | nil => intro t₀ _ _ _ out hout; exact absurd hout (by simp)
  | cons a outs ih =>
      intro t₀ haccepted hchain hhead out hout
      have hstart := hhead a rfl
      obtain ⟨t', hroot, htotal, hbound⟩ :=
        (haccepted a List.mem_cons_self).advances hP hstart
      rcases List.mem_cons.mp hout with rfl | hout
      · exact ⟨⟨t₀, hstart⟩, t', hroot, htotal, hbound⟩
      · apply ih t' (fun b hb => haccepted b (List.mem_cons_of_mem _ hb)) hchain.tail _ out hout
        intro b hb
        rw [← hchain.rel_head? hb]
        exact hbound

/-- **Balance conservation.** Over any contents whose root an accepted diff starts
from, there is exactly one tree its mutations write, the published root is that
tree's, and a total that was the sum of the old leaves becomes the sum of the new
ones. So along every chain of accepted diffs linked by commitment, each published
commitment binds a root to the sum of its own leaves. -/
theorem epochDiff_conserves (hP : CollisionFree P) (accDepth : ℕ) :
    (∀ (w : EpochDiffWitness P) (sszDepth : ℕ) (out : EpochDiffOutput P) (t₁ : Contents P),
      verifyEpochDiffWithDepth w sszDepth accDepth = .ok out →
      w.accRoot1 = t₁.accRoot accDepth →
        (∃! t₂, Writes accDepth w.epoch2 w.mutations t₁ t₂) ∧
        ∀ t₂, Writes accDepth w.epoch2 w.mutations t₁ t₂ →
          out.accRoot = t₂.accRoot accDepth ∧
          (w.totalActiveBalance1 = t₁.totalActiveBalance accDepth →
            out.totalActiveBalance = t₂.totalActiveBalance accDepth)) ∧
    (∀ (outs : List (EpochDiffOutput P)) (t₀ : Contents P),
      (∀ out ∈ outs, EpochDiffAccepted accDepth out) →
      outs.IsChain (fun a b => a.accumulatorCommitment = b.prevAccumulatorCommitment) →
      (∀ out ∈ outs.head?, out.prevAccumulatorCommitment = t₀.boundCommitment accDepth) →
        ∀ out ∈ outs,
          (∃ t : Contents P, out.prevAccumulatorCommitment = t.boundCommitment accDepth) ∧
          ∃ t : Contents P, out.accRoot = t.accRoot accDepth ∧
            out.totalActiveBalance = t.totalActiveBalance accDepth ∧
              out.accumulatorCommitment = t.boundCommitment accDepth) := by
  refine ⟨fun w sszDepth out t₁ hrun hroot => ?_, diffChain_bound hP⟩
  obtain ⟨t₂, hwrites, hout, htotal⟩ := verifyEpochDiff_writes hP hrun hroot
  refine ⟨⟨t₂, hwrites, fun t h => h.unique hwrites⟩, fun t h => ?_⟩
  obtain rfl := h.unique hwrites
  exact ⟨hout, htotal⟩

/-! ## A diff over the free instance -/

/-- A mutation that carries the records of two registries. -/
def ValidatorMutation.ofRecords (validatorIndex : UInt64) (isNew : Bool)
    (old new : ValidatorResponse) (accSiblings : List P.Digest) : ValidatorMutation P where
  validatorIndex := validatorIndex
  isNew := isNew
  oldData := old.data
  newData := new.data
  oldFieldLeaves := old.fieldLeaves P
  newFieldLeaves := new.fieldLeaves P
  oldPubkeyChunks := old.pubkeyChunks
  newPubkeyChunks := new.pubkeyChunks
  accSiblings := accSiblings

/-- The state root that holds a registry under a branch of zero chunks. -/
def stateRootOver (P : Primitives) (sszDepth : ℕ) (R : List ValidatorResponse) : P.Bytes32 :=
  computeSszMerkleRoot P (registryRoot P sszDepth R) beaconStateValidatorsFieldIndex
    (List.replicate 6 P.zeroChunk)

/-- A witness between two registries at consecutive epochs, under branches of zero chunks. -/
def EpochDiffWitness.between (sszDepth accDepth : ℕ) (R1 R2 : List ValidatorResponse)
    (epoch1 epoch2 : UInt64) (mutations : List (ValidatorMutation P))
    (aux1 aux2 : List P.Bytes32) : EpochDiffWitness P where
  stateRoot1 := stateRootOver P sszDepth R1
  stateRoot2 := stateRootOver P sszDepth R2
  accRoot1 := (registryContents P R1 epoch1).accRoot accDepth
  totalActiveBalance1 := (registryContents P R1 epoch1).totalActiveBalance accDepth
  epoch1 := epoch1
  epoch2 := epoch2
  stateToValidatorsSiblings1 := List.replicate 6 P.zeroChunk
  stateToValidatorsSiblings2 := List.replicate 6 P.zeroChunk
  validatorsListLength1 := UInt64.ofNat R1.length
  validatorsListLength2 := UInt64.ofNat R2.length
  mutations := mutations
  sszMultiProof1 := aux1
  sszMultiProof2 := aux2

namespace Formal

/-- An active validator with the key of generator `k`. -/
def validator (k : UInt8) (effectiveBalance : UInt64) : ValidatorResponse where
  pubkey := ⟨k :: List.replicate 47 0, rfl⟩
  effectiveBalance := effectiveBalance
  activationEpoch := 0
  exitEpoch := 18446744073709551615
  withdrawalCredentials := zeroBytes 32
  slashed := false
  activationEligibilityEpoch := 0
  withdrawableEpoch := 18446744073709551615

/-- One validator loses a unit of balance and another one joins. -/
def growth : EpochDiffWitness (formal {}) :=
  .between 1 1 [validator 0 32] [validator 0 31, validator 1 32] 0 1
    [.ofRecords 0 false (validator 0 32) (validator 0 31) [.zero],
      .ofRecords 1 true (validator 1 32) (validator 1 32) [.leaf (key 0) 31]] [] []

end Formal

/-- The growing diff is accepted, and what it publishes is the tree its mutations write. -/
theorem epochDiff_conserves_growth :
    ∃ out, verifyEpochDiffWithDepth Formal.growth 1 1 = .ok out ∧
      ∃ t₂, Writes 1 1 Formal.growth.mutations
          (registryContents _ [Formal.validator 0 32] 0) t₂ ∧
        out.totalActiveBalance = t₂.totalActiveBalance 1 := by
  obtain ⟨out, hout, -⟩ : ∃ out, verifyEpochDiffWithDepth Formal.growth 1 1 = .ok out ∧ True := by
    decide +kernel
  obtain ⟨⟨t₂, hwrites, -⟩, hall⟩ :=
    (epochDiff_conserves (Formal.formal_collisionFree {}) 1).1 _ _ _ _ hout rfl
  exact ⟨out, hout, t₂, hwrites, (hall t₂ hwrites).2 rfl⟩

end Zkasper
