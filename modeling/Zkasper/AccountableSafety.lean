import Zkasper.Finalization
import Zkasper.Library.Casper

/-! # Accountable safety

What a finalized checkpoint is worth to whoever trusts it: whatever is justified
later is justified from it, unless validators have signed what nobody may
(`verifyFinalization_safe`). The argument over links is the library's; here a link
is a proven justification, its quorum is what `ProvenJustification.twoThirds` says
of it, and the members two quorums have in common are found by the attestations
they signed. -/

namespace Zkasper

open Bls Ssz

variable {P : Primitives} {S : ProofSystem P} {slotsPerEpoch : UInt64}

/-! ## What it takes to abandon a finalized checkpoint

Validators keep their place in the registry and their key, and are weighed anew
every epoch. So the two links of an offence may have been counted against two
accumulators, and what the offenders weigh is known up to what the later one had
gained on the earlier. -/

section Safe

variable {M : KeyModel P} {d : ℕ} {streamVk : ProgramVk} {owner : ℕ → M.Key}

/-- One validator set: the contents of an accumulator, the total it is committed
with, and who owns its leaves. -/
structure ValidatorSet (M : KeyModel P) (d : ℕ) (owner : ℕ → M.Key) where
  contents : Contents P
  total : UInt64
  keyring : Keyring M d contents
  owned : keyring.owner = owner

namespace ValidatorSet

def commitment (v : ValidatorSet M d owner) : P.Digest :=
  P.commitment (v.contents.accRoot d) v.total

/-- What everyone in it weighs. -/
def stake (v : ValidatorSet M d owner) : ℕ :=
  ∑ i ∈ Finset.range (2 ^ d), (v.contents.balance i).toNat

/-- What the validators weigh more in another one. -/
def gained (v v' : ValidatorSet M d owner) : ℕ :=
  ∑ i ∈ Finset.range (2 ^ d), ((v'.contents.balance i).toNat - (v.contents.balance i).toNat)

end ValidatorSet

/-- Two attestations nobody may sign both of: two targets at one epoch, or one vote
around the other. -/
def AttestationData.Slashable (a b : AttestationData P) : Prop :=
  (a.targetEpoch = b.targetEpoch ∧ a.targetRoot ≠ b.targetRoot) ∨
    (a.sourceEpoch < b.sourceEpoch ∧ b.targetEpoch < a.targetEpoch)

/-- The validator has signed two such attestations, under some domains. -/
def Offends (owner : ℕ → M.Key) (i : ℕ) : Prop :=
  ∃ a b : AttestationData P, a.Slashable b ∧
    (∃ domain, M.Signed (owner i) (computeSigningRoot P (attestationDataRoot P a) domain)) ∧
    ∃ domain, M.Signed (owner i) (computeSigningRoot P (attestationDataRoot P b) domain)

open Classical in
/-- The validators that do. -/
noncomputable def offenders (d : ℕ) (owner : ℕ → M.Key) : Finset ℕ :=
  (Finset.range (2 ^ d)).filter (Offends owner)

theorem mem_offenders {i : ℕ} : i ∈ offenders d owner ↔ i < 2 ^ d ∧ Offends owner i := by
  simp [offenders]

/-- A link between checkpoints. -/
def Link.checkpoints (link : Link P) : Casper.Link ℕ P.Bytes32 :=
  ⟨⟨link.sourceEpoch.toNat, link.sourceRoot⟩, ⟨link.targetEpoch.toNat, link.targetRoot⟩⟩

/-- Votes for conflicting links are slashable. -/
theorem slashable_of_conflict {l l' : Link P}
    (h : Casper.Conflict l.checkpoints l'.checkpoints) {a b : AttestationData P}
    (ha : a.VotesFor l) (hb : b.VotesFor l') : a.Slashable b := by
  obtain ⟨hse, -, hte, htr⟩ := ha
  obtain ⟨hse', -, hte', htr'⟩ := hb
  cases h with
  | double epoch root =>
      left
      rw [hte, hte', htr, htr']
      exact ⟨UInt64.toNat_inj.mp epoch, root⟩
  | surround source target =>
      right
      rw [hse, hse', hte, hte']
      exact ⟨UInt64.lt_iff_toNat_lt.mpr source, UInt64.lt_iff_toNat_lt.mpr target⟩

/-- **What a conflict costs**: the members two quorums have in common have offended. -/
theorem ValidatorSet.offenders_weigh (v v' : ValidatorSet M d owner) {l l' : Link P}
    (hconflict : Casper.Conflict l.checkpoints l'.checkpoints)
    (hl : TwoThirds M d v.commitment l) (hl' : TwoThirds M d v'.commitment l') :
    2 * v.total.toNat + 2 * v'.total.toNat ≤
      3 * (v.stake + v.gained v' + ∑ i ∈ offenders d owner, (v.contents.balance i).toNat) := by
  have hquorum := hl v.contents v.total v.keyring rfl
  have hquorum' := hl' v'.contents v'.total v'.keyring rfl
  have hrange : ∀ (w : ValidatorSet M d owner) (link : Link P),
      attesters w.keyring link ⊆ Finset.range (2 ^ d) := by
    intro w link i hi
    exact Finset.mem_range.mpr (mem_attesters.mp hi).1
  have hweigh := Casper.twoThirds_overlap (hrange v l) (hrange v' l') hquorum hquorum'
  have hcommon : attesters v.keyring l ∩ attesters v'.keyring l' ⊆ offenders d owner := by
    intro i hi
    obtain ⟨hi, hi'⟩ := Finset.mem_inter.mp hi
    obtain ⟨hlt, a, ha, hsigned⟩ := mem_attesters.mp hi
    obtain ⟨-, b, hb, hsigned'⟩ := mem_attesters.mp hi'
    rw [v.owned] at hsigned
    rw [v'.owned] at hsigned'
    apply mem_offenders.mpr
    exact ⟨hlt, a, b, slashable_of_conflict hconflict ha hb, hsigned, hsigned'⟩
  have hsum : ∑ i ∈ attesters v.keyring l ∩ attesters v'.keyring l', (v.contents.balance i).toNat ≤
      ∑ i ∈ offenders d owner, (v.contents.balance i).toNat :=
    Finset.sum_le_sum_of_subset hcommon
  unfold stake gained
  omega

/-- The link is proven justified against the validator set. -/
def JustifiedBy (slotsPerEpoch : UInt64) (streamVk : ProgramVk) (v : ValidatorSet M d owner)
    (link : Link P) : Prop :=
  ∃ out : JustificationOutput P, ProvenJustification d slotsPerEpoch streamVk out ∧
    out.accumulatorCommitment = v.commitment ∧ out.link = link

theorem JustifiedBy.twoThirds (hP : CollisionFree P) {v : ValidatorSet M d owner} {link : Link P}
    (h : JustifiedBy slotsPerEpoch streamVk v link) : TwoThirds M d v.commitment link := by
  obtain ⟨out, hproven, hacc, rfl⟩ := h
  have hquorum := hproven.twoThirds hP M
  rwa [hacc] at hquorum

/-- The links that are proven justified against one of the validator sets. -/
def justifiedLinks (slotsPerEpoch : UInt64) (streamVk : ProgramVk)
    (sets : Set (ValidatorSet M d owner)) (link : Casper.Link ℕ P.Bytes32) : Prop :=
  ∃ v ∈ sets, ∃ l : Link P, JustifiedBy slotsPerEpoch streamVk v l ∧ l.checkpoints = link

/-- Two justifications conflict, and the validators that have signed slashable votes
weigh a third of the first one's set, less what the second one's had gained on it. -/
structure Offence (slotsPerEpoch : UInt64) (streamVk : ProgramVk)
    (v v' : ValidatorSet M d owner) (l l' : Link P) : Prop where
  first : JustifiedBy slotsPerEpoch streamVk v l
  second : JustifiedBy slotsPerEpoch streamVk v' l'
  conflict : Casper.Conflict l.checkpoints l'.checkpoints
  weigh : 2 * v.total.toNat + 2 * v'.total.toNat ≤
    3 * (v.stake + v.gained v' + ∑ i ∈ offenders d owner, (v.contents.balance i).toNat)

/-- **Accountable safety.** Say a checkpoint was finalized, by two justifications over
validator sets of the chain. Whatever proven justifications over such sets justify
from an origin before it, at its epoch or later, they justify from that checkpoint,
or two of them are an offence. -/
theorem verifyFinalization_safe (hP : CollisionFree P) (hS : S.Sound d slotsPerEpoch streamVk)
    {w : FinalizationWitness P} {out : FinalizationOutput P}
    (hproofs : 2 ≤ w.justificationProofs.length)
    (h : verifyFinalizationWithSlots S w slotsPerEpoch = .ok out)
    {sets : Set (ValidatorSet M d owner)}
    (hset : ∃ v ∈ sets, v.commitment = out.accumulatorCommitment)
    (hnext : ∃ v ∈ sets, v.commitment = out.nextAccumulatorCommitment)
    {origin c : Casper.Checkpoint ℕ P.Bytes32} (horigin : origin.epoch < out.finalizedEpoch.toNat)
    (hc : Casper.Descends (justifiedLinks slotsPerEpoch streamVk sets) origin c)
    (hlater : out.finalizedEpoch.toNat ≤ c.epoch) :
    Casper.Descends (justifiedLinks slotsPerEpoch streamVk sets)
        ⟨out.finalizedEpoch.toNat, out.finalizedRoot⟩ c ∨
      ∃ v ∈ sets, ∃ v' ∈ sets, ∃ l l', Offence slotsPerEpoch streamVk v v' l l' := by
  obtain ⟨justE, justE1, hfinal, rfl⟩ := verifyFinalizationWithSlots_eq_ok.mp h
  obtain ⟨⟨proof, hproof⟩, proof', hproof'⟩ := hfinal.both hproofs
  obtain ⟨v, hv, hcommitment⟩ := hset
  obtain ⟨v', hv', hcommitment'⟩ := hnext
  have hinto : justifiedLinks slotsPerEpoch streamVk sets justE.link.checkpoints :=
    ⟨v, hv, _, ⟨justE, hproof.provenJustification hS hfinal.justified.1, hcommitment.symm, rfl⟩,
      rfl⟩
  have honward : justifiedLinks slotsPerEpoch streamVk sets justE1.link.checkpoints :=
    ⟨v', hv', _, ⟨justE1, hproof'.provenJustification hS hfinal.justified.2, hcommitment'.symm,
      rfl⟩, rfl⟩
  have hsource : justE1.link.checkpoints.source = justE.link.checkpoints.target := by
    show Casper.Checkpoint.mk justE1.sourceEpoch.toNat justE1.sourceRoot =
      ⟨justE.targetEpoch.toNat, justE.targetRoot⟩
    rw [hfinal.source.1, hfinal.source.2]
  -- past the last epoch a `u64` holds there is no later epoch to speak of
  have hepoch : ∀ e, justE.targetEpoch.toNat < e → justE1.targetEpoch.toNat ≤ e := by
    intro e hlt
    rw [hfinal.consecutive, UInt64.toNat_add, UInt64.toNat_one]
    have hmod := Nat.mod_le (justE.targetEpoch.toNat + 1) (2 ^ 64)
    omega
  rcases Casper.descends_or_conflict hinto honward hsource hepoch horigin hc hlater with
    hdescends | ⟨_, _, ⟨u, hu, l, hl, rfl⟩, ⟨u', hu', l', hl', rfl⟩, hconflict⟩
  · exact .inl hdescends
  · right
    refine ⟨u, hu, u', hu', l, l', hl, hl', hconflict, ?_⟩
    exact u.offenders_weigh u' hconflict (hl.twoThirds hP) (hl'.twoThirds hP)

end Safe

namespace Formal

/-- The first registry, validator 0 alone. -/
def firstSet : ValidatorSet (keyModel twoKeys) 1 (Fin.ofNat 4) :=
  ⟨contentsAt twoKeys 0, totalAt 0, registryKeyring 0, rfl⟩

end Formal

/-- The second block is justified from the first, as it must be. -/
theorem verifyFinalization_safe_next :
    Casper.Descends (justifiedLinks 32 Formal.finalVk {Formal.firstSet})
        ⟨1, Formal.genesisRoot⟩ ⟨2, Formal.nextRoot⟩ ∨
      ∃ v ∈ ({Formal.firstSet} : Set _), ∃ v' ∈ ({Formal.firstSet} : Set _),
        ∃ l l', Offence 32 Formal.finalVk v v' l l' := by
  have hfirst : justifiedLinks 32 Formal.finalVk {Formal.firstSet}
      Formal.genesisJustificationOut.link.checkpoints :=
    ⟨_, rfl, _, ⟨_, ⟨Formal.accepted_genesisJustification, rfl, rfl⟩, rfl, rfl⟩, rfl⟩
  have hsecond : justifiedLinks 32 Formal.finalVk {Formal.firstSet}
      Formal.nextJustificationOut.link.checkpoints :=
    ⟨_, rfl, _, ⟨_, ⟨Formal.accepted_nextJustification, rfl, rfl⟩, rfl, rfl⟩, rfl⟩
  have hchain : Casper.Descends (justifiedLinks 32 Formal.finalVk {Formal.firstSet})
      ⟨0, Formal.genesisRoot⟩ ⟨2, Formal.nextRoot⟩ := .tail (.single hfirst) hsecond
  have hset : ∃ v ∈ ({Formal.firstSet} : Set _), v.commitment = Formal.commitmentAt 0 :=
    ⟨_, rfl, rfl⟩
  exact verifyFinalization_safe (Formal.formal_collisionFree _) Formal.sound_batchTable (by decide)
    Formal.batchFinalization_accepted hset hset (by decide) hchain (by decide)

end Zkasper
