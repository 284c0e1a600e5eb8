import Zkasper.Committee
import Zkasper.Pairing
import Zkasper.Ssz
import Mathlib.Data.List.Sort

/-! # Counting a slot by complement

What the slot proof and the fast-confirmation proof have in common. A slot's
committee arrives summed; its secondary messages and its absentees name everyone
who did not sign the primary one, and what is left of the committee's key is
paired against the primary message. The two circuits differ in two points only,
which `Rules` holds: the slot proof pins every message to one FFG link, and the
fast-confirmation proof takes the balance of a secondary signer off as well.

`countComplement_spec` says what one slot adds to the openings, to the pairing and
to the balance. The openings are checked once, for all slots together, and then
every validator named is a leaf of the accumulator and none is named twice
(`openNamed_spec`). -/

namespace Zkasper.Slot

open Bls Ssz Merkle

variable {P : Primitives}

/-! ## The circuit -/

/-- Where the circuits that count a slot differ. -/
structure Rules (P : Primitives) where
  /-- The checks a message passes before it is queued. -/
  checkMessage : AttestationWitness P → Guest Unit
  /-- Whether the signers of a secondary message lose their balance too. -/
  dropsSecondary : Bool

/-- What is collected across slots: the leaves to open, and the messages to pair.
The source keeps keys, roots and signatures in three columns and zips them at the
end. -/
structure Tally (P : Primitives) where
  opened : List (P.Digest × ℕ)
  messages : List (SignedMessage P)

/-- What one slot carries while its committee is walked down. -/
structure Count (P : Primitives) where
  balance : UInt64
  primaryKey : PointSum P
  tally : Tally P

/-- The leaf a named validator is opened as. -/
def openedLeaf (v : OpenedValidator P) : P.Digest × ℕ :=
  (P.leaf v.pubkey v.activeEffectiveBalance, v.validatorIndex.toNat)

/-- `u64::checked_sub` -/
def checkedSub (a b : UInt64) : Option UInt64 := if b ≤ a then some (a - b) else none

/-- Whether two aggregates carry byte-identical `AttestationData`. -/
def sameData (a b : AttestationWitness P) : Bool :=
  a.dataSlot = b.dataSlot && a.dataIndex = b.dataIndex &&
    a.dataBeaconBlockRoot = b.dataBeaconBlockRoot && a.dataSourceEpoch = b.dataSourceEpoch &&
    a.dataSourceRoot = b.dataSourceRoot && a.dataTargetEpoch = b.dataTargetEpoch &&
    a.dataTargetRoot = b.dataTargetRoot

/-- The root an attestation is signed under. -/
def signingRoot (signingDomain : P.Bytes32) (a : AttestationWitness P) : P.Bytes32 :=
  computeSigningRoot P (attestationDataRoot P a.data) signingDomain

/-- Check a message and queue it for the multi-pairing. `aggregates` all carry the
same data; their signatures sum into one pairing term against `aggregateKey`. -/
def pushMessage (rules : Rules P) (signingDomain : P.Bytes32)
    (aggregates : List (AttestationWitness P)) (aggregateKey : P.G1Point) (t : Tally P) :
    Guest (Tally P) :=
  match aggregates with
  | [] => throw "index out of bounds: the len is 0 but the index is 0"
  | attestation :: _ => do
      rules.checkMessage attestation
      return { t with messages := t.messages ++
        [⟨[aggregateKey], signingRoot signingDomain attestation, aggregates.map (·.signature)⟩] }

/-- The primary aggregates of a slot: at least one, none of them naming its
signers, all over one message. Returns the first. -/
def checkPrimary (slot : SlotComplementWitness P) : Guest (AttestationWitness P) :=
  match slot.primary with
  | [] => throw "slot has no primary aggregate"
  | first :: rest => do
      (first :: rest).forM fun attestation =>
        Guest.assert (attestation.attestingValidators = [])
          s!"the primary aggregate of slot {slot.slotInEpoch} names its signers, which is the work complement proving exists to avoid"
      rest.forM fun attestation =>
        Guest.assert (sameData first attestation)
          s!"slot {slot.slotInEpoch} pairs one derived key against two messages"
      return first

/-- The balance left once a secondary signer is named. -/
def dropSigner (rules : Rules P) (balance : UInt64) (v : OpenedValidator P) : Guest UInt64 :=
  if rules.dropsSecondary then
    Guest.expect (checkedSub balance v.activeEffectiveBalance)
      "minority head votes exceed the committee's balance"
  else return balance

/-- Name one signer of a secondary message: its key leaves the primary sum and
joins the message's. -/
def nameSigner (rules : Rules P) (s : Count P × PointSum P) (v : OpenedValidator P) :
    Guest (Count P × PointSum P) := do
  let (c, keys) := s
  let primaryKey ← Guest.expect (c.primaryKey.sub v.pubkey)
    "public key aggregation hit a shared x-coordinate"
  let keys ← Guest.expect (keys.add v.pubkey) "public key aggregation hit a shared x-coordinate"
  let balance ← dropSigner rules c.balance v
  return (⟨balance, primaryKey, { c.tally with opened := c.tally.opened ++ [openedLeaf v] }⟩, keys)

/-- One secondary message. -/
def countSecondary (rules : Rules P) (signingDomain : P.Bytes32) (c : Count P)
    (attestation : AttestationWitness P) : Guest (Count P) := do
  let (c, keys) ← attestation.attestingValidators.foldlM (nameSigner rules) (c, ⟨none⟩)
  let key ← Guest.expect keys.get "secondary aggregate names no signers"
  let tally ← pushMessage rules signingDomain [attestation] key c.tally
  return { c with tally }

/-- One absentee. -/
def countAbsentee (c : Count P) (v : OpenedValidator P) : Guest (Count P) := do
  let primaryKey ← Guest.expect (c.primaryKey.sub v.pubkey)
    "public key aggregation hit a shared x-coordinate"
  let balance ← Guest.expect (checkedSub c.balance v.activeEffectiveBalance)
    "absentee balances exceed the committee's"
  return ⟨balance, primaryKey, { c.tally with opened := c.tally.opened ++ [openedLeaf v] }⟩

/-- One slot, once its primary aggregates are checked: the balance it counts, and
the openings and messages it adds. -/
def countComplement (rules : Rules P) (signingDomain : P.Bytes32) (slot : SlotComplementWitness P)
    (tally : Tally P) : Guest (UInt64 × Tally P) := do
  let c ← slot.secondary.foldlM (countSecondary rules signingDomain)
    ⟨slot.committee.balance, PointSum.fromPoint slot.committee.pubkey, tally⟩
  let c ← slot.absentees.foldlM countAbsentee c
  -- whoever is left in the committee's key has signed the primary message
  let key ← Guest.expect c.primaryKey.get "committee aggregate is the identity"
  let tally ← pushMessage rules signingDomain slot.primary key c.tally
  return (c.balance, tally)

/-- Every named validator strictly after the one before it. -/
def checkDistinct : List (P.Digest × ℕ) → Guest Unit
  | a :: b :: opened => do
      Guest.assert (b.2 > a.2) s!"validator {b.2} named twice"
      checkDistinct (b :: opened)
  | _ => return ()

/-- Sort the named validators, check that none is named twice, and open them
against the accumulator. Equal indices are refused, so it does not matter how the
sort orders them. -/
def openNamed (opened : List (P.Digest × ℕ)) (accRoot : P.Digest) (auxiliaries : List P.Digest)
    (accDepth : ℕ) : Guest Unit := do
  let opened := opened.insertionSort fun a b => a.2 ≤ b.2
  checkDistinct opened
  if opened ≠ [] then do
    let root ← batchRoot P.compress opened auxiliaries accDepth
    Guest.assert (root = accRoot) "accumulator root mismatch"
  else
    Guest.assert (auxiliaries = []) "accumulator opening with nothing to open"

/-- Open the committee aggregates against the committee tree. -/
def openCommittees (leaves : List (P.Digest × ℕ)) (committeeRoot : P.Digest)
    (auxiliaries : List P.Digest) : Guest Unit := do
  let root ← batchRoot P.compress leaves auxiliaries Committee.treeDepth
  Guest.assert (root = committeeRoot) "committee root mismatch"

/-! ## What one slot adds -/

@[simp] theorem sameData_iff {a b : AttestationWitness P} :
    sameData a b = true ↔ a.data = b.data := by
  simp [sameData, AttestationWitness.data, and_assoc]

/-- A sum that wraps only gets smaller. -/
theorem toNat_add_le (a b : UInt64) : (a + b).toNat ≤ a.toNat + b.toNat := by
  rw [UInt64.toNat_add]
  exact Nat.mod_le _ _

theorem checkedSub_eq_some {a b c : UInt64} (h : checkedSub a b = some c) :
    c.toNat + b.toNat = a.toNat := by
  unfold checkedSub at h
  split at h
  · next hle =>
      obtain rfl := Option.some.inj h
      rw [UInt64.toNat_sub_of_le _ _ hle]
      have := UInt64.le_iff_toNat_le.mp hle
      omega
  · cases h

/-- Whose balance a slot does not count. -/
def dropped (rules : Rules P) (slot : SlotComplementWitness P) : List (OpenedValidator P) :=
  if rules.dropsSecondary then slot.named else slot.absentees

/-- The balance of some validators together. -/
def balanceSum (vs : List (OpenedValidator P)) : ℕ :=
  (vs.map fun v => v.activeEffectiveBalance.toNat).sum

@[simp] theorem balanceSum_append (xs ys : List (OpenedValidator P)) :
    balanceSum (xs ++ ys) = balanceSum xs + balanceSum ys := by
  simp [balanceSum]

variable (M : KeyModel P)

/-- The key of some validators together. -/
def keySum (vs : List (OpenedValidator P)) : M.Key → ℤ := (vs.map fun v => M.coeff v.pubkey).sum

@[simp] theorem keySum_nil : keySum M [] = 0 := rfl

@[simp] theorem keySum_cons (v : OpenedValidator P) (vs : List (OpenedValidator P)) :
    keySum M (v :: vs) = M.coeff v.pubkey + keySum M vs := by
  simp [keySum]

@[simp] theorem keySum_append (xs ys : List (OpenedValidator P)) :
    keySum M (xs ++ ys) = keySum M xs + keySum M ys := by
  simp [keySum]

/-- What a slot's secondary messages claim: each its named signers. -/
noncomputable def secondaryClaims (signingDomain : P.Bytes32)
    (secondary : List (AttestationWitness P)) : P.Bytes32 →₀ (M.Key → ℤ) :=
  (secondary.map fun a =>
    Finsupp.single (signingRoot signingDomain a) (keySum M a.attestingValidators)).sum

/-- What a slot claims: the committee less everyone named, for the primary
message, and the named signers for theirs. -/
noncomputable def slotClaims (signingDomain : P.Bytes32) (first : AttestationWitness P)
    (slot : SlotComplementWitness P) : P.Bytes32 →₀ (M.Key → ℤ) :=
  Finsupp.single (signingRoot signingDomain first)
      (M.coeff slot.committee.pubkey - keySum M slot.named) +
    secondaryClaims M signingDomain slot.secondary

/-- What the slots of a run claim together, each for its first primary aggregate. -/
noncomputable def slotsClaims (signingDomain : P.Bytes32) (slots : List (SlotComplementWitness P)) :
    P.Bytes32 →₀ (M.Key → ℤ) :=
  (slots.map fun slot =>
    slot.primary.head?.elim 0 fun first => slotClaims M signingDomain first slot).sum

@[simp] theorem slotsClaims_nil (signingDomain : P.Bytes32) :
    slotsClaims M signingDomain [] = 0 := rfl

@[simp] theorem slotsClaims_cons (signingDomain : P.Bytes32) (slot : SlotComplementWitness P)
    (slots : List (SlotComplementWitness P)) :
    slotsClaims M signingDomain (slot :: slots) =
      (slot.primary.head?.elim 0 fun first => slotClaims M signingDomain first slot) +
        slotsClaims M signingDomain slots := by
  simp [slotsClaims]

@[simp] theorem slotsClaims_append (signingDomain : P.Bytes32)
    (xs ys : List (SlotComplementWitness P)) :
    slotsClaims M signingDomain (xs ++ ys) =
      slotsClaims M signingDomain xs + slotsClaims M signingDomain ys := by
  simp [slotsClaims]

variable {M}

theorem pushMessage_spec {rules : Rules P} {signingDomain : P.Bytes32}
    {aggregates : List (AttestationWitness P)} {key : P.G1Point} {t t' : Tally P}
    (h : pushMessage rules signingDomain aggregates key t = .ok t') :
    ∃ first, aggregates.head? = some first ∧ rules.checkMessage first = .ok () ∧
      t'.opened = t.opened ∧
        M.messageClaims t'.messages = M.messageClaims t.messages +
          Finsupp.single (signingRoot signingDomain first) (M.coeff key) := by
  rcases aggregates with _ | ⟨first, rest⟩
  · cases h
  · obtain ⟨_, hcheck, hret⟩ := Guest.bind_eq_ok.mp h
    obtain rfl := Guest.pure_eq_ok.mp hret
    exact ⟨first, rfl, hcheck, rfl, by simp [KeyModel.messageClaim]⟩

theorem dropSigner_spec {rules : Rules P} {balance balance' : UInt64} {v : OpenedValidator P}
    (h : dropSigner rules balance v = .ok balance') :
    balance'.toNat + (if rules.dropsSecondary then v.activeEffectiveBalance.toNat else 0) =
      balance.toNat := by
  unfold dropSigner at h
  split at h
  · next hdrop =>
      rw [if_pos hdrop]
      exact checkedSub_eq_some (Guest.expect_eq_ok.mp h)
  · next hdrop =>
      rw [if_neg hdrop, Guest.pure_eq_ok.mp h]
      rfl

/-- One signer of a secondary message. -/
theorem nameSigner_spec {rules : Rules P} {s s' : Count P × PointSum P} {v : OpenedValidator P}
    (h : nameSigner rules s v = .ok s') :
    s'.1.tally.opened = s.1.tally.opened ++ [openedLeaf v] ∧
      s'.1.tally.messages = s.1.tally.messages ∧
      M.sumCoeff s'.1.primaryKey = M.sumCoeff s.1.primaryKey - M.coeff v.pubkey ∧
      M.sumCoeff s'.2 = M.sumCoeff s.2 + M.coeff v.pubkey ∧
      s'.1.balance.toNat + (if rules.dropsSecondary then v.activeEffectiveBalance.toNat else 0) =
        s.1.balance.toNat := by
  obtain ⟨c, keys⟩ := s
  simp only [nameSigner, Guest.bind_eq_ok, Guest.expect_eq_ok, Guest.pure_eq_ok] at h
  obtain ⟨primaryKey, hprimary, keys', hkeys, balance, hbalance, rfl⟩ := h
  exact ⟨rfl, rfl, M.sumCoeff_sub hprimary, M.sumCoeff_add hkeys, dropSigner_spec hbalance⟩

/-- All the signers of a secondary message. -/
theorem nameSigners_spec {rules : Rules P} :
    ∀ {vs : List (OpenedValidator P)} {s s' : Count P × PointSum P},
      vs.foldlM (nameSigner rules) s = .ok s' →
        s'.1.tally.opened = s.1.tally.opened ++ vs.map openedLeaf ∧
          s'.1.tally.messages = s.1.tally.messages ∧
          M.sumCoeff s'.1.primaryKey = M.sumCoeff s.1.primaryKey - keySum M vs ∧
          M.sumCoeff s'.2 = M.sumCoeff s.2 + keySum M vs ∧
          s'.1.balance.toNat + (if rules.dropsSecondary then balanceSum vs else 0) =
            s.1.balance.toNat := by
  intro vs
  induction vs with
  | nil =>
      intro s s' h
      obtain rfl := Guest.foldlM_nil.mp h
      simp [balanceSum]
  | cons v vs ih =>
      intro s s' h
      obtain ⟨mid, hstep, hrest⟩ := Guest.foldlM_cons.mp h
      obtain ⟨hopened, hmessages, hprimary, hkeys, hbalance⟩ := nameSigner_spec (M := M) hstep
      obtain ⟨hopened', hmessages', hprimary', hkeys', hbalance'⟩ := ih hrest
      refine ⟨by simp [hopened', hopened], hmessages'.trans hmessages, ?_, ?_, ?_⟩
      · rw [hprimary', hprimary, keySum_cons, sub_sub]
      · rw [hkeys', hkeys, keySum_cons, add_assoc]
      · rw [← hbalance, ← hbalance']
        split
        · simp only [balanceSum, List.map_cons, List.sum_cons]
          omega
        · rfl

/-- One secondary message. -/
theorem countSecondary_spec {rules : Rules P} {signingDomain : P.Bytes32} {c c' : Count P}
    {a : AttestationWitness P} (h : countSecondary rules signingDomain c a = .ok c') :
    c'.tally.opened = c.tally.opened ++ a.attestingValidators.map openedLeaf ∧
      M.messageClaims c'.tally.messages = M.messageClaims c.tally.messages +
        Finsupp.single (signingRoot signingDomain a) (keySum M a.attestingValidators) ∧
      M.sumCoeff c'.primaryKey = M.sumCoeff c.primaryKey - keySum M a.attestingValidators ∧
      c'.balance.toNat + (if rules.dropsSecondary then balanceSum a.attestingValidators else 0) =
        c.balance.toNat ∧ rules.checkMessage a = .ok () := by
  simp only [countSecondary, Guest.bind_eq_ok, Guest.expect_eq_ok, Guest.pure_eq_ok] at h
  obtain ⟨⟨mid, keys⟩, hfold, key, hkey, tally, hpush, rfl⟩ := h
  obtain ⟨hopened, hmessages, hprimary, hkeys, hbalance⟩ := nameSigners_spec (M := M) hfold
  obtain ⟨first, hfirst, hcheck, hopened', hclaims⟩ := pushMessage_spec (M := M) hpush
  obtain rfl := Option.some.inj hfirst
  refine ⟨hopened'.trans hopened, ?_, hprimary, hbalance, hcheck⟩
  -- the message's key started empty, so it holds the named signers and nobody else
  rw [hclaims, hmessages, ← M.sumCoeff_get hkey, hkeys, KeyModel.sumCoeff_none, zero_add]

/-- All the secondary messages of a slot. -/
theorem countSecondaries_spec {rules : Rules P} {signingDomain : P.Bytes32} :
    ∀ {secondary : List (AttestationWitness P)} {c c' : Count P},
      secondary.foldlM (countSecondary rules signingDomain) c = .ok c' →
        c'.tally.opened = c.tally.opened ++
            (secondary.flatMap (·.attestingValidators)).map openedLeaf ∧
          M.messageClaims c'.tally.messages =
            M.messageClaims c.tally.messages + secondaryClaims M signingDomain secondary ∧
          M.sumCoeff c'.primaryKey =
            M.sumCoeff c.primaryKey - keySum M (secondary.flatMap (·.attestingValidators)) ∧
          c'.balance.toNat + (if rules.dropsSecondary then
            balanceSum (secondary.flatMap (·.attestingValidators)) else 0) = c.balance.toNat ∧
          ∀ a ∈ secondary, rules.checkMessage a = .ok () := by
  intro secondary
  induction secondary with
  | nil =>
      intro c c' h
      obtain rfl := Guest.foldlM_nil.mp h
      simp [secondaryClaims, balanceSum]
  | cons a secondary ih =>
      intro c c' h
      obtain ⟨mid, hstep, hrest⟩ := Guest.foldlM_cons.mp h
      obtain ⟨hopened, hclaims, hprimary, hbalance, hcheck⟩ := countSecondary_spec (M := M) hstep
      obtain ⟨hopened', hclaims', hprimary', hbalance', hcheck'⟩ := ih hrest
      refine ⟨by simp [hopened', hopened], ?_, ?_, ?_, ?_⟩
      · rw [hclaims', hclaims, secondaryClaims, secondaryClaims, List.map_cons, List.sum_cons,
          add_assoc]
      · rw [hprimary', hprimary, List.flatMap_cons, keySum_append, sub_sub]
      · rw [← hbalance, ← hbalance', List.flatMap_cons, balanceSum_append]
        split <;> omega
      · intro b hb
        rcases List.mem_cons.mp hb with rfl | hb
        · exact hcheck
        · exact hcheck' b hb

/-- All the absentees of a slot. -/
theorem countAbsentees_spec :
    ∀ {vs : List (OpenedValidator P)} {c c' : Count P}, vs.foldlM countAbsentee c = .ok c' →
      c'.tally.opened = c.tally.opened ++ vs.map openedLeaf ∧
        c'.tally.messages = c.tally.messages ∧
        M.sumCoeff c'.primaryKey = M.sumCoeff c.primaryKey - keySum M vs ∧
        c'.balance.toNat + balanceSum vs = c.balance.toNat := by
  -- along the list: an absentee's key leaves the sum and its balance the count
  intro vs
  induction vs with
  | nil =>
      intro c c' h
      obtain rfl := Guest.foldlM_nil.mp h
      simp [balanceSum]
  | cons v vs ih =>
      intro c c' h
      obtain ⟨mid, hstep, hrest⟩ := Guest.foldlM_cons.mp h
      simp only [countAbsentee, Guest.bind_eq_ok, Guest.expect_eq_ok, Guest.pure_eq_ok] at hstep
      obtain ⟨primaryKey, hprimary, balance, hbalance, rfl⟩ := hstep
      obtain ⟨hopened', hmessages', hprimary', hbalance'⟩ := ih hrest
      refine ⟨by simp [hopened'], hmessages', ?_, ?_⟩
      · rw [hprimary', M.sumCoeff_sub hprimary, keySum_cons, sub_sub]
      · rw [← checkedSub_eq_some hbalance, ← hbalance']
        simp [balanceSum]
        omega

/-- **One slot.** Everyone it names is opened; it claims the committee less
everyone named for its primary message and the named signers for theirs; what it
counts is the committee's balance less the dropped ones', exactly. -/
theorem countComplement_spec {rules : Rules P} {signingDomain : P.Bytes32}
    {slot : SlotComplementWitness P} {tally tally' : Tally P} {balance : UInt64}
    (h : countComplement rules signingDomain slot tally = .ok (balance, tally')) :
    ∃ first, slot.primary.head? = some first ∧
      tally'.opened = tally.opened ++ slot.named.map openedLeaf ∧
      M.messageClaims tally'.messages =
        M.messageClaims tally.messages + slotClaims M signingDomain first slot ∧
      balance.toNat + balanceSum (dropped rules slot) = slot.committee.balance.toNat ∧
      rules.checkMessage first = .ok () ∧
      ∀ a ∈ slot.secondary, rules.checkMessage a = .ok () := by
  simp only [countComplement, Guest.bind_eq_ok, Guest.expect_eq_ok, Guest.pure_eq_ok,
    Prod.mk.injEq] at h
  obtain ⟨c, hsecondary, c', habsent, key, hkey, tally'', hpush, rfl, rfl⟩ := h
  obtain ⟨hopened, hclaims, hprimary, hbalance, hcheck⟩ :=
    countSecondaries_spec (M := M) hsecondary
  obtain ⟨hopened', hmessages', hprimary', hbalance'⟩ := countAbsentees_spec (M := M) habsent
  obtain ⟨first, hfirst, hcheck', hopened'', hclaims''⟩ := pushMessage_spec (M := M) hpush
  refine ⟨first, hfirst, ?_, ?_, ?_, hcheck', hcheck⟩
  · rw [hopened'', hopened', hopened, SlotComplementWitness.named, List.map_append,
      List.append_assoc]
  · rw [hclaims'', hmessages', hclaims, ← M.sumCoeff_get hkey, hprimary', hprimary,
      KeyModel.sumCoeff_fromPoint, sub_sub, ← keySum_append, slotClaims,
      SlotComplementWitness.named, add_assoc, add_comm (secondaryClaims _ _ _)]
  · rw [dropped, ← hbalance, ← hbalance']
    split
    · rw [SlotComplementWitness.named, balanceSum_append]
      omega
    · rfl

theorem checkPrimary_eq_ok {slot : SlotComplementWitness P} {first : AttestationWitness P}
    (h : checkPrimary slot = .ok first) : slot.primary.head? = some first := by
  unfold checkPrimary at h
  split at h
  · cases h
  · next f rest hprimary =>
      simp only [Guest.bind_eq_ok, Guest.pure_eq_ok] at h
      obtain ⟨-, -, -, -, rfl⟩ := h
      rw [hprimary]
      rfl

/-- The primary aggregates carry one message. -/
theorem checkPrimary_data {slot : SlotComplementWitness P} {first : AttestationWitness P}
    (h : checkPrimary slot = .ok first) : ∀ a ∈ slot.primary, a.data = first.data := by
  unfold checkPrimary at h
  split at h
  · cases h
  · next f rest hprimary =>
      simp only [Guest.bind_eq_ok, Guest.forM_eq_ok, Guest.assert_eq_ok, Guest.pure_eq_ok] at h
      obtain ⟨-, -, -, hsame, rfl⟩ := h
      rw [hprimary]
      refine List.forall_mem_cons.mpr ⟨rfl, fun a ha => ?_⟩
      exact (sameData_iff.mp (hsame a ha)).symm

theorem pushMessage_checked {rules : Rules P} {signingDomain : P.Bytes32}
    {aggregates : List (AttestationWitness P)} {key : P.G1Point} {t t' : Tally P}
    (h : pushMessage rules signingDomain aggregates key t = .ok t') :
    ∃ first, aggregates.head? = some first ∧ rules.checkMessage first = .ok () := by
  rcases aggregates with _ | ⟨first, rest⟩
  · cases h
  · obtain ⟨_, hcheck, -⟩ := Guest.bind_eq_ok.mp h
    exact ⟨first, rfl, hcheck⟩

/-- Every message a slot counts has been checked. -/
theorem countComplement_checked {rules : Rules P} {signingDomain : P.Bytes32}
    {slot : SlotComplementWitness P} {tally : Tally P} {result : UInt64 × Tally P}
    (h : countComplement rules signingDomain slot tally = .ok result) :
    (∀ first, slot.primary.head? = some first → rules.checkMessage first = .ok ()) ∧
      ∀ a ∈ slot.secondary, rules.checkMessage a = .ok () := by
  simp only [countComplement, Guest.bind_eq_ok, Guest.expect_eq_ok] at h
  obtain ⟨c, hsecondary, _, -, _, -, _, hpush, -⟩ := h
  constructor
  · intro first hfirst
    obtain ⟨first', hfirst', hcheck⟩ := pushMessage_checked hpush
    obtain rfl := Option.some.inj (hfirst.symm.trans hfirst')
    exact hcheck
  · refine Guest.foldlM_mem (fun a c c' hstep => ?_) hsecondary
    simp only [countSecondary, Guest.bind_eq_ok, Guest.expect_eq_ok] at hstep
    obtain ⟨_, -, _, -, _, hpush, -⟩ := hstep
    obtain ⟨first, hfirst, hcheck⟩ := pushMessage_checked hpush
    obtain rfl := Option.some.inj hfirst
    exact hcheck

/-! ## What the openings prove -/

/-- The position a validator's index names in a tree of depth `d`. -/
def position (d : ℕ) (v : OpenedValidator P) : ℕ := v.validatorIndex.toNat % 2 ^ d

/-- **Everyone named is a leaf of the accumulator, and nobody is named twice.** -/
theorem openNamed_spec (hP : CollisionFree P) {named : List (OpenedValidator P)} {d : ℕ}
    {t : Contents P} {auxiliaries : List P.Digest} {u : Unit}
    (h : openNamed (named.map openedLeaf) (t.accRoot d) auxiliaries d = .ok u) :
    (∀ v ∈ named, t (position d v) = some ⟨v.pubkey, v.activeEffectiveBalance⟩) ∧
      (named.map (position d)).Nodup := by
  simp only [openNamed, Guest.bind_eq_ok] at h
  obtain ⟨-, -, h⟩ := h
  have hperm : (named.map openedLeaf).insertionSort (fun a b => a.2 ≤ b.2) |>.Perm
      (named.map openedLeaf) := List.perm_insertionSort _ _
  split at h
  · simp only [Guest.bind_eq_ok, Guest.assert_eq_ok] at h
    obtain ⟨r, hrun, rfl⟩ := h
    obtain ⟨hleaf, -, hnodup⟩ := batchRoot_sound hP.compress hrun
    refine ⟨fun v hv => ?_, ?_⟩
    · exact Contents.eq_of_leaf hP
        (hleaf (openedLeaf v) (hperm.mem_iff.mpr (List.mem_map_of_mem hv)))
    · have hnodup' := (hperm.map fun n => n.2 % 2 ^ d).nodup_iff.mp hnodup
      rwa [List.map_map] at hnodup'
  · -- nothing was named, and there is nothing to show
    next hnil =>
      rw [not_not] at hnil
      rw [hnil] at hperm
      obtain rfl := List.map_eq_nil_iff.mp hperm.symm.eq_nil
      exact ⟨fun v hv => absurd hv (by simp), List.nodup_nil⟩

/-- **Every committee is the tree's at its slot.** -/
theorem openCommittees_spec (hP : CollisionFree P) {slots : List (SlotComplementWitness P)}
    {committees : List (Option (CommitteeAggregate P))} {committeeRoot : P.Digest}
    {auxiliaries : List P.Digest} {u : Unit}
    (hroot : Committee.root committees = .ok committeeRoot)
    (hlt : ∀ slot ∈ slots, slot.slotInEpoch.toNat < Committee.maxSlots)
    (h : openCommittees (slots.map fun slot =>
      (Committee.leaf slot.committee, slot.slotInEpoch.toNat)) committeeRoot auxiliaries = .ok u) :
    ∀ slot ∈ slots, committees[slot.slotInEpoch.toNat]?.join = some slot.committee := by
  simp only [openCommittees, Guest.bind_eq_ok, Guest.assert_eq_ok] at h
  obtain ⟨r, hrun, rfl⟩ := h
  obtain ⟨-, rfl⟩ := Committee.root_eq_ok.mp hroot
  obtain ⟨hleaf, -⟩ := batchRoot_sound hP.compress hrun
  intro slot hslot
  have hopen := hleaf _ (List.mem_map_of_mem hslot)
  -- the slot is inside the tree, so no index bit is shifted out
  have hmod := Nat.mod_eq_of_lt (hlt slot hslot)
  unfold Committee.maxSlots at hmod
  simp only [hmod] at hopen
  exact Committee.slotLeaf_eq hP hopen

end Zkasper.Slot
