import Zkasper.Library.Septets
import Zkasper.WitnessGen.Committees
import Mathlib.Data.List.Dedup
import Mathlib.Data.List.Sort

/-! # The committee witness in columns

What a committee request carries in place of its witness: the validator indices as gaps,
the slots as bytes, and the balances as a dictionary with one id a member. The public
keys stay out of it, and the far end puts them back from the table it holds.

Against any table that agrees with the witness on the keys it has, a packed witness
comes back whole, or stops at the first member whose key is missing
(`decode_encode`). -/

namespace Zkasper.CommitteeCache

open Committee Septets

variable {P : Primitives}

/-! ## LEB128 -/

/-- The loop of `putVarint`, which a `u64` goes through at most nine times. -/
def putVarintFrom : ℕ → UInt64 → List UInt8
  | 0, value => [value.toUInt8]
  | rounds + 1, value =>
      if 0x80 ≤ value then (value.toUInt8 ||| 0x80) :: putVarintFrom rounds (value >>> 7)
      else [value.toUInt8]

def putVarint (value : UInt64) : List UInt8 := putVarintFrom 9 value

namespace Varints

/-- The loop of `next`, over the bytes the cursor has not passed. -/
def nextFrom (shift : ℕ) (value : UInt64) : List UInt8 → Except String (UInt64 × List UInt8)
  | [] => do
      Guest.assert (shift < 64) "a varint claims more than 64 bits"
      throw "a varint column ended mid-value"
  | byte :: rest => do
      Guest.assert (shift < 64) "a varint claims more than 64 bits"
      let value := value ||| (byte &&& 0x7f).toUInt64 <<< UInt64.ofNat shift
      if byte < 0x80 then return (value, rest) else nextFrom (shift + 7) value rest

/-- One value of a column, and what is left of the column after it. -/
def next (bytes : List UInt8) : Except String (UInt64 × List UInt8) := nextFrom 0 0 bytes

end Varints

theorem Varints.nextFrom_cons {shift : ℕ} (hshift : shift < 64) (value : UInt64) (byte : UInt8)
    (rest : List UInt8) :
    nextFrom shift value (byte :: rest) =
      if byte < 0x80 then .ok (value ||| (byte &&& 0x7f).toUInt64 <<< UInt64.ofNat shift, rest)
      else nextFrom (shift + 7) (value ||| (byte &&& 0x7f).toUInt64 <<< UInt64.ofNat shift)
        rest := by
  rw [nextFrom, Guest.assert, if_pos hshift]
  rfl

theorem Varints.nextFrom_putVarintFrom (rest : List UInt8) :
    ∀ (rounds k : ℕ) (acc value : UInt64), rounds + k = 9 → value.toNat < 2 ^ (64 - 7 * k) →
      nextFrom (7 * k) acc (putVarintFrom rounds value ++ rest) =
        .ok (acc ||| value <<< UInt64.ofNat (7 * k), rest) := by
  have last : ∀ (k : ℕ) (acc value : UInt64), 7 * k < 64 → ¬ 0x80 ≤ value →
      nextFrom (7 * k) acc ([value.toUInt8] ++ rest) =
        .ok (acc ||| value <<< UInt64.ofNat (7 * k), rest) := by
    intro k acc value hk hsmall
    obtain ⟨hlow, hlt⟩ := single hsmall
    rw [List.singleton_append, nextFrom_cons hk, if_pos hlt, hlow]
  intro rounds
  induction rounds with
  | zero =>
      intro k acc value hk hvalue
      obtain rfl : k = 9 := by omega
      refine last 9 acc value (by omega) ?_
      rw [UInt64.le_iff_toNat_le]
      show ¬ 128 ≤ value.toNat
      omega
  | succ rounds ih =>
      intro k acc value hk hvalue
      rw [putVarintFrom]
      split
      · have hnext : (value >>> 7).toNat < 2 ^ (64 - 7 * (k + 1)) := by
          rw [toNat_shiftRight_seven, Nat.div_lt_iff_lt_mul (by norm_num)]
          rw [show (128 : ℕ) = 2 ^ 7 from rfl, ← pow_add]
          rwa [show 64 - 7 * (k + 1) + 7 = 64 - 7 * k by omega]
        have hstep := ih (k + 1)
          (acc ||| ((value.toUInt8 ||| 0x80) &&& 0x7f).toUInt64 <<< UInt64.ofNat (7 * k))
          (value >>> 7) (by omega) hnext
        rw [show 7 * (k + 1) = 7 * k + 7 by omega, UInt64.or_assoc,
          shift_continued value (by omega)] at hstep
        rw [List.cons_append, nextFrom_cons (by omega), if_neg (not_continued_lt _), hstep]
      · next hsmall => exact last k acc value (by omega) hsmall

/-- **A value written is the value read back**, with the rest of the column after it. -/
theorem Varints.next_putVarint (value : UInt64) (rest : List UInt8) :
    next (putVarint value ++ rest) = .ok (value, rest) := by
  have h := nextFrom_putVarintFrom rest 9 0 0 value rfl (by simpa using value.toNat_lt)
  simpa [next, putVarint] using h

/-! ## Packing -/

variable (P) in
/-- A committee witness with the public keys taken out and the rest packed into columns. -/
structure CommitteeDelta where
  accumulatorCommitment : P.Digest
  targetEpoch : UInt64
  accRoot : P.Digest
  totalActiveBalance : UInt64
  memberCount : UInt64
  /-- LEB128 gaps between consecutive validator indices, the first absolute. -/
  indexGaps : List UInt8
  /-- `slotInEpoch`, one byte a member. -/
  slots : List UInt8
  /-- Distinct `activeEffectiveBalance` values, most common first. -/
  balances : List UInt64
  /-- LEB128 index into `balances`, one a member. -/
  balanceIds : List UInt8
  accMultiProof : List P.Digest

/-- How many members have a balance. -/
def count (members : List (CommitteeMember P)) (balance : UInt64) : ℕ :=
  (members.map (·.activeEffectiveBalance)).count balance

/-- Falling frequency, and the value where two are as common. -/
def before (members : List (CommitteeMember P)) (a b : UInt64) : Prop :=
  count members b < count members a ∨ count members a = count members b ∧ a ≤ b

instance (members : List (CommitteeMember P)) : DecidableRel (before members) :=
  fun _ _ => inferInstanceAs (Decidable (_ ∨ _))

/-- The dictionary: every balance once, the one with the most members first. -/
def balances (members : List (CommitteeMember P)) : List UInt64 :=
  (members.map (·.activeEffectiveBalance)).dedup.insertionSort (before members)

/-- The three columns a member adds to. -/
structure Columns where
  indexGaps : List UInt8
  slots : List UInt8
  balanceIds : List UInt8

/-- The gap from the member before, where the indices increase. -/
def gapAfter (previous : Option UInt64) (index : UInt64) : Option UInt64 :=
  match previous with
  | none => some index
  | some previous => if index > previous then some (index - previous) else none

/-- The byte a slot is sent as, where an epoch has the slot. -/
def slotByte (slotInEpoch : UInt64) : Option UInt8 :=
  if slotInEpoch.toNat < maxSlots then some slotInEpoch.toUInt8 else none

/-- The loop over the members, from one that follows `previous`. -/
def columns (ids : List UInt64) :
    Option UInt64 → List (CommitteeMember P) → Option Columns
  | _, [] => some ⟨[], [], []⟩
  | previous, m :: members => do
      let gap ← gapAfter previous m.validatorIndex
      let slot ← slotByte m.slotInEpoch
      let rest ← columns ids (some m.validatorIndex) members
      let id := UInt64.ofNat (ids.idxOf m.activeEffectiveBalance)
      return ⟨putVarint gap ++ rest.indexGaps, slot :: rest.slots,
        putVarint id ++ rest.balanceIds⟩

/-- Pack a witness into its columns, or decline it: members that do not strictly
increase, or a slot past the ones an epoch has. -/
def encode (witness : CommitteeWitness P) : Option (CommitteeDelta P) := do
  let balances := balances witness.members
  let columns ← columns balances none witness.members
  return {
    accumulatorCommitment := witness.accumulatorCommitment
    targetEpoch := witness.targetEpoch
    accRoot := witness.accRoot
    totalActiveBalance := witness.totalActiveBalance
    memberCount := UInt64.ofNat witness.members.length
    indexGaps := columns.indexGaps
    slots := columns.slots
    balances := balances
    balanceIds := columns.balanceIds
    accMultiProof := witness.accMultiProof }

/-! ## Unpacking -/

/-- What a table that misses a member's key is blamed with. -/
def noPublicKey (index : UInt64) : String :=
  s!"the member table holds no public key for validator {index}"

/-- The next member's index: the first gap is absolute. -/
def indexAfter (previous : Option UInt64) (gap : UInt64) : Except String UInt64 :=
  match previous with
  | none => return gap
  | some index => do
      Guest.assert (gap > 0) s!"validator index {index} repeats"
      -- `checked_add`
      Guest.assert (index.toNat + gap.toNat < 2 ^ 64) "a validator index overflows"
      return index + gap

/-- The loop over the slot column, beside what is left of the other two. -/
def decodeMembers (balances : List UInt64) (pubkeys : UInt64 → Option P.G1Point) :
    Option UInt64 → List UInt8 → List UInt8 → List UInt8 →
      Except String (List (CommitteeMember P) × List UInt8 × List UInt8)
  | _, [], gaps, ids => return ([], gaps, ids)
  | previous, slot :: slots, gaps, ids => do
      let (gap, gaps) ← Varints.next gaps
      let index ← indexAfter previous gap
      let (id, ids) ← Varints.next ids
      let activeEffectiveBalance ← Guest.expect balances[id.toNat]?
        s!"balance id {id} is past the {balances.length} sent"
      let pubkey ← Guest.expect (pubkeys index) (noPublicKey index)
      let (members, rest) ← decodeMembers balances pubkeys (some index) slots gaps ids
      return (⟨index, pubkey, activeEffectiveBalance, slot.toUInt64⟩ :: members, rest)

/-- Put the witness back together, taking each member's key from `pubkeys`. -/
def decode (delta : CommitteeDelta P) (pubkeys : UInt64 → Option P.G1Point) :
    Except String (CommitteeWitness P) := do
  Guest.assert (delta.slots.length = delta.memberCount.toNat)
    s!"the slot column holds {delta.slots.length} of {delta.memberCount} members"
  let (members, gaps, ids) ← decodeMembers delta.balances pubkeys none delta.slots
    delta.indexGaps delta.balanceIds
  Guest.assert (gaps = [] ∧ ids = [])
    s!"a column holds more members than the {delta.memberCount} declared"
  return {
    accumulatorCommitment := delta.accumulatorCommitment
    targetEpoch := delta.targetEpoch
    accRoot := delta.accRoot
    totalActiveBalance := delta.totalActiveBalance
    accMultiProof := delta.accMultiProof
    members := members }

/-! ## The round trip -/

section RoundTrip

variable {members : List (CommitteeMember P)} {pubkeys : UInt64 → Option P.G1Point}

theorem mem_balances {m : CommitteeMember P} (hm : m ∈ members) :
    m.activeEffectiveBalance ∈ balances members := by
  rw [balances, List.mem_insertionSort, List.mem_dedup]
  exact List.mem_map_of_mem hm

theorem nodup_balances (members : List (CommitteeMember P)) : (balances members).Nodup :=
  (List.perm_insertionSort _ _).nodup_iff.mpr (List.nodup_dedup _)

/-- A dictionary has no more entries than there are values. -/
theorem length_balances_le (members : List (CommitteeMember P)) :
    (balances members).length ≤ 2 ^ 64 := by
  have hnodup : ((balances members).map UInt64.toNat).Nodup :=
    (nodup_balances members).map fun _ _ h => UInt64.toNat_inj.mp h
  have hsub : (balances members).map UInt64.toNat ⊆ List.range (2 ^ 64) := by
    intro v hv
    obtain ⟨balance, -, rfl⟩ := List.mem_map.mp hv
    exact List.mem_range.mpr balance.toNat_lt
  have h := (hnodup.subperm hsub).length_le
  rwa [List.length_map, List.length_range] at h

/-- A balance is found again under its id. -/
theorem getElem?_id {balance : UInt64} (h : balance ∈ balances members) :
    (balances members)[(UInt64.ofNat ((balances members).idxOf balance)).toNat]? =
      some balance := by
  have hlt := List.idxOf_lt_length_of_mem h
  have hle := length_balances_le members
  rw [UInt64.toNat_ofNat', Nat.mod_eq_of_lt (by omega)]
  exact List.getElem?_idxOf h

/-- The gap from one index to the next leads back to it. -/
theorem indexAfter_gapAfter {previous : Option UInt64} {index gap : UInt64}
    (h : gapAfter previous index = some gap) : indexAfter previous gap = .ok index := by
  cases previous with
  | none =>
      obtain rfl := Option.some.inj h
      rfl
  | some previous =>
      rw [gapAfter] at h
      split at h
      · next hlt =>
          obtain rfl := Option.some.inj h
          have hlt' := UInt64.lt_iff_toNat_lt.mp hlt
          have hsub : (index - previous).toNat = index.toNat - previous.toNat :=
            UInt64.toNat_sub_of_le _ _ (UInt64.le_of_lt hlt)
          have hadd := index.toNat_lt
          have hpos : index - previous > 0 := by
            rw [gt_iff_lt, UInt64.lt_iff_toNat_lt, hsub]
            show 0 < index.toNat - previous.toNat
            omega
          have hback : previous + (index - previous) = index := by
            apply UInt64.toNat_inj.mp
            rw [UInt64.toNat_add, hsub]
            omega
          have hfits : previous.toNat + (index - previous).toNat < 2 ^ 64 := by
            rw [hsub]
            omega
          rw [indexAfter, Guest.assert, Guest.assert, if_pos hpos, if_pos hfits, hback]
          rfl
      · cases h

/-- The slot column has one byte a member. -/
theorem length_slots {ids : List UInt64} {previous : Option UInt64} {c : Columns}
    (h : columns ids previous members = some c) : c.slots.length = members.length := by
  induction members generalizing previous c with
  | nil =>
      obtain rfl := Option.some.inj h
      rfl
  | cons m members ih =>
      simp only [columns, Option.bind_eq_bind, Option.bind_eq_some_iff] at h
      obtain ⟨gap, -, slot, -, rest, hrest, hret⟩ := h
      obtain rfl := Option.some.inj hret
      show rest.slots.length + 1 = members.length + 1
      rw [ih hrest]

/-- A slot is the byte it was sent as. -/
theorem toUInt64_slotByte {slotInEpoch : UInt64} {slot : UInt8}
    (h : slotByte slotInEpoch = some slot) : slot.toUInt64 = slotInEpoch := by
  obtain ⟨hlt, hbyte⟩ := Option.ite_none_right_eq_some.mp h
  obtain rfl := Option.some.inj hbyte
  have hslots : maxSlots = 32 := rfl
  apply UInt64.toNat_inj.mp
  rw [UInt8.toNat_toUInt64, UInt64.toNat_toUInt8]
  omega

/-- **The columns of some members read back**, whatever follows them: the members
themselves, or a stop at the first one whose key the table does not have. -/
theorem decodeMembers_columns {all : List (CommitteeMember P)} (gaps ids : List UInt8) :
    ∀ {previous : Option UInt64} {members : List (CommitteeMember P)} {c : Columns},
      columns (balances all) previous members = some c → (∀ m ∈ members, m ∈ all) →
      (∀ m ∈ members, ∀ pubkey, pubkeys m.validatorIndex = some pubkey → pubkey = m.pubkey) →
      decodeMembers (balances all) pubkeys previous c.slots (c.indexGaps ++ gaps)
          (c.balanceIds ++ ids) =
        match members.find? fun m => (pubkeys m.validatorIndex).isNone with
        | none => .ok (members, gaps, ids)
        | some m => .error (noPublicKey m.validatorIndex) := by
  intro previous members
  induction members generalizing previous with
  | nil =>
      intro c hc _ _
      obtain rfl := Option.some.inj hc
      rfl
  | cons m members ih =>
      intro c hc hall hkeys
      obtain ⟨hm, hmembers⟩ := List.forall_mem_cons.mp hall
      obtain ⟨hkey, hkeys⟩ := List.forall_mem_cons.mp hkeys
      simp only [columns, Option.bind_eq_bind, Option.bind_eq_some_iff] at hc
      obtain ⟨gap, hgap, slot, hslot, rest, hrest, hret⟩ := hc
      obtain rfl := Option.some.inj hret
      simp only [decodeMembers, List.append_assoc, Varints.next_putVarint,
        indexAfter_gapAfter hgap, getElem?_id (mem_balances hm), Guest.expect, bind, Except.bind]
      cases hpubkey : pubkeys m.validatorIndex with
      | none => simp [hpubkey]
      | some pubkey =>
          obtain rfl := hkey pubkey hpubkey
          rw [List.find?_cons_of_neg (by simp [hpubkey]), ih hrest hmembers hkeys]
          cases members.find? fun m => (pubkeys m.validatorIndex).isNone with
          | none => simp [toUInt64_slotByte hslot, pure, Except.pure]
          | some missing => rfl

end RoundTrip

/-- **A packed witness comes back whole** from a table that agrees with it on the keys
it has, or stops at the first member whose key is missing. -/
theorem decode_encode {witness : CommitteeWitness P} {delta : CommitteeDelta P}
    {pubkeys : UInt64 → Option P.G1Point} (h : encode witness = some delta)
    (hlength : witness.members.length < 2 ^ 64)
    (hkeys : ∀ m ∈ witness.members, ∀ pubkey, pubkeys m.validatorIndex = some pubkey →
      pubkey = m.pubkey) :
    decode delta pubkeys =
      match witness.members.find? fun m => (pubkeys m.validatorIndex).isNone with
      | none => .ok witness
      | some m => .error (noPublicKey m.validatorIndex) := by
  simp only [encode, Option.bind_eq_bind, Option.bind_eq_some_iff] at h
  obtain ⟨c, hc, hret⟩ := h
  obtain rfl := Option.some.inj hret
  have hslots : c.slots.length = (UInt64.ofNat witness.members.length).toNat := by
    rw [length_slots hc, UInt64.toNat_ofNat', Nat.mod_eq_of_lt hlength]
  have hread := decodeMembers_columns [] [] hc (fun _ hm => hm) hkeys
  simp only [List.append_nil] at hread
  simp only [decode, Guest.assert, if_pos hslots, hread, bind, Except.bind]
  cases witness.members.find? fun m => (pubkeys m.validatorIndex).isNone with
  | none => rfl
  | some missing => rfl

end Zkasper.CommitteeCache
