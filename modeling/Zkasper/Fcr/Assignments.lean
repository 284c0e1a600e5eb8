import Zkasper.Fcr.Shuffle
import Mathlib.Tactic.Ring

/-! # Which slot a validator attests in

The committee circuit asks it of one validator at a time and slices the shuffled list
into slots with a rounded formula (`slotOfPosition`); the rule guest tabulates a whole
epoch, committee by committee (`assignmentTable`). The two slicings are one
(`slotOfPosition_eq`), so the two agree on every validator.

The table marks inactive validators with `NO_SLOT`, the largest `u32`, and truncates slot
numbers to a `u32`. Once in 2^27 epochs the last slot of the epoch truncates to the
mark itself, and a whole slot's validators read as inactive (`assigned_iff`). -/

namespace Zkasper.Fcr

/-- `SLOTS_PER_EPOCH` -/
def epochSlots : ℕ := 32

def targetCommitteeSize : ℕ := 128

def maxCommitteesPerSlot : ℕ := 64

/-- `NO_SLOT`: `u32::MAX`. -/
def noSlot : UInt32 := 4294967295

/-- Which slot a shuffled position attests in. -/
def slotOfPosition (p n slotsPerEpoch : ℕ) : ℕ :=
  let s := (slotsPerEpoch * (p + 1) - 1) / n
  if s ≥ slotsPerEpoch then slotsPerEpoch - 1 else s

/-! ## The table -/

section Table

/-- One committee's writes; an index past the table panics. -/
def assignCommittee (slot : UInt32) (table committee : List UInt32) : Option (List UInt32) :=
  committee.foldlM
    (fun table v => if v.toNat < table.length then some (table.set v.toNat slot) else none) table

/-- `(epoch_start + c / committees_per_slot) as u32`, on wrapping 64 bits. -/
def slotNumber (epoch : UInt64) (s : ℕ) : UInt32 := (epoch * 32 + UInt64.ofNat s).toUInt32

def committeesPerSlot (len : ℕ) : ℕ :=
  max 1 (min maxCommitteesPerSlot (len / epochSlots / targetCommitteeSize))

/-- `len * c / count`: where a committee's piece of the shuffled list begins. -/
def committeeStart (len c : ℕ) : ℕ := len * c / (committeesPerSlot len * epochSlots)

/-- The turn of the loop for one committee. -/
def assignPiece (shuffled : List UInt32) (epoch : UInt64) (table : List UInt32) (c : ℕ) :
    Option (List UInt32) :=
  let start := committeeStart shuffled.length c
  let stop := committeeStart shuffled.length (c + 1)
  assignCommittee (slotNumber epoch (c / committeesPerSlot shuffled.length)) table
    ((shuffled.drop start).take (stop - start))

/-- The spec's committee layout for one epoch: shuffle the active set, cut it into
`committees_per_slot * SLOTS_PER_EPOCH` consecutive committees. -/
def assignmentTable (sha256 : List UInt8 → Bytes 32) (active : List UInt32) (seed : Bytes 32)
    (epoch : UInt64) (n : ℕ) : Option (List UInt32) :=
  let count := committeesPerSlot active.length * epochSlots
  let shuffled := shuffleList sha256 seed active shuffleRoundCount false
  (List.range count).foldlM (assignPiece shuffled epoch) (List.replicate n noSlot)

end Table

/-! ## One slicing -/

section Slicing

theorem slotOfPosition_lt {p n slots : ℕ} (hslots : 0 < slots) :
    slotOfPosition p n slots < slots := by
  simp only [slotOfPosition]
  split <;> omega

/-- **The two slicings are one**: a committee's positions all fall in its slot. -/
theorem slotOfPosition_eq {len cps c k : ℕ} (hcps : 0 < cps)
    (hc : c < cps * epochSlots)
    (hstart : len * c / (cps * epochSlots) ≤ k)
    (hstop : k < len * (c + 1) / (cps * epochSlots)) :
    slotOfPosition k len epochSlots = c / cps := by
  have hcount : 0 < cps * epochSlots := by omega
  have hslot : c / cps < epochSlots := Nat.div_lt_of_lt_mul hc
  have hlow : cps * (c / cps) ≤ c := Nat.mul_div_le c cps
  have hhigh : c + 1 ≤ cps * (c / cps + 1) := Nat.lt_mul_div_succ c hcps
  -- the piece begins behind the slot's beginning
  have hbegin : len * (c / cps) < epochSlots * (k + 1) := by
    have hpiece : len * c < (k + 1) * (cps * epochSlots) :=
      (Nat.div_lt_iff_lt_mul hcount).mp (Nat.lt_succ_of_le hstart)
    refine Nat.lt_of_mul_lt_mul_left (a := cps) ?_
    calc cps * (len * (c / cps)) = len * (cps * (c / cps)) := Nat.mul_left_comm _ _ _
      _ ≤ len * c := Nat.mul_le_mul_left len hlow
      _ < (k + 1) * (cps * epochSlots) := hpiece
      _ = cps * (epochSlots * (k + 1)) := by ring
  -- and ends before the slot's end
  have hend : epochSlots * (k + 1) ≤ len * (c / cps + 1) := by
    have hpiece : (k + 1) * (cps * epochSlots) ≤ len * (c + 1) :=
      (Nat.le_div_iff_mul_le hcount).mp hstop
    refine Nat.le_of_mul_le_mul_left ?_ hcps
    calc cps * (epochSlots * (k + 1)) = (k + 1) * (cps * epochSlots) := by ring
      _ ≤ len * (c + 1) := hpiece
      _ ≤ len * (cps * (c / cps + 1)) := Nat.mul_le_mul_left len hhigh
      _ = cps * (len * (c / cps + 1)) := Nat.mul_left_comm _ _ _
  have hdiv : (epochSlots * (k + 1) - 1) / len = c / cps := by
    apply Nat.div_eq_of_lt_le
    · rw [Nat.mul_comm (c / cps) len]
      omega
    · rw [Nat.mul_comm (c / cps + 1) len]
      omega
  simp only [slotOfPosition, hdiv]
  rw [if_neg (by omega)]

end Slicing

/-! ## What the table holds -/

section Holds

variable {sha256 : List UInt8 → Bytes 32} {seed : Bytes 32} {active : List UInt32} {n : ℕ}

/-- A committee writes its slot at its members, and nothing else. -/
theorem assignCommittee_spec (slot : UInt32) : ∀ (committee : List UInt32) {table : List UInt32},
    (∀ v ∈ committee, v.toNat < table.length) →
      ∃ table', assignCommittee slot table committee = some table' ∧
        table'.length = table.length ∧ (∀ v ∈ committee, table'[v.toNat]? = some slot) ∧
        ∀ i, (∀ v ∈ committee, v.toNat ≠ i) → table'[i]? = table[i]? := by
  intro committee
  induction committee with
  | nil => exact fun _ => ⟨_, rfl, rfl, fun _ hv => absurd hv List.not_mem_nil, fun _ _ => rfl⟩
  | cons w committee ih =>
      intro table hmem
      have hw := hmem w List.mem_cons_self
      obtain ⟨table', hrun, hlength, hset, hrest⟩ := @ih (table.set w.toNat slot)
        (fun v hv => by rw [List.length_set]; exact hmem v (List.mem_cons_of_mem _ hv))
      rw [List.length_set] at hlength
      refine ⟨table', ?_, hlength, ?_, ?_⟩
      · rw [assignCommittee, List.foldlM_cons, if_pos hw]
        exact hrun
      · intro v hv
        -- a validator behind keeps what it writes, the first one what was written for it
        by_cases hlater : ∃ u ∈ committee, u.toNat = v.toNat
        · obtain ⟨u, hu, heq⟩ := hlater
          rw [← heq]
          exact hset u hu
        · have hnone : ∀ u ∈ committee, u.toNat ≠ v.toNat := fun u hu heq => hlater ⟨u, hu, heq⟩
          rcases List.mem_cons.mp hv with rfl | htail
          · rw [hrest _ hnone, List.getElem?_set_self hw]
          · exact absurd rfl (hnone v htail)
      · intro i hi
        rw [hrest i fun v hv => hi v (List.mem_cons_of_mem _ hv)]
        exact List.getElem?_set_ne (hi w List.mem_cons_self)

/-- The shuffled list holds what the active list holds. -/
theorem mem_shuffleList {v : UInt32} :
    v ∈ shuffleList sha256 seed active shuffleRoundCount false ↔ v ∈ active := by
  constructor
  · intro hv
    obtain ⟨p, hp⟩ := List.mem_iff_getElem?.mp hv
    have hlt := (List.getElem?_eq_some_iff.mp hp).1
    rw [length_shuffleList] at hlt
    obtain ⟨i, hi, rfl⟩ := committeePosition_surjOn sha256 seed hlt
    rw [shuffleList_committeePosition sha256 seed hi] at hp
    exact List.mem_of_getElem? hp
  · intro hv
    obtain ⟨i, hi⟩ := List.mem_iff_getElem?.mp hv
    have hlt := (List.getElem?_eq_some_iff.mp hi).1
    rw [← shuffleList_committeePosition sha256 seed hlt] at hi
    exact List.mem_of_getElem? hi

/-- It has nobody twice. -/
theorem shuffleList_inj (hactive : active.Nodup) {p q : ℕ} {v : UInt32}
    (hp : (shuffleList sha256 seed active shuffleRoundCount false)[p]? = some v)
    (hq : (shuffleList sha256 seed active shuffleRoundCount false)[q]? = some v) : p = q := by
  have hplt := (List.getElem?_eq_some_iff.mp hp).1
  have hqlt := (List.getElem?_eq_some_iff.mp hq).1
  rw [length_shuffleList] at hplt hqlt
  obtain ⟨i, hi, rfl⟩ := committeePosition_surjOn sha256 seed hplt
  obtain ⟨j, hj, rfl⟩ := committeePosition_surjOn sha256 seed hqlt
  rw [shuffleList_committeePosition sha256 seed hi] at hp
  rw [shuffleList_committeePosition sha256 seed hj, ← hp] at hq
  rw [(List.getElem?_inj hj hactive).mp hq]

/-- What stands at a validator's place after some pieces, by its shuffled position. -/
structure Tabulated (epoch : UInt64) (shuffled : List UInt32) (n bound : ℕ)
    (table : List UInt32) : Prop where
  length : table.length = n
  assigned : ∀ p v, shuffled[p]? = some v → p < bound →
    table[v.toNat]? = some (slotNumber epoch (slotOfPosition p shuffled.length epochSlots))
  rest : ∀ i < n, (∀ p v, shuffled[p]? = some v → v.toNat = i → bound ≤ p) →
    table[i]? = some noSlot

/-- **One committee** extends the table over its piece. -/
theorem Tabulated.assign {epoch : UInt64} {shuffled table : List UInt32} {start : ℕ}
    (h : Tabulated epoch shuffled n start table) (stop : ℕ) (slot : UInt32)
    (hinj : ∀ (p q : ℕ) (v : UInt32), shuffled[p]? = some v → shuffled[q]? = some v → p = q)
    (hmem : ∀ v ∈ shuffled, v.toNat < n) (hle : start ≤ stop)
    (hslot : ∀ p < shuffled.length, start ≤ p → p < stop →
      slotNumber epoch (slotOfPosition p shuffled.length epochSlots) = slot) :
    ∃ table', assignCommittee slot table ((shuffled.drop start).take (stop - start)) = some table' ∧
      Tabulated epoch shuffled n stop table' := by
  have hpiece : ∀ v, v ∈ (shuffled.drop start).take (stop - start) ↔
      ∃ p, start ≤ p ∧ p < stop ∧ shuffled[p]? = some v := by
    intro v
    rw [List.mem_iff_getElem?]
    constructor
    · rintro ⟨k, hk⟩
      have hlt := (List.getElem?_eq_some_iff.mp hk).1
      rw [List.length_take] at hlt
      rw [List.getElem?_take_of_lt (by omega), List.getElem?_drop] at hk
      exact ⟨start + k, by omega, by omega, hk⟩
    · rintro ⟨p, hlow, hhigh, hp⟩
      refine ⟨p - start, ?_⟩
      rw [List.getElem?_take_of_lt (by omega), List.getElem?_drop, Nat.add_sub_cancel' hlow]
      exact hp
  have hbound : ∀ v ∈ (shuffled.drop start).take (stop - start), v.toNat < table.length := by
    intro v hv
    rw [h.length]
    exact hmem v (List.mem_of_mem_drop (List.mem_of_mem_take hv))
  obtain ⟨table', hrun, hlength, hset, hrest⟩ := assignCommittee_spec slot _ hbound
  refine ⟨table', hrun, hlength.trans h.length, ?_, ?_⟩
  -- a place before the piece keeps its slot: nobody stands at two places
  · intro p v hp hlt
    rcases Nat.lt_or_ge p start with hbefore | hafter
    · rw [hrest, h.assigned p v hp hbefore]
      intro u hu heq
      obtain ⟨q, hq, -, hat⟩ := (hpiece u).mp hu
      rw [UInt32.toNat_inj.mp heq] at hat
      have := hinj q p v hat hp
      omega
    · rw [hset v ((hpiece v).mpr ⟨p, hafter, hlt, hp⟩),
        hslot p (List.getElem?_eq_some_iff.mp hp).1 hafter hlt]
  · intro i hi hnone
    rw [hrest i, h.rest i hi]
    · exact fun p v hp heq => hle.trans (hnone p v hp heq)
    · intro v hv heq
      obtain ⟨p, -, hlt, hp⟩ := (hpiece v).mp hv
      have := hnone p v hp heq
      omega

/-- **Some committees** fill the table up to where the next one begins. -/
theorem assignPieces_tabulated (sha256 : List UInt8 → Bytes 32) (seed : Bytes 32)
    (epoch : UInt64) (hactive : active.Nodup)
    (hmem : ∀ v ∈ active, v.toNat < n) {shuffled : List UInt32}
    (hshuffled : shuffled = shuffleList sha256 seed active shuffleRoundCount false) :
    ∀ c ≤ committeesPerSlot shuffled.length * epochSlots, ∃ table,
      (List.range c).foldlM (assignPiece shuffled epoch) (List.replicate n noSlot) =
        some table ∧ Tabulated epoch shuffled n (committeeStart shuffled.length c) table := by
  have hcps : 0 < committeesPerSlot shuffled.length := by
    rw [committeesPerSlot]
    omega
  intro c
  induction c with
  | zero =>
      intro _
      refine ⟨_, rfl, List.length_replicate, ?_, ?_⟩
      · intro p v _ hlt
        simp [committeeStart] at hlt
      · intro i hi _
        exact List.getElem?_replicate_of_lt hi
  | succ c ih =>
      intro hc
      obtain ⟨table, hsome, htable⟩ := ih (by omega)
      have hstep := htable.assign (committeeStart shuffled.length (c + 1))
        (slotNumber epoch (c / committeesPerSlot shuffled.length))
        (fun p q v hp hq => by
          rw [hshuffled] at hp hq
          exact shuffleList_inj hactive hp hq)
        (fun v hv => by
          rw [hshuffled] at hv
          exact hmem v (mem_shuffleList.mp hv))
        (Nat.div_le_div_right (Nat.mul_le_mul_left _ (Nat.le_succ c)))
        (fun p _ hlow hhigh => by rw [slotOfPosition_eq hcps (by omega) hlow hhigh])
      obtain ⟨table', hrun, htable'⟩ := hstep
      refine ⟨table', ?_, htable'⟩
      have hpiece : assignPiece shuffled epoch table c = some table' := hrun
      simp [List.range_succ, hsome, hpiece]

/-- **The whole table**: every active validator at its slot, the others at none. -/
theorem assignmentTable_spec (sha256 : List UInt8 → Bytes 32) (seed : Bytes 32) (epoch : UInt64)
    (hactive : active.Nodup) (hmem : ∀ v ∈ active, v.toNat < n) :
    ∃ table, assignmentTable sha256 active seed epoch n = some table ∧ table.length = n ∧
      (∀ i v, active[i]? = some v → table[v.toNat]? = some (slotNumber epoch
        (slotOfPosition (committeePosition sha256 seed i active.length
          (pivots sha256 seed active.length)) active.length epochSlots))) ∧
      ∀ i < n, (∀ v ∈ active, v.toNat ≠ i) → table[i]? = some noSlot := by
  have hlength := length_shuffleList sha256 seed active shuffleRoundCount
  obtain ⟨table, hrun, htable⟩ := assignPieces_tabulated sha256 seed
    epoch hactive hmem rfl _ le_rfl
  rw [hlength] at hrun
  refine ⟨table, hrun, htable.length, ?_, ?_⟩
  · intro i v hi
    have hlt : i < active.length := (List.getElem?_eq_some_iff.mp hi).1
    have hat := (shuffleList_committeePosition sha256 seed hlt).trans hi
    have hbound : committeePosition sha256 seed i active.length (pivots sha256 seed active.length)
        < committeeStart (shuffleList sha256 seed active shuffleRoundCount false).length
          (committeesPerSlot (shuffleList sha256 seed active shuffleRoundCount false).length *
            epochSlots) := by
      rw [hlength, committeeStart, Nat.mul_div_cancel]
      · exact committeePosition_lt hlt
      · rw [committeesPerSlot, epochSlots]
        omega
    have hassigned := htable.assigned _ v hat hbound
    rw [hlength] at hassigned
    exact hassigned
  · intro i hi hnone
    apply htable.rest i hi
    intro p v hp heq
    exact absurd heq (hnone v (mem_shuffleList.mp (List.mem_of_getElem? hp)))

end Holds

/-! ## What the two sides say -/

section Agreement

theorem slotNumber_toNat {epoch : UInt64} {s : ℕ} (hs : s < epochSlots) :
    (slotNumber epoch s).toNat = epoch.toNat % 2 ^ 27 * epochSlots + s := by
  rw [epochSlots] at *
  have h64 : (UInt64.ofNat s).toNat = s := UInt64.toNat_ofNat_of_lt' (by
    norm_num [UInt64.size]
    omega)
  have h32 : (32 : UInt64).toNat = 32 := rfl
  rw [slotNumber, UInt64.toNat_toUInt32, UInt64.toNat_add, UInt64.toNat_mul, h64, h32]
  omega

/-- The mark for no slot is the last slot of some epochs. -/
theorem slotNumber_eq_noSlot {epoch : UInt64} {s : ℕ} (hs : s < epochSlots) :
    slotNumber epoch s = noSlot ↔ epoch.toNat % 2 ^ 27 = 2 ^ 27 - 1 ∧ s = 31 := by
  have hmark : noSlot.toNat = 4294967295 := rfl
  rw [← UInt32.toNat_inj, slotNumber_toNat hs, hmark]
  rw [epochSlots] at *
  omega

/-- The last position attests in the last slot. -/
theorem slotOfPosition_last {n : ℕ} (hn : 0 < n) :
    slotOfPosition (n - 1) n epochSlots = 31 := by
  have hdiv : (epochSlots * (n - 1 + 1) - 1) / n = 31 := by
    rw [epochSlots]
    apply Nat.div_eq_of_lt_le <;> omega
  simp only [slotOfPosition, hdiv]
  rfl

/-- The table puts every active validator in one slot, the one the circuit puts it in,
and the others in none. -/
def AssignedAlike (sha256 : List UInt8 → Bytes 32) (active : List UInt32) (seed : Bytes 32)
    (epoch : UInt64) (n : ℕ) : Prop :=
  ∃ table, assignmentTable sha256 active seed epoch n = some table ∧ table.length = n ∧
    (∀ i v, active[i]? = some v → ∃ slot, table[v.toNat]? = some slot ∧ slot ≠ noSlot ∧
      slotOfPosition (committeePosition sha256 seed i active.length
        (pivots sha256 seed active.length)) active.length epochSlots =
          slot.toNat % epochSlots) ∧
    ∀ i < n, (∀ v ∈ active, v.toNat ≠ i) → table[i]? = some noSlot

/-- Whoever sits at the last place of the shuffled list has a slot only where the last
slot of the epoch is not the mark for none. -/
theorem AssignedAlike.epoch_ne {sha256 : List UInt8 → Bytes 32} {active : List UInt32}
    {seed : Bytes 32} {epoch : UInt64} {n : ℕ} (h : AssignedAlike sha256 active seed epoch n)
    (hne : active ≠ []) (hactive : active.Nodup) (hmem : ∀ v ∈ active, v.toNat < n) :
    epoch.toNat % 2 ^ 27 ≠ 2 ^ 27 - 1 := by
  intro hepoch
  have hpos : 0 < active.length := List.length_pos_iff.mpr hne
  obtain ⟨table, hrun, -, halike, -⟩ := h
  obtain ⟨table', hrun', -, hassigned, -⟩ :=
    assignmentTable_spec sha256 seed epoch hactive hmem
  obtain rfl : table = table' := Option.some.inj (hrun.symm.trans hrun')
  obtain ⟨i, hi, hlast⟩ := committeePosition_surjOn sha256 seed
    (show active.length - 1 < active.length by omega)
  have hv := List.getElem?_eq_getElem hi
  obtain ⟨slot, hat, hslot, -⟩ := halike i _ hv
  rw [hassigned i _ hv, hlast, slotOfPosition_last hpos] at hat
  apply hslot
  rw [← Option.some.inj hat]
  exact (slotNumber_eq_noSlot (by rw [epochSlots]; omega)).mpr ⟨hepoch, rfl⟩

/-- **The two shuffles agree**, but for the epochs whose last slot is the mark for no
slot: the list is the active set in order, and a registry of `n` validators holds it. -/
theorem assigned_iff (sha256 : List UInt8 → Bytes 32) (active : List UInt32) (seed : Bytes 32)
    (epoch : UInt64) (n : ℕ) (hne : active ≠ []) (hsorted : active.Pairwise (· < ·))
    (hmem : ∀ v ∈ active, v.toNat < n) :
    AssignedAlike sha256 active seed epoch n ↔ epoch.toNat % 2 ^ 27 ≠ 2 ^ 27 - 1 := by
  have hactive : active.Nodup := hsorted.imp fun hlt => UInt32.ne_of_lt hlt
  constructor
  · exact fun h => h.epoch_ne hne hactive hmem
  · intro hepoch
    obtain ⟨table, hrun, hlength, hassigned, hrest⟩ :=
      assignmentTable_spec sha256 seed epoch hactive hmem
    have hslot : ∀ p, slotOfPosition p active.length epochSlots < epochSlots := by
      intro p
      apply slotOfPosition_lt
      decide
    refine ⟨table, hrun, hlength, ?_, hrest⟩
    intro i v hi
    refine ⟨_, hassigned i v hi, ?_, ?_⟩
    · intro hmark
      exact hepoch ((slotNumber_eq_noSlot (hslot _)).mp hmark).1
    · rw [slotNumber_toNat (hslot _), Nat.mul_comm, Nat.mul_add_mod, Nat.mod_eq_of_lt (hslot _)]

/-- Four active validators among six, in the first epoch, three of whom the shuffle moves. -/
theorem assigned_iff_four : AssignedAlike mixing [0, 2, 3, 5] (zeroBytes 32) 0 6 :=
  (assigned_iff mixing [0, 2, 3, 5] (zeroBytes 32) 0 6 (by simp) (by decide)
    (by simp)).mpr (by decide)

example : assignmentTable mixing [0, 2, 3, 5] (zeroBytes 32) 0 6 =
    some [7, noSlot, 23, 31, noSlot, 15] := by
  decide +kernel

/-- The only validator attests in the epoch's last slot, and is marked as having none. -/
theorem not_assigned :
    ¬ ∃ sha256, AssignedAlike sha256 [0] (zeroBytes 32) 134217727 1 := by
  rintro ⟨sha256, h⟩
  exact h.epoch_ne (by simp) (by simp) (by simp) (by decide)

end Agreement

end Zkasper.Fcr
