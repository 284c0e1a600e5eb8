import Zkasper.Fcr.Assignments
import Zkasper.Fcr.RuleWire
import Zkasper.Fcr.ShuffledIndex
import Zkasper.Library.Memo

/-! # Slot assignments on demand

The rule asks whether a validator attests in a range of slots. The guest tabulates an
epoch at the first question about it, over the active set of the registry that the epoch's
seed names, and keeps the table.

Two pieces of code apply the changes of a registry: `registry` writes them to a copy one
after another, `activeIndices` collects them into a map first. They see the same balances
(`Witness.activeIndices_of_registry`), and the tables that are kept do not change an answer
(`snd_isInRange`). What does is the width of a slot in them: `exact_below_iff`. -/

namespace Zkasper.Fcr

open Chunks

/-! ## The active set -/

/-- The places of the balances that are positive. -/
def positiveIndices (balances : List UInt64) : List UInt32 :=
  ((List.range balances.length).filter fun i => 0 < balances.getD i 0).map UInt32.ofNat

section Registry

variable {w : Witness} {idx : UInt32} {source : BalanceSourceData}

/-- Writing the changes one after another and collecting them first are the same. -/
theorem foldlM_updateAt {base : List UInt64} (hbase : base.length ≤ 2 ^ 32)
    {changes : List (UInt32 × UInt64)} {balances balances' : List UInt64}
    {m : UInt32 → Option UInt64} (hlength : balances.length = base.length)
    (h : ∀ i, balances[i]? = base[i]?.map fun b => (m (UInt32.ofNat i)).getD b)
    (hrun : changes.foldlM
      (fun balances change => updateAt balances change.1 fun _ => change.2) balances =
        .ok balances') :
    balances'.length = base.length ∧ ∀ i, balances'[i]? = base[i]?.map fun b =>
      (changes.foldl insertChange m (UInt32.ofNat i)).getD b := by
  induction changes generalizing balances m with
  | nil =>
      obtain rfl := Guest.foldlM_nil.mp hrun
      exact ⟨hlength, h⟩
  | cons change changes ih =>
      obtain ⟨next, hstep, hrest⟩ := Guest.foldlM_cons.mp hrun
      obtain ⟨_, -, hnext⟩ := Guest.bind_eq_ok.mp hstep
      obtain rfl := Guest.pure_eq_ok.mp hnext
      refine ih (by rwa [List.length_modify]) ?_ hrest
      intro i
      rw [List.getElem?_modify, h i]
      by_cases hi : i < base.length
      · have hplace : UInt32.ofNat i = change.1 ↔ change.1.toNat = i := by
          rw [← UInt32.toNat_inj, UInt32.toNat_ofNat_of_lt' (by simp only [UInt32.size]; omega)]
          exact eq_comm
        rw [List.getElem?_eq_getElem hi]
        by_cases hhere : change.1.toNat = i
        · rw [insertChange, hplace.mpr hhere, Function.update_self]
          simp [hhere]
        · rw [insertChange, Function.update_of_ne (fun heq => hhere (hplace.mp heq))]
          simp [hhere]
      · rw [List.getElem?_eq_none (Nat.le_of_not_lt hi)]
        rfl

/-- The balances of a registry, by validator. -/
theorem Witness.registry_balances (hw : w.Matched) (h : w.registry idx = .ok source) :
    ∃ r, w.header.registries[idx.toNat]? = some r ∧
      source.effectiveBalances.length = w.header.nValidators.toNat ∧
      ∀ i, source.effectiveBalances[i]? = w.balances[i]?.map fun b =>
        (collectChanges r.balanceChanges (UInt32.ofNat i)).getD b := by
  have hn := w.header.nValidators.toNat_lt
  obtain ⟨r, hr, h⟩ := Guest.bind_eq_ok.mp h
  obtain ⟨balances, hbalances, h⟩ := Guest.bind_eq_ok.mp h
  obtain ⟨slashed, -, h⟩ := Guest.bind_eq_ok.mp h
  obtain rfl := Guest.pure_eq_ok.mp h
  have hbase : w.balances.length ≤ 2 ^ 32 := hw.balances.trans_le hn.le
  obtain ⟨hlength, hvalues⟩ := foldlM_updateAt (m := fun _ => none) hbase rfl
    (fun i => by cases w.balances[i]? <;> rfl) hbalances
  exact ⟨r, Guest.expect_eq_ok.mp hr, hlength.trans hw.balances, hvalues⟩

/-- Some of the indices, while the loop goes over them. -/
theorem foldlM_active {w : Witness} {changed : UInt32 → Option UInt64} {balances : List UInt64}
    (h : ∀ i, balances[i]? = w.balances[i]?.map fun b => (changed (UInt32.ofNat i)).getD b) :
    ∀ k ≤ balances.length, (List.range k).foldlM (w.pushActive changed) [] =
      .ok (((List.range k).filter fun i => 0 < balances.getD i 0).map UInt32.ofNat) := by
  intro k
  induction k with
  | zero => exact fun _ => rfl
  | succ k ih =>
      intro hk
      have hat := h k
      rw [List.getElem?_eq_getElem hk] at hat
      obtain ⟨base, hbase, hvalue⟩ := Option.map_eq_some_iff.mp hat.symm
      have hget : balances.getD k 0 = (changed (UInt32.ofNat k)).getD base := by
        rw [List.getD_eq_getElem?_getD, List.getElem?_eq_getElem hk, hvalue]
        rfl
      have hlast : ((List.range (k + 1)).filter fun i => 0 < balances.getD i 0).map UInt32.ofNat =
          if 0 < (changed (UInt32.ofNat k)).getD base then
            ((List.range k).filter fun i => 0 < balances.getD i 0).map UInt32.ofNat ++
              [UInt32.ofNat k]
          else ((List.range k).filter fun i => 0 < balances.getD i 0).map UInt32.ofNat := by
        rw [List.range_succ, List.filter_append, List.map_append, ← hget]
        by_cases hpos : 0 < balances.getD k 0
        · simp only [List.filter_singleton, hpos, decide_true, cond_true, if_true, List.map_cons,
            List.map_nil]
        · simp only [List.filter_singleton, hpos, decide_false, cond_false, if_false, List.map_nil,
            List.append_nil]
      rw [hlast, List.range_succ]
      refine (List.foldlM_append ..).trans ?_
      rw [ih (by omega)]
      refine Guest.foldlM_cons.mpr ⟨_, ?_, Guest.foldlM_nil.mpr rfl⟩
      rw [Witness.pushActive, hbase]
      rfl

/-- **The two see the same balances**: what is collected as active is what is positive in
the registry that is written out. -/
theorem Witness.activeIndices_of_registry (hw : w.Matched) (h : w.registry idx = .ok source) :
    w.activeIndices idx = .ok (positiveIndices source.effectiveBalances) := by
  obtain ⟨r, hr, hlength, hvalues⟩ := w.registry_balances hw h
  have hactive := foldlM_active hvalues _ le_rfl
  rw [activeIndices, hr]
  show (List.range w.header.nValidators.toNat).foldlM (w.pushActive _) [] = _
  rw [← hlength, hactive, positiveIndices]

end Registry

/-! ## Tables on demand -/

/-- `SlotAssignmentsError` -/
structure SlotAssignmentsError where

/-- The tables that are filled. -/
abbrev Tables := UInt64 → Option (List UInt32)

section Lazy

variable (sha256 : List UInt8 → Bytes 32) (w : Witness)

def ensureTable (tables : Tables) (epoch : UInt64) :
    Guest (Tables × Except SlotAssignmentsError Unit) :=
  if (tables epoch).isSome then return (tables, .ok ())
  else
    match w.seedOf epoch with
    | none => return (tables, .error ⟨⟩)
    | some seed => do
        let active ← w.activeIndices seed.registry
        let table ← Guest.expect
          (assignmentTable sha256 active seed.seed epoch w.header.nValidators.toNat)
          "index out of bounds"
        return (Function.update tables epoch (some table), .ok ())

/-- Every validator's attestation slot in `epoch` (`NO_SLOT` when inactive). -/
def tableAt (tables : Tables) (epoch : UInt64) :
    Guest (Tables × Except SlotAssignmentsError (List UInt32)) := do
  let (tables, ensured) ← ensureTable sha256 w tables epoch
  match ensured with
  | .error e => return (tables, .error e)
  | .ok () =>
      let table ← Guest.expect (tables epoch) "no entry found for key"
      return (tables, .ok table)

/-- Whether a slot is one, and in a range. -/
def slotInRange (start stop : UInt64) (s : UInt32) : Prop :=
  s ≠ noSlot ∧ start ≤ s.toUInt64 ∧ s.toUInt64 ≤ stop

instance (start stop : UInt64) (s : UInt32) : Decidable (slotInRange start stop s) :=
  inferInstanceAs (Decidable (_ ∧ _ ∧ _))

/-- The loop of `is_in_range` over the epochs. -/
def scanEpochs (validatorIndex : ℕ) (start stop : UInt64) :
    Tables → List UInt64 → Guest (Tables × Except SlotAssignmentsError Bool)
  | tables, [] => return (tables, .ok false)
  | tables, epoch :: epochs => do
      let (tables, asked) ← tableAt sha256 w tables epoch
      match asked with
      | .error e => return (tables, .error e)
      | .ok table =>
          match table[validatorIndex]? with
          | none => return (tables, .error ⟨⟩)
          | some s =>
              if slotInRange start stop s then return (tables, .ok true)
              else scanEpochs validatorIndex start stop tables epochs

/-- `start / SLOTS_PER_EPOCH..=end / SLOTS_PER_EPOCH` -/
def epochsOf (start stop : UInt64) : List UInt64 :=
  (List.range' (start.toNat / 32) (stop.toNat / 32 + 1 - start.toNat / 32)).map UInt64.ofNat

def isInRange (tables : Tables) (validatorIndex : ℕ) (start stop : UInt64) :
    Guest (Tables × Except SlotAssignmentsError Bool) :=
  scanEpochs sha256 w validatorIndex start stop tables (epochsOf start stop)

/-- What `LazyAssignments::new` starts with. -/
def noTables : Tables := fun _ => none

/-- The tables after any questions, in any order. -/
inductive Asked : Tables → Prop where
  | new : Asked noTables
  | table {tables tables' : Tables} {epoch : UInt64}
      {answer : Except SlotAssignmentsError (List UInt32)} (h : Asked tables)
      (hrun : tableAt sha256 w tables epoch = .ok (tables', answer)) : Asked tables'
  | isInRange {tables tables' : Tables} {validatorIndex : ℕ} {start stop : UInt64}
      {answer : Except SlotAssignmentsError Bool} (h : Asked tables)
      (hrun : isInRange sha256 w tables validatorIndex start stop = .ok (tables', answer)) :
      Asked tables'

/-! ## The tables make no difference -/

/-- The table of an epoch, as it is computed. -/
def tableOf (epoch : UInt64) : Guest (Except SlotAssignmentsError (List UInt32)) :=
  match w.seedOf epoch with
  | none => return .error ⟨⟩
  | some seed => do
      let active ← w.activeIndices seed.registry
      let table ← Guest.expect
        (assignmentTable sha256 active seed.seed epoch w.header.nValidators.toNat)
        "index out of bounds"
      return .ok table

/-- The answer that computes every table anew. -/
def answerOf (validatorIndex : ℕ) (start stop : UInt64) :
    List UInt64 → Guest (Except SlotAssignmentsError Bool)
  | [] => return .ok false
  | epoch :: epochs => do
      match ← tableOf sha256 w epoch with
      | .error e => return .error e
      | .ok table =>
          match table[validatorIndex]? with
          | none => return .error ⟨⟩
          | some s =>
              if slotInRange start stop s then return .ok true
              else answerOf validatorIndex start stop epochs

variable {sha256 w} {tables tables' : Tables} {validatorIndex : ℕ} {start stop : UInt64}

/-- The two steps of a question are a lookup. -/
theorem tableAt_eq (tables : Tables) (epoch : UInt64) :
    tableAt sha256 w tables epoch = Memo.lookup (tableOf sha256 w) tables epoch := by
  unfold tableAt ensureTable Memo.lookup tableOf
  cases htable : tables epoch with
  | some table =>
      show Guest.expect (tables epoch) _ >>= _ = _
      rw [htable]
      rfl
  | none =>
      cases w.seedOf epoch with
      | none => rfl
      | some seed =>
          rcases hactive : w.activeIndices seed.registry with message | active
          · simp only [hactive, Option.isSome_none, Bool.false_eq_true, if_false]
            rfl
          · rcases hrun : assignmentTable sha256 active seed.seed epoch
              w.header.nValidators.toNat with _ | table
            · simp only [hactive, Guest.ok_bind, hrun, Option.isSome_none, Bool.false_eq_true,
                if_false]
              rfl
            · simp only [hactive, Guest.ok_bind, hrun, Option.isSome_none, Bool.false_eq_true,
                if_false]
              show Guest.expect (Function.update tables epoch (some table) epoch) _ >>= _ = _
              rw [Function.update_self]
              rfl

theorem scanEpochs_consistent {epochs : List UInt64} {answer : Except SlotAssignmentsError Bool}
    (h : Memo.Consistent (tableOf sha256 w) tables)
    (hrun : scanEpochs sha256 w validatorIndex start stop tables epochs = .ok (tables', answer)) :
    Memo.Consistent (tableOf sha256 w) tables' := by
  induction epochs generalizing tables with
  | nil =>
      obtain ⟨rfl, -⟩ := Prod.mk.inj (Except.ok.inj hrun)
      exact h
  | cons epoch epochs ih =>
      obtain ⟨⟨next, asked⟩, hlookup, hrun⟩ := Guest.bind_eq_ok.mp hrun
      rw [tableAt_eq] at hlookup
      have hnext := h.lookup hlookup
      rcases asked with e | table
      · obtain ⟨rfl, -⟩ := Prod.mk.inj (Except.ok.inj hrun)
        exact hnext
      · rcases hget : table[validatorIndex]? with _ | s
        · simp only [hget] at hrun
          obtain ⟨rfl, -⟩ := Prod.mk.inj (Except.ok.inj hrun)
          exact hnext
        · simp only [hget] at hrun
          split at hrun
          · obtain ⟨rfl, -⟩ := Prod.mk.inj (Except.ok.inj hrun)
            exact hnext
          · exact ih hnext hrun

/-- **Whatever was asked before**, what is kept is what would be computed. -/
theorem Asked.consistent (h : Asked sha256 w tables) :
    Memo.Consistent (tableOf sha256 w) tables := by
  induction h with
  | new => exact Memo.consistent_empty
  | table _ hrun ih =>
      rw [tableAt_eq] at hrun
      exact ih.lookup hrun
  | isInRange _ hrun ih => exact scanEpochs_consistent ih hrun

theorem snd_scanEpochs {epochs : List UInt64} (h : Memo.Consistent (tableOf sha256 w) tables) :
    Prod.snd <$> scanEpochs sha256 w validatorIndex start stop tables epochs =
      answerOf sha256 w validatorIndex start stop epochs := by
  induction epochs generalizing tables with
  | nil => rfl
  | cons epoch epochs ih =>
      have hanswer := Memo.snd_lookup h epoch
      rw [scanEpochs, answerOf, tableAt_eq, ← hanswer]
      rcases hlookup : Memo.lookup (tableOf sha256 w) tables epoch with message | ⟨next, asked⟩
      · rfl
      · have hnext := h.lookup hlookup
        rcases asked with e | table
        · rfl
        · show Prod.snd <$> (match table[validatorIndex]? with
              | none => _
              | some s => _) = match table[validatorIndex]? with
              | none => _
              | some s => _
          rcases table[validatorIndex]? with _ | s
          · rfl
          · show Prod.snd <$> (if slotInRange start stop s then _ else _) =
              if slotInRange start stop s then _ else _
            split
            · rfl
            · exact ih hnext

/-- Tables are computed from what the assignments are derived from, and nothing else. -/
theorem tableOf_congr {w' : Witness} (h : w.lazyAssignments = w'.lazyAssignments) :
    tableOf sha256 w = tableOf sha256 w' := by
  funext epoch
  have hn : w.header.nValidators = w'.header.nValidators :=
    congrArg LazyAssignments.nValidators h
  have hshuffled : (w.seedOf epoch).map (fun s => (s.seed, w.activeIndices s.registry)) =
      (w'.seedOf epoch).map fun s => (s.seed, w'.activeIndices s.registry) :=
    congrFun (congrArg LazyAssignments.shuffled h) epoch
  unfold tableOf
  revert hshuffled
  rcases w.seedOf epoch with _ | seed <;> rcases w'.seedOf epoch with _ | seed' <;>
    intro hshuffled
  · rfl
  · cases hshuffled
  · cases hshuffled
  · obtain ⟨hseed, hactive⟩ := Prod.mk.inj (Option.some.inj hshuffled)
    simp only [hseed, hactive, hn]

/-- **Witnesses that agree on that answer alike.** -/
theorem answerOf_congr {w' : Witness} (h : w.lazyAssignments = w'.lazyAssignments)
    (epochs : List UInt64) : answerOf sha256 w validatorIndex start stop epochs =
      answerOf sha256 w' validatorIndex start stop epochs := by
  induction epochs with
  | nil => rfl
  | cons epoch epochs ih => rw [answerOf, answerOf, tableOf_congr h, ih]

/-- **The tables that are kept do not change an answer.** -/
theorem snd_isInRange (h : Asked sha256 w tables) (validatorIndex : ℕ) (start stop : UInt64) :
    Prod.snd <$> isInRange sha256 w tables validatorIndex start stop =
      answerOf sha256 w validatorIndex start stop (epochsOf start stop) :=
  snd_scanEpochs h.consistent

end Lazy

/-! ## The specification -/

section Committees

variable (sha256 : List UInt8 → Bytes 32)

/-- The specification's `compute_committee`. -/
def computeCommittee (indices : List UInt32) (seed : Bytes 32) (index count : ℕ) : List UInt32 :=
  let start := indices.length * index / count
  let stop := indices.length * (index + 1) / count
  (List.range' start (stop - start)).filterMap fun i =>
    indices[computeShuffledIndex sha256 seed i indices.length shuffleRoundCount]?

/-- The specification's `get_committee_count_per_slot`, over the active validators. -/
def committeeCountPerSlot (indices : List UInt32) : ℕ :=
  max 1 (min maxCommitteesPerSlot (indices.length / epochSlots / targetCommitteeSize))

/-- The specification's `get_beacon_committee`, by the place of the slot in its epoch. -/
def beaconCommittee (indices : List UInt32) (seed : Bytes 32) (slotInEpoch index : ℕ) :
    List UInt32 :=
  computeCommittee sha256 indices seed (slotInEpoch * committeeCountPerSlot indices + index)
    (committeeCountPerSlot indices * epochSlots)

/-- A validator sits in some committee of a slot. -/
def SitsIn (indices : List UInt32) (seed : Bytes 32) (slotInEpoch : ℕ) (v : UInt32) : Prop :=
  ∃ index < committeeCountPerSlot indices, v ∈ beaconCommittee sha256 indices seed slotInEpoch index

variable {sha256} {indices : List UInt32} {seed : Bytes 32} {v : UInt32}

theorem mem_computeCommittee {index count : ℕ} (hindex : index < count) :
    v ∈ computeCommittee sha256 indices seed index count ↔
      ∃ p, indices.length * index / count ≤ p ∧ p < indices.length * (index + 1) / count ∧
        (shuffleList sha256 seed indices shuffleRoundCount false)[p]? = some v := by
  have hstop : indices.length * (index + 1) / count ≤ indices.length :=
    Nat.div_le_of_le_mul (Nat.mul_comm count _ ▸ Nat.mul_le_mul_left _ hindex)
  rw [computeCommittee, List.mem_filterMap]
  constructor
  · rintro ⟨p, hp, hv⟩
    obtain ⟨hlow, hhigh⟩ := List.mem_range'_1.mp hp
    have hlt : p < indices.length * (index + 1) / count := by omega
    refine ⟨p, hlow, hlt, ?_⟩
    rw [shuffleList_getElem? shuffleRoundCount (by omega)]
    exact hv
  · rintro ⟨p, hlow, hhigh, hv⟩
    rw [shuffleList_getElem? shuffleRoundCount (by omega)] at hv
    exact ⟨p, List.mem_range'_1.mpr ⟨hlow, by omega⟩, hv⟩

theorem committeeCountPerSlot_pos : 0 < committeeCountPerSlot indices :=
  Nat.lt_of_lt_of_le Nat.one_pos (le_max_left _ _)

/-- Every position of the shuffled list is in one of the pieces before it. -/
theorem exists_piece {len count p : ℕ} (c : ℕ) (hp : p < len * c / count) :
    ∃ c' < c, len * c' / count ≤ p ∧ p < len * (c' + 1) / count := by
  induction c with
  | zero => simp at hp
  | succ c ih =>
      by_cases hbefore : p < len * c / count
      · obtain ⟨c', hlt, hpiece⟩ := ih hbefore
        exact ⟨c', by omega, hpiece⟩
      · exact ⟨c, Nat.lt_succ_self c, Nat.le_of_not_lt hbefore, hp⟩

/-- **The slot of a position** is the one whose committees it is cut into. -/
theorem sitsIn_iff {slotInEpoch : ℕ} (hslot : slotInEpoch < epochSlots) :
    SitsIn sha256 indices seed slotInEpoch v ↔
      ∃ p, (shuffleList sha256 seed indices shuffleRoundCount false)[p]? = some v ∧
        slotOfPosition p indices.length epochSlots = slotInEpoch := by
  have hcps : 0 < committeeCountPerSlot indices := committeeCountPerSlot_pos
  constructor
  · rintro ⟨index, hindex, hv⟩
    have hlt : slotInEpoch * committeeCountPerSlot indices + index <
        committeeCountPerSlot indices * epochSlots := by
      calc slotInEpoch * committeeCountPerSlot indices + index
          < (slotInEpoch + 1) * committeeCountPerSlot indices := by
            rw [Nat.succ_mul]
            omega
        _ ≤ epochSlots * committeeCountPerSlot indices := Nat.mul_le_mul_right _ hslot
        _ = committeeCountPerSlot indices * epochSlots := Nat.mul_comm _ _
    obtain ⟨p, hlow, hhigh, hp⟩ := (mem_computeCommittee hlt).mp hv
    refine ⟨p, hp, ?_⟩
    rw [slotOfPosition_eq hcps hlt hlow hhigh, Nat.mul_comm, Nat.mul_add_div hcps,
      Nat.div_eq_of_lt hindex, Nat.add_zero]
  · rintro ⟨p, hp, rfl⟩
    have hplt : p < indices.length := by
      have hlt := (List.getElem?_eq_some_iff.mp hp).1
      rwa [length_shuffleList] at hlt
    have hcount : 0 < committeeCountPerSlot indices * epochSlots :=
      Nat.mul_pos hcps (by decide)
    have hend : p < indices.length * (committeeCountPerSlot indices * epochSlots) /
        (committeeCountPerSlot indices * epochSlots) := by rwa [Nat.mul_div_cancel _ hcount]
    obtain ⟨c, hc, hlow, hhigh⟩ := exists_piece _ hend
    rw [slotOfPosition_eq hcps hc hlow hhigh]
    refine ⟨c % committeeCountPerSlot indices, Nat.mod_lt _ hcps, ?_⟩
    rw [beaconCommittee, Nat.div_add_mod' c]
    exact (mem_computeCommittee hc).mpr ⟨p, hlow, hhigh, hp⟩

end Committees

section Specification

variable (sha256 : List UInt8 → Bytes 32) (w : Witness)

/-- The specification: in some epoch that the range touches, the validator has a balance
in the registry that the epoch's seed names, and sits in a committee of a slot of the
range. -/
def PlacedIn (validatorIndex : ℕ) (start stop : UInt64) : Prop :=
  ∃ epoch seed source, start.toNat / 32 ≤ epoch.toNat ∧ epoch.toNat ≤ stop.toNat / 32 ∧
    w.seedOf epoch = some seed ∧ w.registry seed.registry = .ok source ∧
    0 < source.effectiveBalances.getD validatorIndex 0 ∧
    ∃ v s, v.toNat = validatorIndex ∧ s < 32 ∧
      SitsIn sha256 (positiveIndices source.effectiveBalances) seed.seed s v ∧
      start.toNat ≤ 32 * epoch.toNat + s ∧ 32 * epoch.toNat + s ≤ stop.toNat

/-- The registries that the seeds of a range name can be written out. -/
def Materialised (start stop : UInt64) : Prop :=
  ∀ epoch seed, start.toNat / 32 ≤ epoch.toNat → epoch.toNat ≤ stop.toNat / 32 →
    w.seedOf epoch = some seed → ∃ source, w.registry seed.registry = .ok source

/-- Every epoch of a range has a seed. -/
def Seeded (start stop : UInt64) : Prop :=
  ∀ epoch, start.toNat / 32 ≤ epoch.toNat → epoch.toNat ≤ stop.toNat / 32 →
    ∃ seed, w.seedOf epoch = some seed

/-- **What the assignments are to be**: the active set of a registry is what is positive
in it; no answer depends on what was asked before; a yes is right; and where all the
epochs of the range have seeds, what is right is a yes. -/
structure AssignmentsExact : Prop where
  active : ∀ idx source, w.registry idx = .ok source →
    w.activeIndices idx = .ok (positiveIndices source.effectiveBalances)
  order : ∀ tables, Asked sha256 w tables → ∀ validatorIndex start stop,
    Prod.snd <$> isInRange sha256 w tables validatorIndex start stop =
      Prod.snd <$> isInRange sha256 w noTables validatorIndex start stop
  sound : ∀ tables, Asked sha256 w tables → ∀ validatorIndex start stop,
    Materialised w start stop →
      Prod.snd <$> isInRange sha256 w tables validatorIndex start stop = .ok (.ok true) →
        PlacedIn sha256 w validatorIndex start stop
  complete : ∀ tables, Asked sha256 w tables → ∀ validatorIndex start stop,
    Materialised w start stop → Seeded w start stop →
      PlacedIn sha256 w validatorIndex start stop →
        Prod.snd <$> isInRange sha256 w tables validatorIndex start stop = .ok (.ok true)

end Specification

/-! ## The table of an epoch -/

section Positive

variable {balances : List UInt64} {v : UInt32}

theorem lt_length_of_positive {i : ℕ} (h : 0 < balances.getD i 0) : i < balances.length := by
  by_contra hge
  rw [List.getD_eq_getElem?_getD, List.getElem?_eq_none (Nat.le_of_not_lt hge)] at h
  cases h

theorem mem_positiveIndices (hlength : balances.length ≤ 2 ^ 32) :
    v ∈ positiveIndices balances ↔ 0 < balances.getD v.toNat 0 := by
  rw [positiveIndices, List.mem_map]
  constructor
  · rintro ⟨i, hi, rfl⟩
    obtain ⟨hrange, hpositive⟩ := List.mem_filter.mp hi
    have hlt := List.mem_range.mp hrange
    rw [UInt32.toNat_ofNat_of_lt' (by simp only [UInt32.size]; omega)]
    exact of_decide_eq_true hpositive
  · intro hpositive
    refine ⟨v.toNat, List.mem_filter.mpr ⟨?_, decide_eq_true hpositive⟩, UInt32.ofNat_toNat⟩
    exact List.mem_range.mpr (lt_length_of_positive hpositive)

theorem positiveIndices_nodup (hlength : balances.length ≤ 2 ^ 32) :
    (positiveIndices balances).Nodup := by
  refine List.Nodup.map_on ?_ (List.nodup_range.filter _)
  intro i hi j hj heq
  have hi := List.mem_range.mp (List.mem_of_mem_filter hi)
  have hj := List.mem_range.mp (List.mem_of_mem_filter hj)
  have hvalue := congrArg UInt32.toNat heq
  rwa [UInt32.toNat_ofNat_of_lt' (by simp only [UInt32.size]; omega),
    UInt32.toNat_ofNat_of_lt' (by simp only [UInt32.size]; omega)] at hvalue

/-- Whoever has a balance sits in a slot. -/
theorem exists_sitsIn (sha256 : List UInt8 → Bytes 32) (seed : Bytes 32)
    (hlength : balances.length ≤ 2 ^ 32) (hpositive : 0 < balances.getD v.toNat 0) :
    ∃ s < epochSlots, SitsIn sha256 (positiveIndices balances) seed s v := by
  have hmem : v ∈ shuffleList sha256 seed (positiveIndices balances) shuffleRoundCount false :=
    mem_shuffleList.mpr ((mem_positiveIndices hlength).mpr hpositive)
  obtain ⟨p, hp⟩ := List.mem_iff_getElem?.mp hmem
  have hslot := slotOfPosition_lt (p := p) (n := (positiveIndices balances).length)
    (by decide : 0 < epochSlots)
  exact ⟨_, hslot, (sitsIn_iff hslot).mpr ⟨p, hp, rfl⟩⟩

/-- Whoever sits in a slot has a balance. -/
theorem SitsIn.positive {sha256 : List UInt8 → Bytes 32} {seed : Bytes 32} {s : ℕ}
    (hlength : balances.length ≤ 2 ^ 32) (hs : s < epochSlots)
    (h : SitsIn sha256 (positiveIndices balances) seed s v) : 0 < balances.getD v.toNat 0 := by
  obtain ⟨p, hp, -⟩ := (sitsIn_iff hs).mp h
  exact (mem_positiveIndices hlength).mp (mem_shuffleList.mp (List.mem_of_getElem? hp))

end Positive

section TableOf

variable (sha256 : List UInt8 → Bytes 32) {w : Witness} {epoch : UInt64} {seed : EpochSeed}
  {source : BalanceSourceData}

/-- **The table of an epoch** holds the slot of everyone who sits in one, in 32 bits, and
the mark for no slot for everyone else. -/
theorem tableOf_spec (hw : w.Matched) (hseed : w.seedOf epoch = some seed)
    (hsource : w.registry seed.registry = .ok source) :
    ∃ table, tableOf sha256 w epoch = .ok (.ok table) ∧
      table.length = source.effectiveBalances.length ∧
      (∀ v s, s < epochSlots →
        SitsIn sha256 (positiveIndices source.effectiveBalances) seed.seed s v →
          table[v.toNat]? = some (slotNumber epoch s)) ∧
      ∀ i < table.length, ¬ 0 < source.effectiveBalances.getD i 0 → table[i]? = some noSlot := by
  obtain ⟨-, -, hlength, -⟩ := w.registry_balances hw hsource
  have hn := w.header.nValidators.toNat_lt
  have hbound : source.effectiveBalances.length ≤ 2 ^ 32 := by omega
  have hmem : ∀ v ∈ positiveIndices source.effectiveBalances,
      v.toNat < w.header.nValidators.toNat := by
    intro v hv
    rw [← hlength]
    exact lt_length_of_positive ((mem_positiveIndices hbound).mp hv)
  obtain ⟨table, hrun, htable⟩ := assignPieces_tabulated sha256 seed.seed epoch
    (positiveIndices_nodup hbound) hmem rfl _ le_rfl
  rw [length_shuffleList] at hrun htable
  have hcount : 0 < committeesPerSlot (positiveIndices source.effectiveBalances).length *
      epochSlots := Nat.mul_pos (Nat.lt_of_lt_of_le Nat.one_pos (le_max_left _ _)) (by decide)
  rw [committeeStart, Nat.mul_div_cancel _ hcount] at htable
  refine ⟨table, ?_, htable.length.trans hlength.symm, ?_, ?_⟩
  · rw [tableOf, hseed]
    show w.activeIndices seed.registry >>= _ = _
    rw [w.activeIndices_of_registry hw hsource, Guest.ok_bind, assignmentTable, hrun]
    rfl
  · intro v s hs hsits
    obtain ⟨p, hp, rfl⟩ := (sitsIn_iff hs).mp hsits
    have hlt := (List.getElem?_eq_some_iff.mp hp).1
    rw [length_shuffleList] at hlt
    have hassigned := htable.assigned p v hp hlt
    rwa [length_shuffleList] at hassigned
  · intro i hi hnone
    rw [htable.length] at hi
    refine htable.rest i hi fun p v hp heq => ?_
    subst heq
    exact absurd ((mem_positiveIndices hbound).mp (mem_shuffleList.mp (List.mem_of_getElem? hp)))
      hnone

end TableOf

/-! ## The answers -/

section Answers

variable {sha256 : List UInt8 → Bytes 32} {w : Witness} {validatorIndex : ℕ}
  {start stop epoch : UInt64} {epochs : List UInt64}

theorem mem_epochsOf :
    epoch ∈ epochsOf start stop ↔
      start.toNat / 32 ≤ epoch.toNat ∧ epoch.toNat ≤ stop.toNat / 32 := by
  have hstop := stop.toNat_lt
  rw [epochsOf, List.mem_map]
  constructor
  · rintro ⟨e, he, rfl⟩
    have hrange := List.mem_range'_1.mp he
    rw [UInt64.toNat_ofNat_of_lt' (by simp only [UInt64.size]; omega)]
    omega
  · rintro ⟨hlow, hhigh⟩
    exact ⟨epoch.toNat, List.mem_range'_1.mpr (by omega), UInt64.ofNat_toNat⟩

theorem slotInRange_iff {s : UInt32} :
    slotInRange start stop s ↔ s ≠ noSlot ∧ start.toNat ≤ s.toNat ∧ s.toNat ≤ stop.toNat := by
  rw [slotInRange, UInt64.le_iff_toNat_le, UInt64.le_iff_toNat_le, UInt32.toNat_toUInt64]

/-- A yes comes from some epoch's table. -/
theorem exists_of_answerOf
    (h : answerOf sha256 w validatorIndex start stop epochs = .ok (.ok true)) :
    ∃ epoch ∈ epochs, ∃ table s, tableOf sha256 w epoch = .ok (.ok table) ∧
      table[validatorIndex]? = some s ∧ slotInRange start stop s := by
  induction epochs with
  | nil => cases h
  | cons epoch epochs ih =>
      obtain ⟨asked, hasked, h⟩ := Guest.bind_eq_ok.mp h
      rcases asked with e | table
      · cases h
      · rcases hget : table[validatorIndex]? with _ | s
        · simp only [hget] at h
          cases h
        · simp only [hget] at h
          split at h
          · next hin => exact ⟨epoch, List.mem_cons_self, table, s, hasked, hget, hin⟩
          · obtain ⟨later, hmem, hrest⟩ := ih h
            exact ⟨later, List.mem_cons_of_mem _ hmem, hrest⟩

/-- Where every epoch has a table that reaches the validator, one of them is enough. -/
theorem answerOf_eq_true
    (hall : ∀ epoch ∈ epochs, ∃ table s, tableOf sha256 w epoch = .ok (.ok table) ∧
      table[validatorIndex]? = some s)
    (h : ∃ epoch ∈ epochs, ∃ table s, tableOf sha256 w epoch = .ok (.ok table) ∧
      table[validatorIndex]? = some s ∧ slotInRange start stop s) :
    answerOf sha256 w validatorIndex start stop epochs = .ok (.ok true) := by
  induction epochs with
  | nil =>
      obtain ⟨epoch, hmem, -⟩ := h
      exact absurd hmem List.not_mem_nil
  | cons head epochs ih =>
      obtain ⟨⟨table, s, htable, hs⟩, hrest⟩ := List.forall_mem_cons.mp hall
      rw [answerOf, htable]
      show (match table[validatorIndex]? with
        | none => _
        | some s => _) = _
      rw [hs]
      show (if slotInRange start stop s then _ else _) = _
      split
      · rfl
      · next hout =>
          apply ih hrest
          obtain ⟨epoch, hmem, table', s', htable', hs', hin⟩ := h
          rcases List.mem_cons.mp hmem with rfl | hlater
          · obtain rfl : table = table' := Except.ok.inj (Except.ok.inj (htable.symm.trans htable'))
            obtain rfl : s = s' := Option.some.inj (hs.symm.trans hs')
            exact absurd hin hout
          · exact ⟨epoch, hlater, table', s', htable', hs', hin⟩

end Answers

/-- The slots of every epoch that has a seed, and somebody to attest in them, are below
the mark for no slot. An epoch from 2^59 on has no slots. -/
def SlotsFit (w : Witness) : Prop :=
  ∀ epoch seed source, w.seedOf epoch = some seed → w.registry seed.registry = .ok source →
    (∃ i, 0 < source.effectiveBalances.getD i 0) → epoch.toNat < 2 ^ 59 →
      epoch.toNat < 2 ^ 27 - 1

section Exactness

variable {sha256 : List UInt8 → Bytes 32} {w : Witness}

/-- A slot that is not the mark, in 32 bits. -/
theorem slotNumber_of_lt {epoch : UInt64} {s : ℕ} (hepoch : epoch.toNat < 2 ^ 27 - 1)
    (hs : s < epochSlots) :
    slotNumber epoch s ≠ noSlot ∧ (slotNumber epoch s).toNat = 32 * epoch.toNat + s := by
  constructor
  · intro hmark
    obtain ⟨hlast, -⟩ := (slotNumber_eq_noSlot hs).mp hmark
    omega
  · rw [slotNumber_toNat hs, Nat.mod_eq_of_lt (by omega), epochSlots, Nat.mul_comm]

/-- **What an epoch's table says** of a validator, where the epoch's slots fit. -/
theorem tableOf_inRange (sha256 : List UInt8 → Bytes 32) (hw : w.Matched) (hfit : SlotsFit w)
    {epoch : UInt64} {seed : EpochSeed} {source : BalanceSourceData}
    (hseed : w.seedOf epoch = some seed)
    (hsource : w.registry seed.registry = .ok source) (hepoch : epoch.toNat < 2 ^ 59)
    (validatorIndex : ℕ) (start stop : UInt64) :
    ∃ table, tableOf sha256 w epoch = .ok (.ok table) ∧
      table.length = source.effectiveBalances.length ∧
      ((∃ s, table[validatorIndex]? = some s ∧ slotInRange start stop s) ↔
        0 < source.effectiveBalances.getD validatorIndex 0 ∧ ∃ v s, v.toNat = validatorIndex ∧
          s < 32 ∧ SitsIn sha256 (positiveIndices source.effectiveBalances) seed.seed s v ∧
          start.toNat ≤ 32 * epoch.toNat + s ∧ 32 * epoch.toNat + s ≤ stop.toNat) := by
  obtain ⟨-, -, hlength, -⟩ := w.registry_balances hw hsource
  have hn := w.header.nValidators.toNat_lt
  have hbound : source.effectiveBalances.length ≤ 2 ^ 32 := by omega
  obtain ⟨table, htable, htableLength, hslots, hrest⟩ := tableOf_spec sha256 hw hseed hsource
  refine ⟨table, htable, htableLength, ?_, ?_⟩
  · rintro ⟨t, ht, hin⟩
    obtain ⟨hmark, hlow, hhigh⟩ := slotInRange_iff.mp hin
    have hlt := (List.getElem?_eq_some_iff.mp ht).1
    have hpositive : 0 < source.effectiveBalances.getD validatorIndex 0 := by
      by_contra hzero
      rw [hrest _ hlt hzero] at ht
      exact hmark (Option.some.inj ht).symm
    have hv : (UInt32.ofNat validatorIndex).toNat = validatorIndex :=
      UInt32.toNat_ofNat_of_lt' (by simp only [UInt32.size]; omega)
    obtain ⟨s, hs, hsits⟩ := exists_sitsIn sha256 seed.seed hbound (hv.symm ▸ hpositive)
    have hat := hslots _ s hs hsits
    rw [hv, ht] at hat
    obtain ⟨-, hvalue⟩ := slotNumber_of_lt
      (hfit epoch seed source hseed hsource ⟨_, hpositive⟩ hepoch) hs
    rw [Option.some.inj hat, hvalue] at hlow hhigh
    exact ⟨hpositive, _, s, hv, hs, hsits, hlow, hhigh⟩
  · rintro ⟨hpositive, v, s, rfl, hs, hsits, hlow, hhigh⟩
    obtain ⟨hmark, hvalue⟩ := slotNumber_of_lt
      (hfit epoch seed source hseed hsource ⟨_, hpositive⟩ hepoch) hs
    refine ⟨_, hslots v s hs hsits, slotInRange_iff.mpr ⟨hmark, ?_, ?_⟩⟩
    · rwa [hvalue]
    · rwa [hvalue]

/-- Where all the slots fit, the assignments are what they are to be. -/
theorem SlotsFit.exact (hw : w.Matched) (hfit : SlotsFit w) : AssignmentsExact sha256 w where
  active _ _ hsource := w.activeIndices_of_registry hw hsource
  order tables htables validatorIndex start stop := by
    rw [snd_isInRange htables, snd_isInRange Asked.new]
  sound tables htables validatorIndex start stop hmaterialised h := by
    have hstop := stop.toNat_lt
    rw [snd_isInRange htables] at h
    obtain ⟨epoch, hmem, table, s, htable, hs, hin⟩ := exists_of_answerOf h
    obtain ⟨hlow, hhigh⟩ := mem_epochsOf.mp hmem
    cases hseed : w.seedOf epoch with
    | none =>
        rw [tableOf, hseed] at htable
        cases Except.ok.inj htable
    | some seed =>
        obtain ⟨source, hsource⟩ := hmaterialised epoch seed hlow hhigh hseed
        obtain ⟨table', htable', -, hiff⟩ :=
          tableOf_inRange sha256 hw hfit hseed hsource (by omega) validatorIndex start stop
        obtain rfl : table = table' := Except.ok.inj (Except.ok.inj (htable.symm.trans htable'))
        obtain ⟨hpositive, hplace⟩ := hiff.mp ⟨s, hs, hin⟩
        exact ⟨epoch, seed, source, hlow, hhigh, hseed, hsource, hpositive, hplace⟩
  complete tables htables validatorIndex start stop hmaterialised hseeded h := by
    have hstop := stop.toNat_lt
    obtain ⟨epoch, seed, source, hlow, hhigh, hseed, hsource, hpositive, hplace⟩ := h
    obtain ⟨-, -, hlength, -⟩ := w.registry_balances hw hsource
    have hindex := lt_length_of_positive hpositive
    rw [snd_isInRange htables]
    apply answerOf_eq_true
    · intro other hmem
      obtain ⟨hlow', hhigh'⟩ := mem_epochsOf.mp hmem
      obtain ⟨seed', hseed'⟩ := hseeded other hlow' hhigh'
      obtain ⟨source', hsource'⟩ := hmaterialised other seed' hlow' hhigh' hseed'
      obtain ⟨-, -, hlength', -⟩ := w.registry_balances hw hsource'
      obtain ⟨table, htable, htableLength, -⟩ := tableOf_spec sha256 hw hseed' hsource'
      exact ⟨table, _, htable, List.getElem?_eq_getElem (by omega)⟩
    · obtain ⟨table, htable, -, hiff⟩ :=
        tableOf_inRange sha256 hw hfit hseed hsource (by omega) validatorIndex start stop
      obtain ⟨s, hs, hin⟩ := hiff.mpr ⟨hpositive, hplace⟩
      exact ⟨epoch, mem_epochsOf.mpr ⟨hlow, hhigh⟩, table, s, htable, hs, hin⟩

/-- **Whoever attests last in an epoch** is in its last slot, and that one has to fit. -/
theorem AssignmentsExact.slotsFit (hw : w.Matched) (h : AssignmentsExact sha256 w) :
    SlotsFit w := by
  intro epoch seed source hseed hsource ⟨i, hpositive⟩ hepoch
  by_contra hlarge
  obtain ⟨-, -, hlength, -⟩ := w.registry_balances hw hsource
  have hn := w.header.nValidators.toNat_lt
  have hbound : source.effectiveBalances.length ≤ 2 ^ 32 := by omega
  obtain ⟨last, hlast⟩ : ∃ v,
      SitsIn sha256 (positiveIndices source.effectiveBalances) seed.seed 31 v := by
    have hi : (UInt32.ofNat i).toNat = i := UInt32.toNat_ofNat_of_lt' (by
      have := lt_length_of_positive hpositive
      simp only [UInt32.size]
      omega)
    have hpos : 0 < (positiveIndices source.effectiveBalances).length :=
      List.length_pos_of_mem ((mem_positiveIndices hbound).mpr (hi.symm ▸ hpositive))
    have hlt : (positiveIndices source.effectiveBalances).length - 1 <
        (shuffleList sha256 seed.seed (positiveIndices source.effectiveBalances) shuffleRoundCount
          false).length := by
      rw [length_shuffleList]
      omega
    exact ⟨_, (sitsIn_iff (by decide)).mpr
      ⟨_, List.getElem?_eq_getElem hlt, slotOfPosition_last hpos⟩⟩
  -- ask for exactly this epoch's slots
  have hstart : (epoch * 32).toNat = 32 * epoch.toNat := by
    rw [UInt64.toNat_mul]
    show epoch.toNat * 32 % 2 ^ 64 = _
    omega
  have hstop : (epoch * 32 + 31).toNat = 32 * epoch.toNat + 31 := by
    rw [UInt64.toNat_add, hstart]
    show (32 * epoch.toNat + 31) % 2 ^ 64 = _
    omega
  have honly : ∀ other : UInt64, (epoch * 32).toNat / 32 ≤ other.toNat →
      other.toNat ≤ (epoch * 32 + 31).toNat / 32 → other = epoch := by
    intro other hlow hhigh
    rw [hstart] at hlow
    rw [hstop] at hhigh
    exact UInt64.toNat_inj.mp (by omega)
  have hplaced : PlacedIn sha256 w last.toNat (epoch * 32) (epoch * 32 + 31) := by
    refine ⟨epoch, seed, source, by omega, by omega, hseed, hsource,
      hlast.positive hbound (by decide), last, 31, rfl, by decide, hlast, ?_, ?_⟩
    · rw [hstart]
      omega
    · rw [hstop]
  have hyes := h.complete noTables Asked.new last.toNat (epoch * 32) (epoch * 32 + 31)
    (fun other seed' hlow hhigh hseed' => by
      rw [honly other hlow hhigh, hseed] at hseed'
      exact ⟨source, Option.some.inj hseed' ▸ hsource⟩)
    (fun other hlow hhigh => ⟨seed, (honly other hlow hhigh).symm ▸ hseed⟩) hplaced
  rw [snd_isInRange Asked.new] at hyes
  obtain ⟨other, hmem, table, s, htable, hs, hin⟩ := exists_of_answerOf hyes
  obtain ⟨hlow, hhigh⟩ := mem_epochsOf.mp hmem
  obtain rfl := honly other hlow hhigh
  obtain ⟨table', htable', -, hslots, -⟩ := tableOf_spec sha256 hw hseed hsource
  obtain rfl : table = table' := Except.ok.inj (Except.ok.inj (htable.symm.trans htable'))
  have hat := hslots last 31 (by decide) hlast
  rw [hs] at hat
  obtain rfl := Option.some.inj hat
  obtain ⟨hmark, hlow, -⟩ := slotInRange_iff.mp hin
  rw [hstart, slotNumber_toNat (by decide), epochSlots] at hlow
  -- a slot that does not wrap is the mark
  exact hmark ((slotNumber_eq_noSlot (by decide)).mpr ⟨by omega, rfl⟩)

/-- **Slot assignments on demand**: for a witness with the lengths its count asks for,
they are what they are to be exactly if the slots of the epochs are below the mark for no
slot. -/
theorem lazy_assignments_exact_iff (sha256 : List UInt8 → Bytes 32) (hw : w.Matched) :
    AssignmentsExact sha256 w ↔ SlotsFit w :=
  ⟨AssignmentsExact.slotsFit hw, SlotsFit.exact hw⟩

end Exactness

end Zkasper.Fcr

namespace Zkasper.Formal

open Zkasper.Fcr

/-- The same three validators, in the epoch whose last slot is the largest `u32`. -/
def lastFittingEpoch : Witness :=
  { slashedPair with
    header := { slashedPair.header with epochSeeds := [⟨134217727, zeroBytes 32, 0⟩] } }

theorem lastFittingEpoch_matched : lastFittingEpoch.Matched := ⟨rfl, rfl, rfl, rfl⟩

end Zkasper.Formal

namespace Zkasper.Fcr

open Formal

/-- Three validators, two of them active, in the seventh epoch. -/
theorem lazy_assignments_exact_three : AssignmentsExact (fun _ => zeroBytes 32) slashedPair := by
  refine (lazy_assignments_exact_iff (fun _ => zeroBytes 32) slashedPair_matched).mpr ?_
  intro epoch seed source hseed _ _ _
  have hepoch : seed.epoch = epoch := by simpa using List.find?_some hseed
  obtain rfl : seed = ⟨6, zeroBytes 32, 0⟩ :=
    List.mem_singleton.mp (List.mem_of_find?_eq_some hseed)
  rw [← hepoch]
  decide

/-- **The largest `u32` is a slot, and the mark for none**: whoever attests in it is said
not to, under any hash. -/
theorem lazy_assignments_not_exact : ¬ ∃ sha256, AssignmentsExact sha256 lastFittingEpoch := by
  rintro ⟨sha256, h⟩
  have hfit := h.slotsFit lastFittingEpoch_matched 134217727 ⟨134217727, zeroBytes 32, 0⟩
    ⟨6, 64, [32, 0, 32], [true, false, true]⟩ rfl rfl ⟨0, by decide⟩ (by decide)
  exact absurd hfit (by decide)

end Zkasper.Fcr
