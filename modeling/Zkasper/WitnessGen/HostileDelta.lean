import Zkasper.Formal
import Zkasper.Library.Panics
import Zkasper.WitnessGen.MemberCache

/-! # Requests nobody packed

A committee request as the server meets it: any table and any columns, from whoever holds a
socket. What is packed out of a witness comes back whole (`roundTrips`), and what is not is an
error, but for the two places that make room for as many members as the request says. The
vector of the members is made after the slot column was counted against that number. The map
of a new table is made before anything was, and under the lock of the cache: a panic there
poisons the lock, and every later request panics on taking it (`wire_exact_iff`). -/

namespace Zkasper.CommitteeCache

open Committee Panics

variable {P : Primitives} {H : TableHash P}

/-! ## What is packed -/

section Packed

variable {members : List (CommitteeMember P)}

theorem gapAfter_isSome {previous : Option UInt64} {index : UInt64} :
    (gapAfter previous index).isSome ↔ ∀ before ∈ previous, before < index := by
  cases previous with
  | none => simp [gapAfter]
  | some before =>
      simp only [gapAfter, Option.mem_some_iff, forall_eq']
      split
      · next h => simpa using h
      · next h => simpa using h

theorem slotByte_isSome {slotInEpoch : UInt64} :
    (slotByte slotInEpoch).isSome ↔ slotInEpoch.toNat < maxSlots := by
  unfold slotByte
  split <;> simp_all

/-- The loop of `encode` gets to its end if every index is past the one before it and every slot
is one of an epoch. -/
theorem columns_isSome (ids : List UInt64) {previous : Option UInt64} :
    (columns ids previous members).isSome ↔
      (previous.toList ++ members.map (·.validatorIndex)).IsChain (· < ·) ∧
        ∀ m ∈ members, m.slotInEpoch.toNat < maxSlots := by
  induction members generalizing previous with
  | nil => cases previous <;> simp [columns]
  | cons m members ih =>
      have hchain : (previous.toList ++ (m :: members).map (·.validatorIndex)).IsChain (· < ·) ↔
          (∀ before ∈ previous, before < m.validatorIndex) ∧
            ((some m.validatorIndex).toList ++ members.map (·.validatorIndex)).IsChain (· < ·) := by
        cases previous with
        | none => simp
        | some before => simp
      rw [hchain, List.forall_mem_cons, ← gapAfter_isSome, ← slotByte_isSome,
        and_and_and_comm, ← ih, columns]
      cases gapAfter previous m.validatorIndex with
      | none => simp
      | some gap =>
          cases slotByte m.slotInEpoch with
          | none => simp
          | some slot =>
              cases columns ids (some m.validatorIndex) members with
              | none => simp
              | some rest => simp

theorem encode_isSome {witness : CommitteeWitness P} :
    (encode witness).isSome ↔
      (witness.members.map (·.validatorIndex)).IsChain (· < ·) ∧
        ∀ m ∈ witness.members, m.slotInEpoch.toNat < maxSlots := by
  have hcolumns : (columns (balances witness.members) none witness.members).isSome ↔
      (witness.members.map (·.validatorIndex)).IsChain (· < ·) ∧
        ∀ m ∈ witness.members, m.slotInEpoch.toNat < maxSlots := columns_isSome _
  rw [← hcolumns, encode]
  cases columns (balances witness.members) none witness.members with
  | none => rfl
  | some c => rfl

end Packed

/-- **What packing promises** of a witness: exactly one with increasing indices and the slots of
an epoch is packed, and it comes back from every map that has its members' keys. -/
structure RoundTrips (witness : CommitteeWitness P) : Prop where
  packed : (encode witness).isSome ↔
    (witness.members.map (·.validatorIndex)).Pairwise (· < ·) ∧
      ∀ m ∈ witness.members, m.slotInEpoch.toNat < maxSlots
  back : ∀ delta, encode witness = some delta → ∀ pubkeys : UInt64 → Option P.G1Point,
    (∀ m ∈ witness.members, pubkeys m.validatorIndex = some m.pubkey) →
      decode delta pubkeys = .ok witness

/-- A vector has fewer than 2^64 elements. -/
theorem roundTrips {witness : CommitteeWitness P} (hlength : witness.members.length < 2 ^ 64) :
    RoundTrips witness := by
  constructor
  · rw [encode_isSome, List.isChain_iff_pairwise]
  · intro delta hencode pubkeys hkeys
    have hown : ∀ m ∈ witness.members, ∀ pubkey, pubkeys m.validatorIndex = some pubkey →
        pubkey = m.pubkey := by
      intro m hm pubkey hpubkey
      rw [hkeys m hm] at hpubkey
      exact (Option.some.inj hpubkey).symm
    have hfind : witness.members.find? (fun m => (pubkeys m.validatorIndex).isNone) = none := by
      rw [List.find?_eq_none]
      intro m hm
      rw [hkeys m hm]
      simp
    rw [decode_encode hencode hlength hown, hfind]

/-! ## What is allocated -/

/-- How much room an allocator grants: whether a map for so many keys, and a vector for so many
members, is made at all. -/
structure Allocator where
  mapFits : ℕ → Bool
  vecFits : ℕ → Bool

namespace Allocator

/-- `HashMap::with_capacity(n)`, which panics where `n` is too large. -/
def map (alloc : Allocator) (n : ℕ) : Option Unit := if alloc.mapFits n then some () else none

/-- `Vec::with_capacity(n)`, which panics where `n` is too large. -/
def vec (alloc : Allocator) (n : ℕ) : Option Unit := if alloc.vecFits n then some () else none

end Allocator

/-- `decode` where room can run out: the vector is made when the slots have been counted, and
before anything is read. -/
def decodeIn (alloc : Allocator) (delta : CommitteeDelta P) (pubkeys : UInt64 → Option P.G1Point) :
    Outcome String (CommitteeWitness P) := do
  ensure (delta.slots.length = delta.memberCount.toNat)
    s!"the slot column holds {delta.slots.length} of {delta.memberCount} members"
  ofPanics (alloc.vec delta.memberCount.toNat)
  ofResult (decode delta pubkeys)

namespace MemberCache

/-- `held.remove(0)` where there is no room, which panics on a cache that holds nothing. -/
def evict (cache : MemberCache H) : Option (List (Held H)) :=
  if cache.capacity ≤ cache.held.length then
    match cache.held with
    | [] => none
    | _ :: held => some held
  else some cache.held

/-- `rebuild` where room can run out. What was done to the cache before a panic stays done. -/
def rebuildIn (alloc : Allocator) (cache : MemberCache H) (table : MemberTable H)
    (delta : CommitteeDelta P) :
    MemberCache H × Outcome String (Option (CommitteeWitness P)) :=
  match table with
  | .full entries =>
      match cache.find table.resultingDigest with
      | some resident =>
          (cache.replace table.resultingDigest resident,
            some <$> decodeIn alloc delta resident.pubkeys)
      | none =>
          match cache.evict with
          | none => (cache, .error .panicked)
          | some held =>
              -- the map is made for as many keys as the request says it has members
              match alloc.map delta.memberCount.toNat with
              | none => ({ cache with held := held }, .error .panicked)
              | some () =>
                  let resident := entries.foldl Held.insert .empty
                  ({ cache with held := held ++ [resident] },
                    some <$> decodeIn alloc delta resident.pubkeys)
  | .append base added =>
      match cache.find base with
      | some resident =>
          let resident := added.foldl Held.insert resident
          (cache.replace base resident, some <$> decodeIn alloc delta resident.pubkeys)
      | none => (cache, .ok none)

/-! ### When a request panics -/

section Panics

variable {alloc : Allocator} {cache : MemberCache H} {table : MemberTable H}
  {delta : CommitteeDelta P}

variable (alloc cache table delta) in
/-- **A request there is room for**: for the map of a table it opens, and for the vector of its
members where the slot column has as many bytes. -/
structure Allocatable : Prop where
  map : ∀ entries, table = .full entries → cache.holds table.resultingDigest = false →
    alloc.mapFits delta.memberCount.toNat = true
  vec : (cache.take table).isSome → delta.slots.length = delta.memberCount.toNat →
    alloc.vecFits delta.memberCount.toNat = true

theorem decodeIn_eq {pubkeys : UInt64 → Option P.G1Point}
    (hvec : delta.slots.length = delta.memberCount.toNat →
      alloc.vecFits delta.memberCount.toNat = true) :
    decodeIn alloc delta pubkeys = ofResult (decode delta pubkeys) := by
  unfold decodeIn
  by_cases hslots : delta.slots.length = delta.memberCount.toNat
  · rw [ensure_bind_of_pos hslots, Allocator.vec, if_pos (hvec hslots)]
    rfl
  · rw [ensure_bind_of_neg hslots, decode, Guest.assert, if_neg hslots]
    rfl

/-- Where there is no room for its vector, a table whose slots were counted is not decoded. -/
theorem vecFits_of_decodeIn {pubkeys : UInt64 → Option P.G1Point}
    (hreturned : some <$> decodeIn alloc delta pubkeys ≠ .error .panicked)
    (hslots : delta.slots.length = delta.memberCount.toNat) :
    alloc.vecFits delta.memberCount.toNat = true := by
  by_contra hfull
  apply hreturned
  rw [decodeIn, ensure_bind_of_pos hslots, Allocator.vec, if_neg hfull]
  rfl

theorem evict_isSome (hcapacity : 1 ≤ cache.capacity) : cache.evict = some cache.makeRoom := by
  unfold evict makeRoom
  split
  · next hfull =>
      cases hheld : cache.held with
      | nil =>
          rw [hheld] at hfull
          exact absurd (hcapacity.trans hfull) (Nat.not_succ_le_zero 0)
      | cons r held => rfl
  · rfl

theorem capacity_rebuildIn :
    (cache.rebuildIn alloc table delta).1.capacity = cache.capacity := by
  cases table with
  | append base added =>
      simp only [rebuildIn]
      split <;> rfl
  | full entries =>
      simp only [rebuildIn]
      split
      · rfl
      · split
        · rfl
        · split <;> rfl

/-- **A request there is room for** does what `rebuild` does. -/
theorem rebuildIn_eq (hcapacity : 1 ≤ cache.capacity)
    (h : Allocatable alloc cache table delta) :
    cache.rebuildIn alloc table delta =
      ((cache.rebuild table delta).1, ofResult (cache.rebuild table delta).2) := by
  have hanswer : ∀ pubkeys, (cache.take table).isSome →
      some <$> decodeIn alloc delta pubkeys = ofResult ((decode delta pubkeys).map some) := by
    intro pubkeys htake
    rw [decodeIn_eq (h.vec htake)]
    cases decode delta pubkeys <;> rfl
  cases table with
  | append base added =>
      cases hfind : cache.find base with
      | none =>
          simp only [rebuildIn, rebuild, take, hfind]
          rfl
      | some resident =>
          have htake : (cache.take (.append base added)).isSome := by
            simp only [take, hfind]
            rfl
          simp only [rebuildIn, rebuild, take, hfind, hanswer _ htake]
  | full entries =>
      have htake : (cache.take (.full entries)).isSome := by
        rw [take]
        split <;> rfl
      cases hfind : cache.find (MemberTable.full entries).resultingDigest with
      | some resident => simp only [rebuildIn, rebuild, take, hfind, hanswer _ htake]
      | none =>
          have hmap : alloc.mapFits delta.memberCount.toNat = true :=
            h.map entries rfl (find_eq_none.mp hfind)
          simp only [rebuildIn, rebuild, take, hfind, evict_isSome hcapacity, Allocator.map, hmap,
            if_true, hanswer _ htake]

/-- **A request returns, an answer or an error, exactly if there is room for it.** -/
theorem rebuildIn_ne_panicked (hcapacity : 1 ≤ cache.capacity) :
    (cache.rebuildIn alloc table delta).2 ≠ .error .panicked ↔
      Allocatable alloc cache table delta := by
  constructor
  · intro hreturned
    constructor
    · rintro entries rfl hholds
      by_contra hfull
      apply hreturned
      simp only [rebuildIn, find_eq_none.mpr hholds, evict_isSome hcapacity, Allocator.map,
        if_neg hfull]
    · intro htake
      cases table with
      | append base added =>
          cases hfind : cache.find base with
          | none =>
              simp only [take, hfind] at htake
              cases htake
          | some resident =>
              simp only [rebuildIn, hfind] at hreturned
              exact vecFits_of_decodeIn hreturned
      | full entries =>
          simp only [rebuildIn, evict_isSome hcapacity] at hreturned
          split at hreturned
          · exact vecFits_of_decodeIn hreturned
          · -- a map that was not made has panicked already
            split at hreturned
            · exact absurd rfl hreturned
            · exact vecFits_of_decodeIn hreturned
  · intro h
    rw [rebuildIn_eq hcapacity h]
    cases (cache.rebuild table delta).2 with
    | ok witness => exact fun h => by cases h
    | error message => exact fun h => by cases h

end Panics

end MemberCache

/-! ## The lock -/

variable (H) in
/-- The cache behind its mutex. -/
structure Lock where
  cache : MemberCache H
  poisoned : Bool

variable (H) in
/-- One request: the table update and the columns. -/
structure Request where
  table : MemberTable H
  delta : CommitteeDelta P

namespace Lock

variable (alloc : Allocator)

/-- One request under the lock. A panic poisons it, and taking a poisoned lock panics. -/
def serve (lock : Lock H) (request : Request H) :
    Lock H × Outcome String (Option (CommitteeWitness P)) :=
  if lock.poisoned then (lock, .error .panicked)
  else
    let served := lock.cache.rebuildIn alloc request.table request.delta
    (⟨served.1, panics served.2⟩, served.2)

/-- The answers to some requests, one after the other. -/
def serveAll : Lock H → List (Request H) → List (Outcome String (Option (CommitteeWitness P)))
  | _, [] => []
  | lock, request :: requests =>
      (lock.serve alloc request).2 :: serveAll (lock.serve alloc request).1 requests

/-- Every request finds room when its turn comes. -/
def AllAllocatable : Lock H → List (Request H) → Prop
  | _, [] => True
  | lock, request :: requests =>
      MemberCache.Allocatable alloc lock.cache request.table request.delta ∧
        AllAllocatable (lock.serve alloc request).1 requests

variable {alloc} {lock : Lock H} {request : Request H}

theorem capacity_serve : (lock.serve alloc request).1.cache.capacity = lock.cache.capacity := by
  unfold serve
  split
  · rfl
  · exact MemberCache.capacity_rebuildIn

/-- The lock is poisoned by a panic, and by nothing else. -/
theorem serve_poisoned : (lock.serve alloc request).1.poisoned = true ↔
    (lock.serve alloc request).2 = .error .panicked := by
  unfold serve
  split
  · next h => exact iff_of_true h rfl
  · exact panics_eq_true

theorem serve_ne_panicked (hcapacity : 1 ≤ lock.cache.capacity) (hlock : lock.poisoned = false) :
    (lock.serve alloc request).2 ≠ .error .panicked ↔
      MemberCache.Allocatable alloc lock.cache request.table request.delta := by
  rw [← MemberCache.rebuildIn_ne_panicked hcapacity, serve, hlock, if_neg Bool.false_ne_true]

/-- Behind a poisoned lock every request panics. -/
theorem serveAll_of_poisoned (hlock : lock.poisoned = true) (requests : List (Request H)) :
    ∀ out ∈ lock.serveAll alloc requests, out = .error .panicked := by
  induction requests with
  | nil => simp [serveAll]
  | cons request requests ih =>
      have hserve : lock.serve alloc request = (lock, .error .panicked) := if_pos hlock
      rw [serveAll, hserve]
      exact List.forall_mem_cons.mpr ⟨rfl, ih⟩

/-- **A run of requests**: none panics exactly if each finds room in its turn. -/
theorem serveAll_ne_panicked (hcapacity : 1 ≤ lock.cache.capacity) (hlock : lock.poisoned = false)
    (requests : List (Request H)) :
    (∀ out ∈ lock.serveAll alloc requests, out ≠ .error .panicked) ↔
      lock.AllAllocatable alloc requests := by
  induction requests generalizing lock with
  | nil => simp [serveAll, AllAllocatable]
  | cons request requests ih =>
      rw [serveAll, List.forall_mem_cons, AllAllocatable, serve_ne_panicked hcapacity hlock]
      refine and_congr_right fun hroom => ih (capacity_serve.symm ▸ hcapacity) ?_
      have hreturned := (serve_ne_panicked hcapacity hlock).mpr hroom
      exact Bool.eq_false_iff.mpr fun hpoisoned => hreturned (serve_poisoned.mp hpoisoned)

end Lock

/-! ## The wire format -/

/-- **Where the wire format keeps its promises.** Every witness is packed and comes back as it
should. A request returns exactly where there is room for as many members as it says, a run of
requests all return exactly where each does in its turn, and after one that does not every later
one panics. -/
theorem wire_exact_iff (alloc : Allocator) :
    (∀ witness : CommitteeWitness P, witness.members.length < 2 ^ 64 → RoundTrips witness) ∧
    (∀ (cache : MemberCache H) (table : MemberTable H) (delta : CommitteeDelta P),
      1 ≤ cache.capacity → ((cache.rebuildIn alloc table delta).2 ≠ .error .panicked ↔
        MemberCache.Allocatable alloc cache table delta)) ∧
    (∀ (lock : Lock H) (requests : List (Request H)), 1 ≤ lock.cache.capacity →
      lock.poisoned = false →
        ((∀ out ∈ lock.serveAll alloc requests, out ≠ .error .panicked) ↔
          lock.AllAllocatable alloc requests)) ∧
    ∀ (lock : Lock H) (request : Request H), 1 ≤ lock.cache.capacity → lock.poisoned = false →
      ¬ MemberCache.Allocatable alloc lock.cache request.table request.delta →
        ∀ later, ∀ out ∈ (lock.serve alloc request).1.serveAll alloc later,
          out = .error .panicked := by
  refine ⟨fun _ => roundTrips, fun _ _ _ => MemberCache.rebuildIn_ne_panicked,
    fun _ requests hcapacity hlock => Lock.serveAll_ne_panicked hcapacity hlock requests, ?_⟩
  intro lock request hcapacity hlock hroom later
  apply Lock.serveAll_of_poisoned
  rw [Lock.serve_poisoned]
  by_contra hreturned
  exact hroom ((Lock.serve_ne_panicked hcapacity hlock).mp hreturned)

end Zkasper.CommitteeCache

namespace Zkasper.Formal

open CommitteeCache

/-! ### A request of 2^63 members -/

abbrev TheHash := TableHash.free (formal {})

/-- Room for a million of anything. -/
def aMillion : Allocator := ⟨fun n => n ≤ 1000000, fun n => n ≤ 1000000⟩

def noMultiProof (memberCount : UInt64) : CommitteeDelta (formal {}) where
  accumulatorCommitment := .zero
  targetEpoch := 1
  accRoot := .zero
  totalActiveBalance := 0
  memberCount := memberCount
  indexGaps := []
  slots := []
  balances := []
  balanceIds := []
  accMultiProof := []

/-- An empty table, for as many members. -/
def emptyRequest (memberCount : UInt64) : Request TheHash := ⟨.full [], noMultiProof memberCount⟩

def freshLock : Lock TheHash := ⟨.withCapacity 3, false⟩

/-! ### Requests that were packed -/

/-- Three members in two slots, with 294 validators between the first two. -/
def threeMembers : List (Committee.CommitteeMember (formal {})) :=
  [⟨5, key 0, 32, 1⟩, ⟨300, key 1, 32, 1⟩, ⟨301, key 2, 16, 31⟩]

def threeWitness : CommitteeWitness (formal {}) := ⟨.zero, 1, .zero, 80, [.zero], threeMembers⟩

/-- A fourth member, whose balance moves the third one's to another place of the dictionary. -/
def fourWitness : CommitteeWitness (formal {}) :=
  ⟨.zero, 2, .zero, 81, [.zero], threeMembers ++ [⟨402, key 3, 1, 4⟩]⟩

/-- The columns of the three members. -/
def threeDelta : CommitteeDelta (formal {}) :=
  ⟨.zero, 1, .zero, 80, 3, [5, 167, 2, 1], [1, 1, 31], [32, 16], [0, 0, 1], [.zero]⟩

/-- The columns of the four. -/
def fourDelta : CommitteeDelta (formal {}) :=
  ⟨.zero, 2, .zero, 81, 4, [5, 167, 2, 1, 101], [1, 1, 31, 4], [32, 1, 16], [0, 0, 2, 1], [.zero]⟩

def threeEntries : List (TableEntry (formal {})) := [⟨5, key 0⟩, ⟨300, key 1⟩, ⟨301, key 2⟩]

/-- The table of the three, and then the fourth entry on top of it. -/
def grownRequests : List (Request TheHash) :=
  [⟨.full threeEntries, threeDelta⟩,
    ⟨.append (TheHash.chain threeEntries) [⟨402, key 3⟩], fourDelta⟩]

end Zkasper.Formal

namespace Zkasper.CommitteeCache

open Committee Panics Formal

/-- The map of 2^63 keys panics, and the request of no members after it, which a fresh server
answers, panics on the lock. -/
theorem hostile_delta_poisons :
    (freshLock.cache.rebuildIn aMillion (.full []) (noMultiProof 9223372036854775808)).2 =
      .error .panicked ∧
    freshLock.serveAll aMillion [emptyRequest 9223372036854775808, emptyRequest 0] =
      [.error .panicked, .error .panicked] ∧
    (∃ witness, freshLock.serveAll aMillion [emptyRequest 0] = [.ok (some witness)]) ∧
    ¬ MemberCache.Allocatable aMillion freshLock.cache (.full [])
      (noMultiProof 9223372036854775808) := by
  refine ⟨rfl, rfl, ⟨_, rfl⟩, fun h => ?_⟩
  have hfits := h.map [] rfl rfl
  exact absurd hfits (by decide)

/-- Both witnesses are packed and come back, both requests find room in their turn, so both are
answered, and the request of 2^63 members after them leaves a server that answers nothing. -/
theorem wire_exact_iff_grown :
    RoundTrips threeWitness ∧ RoundTrips fourWitness ∧
      (freshLock.cache.rebuildIn aMillion (.full threeEntries) threeDelta).2 ≠ .error .panicked ∧
      (∀ out ∈ freshLock.serveAll aMillion grownRequests, out ≠ .error .panicked) ∧
      ∀ later, ∀ out ∈ (freshLock.serve aMillion (emptyRequest 9223372036854775808)).1.serveAll
        aMillion later, out = .error .panicked := by
  obtain ⟨hpacked, hrebuilt, hserved, hpoisoned⟩ :=
    wire_exact_iff (P := formal {}) (H := TheHash) aMillion
  have hcapacity : 1 ≤ freshLock.cache.capacity := by decide
  have hfits : MemberCache.Allocatable aMillion freshLock.cache (.full threeEntries) threeDelta :=
    ⟨fun _ _ _ => rfl, fun _ _ => rfl⟩
  refine ⟨hpacked threeWitness (by decide), hpacked fourWitness (by decide),
    (hrebuilt _ _ _ hcapacity).mpr hfits, (hserved _ _ hcapacity rfl).mpr ?_,
    hpoisoned freshLock _ hcapacity rfl fun h => ?_⟩
  · exact ⟨hfits, ⟨fun _ _ _ => rfl, fun _ _ => rfl⟩, trivial⟩
  · have hmap := h.map [] rfl rfl
    exact absurd hmap (by decide)

example : encode threeWitness = some threeDelta ∧ encode fourWitness = some fourDelta ∧
    freshLock.serveAll aMillion grownRequests = [.ok (some threeWitness), .ok (some fourWitness)] :=
  ⟨rfl, rfl, rfl⟩

end Zkasper.CommitteeCache
