import Zkasper.WitnessGen.MemberTable

/-! # The member cache

The tables one prover server keeps at once, least recently used first. A request is
applied to the cache before its witness is rebuilt and stays applied whatever becomes
of the witness, so `rebuild` is `take`, which finds or makes the table the request
names, and the decoding against it.

Every table held is the table of some entries (`MemberCache.Valid`). Where the names
of tables do not collide, a request that says which entries it leaves the server with
is decoded against exactly those (`take_leaves`). -/

namespace Zkasper.CommitteeCache

open Committee

variable {P : Primitives} {H : TableHash P}

/-! ## One table -/

variable (H) in
/-- A resident table. -/
structure Held where
  digest : H.TableDigest
  pubkeys : UInt64 → Option P.G1Point

namespace Held

def empty : Held H := ⟨H.emptyTable, fun _ => none⟩

/-- Put one entry in, and fold it into the digest. -/
def insert (held : Held H) (added : TableEntry P) : Held H where
  digest := H.extend held.digest added
  pubkeys := Function.update held.pubkeys added.validatorIndex (some added.pubkey)

/-- The table of some entries, in the order they went in. -/
def ofEntries (entries : List (TableEntry P)) : Held H := entries.foldl insert empty

theorem foldl_insert_digest (held : Held H) (added : List (TableEntry P)) :
    (added.foldl insert held).digest = added.foldl H.extend held.digest := by
  induction added generalizing held with
  | nil => rfl
  | cons e added ih => rw [List.foldl_cons, ih, List.foldl_cons]; rfl

@[simp] theorem ofEntries_digest (entries : List (TableEntry P)) :
    (ofEntries entries : Held H).digest = H.chain entries :=
  foldl_insert_digest empty entries

@[simp] theorem foldl_insert_ofEntries (entries added : List (TableEntry P)) :
    added.foldl insert (ofEntries entries : Held H) = ofEntries (entries ++ added) := by
  rw [ofEntries, ofEntries, List.foldl_append]

/-- A table whose keys are all one client's answers with that client's keys. -/
theorem pubkeys_ofEntries {keys : UInt64 → P.G1Point} {entries : List (TableEntry P)}
    (hkeys : ∀ e ∈ entries, e.pubkey = keys e.validatorIndex) (index : UInt64) :
    (ofEntries entries : Held H).pubkeys index =
      if index ∈ entries.map TableEntry.validatorIndex then some (keys index) else none := by
  induction entries using List.reverseRecOn with
  | nil => rfl
  | append_singleton entries e ih =>
      have hentries : ∀ e ∈ entries, e.pubkey = keys e.validatorIndex :=
        fun e he => hkeys e (List.mem_append_left _ he)
      have hlast : e.pubkey = keys e.validatorIndex := hkeys e (by simp)
      have hinsert : (ofEntries (entries ++ [e]) : Held H) = (ofEntries entries).insert e := by
        rw [ofEntries, List.foldl_append]
        rfl
      rw [hinsert]
      show Function.update (ofEntries entries : Held H).pubkeys e.validatorIndex
        (some e.pubkey) index = _
      rw [Function.update_apply, ih hentries]
      by_cases hindex : index = e.validatorIndex
      · subst hindex
        simp [hlast]
      · simp [hindex]

end Held

/-! ## The cache -/

variable (H) in
/-- The keys the server is holding for its clients, least recently used first. -/
structure MemberCache where
  held : List (Held H)
  capacity : ℕ

namespace MemberCache

def withCapacity (capacity : ℕ) : MemberCache H := ⟨[], max capacity 1⟩

variable (cache : MemberCache H)

/-- Whether a client naming `digest` could be served without resending. -/
def holds (digest : H.TableDigest) : Bool := cache.held.any (·.digest = digest)

/-- The first table of that name. -/
def find (digest : H.TableDigest) : Option (Held H) := cache.held.find? (·.digest = digest)

/-- Put a table in the place of the first one of some name, as the one used last. -/
def replace (digest : H.TableDigest) (resident : Held H) : MemberCache H :=
  { cache with held := cache.held.eraseP (·.digest = digest) ++ [resident] }

/-- Make room for one more table, at the cost of the one used least recently. -/
def makeRoom : List (Held H) :=
  if cache.capacity ≤ cache.held.length then cache.held.tail else cache.held

/-- Take the client's table update. `none` is the base it builds on not being held. -/
def take (table : MemberTable H) : Option (MemberCache H × Held H) :=
  match table with
  | .full entries =>
      match cache.find table.resultingDigest with
      | some resident => some (cache.replace table.resultingDigest resident, resident)
      | none =>
          let resident := entries.foldl Held.insert .empty
          some ({ cache with held := cache.makeRoom ++ [resident] }, resident)
  | .append base added =>
      match cache.find base with
      | some resident =>
          let resident := added.foldl Held.insert resident
          some (cache.replace base resident, resident)
      | none => none

/-- Take the client's table update and rebuild its witness. `.ok none` is "I do not hold
the table you are building on". -/
def rebuild (table : MemberTable H) (delta : CommitteeDelta P) :
    MemberCache H × Except String (Option (CommitteeWitness P)) :=
  match cache.take table with
  | some (cache, resident) => (cache, (decode delta resident.pubkeys).map some)
  | none => (cache, .ok none)

/-! ### What is held -/

variable {cache}

/-- What every request keeps: a bounded number of tables, each of them the table of
some entries. -/
structure Valid (cache : MemberCache H) : Prop where
  pos : 1 ≤ cache.capacity
  bounded : cache.held.length ≤ cache.capacity
  tables : ∀ h ∈ cache.held, ∃ entries, h = Held.ofEntries entries

theorem Valid.withCapacity (capacity : ℕ) : (withCapacity capacity : MemberCache H).Valid where
  pos := le_max_right _ _
  bounded := Nat.zero_le _
  tables _ h := absurd h List.not_mem_nil

theorem find_eq_some {digest : H.TableDigest} {resident : Held H}
    (h : cache.find digest = some resident) : resident ∈ cache.held ∧ resident.digest = digest :=
  ⟨List.mem_of_find?_eq_some h, by simpa using List.find?_some h⟩

theorem find_eq_none {digest : H.TableDigest} :
    cache.find digest = none ↔ cache.holds digest = false := by
  simp [find, holds, List.find?_eq_none, List.any_eq_false]

theorem length_replace {digest : H.TableDigest} {old resident : Held H}
    (h : cache.find digest = some old) :
    (cache.replace digest resident).held.length = cache.held.length := by
  obtain ⟨hmem, hdigest⟩ := find_eq_some h
  have hpos := List.length_pos_of_mem hmem
  simp only [replace, List.length_append, List.length_singleton]
  rw [List.length_eraseP_of_mem hmem (by simpa using hdigest)]
  omega

theorem length_makeRoom (h : cache.Valid) : cache.makeRoom.length + 1 ≤ cache.capacity := by
  have hpos := h.pos
  unfold makeRoom
  split
  · have := h.bounded
    rw [List.length_tail]
    omega
  · omega

theorem mem_makeRoom {resident : Held H} (h : resident ∈ cache.makeRoom) :
    resident ∈ cache.held := by
  unfold makeRoom at h
  split at h
  · exact List.mem_of_mem_tail h
  · exact h

/-- **What the server answers from**: where names do not collide, the table that the
request says it leaves. -/
theorem take_leaves (hH : H.CollisionFree) (h : cache.Valid) {table : MemberTable H}
    {entries : List (TableEntry P)} (hleaves : table.Leaves entries) {cache' : MemberCache H}
    {resident : Held H} (htake : cache.take table = some (cache', resident)) :
    resident = Held.ofEntries entries := by
  have htable : ∀ {digest : H.TableDigest} {r : Held H} {before : List (TableEntry P)},
      cache.find digest = some r → H.chain before = digest → r = Held.ofEntries before := by
    intro digest r before hfind hchain
    obtain ⟨hmem, hdigest⟩ := find_eq_some hfind
    obtain ⟨es, rfl⟩ := h.tables r hmem
    rw [Held.ofEntries_digest, ← hchain] at hdigest
    rw [hH hdigest]
  cases table with
  | full every =>
      obtain rfl := hleaves
      simp only [take] at htake
      split at htake
      · next r hfind =>
          obtain ⟨-, rfl⟩ := Prod.mk.inj (Option.some.inj htake)
          exact htable hfind rfl
      · obtain ⟨-, rfl⟩ := Prod.mk.inj (Option.some.inj htake)
        rfl
  | append base added =>
      obtain ⟨before, hchain, rfl⟩ := hleaves
      simp only [take] at htake
      split at htake
      · next r hfind =>
          obtain ⟨-, rfl⟩ := Prod.mk.inj (Option.some.inj htake)
          rw [htable hfind hchain, Held.foldl_insert_ofEntries]
      · cases htake

/-- A request keeps what every request keeps. -/
theorem Valid.take (h : cache.Valid) {table : MemberTable H} {cache' : MemberCache H}
    {resident : Held H} (htake : cache.take table = some (cache', resident)) : cache'.Valid := by
  have hreplace : ∀ {digest : H.TableDigest} {old new : Held H}, cache.find digest = some old →
      (∃ entries, new = Held.ofEntries entries) → (cache.replace digest new).Valid := by
    intro digest old new hfind hnew
    refine ⟨h.pos, by rw [length_replace hfind]; exact h.bounded, fun r hr => ?_⟩
    rcases List.mem_append.mp hr with hr | hr
    · exact h.tables r (List.mem_of_mem_eraseP hr)
    · obtain rfl := List.mem_singleton.mp hr
      exact hnew
  cases table with
  | full every =>
      simp only [MemberCache.take] at htake
      split at htake
      · next r hfind =>
          obtain ⟨rfl, rfl⟩ := Prod.mk.inj (Option.some.inj htake)
          exact hreplace hfind (h.tables _ (find_eq_some hfind).1)
      · obtain ⟨rfl, rfl⟩ := Prod.mk.inj (Option.some.inj htake)
        refine ⟨h.pos, ?_, fun r hr => ?_⟩
        · rw [List.length_append]
          exact length_makeRoom h
        · rcases List.mem_append.mp hr with hr | hr
          · exact h.tables r (mem_makeRoom hr)
          · exact ⟨every, List.mem_singleton.mp hr⟩
  | append base added =>
      simp only [MemberCache.take] at htake
      split at htake
      · next r hfind =>
          obtain ⟨rfl, rfl⟩ := Prod.mk.inj (Option.some.inj htake)
          obtain ⟨es, rfl⟩ := h.tables _ (find_eq_some hfind).1
          exact hreplace hfind ⟨es ++ added, Held.foldl_insert_ofEntries es added⟩
      · cases htake

/-- A server is asked for the table exactly when the base it is told to build on is
not held. -/
theorem take_eq_none {table : MemberTable H} :
    cache.take table = none ↔
      ∃ base added, table = .append base added ∧ cache.holds base = false := by
  cases table with
  | full every =>
      simp only [take]
      split <;> simp
  | append base added =>
      simp only [take, ← find_eq_none]
      split
      · next r hfind => simp [hfind]
      · next hfind => simp [hfind]

end MemberCache
end Zkasper.CommitteeCache
