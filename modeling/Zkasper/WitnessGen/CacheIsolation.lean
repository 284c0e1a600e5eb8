import Zkasper.Library.Transition
import Zkasper.WitnessGen.MemberCache

/-! # Clients that share a table

The tables a server holds are found by name, and each is meant to be one client's: the
name a client last confirmed is the base of its next request. An append grows the table
it finds in place, name and all, so what it does to the rest of the cache depends on who
else names that table and on what else is held under the name it grows into.

`isolation_iff` says exactly when a request leaves every name unique and every other
client's table as it was: every request but an append of new keys, and an append where
nobody else names the base and nothing is held under the result. -/

namespace Zkasper.CommitteeCache

open Transition

variable {P : Primitives} {H : TableHash P} {C : Type}

namespace MemberCache

variable {cache : MemberCache H} {digest : H.TableDigest} {resident old : Held H}

/-- No two tables of one name. -/
def Distinct (cache : MemberCache H) : Prop := (cache.held.map Held.digest).Nodup

/-! ## Taking the one table of a name out -/

theorem eraseP_eq_filter {held : List (Held H)} (h : (held.map Held.digest).Nodup) :
    held.eraseP (fun r => decide (r.digest = digest)) =
      held.filter fun r => decide (r.digest ≠ digest) := by
  induction held with
  | nil => rfl
  | cons r held ih =>
      obtain ⟨hhead, htail⟩ := List.nodup_cons.mp h
      by_cases hr : r.digest = digest
      · have hall : ∀ r' ∈ held, r'.digest ≠ digest := by
          intro r' hr' habsurd
          exact hhead (hr ▸ habsurd ▸ List.mem_map_of_mem hr')
        rw [List.eraseP_cons_of_pos (by simpa using hr), List.filter_cons_of_neg (by simpa using hr)]
        exact (List.filter_eq_self.mpr fun r' hr' => by simpa using hall r' hr').symm
      · rw [List.eraseP_cons_of_neg (by simpa using hr), List.filter_cons_of_pos (by simpa using hr),
          ih htail]

theorem Distinct.mem_replace (h : cache.Distinct) {r : Held H} :
    r ∈ (cache.replace digest resident).held ↔
      r ∈ cache.held ∧ r.digest ≠ digest ∨ r = resident := by
  rw [replace, eraseP_eq_filter h, List.mem_append, List.mem_filter, List.mem_singleton,
    decide_eq_true_eq]

/-- A table put in another's place is the only one of its name exactly when no table
besides the one it replaces has that name. -/
theorem Distinct.replace_iff (h : cache.Distinct) :
    (cache.replace digest resident).Distinct ↔
      ∀ r ∈ cache.held, r.digest ≠ digest → r.digest ≠ resident.digest := by
  have hrest : ((cache.held.filter fun r => decide (r.digest ≠ digest)).map Held.digest).Nodup :=
    h.sublist (List.filter_sublist.map _)
  rw [Distinct, replace, eraseP_eq_filter h, List.map_append, List.map_singleton, List.nodup_append]
  constructor
  · rintro ⟨-, -, hnew⟩ r hr hne
    exact hnew _ (List.mem_map_of_mem (List.mem_filter.mpr ⟨hr, by simpa using hne⟩)) _ (by simp)
  · intro hnew
    refine ⟨hrest, List.nodup_singleton _, ?_⟩
    rintro _ hd _ hresident
    obtain ⟨r, hr, rfl⟩ := List.mem_map.mp hd
    obtain ⟨hr, hne⟩ := List.mem_filter.mp hr
    rw [List.mem_singleton.mp hresident]
    exact hnew r hr (by simpa using hne)

theorem holds_eq_true : cache.holds digest = true ↔ ∃ r ∈ cache.held, r.digest = digest := by
  simp [holds]

/-- There is one table of a name. -/
theorem Distinct.eq_of_digest (h : cache.Distinct) {r r' : Held H} (hr : r ∈ cache.held)
    (hr' : r' ∈ cache.held) (heq : r.digest = r'.digest) : r = r' :=
  List.inj_on_of_nodup_map h hr hr' heq

end MemberCache

/-! ## The server and what its clients have confirmed -/

variable (H C) in
/-- The cache, and the table each client last confirmed. -/
structure Serving where
  cache : MemberCache H
  confirmed : C → Option H.TableDigest

variable (H C) in
inductive Serving.Event where
  /-- Any request of a client. -/
  | serve (client : C) (table : MemberTable H) (delta : CommitteeDelta P)
  /-- A client's belief moves, or is forgotten. -/
  | confirm (client : C) (digest : Option H.TableDigest)
  /-- The server starts over with nothing. -/
  | restart

namespace Serving

def step [DecidableEq C] (s : Serving H C) : Event H C → Option (Serving H C)
  | .serve _ table delta => some { s with cache := (s.cache.rebuild table delta).1 }
  | .confirm client digest =>
      some { s with confirmed := Function.update s.confirmed client digest }
  | .restart => some { s with cache := .withCapacity s.cache.capacity }

def start (capacity : ℕ) : Serving H C := ⟨.withCapacity capacity, fun _ => none⟩

/-- The documented eviction: a whole table, not held, where there is no room for one. -/
def Evicts (cache : MemberCache H) (table : MemberTable H) (r : Held H) : Prop :=
  (∃ entries, table = .full entries) ∧ cache.holds table.resultingDigest = false ∧
    cache.capacity ≤ cache.held.length ∧ cache.held.head? = some r

/-- What serving a request leaves alone: no name is held twice, and a table another
client last confirmed is still held, with its keys, unless it was evicted. -/
structure Isolated (s : Serving H C) (client : C) (table : MemberTable H)
    (delta : CommitteeDelta P) : Prop where
  distinct : (s.cache.rebuild table delta).1.Distinct
  kept : ∀ c, c ≠ client → ∀ r ∈ s.cache.held, s.confirmed c = some r.digest →
    r ∈ (s.cache.rebuild table delta).1.held ∨ Evicts s.cache table r

/-- The condition on a request: an append of new keys is made to a table that no other
client has confirmed, and grows it into a name that is not held. -/
def Harmless (s : Serving H C) : Event H C → Prop
  | .serve client (.append base added) _ =>
      s.cache.holds base = true → added ≠ [] →
        s.cache.holds (MemberTable.append base added).resultingDigest = false ∧
          ∀ c, c ≠ client → s.confirmed c ≠ some base
  | _ => True

section Requests

variable {s : Serving H C} {client : C} {delta : CommitteeDelta P}

/-- Using a resident table moves it to the back and nothing else. -/
theorem isolated_of_touch (hdistinct : s.cache.Distinct) {table : MemberTable H}
    {digest : H.TableDigest} {r : Held H} (hfind : s.cache.find digest = some r)
    (hcache : (s.cache.rebuild table delta).1 = s.cache.replace digest r) :
    s.Isolated client table delta := by
  obtain ⟨hr, hdigest⟩ := MemberCache.find_eq_some hfind
  constructor
  · rw [hcache, hdistinct.replace_iff, hdigest]
    exact fun _ _ hne => hne
  · intro c _ r' hr' _
    apply Or.inl
    rw [hcache, hdistinct.mem_replace]
    by_cases hsame : r'.digest = digest
    · exact .inr (hdistinct.eq_of_digest hr' hr (hsame.trans hdigest.symm))
    · exact .inl ⟨hr', hsame⟩

/-- A whole table that is not held goes in beside the others, or in the place of the one
used least recently. -/
theorem isolated_full (hdistinct : s.cache.Distinct) (entries : List (TableEntry P)) :
    s.Isolated client (.full entries) delta := by
  cases hfind : s.cache.find (MemberTable.full entries : MemberTable H).resultingDigest with
  | some r =>
      exact isolated_of_touch hdistinct hfind (by simp only [MemberCache.rebuild,
        MemberCache.take, hfind])
  | none =>
      have hnot := MemberCache.find_eq_none.mp hfind
      have hcache : (s.cache.rebuild (.full entries) delta).1.held =
          s.cache.makeRoom ++ [(Held.ofEntries entries : Held H)] := by
        simp only [MemberCache.rebuild, MemberCache.take, hfind]
        rfl
      constructor
      · have hroom : (s.cache.makeRoom.map Held.digest).Nodup := by
          unfold MemberCache.makeRoom
          split
          · exact hdistinct.sublist ((List.tail_sublist _).map _)
          · exact hdistinct
        rw [MemberCache.Distinct, hcache, List.map_append, List.nodup_append]
        refine ⟨hroom, List.nodup_singleton _, ?_⟩
        rintro _ hd _ hfresh rfl
        obtain ⟨r, hr, hdigest⟩ := List.mem_map.mp hd
        rw [List.map_singleton, List.mem_singleton] at hfresh
        have hholds : s.cache.holds (MemberTable.full entries : MemberTable H).resultingDigest =
            true :=
          MemberCache.holds_eq_true.mpr ⟨r, MemberCache.mem_makeRoom hr, by
            rw [hdigest, hfresh, Held.ofEntries_digest]
            rfl⟩
        rw [hnot] at hholds
        cases hholds
      · intro c _ r hr _
        rw [hcache]
        unfold MemberCache.makeRoom
        split
        · next hfull =>
            cases hheld : s.cache.held with
            | nil =>
                rw [hheld] at hr
                cases hr
            | cons first rest =>
                rw [hheld] at hr
                rcases List.mem_cons.mp hr with rfl | hrest
                · exact .inr ⟨⟨entries, rfl⟩, hnot, hfull, by rw [hheld]; rfl⟩
                · exact .inl (List.mem_append_left _ hrest)
        · exact .inl (List.mem_append_left _ hr)

/-- An append of new keys takes the table it grows away from everyone who names it. -/
theorem isolated_append_iff (hH : H.CollisionFree) (hvalid : s.cache.Valid)
    (hdistinct : s.cache.Distinct) {base : H.TableDigest} {added : List (TableEntry P)}
    (hadded : added ≠ []) {r : Held H} (hfind : s.cache.find base = some r) :
    s.Isolated client (.append base added) delta ↔
      s.cache.holds (MemberTable.append base added).resultingDigest = false ∧
        ∀ c, c ≠ client → s.confirmed c ≠ some base := by
  obtain ⟨hr, rfl⟩ := MemberCache.find_eq_some hfind
  have hcache : (s.cache.rebuild (.append r.digest added) delta).1 =
      s.cache.replace r.digest (added.foldl Held.insert r) := by
    simp only [MemberCache.rebuild, MemberCache.take, hfind]
  have hgrown : (added.foldl Held.insert r).digest =
      (MemberTable.append r.digest added : MemberTable H).resultingDigest :=
    Held.foldl_insert_digest r added
  have hmoved : (added.foldl Held.insert r).digest ≠ r.digest := by
    obtain ⟨es, rfl⟩ := hvalid.tables r hr
    rw [Held.foldl_insert_ofEntries, Held.ofEntries_digest, Held.ofEntries_digest]
    intro habsurd
    exact hadded (List.append_right_eq_self.mp (hH habsurd))
  constructor
  · intro hisolated
    refine ⟨Bool.eq_false_iff.mpr fun hholds => ?_, fun c hc hconfirmed => ?_⟩
    · obtain ⟨r', hr', hdigest⟩ := MemberCache.holds_eq_true.mp hholds
      have hdistinct' := hisolated.distinct
      rw [hcache, hdistinct.replace_iff] at hdistinct'
      refine hdistinct' r' hr' ?_ (hdigest.trans hgrown.symm)
      rw [hdigest, ← hgrown]
      exact hmoved
    · rcases hisolated.kept c hc r hr hconfirmed with hkept | ⟨⟨_, hfull⟩, -⟩
      · rw [hcache, hdistinct.mem_replace] at hkept
        rcases hkept with ⟨-, hne⟩ | hgrew
        · exact hne rfl
        · exact hmoved (congrArg Held.digest hgrew).symm
      · cases hfull
  · rintro ⟨hnot, hnobody⟩
    constructor
    · rw [hcache, hdistinct.replace_iff, hgrown]
      intro r' hr' _ habsurd
      rw [MemberCache.holds_eq_true.mpr ⟨r', hr', habsurd⟩] at hnot
      cases hnot
    · intro c hc r' hr' hconfirmed
      apply Or.inl
      rw [hcache, hdistinct.mem_replace]
      refine .inl ⟨hr', fun habsurd => hnobody c hc ?_⟩
      rw [hconfirmed, habsurd]

/-- **When a request leaves the others alone.** -/
theorem isolated_iff (hH : H.CollisionFree) (hvalid : s.cache.Valid)
    (hdistinct : s.cache.Distinct) (table : MemberTable H) :
    s.Isolated client table delta ↔ Harmless s (.serve client table delta) := by
  cases table with
  | full entries => exact iff_of_true (isolated_full hdistinct entries) trivial
  | append base added =>
      cases hfind : s.cache.find base with
      | none =>
          have hnot := MemberCache.find_eq_none.mp hfind
          have hcache : (s.cache.rebuild (.append base added) delta).1 = s.cache := by
            simp only [MemberCache.rebuild, MemberCache.take, hfind]
          refine iff_of_true ⟨by rw [hcache]; exact hdistinct, fun _ _ r hr _ => ?_⟩
            fun hholds => ?_
          · rw [hcache]
            exact .inl hr
          · rw [hnot] at hholds
            cases hholds
      | some r =>
          by_cases hadded : added = []
          · subst hadded
            refine iff_of_true (isolated_of_touch hdistinct hfind ?_) fun _ h => absurd rfl h
            simp only [MemberCache.rebuild, MemberCache.take, hfind, List.foldl_nil]
          · have hholds : s.cache.holds base = true :=
              MemberCache.holds_eq_true.mpr ⟨r, MemberCache.find_eq_some hfind⟩
            rw [isolated_append_iff hH hvalid hdistinct hadded hfind]
            exact ⟨fun h _ _ => h, fun h => h hholds hadded⟩

end Requests

/-! ## Runs -/

section Runs

variable [DecidableEq C]

/-- What a run whose every request is harmless keeps. -/
theorem reached_distinct (hH : H.CollisionFree) {capacity : ℕ} {s : Serving H C}
    (h : Reached step Harmless (start capacity) s) : s.cache.Valid ∧ s.cache.Distinct := by
  refine h.invariant (fun s => s.cache.Valid ∧ s.cache.Distinct)
    ⟨.withCapacity capacity, List.nodup_nil⟩ ?_
  rintro s e s' ⟨hvalid, hdistinct⟩ hharmless hstep
  cases e with
  | serve client table delta =>
      obtain rfl := Option.some.inj hstep
      refine ⟨?_, ((isolated_iff hH hvalid hdistinct table).mpr hharmless).distinct⟩
      show (s.cache.rebuild table delta).1.Valid
      unfold MemberCache.rebuild
      cases htake : s.cache.take table with
      | none => exact hvalid
      | some taken => exact hvalid.take htake
  | confirm client digest =>
      obtain rfl := Option.some.inj hstep
      exact ⟨hvalid, hdistinct⟩
  | restart =>
      obtain rfl := Option.some.inj hstep
      exact ⟨.withCapacity _, List.nodup_nil⟩

/-- **Tables are one client's each, as long as no append takes one from another**: in
every state such a run reaches names are unique, and the next request leaves every
other client's table alone exactly when it meets the condition too. -/
theorem isolation_iff (hH : H.CollisionFree) (capacity : ℕ) {s : Serving H C}
    (h : Reached step Harmless (start capacity) s) :
    s.cache.Distinct ∧ ∀ client table delta,
      s.Isolated client table delta ↔ Harmless s (.serve client table delta) := by
  obtain ⟨hvalid, hdistinct⟩ := reached_distinct hH h
  exact ⟨hdistinct, fun client table delta => isolated_iff hH hvalid hdistinct table⟩

end Runs

/-! ## A restart's overlap -/

section Overlap

/-- The one key of a registry of one validator. -/
def firstKey : TableEntry (Formal.formal {}) := ⟨0, Formal.key 0⟩

/-- The validator that activates next. -/
def secondKey : TableEntry (Formal.formal {}) := ⟨1, Formal.key 1⟩

/-- Columns of no members; what a cache makes of a table does not depend on them. -/
def noMembers : CommitteeDelta (Formal.formal {}) where
  accumulatorCommitment := .zero
  targetEpoch := 0
  accRoot := .zero
  totalActiveBalance := 0
  memberCount := 0
  indexGaps := []
  slots := []
  balances := []
  balanceIds := []
  accMultiProof := []

abbrev Overlap := Serving (TableHash.free (Formal.formal {})) Bool

/-- Two daemons, each with a table of its own: one of them names the table it was told is there,
and that of the other grows beside it. -/
theorem isolation_iff_two :
    ∃ s : Overlap, s.cache.held.length = 2 ∧ s.confirmed true = some [secondKey] ∧
      s.cache.Distinct ∧ ∀ client table delta,
        s.Isolated client table delta ↔ Harmless s (.serve client table delta) := by
  have hboth : Reached step Harmless (start 3 : Overlap)
      ⟨⟨[Held.ofEntries [firstKey], Held.ofEntries [secondKey]], 3⟩,
        Function.update (fun _ => none) true (some [secondKey])⟩ :=
    .step (.step (.step .start (e := .serve false (.full [firstKey]) noMembers) trivial rfl)
      (e := .serve true (.full [secondKey]) noMembers) trivial rfl)
      (e := .confirm true (some [secondKey])) trivial rfl
  have hgrown : Reached step Harmless (start 3 : Overlap)
      ⟨⟨[Held.ofEntries [secondKey], Held.ofEntries [firstKey, secondKey]], 3⟩,
        Function.update (fun _ => none) true (some [secondKey])⟩ :=
    .step hboth (e := .serve false (.append [firstKey] [secondKey]) noMembers)
      (fun _ _ => ⟨by decide +kernel, by decide +kernel⟩) rfl
  exact ⟨_, rfl, rfl, isolation_iff TableHash.free_collisionFree 3 hgrown⟩

/-- **The overlap**: the outgoing daemon and the one that replaces it have sent the same
keys. One of them names the next validator, and the other's table is gone. -/
theorem not_isolated_shared :
    (TableHash.free (Formal.formal {})).CollisionFree ∧
      ¬ ∀ s : Overlap, Reached step always (start 3) s → s.cache.Distinct ∧
        ∀ client table delta, s.Isolated client table delta := by
  refine ⟨TableHash.free_collisionFree, fun hclaim => ?_⟩
  have hshared : Reached step Harmless (start 3 : Overlap)
      ⟨⟨[Held.ofEntries [firstKey]], 3⟩,
        Function.update (fun _ => none) true (some [firstKey])⟩ :=
    .step (.step (.step .start (e := .serve false (.full [firstKey]) noMembers) trivial rfl)
      (e := .serve true (.full [firstKey]) noMembers) trivial rfl)
      (e := .confirm true (some [firstKey])) trivial rfl
  obtain ⟨hvalid, hdistinct⟩ := reached_distinct TableHash.free_collisionFree hshared
  have hisolated := (hclaim _ (hshared.mono fun _ _ _ => trivial)).2 false
    (.append [firstKey] [secondKey]) noMembers
  have hharmless := (isolated_iff TableHash.free_collisionFree hvalid hdistinct _).mp hisolated
  exact (hharmless (by decide +kernel) nofun).2 true nofun rfl

end Overlap

end Serving

end Zkasper.CommitteeCache
