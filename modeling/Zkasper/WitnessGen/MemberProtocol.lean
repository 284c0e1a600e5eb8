import Zkasper.Library.Transition
import Zkasper.WitnessGen.MemberCache

/-! # The member table protocol

Clients that each remember a digest, and one server that remembers tables. A client
plans a request against what it believes the server holds; the server serves it, or
asks for the whole table; the answer comes back or is lost; and what comes back is
recorded. Nothing orders the requests: one client may have several in flight, since the
belief is locked to plan with and to record in but not in between.

Whatever the order, a witness the server rebuilds is the client's own
(`Fair.own`). That it never misses a key takes a condition: an answer is recorded on
the belief its request was planned from. Under it every request in flight names a table
that has its members' keys (`reached_right`); without it a client marks keys as sent
that the table it names never had. -/

namespace Zkasper.CommitteeCache

open Committee Transition

variable {P : Primitives} {H : TableHash P} {C : Type}

/-! ## Requests in flight -/

/-- What the server answers, as far as the table is concerned. -/
inductive Reply where
  | proved
  | failed
  | needMemberTable
  deriving DecidableEq

/-- The answer to a rebuilt request; a circuit may refuse any witness. -/
def Reply.of (refuse : Bool) : Except String (Option (CommitteeWitness P)) → Reply
  | .ok none => .needMemberTable
  | .ok (some _) => if refuse then .failed else .proved
  | .error _ => .failed

variable (H C) in
/-- One request in flight, with what its client keeps in case the far end will not take
it as sent. -/
structure Ask where
  client : C
  witness : CommitteeWitness P
  delta : CommitteeDelta P
  table : MemberTable H
  /-- Every key, for a server that turns out to hold none of them. -/
  withTable : Option (MemberTable H)
  /-- What the server said, until it is delivered or lost. -/
  answer : Option Reply := none
  /-- Refused, and about to be asked once more. -/
  refused : Bool := false

variable (H C) in
structure World where
  cache : MemberCache H
  beliefs : C → TableBelief H
  asks : List (Ask H C) := []

/-- What a request may fall back to: one that carries every key has nothing. -/
def MemberTable.fallback (table : MemberTable H) (members : List (CommitteeMember P)) :
    Option (MemberTable H) :=
  match table with
  | .full _ => none
  | .append _ _ => some (.ofMembers H members)

variable (H C) in
/-- What can happen next; requests are named by their place in the list. -/
inductive Event where
  /-- A client plans a request for a witness. -/
  | plan (client : C) (witness : CommitteeWitness P)
  /-- The server takes a request off the wire, for the first time or sent again. -/
  | serve (i : ℕ) (refuse : Bool)
  /-- The answer does not arrive. -/
  | lose (i : ℕ)
  /-- The answer arrives. -/
  | receive (i : ℕ)
  /-- A refused request is asked again, naming the table as it now stands. -/
  | again (i : ℕ)
  /-- A client gives up on a request. -/
  | drop (i : ℕ)
  /-- A client connects anew and is told of a table, or of none. -/
  | handshake (client : C) (reported : Option H.TableDigest)
  /-- The server starts over with nothing. -/
  | restart

/-- A witness as one client sees the registry, in a `Vec` of this machine. -/
structure Seen (keys : UInt64 → P.G1Point) (witness : CommitteeWitness P) : Prop where
  keyed : ∀ m ∈ witness.members, m.pubkey = keys m.validatorIndex
  length : witness.members.length < 2 ^ 64

instance (keys : UInt64 → P.G1Point) (witness : CommitteeWitness P) :
    Decidable (Seen keys witness) :=
  decidable_of_iff ((∀ m ∈ witness.members, m.pubkey = keys m.validatorIndex) ∧
    witness.members.length < 2 ^ 64) ⟨fun h => ⟨h.1, h.2⟩, fun h => ⟨h.1, h.2⟩⟩

namespace World

variable [DecidableEq C]

/-- An answer that arrives. Anything but a request for the table is proof that the
server took the keys this one carried. -/
def receive (w : World H C) (i : ℕ) (ask : Ask H C) : Reply → World H C
  | .needMemberTable =>
      match ask.withTable with
      | some everyKey =>
          { w with
            asks := w.asks.set i
              { ask with table := everyKey, withTable := none, answer := none } }
      | none => { w with asks := w.asks.eraseIdx i }
  | .proved =>
      { w with
        beliefs :=
          Function.update w.beliefs ask.client ((w.beliefs ask.client).adopt ask.table)
        asks := w.asks.eraseIdx i }
  | .failed =>
      { w with
        beliefs :=
          Function.update w.beliefs ask.client ((w.beliefs ask.client).adopt ask.table)
        asks := w.asks.set i { ask with answer := none, refused := true } }

/-- One step. `keys` is what each client sees in its registry. -/
def step (keys : C → UInt64 → P.G1Point) (w : World H C) : Event H C → Option (World H C)
  | .plan client witness =>
      if Seen (keys client) witness then do
        let delta ← encode witness
        let table := (w.beliefs client).plan witness.members
        return { w with
          asks := w.asks ++
            [{ client, witness, delta, table, withTable := table.fallback witness.members }] }
      else none
  | .serve i refuse => do
      let ask ← w.asks[i]?
      let (cache, rebuilt) := w.cache.rebuild ask.table ask.delta
      return { w with
        cache := cache
        asks := w.asks.set i { ask with answer := some (Reply.of refuse rebuilt) } }
  | .lose i => do
      let ask ← w.asks[i]?
      return { w with asks := w.asks.set i { ask with answer := none } }
  | .receive i => do
      let ask ← w.asks[i]?
      let reply ← ask.answer
      return w.receive i ask reply
  | .again i => do
      let ask ← w.asks[i]?
      if ask.refused then
        let table := ((w.beliefs ask.client).settled).getD ask.table
        return { w with asks := w.asks.set i { ask with table, refused := false } }
      else none
  | .drop i => some { w with asks := w.asks.eraseIdx i }
  | .handshake client reported =>
      some { w with
        beliefs :=
          Function.update w.beliefs client ((w.beliefs client).reconcile reported) }
  | .restart => some { w with cache := .withCapacity w.cache.capacity }

end World

/-- Nothing planned, and nothing held. -/
def World.start (capacity : ℕ) : World H C :=
  { cache := .withCapacity capacity, beliefs := fun _ => {} }

/-! ## What every run keeps -/

/-- Every key is the one a client sees. -/
def Keyed (keys : UInt64 → P.G1Point) (entries : List (TableEntry P)) : Prop :=
  ∀ e ∈ entries, e.pubkey = keys e.validatorIndex

theorem Keyed.append {keys : UInt64 → P.G1Point} {entries added : List (TableEntry P)}
    (h : Keyed keys entries) (h' : Keyed keys added) : Keyed keys (entries ++ added) :=
  fun e he => (List.mem_append.mp he).elim (h e) (h' e)

theorem Seen.keyed_entries {keys : UInt64 → P.G1Point} {witness : CommitteeWitness P}
    (h : Seen keys witness) {members : List (CommitteeMember P)}
    (hsub : ∀ m ∈ members, m ∈ witness.members) : Keyed keys (members.map entry) := by
  intro e he
  obtain ⟨m, hm, rfl⟩ := List.mem_map.mp he
  exact h.keyed m (hsub m hm)

/-- A client's witness against a table of its own keys: itself, or a stop at the first
member the table does not name. -/
theorem Seen.outcome {keys : UInt64 → P.G1Point} {witness : CommitteeWitness P}
    (hseen : Seen keys witness) {delta : CommitteeDelta P} (hencode : encode witness = some delta)
    {entries : List (TableEntry P)} (hkeyed : Keyed keys entries) :
    decode delta (Held.ofEntries entries : Held H).pubkeys =
      match witness.members.find? fun m =>
        m.validatorIndex ∉ entries.map TableEntry.validatorIndex with
      | none => .ok witness
      | some m => .error (noPublicKey m.validatorIndex) := by
  have hpubkeys := Held.pubkeys_ofEntries (H := H) hkeyed
  have hown : ∀ m ∈ witness.members, ∀ pubkey,
      (Held.ofEntries entries : Held H).pubkeys m.validatorIndex = some pubkey →
        pubkey = m.pubkey := by
    intro m hm pubkey hpubkey
    rw [hpubkeys] at hpubkey
    split at hpubkey
    · rw [hseen.keyed m hm]
      exact (Option.some.inj hpubkey).symm
    · cases hpubkey
  have hmissing : (fun m : CommitteeMember P =>
        ((Held.ofEntries entries : Held H).pubkeys m.validatorIndex).isNone) =
      fun m => decide (m.validatorIndex ∉ entries.map TableEntry.validatorIndex) := by
    funext m
    rw [hpubkeys]
    split <;> simp_all
  have hdecode := decode_encode hencode hseen.length hown
  rw [hmissing] at hdecode
  exact hdecode

/-- A table with an entry for every member gives the witness back. -/
theorem Seen.covered {keys : UInt64 → P.G1Point} {witness : CommitteeWitness P}
    (hseen : Seen keys witness) {delta : CommitteeDelta P} (hencode : encode witness = some delta)
    {entries : List (TableEntry P)} (hkeyed : Keyed keys entries)
    (hcovers : ∀ m ∈ witness.members, m.validatorIndex ∈ entries.map TableEntry.validatorIndex) :
    decode delta (Held.ofEntries entries : Held H).pubkeys = .ok witness := by
  have hnone : (witness.members.find? fun m =>
      m.validatorIndex ∉ entries.map TableEntry.validatorIndex) = none := by
    rw [List.find?_eq_none]
    intro m hm
    simpa using hcovers m hm
  rw [hseen.outcome hencode hkeyed, hnone]

/-- A belief that names a table of keys the client itself sees. -/
def TableBelief.Fair (keys : UInt64 → P.G1Point) (belief : TableBelief H) : Prop :=
  ∀ digest, belief.digest = some digest → ∃ entries, H.chain entries = digest ∧ Keyed keys entries

/-- A request for a witness its client sees, on a table of keys its client sees. -/
structure Ask.Fair (keys : UInt64 → P.G1Point) (ask : Ask H C) : Prop where
  seen : Seen keys ask.witness
  encoded : encode ask.witness = some ask.delta
  leaves : ∃ entries, ask.table.Leaves entries ∧ Keyed keys entries
  fallback : ∀ table, ask.withTable = some table → table = .ofMembers H ask.witness.members

/-- What holds of every state of every run. -/
structure Fair (keys : C → UInt64 → P.G1Point) (w : World H C) : Prop where
  cache : w.cache.Valid
  beliefs : ∀ c, (w.beliefs c).Fair (keys c)
  asks : ∀ ask ∈ w.asks, ask.Fair (keys ask.client)

section Steps

variable {keys : UInt64 → P.G1Point} {belief : TableBelief H} {ask : Ask H C}

theorem TableBelief.Fair.forgotten : ({} : TableBelief H).Fair keys :=
  nofun

theorem TableBelief.Fair.reconcile (h : belief.Fair keys) (reported : Option H.TableDigest) :
    (belief.reconcile reported).Fair keys := by
  unfold TableBelief.reconcile
  split
  · exact .forgotten
  · exact h

theorem TableBelief.Fair.adopt (h : ∃ entries, ask.table.Leaves entries ∧ Keyed keys entries) :
    (belief.adopt ask.table).Fair keys := by
  obtain ⟨entries, hleaves, hkeyed⟩ := h
  intro digest hdigest
  rw [adopt_digest, hleaves.resultingDigest] at hdigest
  exact ⟨entries, Option.some.inj hdigest, hkeyed⟩

/-- A planned table is one of keys the client sees. -/
theorem TableBelief.Fair.plan (h : belief.Fair keys) {witness : CommitteeWitness P}
    (hseen : Seen keys witness) :
    ∃ entries, (belief.plan witness.members).Leaves entries ∧ Keyed keys entries := by
  unfold TableBelief.plan
  split
  · exact ⟨_, rfl, hseen.keyed_entries fun _ hm => hm⟩
  · next base hbase =>
      obtain ⟨before, hchain, hkeyed⟩ := h base hbase
      exact ⟨_, ⟨before, hchain, rfl⟩,
        hkeyed.append (hseen.keyed_entries fun _ hm => List.mem_of_mem_filter hm)⟩

/-- What a refused request is asked again on. -/
theorem TableBelief.Fair.settled (h : belief.Fair keys) (hask : ask.Fair keys) :
    ∃ entries, (belief.settled.getD ask.table).Leaves entries ∧ Keyed keys entries := by
  unfold TableBelief.settled
  cases hdigest : belief.digest with
  | none => exact hask.leaves
  | some base =>
      obtain ⟨before, hchain, hkeyed⟩ := h base hdigest
      exact ⟨before, ⟨before, hchain, (List.append_nil before).symm⟩, hkeyed⟩

theorem Ask.Fair.ofMembers (h : ask.Fair keys) :
    ∃ entries, (MemberTable.ofMembers H ask.witness.members).Leaves entries ∧
      Keyed keys entries :=
  ⟨_, rfl, h.seen.keyed_entries fun _ hm => hm⟩

end Steps

section Runs

variable {keys : C → UInt64 → P.G1Point} {w w' : World H C}

theorem Fair.start (capacity : ℕ) : Fair keys (World.start capacity : World H C) where
  cache := .withCapacity capacity
  beliefs _ := .forgotten
  asks _ h := absurd h List.not_mem_nil

theorem Fair.ask (h : Fair keys w) {i : ℕ} {ask : Ask H C} (hask : w.asks[i]? = some ask) :
    ask.Fair (keys ask.client) :=
  h.asks ask (List.mem_of_getElem? hask)

/-- Putting a fair request in the place of another one. -/
theorem Fair.set (h : Fair keys w) {i : ℕ} {ask : Ask H C} (hask : ask.Fair (keys ask.client))
    (a : Ask H C) (ha : a ∈ w.asks.set i ask) : a.Fair (keys a.client) := by
  rcases List.mem_or_eq_of_mem_set ha with ha | rfl
  · exact h.asks a ha
  · exact hask

theorem Fair.eraseIdx (h : Fair keys w) {i : ℕ} (a : Ask H C) (ha : a ∈ w.asks.eraseIdx i) :
    a.Fair (keys a.client) :=
  h.asks a (List.mem_of_mem_eraseIdx ha)

theorem Fair.rebuild (h : Fair keys w) (table : MemberTable H) (delta : CommitteeDelta P) :
    (w.cache.rebuild table delta).1.Valid := by
  unfold MemberCache.rebuild
  cases htake : w.cache.take table with
  | none => exact h.cache
  | some taken => exact h.cache.take htake

variable [DecidableEq C]

/-- A belief that changed for one client. -/
theorem Fair.update (h : Fair keys w) {c : C} {belief : TableBelief H}
    (hbelief : belief.Fair (keys c)) (c' : C) :
    (Function.update w.beliefs c belief c').Fair (keys c') := by
  rcases eq_or_ne c' c with rfl | hne
  · rw [Function.update_self]
    exact hbelief
  · rw [Function.update_of_ne hne]
    exact h.beliefs c'

theorem Fair.receive (h : Fair keys w) {i : ℕ} {ask : Ask H C} (hask : w.asks[i]? = some ask)
    (reply : Reply) : Fair keys (w.receive i ask reply) := by
  have hfair := h.ask hask
  cases reply with
  | needMemberTable =>
      unfold World.receive
      cases heveryKey : ask.withTable with
      | none => exact ⟨h.cache, h.beliefs, h.eraseIdx⟩
      | some everyKey =>
          obtain rfl := hfair.fallback everyKey heveryKey
          exact ⟨h.cache, h.beliefs,
            h.set ⟨hfair.seen, hfair.encoded, hfair.ofMembers, nofun⟩⟩
  | proved => exact ⟨h.cache, h.update (.adopt hfair.leaves), h.eraseIdx⟩
  | failed =>
      exact ⟨h.cache, h.update (.adopt hfair.leaves),
        h.set ⟨hfair.seen, hfair.encoded, hfair.leaves, hfair.fallback⟩⟩

/-- **Every step keeps it**: nothing a client is told makes it name another's keys. -/
theorem Fair.step (h : Fair keys w) {e : Event H C} (hstep : w.step keys e = some w') :
    Fair keys w' := by
  cases e with
  | plan client witness =>
      simp only [World.step] at hstep
      split at hstep
      · next hseen =>
          obtain ⟨delta, hdelta, hret⟩ := Option.bind_eq_some_iff.mp hstep
          obtain rfl := Option.some.inj hret
          refine ⟨h.cache, h.beliefs, fun a ha => ?_⟩
          rcases List.mem_append.mp ha with ha | ha
          · exact h.asks a ha
          · obtain rfl := List.mem_singleton.mp ha
            refine ⟨hseen, hdelta, (h.beliefs client).plan hseen, fun table htable => ?_⟩
            simp only [MemberTable.fallback] at htable
            split at htable
            · cases htable
            · exact (Option.some.inj htable).symm
      · cases hstep
  | serve i refuse =>
      obtain ⟨ask, hask, hret⟩ := Option.bind_eq_some_iff.mp hstep
      obtain rfl := Option.some.inj hret
      have hfair := h.ask hask
      exact ⟨h.rebuild ask.table ask.delta, h.beliefs,
        h.set ⟨hfair.seen, hfair.encoded, hfair.leaves, hfair.fallback⟩⟩
  | lose i =>
      obtain ⟨ask, hask, hret⟩ := Option.bind_eq_some_iff.mp hstep
      obtain rfl := Option.some.inj hret
      have hfair := h.ask hask
      exact ⟨h.cache, h.beliefs, h.set ⟨hfair.seen, hfair.encoded, hfair.leaves, hfair.fallback⟩⟩
  | receive i =>
      obtain ⟨ask, hask, hrest⟩ := Option.bind_eq_some_iff.mp hstep
      obtain ⟨reply, -, hret⟩ := Option.bind_eq_some_iff.mp hrest
      obtain rfl := Option.some.inj hret
      exact h.receive hask reply
  | again i =>
      obtain ⟨ask, hask, hrest⟩ := Option.bind_eq_some_iff.mp hstep
      simp only at hrest
      split at hrest
      · obtain rfl := Option.some.inj hrest
        have hfair := h.ask hask
        exact ⟨h.cache, h.beliefs, h.set ⟨hfair.seen, hfair.encoded,
          (h.beliefs ask.client).settled hfair, hfair.fallback⟩⟩
      · cases hrest
  | drop i =>
      obtain rfl := Option.some.inj hstep
      exact ⟨h.cache, h.beliefs, h.eraseIdx⟩
  | handshake client reported =>
      obtain rfl := Option.some.inj hstep
      exact ⟨h.cache, h.update ((h.beliefs client).reconcile reported), h.asks⟩
  -- the server forgets, the clients do not
  | restart =>
      obtain rfl := Option.some.inj hstep
      exact ⟨.withCapacity _, h.beliefs, h.asks⟩

/-- Every run, whatever its order. -/
theorem Fair.reached {meets : World H C → Event H C → Prop} {capacity : ℕ}
    (h : Reached (World.step keys) meets (World.start capacity) w) : Fair keys w :=
  h.invariant (Fair keys) (.start capacity) fun _ _ _ hfair _ hstep => hfair.step hstep

omit [DecidableEq C] in
/-- **What a request in flight is decoded against**: nothing, where the server asks for
the table, or the entries the request says it leaves. -/
theorem Fair.rebuilt (hH : H.CollisionFree) (h : Fair keys w) {ask : Ask H C}
    (hask : ask ∈ w.asks) :
    w.cache.take ask.table = none ∧ (w.cache.rebuild ask.table ask.delta).2 = .ok none ∨
    ∃ entries, ask.table.Leaves entries ∧ Keyed (keys ask.client) entries ∧
      (w.cache.rebuild ask.table ask.delta).2 =
        (decode ask.delta (Held.ofEntries entries : Held H).pubkeys).map some := by
  obtain ⟨entries, hleaves, hkeyed⟩ := (h.asks ask hask).leaves
  unfold MemberCache.rebuild
  cases htake : w.cache.take ask.table with
  | none => exact .inl ⟨rfl, rfl⟩
  | some taken =>
      obtain ⟨cache, resident⟩ := taken
      obtain rfl := MemberCache.take_leaves hH h.cache hleaves htake
      exact .inr ⟨entries, hleaves, hkeyed, rfl⟩

omit [DecidableEq C] in
/-- **A rebuilt witness is the client's own**, never one with another client's keys. -/
theorem Fair.own (hH : H.CollisionFree) (h : Fair keys w) {ask : Ask H C} (hask : ask ∈ w.asks)
    {witness : CommitteeWitness P}
    (hrebuilt : (w.cache.rebuild ask.table ask.delta).2 = .ok (some witness)) :
    witness = ask.witness := by
  have hfair := h.asks ask hask
  rcases h.rebuilt hH hask with ⟨-, hnone⟩ | ⟨entries, -, hkeyed, hsome⟩
  · rw [hnone] at hrebuilt
    cases hrebuilt
  · rw [hsome, hfair.seen.outcome hfair.encoded hkeyed] at hrebuilt
    split at hrebuilt
    · exact (Option.some.inj (Except.ok.inj hrebuilt)).symm
    · cases hrebuilt

omit [DecidableEq C] in
/-- A client that has forgotten what the server holds is served whatever it holds. -/
theorem Fair.forgotten (hH : H.CollisionFree) (h : Fair keys w) {c : C}
    {witness : CommitteeWitness P} (hseen : Seen (keys c) witness) {delta : CommitteeDelta P}
    (hencode : encode witness = some delta) :
    (w.cache.rebuild (({} : TableBelief H).plan witness.members) delta).2 = .ok (some witness) := by
  have hkeyed := hseen.keyed_entries fun _ hm => hm
  show (w.cache.rebuild (.full (witness.members.map entry)) delta).2 = _
  unfold MemberCache.rebuild
  cases htake : w.cache.take (.full (witness.members.map entry)) with
  | none =>
      obtain ⟨_, _, habsurd, -⟩ := MemberCache.take_eq_none.mp htake
      cases habsurd
  | some taken =>
      obtain ⟨cache, resident⟩ := taken
      have hleaves : (MemberTable.full (witness.members.map entry) : MemberTable H).Leaves
          (witness.members.map entry) := rfl
      obtain rfl := MemberCache.take_leaves hH h.cache hleaves htake
      show (decode delta (Held.ofEntries _ : Held H).pubkeys).map some = _
      rw [hseen.covered hencode hkeyed]
      · rfl
      · intro m hm
        rw [List.map_map]
        exact List.mem_map_of_mem hm

end Runs

/-! ## Keys that are not missed -/

/-- A belief that marks no key as sent but those of the table it names. -/
structure TableBelief.Marked (belief : TableBelief H) : Prop where
  named : ∀ entries, belief.digest = some (H.chain entries) →
    ∀ j, belief.holds j = true → j ∈ entries.map TableEntry.validatorIndex
  unnamed : belief.digest = none → ∀ j, belief.holds j = false

/-- A request on a table that has its members' keys. -/
def Ask.Covered (ask : Ask H C) : Prop :=
  ∀ entries, ask.table.Leaves entries →
    ∀ m ∈ ask.witness.members, m.validatorIndex ∈ entries.map TableEntry.validatorIndex

/-- What holds of every state of a run that records answers where they belong. -/
structure Covered (w : World H C) : Prop where
  beliefs : ∀ c, (w.beliefs c).Marked
  asks : ∀ ask ∈ w.asks, ask.Covered

/-- Nothing has been recorded in a belief since it was `base`, but that it may have been
forgotten. -/
def TableBelief.Unmoved (belief : TableBelief H) (base : H.TableDigest) : Prop :=
  belief.digest = none ∨ belief.digest = some base

instance (belief : TableBelief H) (base : H.TableDigest) : Decidable (belief.Unmoved base) :=
  inferInstanceAs (Decidable (_ ∨ _))

/-- An answer that may be recorded: a whole table on any belief, an appended one on the
belief it was planned from. A request for the table records nothing. -/
def Ask.Recordable (ask : Ask H C) (belief : TableBelief H) : Prop :=
  match ask.table with
  | .full _ => True
  | .append base _ => ask.answer = some .needMemberTable ∨ belief.Unmoved base

instance (ask : Ask H C) (belief : TableBelief H) : Decidable (ask.Recordable belief) := by
  unfold Ask.Recordable
  split <;> infer_instance

/-- The condition on a step: an answer is recorded on the belief its request was planned
from, and a refused request is asked again while the belief is the one its answer left. -/
def Unmoved (w : World H C) : Event H C → Prop
  | .receive i => ∀ ask ∈ w.asks[i]?, ask.Recordable (w.beliefs ask.client)
  | .again i => ∀ ask ∈ w.asks[i]?, (w.beliefs ask.client).Unmoved ask.table.resultingDigest
  | _ => True

instance (w : World H C) (e : Event H C) : Decidable (Unmoved w e) := by
  unfold Unmoved
  split <;> infer_instance

section Marks

variable {belief : TableBelief H} {ask : Ask H C}

theorem TableBelief.Marked.forgotten : ({} : TableBelief H).Marked :=
  ⟨nofun, fun _ _ => rfl⟩

theorem TableBelief.Marked.reconcile (h : belief.Marked) (reported : Option H.TableDigest) :
    (belief.reconcile reported).Marked := by
  unfold TableBelief.reconcile
  split
  · exact .forgotten
  · exact h

/-- A planned request names a table with every member's key: the ones it does not add
were marked. -/
theorem TableBelief.Marked.plan (h : belief.Marked) {members : List (CommitteeMember P)}
    {entries : List (TableEntry P)} (hleaves : (belief.plan members).Leaves entries) :
    ∀ m ∈ members, m.validatorIndex ∈ entries.map TableEntry.validatorIndex := by
  intro m hm
  unfold TableBelief.plan at hleaves
  split at hleaves
  · obtain rfl := hleaves
    rw [List.map_map]
    exact List.mem_map_of_mem hm
  · next base hbase =>
      obtain ⟨before, rfl, rfl⟩ := hleaves
      rw [List.map_append, List.mem_append]
      cases hholds : belief.holds m.validatorIndex with
      | true => exact .inl (h.named before hbase _ hholds)
      | false =>
          apply Or.inr
          rw [List.map_map]
          exact List.mem_map_of_mem (List.mem_filter.mpr ⟨hm, by simp [hholds]⟩)

/-- **Recording an answer** on a belief its request was planned from. -/
theorem TableBelief.Marked.adopt (hH : H.CollisionFree) (h : belief.Marked)
    (hleaves : ∃ entries, ask.table.Leaves entries)
    (hunmoved : ∀ base added, ask.table = .append base added → belief.Unmoved base) :
    (belief.adopt ask.table).Marked := by
  obtain ⟨entries, hleaves⟩ := hleaves
  refine ⟨fun es hes j hj => ?_, nofun⟩
  rw [adopt_digest, hleaves.resultingDigest] at hes
  obtain rfl := hH (Option.some.inj hes)
  cases htable : ask.table with
  | full every =>
      rw [htable] at hleaves hj
      obtain rfl := hleaves
      exact TableBelief.holds_adopt_full.mp hj
  | append base added =>
      rw [htable] at hleaves hj
      obtain ⟨before, rfl, rfl⟩ := hleaves
      rw [List.map_append, List.mem_append]
      rcases TableBelief.holds_adopt_append.mp hj with hadded | hbefore
      · exact .inr hadded
      · rcases hunmoved _ _ htable with hnone | hbase
        · rw [h.unnamed hnone] at hbefore
          cases hbefore
        · exact .inl (h.named before hbase j hbefore)

/-- Asking again on the table the answer left. -/
theorem Ask.Covered.settled (hH : H.CollisionFree) (h : ask.Covered)
    (hleaves : ∃ entries, ask.table.Leaves entries)
    (hunmoved : belief.Unmoved ask.table.resultingDigest) {entries : List (TableEntry P)}
    (hsettled : (belief.settled.getD ask.table).Leaves entries) :
    ∀ m ∈ ask.witness.members, m.validatorIndex ∈ entries.map TableEntry.validatorIndex := by
  obtain ⟨left, hleft⟩ := hleaves
  unfold TableBelief.settled at hsettled
  rcases hunmoved with hnone | hbase
  · rw [hnone] at hsettled
    exact h entries hsettled
  · rw [hbase] at hsettled
    obtain ⟨before, hchain, rfl⟩ := hsettled
    rw [hleft.resultingDigest] at hchain
    obtain rfl := hH hchain
    rw [List.append_nil]
    exact h before hleft

theorem Ask.Covered.ofMembers {members : List (CommitteeMember P)} {entries : List (TableEntry P)}
    (hleaves : (MemberTable.ofMembers H members).Leaves entries) :
    ∀ m ∈ members, m.validatorIndex ∈ entries.map TableEntry.validatorIndex := by
  obtain rfl := hleaves
  intro m hm
  rw [List.map_map]
  exact List.mem_map_of_mem hm

end Marks

section UnmovedRuns

variable {keys : C → UInt64 → P.G1Point} {w w' : World H C}

theorem Covered.start (capacity : ℕ) : Covered (World.start capacity : World H C) where
  beliefs _ := .forgotten
  asks _ h := absurd h List.not_mem_nil

theorem Covered.ask (h : Covered w) {i : ℕ} {ask : Ask H C} (hask : w.asks[i]? = some ask) :
    ask.Covered :=
  h.asks ask (List.mem_of_getElem? hask)

theorem Covered.set (h : Covered w) {i : ℕ} {ask : Ask H C} (hask : ask.Covered) (a : Ask H C)
    (ha : a ∈ w.asks.set i ask) : a.Covered := by
  rcases List.mem_or_eq_of_mem_set ha with ha | rfl
  · exact h.asks a ha
  · exact hask

theorem Covered.eraseIdx (h : Covered w) {i : ℕ} (a : Ask H C) (ha : a ∈ w.asks.eraseIdx i) :
    a.Covered :=
  h.asks a (List.mem_of_mem_eraseIdx ha)

variable [DecidableEq C]

theorem Covered.update (h : Covered w) {c : C} {belief : TableBelief H} (hbelief : belief.Marked)
    (c' : C) : (Function.update w.beliefs c belief c').Marked := by
  rcases eq_or_ne c' c with rfl | hne
  · rw [Function.update_self]
    exact hbelief
  · rw [Function.update_of_ne hne]
    exact h.beliefs c'

theorem Covered.receive (hH : H.CollisionFree) (hfair : Fair keys w) (h : Covered w) {i : ℕ}
    {ask : Ask H C} (hask : w.asks[i]? = some ask) {reply : Reply}
    (hanswer : ask.answer = some reply) (hunmoved : Unmoved w (.receive i)) :
    Covered (w.receive i ask reply) := by
  obtain ⟨entries, hleaves, -⟩ := (hfair.ask hask).leaves
  have hadopt : reply ≠ .needMemberTable →
      ((w.beliefs ask.client).adopt ask.table).Marked := by
    intro hreply
    refine (h.beliefs ask.client).adopt hH ⟨entries, hleaves⟩ fun base added htable => ?_
    have hrecordable : ask.Recordable (w.beliefs ask.client) := hunmoved ask hask
    rw [Ask.Recordable, htable, hanswer] at hrecordable
    exact hrecordable.resolve_left fun habsurd => hreply (Option.some.inj habsurd)
  cases reply with
  | needMemberTable =>
      unfold World.receive
      cases heveryKey : ask.withTable with
      | none => exact ⟨h.beliefs, h.eraseIdx⟩
      | some everyKey =>
          obtain rfl := (hfair.ask hask).fallback everyKey heveryKey
          exact ⟨h.beliefs, h.set fun _ hleft => Ask.Covered.ofMembers hleft⟩
  | proved => exact ⟨h.update (hadopt nofun), h.eraseIdx⟩
  | failed => exact ⟨h.update (hadopt nofun), h.set fun entries hleft => h.ask hask entries hleft⟩

/-- **A step that meets the condition keeps it.** -/
theorem Covered.step (hH : H.CollisionFree) (hfair : Fair keys w) (h : Covered w)
    {e : Event H C} (hunmoved : Unmoved w e) (hstep : w.step keys e = some w') : Covered w' := by
  cases e with
  | plan client witness =>
      simp only [World.step] at hstep
      split at hstep
      · obtain ⟨delta, -, hret⟩ := Option.bind_eq_some_iff.mp hstep
        obtain rfl := Option.some.inj hret
        refine ⟨h.beliefs, fun a ha => ?_⟩
        rcases List.mem_append.mp ha with ha | ha
        · exact h.asks a ha
        · obtain rfl := List.mem_singleton.mp ha
          exact fun entries hleaves => (h.beliefs client).plan hleaves
      · cases hstep
  | serve i refuse =>
      obtain ⟨ask, hask, hret⟩ := Option.bind_eq_some_iff.mp hstep
      obtain rfl := Option.some.inj hret
      exact ⟨h.beliefs, h.set fun entries hleft => h.ask hask entries hleft⟩
  | lose i =>
      obtain ⟨ask, hask, hret⟩ := Option.bind_eq_some_iff.mp hstep
      obtain rfl := Option.some.inj hret
      exact ⟨h.beliefs, h.set fun entries hleft => h.ask hask entries hleft⟩
  | receive i =>
      obtain ⟨ask, hask, hrest⟩ := Option.bind_eq_some_iff.mp hstep
      obtain ⟨reply, hanswer, hret⟩ := Option.bind_eq_some_iff.mp hrest
      obtain rfl := Option.some.inj hret
      exact h.receive hH hfair hask hanswer hunmoved
  | again i =>
      obtain ⟨ask, hask, hrest⟩ := Option.bind_eq_some_iff.mp hstep
      simp only at hrest
      split at hrest
      · obtain rfl := Option.some.inj hrest
        obtain ⟨entries, hleaves, -⟩ := (hfair.ask hask).leaves
        exact ⟨h.beliefs, h.set fun _ hsettled =>
          (h.ask hask).settled hH ⟨entries, hleaves⟩ (hunmoved ask hask) hsettled⟩
      · cases hrest
  | drop i =>
      obtain rfl := Option.some.inj hstep
      exact ⟨h.beliefs, h.eraseIdx⟩
  | handshake client reported =>
      obtain rfl := Option.some.inj hstep
      exact ⟨h.update ((h.beliefs client).reconcile reported), h.asks⟩
  | restart =>
      obtain rfl := Option.some.inj hstep
      exact ⟨h.beliefs, h.asks⟩

/-- Every run whose steps meet the condition. -/
theorem Covered.reached (hH : H.CollisionFree) {capacity : ℕ}
    (h : Reached (World.step keys) Unmoved (World.start capacity) w) : Covered w := by
  have hboth : Fair keys w ∧ Covered w :=
    h.invariant (fun w => Fair keys w ∧ Covered w) ⟨.start capacity, .start capacity⟩
      fun _ _ _ hinv hunmoved hstep =>
        ⟨hinv.1.step hstep, hinv.2.step hH hinv.1 hunmoved hstep⟩
  exact hboth.2

end UnmovedRuns

/-! ## What a client can count on -/

/-- What the server does with any request in flight, and with one made anew. -/
structure Right (keys : C → UInt64 → P.G1Point) (w : World H C) : Prop where
  /-- A rebuilt witness is the one its client encoded. -/
  own : ∀ ask ∈ w.asks, ∀ witness,
    (w.cache.rebuild ask.table ask.delta).2 = .ok (some witness) → witness = ask.witness
  /-- No request is answered with a key that is missing. -/
  unblamed : ∀ ask ∈ w.asks, ∀ index,
    (w.cache.rebuild ask.table ask.delta).2 ≠ .error (noPublicKey index)
  /-- A request on a base that is not held is asked for the table. -/
  asked : ∀ ask ∈ w.asks, ∀ base added, ask.table = .append base added →
    w.cache.holds base = false → (w.cache.rebuild ask.table ask.delta).2 = .ok none
  /-- A client that has forgotten its belief is served. -/
  forgotten : ∀ client witness delta, Seen (keys client) witness → encode witness = some delta →
    (w.cache.rebuild (({} : TableBelief H).plan witness.members) delta).2 = .ok (some witness)

/-- A request on a base that is not held is asked for the table, whatever else holds. -/
theorem rebuild_eq_none {cache : MemberCache H} {base : H.TableDigest}
    {added : List (TableEntry P)} (hnot : cache.holds base = false) (delta : CommitteeDelta P) :
    (cache.rebuild (.append base added) delta).2 = .ok none := by
  unfold MemberCache.rebuild
  rw [MemberCache.take_eq_none.mpr ⟨base, added, rfl, hnot⟩]

/-- A request whose table has its members' keys is never answered with an error. -/
theorem Fair.rebuild_ne_error {keys : C → UInt64 → P.G1Point} {w : World H C}
    (hH : H.CollisionFree) (h : Fair keys w) {ask : Ask H C} (hask : ask ∈ w.asks)
    (hcovered : ask.Covered) (message : String) :
    (w.cache.rebuild ask.table ask.delta).2 ≠ .error message := by
  rcases h.rebuilt hH hask with ⟨-, hnone⟩ | ⟨entries, hleaves, hkeyed, hsome⟩
  · rw [hnone]
    exact nofun
  · have hfair := h.asks ask hask
    rw [hsome, hfair.seen.covered hfair.encoded hkeyed (hcovered entries hleaves)]
    exact nofun

/-- **What runs that record answers where they belong can count on**: the whole of it,
in every state they reach. -/
theorem reached_right [DecidableEq C] {keys : C → UInt64 → P.G1Point} (hH : H.CollisionFree)
    (capacity : ℕ) {w : World H C}
    (h : Reached (World.step keys) Unmoved (World.start capacity) w) : Right keys w where
  own _ hask _ := (Fair.reached h).own hH hask
  unblamed ask hask _ :=
    (Fair.reached h).rebuild_ne_error hH hask ((Covered.reached hH h).asks ask hask) _
  asked ask _ base added htable hnot := by
    rw [htable]
    exact rebuild_eq_none hnot ask.delta
  forgotten _ _ _ hseen hencode := (Fair.reached h).forgotten hH hseen hencode

/-- The only error a request in flight is answered with blames a missing key. -/
theorem Fair.blames {keys : C → UInt64 → P.G1Point} {w : World H C} (hH : H.CollisionFree)
    (h : Fair keys w) {ask : Ask H C} (hask : ask ∈ w.asks) {message : String}
    (herror : (w.cache.rebuild ask.table ask.delta).2 = .error message) :
    ∃ index, message = noPublicKey index := by
  have hfair := h.asks ask hask
  rcases h.rebuilt hH hask with ⟨-, hnone⟩ | ⟨entries, -, hkeyed, hsome⟩
  · rw [hnone] at herror
    cases herror
  · rw [hsome, hfair.seen.outcome hfair.encoded hkeyed] at herror
    split at herror
    · cases herror
    · next m _ => exact ⟨m.validatorIndex, (Except.error.inj herror).symm⟩

/-! ## Two requests of one client -/

section Overlap

/-- Every index has the same key. -/
def oneKey : Unit → UInt64 → (Formal.formal {}).G1Point := fun _ _ => Formal.key 0

/-- A witness of some members, all in slot 0 with 32 ETH. -/
def witnessOf (indices : List UInt64) : CommitteeWitness (Formal.formal {}) where
  accumulatorCommitment := .zero
  targetEpoch := 0
  accRoot := .zero
  totalActiveBalance := 0
  accMultiProof := []
  members := indices.map fun index => ⟨index, Formal.key 0, 32, 0⟩

abbrev OneClient := World (TableHash.free (Formal.formal {})) Unit

/-- A whole table, and an epoch's activation on top of it. -/
def growth : List (Event (TableHash.free (Formal.formal {})) Unit) :=
  [.plan () (witnessOf [1]), .serve 0 false, .receive 0,
   .plan () (witnessOf [1, 2]), .serve 0 true, .receive 0, .again 0, .serve 0 false]

/-- The epoch's activation is served, refused, and served again. -/
theorem reached_right_growth :
    ∃ w : OneClient, w.asks.length = 1 ∧ Right oneKey w := by
  have hruns : ∃ w, run (World.step oneKey) Unmoved (World.start 3 : OneClient) growth = some w ∧
      w.asks.length = 1 := by decide +kernel
  obtain ⟨w, hrun, hasks⟩ := hruns
  exact ⟨w, hasks, reached_right TableHash.free_collisionFree 3 (Reached.of_run hrun)⟩

/-- Two requests planned on one belief. The server takes the first, is asked the second
and needs its whole table; that answer is recorded, and then the first one's is. -/
def overlap : List (Event (TableHash.free (Formal.formal {})) Unit) :=
  [.plan () (witnessOf [1]), .serve 0 false, .receive 0,
   .plan () (witnessOf [1, 2]), .plan () (witnessOf [1, 3]),
   .serve 0 false, .serve 1 false, .receive 1, .serve 1 false, .receive 1, .receive 0,
   .plan () (witnessOf [1, 2, 3])]

/-- The request in flight is blamed for a key that the table it names never had. -/
theorem not_reached_right :
    (TableHash.free (Formal.formal {})).CollisionFree ∧
      ¬ ∀ w : OneClient, Reached (World.step oneKey) always (World.start 3) w →
        Right oneKey w := by
  refine ⟨TableHash.free_collisionFree, fun hright => ?_⟩
  have hruns : ∃ w, run (World.step oneKey) always (World.start 3 : OneClient) overlap = some w ∧
      ∃ ask ∈ w.asks, (w.cache.rebuild ask.table ask.delta).2.isOk = false := by
    decide +kernel
  obtain ⟨w, hrun, ask, hask, hnot⟩ := hruns
  have hreached : Reached (World.step oneKey) always (World.start 3) w := .of_run hrun
  cases herror : (w.cache.rebuild ask.table ask.delta).2 with
  | ok rebuilt => simp [herror, Except.isOk, Except.toBool] at hnot
  | error message =>
      obtain ⟨index, rfl⟩ :=
        (Fair.reached hreached).blames TableHash.free_collisionFree hask herror
      exact (hright w hreached).unblamed ask hask index herror

end Overlap

end Zkasper.CommitteeCache
