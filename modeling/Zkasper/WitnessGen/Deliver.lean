import Zkasper.WitnessGen.MemberTable
import Zkasper.WitnessGen.RemoteProver

/-! # One request to the prover

`deliver` asks a server for one proof and decides what the run is left with: the proof,
the empty proof that lets an epoch go by unproven, or an error that stops the daemon.
The server, the link, the clock and the thread that drains the spool are outside, and
`Outside` is whatever they do.

`deliver_iff` says for which requests no behaviour of theirs makes `deliver` hand back
what it should not: an empty proof for a stage whose proof is kept in the store, or one
counted as proved. -/

namespace Zkasper.RemoteProver

open CommitteeCache

variable {P : Primitives} {H : TableHash P}

/-! ## Requests -/

variable (H) in
inductive Request where
  | prove (stage : Stage) (witness : List UInt8)
  /-- The committee witness, with the public keys named rather than sent. -/
  | proveCommittee (table : MemberTable H) (delta : CommitteeDelta P)
      (witnessDigest : H.TableDigest)

/-- How large the frame a request will send is, near enough to judge against the cap. -/
def Request.bytes : Request H → ℕ
  | prove _ witness => witness.length
  | proveCommittee table delta _ =>
      table.entries.length * (8 + 96) + delta.indexGaps.length + delta.slots.length +
        delta.balanceIds.length + delta.balances.length * 8 + delta.accMultiProof.length * 32

variable (H) in
/-- One request, with whatever this end must keep in case the far end will not take it
as sent. -/
structure Delivery where
  request : Request H
  /-- The whole witness, for a request that does not carry it. -/
  spoolBytes : Option (List UInt8)
  /-- Every key, for a server that turns out to hold none of them. -/
  withTable : Option (MemberTable H)
  carries : ∀ table delta digest, request = .proveCommittee table delta digest →
    spoolBytes.isSome = true

/-- The witness, whole: a request without it is delivered with the bytes it stands for. -/
def Delivery.whole (delivery : Delivery H) : List UInt8 :=
  match hbytes : delivery.spoolBytes, hrequest : delivery.request with
  | some bytes, _ => bytes
  | none, .prove _ witness => witness
  | none, .proveCommittee table delta digest =>
      absurd (delivery.carries table delta digest hrequest) (by simp [hbytes])

/-! ## What is outside -/

/-- What went wrong with the link, and whether it was silence. -/
structure LinkError where
  timeout : Bool
  text : String

variable (H) in
/-- One round trip: what a fresh handshake reported, where one was made, and what came
back. -/
structure Trip where
  reported : Option (Option H.TableDigest)
  reply : Except LinkError Reply

variable (H) in
/-- What the rest of the world does, in the order it is met. -/
structure Outside where
  trip : ℕ → Trip H
  clock : ℕ → ℕ
  /-- The prover declared gone by the other thread, at each look. -/
  declared : ℕ → Option String
  unixMillis : ℕ
  /-- Whether the spool's directory takes a file. -/
  writes : Bool

structure Config where
  maxRequestBytes : ℕ
  /-- Zero never stops. -/
  unreachableDeadline : ℕ
  spoolDir : Option String
  /-- `{:.1?}` of a duration. -/
  showDuration : ℕ → String

variable (H) in
/-- The client's state. When the foreground was last active is not part of it: only
when a backfill pass may start depends on that. -/
structure Inner where
  judge : Judge
  config : Config
  /-- The first failure since the last frame that came back. -/
  since : Option ℕ := none
  /-- Why the daemon is stopping, once the prover has been declared gone. -/
  gone : Option String := none
  spool : Option Spool := none
  members : TableBelief H := {}
  lastCost : Option ProveCost := none
  counters : Counters := {}
  /-- Round trips made. -/
  trips : ℕ := 0
  /-- Times `gone` was looked at. -/
  looks : ℕ := 0

namespace Inner

variable (outside : Outside H) (s : Inner H)

/-- Whether the prover has been declared gone, by this thread or the other. -/
def look : Option String × Inner H :=
  let gone := s.gone <|> outside.declared s.looks
  (gone, { s with gone, looks := s.looks + 1 })

/-- One round trip. A redial on the way reconciles the belief with what the server
reports. -/
def roundtrip : Except LinkError Reply × Inner H :=
  let trip := outside.trip s.trips
  let members :=
    match trip.reported with
    | some reported => s.members.reconcile reported
    | none => s.members
  (trip.reply, { s with members, trips := s.trips + 1 })

/-- The prover did not answer. Start the clock, or decide it has run out. -/
def noteFailure : Inner H :=
  if s.gone.isSome then s
  else
    let now := outside.clock s.trips
    let since := s.since.getD now
    let down := now - since
    let limit := s.config.unreachableDeadline
    if limit = 0 ∨ down < limit then { s with since := some since }
    else
      let spool :=
        match s.config.spoolDir with
        | some dir => s!"the witnesses spooled at {dir} drain on the next run"
        | none => "no spool was configured, so the epochs it spanned have no proofs"
      { s with
        since := some since
        gone := some (s!"the prover at {s.judge.addr} has been unreachable for " ++
          s!"{s.config.showDuration down}, past the {s.config.showDuration limit} this run " ++
          "allows; it is gone rather than restarting, so zkasperd is stopping instead of " ++
          "spooling witnesses nothing will prove. Check the prover server on that machine " ++
          s!"and start zkasperd again -- {spool}") }

/-- The prover answered, so whatever outage was running is over. -/
def noteReachable : Inner H := { s with since := none }

def noteTimeout (error : LinkError) : Inner H :=
  if error.timeout
  then { s with counters := { s.counters with timedOut := s.counters.timedOut + 1 } } else s

/-- The retry on a fresh connection: the failure that is reported is the first one. -/
def retry (first : LinkError) : Except LinkError Reply × Inner H :=
  match s.roundtrip outside with
  | (.ok reply, s) => (.ok reply, s.noteReachable)
  | (.error _, s) => (.error first, s.noteFailure outside)

/-- One request, with one retry. What is asked does not matter to what the outside may
answer. -/
def attempt : Except LinkError Reply × Inner H :=
  match s.roundtrip outside with
  | (.ok reply, s) => (.ok reply, s.noteReachable)
  | (.error first, s) => (s.noteTimeout first).retry outside first

/-- A stage came back with no proof. -/
def noteUnproven : Inner H :=
  { s with
    lastCost := none
    counters := { s.counters with unproven := s.counters.unproven + 1 } }

/-- Spool a witness the prover did not answer for, where there is a spool. -/
def keep (stage : Stage) (witness publics : List UInt8) : Option (Inner H) :=
  let s := s.noteUnproven
  match s.spool with
  | none => some s
  | some spool => do
      let (spool, counters) ← spool.push s.counters
        { stage, witness, publics, unixMillis := outside.unixMillis } outside.writes
      return { s with spool := some spool, counters }

/-! ## The phases of a delivery -/

/-- Times a link that failed to carry the ask is tried again. -/
def linkRetries : ℕ := 3

/-- Ask again after a pause, never after a timeout and never a prover that is gone. -/
def relink : ℕ → Except LinkError Reply × Inner H → Except LinkError Reply × Inner H
  | 0, asked => asked
  | tries + 1, (.error e, s) =>
      if e.timeout then (.error e, s)
      else
        match s.look outside with
        | (some _, s) => (.error e, s)
        | (none, s) => relink tries (s.attempt outside)
  | _ + 1, (.ok reply, s) => (.ok reply, s)

/-- The first ask, and for a stage that cannot carry on without an answer the retries. -/
def ask (stage : Stage) : Except LinkError Reply × Inner H :=
  if stage.isPersisted then relink outside linkRetries (s.attempt outside) else s.attempt outside

variable (H) in
/-- A request that has been asked: as it was last sent, and what came of it. -/
structure Asked where
  request : Request H
  result : Except LinkError Reply
  s : Inner H

/-- A server that holds no such table is sent every key, once. -/
def resend (delivery : Delivery H) (result : Except LinkError Reply) :
    Except String (Asked H) :=
  match result with
  | .ok .needMemberTable =>
      match delivery.request, delivery.withTable with
      | .proveCommittee _ delta digest, some everyKey =>
          let (result, s) := s.attempt outside
          .ok ⟨.proveCommittee everyKey delta digest, result, s⟩
      | _, _ =>
          .error s!"the prover at {s.judge.addr} asked for a member table that was already sent"
  | result => .ok ⟨delivery.request, result, s⟩

/-- Any answer but a request for the table is proof that the server took these keys. -/
def record (asked : Asked H) : Asked H :=
  match asked.result, asked.request with
  | .ok .needMemberTable, _ => asked
  | .ok _, .proveCommittee table _ _ =>
      { asked with s := { asked.s with members := asked.s.members.adopt table } }
  | _, _ => asked

/-- The request a refused witness is offered again with: it names the table that the
first ask left. -/
def settle (members : TableBelief H) (request : Request H) : Request H :=
  match request, members.settled with
  | .proveCommittee _ delta digest, some settled => .proveCommittee settled delta digest
  | request, _ => request

/-- A refused witness is offered once more, and once only. -/
def askAgain (asked : Asked H) : Asked H :=
  match asked.result with
  | .ok (.failed _) =>
      let (result, s) := asked.s.attempt outside
      ⟨settle asked.s.members asked.request, result, s⟩
  | _ => asked

/-- What the last answer leaves the run with. `none` is a spool that never makes room. -/
def finish (stage : Stage) (delivery : Delivery H) (publics : List UInt8)
    (result : Except LinkError Reply) : Option (Except String Proof × Inner H) :=
  match result with
  | .ok (.proved proof cost) =>
      match s.judge.accept stage proof publics with
      | .error message => some (.error message, s)
      | .ok () =>
          some (.ok proof,
            { s with
              lastCost := some cost
              counters := { s.counters with proved := s.counters.proved + 1 } })
  | .ok (.failed reason) =>
      some (.error
        s!"the prover at {s.judge.addr} refused the {stage.asStr} witness: {reason}", s)
  | .ok .needMemberTable =>
      some (.error (s!"the prover at {s.judge.addr} asked for a member table it had just been " ++
        "given; it is restarting under the run"), s)
  | .error _ => do
      let s ← s.keep outside stage delivery.whole publics
      match s.look outside with
      | (some why, s) => return (.error why, s)
      | (none, s) =>
          if stage.isPersisted then
            return (.error (s!"the {stage.asStr} proof is persisted and verified by a later " ++
              "epoch, so carrying on without one would poison the store past a restart"), s)
          else return (.ok [], s)

/-- Send one request, and keep the epoch on any answer that leaves one to keep. -/
def deliver (stage : Stage) (delivery : Delivery H) (publics : List UInt8) :
    Option (Except String Proof × Inner H) :=
  match s.look outside with
  | (some why, s) => some (.error why, s)
  | (none, s) =>
      if s.config.maxRequestBytes < delivery.request.bytes then
        some (.ok [], s.noteUnproven)
      else
        let (result, s) := s.ask outside stage
        match s.resend outside delivery result with
        | .error message => some (.error message, s)
        | .ok asked =>
            let asked := askAgain outside (record asked)
            asked.s.finish outside stage delivery publics asked.result

/-! ## What the phases leave alone -/

/-- The same end of the link, with the same spool and nothing more counted as proved or
unproven. -/
structure Same (s s' : Inner H) : Prop where
  judge : s'.judge = s.judge
  config : s'.config = s.config
  spool : s'.spool = s.spool
  proved : s'.counters.proved = s.counters.proved
  unproven : s'.counters.unproven = s.counters.unproven

/-- A reply that came off the link. -/
def FromTrip (outside : Outside H) (result : Except LinkError Reply) : Prop :=
  ∀ reply, result = .ok reply → ∃ n, (outside.trip n).reply = .ok reply

section Phases

variable {outside : Outside H} {s s' s'' : Inner H}

theorem Same.refl (s : Inner H) : Same s s := ⟨rfl, rfl, rfl, rfl, rfl⟩

theorem Same.trans (h : Same s s') (h' : Same s' s'') : Same s s'' where
  judge := h'.judge.trans h.judge
  config := h'.config.trans h.config
  spool := h'.spool.trans h.spool
  proved := h'.proved.trans h.proved
  unproven := h'.unproven.trans h.unproven

theorem same_look (outside : Outside H) (s : Inner H) : Same s (s.look outside).2 :=
  ⟨rfl, rfl, rfl, rfl, rfl⟩

theorem same_noteFailure : Same s (s.noteFailure outside) := by
  unfold noteFailure
  split
  · exact .refl s
  · simp only
    split <;> exact ⟨rfl, rfl, rfl, rfl, rfl⟩

theorem same_noteTimeout (error : LinkError) : Same s (s.noteTimeout error) := by
  unfold noteTimeout
  split <;> exact ⟨rfl, rfl, rfl, rfl, rfl⟩

theorem roundtrip_spec (outside : Outside H) (s : Inner H) :
    Same s (s.roundtrip outside).2 ∧ FromTrip outside (s.roundtrip outside).1 :=
  ⟨⟨rfl, rfl, rfl, rfl, rfl⟩, fun _ h => ⟨s.trips, h⟩⟩

theorem retry_spec (outside : Outside H) (s : Inner H) (first : LinkError) :
    Same s (s.retry outside first).2 ∧ FromTrip outside (s.retry outside first).1 := by
  obtain ⟨hsame, htrip⟩ := roundtrip_spec outside s
  unfold retry
  rcases hr : s.roundtrip outside with ⟨_ | reply, s₁⟩
  · rw [hr] at hsame
    exact ⟨hsame.trans same_noteFailure, nofun⟩
  · rw [hr] at hsame htrip
    exact ⟨hsame.trans ⟨rfl, rfl, rfl, rfl, rfl⟩, htrip⟩

theorem attempt_spec (outside : Outside H) (s : Inner H) :
    Same s (s.attempt outside).2 ∧ FromTrip outside (s.attempt outside).1 := by
  obtain ⟨hsame, htrip⟩ := roundtrip_spec outside s
  unfold attempt
  rcases hr : s.roundtrip outside with ⟨first | reply, s₁⟩
  · rw [hr] at hsame
    obtain ⟨hretry, htrip'⟩ := retry_spec outside (s₁.noteTimeout first) first
    exact ⟨(hsame.trans (same_noteTimeout first)).trans hretry, htrip'⟩
  · rw [hr] at hsame htrip
    exact ⟨hsame.trans ⟨rfl, rfl, rfl, rfl, rfl⟩, htrip⟩

theorem relink_spec : ∀ (tries : ℕ) (asked : Except LinkError Reply × Inner H),
    Same s asked.2 → FromTrip outside asked.1 →
      Same s (relink outside tries asked).2 ∧ FromTrip outside (relink outside tries asked).1 := by
  intro tries
  induction tries with
  | zero => exact fun _ hsame htrip => ⟨hsame, htrip⟩
  | succ tries ih =>
      rintro ⟨e | reply, s₁⟩ hsame htrip
      · rw [relink]
        split
        · exact ⟨hsame, htrip⟩
        · have hlook : Same s (s₁.look outside).2 := hsame.trans (same_look outside s₁)
          rcases hl : s₁.look outside with ⟨_ | why, s₂⟩
          · rw [hl] at hlook
            obtain ⟨hattempt, htrip'⟩ := attempt_spec outside s₂
            exact ih _ (hlook.trans hattempt) htrip'
          · rw [hl] at hlook
            exact ⟨hlook, htrip⟩
      · exact ⟨hsame, htrip⟩

theorem ask_spec (outside : Outside H) (s : Inner H) (stage : Stage) :
    Same s (s.ask outside stage).2 ∧ FromTrip outside (s.ask outside stage).1 := by
  obtain ⟨hsame, htrip⟩ := attempt_spec outside s
  unfold ask
  split
  · exact relink_spec linkRetries _ hsame htrip
  · exact ⟨hsame, htrip⟩

theorem resend_spec {result : Except LinkError Reply} (htrip : FromTrip outside result)
    {delivery : Delivery H} {asked : Asked H} (h : s.resend outside delivery result = .ok asked) :
    Same s asked.s ∧ FromTrip outside asked.result := by
  unfold resend at h
  split at h
  · split at h
    · obtain rfl := Except.ok.inj h
      exact attempt_spec outside s
    · cases h
  · obtain rfl := Except.ok.inj h
    exact ⟨.refl s, htrip⟩

theorem record_spec (asked : Asked H) :
    Same asked.s (record asked).s ∧ (record asked).result = asked.result := by
  unfold record
  split <;> exact ⟨⟨rfl, rfl, rfl, rfl, rfl⟩, rfl⟩

theorem askAgain_spec {asked : Asked H} (htrip : FromTrip outside asked.result) :
    Same asked.s (askAgain outside asked).s ∧ FromTrip outside (askAgain outside asked).result := by
  unfold askAgain
  split
  · exact attempt_spec outside asked.s
  · exact ⟨.refl _, htrip⟩

/-- **A delivery up to its last answer**: stopped before it asks, stopped by a server
that asks for a table it has been sent, or judged on what came back, by this end as it
was. -/
theorem deliver_cases (outside : Outside H) (s : Inner H) (stage : Stage) (delivery : Delivery H)
    (publics : List UInt8) :
    (∃ why s', Same s s' ∧ s.deliver outside stage delivery publics = some (.error why, s')) ∨
    s.config.maxRequestBytes < delivery.request.bytes ∧
      s.deliver outside stage delivery publics =
        some (.ok [], (s.look outside).2.noteUnproven) ∨
    ∃ s' result, Same s s' ∧ FromTrip outside result ∧
      delivery.request.bytes ≤ s.config.maxRequestBytes ∧
      s.deliver outside stage delivery publics =
        s'.finish outside stage delivery publics result := by
  unfold deliver
  rcases hl : s.look outside with ⟨_ | why, s₁⟩
  · have hs₁ : Same s s₁ := by
      have h := same_look outside s
      rwa [hl] at h
    simp only
    split
    · next hlarge =>
        rw [hs₁.config] at hlarge
        exact .inr (.inl ⟨hlarge, rfl⟩)
    · next hfits =>
        rw [hs₁.config] at hfits
        obtain ⟨hask, htrip⟩ := ask_spec outside s₁ stage
        rcases hresend : (s₁.ask outside stage).2.resend outside delivery
          (s₁.ask outside stage).1 with message | asked
        · exact .inl ⟨message, _, hs₁.trans hask, rfl⟩
        · obtain ⟨hasked, htrip'⟩ := resend_spec htrip hresend
          obtain ⟨hrecord, hresult⟩ := record_spec asked
          rw [← hresult] at htrip'
          obtain ⟨hagain, htrip''⟩ := askAgain_spec htrip'
          exact .inr (.inr ⟨_, _, (((hs₁.trans hask).trans hasked).trans hrecord).trans hagain,
            htrip'', not_lt.mp hfits, rfl⟩)
  · have hs₁ : Same s s₁ := by
      have h := same_look outside s
      rwa [hl] at h
    exact .inl ⟨why, s₁, hs₁, rfl⟩

end Phases

/-! ## The last answer -/

section Finish

variable {outside : Outside H} {s s' : Inner H} {stage : Stage} {delivery : Delivery H}
  {publics : List UInt8} {result : Except LinkError Reply} {p : Proof}

/-- The whole witness, handed to the spool where there is one. -/
def Handed (s s' : Inner H) (stage : Stage) (witness publics : List UInt8) : Prop :=
  ∀ spool, s.spool = some spool → ∃ counters unixMillis writes spool' counters',
    spool.push counters ⟨stage, witness, publics, unixMillis⟩ writes = some (spool', counters') ∧
      s'.spool = some spool'

theorem keep_eq_none_spool (h : s.spool = none) (witness : List UInt8) :
    s.keep outside stage witness publics = some s.noteUnproven := by
  simp only [keep, show s.noteUnproven.spool = none from h]

theorem keep_eq_some_spool {spool : Spool} (h : s.spool = some spool) (witness : List UInt8) :
    s.keep outside stage witness publics =
      (spool.push s.noteUnproven.counters ⟨stage, witness, publics, outside.unixMillis⟩
        outside.writes).map fun pushed =>
          { s.noteUnproven with spool := some pushed.1, counters := pushed.2 } := by
  simp only [keep, show s.noteUnproven.spool = some spool from h]
  cases spool.push s.noteUnproven.counters ⟨stage, witness, publics, outside.unixMillis⟩
    outside.writes with
  | none => rfl
  | some pushed => rfl

theorem keep_spec {witness : List UInt8} (h : s.keep outside stage witness publics = some s') :
    s'.counters.unproven = s.counters.unproven + 1 ∧ s'.lastCost = none ∧
      Handed s s' stage witness publics := by
  cases hspool : s.spool with
  | none =>
      rw [keep_eq_none_spool hspool] at h
      obtain rfl := Option.some.inj h
      exact ⟨rfl, rfl, fun spool habsurd => by rw [hspool] at habsurd; cases habsurd⟩
  | some spool =>
      rw [keep_eq_some_spool hspool] at h
      obtain ⟨⟨spool', counters'⟩, hpush, rfl⟩ := Option.map_eq_some_iff.mp h
      refine ⟨Spool.push_unproven hpush, rfl, fun spool₁ h₁ => ?_⟩
      rw [hspool] at h₁
      obtain rfl := Option.some.inj h₁
      exact ⟨_, _, _, _, _, hpush, rfl⟩

theorem keep_isSome (outside : Outside H) (stage : Stage) (witness publics : List UInt8)
    (hroom : ∀ spool, s.spool = some spool → spool.capacity ≠ 0) :
    ∃ kept, s.keep outside stage witness publics = some kept := by
  cases hspool : s.spool with
  | none => exact ⟨_, keep_eq_none_spool hspool witness⟩
  | some spool =>
      rw [keep_eq_some_spool hspool, Spool.push_eq_some (hroom spool hspool)]
      exact ⟨_, rfl⟩

/-- **What a last answer hands back**: a proof that was accepted, or the empty one for a
stage that survives it, with its witness kept. -/
theorem finish_eq_ok (h : s.finish outside stage delivery publics result = some (.ok p, s')) :
    (∃ cost, result = .ok (.proved p cost) ∧ s.judge.accept stage p publics = .ok () ∧
      s'.counters.proved = s.counters.proved + 1 ∧ s'.lastCost = some cost) ∨
    p = [] ∧ stage.isPersisted = false ∧
      s'.counters.unproven = s.counters.unproven + 1 ∧ s'.lastCost = none ∧
        Handed s s' stage delivery.whole publics := by
  unfold finish at h
  split at h
  · next proof cost =>
      split at h
      · cases h
      · next haccept =>
          obtain ⟨hproof, rfl⟩ := Prod.mk.inj (Option.some.inj h)
          obtain rfl := Except.ok.inj hproof
          exact .inl ⟨cost, rfl, haccept, rfl, rfl⟩
  · cases h
  · cases h
  · obtain ⟨kept, hkept, hlook⟩ := Option.bind_eq_some_iff.mp h
    obtain ⟨hunproven, hcost, hhanded⟩ := keep_spec hkept
    rcases hl : kept.look outside with ⟨_ | why, s₁⟩
    · have hs₁ : s₁ = (kept.look outside).2 := by rw [hl]
      rw [hl] at hlook
      cases hpersisted : stage.isPersisted with
      | true =>
          simp only [hpersisted] at hlook
          cases hlook
      | false =>
          simp only [hpersisted] at hlook
          obtain ⟨hproof, rfl⟩ := Prod.mk.inj (Option.some.inj hlook)
          obtain rfl := Except.ok.inj hproof
          rw [hs₁]
          exact .inr ⟨rfl, rfl, hunproven, hcost, hhanded⟩
    · rw [hl] at hlook
      cases hlook

/-- A last answer is dealt with, unless its witness goes to a spool with a cap of zero. -/
theorem finish_isSome (hroom : ∀ spool, s.spool = some spool → spool.capacity ≠ 0) :
    ∃ r s', s.finish outside stage delivery publics result = some (r, s') := by
  unfold finish
  split
  · split <;> exact ⟨_, _, rfl⟩
  · exact ⟨_, _, rfl⟩
  · exact ⟨_, _, rfl⟩
  · obtain ⟨kept, hkept⟩ := keep_isSome outside stage delivery.whole publics hroom
    rw [hkept]
    show ∃ r s', (match kept.look outside with
      | (some why, s) => _
      | (none, s) => _) = some (r, s')
    rcases kept.look outside with ⟨_ | why, s₁⟩
    · simp only
      split <;> exact ⟨_, _, rfl⟩
    · exact ⟨_, _, rfl⟩

/-! ### What the spool is left with -/

/-- The spool as it was, or with one more witness in it. -/
def Pushed (s s' : Inner H) (entry : Spooled) (writes : Bool) : Prop :=
  s'.spool = s.spool ∨ ∃ spool counters spool' counters', s.spool = some spool ∧
    spool.push counters entry writes = some (spool', counters') ∧ s'.spool = some spool'

theorem keep_pushed {witness : List UInt8} (h : s.keep outside stage witness publics = some s') :
    Pushed s s' ⟨stage, witness, publics, outside.unixMillis⟩ outside.writes := by
  cases hspool : s.spool with
  | none =>
      rw [keep_eq_none_spool hspool] at h
      obtain rfl := Option.some.inj h
      exact .inl rfl
  | some spool =>
      rw [keep_eq_some_spool hspool] at h
      obtain ⟨⟨spool', counters'⟩, hpush, rfl⟩ := Option.map_eq_some_iff.mp h
      exact .inr ⟨spool, _, spool', counters', hspool, hpush, rfl⟩

theorem finish_pushed {r : Except String Proof}
    (h : s.finish outside stage delivery publics result = some (r, s')) :
    Pushed s s' ⟨stage, delivery.whole, publics, outside.unixMillis⟩ outside.writes := by
  unfold finish at h
  split at h
  · split at h
    · obtain ⟨-, rfl⟩ := Prod.mk.inj (Option.some.inj h)
      exact .inl rfl
    · obtain ⟨-, rfl⟩ := Prod.mk.inj (Option.some.inj h)
      exact .inl rfl
  · obtain ⟨-, rfl⟩ := Prod.mk.inj (Option.some.inj h)
    exact .inl rfl
  · obtain ⟨-, rfl⟩ := Prod.mk.inj (Option.some.inj h)
    exact .inl rfl
  · obtain ⟨kept, hkept, hlook⟩ := Option.bind_eq_some_iff.mp h
    have hsame := same_look outside kept
    have hs' : s'.spool = kept.spool := by
      rcases hl : kept.look outside with ⟨_ | why, s₁⟩
      · rw [hl] at hlook hsame
        simp only at hlook
        split at hlook
        · obtain ⟨-, rfl⟩ := Prod.mk.inj (Option.some.inj hlook)
          exact hsame.spool
        · obtain ⟨-, rfl⟩ := Prod.mk.inj (Option.some.inj hlook)
          exact hsame.spool
      · rw [hl] at hlook hsame
        obtain ⟨-, rfl⟩ := Prod.mk.inj (Option.some.inj hlook)
        exact hsame.spool
    have hkept' := keep_pushed hkept
    unfold Pushed at hkept' ⊢
    rwa [hs']

/-- **A delivery touches the spool by one push, or not at all**, and what it pushes is its
witness, whole. -/
theorem deliver_pushed {r : Except String Proof}
    (h : s.deliver outside stage delivery publics = some (r, s')) :
    Pushed s s' ⟨stage, delivery.whole, publics, outside.unixMillis⟩ outside.writes := by
  rcases deliver_cases outside s stage delivery publics with
    ⟨why, s₁, hsame, hdeliver⟩ | ⟨-, hdeliver⟩ | ⟨s₁, asked, hsame, -, -, hdeliver⟩
  · rw [hdeliver] at h
    obtain ⟨-, rfl⟩ := Prod.mk.inj (Option.some.inj h)
    exact .inl hsame.spool
  · rw [hdeliver] at h
    obtain ⟨-, rfl⟩ := Prod.mk.inj (Option.some.inj h)
    exact .inl (same_look outside s).spool
  · rw [hdeliver] at h
    have hpushed := finish_pushed h
    unfold Pushed at hpushed ⊢
    rwa [hsame.spool] at hpushed

end Finish

/-! ## What may be handed back -/

section Kept

variable (s : Inner H) (stage : Stage) (delivery : Delivery H) (publics : List UInt8)

/-- A proof, and one that this end accepts under the key of the handshake. -/
def Accepted (p : Proof) : Prop :=
  p ≠ [] ∧ ∃ info, s.judge.find stage = some info ∧ s.judge.verifyChild p info.vk publics = true

/-- The server reported an ELF digest for the stage. -/
def Reports : Prop := ∃ info, s.judge.find stage = some info ∧ info.elfSha256 ≠ none

/-- What is owed for a stage whose proof is kept: whatever the outside does there is an
outcome, and it is an accepted proof or an error. -/
def KeptStored : Prop :=
  ∀ outside, ∃ r s', s.deliver outside stage delivery publics = some (r, s') ∧
    ∀ p, r = .ok p → s.Accepted stage publics p

/-- What is owed for any other: a proof, counted and charged as one, or the empty proof,
counted as none and with its witness kept. -/
def KeptOther : Prop :=
  ∀ outside p s', s.deliver outside stage delivery publics = some (.ok p, s') →
    (s.Accepted stage publics p ∧ s'.counters.proved = s.counters.proved + 1 ∧
      ∃ cost n, (outside.trip n).reply = .ok (.proved p cost) ∧ s'.lastCost = some cost) ∨
    p = [] ∧ s'.counters.unproven = s.counters.unproven + 1 ∧ s'.lastCost = none ∧
      (delivery.request.bytes ≤ s.config.maxRequestBytes →
        Handed s s' stage delivery.whole publics)

/-- No persisted stage is carried on without a proof, and no other one is without saying
so. -/
def Kept : Prop :=
  (stage.isPersisted = true ∧ s.Reports stage → s.KeptStored stage delivery publics) ∧
  (¬ (stage.isPersisted = true ∧ s.Reports stage) → s.KeptOther stage delivery publics)

/-- The prover is declared gone, or: a request for a stage whose proof is kept fits one
frame and its witness has a spool with room to go to, and one to a server with no
program does not fit or the empty proof is not one that verifies. -/
def Deliverable : Prop :=
  s.gone ≠ none ∨
    (stage.isPersisted = true ∧ s.Reports stage →
      delivery.request.bytes ≤ s.config.maxRequestBytes ∧
        ∀ spool, s.spool = some spool → spool.capacity ≠ 0) ∧
    (delivery.request.bytes ≤ s.config.maxRequestBytes → ∀ info, s.judge.find stage = some info →
      info.elfSha256 = none → s.judge.verifyChild [] info.vk publics = false)

variable {s stage delivery publics}

theorem deliver_of_gone {why : String} (h : s.gone = some why) (outside : Outside H) :
    ∃ s', s.deliver outside stage delivery publics = some (.error why, s') := by
  refine ⟨(s.look outside).2, ?_⟩
  have hlook : s.look outside = (some why, (s.look outside).2) := by
    simp only [look, h]
    rfl
  unfold deliver
  rw [hlook]

/-- A reply this end accepts is a proof, where the server has a program to prove with. -/
theorem accepted_of_accept {p : Proof} {u : Unit} (h : s.judge.accept stage p publics = .ok u)
    (hproof : p = [] → ∀ info, s.judge.find stage = some info → info.elfSha256 = none →
      s.judge.verifyChild [] info.vk publics = false) : s.Accepted stage publics p := by
  obtain ⟨info, hinfo, hverify, hempty⟩ := Judge.accept_eq_ok.mp h
  refine ⟨fun hp => ?_, info, hinfo, hverify⟩
  rw [hp, hproof hp info hinfo (hempty hp)] at hverify
  cases hverify

theorem Same.accepted {s' : Inner H} (h : Same s s') {p : Proof}
    (haccepted : s'.Accepted stage publics p) : s.Accepted stage publics p := by
  unfold Accepted at haccepted ⊢
  rwa [h.judge] at haccepted

theorem keptStored (hpersisted : stage.isPersisted = true) (hreports : s.Reports stage)
    (hfits : delivery.request.bytes ≤ s.config.maxRequestBytes)
    (hroom : ∀ spool, s.spool = some spool → spool.capacity ≠ 0) :
    s.KeptStored stage delivery publics := by
  intro outside
  rcases deliver_cases outside s stage delivery publics with
    ⟨why, s', -, hdeliver⟩ | ⟨hlarge, -⟩ | ⟨s', result, hsame, -, -, hdeliver⟩
  · exact ⟨_, _, hdeliver, nofun⟩
  · omega
  · obtain ⟨r, s'', hfinish⟩ := finish_isSome (s := s') (by rw [hsame.spool]; exact hroom)
    rw [hdeliver]
    refine ⟨r, s'', hfinish, fun p hp => ?_⟩
    subst hp
    rcases finish_eq_ok hfinish with ⟨cost, -, haccept, -⟩ | ⟨-, hnot, -⟩
    · apply hsame.accepted
      refine accepted_of_accept haccept fun _ info hinfo hnone => ?_
      obtain ⟨info', hinfo', hsome⟩ := hreports
      rw [hsame.judge, hinfo'] at hinfo
      obtain rfl := Option.some.inj hinfo
      exact absurd hnone hsome
    · rw [hpersisted] at hnot
      cases hnot

theorem keptOther (hempty : delivery.request.bytes ≤ s.config.maxRequestBytes →
      ∀ info, s.judge.find stage = some info → info.elfSha256 = none →
        s.judge.verifyChild [] info.vk publics = false) :
    s.KeptOther stage delivery publics := by
  intro outside p s'' hok
  rcases deliver_cases outside s stage delivery publics with
    ⟨why, s', -, hdeliver⟩ | ⟨hlarge, hdeliver⟩ | ⟨s', result, hsame, htrip, hfits, hdeliver⟩
  · rw [hdeliver] at hok
    cases hok
  · rw [hdeliver] at hok
    obtain ⟨hp, rfl⟩ := Prod.mk.inj (Option.some.inj hok)
    obtain rfl := Except.ok.inj hp
    exact .inr ⟨rfl, rfl, rfl, fun hfits => by omega⟩
  · rw [hdeliver] at hok
    rcases finish_eq_ok hok with ⟨cost, hresult, haccept, hproved, hcost⟩ |
      ⟨hp, -, hunproven, hcost, hhanded⟩
    · obtain ⟨n, hn⟩ := htrip _ hresult
      refine .inl ⟨hsame.accepted (accepted_of_accept haccept fun _ => ?_), ?_, cost, n, hn, hcost⟩
      · rw [hsame.judge]
        exact hempty hfits
      · rw [hproved, hsame.proved]
    · refine .inr ⟨hp, by rw [hunproven, hsame.unproven], hcost, fun _ spool hspool => ?_⟩
      rw [← hsame.spool] at hspool
      exact hhanded spool hspool

/-! ### The behaviours that show it -/

variable (H) in
/-- An outside that answers every round trip alike, and in which nothing else happens. -/
def always (reply : Except LinkError Reply) : Outside H where
  trip _ := ⟨none, reply⟩
  clock _ := 0
  declared _ := none
  unixMillis := 0
  writes := true

/-- Silence: the witness was taken and nothing came back. -/
def silence : Except LinkError Reply := .error ⟨true, "the connection timed out"⟩

/-- A reply that says it is a proof, and holds no words. -/
def noWords : Except LinkError Reply := .ok (.proved [] ⟨0, 0⟩)

theorem look_always (hgone : s.gone = none) (reply : Except LinkError Reply) :
    s.look (always H reply) = (none, (s.look (always H reply)).2) := by
  simp only [look, hgone]
  rfl

theorem deliver_large (stage : Stage) (publics : List UInt8) (hgone : s.gone = none)
    (hlarge : s.config.maxRequestBytes < delivery.request.bytes) :
    ∃ s', s.deliver (always H silence) stage delivery publics = some (.ok [], s') := by
  unfold deliver
  rw [look_always hgone]
  exact ⟨_, if_pos hlarge⟩

/-- A first ask that comes to silence, or to a proof, is the last one. -/
theorem deliver_always (stage : Stage) (publics : List UInt8) (hgone : s.gone = none)
    (hfits : delivery.request.bytes ≤ s.config.maxRequestBytes) {reply : Except LinkError Reply}
    (hreply : reply = silence ∨ reply = noWords) :
    ∃ s', Same s s' ∧ s.deliver (always H reply) stage delivery publics =
      s'.finish (always H reply) stage delivery publics reply := by
  have hattempt : ∀ s₁ : Inner H, (s₁.attempt (always H reply)).1 = reply := by
    rcases hreply with rfl | rfl <;> exact fun _ => rfl
  have hrelink : ∀ s₁ : Inner H,
      relink (always H reply) linkRetries (reply, s₁) = (reply, s₁) := by
    rcases hreply with rfl | rfl <;> exact fun _ => rfl
  have hask : ∀ s₁ : Inner H, s₁.ask (always H reply) stage =
      (reply, (s₁.attempt (always H reply)).2) := by
    intro s₁
    have hpair : s₁.attempt (always H reply) = (reply, (s₁.attempt (always H reply)).2) :=
      Prod.ext (hattempt s₁) rfl
    unfold ask
    split
    · rw [hpair, hrelink]
    · exact hpair
  have hresend : ∀ s₁ : Inner H,
      s₁.resend (always H reply) delivery reply = .ok ⟨delivery.request, reply, s₁⟩ := by
    rcases hreply with rfl | rfl <;> exact fun _ => rfl
  have hagain : ∀ asked : Asked H, asked.result = reply → askAgain (always H reply) asked = asked := by
    intro asked hasked
    unfold askAgain
    rw [hasked]
    rcases hreply with rfl | rfl <;> rfl
  have hlook := same_look (always H reply) s
  obtain ⟨hsame, -⟩ := attempt_spec (always H reply) (s.look (always H reply)).2
  unfold deliver
  rw [look_always hgone]
  simp only
  rw [if_neg (by rw [hlook.config]; omega), hask, hresend]
  obtain ⟨hrecord, hresult⟩ := record_spec (P := P) (H := H) ⟨delivery.request, reply,
    ((s.look (always H reply)).2.attempt (always H reply)).2⟩
  simp only
  rw [hagain _ hresult, hresult]
  exact ⟨_, (hlook.trans hsame).trans hrecord, rfl⟩

theorem not_keptStored_large (hgone : s.gone = none)
    (hlarge : s.config.maxRequestBytes < delivery.request.bytes) :
    ¬ s.KeptStored stage delivery publics := by
  intro hkept
  obtain ⟨s', hdeliver⟩ := deliver_large stage publics hgone hlarge
  obtain ⟨r, s'', hr, haccepted⟩ := hkept (always H silence)
  rw [hdeliver] at hr
  obtain ⟨rfl, -⟩ := Prod.mk.inj (Option.some.inj hr)
  exact (haccepted [] rfl).1 rfl

theorem not_keptStored_full (hgone : s.gone = none)
    (hfits : delivery.request.bytes ≤ s.config.maxRequestBytes) {spool : Spool}
    (hspool : s.spool = some spool) (hcapacity : spool.capacity = 0) :
    ¬ s.KeptStored stage delivery publics := by
  intro hkept
  obtain ⟨s', hsame, hdeliver⟩ := deliver_always stage publics hgone hfits (.inl rfl)
  obtain ⟨r, s'', hr, -⟩ := hkept (always H silence)
  have hpush : ∀ counters entry writes, spool.push counters entry writes = none := by
    intro counters entry writes
    rw [← Option.not_isSome_iff_eq_none, Spool.push_isSome_iff]
    exact not_not.mpr hcapacity
  rw [← hsame.spool] at hspool
  have hfinish : s'.finish (always H silence) stage delivery publics silence = none := by
    simp only [finish, silence, keep_eq_some_spool hspool, hpush]
    rfl
  rw [hdeliver, hfinish] at hr
  cases hr

theorem not_keptOther_empty (hgone : s.gone = none)
    (hfits : delivery.request.bytes ≤ s.config.maxRequestBytes) {info : ProgramInfo}
    (hinfo : s.judge.find stage = some info) (hnone : info.elfSha256 = none)
    (hverify : s.judge.verifyChild [] info.vk publics = true) :
    ¬ s.KeptOther stage delivery publics := by
  intro hkept
  obtain ⟨s', hsame, hdeliver⟩ := deliver_always stage publics hgone hfits (.inr rfl)
  have haccept : s'.judge.accept stage [] publics = .ok () := by
    rw [hsame.judge]
    exact Judge.accept_eq_ok.mpr ⟨info, hinfo, hverify, fun _ => hnone⟩
  have hfinish : ∃ s'', s'.finish (always H noWords) stage delivery publics noWords =
      some (.ok [], s'') ∧ s''.counters.unproven = s'.counters.unproven := by
    simp only [finish, noWords, haccept]
    exact ⟨_, rfl, rfl⟩
  obtain ⟨s'', hok, hunproven⟩ := hfinish
  rcases hkept _ _ _ (hdeliver.trans hok) with ⟨haccepted, -⟩ | ⟨-, hcounted, -⟩
  · exact haccepted.1 rfl
  · rw [hunproven, hsame.unproven] at hcounted
    omega

variable (s stage delivery publics) in
/-- **When no stage is carried on without a proof it should have had**: whatever the
server, the link and the clock do, and for no other request. -/
theorem deliver_iff : s.Kept stage delivery publics ↔ s.Deliverable stage delivery publics := by
  constructor
  · rintro ⟨hstored, hother⟩
    cases hgone : s.gone with
    | some why => exact .inl (by simp [hgone])
    | none =>
        refine .inr ⟨fun hboth => ?_, fun hfits info hinfo hnone => ?_⟩
        · by_cases hfits : delivery.request.bytes ≤ s.config.maxRequestBytes
          · exact ⟨hfits, fun spool hspool hcapacity =>
              not_keptStored_full hgone hfits hspool hcapacity (hstored hboth)⟩
          · exact absurd (hstored hboth) (not_keptStored_large hgone (not_le.mp hfits))
        · cases hverify : s.judge.verifyChild [] info.vk publics with
          | false => rfl
          | true =>
              refine absurd (hother ?_) (not_keptOther_empty hgone hfits hinfo hnone hverify)
              rintro ⟨-, info', hinfo', hsome⟩
              rw [hinfo] at hinfo'
              obtain rfl := Option.some.inj hinfo'
              exact hsome hnone
  · rintro (hgone | ⟨hstored, hempty⟩)
    · obtain ⟨why, hwhy⟩ := Option.ne_none_iff_exists'.mp hgone
      refine ⟨fun _ outside => ?_, fun _ outside p s' hok => ?_⟩
      · obtain ⟨s', hdeliver⟩ := deliver_of_gone hwhy outside
        exact ⟨_, s', hdeliver, nofun⟩
      · obtain ⟨s'', hdeliver⟩ := deliver_of_gone hwhy outside
        rw [hdeliver] at hok
        cases hok
    · refine ⟨fun hboth => ?_, fun _ => keptOther hempty⟩
      obtain ⟨hfits, hroom⟩ := hstored hboth
      exact keptStored hboth.1 hboth.2 hfits hroom

end Kept

/-! ## A witness larger than one frame -/

section Large

/-- A server with a program for the epoch diff, and a cap of no bytes at all. -/
def capped : Inner (TableHash.free (Formal.formal {})) where
  judge :=
    { addr := "localhost:1"
      programs := [⟨.epochDiff, epochDiffProgramVk, some "0xab"⟩]
      verifyChild := fun proof _ _ => proof ≠ [] }
  config :=
    { maxRequestBytes := 0
      unreachableDeadline := 600
      spoolDir := none
      showDuration := fun seconds => s!"{seconds}s" }

/-- A witness of one byte. -/
def oneByte : Delivery (TableHash.free (Formal.formal {})) where
  request := .prove .epochDiff [0]
  spoolBytes := none
  withTable := none
  carries := nofun

/-- **The oversized witness**: the epoch diff is carried on with the empty proof. -/
theorem capped_not_kept : ¬ capped.Kept .epochDiff oneByte [] := by
  rintro ⟨hstored, -⟩
  have hreports : capped.Reports .epochDiff :=
    ⟨⟨.epochDiff, epochDiffProgramVk, some "0xab"⟩, rfl, nofun⟩
  have hlarge : capped.config.maxRequestBytes < oneByte.request.bytes := Nat.zero_lt_one
  exact not_keptStored_large rfl hlarge (hstored ⟨rfl, hreports⟩)

end Large

end Inner

end Zkasper.RemoteProver
