import Zkasper.Library.Transition
import Mathlib.Algebra.Order.Group.Multiset
import Mathlib.Tactic.Abel

/-! # Publishing to a public API

A daemon mirrors what it does to an API that may be down. Events are gathered in memory
and posted in batches, proofs are uploaded one by one, and what cannot be sent is spooled
to disk and drained later, the oldest first. Whatever the channel or the spool has no room
for is dropped, and counted.

The clock, the API and the disk are the parts of a turn the daemon does not decide
(`World`): when a batch is due and the spool is drained, what a request comes back with,
and whether a file is written and read. Beside its own state a daemon carries what was
queued, what the API took and what was counted as lost, which it never reads.

Order and accounting hold while a proof finds no event waiting in memory, and while every
request is either taken and answered or comes to nothing (`reached_accounted`). A proof
that does find one overtakes it (`not_accounted`). A spool that may hold nothing never ends
making room, and such a turn is no step. -/

namespace Zkasper.Publish

variable {V U : Type}

/-! ## What travels -/

/-- What is published: an event, or a proof upload. -/
inductive Item (V U : Type) where
  | event (value : V)
  | proof (upload : U)
  deriving DecidableEq

/-- What is queued. -/
inductive Message (V U : Type) where
  | event (value : V)
  | status (value : V)
  | proof (upload : U)
  | flush

/-- What a message publishes: a status snapshot is no event. -/
def Message.items : Message V U → List (Item V U)
  | .event value => [.event value]
  | .proof upload => [.proof upload]
  | .status _ => []
  | .flush => []

/-- One request, as it is sent or spooled. -/
inductive SpoolEntry (V U : Type) where
  | batch (events : List V) (status : Option V)
  | proof (upload : U)

def SpoolEntry.items : SpoolEntry V U → List (Item V U)
  | .batch events _ => events.map .event
  | .proof upload => [.proof upload]

/-- How a request ends. A request nobody answered may have been taken all the same. -/
inductive Answer where
  | taken
  | rejected
  | unavailable
  | unanswered
  deriving DecidableEq

/-- `post_batch` and `post_proof`: a client error counts as sent, so that it is not
spooled forever. -/
def Answer.sent : Answer → Bool
  | .taken | .rejected => true
  | .unavailable | .unanswered => false

/-- The API has it. -/
def Answer.reached : Answer → Bool
  | .taken | .unanswered => true
  | .rejected | .unavailable => false

/-- How one entry of the spool fares in a drain. -/
inductive Drained where
  | damaged
  | posted (answer : Answer)

/-- What a turn of the loop meets outside the daemon. -/
structure World where
  answer : Answer
  written : Bool
  drained : List Drained
  fullAnswer : Answer
  fullWritten : Bool
  drainDue : Bool
  dueDrained : List Drained

structure PublishConfig where
  queueCapacity : ℕ
  maxBatch : ℕ
  spoolCapacity : ℕ

structure PublishCounters where
  posted : ℕ
  spooled : ℕ
  dropped : ℕ
  pending : ℕ
  deriving DecidableEq

/-- The channel, the loop's own state and the counters. The last four fields are what
happened, kept to be spoken of: what was queued, what the API took, what was counted as
lost, and how many requests and refused messages there were. -/
structure Daemon (V U : Type) where
  rx : List (Message V U)
  running : Bool
  events : List V
  status : Option V
  spool : List (SpoolEntry V U)
  counters : PublishCounters
  queued : List (Item V U)
  api : List (Item V U)
  lost : List (List (Item V U))
  units : ℕ

/-! ## The spool -/

/-- Make room, dropping the oldest: what is kept, and what is not. -/
def evict (capacity : ℕ) : List (SpoolEntry V U) → List (SpoolEntry V U) × List (SpoolEntry V U)
  | [] => ([], [])
  | entry :: queue =>
      if capacity ≤ (entry :: queue).length then
        let rest := evict capacity queue
        (rest.1, entry :: rest.2)
      else (entry :: queue, [])

/-- `push_batch` and `push_proof`. With no capacity at all the eviction loop never ends. -/
def push (config : PublishConfig) (written : Bool) (entry : SpoolEntry V U) (s : Daemon V U) :
    Option (Daemon V U) :=
  if config.spoolCapacity = 0 then none else
    let room := evict config.spoolCapacity s.spool
    let queue := if written then room.1 ++ [entry] else room.1
    some { s with
      spool := queue
      lost := s.lost ++ room.2.map SpoolEntry.items
      counters := { s.counters with
        spooled := s.counters.spooled + if written then 1 else 0
        dropped := s.counters.dropped + room.2.length
        pending := queue.length } }

/-- A request reaches the API, or does not. -/
def request (entry : SpoolEntry V U) (answer : Answer) (s : Daemon V U) : Daemon V U :=
  { s with api := if answer.reached then s.api ++ entry.items else s.api }

/-- Count what was sent. -/
def countPosted (s : Daemon V U) : Daemon V U :=
  { s with counters := { s.counters with posted := s.counters.posted + 1 } }

/-- `if !spool.is_empty() || !post { push } else { posted += 1 }`: once anything is spooled,
everything is. -/
def postOrSpool (config : PublishConfig) (entry : SpoolEntry V U) (answer : Answer)
    (written : Bool) (s : Daemon V U) : Option (Daemon V U) :=
  let s := { s with units := s.units + 1 }
  if s.spool.isEmpty then
    if answer.sent then some (countPosted (request entry answer s))
    else push config written entry (request entry answer s)
  else push config written entry s

/-- Post what has accumulated, or spool it. -/
def flush (config : PublishConfig) (answer : Answer) (written : Bool) (s : Daemon V U) :
    Option (Daemon V U) :=
  if s.events.isEmpty && s.status.isNone then some s
  else postOrSpool config (.batch s.events s.status) answer written
    { s with events := [], status := none }

/-- The front of the spool is gone. -/
def pop (queue : List (SpoolEntry V U)) (s : Daemon V U) : Daemon V U :=
  { s with spool := queue, counters := { s.counters with pending := queue.length } }

/-- Send what is on disk, oldest first. Stops at the first failure so ordering survives; a
damaged file counts as sent. -/
def drain : List Drained → Daemon V U → Daemon V U
  | [], s => s
  | outcome :: outcomes, s =>
      match s.spool with
      | [] => s
      | entry :: queue =>
          match outcome with
          | .damaged => drain outcomes (countPosted (pop queue s))
          | .posted answer =>
              if answer.sent then drain outcomes (countPosted (pop queue (request entry answer s)))
              else request entry answer s

/-! ## The loop -/

/-- What a message does to the loop. -/
def handle (config : PublishConfig) (w : World) (m : Message V U) (s : Daemon V U) :
    Option (Daemon V U) :=
  match m with
  | .event value => some { s with events := s.events ++ [value] }
  | .status value => some { s with status := some value }
  | .proof upload => postOrSpool config (.proof upload) w.answer w.written s
  | .flush => (flush config w.answer w.written s).map (drain w.drained)

/-- The end of a turn: a full batch goes out, and the spool is drained when that is due. -/
def endTurn (config : PublishConfig) (w : World) (s : Daemon V U) : Option (Daemon V U) :=
  (if config.maxBatch ≤ s.events.length then flush config w.fullAnswer w.fullWritten s
    else some s).map fun s => if w.drainDue then drain w.dueDrained s else s

/-- What can happen next: somebody queues a message, the loop takes one, a batch is due, or
the channel is closed. -/
inductive Act (V U : Type) where
  | send (message : Message V U)
  | recv (w : World)
  | deadline (w : World)
  | close (w : World)

/-- Queue an event, or count it as dropped. -/
def send (config : PublishConfig) (m : Message V U) (s : Daemon V U) : Option (Daemon V U) :=
  if s.running ∧ s.rx.length < config.queueCapacity then
    some { s with rx := s.rx ++ [m], queued := s.queued ++ m.items }
  else
    match m with
    -- this one waits for room
    | .flush => none
    | m => some { s with
        queued := s.queued ++ m.items
        lost := s.lost ++ [m.items]
        units := s.units + 1
        counters := { s.counters with dropped := s.counters.dropped + 1 } }

def step (config : PublishConfig) (s : Daemon V U) : Act V U → Option (Daemon V U)
  | .send m => send config m s
  | .recv w =>
      match s.rx with
      | [] => none
      | m :: rx => if s.running then
          (handle config w m { s with rx := rx }).bind (endTurn config w) else none
  | .deadline w => if s.running then (flush config w.answer w.written s).bind (endTurn config w)
      else none
  | .close w => if s.running ∧ s.rx = [] then
        (flush config w.answer w.written s).map fun s => { s with running := false }
      else none

/-- `Publisher::spawn`: the spool is picked up before anything new is sent. -/
def start (backlog : List (SpoolEntry V U)) : Daemon V U where
  rx := []
  running := true
  events := []
  status := none
  spool := backlog
  counters := ⟨0, 0, 0, backlog.length⟩
  queued := backlog.flatMap SpoolEntry.items
  api := []
  lost := []
  units := backlog.length

/-! ## Order and accounting -/

section Accounting

/-- What waits behind the spool: in memory, and in the channel. -/
def Daemon.behind (s : Daemon V U) : List (Item V U) :=
  s.events.map .event ++ s.rx.flatMap Message.items

/-- What waits on disk. -/
def Daemon.spooled (s : Daemon V U) : List (Item V U) := s.spool.flatMap SpoolEntry.items

/-- What publishing promises: the API sees what was queued in order, nothing twice, and what
it neither has nor will get is in something that was counted as dropped. -/
structure Accounted (s : Daemon V U) : Prop where
  order : s.api.Sublist s.queued
  once : s.queued.Nodup → s.api.Nodup
  accounted : s.queued.Perm (s.api ++ s.spooled ++ s.behind ++ s.lost.flatten)
  dropped : s.counters.dropped = s.lost.length
  pending : s.counters.pending = s.spool.length
  units : s.units = s.counters.posted + s.counters.pending + s.counters.dropped

/-- The invariant, with some items in the loop's hands: they are behind everything on disk
and before everything that waits. -/
structure Flows (held : List (Item V U)) (s : Daemon V U) : Prop where
  order : (s.api ++ s.spooled ++ held ++ s.behind).Sublist s.queued
  accounted : s.queued.Perm (s.api ++ s.spooled ++ held ++ s.behind ++ s.lost.flatten)
  dropped : s.counters.dropped = s.lost.length
  pending : s.counters.pending = s.spool.length
  units : s.units = s.counters.posted + s.counters.pending + s.counters.dropped

theorem Flows.toAccounted {s : Daemon V U} (h : Flows [] s) : Accounted s where
  order := by
    refine List.Sublist.trans ?_ h.order
    rw [List.append_assoc, List.append_assoc]
    exact List.sublist_append_left _ _
  once hqueued := by
    refine List.Nodup.sublist (List.Sublist.trans ?_ h.order) hqueued
    rw [List.append_assoc, List.append_assoc]
    exact List.sublist_append_left _ _
  accounted := by simpa using h.accounted
  dropped := h.dropped
  pending := h.pending
  units := h.units

/-- Only the line of what is on its way counts, and what was counted. -/
theorem Flows.congr {held held' : List (Item V U)} {s s' : Daemon V U} (h : Flows held s)
    (hline : s'.api ++ s'.spooled ++ held' ++ s'.behind =
      s.api ++ s.spooled ++ held ++ s.behind)
    (hqueued : s'.queued = s.queued) (hlost : s'.lost = s.lost)
    (hcounters : s'.counters = s.counters) (hspool : s'.spool = s.spool)
    (hunits : s'.units = s.units) : Flows held' s' where
  order := by
    rw [hline, hqueued]
    exact h.order
  accounted := by
    rw [hline, hqueued, hlost]
    exact h.accounted
  dropped := by
    rw [hcounters, hlost]
    exact h.dropped
  pending := by
    rw [hcounters, hspool]
    exact h.pending
  units := by
    rw [hcounters, hunits]
    exact h.units

/-- The API takes a request and says so, or nothing comes of it. -/
def Answer.Plain (a : Answer) : Prop := a = .taken ∨ a = .unavailable

instance (a : Answer) : Decidable a.Plain := inferInstanceAs (Decidable (_ ∨ _))

/-- An entry that reads back, and is posted plainly. -/
def Drained.Plain : Drained → Prop
  | .damaged => False
  | .posted answer => answer.Plain

instance (d : Drained) : Decidable d.Plain := by
  cases d
  · exact isFalse id
  · exact inferInstanceAs (Decidable (Answer.Plain _))

/-- A turn in which every request is answered plainly and the disk works. -/
structure World.Plain (w : World) : Prop where
  answer : w.answer.Plain
  written : w.written = true
  drained : ∀ d ∈ w.drained, d.Plain
  fullAnswer : w.fullAnswer.Plain
  fullWritten : w.fullWritten = true
  dueDrained : ∀ d ∈ w.dueDrained, d.Plain

instance (w : World) : Decidable w.Plain :=
  decidable_of_iff (w.answer.Plain ∧ w.written = true ∧ (∀ d ∈ w.drained, d.Plain) ∧
    w.fullAnswer.Plain ∧ w.fullWritten = true ∧ ∀ d ∈ w.dueDrained, d.Plain)
    ⟨fun ⟨h1, h2, h3, h4, h5, h6⟩ => ⟨h1, h2, h3, h4, h5, h6⟩,
      fun ⟨h1, h2, h3, h4, h5, h6⟩ => ⟨h1, h2, h3, h4, h5, h6⟩⟩

/-! ## One request -/

variable {config : PublishConfig} {s s' : Daemon V U}

/-- What is evicted was in front of what is kept. -/
theorem evict_append (capacity : ℕ) : ∀ queue : List (SpoolEntry V U),
    (evict capacity queue).2 ++ (evict capacity queue).1 = queue := by
  intro queue
  induction queue with
  | nil => rfl
  | cons entry queue ih =>
      rw [evict]
      split
      · rw [List.cons_append, ih]
      · rfl

/-- **A request on disk**: it goes behind everything there, and what has to make room for
it is counted. -/
theorem Flows.push {entry : SpoolEntry V U} (h : Flows entry.items s)
    (hpush : push config true entry { s with units := s.units + 1 } = some s') : Flows [] s' := by
  simp only [Publish.push] at hpush
  split at hpush
  · cases hpush
  obtain rfl := Option.some.inj hpush
  have hqueue := evict_append config.spoolCapacity s.spool
  generalize evict config.spoolCapacity s.spool = room at hqueue
  have hitems : s.spooled = room.2.flatMap SpoolEntry.items ++ room.1.flatMap SpoolEntry.items := by
    rw [Daemon.spooled, ← hqueue, List.flatMap_append]
  constructor
  · refine List.Sublist.trans ?_ h.order
    rw [hitems]
    simp only [Daemon.spooled, if_true, List.flatMap_append, List.flatMap_singleton,
      List.append_nil, List.append_assoc]
    exact (List.Sublist.refl _).append (List.sublist_append_right _ _)
  · refine h.accounted.trans ?_
    rw [hitems, ← Multiset.coe_eq_coe]
    simp only [Daemon.spooled, Daemon.behind, if_true, List.flatMap_append,
      List.flatMap_singleton, List.flatten_append, ← List.flatMap_def, ← Multiset.coe_add,
      List.append_nil]
    abel
  · simp [h.dropped]
  · rfl
  · have hlength := congrArg List.length hqueue
    have hunits := h.units
    rw [h.pending] at hunits
    simp only [List.length_append, if_true, List.length_singleton] at hlength ⊢
    omega

/-- **A request that is taken**, with nothing on disk before it. -/
theorem Flows.taken {entry : SpoolEntry V U} (h : Flows entry.items s) (hspool : s.spool = []) :
    Flows [] (countPosted (request entry .taken { s with units := s.units + 1 })) := by
  have hspooled : s.spooled = [] := by rw [Daemon.spooled, hspool, List.flatMap_nil]
  constructor
  · have horder := h.order
    rw [hspooled, List.append_nil] at horder
    simpa [countPosted, request, Answer.reached, Daemon.spooled, Daemon.behind, hspool]
      using horder
  · have haccounted := h.accounted
    rw [hspooled, List.append_nil] at haccounted
    simpa [countPosted, request, Answer.reached, Daemon.spooled, Daemon.behind, hspool]
      using haccounted
  · exact h.dropped
  · exact h.pending
  · have hunits := h.units
    simp only [countPosted, request]
    omega

/-- **Post or spool**: either way the request comes behind what came before it. -/
theorem Flows.postOrSpool {entry : SpoolEntry V U} {answer : Answer} (h : Flows entry.items s)
    (hanswer : answer.Plain) (hpost : postOrSpool config entry answer true s = some s') :
    Flows [] s' := by
  simp only [Publish.postOrSpool] at hpost
  split at hpost
  · next hempty =>
      rcases hanswer with rfl | rfl
      · obtain rfl := Option.some.inj hpost
        exact h.taken (List.isEmpty_iff.mp hempty)
      · exact h.push hpost
  · exact h.push hpost

/-- The batch in memory is what waits first behind the spool. -/
theorem Flows.flush {answer : Answer} (h : Flows [] s) (hanswer : answer.Plain)
    (hflush : flush config answer true s = some s') : Flows [] s' := by
  simp only [Publish.flush] at hflush
  split at hflush
  · obtain rfl := Option.some.inj hflush
    exact h
  · have hbatch : Flows (SpoolEntry.batch s.events s.status : SpoolEntry V U).items
        { s with events := [], status := none } := by
      refine h.congr ?_ rfl rfl rfl rfl rfl
      simp [SpoolEntry.items, Daemon.behind, Daemon.spooled]
    exact hbatch.postOrSpool hanswer hflush

/-- The front of the spool reaches the API. -/
theorem Flows.popTaken {entry : SpoolEntry V U} {queue : List (SpoolEntry V U)}
    (h : Flows [] s) (hspool : s.spool = entry :: queue) :
    Flows [] (countPosted (pop queue (request entry .taken s))) := by
  constructor
  · simpa [countPosted, pop, request, Answer.reached, Daemon.spooled, Daemon.behind, hspool]
      using h.order
  · simpa [countPosted, pop, request, Answer.reached, Daemon.spooled, Daemon.behind, hspool]
      using h.accounted
  · exact h.dropped
  · rfl
  · have hunits := h.units
    have hpending := h.pending
    rw [hspool, List.length_cons] at hpending
    simp only [countPosted, pop, request]
    omega

/-- **A drain** moves the spool to the API from its front. -/
theorem Flows.drain : ∀ {outcomes : List Drained} {s : Daemon V U}, (∀ d ∈ outcomes, d.Plain) →
    Flows [] s → Flows [] (drain outcomes s) := by
  intro outcomes
  induction outcomes with
  | nil => exact fun _ h => h
  | cons outcome outcomes ih =>
      intro s hplain h
      rw [Publish.drain]
      split
      · exact h
      · next entry queue hspool =>
          have hrest := fun d hd => hplain d (List.mem_cons_of_mem _ hd)
          cases outcome with
          | damaged => exact absurd (hplain _ List.mem_cons_self) id
          | posted answer =>
              rcases (hplain _ List.mem_cons_self : answer.Plain) with rfl | rfl
              · exact ih hrest (h.popTaken hspool)
              · exact h

/-! ## One turn -/

theorem Flows.endTurn {w : World} (h : Flows [] s) (hw : w.Plain)
    (hend : endTurn config w s = some s') : Flows [] s' := by
  obtain ⟨m, hflush, rfl⟩ := Option.map_eq_some_iff.mp hend
  have hm : Flows [] m := by
    split at hflush
    · rw [hw.fullWritten] at hflush
      exact h.flush hw.fullAnswer hflush
    · obtain rfl := Option.some.inj hflush
      exact h
  split
  · exact hm.drain hw.dueDrained
  · exact hm

/-- The message the loop takes is the first in the channel. A proof finds no event in memory. -/
theorem Flows.handle {w : World} {m : Message V U} {rx : List (Message V U)} (h : Flows [] s)
    (hrx : s.rx = m :: rx) (hw : w.Plain) (hproof : ∀ upload, m = .proof upload → s.events = [])
    (hhandle : handle config w m { s with rx := rx } = some s') : Flows [] s' := by
  cases m with
  | event value =>
      obtain rfl := Option.some.inj hhandle
      refine h.congr ?_ rfl rfl rfl rfl rfl
      simp [Daemon.behind, Daemon.spooled, Message.items, hrx]
  | status value =>
      obtain rfl := Option.some.inj hhandle
      refine h.congr ?_ rfl rfl rfl rfl rfl
      simp [Daemon.behind, Daemon.spooled, Message.items, hrx]
  | proof upload =>
      simp only [Publish.handle, hw.written] at hhandle
      have hupload : Flows (SpoolEntry.proof upload : SpoolEntry V U).items
          { s with rx := rx } := by
        refine h.congr ?_ rfl rfl rfl rfl rfl
        simp [Daemon.behind, Daemon.spooled, Message.items, SpoolEntry.items, hrx,
          hproof upload rfl]
      exact hupload.postOrSpool hw.answer hhandle
  | flush =>
      obtain ⟨mid, hflush, rfl⟩ := Option.map_eq_some_iff.mp hhandle
      rw [hw.written] at hflush
      have hs : Flows [] { s with rx := rx } := by
        refine h.congr ?_ rfl rfl rfl rfl rfl
        simp [Daemon.behind, Daemon.spooled, Message.items, hrx]
      exact (hs.flush hw.answer hflush).drain hw.drained

/-- A queued message goes behind everything, or is counted as dropped. -/
theorem Flows.send {m : Message V U} (h : Flows [] s) (hsend : send config m s = some s') :
    Flows [] s' := by
  simp only [Publish.send] at hsend
  split at hsend
  · obtain rfl := Option.some.inj hsend
    have horder := h.order.append (List.Sublist.refl m.items)
    constructor
    · simpa [Daemon.behind, Daemon.spooled] using horder
    · refine (h.accounted.append_right _).trans ?_
      rw [← Multiset.coe_eq_coe]
      simp only [Daemon.behind, Daemon.spooled, List.flatMap_append, List.flatMap_singleton,
        ← Multiset.coe_add, List.append_nil]
      abel
    · exact h.dropped
    · exact h.pending
    · exact h.units
  · have hdropped : Flows [] { s with
        queued := s.queued ++ m.items
        lost := s.lost ++ [m.items]
        units := s.units + 1
        counters := { s.counters with dropped := s.counters.dropped + 1 } } := by
      constructor
      · exact h.order.trans (List.sublist_append_left _ _)
      · refine (h.accounted.append_right _).trans ?_
        simp [Daemon.behind, Daemon.spooled]
      · simp [h.dropped]
      · exact h.pending
      · have hunits := h.units
        simp only
        omega
    cases m with
    | flush => cases hsend
    | event value =>
        obtain rfl := Option.some.inj hsend
        exact hdropped
    | status value =>
        obtain rfl := Option.some.inj hsend
        exact hdropped
    | proof upload =>
        obtain rfl := Option.some.inj hsend
        exact hdropped

/-! ## Every run -/

/-- A proof is what the loop takes next. -/
def Daemon.proofNext (s : Daemon V U) : Bool :=
  match s.rx with
  | .proof _ :: _ => true
  | _ => false

/-- The condition on a step: the spool has room for a request, requests are answered plainly, the
disk works, and a proof finds no event waiting in memory. -/
def Orderly (config : PublishConfig) (s : Daemon V U) (a : Act V U) : Prop :=
  config.spoolCapacity ≠ 0 ∧ match a with
    | .send _ => True
    | .recv w => w.Plain ∧ (s.proofNext = true → s.events = [])
    | .deadline w => w.Plain
    | .close w => w.Plain

instance (s : Daemon V U) : (a : Act V U) → Decidable (Orderly config s a)
  | .send _ => inferInstanceAs (Decidable (_ ∧ True))
  | .recv w => inferInstanceAs (Decidable (_ ∧ World.Plain w ∧ _))
  | .deadline w => inferInstanceAs (Decidable (_ ∧ World.Plain w))
  | .close w => inferInstanceAs (Decidable (_ ∧ World.Plain w))

/-- **One step** keeps the line in order and the counts right. -/
theorem Flows.step {a : Act V U} (h : Flows [] s) (ha : Orderly config s a)
    (hstep : step config s a = some s') : Flows [] s' := by
  have ha := ha.2
  cases a with
  | send m => exact h.send hstep
  | recv w =>
      obtain ⟨hw, hnext⟩ := ha
      simp only [Publish.step] at hstep
      split at hstep
      · cases hstep
      · next m rx hrx =>
          split at hstep
          · obtain ⟨mid, hhandle, hend⟩ := Option.bind_eq_some_iff.mp hstep
            have hproof : ∀ upload, m = .proof upload → s.events = [] := by
              rintro upload rfl
              apply hnext
              rw [Daemon.proofNext, hrx]
            exact (h.handle hrx hw hproof hhandle).endTurn hw hend
          · cases hstep
  | deadline w =>
      simp only [Publish.step] at hstep
      split at hstep
      · obtain ⟨mid, hflush, hend⟩ := Option.bind_eq_some_iff.mp hstep
        rw [ha.written] at hflush
        exact (h.flush ha.answer hflush).endTurn ha hend
      · cases hstep
  | close w =>
      simp only [Publish.step] at hstep
      split at hstep
      · obtain ⟨mid, hflush, rfl⟩ := Option.map_eq_some_iff.mp hstep
        rw [ha.written] at hflush
        exact (h.flush ha.answer hflush).congr rfl rfl rfl rfl rfl rfl
      · cases hstep

theorem flows_start (backlog : List (SpoolEntry V U)) : Flows [] (start backlog) where
  order := by simp [start, Daemon.spooled, Daemon.behind]
  accounted := by simp [start, Daemon.spooled, Daemon.behind]
  dropped := rfl
  pending := rfl
  units := by simp [start]

/-- **Order and accounting over every run**: whatever is queued and when, and whatever the
API does, in every run in which the spool has room for a request, requests are taken and answered
or come to nothing, the disk works, and a proof finds no event in memory. -/
theorem reached_accounted (config : PublishConfig) (backlog : List (SpoolEntry V U))
    (h : Transition.Reached (step config) (Orderly config) (start backlog) s) : Accounted s := by
  apply Flows.toAccounted
  refine h.invariant (Flows []) (flows_start backlog) ?_
  intro s a s' hs ha hstep
  exact hs.step ha hstep

/-- A world in which every request has the answer. -/
def World.answering (answer : Answer) : World :=
  ⟨answer, true, [.posted answer, .posted answer], answer, true, false, []⟩

/-- A proof and an event wait out an outage on disk, and are drained in order. -/
theorem reached_accounted_outage :
    ∃ s : Daemon ℕ ℕ, s.api = [.proof 1, .event 2] ∧ s.counters = ⟨2, 2, 0, 0⟩ ∧ Accounted s := by
  obtain ⟨s, hrun, hapi, hcounters⟩ : ∃ s, Transition.run (step ⟨4, 2, 4⟩) (Orderly ⟨4, 2, 4⟩)
        (start [])
      [.send (.proof 1), .send (.event 2), .recv (.answering .unavailable),
        .recv (.answering .unavailable), .deadline (.answering .unavailable), .send .flush,
        .recv (.answering .taken)] = some s ∧
      s.api = [Item.proof 1, .event 2] ∧ s.counters = ⟨2, 2, 0, 0⟩ := by decide +kernel
  exact ⟨s, hapi, hcounters, reached_accounted _ _ (Transition.Reached.of_run hrun)⟩

/-- An event waits in memory, and the proof queued behind it is uploaded first. Every
request is taken at once. -/
theorem not_accounted :
    ∃ s : Daemon ℕ ℕ, Transition.Reached (step ⟨4, 2, 4⟩) Transition.always (start []) s ∧
      ¬ Accounted s := by
  obtain ⟨s, hrun, horder⟩ : ∃ s, Transition.run (step ⟨4, 2, 4⟩) Transition.always (start [])
      [.send (.event 1), .send (.proof 2), .recv (.answering .taken), .recv (.answering .taken),
        .deadline (.answering .taken)] = some s ∧
      ¬ s.api.Sublist s.queued := by decide +kernel
  exact ⟨s, Transition.Reached.of_run hrun, fun h => horder h.order⟩

end Accounting

end Zkasper.Publish
