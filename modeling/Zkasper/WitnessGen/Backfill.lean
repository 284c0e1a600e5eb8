import Zkasper.Library.Transition
import Zkasper.WitnessGen.Deliver

/-! # The spool between two threads

The foreground pushes the witnesses no server answered for, and makes room at the front
where there is none. The backfill pass looks at the front, lets go of the spool, reads
the file, asks a server, and in the end removes whatever is then at the front. Every
acquisition of the spool's lock is one step of a `World`, and so is every file
operation outside it; the two threads take their steps in any order.

`reached_accounted_iff` says what becomes of every witness in the runs in which no entry
is evicted under a pass that has already decided, or goes on to decide, its end. -/

namespace Zkasper.RemoteProver

open Transition

/-! ## States -/

/-- How an entry ended. -/
inductive Ending where
  | recovered (entry : Spooled) (proof : Proof)
  | refused (entry : Spooled)
  | unreadable
  | dropped
  deriving DecidableEq

/-- How far a backfill pass has come. -/
inductive Pass where
  | idle
  /-- It has looked at the front, and let go of the spool. -/
  | found (path : SpoolPath)
  /-- It has read the file, and asked. -/
  | sent (path : SpoolPath) (entry : Spooled)
  /-- It has a proof that it accepted. -/
  | checked (path : SpoolPath) (entry : Spooled) (proof : Proof)
  /-- It has written the proof, and not yet the outputs. -/
  | wrote (path : SpoolPath) (entry : Spooled) (proof : Proof)
  /-- It is about to remove the front. -/
  | ending (path : SpoolPath) (recovers : Bool)
  deriving DecidableEq

namespace Pass

/-- The entry of a pass that has not decided its end. -/
def held : Pass → Option SpoolPath
  | idle | ending _ _ => none
  | found path | sent path _ | checked path _ _ | wrote path _ _ => some path

/-- The entry of one that has. -/
def ended : Pass → Option SpoolPath
  | ending path _ => some path
  | _ => none

/-- What the pass read, and the name it read it under. -/
def entry : Pass → Option (SpoolPath × Spooled)
  | sent path entry | checked path entry _ | wrote path entry _ => some (path, entry)
  | _ => none

/-- What it was answered with. -/
def proof : Pass → Option (Spooled × Proof)
  | checked _ entry proof | wrote _ entry proof => some (entry, proof)
  | _ => none

theorem held_of_entry {pass : Pass} {y : SpoolPath × Spooled} (h : y ∈ pass.entry) :
    y.1 ∈ pass.held := by
  cases pass with
  | sent | checked | wrote =>
      obtain rfl := Option.some.inj h
      rfl
  | idle | found | ending => cases h

end Pass

/-- The spool, the pass, the `recovered` directory, and what has happened so far. -/
structure World where
  judge : Judge
  spool : Spool
  counters : Counters
  pass : Pass
  /-- `recovered/{name}.bin`. -/
  recoveredProof : SpoolPath → Option Proof
  /-- `recovered/{name}.publics`. -/
  recoveredPublics : SpoolPath → Option (List UInt8)
  /-- The names an earlier run left. -/
  existing : List SpoolPath
  /-- Every witness that was pushed and written, under its name. -/
  pushed : List (SpoolPath × Spooled)
  /-- Every end, under the name of the entry it is the end of. -/
  endings : List (SpoolPath × Ending)

namespace World

/-- A run that has just started. -/
def opened (judge : Judge) (existing : List SpoolPath) (files : SpoolPath → Option Spooled)
    (recoveredProof : SpoolPath → Option Proof)
    (recoveredPublics : SpoolPath → Option (List UInt8)) (capacity : ℕ) : World where
  judge := judge
  spool := .opened existing files capacity
  counters := { pending := existing.length }
  pass := .idle
  recoveredProof := recoveredProof
  recoveredPublics := recoveredPublics
  existing := existing
  pushed := []
  endings := []

/-! ## Steps -/

inductive Event where
  /-- The foreground spools a witness. -/
  | push (entry : Spooled) (writes : Bool)
  /-- A pass begins. -/
  | front
  /-- The pass returns with nothing done: the foreground is busy, the link is down, the
  proof is not accepted or cannot be written. -/
  | giveUp
  | read (reads : Bool)
  | answer (reply : Reply)
  | write
  | pop

variable (w : World)

/-- A push that ends. -/
def push (entry : Spooled) (writes : Bool) : Option World := do
  let (spool, counters) ← w.spool.push w.counters entry writes
  return { w with
    spool
    counters
    pushed := if writes then (w.spool.nextPath entry, entry) :: w.pushed else w.pushed
    endings := (w.spool.queue.take w.spool.excess).map (·, .dropped) ++ w.endings }

def front : World :=
  match w.spool.queue.head? with
  | some path => { w with pass := .found path }
  | none => w

/-- The file, read: it is sent, or it is not readable. -/
def read (path : SpoolPath) (reads : Bool) : World :=
  match if reads then w.spool.files path else none with
  | some entry => { w with pass := .sent path entry }
  | none =>
      { w with
        pass := .ending path false
        endings := (path, .unreadable) :: w.endings }

/-- A server that was sent the whole witness, and would not prove it or asked for a table,
will do so again. -/
def answer (path : SpoolPath) (entry : Spooled) : Reply → World
  | .proved proof _ =>
      match w.judge.accept entry.stage proof entry.publics with
      | .ok () => { w with pass := .checked path entry proof }
      | .error _ => { w with pass := .idle }
  | .failed _ | .needMemberTable =>
      { w with
        pass := .ending path false
        endings := (path, .refused entry) :: w.endings }

def writeProof (path : SpoolPath) (entry : Spooled) (proof : Proof) : World :=
  { w with
    pass := .wrote path entry proof
    recoveredProof := Function.update w.recoveredProof path (some proof) }

def writePublics (path : SpoolPath) (entry : Spooled) (proof : Proof) : World :=
  { w with
    pass := .ending path true
    recoveredPublics := Function.update w.recoveredPublics path (some entry.publics)
    endings := (path, .recovered entry proof) :: w.endings }

/-- The pass removes what is at the front, whatever that is. -/
def pop (recovers : Bool) : World :=
  { w with
    spool := (w.spool.pop w.counters).1
    counters :=
      { (w.spool.pop w.counters).2 with
        recovered := if recovers then w.counters.recovered + 1 else w.counters.recovered }
    pass := .idle }

def step : Event → Option World
  | .push entry writes => w.push entry writes
  | .front =>
      match w.pass with
      | .idle => some w.front
      | _ => none
  | .giveUp =>
      match w.pass with
      | .idle | .ending _ _ => none
      | _ => some { w with pass := .idle }
  | .read reads =>
      match w.pass with
      | .found path => some (w.read path reads)
      | _ => none
  | .answer reply =>
      match w.pass with
      | .sent path entry => some (w.answer path entry reply)
      | _ => none
  | .write =>
      match w.pass with
      | .checked path entry proof => some (w.writeProof path entry proof)
      | .wrote path entry proof => some (w.writePublics path entry proof)
      | _ => none
  | .pop =>
      match w.pass with
      | .ending _ recovers => some (w.pop recovers)
      | _ => none

/-! ## What is asked of a run -/

/-- Where a witness that was pushed can be. -/
inductive Fate where
  | queued
  | recovered
  | refused
  | unreadable
  | dropped
  deriving DecidableEq

/-- A witness is queued until it is removed, whatever a pass has learnt of it; then it is
where it ended. -/
def Has (x : SpoolPath × Spooled) : Fate → Prop
  | .queued => x.1 ∈ w.spool.queue ∧ w.spool.files x.1 = some x.2
  | .recovered =>
      x.1 ∉ w.spool.queue ∧ ∃ proof, (x.1, .recovered x.2 proof) ∈ w.endings ∧
        w.judge.accept x.2.stage proof x.2.publics = .ok () ∧
        w.recoveredProof x.1 = some proof ∧ w.recoveredPublics x.1 = some x.2.publics
  | .refused => x.1 ∉ w.spool.queue ∧ (x.1, .refused x.2) ∈ w.endings
  | .unreadable => x.1 ∉ w.spool.queue ∧ (x.1, .unreadable) ∈ w.endings
  | .dropped => x.1 ∉ w.spool.queue ∧ (x.1, .dropped) ∈ w.endings

/-- Every push ends, every witness pushed is in exactly one place, the drops are the ones
counted, and a pass removes its own entry. -/
structure Accounted : Prop where
  ends : ∀ entry writes, (w.push entry writes).isSome = true
  once : ∀ x ∈ w.pushed, ∃! fate, w.Has x fate
  counted : w.counters.dropped = w.endings.countP (·.2 = .dropped)
  removes : ∀ w', w.step .pop = some w' →
    ∃ path recovers, w.pass = .ending path recovers ∧ w.spool.queue = path :: w'.spool.queue

/-- The entry whose end a step decides. -/
def decides : Event → Option SpoolPath
  | .read reads =>
      match w.pass with
      | .found path => if reads ∧ (w.spool.files path).isSome then none else some path
      | _ => none
  | .answer (.failed _) | .answer .needMemberTable =>
      match w.pass with
      | .sent path _ => some path
      | _ => none
  | .write =>
      match w.pass with
      | .wrote path _ _ => some path
      | _ => none
  | _ => none

/-- The pass decides the end of an entry that is still queued, and until it has removed it
no push evicts it; nor is a witness given a name an earlier run used. -/
def Undisturbed (e : Event) : Prop :=
  (∀ path ∈ w.decides e, path ∈ w.spool.queue) ∧
  match e with
  | .push entry _ =>
      w.spool.nextPath entry ∉ w.existing ∧
        ∀ path ∈ w.pass.ended, path ∉ w.spool.queue.take w.spool.excess
  | _ => True

instance (e : Event) : Decidable (w.Undisturbed e) := by
  unfold Undisturbed
  cases e <;> infer_instance

/-! ## The invariant

A name is used once, so a witness that was pushed is queued or has ended, and of a name
only the front is ever held. -/

/-- An end is the pushed witness's own. -/
def Suits (x : SpoolPath × Spooled) : Ending → Prop
  | .recovered entry proof =>
      entry = x.2 ∧ w.judge.accept entry.stage proof entry.publics = .ok () ∧
        w.recoveredProof x.1 = some proof ∧ w.recoveredPublics x.1 = some entry.publics
  | .refused entry => entry = x.2
  | .unreadable | .dropped => True

/-- A name that cannot be given again. -/
def Used (path : SpoolPath) : Prop := path ∈ w.existing ∨ path.written ≤ w.spool.written

structure Inv : Prop where
  capacity : w.spool.capacity ≠ 0
  nodup : w.spool.queue.Nodup
  queued : ∀ path ∈ w.spool.queue, w.Used path
  named : ∀ x ∈ w.pushed, x.1 ∉ w.existing ∧ x.1.written ≤ w.spool.written
  ended : ∀ x ∈ w.endings, w.Used x.1
  once : (w.endings.map Prod.fst).Nodup
  left : ∀ x ∈ w.endings, x.1 ∈ w.spool.queue → x.1 ∈ w.pass.ended
  onDisk : ∀ x ∈ w.pushed, x.1 ∈ w.spool.queue → w.spool.files x.1 = some x.2
  gone : ∀ x ∈ w.pushed, x.1 ∉ w.spool.queue →
    w.spool.files x.1 = none ∧ x.1 ∈ w.endings.map Prod.fst
  own : ∀ x ∈ w.pushed, ∀ ending, (x.1, ending) ∈ w.endings → w.Suits x ending
  held : ∀ path ∈ w.pass.held, w.Used path ∧
    (path ∈ w.spool.queue → w.spool.queue.head? = some path) ∧
      ∀ ending, (path, ending) ∈ w.endings → ending = .dropped
  ending : ∀ path ∈ w.pass.ended,
    w.spool.queue.head? = some path ∧ path ∈ w.endings.map Prod.fst
  read : ∀ y ∈ w.pass.entry, ∀ x ∈ w.pushed, x.1 = y.1 → x.2 = y.2
  accepted : ∀ y ∈ w.pass.proof, w.judge.accept y.1.stage y.2 y.1.publics = .ok ()
  wrote : ∀ path entry proof, w.pass = .wrote path entry proof →
    w.recoveredProof path = some proof
  counted : w.counters.dropped = w.endings.countP (·.2 = .dropped)

section Steps

variable {w : World} {path : SpoolPath} {entry : Spooled} {proof : Proof}

/-- The front of a queue of distinct names is not among the later ones. -/
theorem head?_drop {queue : List SpoolPath} (hnodup : queue.Nodup) {k : ℕ}
    (hhead : queue.head? = some path) (h : path ∉ queue.take k ∨ path ∈ queue.drop k) :
    (queue.drop k).head? = some path ∧ path ∈ queue.drop k := by
  cases queue with
  | nil => cases hhead
  | cons front rest =>
      obtain rfl := Option.some.inj hhead
      cases k with
      | zero => exact ⟨rfl, List.mem_cons_self⟩
      | succ k =>
          rw [List.take_succ_cons, List.drop_succ_cons] at h
          rcases h with hnot | hmem
          · exact absurd List.mem_cons_self hnot
          · exact absurd (List.mem_of_mem_drop hmem) (List.nodup_cons.mp hnodup).1

theorem Inv.not_ended (h : w.Inv) (hidle : w.pass.ended = none) {x : SpoolPath × Ending}
    (hx : x ∈ w.endings) : x.1 ∉ w.spool.queue := by
  intro hqueued
  have hended := h.left x hx hqueued
  rw [hidle] at hended
  cases hended

theorem Inv.head? (h : w.Inv) (hheld : path ∈ w.pass.held) (hqueued : path ∈ w.spool.queue) :
    w.spool.queue.head? = some path :=
  (h.held path hheld).2.1 hqueued

/-- A pass that has not decided an end may stop. -/
theorem Inv.idle (h : w.Inv) (hended : w.pass.ended = none) : Inv { w with pass := .idle } where
  __ := h
  left _ hx hqueued := absurd hqueued (h.not_ended hended hx)
  held := nofun
  ending := nofun
  read := nofun
  accepted := nofun
  wrote := nofun

/-- Or learn more about the entry it holds. -/
theorem Inv.carryOn (h : w.Inv) {pass : Pass} (hheld : pass.held = w.pass.held)
    (hended : pass.ended = w.pass.ended)
    (hread : ∀ y ∈ pass.entry, ∀ x ∈ w.pushed, x.1 = y.1 → x.2 = y.2)
    (haccepted : ∀ y ∈ pass.proof, w.judge.accept y.1.stage y.2 y.1.publics = .ok ())
    (hwrote : ∀ path entry proof, pass = .wrote path entry proof →
      w.recoveredProof path = some proof) : Inv { w with pass } where
  __ := h
  left x hx hqueued := by
    show x.1 ∈ pass.ended
    rw [hended]
    exact h.left x hx hqueued
  held path hpath := by
    rw [show ({ w with pass } : World).pass.held = w.pass.held from hheld] at hpath
    exact h.held path hpath
  ending path hpath := by
    rw [show ({ w with pass } : World).pass.ended = w.pass.ended from hended] at hpath
    exact h.ending path hpath
  read := hread
  accepted := haccepted
  wrote := hwrote

/-- A file written for the entry a pass holds is no recovered witness's. -/
theorem Inv.files (h : w.Inv) (hheld : path ∈ w.pass.held) (proofs : SpoolPath → Option Proof)
    (publics : SpoolPath → Option (List UInt8))
    (hproofs : ∀ p ≠ path, proofs p = w.recoveredProof p)
    (hpublics : ∀ p ≠ path, publics p = w.recoveredPublics p)
    (hwrote : ∀ path entry proof, w.pass = .wrote path entry proof → proofs path = some proof) :
    Inv { w with recoveredProof := proofs, recoveredPublics := publics } where
  __ := h
  own x hx ending hending := by
    have hsuits := h.own x hx ending hending
    by_cases hpath : x.1 = path
    · rw [(h.held path hheld).2.2 ending (hpath ▸ hending)]
      trivial
    · cases ending with
      | recovered entry proof =>
          obtain ⟨hentry, haccept, hproof, hpub⟩ := hsuits
          exact ⟨hentry, haccept, (hproofs _ hpath).trans hproof, (hpublics _ hpath).trans hpub⟩
      | refused => exact hsuits
      | unreadable => trivial
      | dropped => trivial
  wrote := hwrote

/-- The pass decides the end of an entry that is still queued. -/
theorem Inv.decided (h : w.Inv) (hheld : path ∈ w.pass.held) (hqueued : path ∈ w.spool.queue)
    (ending : Ending) (hnot : ending ≠ .dropped)
    (hsuits : ∀ x ∈ w.pushed, x.1 = path → w.Suits x ending) (recovers : Bool) :
    Inv { w with
      pass := .ending path recovers
      endings := (path, ending) :: w.endings } := by
  have hidle : w.pass.ended = none := by
    cases hpass : w.pass with
    | ending => rw [hpass] at hheld; cases hheld
    | _ => rfl
  -- a name that still waits has no end yet
  have hfirst : path ∉ w.endings.map Prod.fst := by
    intro hmem
    obtain ⟨x, hx, rfl⟩ := List.mem_map.mp hmem
    exact h.not_ended hidle hx hqueued
  exact {
    h with
    ended := fun x hx => by
      rcases List.mem_cons.mp hx with rfl | hx
      · exact h.queued _ hqueued
      · exact h.ended x hx
    once := List.nodup_cons.mpr ⟨hfirst, h.once⟩
    left := fun x hx hmem => by
      rcases List.mem_cons.mp hx with rfl | hx
      · rfl
      · exact absurd hmem (h.not_ended hidle hx)
    gone := fun x hx hmem => by
      obtain ⟨hfile, hended⟩ := h.gone x hx hmem
      exact ⟨hfile, List.mem_cons_of_mem _ hended⟩
    own := fun x hx ending' hmem => by
      rcases List.mem_cons.mp hmem with heq | hmem
      · obtain ⟨hpath, rfl⟩ := Prod.mk.inj heq
        exact hsuits x hx hpath
      · exact h.own x hx ending' hmem
    held := nofun
    ending := fun p hp => by
      obtain rfl := Option.some.inj hp
      exact ⟨h.head? hheld hqueued, List.mem_cons_self⟩
    read := nofun
    accepted := nofun
    wrote := nofun
    counted := by
      rw [List.countP_cons_of_neg (by simpa using hnot)]
      exact h.counted }

theorem Inv.front (h : w.Inv) (hidle : w.pass = .idle) : Inv w.front := by
  have hended : w.pass.ended = none := by rw [hidle]; rfl
  unfold World.front
  cases hhead : w.spool.queue.head? with
  | none => exact h
  | some path =>
      have hqueued : path ∈ w.spool.queue := List.mem_of_head? hhead
      exact {
        h with
        left := fun x hx hmem => absurd hmem (h.not_ended hended hx)
        held := fun p hp => by
          obtain rfl := Option.some.inj hp
          exact ⟨h.queued _ hqueued, fun _ => hhead,
            fun ending hmem => absurd hqueued (h.not_ended hended hmem)⟩
        ending := nofun
        read := nofun
        accepted := nofun
        wrote := nofun }

/-- What was read under a queued name is what was pushed under it. -/
theorem Inv.read_eq (h : w.Inv) (hfile : w.spool.files path = some entry) :
    ∀ x ∈ w.pushed, x.1 = path → x.2 = entry := by
  rintro x hx rfl
  by_cases hqueued : x.1 ∈ w.spool.queue
  · rw [h.onDisk x hx hqueued] at hfile
    exact Option.some.inj hfile
  · rw [(h.gone x hx hqueued).1] at hfile
    cases hfile

/-- A queue that starts with a name, without it. -/
theorem popFront_eq {queue : List SpoolPath} (hqueue : w.spool.queue = path :: queue) :
    (w.spool.pop w.counters).1 =
      { w.spool with queue, files := Function.update w.spool.files path none } := by
  show w.spool.popFront = _
  rw [Spool.popFront, hqueue]

theorem Inv.pop (h : w.Inv) (hended : path ∈ w.pass.ended) (recovers : Bool) :
    Inv (w.pop recovers) := by
  obtain ⟨hhead, hlogged⟩ := h.ending path hended
  obtain ⟨queue, hqueue⟩ : ∃ queue, w.spool.queue = path :: queue :=
    List.head?_eq_some_iff.mp hhead
  obtain ⟨hnot, hnodup⟩ := List.nodup_cons.mp (hqueue ▸ h.nodup)
  have hmem : ∀ {p}, p ∈ w.spool.queue ↔ p = path ∨ p ∈ queue := by
    intro p
    rw [hqueue, List.mem_cons]
  have hspool := popFront_eq hqueue
  have hrest : (w.pop recovers).spool.queue = queue := congrArg Spool.queue hspool
  have hused : ∀ p, w.Used p → (w.pop recovers).Used p := by
    intro p hp
    show p ∈ w.existing ∨ p.written ≤ (w.spool.pop w.counters).1.written
    rw [hspool]
    exact hp
  exact {
    capacity := by
      show (w.spool.pop w.counters).1.capacity ≠ 0
      rw [hspool]
      exact h.capacity
    nodup := by rwa [hrest]
    queued := fun p hp => by
      rw [hrest] at hp
      exact hused p (h.queued p (hmem.mpr (.inr hp)))
    named := fun x hx => by
      show x.1 ∉ w.existing ∧ x.1.written ≤ (w.spool.pop w.counters).1.written
      rw [hspool]
      exact h.named x hx
    ended := fun x hx => hused x.1 (h.ended x hx)
    once := h.once
    left := fun x hx hp => by
      rw [hrest] at hp
      have hpath : x.1 ∈ w.pass.ended := h.left x hx (hmem.mpr (.inr hp))
      rw [Option.mem_def.mp hended] at hpath
      exact absurd (Option.some.inj hpath ▸ hp) hnot
    onDisk := fun x hx hp => by
      rw [hrest] at hp
      show (w.spool.pop w.counters).1.files x.1 = some x.2
      rw [hspool]
      exact (Function.update_of_ne (fun heq : x.1 = path => hnot (heq ▸ hp)) _ _).trans
        (h.onDisk x hx (hmem.mpr (.inr hp)))
    gone := fun x hx hp => by
      rw [hrest] at hp
      show (w.spool.pop w.counters).1.files x.1 = none ∧ x.1 ∈ w.endings.map Prod.fst
      rw [hspool]
      by_cases hpath : x.1 = path
      · subst hpath
        exact ⟨Function.update_self _ _ _, hlogged⟩
      · obtain ⟨hfile, hlog⟩ := h.gone x hx fun hq => (hmem.mp hq).elim hpath hp
        exact ⟨(Function.update_of_ne hpath _ _).trans hfile, hlog⟩
    own := h.own
    held := nofun
    ending := nofun
    read := nofun
    accepted := nofun
    wrote := nofun
    counted := h.counted }

/-- **What a push leaves**: the entries over the cap are gone from the front, and the new
one is at the back under a name of its own. -/
theorem push_eq_some {writes : Bool} {w' : World} (h : w.push entry writes = some w') :
    w.spool.capacity ≠ 0 ∧ w' = { w with
      spool := ((w.spool.popped w.spool.excess).append
        { w.counters with dropped := w.counters.dropped + w.spool.excess } entry writes).1
      counters := ((w.spool.popped w.spool.excess).append
        { w.counters with dropped := w.counters.dropped + w.spool.excess } entry writes).2
      pushed := if writes then (w.spool.nextPath entry, entry) :: w.pushed else w.pushed
      endings := (w.spool.queue.take w.spool.excess).map (·, .dropped) ++ w.endings } := by
  obtain ⟨⟨spool, counters⟩, hpush, hw⟩ := Option.bind_eq_some_iff.mp h
  have hcapacity : w.spool.capacity ≠ 0 :=
    (Spool.push_isSome_iff w.spool w.counters entry writes).mp (by rw [hpush]; rfl)
  rw [Spool.push_eq_some hcapacity] at hpush
  obtain ⟨rfl, rfl⟩ := Prod.mk.inj (Option.some.inj hpush)
  exact ⟨hcapacity, (Option.some.inj hw).symm⟩

/-- Making room ends the entries it drops. -/
theorem Inv.evict (h : w.Inv) {k : ℕ}
    (hended : ∀ path ∈ w.pass.ended, path ∉ w.spool.queue.take k) {counters : Counters}
    (hdropped : counters.dropped = w.counters.dropped + (w.spool.queue.take k).length) :
    Inv { w with
      spool := w.spool.popped k
      counters
      endings := (w.spool.queue.take k).map (·, .dropped) ++ w.endings } := by
  have hfst : ((w.spool.queue.take k).map (·, Ending.dropped)).map Prod.fst =
      w.spool.queue.take k := by
    rw [List.map_map]
    exact List.map_id _
  have hnew : ∀ {x : SpoolPath × Ending},
      x ∈ (w.spool.queue.take k).map (·, Ending.dropped) →
        x.1 ∈ w.spool.queue.take k ∧ x.2 = .dropped := by
    intro x hx
    obtain ⟨p, hp, rfl⟩ := List.mem_map.mp hx
    exact ⟨hp, rfl⟩
  have hsplit := List.take_append_drop k w.spool.queue
  have hdisjoint : ∀ {p}, p ∈ w.spool.queue.take k → p ∉ w.spool.queue.drop k := by
    intro p htake hdrop
    exact (List.disjoint_of_nodup_append (hsplit.symm ▸ h.nodup)) htake hdrop
  have hcases : ∀ {p}, p ∈ w.spool.queue →
      p ∈ w.spool.queue.take k ∨ p ∈ w.spool.queue.drop k := by
    intro p hp
    rw [← hsplit] at hp
    exact List.mem_append.mp hp
  exact {
    capacity := h.capacity
    nodup := h.nodup.sublist (List.drop_sublist k _)
    queued := fun p hp => h.queued p (List.mem_of_mem_drop hp)
    named := h.named
    ended := fun x hx => by
      rcases List.mem_append.mp hx with hx | hx
      · exact h.queued _ (List.mem_of_mem_take (hnew hx).1)
      · exact h.ended x hx
    once := by
      rw [List.map_append, hfst]
      refine (h.nodup.sublist (List.take_sublist k _)).append h.once fun p htake hlog => ?_
      obtain ⟨x, hx, rfl⟩ := List.mem_map.mp hlog
      exact hended _ (h.left x hx (List.mem_of_mem_take htake)) htake
    left := fun x hx hdrop => by
      rcases List.mem_append.mp hx with hx | hx
      · exact absurd hdrop (hdisjoint (hnew hx).1)
      · exact h.left x hx (List.mem_of_mem_drop hdrop)
    onDisk := fun x hx hdrop =>
      (if_neg fun htake => hdisjoint htake hdrop).trans
        (h.onDisk x hx (List.mem_of_mem_drop hdrop))
    gone := fun x hx hdrop => by
      show (if x.1 ∈ w.spool.queue.take k then none else w.spool.files x.1) = none ∧
        x.1 ∈ ((w.spool.queue.take k).map (·, Ending.dropped) ++ w.endings).map Prod.fst
      rw [List.map_append, hfst, List.mem_append]
      by_cases htake : x.1 ∈ w.spool.queue.take k
      · exact ⟨if_pos htake, .inl htake⟩
      · obtain ⟨hfile, hlog⟩ := h.gone x hx fun hq => (hcases hq).elim htake hdrop
        exact ⟨(if_neg htake).trans hfile, .inr hlog⟩
    own := fun x hx ending hmem => by
      rcases List.mem_append.mp hmem with hmem | hmem
      · obtain rfl := (hnew hmem).2
        trivial
      · exact h.own x hx ending hmem
    -- the entry the pass holds may be among the dropped: then that is the only end it can have
    held := fun p hp => by
      obtain ⟨hp₁, hhead, hlog⟩ := h.held p hp
      refine ⟨hp₁, fun hdrop => ?_, fun ending hmem => ?_⟩
      · exact (head?_drop h.nodup (hhead (List.mem_of_mem_drop hdrop)) (.inr hdrop)).1
      · rcases List.mem_append.mp hmem with hmem | hmem
        · exact (hnew hmem).2
        · exact hlog ending hmem
    ending := fun p hp => by
      obtain ⟨hhead, hlog⟩ := h.ending p hp
      refine ⟨(head?_drop h.nodup hhead (.inl (hended p hp))).1, ?_⟩
      rw [List.map_append]
      exact List.mem_append_right _ hlog
    read := h.read
    accepted := h.accepted
    wrote := h.wrote
    counted := by
      have hcount : ((w.spool.queue.take k).map (·, Ending.dropped)).countP (·.2 = .dropped) =
          (w.spool.queue.take k).length := by
        rw [List.countP_eq_length.mpr fun x hx => by simpa using (hnew hx).2, List.length_map]
      rw [List.countP_append, hcount, ← h.counted]
      exact hdropped.trans (Nat.add_comm _ _) }

/-- Then the new witness is queued, under a name that has not been used; where its file
cannot be written, its name still counts. -/
theorem Inv.append (h : w.Inv) (entry : Spooled) (writes : Bool) (counters : Counters)
    (hfresh : w.spool.nextPath entry ∉ w.existing)
    (hdropped : counters.dropped = w.counters.dropped) :
    Inv { w with
      spool := (w.spool.append counters entry writes).1
      counters := (w.spool.append counters entry writes).2
      pushed := if writes then (w.spool.nextPath entry, entry) :: w.pushed else w.pushed } := by
  have hused : ∀ {p}, w.Used p → p ∈ w.existing ∨ p.written ≤ w.spool.written + 1 :=
    fun hp => hp.imp_right Nat.le_succ_of_le
  cases writes with
  -- nothing is queued, but the name is used up
  | false =>
      exact {
        h with
        queued := fun p hp => hused (h.queued p hp)
        named := fun x hx => (h.named x hx).imp_right Nat.le_succ_of_le
        ended := fun x hx => hused (h.ended x hx)
        held := fun p hp => (h.held p hp).imp_left hused
        counted := hdropped.trans h.counted }
  | true =>
      -- no name that was used before is the new one
      have hne : ∀ {p}, w.Used p → p ≠ w.spool.nextPath entry := by
        rintro p (hp | hp) rfl
        · exact hfresh hp
        · exact absurd hp (Nat.not_succ_le_self _)
      have hnot : w.spool.nextPath entry ∉ w.spool.queue := fun hq => hne (h.queued _ hq) rfl
      have hmem : ∀ {p}, w.Used p → p ∈ w.spool.queue ++ [w.spool.nextPath entry] →
          p ∈ w.spool.queue := by
        intro p hp hq
        exact (List.mem_append.mp hq).resolve_right fun h => hne hp (List.mem_singleton.mp h)
      have hpushed : ∀ x ∈ w.pushed, w.Used x.1 := fun x hx => .inr (h.named x hx).2
      have hhead : ∀ {p}, w.spool.queue.head? = some p →
          (w.spool.queue ++ [w.spool.nextPath entry]).head? = some p := by
        intro p hp
        rw [List.head?_append, hp]
        rfl
      exact {
        capacity := h.capacity
        nodup := List.nodup_append_comm.mp (List.nodup_cons.mpr ⟨hnot, h.nodup⟩)
        queued := fun p hp => by
          rcases List.mem_append.mp hp with hp | hp
          · exact hused (h.queued p hp)
          · obtain rfl := List.mem_singleton.mp hp
            exact .inr le_rfl
        named := fun x hx => by
          rcases List.mem_cons.mp hx with rfl | hx
          · exact ⟨hfresh, le_rfl⟩
          · exact (h.named x hx).imp_right Nat.le_succ_of_le
        ended := fun x hx => hused (h.ended x hx)
        once := h.once
        left := fun x hx hq => h.left x hx (hmem (h.ended x hx) hq)
        onDisk := fun x hx hq => by
          rcases List.mem_cons.mp hx with rfl | hx
          · exact Function.update_self _ _ _
          · exact (Function.update_of_ne (hne (hpushed x hx)) _ _).trans
              (h.onDisk x hx (hmem (hpushed x hx) hq))
        gone := fun x hx hq => by
          rcases List.mem_cons.mp hx with rfl | hx
          · exact absurd (List.mem_append_right _ List.mem_cons_self) hq
          · obtain ⟨hfile, hlog⟩ := h.gone x hx fun hx => hq (List.mem_append_left _ hx)
            exact ⟨(Function.update_of_ne (hne (hpushed x hx)) _ _).trans hfile, hlog⟩
        own := fun x hx ending hlog => by
          rcases List.mem_cons.mp hx with rfl | hx
          · exact absurd rfl (hne (h.ended _ hlog))
          · exact h.own x hx ending hlog
        held := fun p hp => by
          obtain ⟨hp₁, hfront, hlog⟩ := h.held p hp
          exact ⟨hused hp₁, fun hq => hhead (hfront (hmem hp₁ hq)), hlog⟩
        ending := fun p hp => (h.ending p hp).imp_left hhead
        read := fun y hy x hx hpath => by
          rcases List.mem_cons.mp hx with rfl | hx
          · exact absurd hpath.symm (hne (h.held _ (Pass.held_of_entry hy)).1)
          · exact h.read y hy x hx hpath
        accepted := h.accepted
        wrote := h.wrote
        counted := hdropped.trans h.counted }

theorem Inv.push (h : w.Inv) {writes : Bool} {w' : World} (hpush : w.push entry writes = some w')
    (hfresh : w.spool.nextPath entry ∉ w.existing)
    (hended : ∀ path ∈ w.pass.ended, path ∉ w.spool.queue.take w.spool.excess) : w'.Inv := by
  obtain ⟨hcapacity, rfl⟩ := push_eq_some hpush
  have hlength : (w.spool.queue.take w.spool.excess).length = w.spool.excess := by
    have hexcess : w.spool.excess ≤ w.spool.queue.length := by
      rw [Spool.excess]
      omega
    rw [List.length_take, Nat.min_eq_left hexcess]
  exact (h.evict hended (congrArg (w.counters.dropped + ·) hlength.symm)).append entry writes _
    hfresh rfl

/-- **One step** in an undisturbed run. -/
theorem Inv.step (h : w.Inv) {e : Event} (hcondition : w.Undisturbed e) {w' : World}
    (hstep : w.step e = some w') : w'.Inv := by
  obtain ⟨hdecides, hpush⟩ := hcondition
  cases e with
  | push entry writes => exact h.push hstep hpush.1 hpush.2
  | front =>
      cases hpass : w.pass with
      | idle =>
          rw [World.step, hpass] at hstep
          obtain rfl := Option.some.inj hstep
          exact h.front hpass
      | _ => rw [World.step, hpass] at hstep; cases hstep
  | giveUp =>
      cases hpass : w.pass with
      | idle | ending => rw [World.step, hpass] at hstep; cases hstep
      -- the entry stays where it is, and the next pass starts with it
      | _ =>
          have hended : w.pass.ended = none := by rw [hpass]; rfl
          rw [World.step, hpass] at hstep
          obtain rfl := Option.some.inj hstep
          exact h.idle hended
  | read reads =>
      cases hpass : w.pass with
      | found path =>
          have hheld : path ∈ w.pass.held := by rw [hpass]; rfl
          rw [World.step, hpass] at hstep
          obtain rfl := Option.some.inj hstep
          rw [World.read]
          split
          · next entry hfile =>
              have hread : w.spool.files path = some entry := by
                cases reads with
                | true => exact hfile
                | false => cases hfile
              refine h.carryOn (by rw [hpass]; rfl) (by rw [hpass]; rfl) ?_ nofun nofun
              intro y hy
              obtain rfl := Option.some.inj hy
              exact h.read_eq hread
          · next hfile =>
              -- a file that does not read back ends its entry
              refine h.decided hheld (hdecides path ?_) .unreadable nofun (fun _ _ _ => trivial) false
              rw [decides, hpass]
              cases reads with
              | true => simp [show w.spool.files path = none from hfile]
              | false => rfl
      | _ => rw [World.step, hpass] at hstep; cases hstep
  | answer reply =>
      cases hpass : w.pass with
      | sent path entry =>
          have hheld : path ∈ w.pass.held := by rw [hpass]; rfl
          have hended : w.pass.ended = none := by rw [hpass]; rfl
          have hread := h.read (path, entry) (by rw [hpass]; rfl)
          have hrefused : path ∈ w.spool.queue → Inv { w with
              pass := .ending path false
              endings := (path, .refused entry) :: w.endings } := by
            intro hqueued
            refine h.decided hheld hqueued (.refused entry) nofun (fun x hx hpath => ?_) false
            exact (hread x hx hpath).symm
          rw [World.step, hpass] at hstep
          obtain rfl := Option.some.inj hstep
          cases reply with
          | proved proof cost =>
              rw [World.answer]
              split
              · next haccept =>
                  refine h.carryOn (by rw [hpass]; rfl) (by rw [hpass]; rfl) ?_ ?_ nofun
                  · intro y hy
                    obtain rfl := Option.some.inj hy
                    exact hread
                  · intro y hy
                    obtain rfl := Option.some.inj hy
                    exact haccept
              -- a proof that is not accepted decides nothing
              · exact h.idle hended
          | failed reason => exact hrefused (hdecides path (by rw [decides, hpass]; rfl))
          | needMemberTable => exact hrefused (hdecides path (by rw [decides, hpass]; rfl))
      | _ => rw [World.step, hpass] at hstep; cases hstep
  | write =>
      cases hpass : w.pass with
      | checked path entry proof =>
          have hheld : path ∈ w.pass.held := by rw [hpass]; rfl
          rw [World.step, hpass] at hstep
          obtain rfl := Option.some.inj hstep
          -- the proof is written before the publics, so a name with both files is a whole recovery
          have hfiles := h.files hheld (Function.update w.recoveredProof path (some proof))
            w.recoveredPublics (fun _ hne => Function.update_of_ne hne _ _) (fun _ _ => rfl)
            (by rw [hpass]; nofun)
          refine hfiles.carryOn (by rw [hpass]; rfl) (by rw [hpass]; rfl) ?_ ?_ ?_
          · intro y hy
            obtain rfl := Option.some.inj hy
            exact h.read (path, entry) (by rw [hpass]; rfl)
          · intro y hy
            obtain rfl := Option.some.inj hy
            exact h.accepted (entry, proof) (by rw [hpass]; rfl)
          · intro path' entry' proof' heq
            cases heq
            exact Function.update_self _ _ _
      | wrote path entry proof =>
          have hheld : path ∈ w.pass.held := by rw [hpass]; rfl
          have hqueued : path ∈ w.spool.queue := hdecides path (by rw [decides, hpass]; rfl)
          rw [World.step, hpass] at hstep
          obtain rfl := Option.some.inj hstep
          have hfiles := h.files hheld w.recoveredProof
            (Function.update w.recoveredPublics path (some entry.publics)) (fun _ _ => rfl)
            (fun _ hne => Function.update_of_ne hne _ _) h.wrote
          refine hfiles.decided hheld hqueued (.recovered entry proof) nofun
            (fun x hx hpath => ?_) true
          refine ⟨(h.read (path, entry) (by rw [hpass]; rfl) x hx hpath).symm,
            h.accepted (entry, proof) (by rw [hpass]; rfl), ?_, ?_⟩
          · rw [hpath]
            exact h.wrote path entry proof hpass
          · rw [hpath]
            exact Function.update_self _ _ _
      | _ => rw [World.step, hpass] at hstep; cases hstep
  | pop =>
      cases hpass : w.pass with
      | ending path recovers =>
          have hended : path ∈ w.pass.ended := by rw [hpass]; rfl
          rw [World.step, hpass] at hstep
          obtain rfl := Option.some.inj hstep
          exact h.pop hended recovers
      | _ => rw [World.step, hpass] at hstep; cases hstep

/-! ## What the invariant says -/

/-- A name ends once. -/
theorem Inv.unique (h : w.Inv) {ending ending' : Ending} (hending : (path, ending) ∈ w.endings)
    (hending' : (path, ending') ∈ w.endings) : ending = ending' := by
  have heq : (path, ending) = (path, ending') :=
    List.inj_on_of_nodup_map h.once hending hending' rfl
  exact (Prod.mk.inj heq).2

/-- The fate an end is. -/
def fateOf : Ending → Fate
  | .recovered _ _ => .recovered
  | .refused _ => .refused
  | .unreadable => .unreadable
  | .dropped => .dropped

theorem Has.queued_or {x : SpoolPath × Spooled} {fate : Fate} (h : w.Has x fate) :
    fate = .queued ∧ x.1 ∈ w.spool.queue ∨
      x.1 ∉ w.spool.queue ∧ ∃ ending, (x.1, ending) ∈ w.endings ∧ fate = fateOf ending := by
  cases fate with
  | queued => exact .inl ⟨rfl, h.1⟩
  | recovered =>
      obtain ⟨hgone, proof, hending, -⟩ := h
      exact .inr ⟨hgone, _, hending, rfl⟩
  | refused => exact .inr ⟨h.1, _, h.2, rfl⟩
  | unreadable => exact .inr ⟨h.1, _, h.2, rfl⟩
  | dropped => exact .inr ⟨h.1, _, h.2, rfl⟩

/-- A witness that was pushed is queued, or has the fate it ended with. -/
theorem Inv.exists_fate (h : w.Inv) {x : SpoolPath × Spooled} (hx : x ∈ w.pushed) :
    ∃ fate, w.Has x fate := by
  by_cases hqueued : x.1 ∈ w.spool.queue
  · exact ⟨.queued, hqueued, h.onDisk x hx hqueued⟩
  · obtain ⟨⟨path, ending⟩, hending, hpath⟩ := List.mem_map.mp (h.gone x hx hqueued).2
    obtain rfl : path = x.1 := hpath
    have hsuits := h.own x hx ending hending
    cases ending with
    | recovered entry proof =>
        obtain ⟨rfl, haccept, hproof, hpublics⟩ := hsuits
        exact ⟨.recovered, hqueued, proof, hending, haccept, hproof, hpublics⟩
    | refused entry =>
        obtain rfl := hsuits
        exact ⟨.refused, hqueued, hending⟩
    | unreadable => exact ⟨.unreadable, hqueued, hending⟩
    | dropped => exact ⟨.dropped, hqueued, hending⟩

theorem Inv.fate_unique (h : w.Inv) {x : SpoolPath × Spooled} {fate fate' : Fate}
    (hfate : w.Has x fate) (hfate' : w.Has x fate') : fate = fate' := by
  rcases hfate.queued_or with ⟨rfl, hqueued⟩ | ⟨hgone, ending, hending, rfl⟩ <;>
    rcases hfate'.queued_or with ⟨rfl, hqueued'⟩ | ⟨hgone', ending', hending', rfl⟩
  · rfl
  · exact absurd hqueued hgone'
  · exact absurd hqueued' hgone
  · rw [h.unique hending hending']

/-- A push ends unless the cap is zero. -/
theorem push_isSome_iff {writes : Bool} :
    (w.push entry writes).isSome = true ↔ w.spool.capacity ≠ 0 := by
  rw [← Spool.push_isSome_iff w.spool w.counters entry writes, World.push]
  cases w.spool.push w.counters entry writes <;> rfl

theorem Inv.accounted (h : w.Inv) : w.Accounted where
  ends _ _ := push_isSome_iff.mpr h.capacity
  once x hx := by
    obtain ⟨fate, hfate⟩ := h.exists_fate hx
    exact ⟨fate, hfate, fun fate' hfate' => h.fate_unique hfate' hfate⟩
  counted := h.counted
  removes w' hstep := by
    cases hpass : w.pass with
    | ending path recovers =>
        rw [World.step, hpass] at hstep
        obtain rfl := Option.some.inj hstep
        obtain ⟨hhead, -⟩ := h.ending path (by rw [hpass]; rfl)
        obtain ⟨queue, hqueue⟩ : ∃ queue, w.spool.queue = path :: queue :=
          List.head?_eq_some_iff.mp hhead
        refine ⟨path, recovers, rfl, hqueue.trans ?_⟩
        rw [show (w.pop recovers).spool.queue = queue from congrArg Spool.queue (popFront_eq hqueue)]
    | _ => rw [World.step, hpass] at hstep; cases hstep

end Steps

/-! ## Runs -/

section Runs

variable {judge : Judge} {existing : List SpoolPath} {files : SpoolPath → Option Spooled}
  {recoveredProof : SpoolPath → Option Proof}
  {recoveredPublics : SpoolPath → Option (List UInt8)} {capacity : ℕ}

theorem inv_opened (hnodup : existing.Nodup) (hcapacity : capacity ≠ 0) :
    (opened judge existing files recoveredProof recoveredPublics capacity).Inv where
  capacity := hcapacity
  nodup := hnodup
  queued _ hp := .inl hp
  named := nofun
  ended := nofun
  once := List.nodup_nil
  left := nofun
  onDisk := nofun
  gone := nofun
  own := nofun
  held := nofun
  ending := nofun
  read := nofun
  accepted := nofun
  wrote := nofun
  counted := rfl

/-- **Every witness is accounted for** in every state an undisturbed run reaches, whatever
the directory held, the servers answer and the two threads do in between, and a spool
with a cap of zero is the only one of which this is not so. -/
theorem reached_accounted_iff (hnodup : existing.Nodup) :
    (∀ w, Reached World.step Undisturbed
        (opened judge existing files recoveredProof recoveredPublics capacity) w → w.Accounted) ↔
      capacity ≠ 0 := by
  constructor
  · intro haccounted
    have hends := (haccounted _ .start).ends ⟨.epochDiff, [], [], 0⟩ true
    exact push_isSome_iff.mp hends
  · intro hcapacity w hreached
    exact (hreached.invariant Inv (inv_opened hnodup hcapacity)
      fun _ _ _ hinv hcondition hstep => hinv.step hcondition hstep).accounted

end Runs

/-! ## Runs written out -/

/-- A witness of one byte, pushed at time 0. -/
def small (byte : UInt8) : Spooled := ⟨.epochDiff, [byte], [], 0⟩

def smallProof : Proof := [1]

/-- A spool of a cap, in a directory with nothing in it. -/
def empty (capacity : ℕ) : World :=
  opened Inner.capped.judge [] (fun _ => none) (fun _ => none) (fun _ => none) capacity

/-- Two witnesses, the first of which is recovered. -/
theorem reached_accounted_iff_recovers : ∃ w, Reached World.step Undisturbed (empty 2) w ∧
    w.spool.queue = [⟨0, 2, .epochDiff⟩] ∧
    w.endings = [(⟨0, 1, .epochDiff⟩, .recovered (small 1) smallProof)] ∧ w.Accounted := by
  obtain ⟨w, hrun, hqueue, hendings⟩ : ∃ w, run World.step Undisturbed (empty 2)
      [.push (small 1) true, .push (small 2) true, .front, .read true,
        .answer (.proved smallProof ⟨0, 0⟩), .write, .write, .pop] = some w ∧
      w.spool.queue = [⟨0, 2, .epochDiff⟩] ∧
      w.endings = [(⟨0, 1, .epochDiff⟩, .recovered (small 1) smallProof)] := by decide +kernel
  have hreached := Reached.of_run hrun
  exact ⟨w, hreached, hqueue, hendings,
    (reached_accounted_iff List.nodup_nil).mpr (by decide) w hreached⟩

/-- **The entry that nobody sent**: the front is evicted while a pass waits for the answer
to it, and the pass removes the witness that made the room. -/
theorem not_reached_accounted :
    ¬ ∀ w, Reached World.step always (empty 1) w → w.Accounted := by
  intro haccounted
  obtain ⟨w, hrun, hpushed, hqueue, hendings⟩ : ∃ w, run World.step always (empty 1)
      [.push (small 1) true, .front, .read true, .push (small 2) true,
        .answer (.failed "no witness"), .pop] = some w ∧
      ((⟨0, 2, .epochDiff⟩ : SpoolPath), small 2) ∈ w.pushed ∧ w.spool.queue = [] ∧
        (⟨0, 2, .epochDiff⟩ : SpoolPath) ∉ w.endings.map Prod.fst := by decide +kernel
  obtain ⟨fate, hfate, -⟩ := (haccounted w (Reached.of_run hrun)).once _ hpushed
  rcases hfate.queued_or with ⟨-, hqueued⟩ | ⟨-, ending, hending, -⟩
  · rw [hqueue] at hqueued
    cases hqueued
  · exact hendings (List.mem_map_of_mem hending)

end World

/-! ## The foreground's part -/

section Foreground

open CommitteeCache

variable {P : Primitives} {H : TableHash P} {outside : Outside H} {s s' : Inner H} {stage : Stage}
  {delivery : Delivery H} {publics : List UInt8} {r : Except String Proof}

/-- What a push leaves in the spool does not depend on what else has been counted. -/
theorem Spool.push_counters {spool spool' : Spool} {counters counters' : Counters}
    {entry : Spooled} {writes : Bool}
    (h : spool.push counters entry writes = some (spool', counters')) (other : Counters) :
    ∃ counted, spool.push other entry writes = some (spool', counted) := by
  have hcapacity : spool.capacity ≠ 0 :=
    (push_isSome_iff spool counters entry writes).mp (by rw [h]; rfl)
  rw [push_eq_some hcapacity] at h ⊢
  obtain ⟨rfl, -⟩ := Prod.mk.inj (Option.some.inj h)
  exact ⟨_, rfl⟩

/-- **A delivery is at most one step**: it leaves the spool as it was, or as the push of
its witness leaves it. -/
theorem Inner.deliver_step (h : s.deliver outside stage delivery publics = some (r, s'))
    {w : World} (hspool : s.spool = some w.spool) :
    s'.spool = some w.spool ∨ ∃ w', s'.spool = some w'.spool ∧ w.step
      (.push ⟨stage, delivery.whole, publics, outside.unixMillis⟩ outside.writes) = some w' := by
  rcases Inner.deliver_pushed h with hsame | ⟨spool, counters, spool', counters', hs, hpush, hs'⟩
  · exact .inl (hsame.trans hspool)
  · obtain rfl := Option.some.inj (hs.symm.trans hspool)
    obtain ⟨counted, hpush'⟩ := Spool.push_counters hpush w.counters
    have hstep : ∃ w', w'.spool = spool' ∧ w.step
        (.push ⟨stage, delivery.whole, publics, outside.unixMillis⟩ outside.writes) = some w' := by
      simp only [World.step, World.push, hpush']
      exact ⟨_, rfl, rfl⟩
    obtain ⟨w', rfl, hw'⟩ := hstep
    exact .inr ⟨w', hs', hw'⟩

end Foreground

end Zkasper.RemoteProver
