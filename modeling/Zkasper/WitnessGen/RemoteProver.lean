import Zkasper.Recursion
import Mathlib.Data.List.Basic
import Mathlib.Logic.Function.Basic

/-! # The remote prover's parts

What the two ends of the link exchange, how a reply is judged, and the spool that keeps
the witnesses no server answered for.

The spool is a queue of file names with a cap. Making room pops from the front until
the queue is under the cap, which a queue with a cap of zero never is: `evict` runs that
loop on fuel, and `push_isSome_iff` says when it ends. -/

namespace Zkasper.RemoteProver

/-! ## Stages -/

/-- The proof stages, in the order the pipeline runs them. -/
inductive Stage where
  | epochDiff
  | committee
  | slotProof
  | justification
  | finalization
  | group
  | aggregate
  | streamFinal
  deriving DecidableEq

namespace Stage

def asStr : Stage → String
  | epochDiff => "epoch_diff"
  | committee => "committee"
  | slotProof => "slot_proof"
  | justification => "justification"
  | finalization => "finalization"
  | group => "group"
  | aggregate => "aggregate"
  | streamFinal => "stream_final"

/-- Whether this stage's proof is kept in the store and consumed by a later epoch's
circuit. -/
def isPersisted (stage : Stage) : Bool :=
  stage = epochDiff || stage = streamFinal || stage = justification

end Stage

/-! ## Replies -/

/-- The words a parent proof verifies. -/
abbrev Proof := List UInt64

structure ProveCost where
  proveMillis : UInt64
  wrapMillis : UInt64
  deriving DecidableEq

inductive Reply where
  | proved (proof : Proof) (cost : ProveCost)
  /-- The server reached the witness and would not prove it. -/
  | failed (reason : String)
  /-- The server does not hold the member table the request builds on. -/
  | needMemberTable
  deriving DecidableEq

/-- A stage the server can prove, and what a proof of it binds to. -/
structure ProgramInfo where
  stage : Stage
  vk : ProgramVk
  elfSha256 : Option String

/-- What replies are judged by: the server's address, the programs of the handshake, and
the proof system. -/
structure Judge where
  addr : String
  programs : List ProgramInfo
  verifyChild : Proof → ProgramVk → List UInt8 → Bool

namespace Judge

variable (judge : Judge)

def find (stage : Stage) : Option ProgramInfo := judge.programs.find? (·.stage = stage)

def program (stage : Stage) : Except String ProgramInfo :=
  Guest.expect (judge.find stage)
    s!"the {stage.asStr} stage was not set up; add it to RemoteProverConfig::stages"

/-- A reply of no words is not a proof, unless the server has no program to prove with. -/
def rejectEmpty (stage : Stage) (proof : Proof) : Except String Unit :=
  if proof ≠ [] then return ()
  else do
    let program ← judge.program stage
    Guest.assert (program.elfSha256 = none)
      s!"the prover at {judge.addr} answered the {stage.asStr} witness with an empty proof"

/-- A proof is only a proof if this end accepts it. -/
def check (stage : Stage) (proof : Proof) (publics : List UInt8) : Except String Unit := do
  let program ← judge.program stage
  Guest.assert (judge.verifyChild proof program.vk publics = true)
    s!"the {stage.asStr} proof from {judge.addr} does not verify against its own program key and outputs"

/-- A reply that says it is a proof, judged. -/
def accept (stage : Stage) (proof : Proof) (publics : List UInt8) : Except String Unit := do
  judge.rejectEmpty stage proof
  judge.check stage proof publics

variable {judge} {stage : Stage} {proof : Proof} {publics : List UInt8}

theorem program_eq_ok {info : ProgramInfo} :
    judge.program stage = .ok info ↔ judge.find stage = some info :=
  Guest.expect_eq_ok

/-- **What is accepted**: words that verify, or none from a server with no program. -/
theorem accept_eq_ok {u : Unit} :
    judge.accept stage proof publics = .ok u ↔
      ∃ info, judge.find stage = some info ∧ judge.verifyChild proof info.vk publics = true ∧
        (proof = [] → info.elfSha256 = none) := by
  simp only [accept, rejectEmpty, check, Guest.bind_eq_ok, program_eq_ok, Guest.assert_eq_ok]
  constructor
  · rintro ⟨_, hempty, info, hinfo, hverify⟩
    refine ⟨info, hinfo, hverify, fun hproof => ?_⟩
    rw [if_neg (not_not.mpr hproof)] at hempty
    obtain ⟨info', hinfo', helf⟩ := Guest.bind_eq_ok.mp hempty
    rw [program_eq_ok, hinfo] at hinfo'
    obtain rfl := Option.some.inj hinfo'
    exact Guest.assert_eq_ok.mp helf
  · rintro ⟨info, hinfo, hverify, hempty⟩
    refine ⟨(), ?_, info, hinfo, hverify⟩
    split
    · rfl
    · next hproof =>
        exact Guest.bind_eq_ok.mpr ⟨info, program_eq_ok.mpr hinfo,
          Guest.assert_eq_ok.mpr (hempty (not_not.mp hproof))⟩

end Judge

/-! ## The spool -/

/-- What the link has cost so far. -/
structure Counters where
  proved : ℕ := 0
  unproven : ℕ := 0
  timedOut : ℕ := 0
  spooled : ℕ := 0
  dropped : ℕ := 0
  recovered : ℕ := 0
  pending : ℕ := 0

/-- A witness the server never took, kept so the epoch can be proven late. -/
structure Spooled where
  stage : Stage
  witness : List UInt8
  /-- What the local circuit committed. -/
  publics : List UInt8
  unixMillis : ℕ
  deriving DecidableEq

/-- A spooled file's name, `{unix_millis}-{written}-{stage}.req`. -/
structure SpoolPath where
  unixMillis : ℕ
  written : ℕ
  stage : Stage
  deriving DecidableEq

/-- A bounded, ordered, on-disk queue of unproven witnesses. -/
structure Spool where
  capacity : ℕ
  queue : List SpoolPath
  written : ℕ
  /-- What the files of its directory hold. -/
  files : SpoolPath → Option Spooled

namespace Spool

/-- A spool on the files an earlier run left. -/
def opened (existing : List SpoolPath) (files : SpoolPath → Option Spooled) (capacity : ℕ) :
    Spool where
  capacity := capacity
  queue := existing
  written := 0
  files := files

variable (spool : Spool) (counters : Counters)

/-- Drop the front entry, and its file. -/
def popFront : Spool :=
  match spool.queue with
  | [] => spool
  | path :: queue => { spool with queue, files := Function.update spool.files path none }

def pop : Spool × Counters :=
  (spool.popFront, { counters with pending := spool.popFront.queue.length })

/-- The loop that makes room: pop while the queue is at its cap. -/
def evict : ℕ → Spool → Counters → Option (Spool × Counters)
  | 0, _, _ => none
  | fuel + 1, spool, counters =>
      if spool.capacity ≤ spool.queue.length then
        let (spool, counters) := spool.pop counters
        evict fuel spool { counters with dropped := counters.dropped + 1 }
      else some (spool, counters)

/-- The name the next entry is written under. -/
def nextPath (entry : Spooled) : SpoolPath := ⟨entry.unixMillis, spool.written + 1, entry.stage⟩

/-- Write an entry to its file and queue it, where the file can be written. -/
def append (entry : Spooled) (writes : Bool) : Spool × Counters :=
  let path := spool.nextPath entry
  let counted := { spool with written := spool.written + 1 }
  let spool' :=
    if writes then
      { counted with
        queue := spool.queue ++ [path]
        files := Function.update spool.files path (some entry) }
    else counted
  (spool', { counters with
    spooled := if writes then counters.spooled + 1 else counters.spooled
    pending := spool'.queue.length })

/-- Keep a witness. One round of making room for each entry, and one to see that there is
room, is all the loop ever needs where it ends at all. -/
def push (entry : Spooled) (writes : Bool) : Option (Spool × Counters) := do
  let (spool, counters) ← evict (spool.queue.length + 1) spool counters
  return spool.append counters entry writes

/-! ### What making room drops -/

/-- Entries over the cap, counting the one to come. -/
def excess : ℕ := spool.queue.length + 1 - spool.capacity

/-- The spool without its first entries. -/
def popped (k : ℕ) : Spool :=
  { spool with
    queue := spool.queue.drop k
    files := fun path => if path ∈ spool.queue.take k then none else spool.files path }

variable {spool counters}

theorem popped_zero : spool.popped 0 = spool := by
  simp [popped]

theorem popped_succ {path : SpoolPath} {queue : List SpoolPath} (h : spool.queue = path :: queue)
    (k : ℕ) : spool.popped (k + 1) = spool.popFront.popped k := by
  simp only [popFront, popped, h, List.drop_succ_cons, List.take_succ_cons, List.mem_cons,
    Spool.mk.injEq, true_and]
  funext p
  by_cases hp : p = path
  · subst hp
    simp
  · simp [hp]

/-- **Making room** ends with the entries over the cap dropped and counted. -/
theorem evict_eq_some : ∀ (fuel : ℕ) (spool : Spool) (counters : Counters),
    spool.capacity ≠ 0 → spool.excess < fuel → ∃ pending, evict fuel spool counters =
      some (spool.popped spool.excess,
        { counters with dropped := counters.dropped + spool.excess, pending }) := by
  intro fuel
  induction fuel with
  | zero => exact fun _ _ _ h => absurd h (Nat.not_lt_zero _)
  | succ fuel ih =>
      intro spool counters hcapacity hfuel
      rw [evict]
      split
      · next hfull =>
          cases hqueue : spool.queue with
          | nil =>
              rw [hqueue] at hfull
              exact absurd (Nat.le_zero.mp hfull) hcapacity
          | cons path queue =>
              have hrest : spool.popFront.queue = queue := by rw [popFront, hqueue]
              have hcap : spool.popFront.capacity = spool.capacity := by rw [popFront, hqueue]
              have hexcess : spool.excess = spool.popFront.excess + 1 := by
                rw [excess, excess, hrest, hcap, hqueue, List.length_cons]
                rw [hqueue, List.length_cons] at hfull
                omega
              obtain ⟨pending, hrun⟩ := ih spool.popFront { counters with
                  dropped := counters.dropped + 1, pending := spool.popFront.queue.length }
                (by rw [hcap]; exact hcapacity) (by omega)
              refine ⟨pending, hrun.trans ?_⟩
              rw [hexcess, popped_succ hqueue, Nat.add_comm spool.popFront.excess, Nat.add_assoc]
      · next hroom =>
          have hexcess : spool.excess = 0 := by rw [excess]; omega
          exact ⟨counters.pending, by simp [hexcess, popped_zero]⟩

/-- With a cap of zero there is never room. -/
theorem evict_eq_none : ∀ (fuel : ℕ) {spool : Spool} {counters : Counters}, spool.capacity = 0 →
    evict fuel spool counters = none := by
  intro fuel
  induction fuel with
  | zero => exact fun _ => rfl
  | succ fuel ih =>
      intro spool counters hcapacity
      have hcap : spool.popFront.capacity = 0 := by
        rw [popFront]
        split <;> exact hcapacity
      rw [evict, if_pos (by rw [hcapacity]; exact Nat.zero_le _)]
      exact ih hcap

/-- **What a push does**, where it ends. -/
theorem push_eq_some (hcapacity : spool.capacity ≠ 0) (entry : Spooled) (writes : Bool) :
    spool.push counters entry writes = some ((spool.popped spool.excess).append
      { counters with dropped := counters.dropped + spool.excess } entry writes) := by
  have hfuel : spool.excess < spool.queue.length + 1 := by
    rw [excess]
    omega
  obtain ⟨pending, hrun⟩ := evict_eq_some _ spool counters hcapacity hfuel
  rw [push, hrun]
  rfl

theorem push_isSome_iff (spool : Spool) (counters : Counters) (entry : Spooled) (writes : Bool) :
    (spool.push counters entry writes).isSome = true ↔ spool.capacity ≠ 0 := by
  by_cases hcapacity : spool.capacity = 0
  · rw [push, evict_eq_none _ hcapacity]
    simp [hcapacity]
  · rw [push_eq_some hcapacity]
    simp [hcapacity]

/-- A push counts nothing as unproven; its caller has. -/
theorem push_unproven {entry : Spooled} {writes : Bool} {spool' : Spool} {counters' : Counters}
    (h : spool.push counters entry writes = some (spool', counters')) :
    counters'.unproven = counters.unproven := by
  have hcapacity : spool.capacity ≠ 0 :=
    (push_isSome_iff spool counters entry writes).mp (by rw [h]; rfl)
  rw [push_eq_some hcapacity] at h
  have hcounters : _ = counters' := congrArg Prod.snd (Option.some.inj h)
  rw [← hcounters]
  rfl

end Spool

end Zkasper.RemoteProver
