import Zkasper.Api.Status
import Zkasper.Library.Feed
import Zkasper.Library.Tables
import Mathlib.Data.List.Sort

/-! # The public index

The one writer behind the public API: what daemons post goes into an event log, of which the
newest `ringEvents` are kept, and into the epochs it is about; proof bytes are stored beside
them; and everything that is new goes to the clients that listen.

A request is handled in one turn, so it is one step. What the object holds in memory is gone
when it is restarted: the number the next event gets, and who is listening. A column of JSON
text holds the value it was written from. Times and totals that are only ever shown are
columns like the others; `updated_millis` is not kept. -/

namespace Zkasper.Api

open Library

/-! ## Tables -/

/-- How many events are kept. -/
def ringEvents : ℕ := 5000

/-- How many may listen. -/
def maxStreams : ℕ := 200

def chunkBytes : ℕ := 512 * 1024

/-- How many bytes of proofs are kept where there is no bucket for them. -/
def inlineTotalCap : ℕ := 1024 * 1024 * 1024

/-- The columns of `epochs`. -/
inductive Column where
  | chain | status | abandonedReason | targetRoot | pipeline | prover
  | openedUnixMillis | closedUnixMillis | finalizesEpoch | justified | finalized | accumulator
  | latency | proof | publicInputs | verify | summary
  | stageCount | proveMillisTotal | wrapMillisTotal | proverMillisTotal | wallMillisTotal
  deriving DecidableEq

/-- A row of `epochs`; `NULL` is `null`. -/
abbrev EpochRow := Column → Json

/-- The columns of `stages` beside its key. -/
inductive StageColumn where
  | slot | startedUnixMillis | finishedUnixMillis | millis | proveMillis | wrapMillis
  | witness | proofBytes | extra
  deriving DecidableEq

abbrev StageRow := StageColumn → Json

structure StageKey where
  epoch : ℤ
  stage : String
  /-- Minus one where the event names no index. -/
  idx : ℤ
  deriving DecidableEq

/-- What can be the key of a row of `epochs` or `proofs`: a 64-bit integer, and none of the two at
the ends, as it is bound as a double. SQLite refuses any other, and the request that names it is
answered 500 in the middle; the functions below take every integer, and are those of the source for
keys (`World.Keyed`). -/
def IsKey (epoch : ℤ) : Prop :=
  -9223372036854775808 < epoch ∧ epoch < 9223372036854775807

instance decidableIsKey (epoch : ℤ) : Decidable (IsKey epoch) := inferInstanceAs (Decidable (_ ∧ _))

/-- Where the bytes of a proof are. -/
inductive Backend where
  | r2
  | inline
  deriving DecidableEq

/-- What an upload says of a proof. -/
structure ProofMeta where
  bytes : ℕ
  sha256 : String
  stage : Option String
  programVk : Option String
  publicBytes : Option String
  deriving DecidableEq

/-- A row of `proofs`. -/
structure ProofRow extends ProofMeta where
  backend : Backend
  chunks : ℕ
  evicted : Bool
  deriving DecidableEq

/-- An event: who it is of and under which number, and what it says. -/
structure Entry where
  daemonId : String
  daemonSeq : ℤ
  type : String
  data : Json

/-- The rows of `kv`. -/
structure Kv where
  daemon : Option Json
  lastDaemonSeq : Option ℤ
  status : Option Json
  statusReceivedMillis : Option ℤ
  highestEpoch : Option ℤ
  streamSeq : Option ℕ

/-- The tables, and the number the next event gets. -/
structure Index where
  kv : Kv
  /-- Every event with its `seq`, the oldest first. -/
  events : List (Entry × ℕ)
  epochs : Table ℤ EpochRow
  stages : Table StageKey StageRow
  proofs : Table ℤ ProofRow
  proofChunks : Table (ℤ × ℕ) (List UInt8)
  nextSeq : ℕ

namespace Index

/-- Before anything has been posted. -/
def empty : Index := ⟨⟨none, none, none, none, none, none⟩, [], [], [], [], [], 1⟩

/-- `MAX(seq)` -/
def maxSeq (s : Index) : Option ℕ := (s.events.map (·.2)).max?

def loadSeq (s : Index) : ℕ := max (s.kv.streamSeq.getD 0) (s.maxSeq.getD 0) + 1

/-- The constructor: the tables are there already. -/
def restarted (s : Index) : Index := { s with nextSeq := s.loadSeq }

/-! ## Indexing -/

/-- A new row. -/
def newEpoch : EpochRow
  | .status => .str "proving"
  | _ => .null

/-- A row for an epoch that can have one. -/
def touchEpoch (epoch : ℤ) (s : Index) : Index :=
  match s.epochs.get? epoch with
  | some _ => s
  | none => { s with epochs := s.epochs.put epoch newEpoch }

/-- The row with some columns written; what is `undefined` is left alone. -/
def patched (row : EpochRow) (patch : List (Column × Option Json)) : EpochRow := fun column =>
  patch.foldl (fun value entry => if entry.1 = column then entry.2.getD value else value)
    (row column)

def setEpoch (epoch : ℤ) (patch : List (Column × Option Json)) (s : Index) : Index :=
  let s := s.touchEpoch epoch
  { s with epochs := s.epochs.put epoch (patched ((s.epochs.get? epoch).getD newEpoch) patch) }

/-- `jparse` of a column: none where there is no row, or `NULL`. -/
def column (s : Index) (epoch : ℤ) (col : Column) : Option Json :=
  (s.epochs.get? epoch).bind fun row => defined (row col)

def mergeLatency (epoch : ℤ) (patch : List (String × Option ℤ)) (s : Index) : Index :=
  let cur := (s.column epoch .latency).getD (.obj [])
  let next := Json.spread (.obj [("epoch", .num epoch)]) cur
  let next := patch.foldl (fun next field =>
    match field.2 with
    | none => next
    | some n => next.set field.1 (.num n)) next
  s.setEpoch epoch [(.latency, some next)]

/-- `jmerge`: what is stored is kept where the new value has nothing for it. -/
def jmerge (s : Index) (epoch : ℤ) (col : Column) (v : Option Json) : Option Json :=
  (defined v).map fun v =>
    if v.isRecord then
      match s.column epoch col with
      | some cur => if cur.isRecord then cur.spread v else v
      | none => v
    else v

/-- What an event says a stage column is; `undefined` and `null` are the same here. -/
def coalesce (new : Json) (old : Json) : Json :=
  match new with
  | .null => old
  | new => new

/-- The fields of a stage event that have columns of their own. -/
def stageFields : List String :=
  ["seq", "unix_millis", "epoch", "stage", "slot", "index", "millis", "prove_millis",
    "wrap_millis", "witness", "proof_bytes", "started_unix_millis", "finished_unix_millis"]

def nullable (n : Option ℤ) : Json := (n.map .num).getD .null

/-- What a stage event writes. -/
def stagePatch (finished : Bool) (d : Json) : StageRow
  | .slot => nullable (num (d.get? "slot"))
  | .startedUnixMillis =>
      if finished then nullable (num (d.get? "started_unix_millis"))
      else nullable ((num (d.get? "started_unix_millis")).or (num (d.get? "unix_millis")))
  | .finishedUnixMillis =>
      if finished then
        nullable ((num (d.get? "finished_unix_millis")).or (num (d.get? "unix_millis")))
      else .null
  | .millis => if finished then nullable (num (d.get? "millis")) else .null
  | .proveMillis => if finished then nullable (num (d.get? "prove_millis")) else .null
  | .wrapMillis => if finished then nullable (num (d.get? "wrap_millis")) else .null
  | .witness => (defined (d.get? "witness")).getD .null
  | .proofBytes => if finished then nullable (num (d.get? "proof_bytes")) else .null
  | .extra =>
      let extra := d.fields.filter fun field => field.1 ∉ stageFields
      if extra = [] then .null else .obj extra

def applyStage (finished : Bool) (epoch : ℤ) (stage : String) (d : Json) (s : Index) : Index :=
  let s := s.touchEpoch epoch
  let key : StageKey := ⟨epoch, stage, (num (d.get? "index")).getD (-1)⟩
  let row := (s.stages.get? key).getD fun _ => .null
  { s with stages := s.stages.put key fun col => coalesce (stagePatch finished d col) (row col) }

/-- The value as a column of text, if it is a string. -/
def text (v : Option Json) : Option Json := (str v).map .str

/-- The value as a column of integers, if it is a number. -/
def integer (v : Option Json) : Option Json := (num v).map .num

def setStatus (now : ℤ) (status : Json) (s : Index) : Index :=
  { s with kv := { s.kv with status := some status, statusReceivedMillis := some now } }

def applyOpened (epoch : ℤ) (d : Json) (s : Index) : Index :=
  let s := s.setEpoch epoch [
    (.targetRoot, text (d.get? "target_root")),
    (.finalizesEpoch, integer (d.get? "finalizes_epoch")),
    (.accumulator, defined (d.get? "accumulator")),
    (.openedUnixMillis,
      (integer (d.get? "opened_unix_millis")).or (integer (d.get? "unix_millis"))),
    (.chain, text (d.get? "chain")),
    (.pipeline, text (d.get? "pipeline")),
    (.prover, text (d.get? "prover"))]
  match s.column epoch .status with
  | some _ => s
  | none => s.setEpoch epoch [(.status, some (.str "proving"))]

/-- A proof landing is not the same as a proof existing. -/
def applyLanded (epoch : ℤ) (d : Json) (s : Index) : Index :=
  let latency : Option Json := match d.get? "latency" with
    | some v => if v.isObject then some (Json.spread (.obj [("epoch", .num epoch)]) v) else none
    | none => none
  s.setEpoch epoch [
    (.proof, defined (d.get? "proof")),
    (.publicInputs, defined (d.get? "public_inputs")),
    (.verify, defined (d.get? "verify")),
    (.status, some (.str (if proofAvailable (d.get? "proof") then "proven" else "unproven"))),
    (.latency, latency)]

/-- The summary of an epoch that closed, or nothing. -/
def closingSummary (d : Json) : Json :=
  match d.get? "summary" with
  | some v => if v.isObject then v else .obj []
  | none => .obj []

/-- A summary need not repeat the proof that an earlier event carried. -/
def applyClosed (epoch : ℤ) (d : Json) (s : Index) : Index :=
  let summary := closingSummary d
  let closingProof := (defined (summary.get? "proof")).or (s.column epoch .proof)
  s.setEpoch epoch [
    (.summary, defined (d.get? "summary")),
    (.status, (statusForProof (summary.get? "status") closingProof).map .str),
    (.targetRoot, text (summary.get? "target_root")),
    (.pipeline, text (summary.get? "pipeline")),
    (.prover, text (summary.get? "prover")),
    (.chain, text (summary.get? "chain")),
    (.openedUnixMillis, integer (summary.get? "opened_unix_millis")),
    (.closedUnixMillis,
      (integer (summary.get? "closed_unix_millis")).or (integer (d.get? "unix_millis"))),
    (.finalizesEpoch, integer (summary.get? "finalizes_epoch")),
    (.justified, defined (summary.get? "justified")),
    (.finalized, defined (summary.get? "finalized")),
    (.latency, s.jmerge epoch .latency (summary.get? "latency")),
    (.proof, s.jmerge epoch .proof (summary.get? "proof")),
    (.publicInputs, s.jmerge epoch .publicInputs (summary.get? "public_inputs")),
    (.verify, s.jmerge epoch .verify (summary.get? "verify")),
    (.accumulator, s.jmerge epoch .accumulator (summary.get? "accumulator")),
    (.stageCount, integer (summary.get? "stage_count")),
    (.proveMillisTotal, integer (summary.get? "prove_millis_total")),
    (.wrapMillisTotal, integer (summary.get? "wrap_millis_total")),
    (.proverMillisTotal, integer (summary.get? "prover_millis_total")),
    (.wallMillisTotal, integer (summary.get? "wall_millis_total"))]

def applyAbandoned (epoch : ℤ) (d : Json) (s : Index) : Index :=
  s.setEpoch epoch [
    (.status, some (.str "abandoned")),
    (.abandonedReason, some ((text (d.get? "reason")).getD .null)),
    (.closedUnixMillis,
      (integer (d.get? "closed_unix_millis")).or (integer (d.get? "unix_millis")))]

/-- What an event says, written into the tables. An event without an epoch, or of a type that is
not known, says nothing. -/
def apply (now : ℤ) (type : String) (d : Json) (s : Index) : Index :=
  match type, num (d.get? "epoch") with
  | "status", _ =>
      match d.get? "status" with
      | some status => if status.isObject then s.setStatus now status else s
      | none => s
  | "epoch.opened", some epoch => s.applyOpened epoch d
  | "stage.started", some epoch =>
      match str (d.get? "stage") with
      | some stage => s.applyStage false epoch stage d
      | none => s
  | "stage.finished", some epoch =>
      match str (d.get? "stage") with
      | some stage => s.applyStage true epoch stage d
      | none => s
  | "threshold.crossed", some epoch =>
      s.mergeLatency epoch [
        ("observed_unix_millis", (num (d.get? "observed_unix_millis")).or
          ((num (d.get? "threshold_unix_millis")).or (num (d.get? "unix_millis"))))]
  | "threshold.fired", some epoch =>
      s.mergeLatency epoch [
        ("fired_unix_millis",
          (num (d.get? "fired_unix_millis")).or (num (d.get? "unix_millis"))),
        ("blocked_millis", num (d.get? "blocked_millis")),
        ("wait_millis", num (d.get? "wait_millis")),
        ("late_group_millis", num (d.get? "late_group_millis")),
        ("tail", num (d.get? "tail")),
        ("tail_named", num (d.get? "tail_named")),
        ("late_groups", num (d.get? "late_groups"))]
  | "proof.landed", some epoch => s.applyLanded epoch d
  | "epoch.closed", some epoch => s.applyClosed epoch d
  | "epoch.abandoned", some epoch => s.applyAbandoned epoch d
  | _, _ => s

/-! ## The event log -/

/-- What is stored of an event: what was posted, under the number of the stream. -/
def eventData (now : ℤ) (seq : ℕ) (ev : Json) : Json :=
  let data := (ev.erase "type").set "seq" (.num seq)
  match num (data.get? "unix_millis") with
  | some _ => data
  | none => data.set "unix_millis" (.num now)

/-- `INSERT OR IGNORE`: none if the daemon's number is there already. -/
def record (daemonId : String) (daemonSeq : ℤ) (type : String) (ev : Json) (now : ℤ) (s : Index) :
    Option (Entry × ℕ) × Index :=
  let seq := s.nextSeq
  let entry : Entry := ⟨daemonId, daemonSeq, type, eventData now seq ev⟩
  if s.events.any fun row =>
      row.2 = seq || (row.1.daemonId = daemonId && row.1.daemonSeq = daemonSeq) then (none, s)
  else
    (some (entry, seq), { s with events := s.events ++ [(entry, seq)], nextSeq := seq + 1 })

/-- The events of the ring are kept. -/
def trim (s : Index) : Index :=
  match s.maxSeq with
  | none => s
  | some last => { s with events := s.events.filter fun row => last < row.2 + ringEvents }

/-! ## Epochs left open -/

/-- The highest epoch ever heard of. -/
def highestEpoch (s : Index) : Option ℤ := s.epochs.keys.max?

/-- What the daemon says it is at: the epoch it works on, if that is a number, or the one its
accumulator is at, whichever is higher. -/
def currentEpoch (s : Index) : Option ℤ :=
  let status := s.kv.status.getD .null
  let current := num (status.get? "current_epoch")
  let accumulator := (status.get? "accumulator").bind fun a => num (a.get? "epoch")
  (current.toList ++ accumulator.toList).max?

/-- The epochs below one that are still open, with their status, in order. -/
def openBelow (s : Index) (highest : ℤ) : List (ℤ × Json) :=
  ((s.epochs.filter fun row => match row.2 .status with
    | .str status => status = "proving" && row.1 < highest
    | _ => false).map fun row => (row.1, row.2 .status)).insertionSort fun r r' => r.1 ≤ r'.1

/-- The event of an epoch that is given up. -/
def strandedEvent (epoch now highest : ℤ) : Json :=
  .obj [("type", .str "epoch.stranded"), ("epoch", .num epoch), ("unix_millis", .num now),
    ("highest_epoch", .num highest)]

/-- One epoch that is still open. -/
def reapEpoch (highest now : ℤ) (current : Option ℤ) (acc : Index × List (Entry × ℕ))
    (row : ℤ × Json) : Index × List (Entry × ℕ) :=
  let (s, out) := acc
  let (epoch, status) := row
  if isStranded status epoch highest current then
    let s := s.setEpoch epoch [(.status, some (.str "stranded"))]
    -- keyed on the epoch
    let (recorded, s) := s.record "api#stranded" epoch "epoch.stranded"
      (strandedEvent epoch now highest) now
    (s, out ++ recorded.toList)
  else (s, out)

/-- Close out the epochs a daemon opened and never came back to. -/
def reapStranded (highest now : ℤ) (s : Index) : Index × List (Entry × ℕ) :=
  (s.openBelow highest).foldl (reapEpoch highest now s.currentEpoch) (s, [])

/-! ## Requests -/

/-- What a post has come to so far. -/
structure Ingested where
  accepted : ℕ
  duplicates : ℕ
  lastSeq : ℤ
  outgoing : List (Entry × ℕ)

/-- One event of a post. What is no event is passed over. -/
def ingestEvent (daemonId : String) (now : ℤ) (acc : Index × Ingested) (ev : Json) :
    Index × Ingested :=
  let (s, p) := acc
  match str (ev.get? "type"), num (ev.get? "seq") with
  | some type, some daemonSeq =>
      match s.record daemonId daemonSeq type ev now with
      | (none, s) => (s, { p with duplicates := p.duplicates + 1 })
      | (some row, s) =>
          (s.apply now type row.1.data, { p with
            accepted := p.accepted + 1
            lastSeq := if p.lastSeq < daemonSeq then daemonSeq else p.lastSeq
            outgoing := p.outgoing ++ [row] })
  | _, _ => (s, p)

/-- The events of a post. -/
def eventsOf (body : Json) : List Json :=
  match body.get? "events" with
  | some (.arr events) => events
  | _ => []

def daemonOf (body : Json) : Json :=
  match body.get? "daemon" with
  | some d => if d.isObject then d else .obj []
  | none => .obj []

def daemonIdOf (body : Json) : String :=
  match str ((daemonOf body).get? "id") with
  | some id => if id = "" then "unknown" else id
  | none => "unknown"

/-- A status beside the events is an event of its own, unless one of them is a status: it is
keyed on when it was updated. -/
def ingestStatus (body : Json) (now : ℤ) (acc : Index × Ingested) : Index × Ingested :=
  match body.get? "status" with
  | none => acc
  | some status =>
      if status.isObject then
        let (s, p) := acc
        let s := s.setStatus now status
        if (eventsOf body).any fun ev => str (ev.get? "type") = some "status" then (s, p)
        else
          let key := (num (status.get? "updated_unix")).getD p.lastSeq
          let (recorded, s) := s.record (daemonIdOf body ++ "#status") key "status"
            (.obj [("type", .str "status"), ("seq", .num key), ("unix_millis", .num now),
              ("status", status)]) now
          (s, { p with outgoing := p.outgoing ++ recorded.toList })
      else acc

/-- Only when something newer arrived. -/
def ingestReap (now : ℤ) (acc : Index × Ingested) : Index × Ingested :=
  let (s, p) := acc
  match s.highestEpoch with
  | none => (s, p)
  | some highest =>
      if s.kv.highestEpoch.getD (-1) < highest then
        let s := { s with kv := { s.kv with highestEpoch := some highest } }
        let (s, out) := s.reapStranded highest now
        (s, { p with outgoing := p.outgoing ++ out })
      else (s, p)

/-- What a post comes to before the log is cut. -/
def ingested (now : ℤ) (body : Json) (s : Index) : Index × Ingested :=
  let s := if (daemonOf body).isEmpty then s else
    { s with kv := { s.kv with daemon := some (daemonOf body) } }
  let acc := (eventsOf body).foldl (ingestEvent (daemonIdOf body) now)
    (s, ⟨0, 0, s.kv.lastDaemonSeq.getD 0, []⟩)
  ingestReap now (ingestStatus body now acc)

/-- `POST /v1/ingest`, of events whose epochs are keys. -/
def ingest (now : ℤ) (body : Json) (s : Index) : Index × Ingested :=
  let (s, p) := s.ingested now body
  let s := { s with
    kv := { s.kv with lastDaemonSeq := some p.lastSeq, streamSeq := some (s.nextSeq - 1) } }
  (s.trim, p)

/-- `POST /v1/ingest/reap` -/
def reap (now : ℤ) (s : Index) : Index × List (Entry × ℕ) :=
  match s.highestEpoch with
  | none => (s, [])
  | some highest =>
      let s := { s with kv := { s.kv with highestEpoch := some highest } }
      let (s, out) := s.reapStranded highest now
      ({ s with kv := { s.kv with streamSeq := some (s.nextSeq - 1) } }, out)

/-- `POST /v1/ingest/reset`: the count of the stream survives. -/
def reset (s : Index) : Index :=
  { empty with
    kv := { empty.kv with streamSeq := some (s.nextSeq - 1) }
    nextSeq := s.nextSeq }

/-! ## Proofs -/

/-- A field, if it says anything. -/
def textField (key : String) (v : Option String) : List (String × Json) :=
  match v with
  | some v => if v = "" then [] else [(key, .str v)]
  | none => []

/-- What an upload adds to the reference of a proof. -/
def proofReference (m : ProofMeta) : Json :=
  .obj ([("available", .bool true), ("bytes", .num m.bytes)] ++
    textField "sha256" (some m.sha256) ++ textField "stage" m.stage ++
    textField "program_vk" m.programVk ++ textField "public_bytes" m.publicBytes)

/-- Proof bytes that arrive after the epoch closed still close the hole. -/
def landProof (epoch : ℤ) (m : ProofMeta) (s : Index) : Index :=
  if m.bytes = 0 then s
  else
    let proof := s.jmerge epoch .proof (some (proofReference m))
    let unproven : Bool := str (s.column epoch .status) = some "unproven"
    s.setEpoch epoch [(.proof, proof), (.status, if unproven then some (.str "proven") else none)]

/-- The chunks of an epoch are gone. -/
def dropChunks (epoch : ℤ) (s : Index) : Index :=
  { s with proofChunks := s.proofChunks.filter fun row => row.1.1 ≠ epoch }

/-- The bytes are in the bucket; this is what is known of them, of an epoch that is a key. -/
def putProofMeta (epoch : ℤ) (m : ProofMeta) (s : Index) : Index :=
  let s := { s with proofs := s.proofs.put epoch ⟨m, .r2, 0, false⟩ }
  (s.dropChunks epoch).landProof epoch m

/-- The pieces of a proof. -/
def pieces (bytes : List UInt8) : List (List UInt8) :=
  (List.range ((bytes.length + chunkBytes - 1) / chunkBytes)).map fun n =>
    (bytes.drop (n * chunkBytes)).take chunkBytes

def isHeld (row : ProofRow) : Bool := row.backend = .inline && !row.evicted

/-- How many bytes are held here. -/
def inlineTotal (s : Index) : ℕ :=
  (s.proofs.filter fun row => isHeld row.2).foldr (fun row total => row.2.bytes + total) 0

/-- The oldest proof that is held here. -/
def oldestInline (s : Index) : Option (ℤ × ProofRow) :=
  ((s.proofs.filter fun row => isHeld row.2).insertionSort fun r r' => r.1 ≤ r'.1).head?

def evictEpoch (epoch : ℤ) (row : ProofRow) (s : Index) : Index :=
  let s := s.dropChunks epoch
  { s with proofs := s.proofs.put epoch { row with evicted := true, chunks := 0 } }

/-- The loop of `evict`; it takes a turn for each proof at most. -/
def evictLoop : ℕ → Index → Index × List ℤ
  | 0, s => (s, [])
  | turns + 1, s =>
      if s.inlineTotal ≤ inlineTotalCap then (s, [])
      else
        match s.oldestInline with
        | none => (s, [])
        | some (epoch, row) =>
            let (s, gone) := evictLoop turns (s.evictEpoch epoch row)
            (s, epoch :: gone)

/-- Oldest-first eviction. -/
def evict (s : Index) : Index × List ℤ := evictLoop (s.proofs.length + 1) s

/-- The rows of the pieces. -/
def chunkRows (epoch : ℤ) (bytes : List UInt8) : Table (ℤ × ℕ) (List UInt8) :=
  (pieces bytes).zipIdx.map fun (chunk : List UInt8 × ℕ) => ((epoch, chunk.2), chunk.1)

/-- The bytes go into the tables, for an epoch that is a key. -/
def putProofInline (epoch : ℤ) (m : ProofMeta) (bytes : List UInt8) (s : Index) :
    Index × List ℤ :=
  let s := s.dropChunks epoch
  let s := { s with
    proofChunks := s.proofChunks ++ chunkRows epoch bytes
    proofs := s.proofs.put epoch
      ⟨{ m with bytes := bytes.length }, .inline, (pieces bytes).length, false⟩ }
  s.evict

/-- `serveProofMeta`, where there is a row. -/
def proofMeta (s : Index) (epoch : ℤ) : Option ProofRow := s.proofs.get? epoch

/-- `serveProofBody`: the pieces, one after the other, in a buffer of the size on record; none
where no bytes are held, or they do not fit. -/
def proofBody (s : Index) (epoch : ℤ) : Option (List UInt8) :=
  match s.proofs.get? epoch with
  | none => none
  | some row =>
      if isHeld row then
        let parts := ((s.proofChunks.filter fun chunk => chunk.1.1 = epoch).insertionSort
          fun a b => a.1.2 ≤ b.1.2).map (·.2)
        let out := parts.flatten
        if out.length ≤ row.bytes then some (out ++ List.replicate (row.bytes - out.length) 0)
        else none
      else none

/-- `missing_proofs` of `serveCursor`: the epochs whose proof is said to be available and is not
held, the highest two hundred of them. -/
def missingProofs (s : Index) : List ℤ :=
  let missing := s.epochs.filter fun row =>
    match (defined (row.2 .proof)).bind fun proof => proof.get? "available" with
    | some (.bool true) | some (.num 1) =>
        match s.proofs.get? row.1 with
        | some proof => proof.evicted
        | none => true
    | _ => false
  (((missing.map (·.1)).insertionSort (· ≥ ·)).take 200).reverse

end Index

end Zkasper.Api
