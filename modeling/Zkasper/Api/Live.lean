import Zkasper.Api.Index

/-! # The live stream

Whatever is recorded is sent to every client that listens, with its `seq`. A client that comes
back says what it has seen last, and is sent what has come since, out of the ring.

The index and its clients are a feed (`refines_feed`), whose numbers go on over restarts and
resets: `nextSeq` is held in memory, and found again in the tables. -/

namespace Zkasper.Api

open Library Transition

/-! ## The index and its clients -/

/-- The index and the clients, and what has happened: every event there has been, and how many
of them there had been when the index was last reset. -/
structure World where
  index : Index
  readers : List (Feed.Reader Entry)
  issued : List Entry
  cleared : ℕ

/-- Nothing has been posted, and nobody is there. -/
def World.start : World := ⟨.empty, [], [], 0⟩

namespace Index

/-- What a client is sent first: `hello`, anchored at the point it resumes from, and what is
behind that. -/
def serveLive (s : Index) : Option ℕ → Feed.Wire Entry
  | none => ⟨some (s.nextSeq - 1), []⟩
  | some since => ⟨some since,
      ((s.events.filter fun row => since < row.2).insertionSort fun r r' => r.2 ≤ r'.2).take
        ringEvents⟩

end Index

namespace World

/-- `this.subs.size` -/
def streams (w : World) : ℕ := w.readers.countP fun r => r.wire.isSome

/-- What has been recorded goes to everybody. -/
def broadcast (index : Index) (out : List (Entry × ℕ)) (w : World) : World where
  index
  readers := w.readers.map (·.push out)
  issued := w.issued ++ out.map (·.1)
  cleared := w.cleared

/-- What can happen next. A client asks with the address it has, which may name a number, and
with what it has seen last. -/
inductive Event where
  | ingest (now : ℤ) (body : Json)
  | reap (now : ℤ)
  | reset
  | putProofMeta (epoch : ℤ) (m : ProofMeta)
  | putProofInline (epoch : ℤ) (m : ProofMeta) (bytes : List UInt8)
  /-- The object is taken out of memory, and every stream with it. -/
  | restart
  | join
  | live (i : ℕ) (since : Option ℕ) (replay : Bool)
  | deliver (i : ℕ)
  | abort (i : ℕ)

/-- The number a client resumes behind, if it asks for that. -/
def resume (r : Feed.Reader Entry) (since : Option ℕ) (replay : Bool) : Option ℕ :=
  if replay then since.or r.seen else none

/-- The client at a place, changed. -/
def atReader (w : World) (i : ℕ) (f : Feed.Reader Entry → Option (Feed.Reader Entry)) :
    Option World := do
  let r ← w.readers[i]?
  let r' ← f r
  return { w with readers := w.readers.set i r' }

def step (w : World) : Event → Option World
  | .ingest now body =>
      let posted := w.index.ingest now body
      some (w.broadcast posted.1 posted.2.outgoing)
  | .reap now =>
      let reaped := w.index.reap now
      some (w.broadcast reaped.1 reaped.2)
  | .reset => some { w with index := w.index.reset, cleared := w.issued.length }
  | .putProofMeta epoch m => some { w with index := w.index.putProofMeta epoch m }
  | .putProofInline epoch m bytes =>
      some { w with index := (w.index.putProofInline epoch m bytes).1 }
  | .restart => some { w with index := w.index.restarted, readers := w.readers.map .lose }
  | .join => some { w with readers := w.readers ++ [.new] }
  | .live i since replay =>
      if maxStreams ≤ w.streams then none
      else w.atReader i fun r =>
        some { r with wire := some (w.index.serveLive (resume r since replay)) }
  | .deliver i => w.atReader i fun r => r.wire.bind r.receive
  | .abort i => w.atReader i fun r => some r.lose

/-- What an event makes of the index. -/
def Event.index : Event → Index → Index
  | .ingest now body, s => (s.ingest now body).1
  | .reap now, s => (s.reap now).1
  | .reset, s => s.reset
  | .putProofMeta epoch m, s => s.putProofMeta epoch m
  | .putProofInline epoch m bytes, s => (s.putProofInline epoch m bytes).1
  | .restart, s => s.restarted
  | .join, s | .live _ _ _, s | .deliver _, s | .abort _, s => s

theorem atReader_eq_some {w w' : World} {i : ℕ}
    {f : Feed.Reader Entry → Option (Feed.Reader Entry)} (h : w.atReader i f = some w') :
    ∃ r r', w.readers[i]? = some r ∧ f r = some r' ∧
      w' = { w with readers := w.readers.set i r' } := by
  obtain ⟨r, hr, h⟩ := Option.bind_eq_some_iff.mp h
  obtain ⟨r', hr', h⟩ := Option.bind_eq_some_iff.mp h
  exact ⟨r, r', hr, hr', (Option.some.inj h).symm⟩

theorem step_index {w w' : World} {e : Event} (h : w.step e = some w') :
    w'.index = e.index w.index := by
  cases e with
  | live i since replay =>
      obtain ⟨-, hlive⟩ := Option.ite_none_left_eq_some.mp h
      obtain ⟨_, _, _, _, rfl⟩ := atReader_eq_some hlive
      rfl
  | deliver i =>
      obtain ⟨_, _, _, _, rfl⟩ := atReader_eq_some h
      rfl
  | abort i =>
      obtain ⟨_, _, _, _, rfl⟩ := atReader_eq_some h
      rfl
  | join =>
      obtain rfl := Option.some.inj h
      rfl
  | _ => exact congrArg World.index (Option.some.inj h).symm

/-- **The rule for the index**: what every event keeps holds in every run. -/
theorem index_invariant {meets : World → Event → Prop} {w w' : World} (Inv : Index → Prop)
    (hstart : Inv w.index) (hevent : ∀ w e, meets w e → Inv w.index → Inv (e.index w.index))
    (h : Reached World.step meets w w') : Inv w'.index := by
  refine h.invariant (fun w => Inv w.index) hstart ?_
  intro w e w' hinv hcondition hstep
  rw [step_index hstep]
  exact hevent w e hcondition hinv

end World

/-! ## The log -/

/-- Whose event it is. -/
def Entry.key (e : Entry) : String × ℤ := (e.daemonId, e.daemonSeq)

namespace Index

/-- **What a step does to the log**: some events are put on it, under the next numbers, and no key
comes twice. The proofs are left as they are. -/
structure Logs (s s' : Index) (out : List (Entry × ℕ)) : Prop where
  events : s'.events = s.events ++ out
  numbers : out = (out.map (·.1)).zipIdx s.nextSeq
  next : s'.nextSeq = s.nextSeq + out.length
  stream : s'.kv.streamSeq = s.kv.streamSeq
  proofs : s'.proofs = s.proofs
  proofChunks : s'.proofChunks = s.proofChunks
  fresh : (s.events.map fun row => row.1.key).Nodup → (s'.events.map fun row => row.1.key).Nodup

namespace Logs

variable {s s' s'' : Index} {out out' : List (Entry × ℕ)}

/-- A step that leaves the log alone. -/
theorem quiet (hevents : s'.events = s.events) (hnext : s'.nextSeq = s.nextSeq)
    (hstream : s'.kv.streamSeq = s.kv.streamSeq) (hproofs : s'.proofs = s.proofs)
    (hchunks : s'.proofChunks = s.proofChunks) : Logs s s' [] where
  events := by rw [hevents, List.append_nil]
  numbers := rfl
  next := hnext
  stream := hstream
  proofs := hproofs
  proofChunks := hchunks
  fresh h := by rwa [hevents]

theorem refl (s : Index) : Logs s s [] := quiet rfl rfl rfl rfl rfl

theorem trans (h : Logs s s' out) (h' : Logs s' s'' out') : Logs s s'' (out ++ out') where
  events := by rw [h'.events, h.events, List.append_assoc]
  numbers := by
    rw [List.map_append, List.zipIdx_append, ← h.numbers, List.length_map, ← h.next, ← h'.numbers]
  next := by rw [h'.next, h.next, List.length_append, Nat.add_assoc]
  stream := h'.stream.trans h.stream
  proofs := h'.proofs.trans h.proofs
  proofChunks := h'.proofChunks.trans h.proofChunks
  fresh hnodup := h'.fresh (h.fresh hnodup)

/-- A step before, or after, that leaves the log alone. -/
theorem after_quiet (h : Logs s s' []) (h' : Logs s' s'' out) : Logs s s'' out := h.trans h'

theorem then_quiet (h : Logs s s' out) (h' : Logs s' s'' []) : Logs s s'' out := by
  have hboth := h.trans h'
  rwa [List.append_nil] at hboth

end Logs

variable (s : Index)

theorem touchEpoch_quiet (epoch : ℤ) : Logs s (s.touchEpoch epoch) [] := by
  unfold touchEpoch
  split
  · exact .refl s
  · exact .quiet rfl rfl rfl rfl rfl

theorem setEpoch_quiet (epoch : ℤ) (patch : List (Column × Option Json)) :
    Logs s (s.setEpoch epoch patch) [] :=
  (s.touchEpoch_quiet epoch).trans (.quiet rfl rfl rfl rfl rfl)

theorem apply_quiet (now : ℤ) (type : String) (d : Json) : Logs s (s.apply now type d) [] := by
  unfold apply
  split
  · split
    · split
      · exact .quiet rfl rfl rfl rfl rfl
      · exact .refl s
    · exact .refl s
  · unfold applyOpened
    dsimp only
    split
    · exact s.setEpoch_quiet _ _
    · exact (s.setEpoch_quiet _ _).trans (setEpoch_quiet _ _ _)
  · split
    · exact (s.touchEpoch_quiet _).trans (.quiet rfl rfl rfl rfl rfl)
    · exact .refl s
  · split
    · exact (s.touchEpoch_quiet _).trans (.quiet rfl rfl rfl rfl rfl)
    · exact .refl s
  · exact s.setEpoch_quiet _ _
  · exact s.setEpoch_quiet _ _
  · exact s.setEpoch_quiet _ _
  · exact s.setEpoch_quiet _ _
  · exact s.setEpoch_quiet _ _
  · exact .refl s

/-- **An event is recorded** unless its key is on the log. -/
theorem record_logs (daemonId : String) (daemonSeq : ℤ) (type : String) (ev : Json) (now : ℤ) :
    Logs s (s.record daemonId daemonSeq type ev now).2
      (s.record daemonId daemonSeq type ev now).1.toList := by
  unfold record
  dsimp only
  split
  · exact .refl s
  · next hnew =>
      refine ⟨rfl, rfl, rfl, rfl, rfl, rfl, fun hnodup => ?_⟩
      rw [List.map_append, List.nodup_append]
      refine ⟨hnodup, List.nodup_singleton _, fun key hkey key' hkey' heq => hnew ?_⟩
      obtain ⟨row, hrow, rfl⟩ := List.mem_map.mp hkey
      obtain rfl := List.mem_singleton.mp hkey'
      obtain ⟨hid, hseq⟩ := Prod.mk.inj heq
      refine List.any_eq_true.mpr ⟨row, hrow, ?_⟩
      rw [Bool.or_eq_true, Bool.and_eq_true]
      exact .inr ⟨decide_eq_true hid, decide_eq_true hseq⟩

theorem record_tables (daemonId : String) (daemonSeq : ℤ) (type : String) (ev : Json) (now : ℤ) :
    (s.record daemonId daemonSeq type ev now).2.kv = s.kv ∧
      (s.record daemonId daemonSeq type ev now).2.epochs = s.epochs := by
  unfold record
  dsimp only
  split <;> exact ⟨rfl, rfl⟩

theorem reapStranded_logs (highest now : ℤ) :
    Logs s (s.reapStranded highest now).1 (s.reapStranded highest now).2 := by
  have hfold : ∀ (rows : List (ℤ × Json)) (current : Option ℤ) (acc : Index × List (Entry × ℕ)),
      Logs s acc.1 acc.2 → Logs s (rows.foldl (reapEpoch highest now current) acc).1
        (rows.foldl (reapEpoch highest now current) acc).2 := by
    intro rows current
    induction rows with
    | nil => exact fun _ h => h
    | cons row rows ih =>
        intro acc hacc
        apply ih
        unfold reapEpoch
        dsimp only
        split
        · exact hacc.trans ((setEpoch_quiet _ _ _).after_quiet (record_logs _ _ _ _ _ _))
        · exact hacc
  exact hfold _ _ (s, []) (.refl s)

theorem lt_of_isStranded {status : Json} {epoch highest : ℤ} {current : Option ℤ}
    (h : isStranded status epoch highest current = true) : epoch < highest := by
  unfold isStranded at h
  split at h
  · cases h
  · split at h
    · rw [Bool.and_eq_true, decide_eq_true_eq, decide_eq_true_eq] at h
      exact h.2
    · cases h

/-- **The rule for a sweep**: what is kept when an epoch below the highest is given up. -/
theorem reapStranded_invariant (Inv : Index → Prop) {highest now : ℤ}
    (hgiven : ∀ (s : Index) (epoch : ℤ), epoch < highest → Inv s →
      Inv ((s.setEpoch epoch [(.status, some (.str "stranded"))]).record "api#stranded" epoch
        "epoch.stranded" (strandedEvent epoch now highest) now).2)
    (h : Inv s) : Inv (s.reapStranded highest now).1 := by
  have hfold : ∀ (rows : List (ℤ × Json)) (current : Option ℤ) (acc : Index × List (Entry × ℕ)),
      Inv acc.1 → Inv (rows.foldl (reapEpoch highest now current) acc).1 := by
    intro rows current
    induction rows with
    | nil => exact fun _ h => h
    | cons row rows ih =>
        intro acc hacc
        apply ih
        unfold reapEpoch
        dsimp only
        split
        · next hstranded => exact hgiven acc.1 row.1 (lt_of_isStranded hstranded) hacc
        · exact hacc
  exact hfold _ _ (s, []) h

/-- What a part of a post puts on the log goes out. -/
def Extends (acc acc' : Index × Ingested) : Prop :=
  ∃ out, Logs acc.1 acc'.1 out ∧ acc'.2.outgoing = acc.2.outgoing ++ out

namespace Extends

variable {acc acc' acc'' : Index × Ingested}

theorem refl (acc : Index × Ingested) : Extends acc acc :=
  ⟨[], .refl acc.1, (List.append_nil _).symm⟩

theorem quiet (hlogs : Logs acc.1 acc'.1 []) (hout : acc'.2.outgoing = acc.2.outgoing) :
    Extends acc acc' :=
  ⟨[], hlogs, by rw [hout, List.append_nil]⟩

theorem trans (h : Extends acc acc') (h' : Extends acc' acc'') : Extends acc acc'' := by
  obtain ⟨out, hlogs, hout⟩ := h
  obtain ⟨out', hlogs', hout'⟩ := h'
  exact ⟨out ++ out', hlogs.trans hlogs', by rw [hout', hout, List.append_assoc]⟩

theorem foldl {f : Index × Ingested → Json → Index × Ingested} (evs : List Json)
    (hf : ∀ acc ev, Extends acc (f acc ev)) : ∀ acc, Extends acc (evs.foldl f acc) := by
  induction evs with
  | nil => exact refl
  | cons ev evs ih =>
      intro acc
      exact (hf acc ev).trans (ih _)

end Extends

theorem ingestEvent_extends (daemonId : String) (now : ℤ) (acc : Index × Ingested) (ev : Json) :
    Extends acc (ingestEvent daemonId now acc ev) := by
  unfold ingestEvent
  dsimp only
  split
  · next type daemonSeq _ _ =>
      have hrecord := record_logs acc.1 daemonId daemonSeq type ev now
      split
      · next hrun =>
          rw [hrun] at hrecord
          exact .quiet hrecord rfl
      · next row _ hrun =>
          rw [hrun] at hrecord
          exact ⟨[row], hrecord.then_quiet (apply_quiet _ _ _ _), rfl⟩
  · exact .refl acc

theorem ingestStatus_extends (body : Json) (now : ℤ) (acc : Index × Ingested) :
    Extends acc (ingestStatus body now acc) := by
  unfold ingestStatus
  split
  · exact .refl acc
  · next status _ =>
      split
      · dsimp only
        have hstatus : Logs acc.1 (acc.1.setStatus now status) [] := .quiet rfl rfl rfl rfl rfl
        split
        · exact .quiet hstatus rfl
        · exact ⟨_, hstatus.after_quiet (record_logs _ _ _ _ _ _), rfl⟩
      · exact .refl acc

theorem ingestReap_extends (now : ℤ) (acc : Index × Ingested) :
    Extends acc (ingestReap now acc) := by
  unfold ingestReap
  dsimp only
  split
  · exact .refl acc
  · next highest _ =>
      split
      · have hmark : Logs acc.1 { acc.1 with
            kv := { acc.1.kv with highestEpoch := some highest } } [] := .quiet rfl rfl rfl rfl rfl
        exact ⟨_, hmark.after_quiet (reapStranded_logs _ _ _), rfl⟩
      · exact .refl acc

theorem trim_tables : s.trim.kv = s.kv ∧ s.trim.epochs = s.epochs ∧ s.trim.proofs = s.proofs ∧
    s.trim.proofChunks = s.proofChunks := by
  unfold trim
  split <;> exact ⟨rfl, rfl, rfl, rfl⟩

theorem trim_sublist : s.trim.events.Sublist s.events := by
  unfold trim
  split
  · exact List.Sublist.refl _
  · exact List.filter_sublist

/-- **A post**: the count of the stream is kept, and the log is cut. -/
theorem ingest_stores (now : ℤ) (body : Json) :
    (s.ingest now body).2 = (s.ingested now body).2 ∧
      (s.ingest now body).1.events = (s.ingested now body).1.trim.events ∧
      (s.ingest now body).1.nextSeq = (s.ingested now body).1.nextSeq ∧
      (s.ingest now body).1.kv.streamSeq = some ((s.ingested now body).1.nextSeq - 1) := by
  unfold ingest
  generalize s.ingested now body = ingested
  refine ⟨rfl, ?_⟩
  cases hlast : ingested.1.maxSeq with
  | none =>
      have htrim : ∀ kv : Kv, trim { ingested.1 with kv } = { ingested.1 with kv } := fun kv => by
        have hsame : maxSeq { ingested.1 with kv } = none := hlast
        rw [trim, hsame]
      dsimp only
      rw [htrim]
      refine ⟨?_, rfl, rfl⟩
      rw [trim, hlast]
  | some last =>
      have htrim : ∀ kv : Kv, trim { ingested.1 with kv } = { ingested.1 with
          kv
          events := ingested.1.events.filter fun row => last < row.2 + ringEvents } :=
        fun kv => by
          have hsame : maxSeq { ingested.1 with kv } = some last := hlast
          rw [trim, hsame]
      dsimp only
      rw [htrim]
      refine ⟨?_, rfl, rfl⟩
      rw [trim, hlast]

/-- **A sweep** asked for, where there is an epoch. -/
theorem reap_stores (now : ℤ) {highest : ℤ} (h : s.highestEpoch = some highest) :
    ∃ index, Logs s index (s.reap now).2 ∧ (s.reap now).1.events = index.events ∧
      (s.reap now).1.nextSeq = index.nextSeq ∧
      (s.reap now).1.kv.streamSeq = some (index.nextSeq - 1) := by
  have hmark : Logs s { s with kv := { s.kv with highestEpoch := some highest } } [] :=
    .quiet rfl rfl rfl rfl rfl
  have hlogs := hmark.after_quiet (reapStranded_logs _ highest now)
  unfold reap
  rw [h]
  exact ⟨_, hlogs, rfl, rfl, rfl⟩

/-- The index when the events of a post are looked at. -/
theorem daemon_quiet (body : Json) : Logs s (if (daemonOf body).isEmpty then s else
    { s with kv := { s.kv with daemon := some (daemonOf body) } }) [] := by
  split
  · exact .refl s
  · exact .quiet rfl rfl rfl rfl rfl

theorem ingested_logs (now : ℤ) (body : Json) :
    Logs s (s.ingested now body).1 (s.ingested now body).2.outgoing := by
  have hevents := Extends.foldl (eventsOf body) (ingestEvent_extends (daemonIdOf body) now)
  obtain ⟨out, hlogs, hout⟩ := ((hevents _).trans (ingestStatus_extends body now _)).trans
    (ingestReap_extends now _)
  unfold ingested
  rw [hout]
  exact (s.daemon_quiet body).after_quiet hlogs

theorem landProof_quiet (epoch : ℤ) (m : ProofMeta) : Logs s (s.landProof epoch m) [] := by
  unfold landProof
  split
  · exact .refl s
  · exact s.setEpoch_quiet _ _

/-- A step that keeps the log, and the number of the next event. -/
def KeepsLog (s s' : Index) : Prop :=
  s'.events = s.events ∧ s'.nextSeq = s.nextSeq ∧ s'.kv.streamSeq = s.kv.streamSeq

theorem putProofMeta_keepsLog (epoch : ℤ) (m : ProofMeta) :
    KeepsLog s (s.putProofMeta epoch m) := by
  have hland := landProof_quiet
    (dropChunks epoch { s with proofs := s.proofs.put epoch ⟨m, .r2, 0, false⟩ }) epoch m
  exact ⟨hland.events.trans (List.append_nil _), hland.next, hland.stream⟩

/-- **The rule for the loop of `evict`**: what every turn of it keeps. -/
theorem evictLoop_invariant (Inv : Index → Prop)
    (hturn : ∀ (s : Index) (epoch : ℤ) (row : ProofRow), s.oldestInline = some (epoch, row) →
      Inv s → Inv (s.evictEpoch epoch row)) :
    ∀ {turns : ℕ} {s : Index}, Inv s → Inv (s.evictLoop turns).1 := by
  intro turns
  induction turns with
  | zero => exact fun h => h
  | succ turns ih =>
      intro s h
      unfold evictLoop
      split
      · exact h
      · split
        · exact h
        · next holdest => exact ih (hturn _ _ _ holdest h)

theorem evictLoop_keepsLog (turns : ℕ) : KeepsLog s (s.evictLoop turns).1 :=
  evictLoop_invariant (KeepsLog s) (fun _ _ _ _ h => h) ⟨rfl, rfl, rfl⟩

theorem evictLoop_tables (turns : ℕ) :
    (s.evictLoop turns).1.kv = s.kv ∧ (s.evictLoop turns).1.epochs = s.epochs :=
  evictLoop_invariant (fun s' => s'.kv = s.kv ∧ s'.epochs = s.epochs) (fun _ _ _ _ h => h)
    ⟨rfl, rfl⟩

theorem putProofInline_keepsLog (epoch : ℤ) (m : ProofMeta) (bytes : List UInt8) :
    KeepsLog s (s.putProofInline epoch m bytes).1 := evictLoop_keepsLog _ _

end Index

/-! ## The index is a feed -/

namespace World

/-- A key comes again only when the ring has gone round, or the index was reset. -/
def Spaced (cleared : ℕ) (issued : List Entry) : Prop :=
  ∀ i j e e', i < j → issued[i]? = some e → issued[j]? = some e' → e.key = e'.key →
    i < cleared ∨ i + ringEvents < j

/-- **How the log is stored**: the newest events under their numbers, and the count of all. -/
structure Stored (w : World) (floor : ℕ) : Prop where
  floor_le : floor ≤ w.issued.length
  cleared_le : w.cleared ≤ floor
  ring : floor ≤ max w.cleared (w.issued.length - ringEvents)
  events : w.index.events = Feed.behind w.issued floor
  next : w.index.nextSeq = w.issued.length + 1
  stream : w.index.kv.streamSeq.getD 0 = w.issued.length
  fresh : (w.index.events.map fun row => row.1.key).Nodup
  spaced : Spaced w.cleared w.issued

/-- The index and its clients, as a feed. -/
def feed (w : World) (floor : ℕ) : Feed.State Entry := ⟨w.issued, floor, w.readers⟩

theorem Stored.start : World.start.Stored 0 where
  floor_le := Nat.le_refl _
  cleared_le := Nat.le_refl _
  ring := Nat.zero_le _
  events := rfl
  next := rfl
  stream := rfl
  fresh := .nil
  spaced _ _ _ _ _ h := by cases h

variable {w w' : World} {floor : ℕ} {out : List (Entry × ℕ)} {index : Index}

theorem maxSeq_behind {issued : List Entry} (hfloor : floor < issued.length)
    (hevents : index.events = Feed.behind issued floor) :
    index.maxSeq = some issued.length := by
  rw [Index.maxSeq, hevents, Feed.numbers_behind, List.max?_eq_some_iff]
  constructor
  · rw [List.mem_range'_1]
    omega
  · intro number hnumber
    rw [List.mem_range'_1] at hnumber
    omega

theorem maxSeq_nil (hevents : index.events = []) : index.maxSeq = none := by
  rw [Index.maxSeq, hevents]
  rfl

/-- **The count is found again** in the tables. -/
theorem Stored.loadSeq (h : w.Stored floor) : w.index.loadSeq = w.index.nextSeq := by
  rw [Index.loadSeq, h.stream, h.next]
  rcases Nat.lt_or_eq_of_le h.floor_le with hlt | heq
  · rw [maxSeq_behind hlt h.events, Option.getD_some, Nat.max_self]
  · have hnil : w.index.events = [] := by rw [h.events, heq, Feed.behind_length]
    rw [maxSeq_nil hnil, Option.getD_none, Nat.max_zero]

/-- Cutting the log keeps the ring. -/
theorem trim_behind {issued : List Entry} (hevents : index.events = Feed.behind issued floor)
    (hfloor : floor ≤ issued.length) :
    index.trim.events = Feed.behind issued (max floor (issued.length - ringEvents)) := by
  rcases Nat.lt_or_eq_of_le hfloor with hlt | heq
  · have htrim : index.trim.events =
        index.events.filter fun row => issued.length < row.2 + ringEvents := by
      rw [Index.trim, maxSeq_behind hlt hevents]
    rw [htrim, hevents, ← Feed.filter_behind]
    apply List.filter_congr
    intro row hrow
    have hpos := List.le_snd_of_mem_zipIdx hrow
    rw [decide_eq_decide]
    omega
  · have hnil : index.events = [] := by rw [hevents, heq, Feed.behind_length]
    have htrim : index.trim = index := by rw [Index.trim, maxSeq_nil hnil]
    rw [htrim, hnil, heq, Nat.max_eq_left (Nat.sub_le _ _), Feed.behind_length]

/-- What is recorded goes on the log. -/
theorem Stored.logs (h : w.Stored floor) (hlogs : w.index.Logs index out) :
    index.events = Feed.behind (w.issued ++ out.map (·.1)) floor ∧
      out = (out.map (·.1)).zipIdx (w.issued.length + 1) ∧
      index.nextSeq = (w.issued ++ out.map (·.1)).length + 1 ∧
      (index.events.map fun row => row.1.key).Nodup := by
  have hnumbers := hlogs.numbers
  rw [h.next] at hnumbers
  refine ⟨?_, hnumbers, ?_, hlogs.fresh h.fresh⟩
  · rw [hlogs.events, Feed.behind_append h.floor_le, ← hnumbers, h.events]
  · rw [hlogs.next, h.next, List.length_append, List.length_map]
    omega

/-- **Everything after a number**, out of the ring. -/
theorem Stored.serveLive (h : w.Stored floor) (since : Option ℕ) :
    w.index.serveLive since = (w.feed floor).opening ringEvents since := by
  cases since with
  | none =>
      rw [Index.serveLive, h.next]
      rfl
  | some since =>
      have hsorted : ((Feed.behind w.issued (max floor since)).insertionSort
          fun r r' => r.2 ≤ r'.2) = Feed.behind w.issued (max floor since) := by
        apply List.Pairwise.insertionSort_eq
        have hnumbers : ((Feed.behind w.issued (max floor since)).map (·.2)).Pairwise (· ≤ ·) := by
          rw [Feed.numbers_behind]
          exact List.pairwise_le_range'
        exact List.pairwise_map.mp hnumbers
      rw [Index.serveLive, h.events, Feed.filter_behind, hsorted]
      rfl

/-- Every epoch that is named can be the key of a row. -/
def Keyed (_ : World) : Event → Prop
  | .ingest _ body => ∀ ev ∈ Index.eventsOf body, ∀ epoch ∈ num (ev.get? "epoch"), IsKey epoch
  | .putProofMeta epoch _ | .putProofInline epoch _ _ => IsKey epoch
  | _ => True

instance decidableKeyed (w : World) (e : Event) : Decidable (Keyed w e) :=
  match e with
  | .ingest _ body => inferInstanceAs (Decidable (∀ ev ∈ Index.eventsOf body,
      ∀ epoch ∈ num (ev.get? "epoch"), IsKey epoch))
  | .putProofMeta epoch _ | .putProofInline epoch _ _ => inferInstanceAs (Decidable (IsKey epoch))
  | .reap _ | .reset | .restart | .join | .live _ _ _ | .deliver _ | .abort _ => .isTrue trivial

/-- A client that has seen something resumes behind that. -/
def Resumes (w : World) : Event → Prop
  | .live i since replay => ∀ r, w.readers[i]? = some r → ∀ number, r.seen = some number →
      resume r since replay = some number
  | _ => True

/-- Everything behind the number a client resumes at is in the ring. -/
def Kept (w : World) : Event → Prop
  | .live i since replay => ∀ r, w.readers[i]? = some r → ∀ number,
      resume r since replay = some number →
        number < w.index.nextSeq ∧ w.index.nextSeq ≤ number + ringEvents + 1 ∧
          ∀ seq, number < seq → seq < w.index.nextSeq → seq ∈ w.index.events.map (·.2)
  | _ => True

instance decidableResumes (w : World) (e : Event) : Decidable (Resumes w e) :=
  match e with
  | .live i since replay => inferInstanceAs (Decidable (∀ r ∈ w.readers[i]?, ∀ number ∈ r.seen,
      resume r since replay = some number))
  | .ingest _ _ | .reap _ | .reset | .putProofMeta _ _ | .putProofInline _ _ _ | .restart | .join
  | .deliver _ | .abort _ => .isTrue trivial

instance decidableKept (w : World) (e : Event) : Decidable (Kept w e) :=
  match e with
  | .live i since replay => inferInstanceAs (Decidable (∀ r ∈ w.readers[i]?,
      ∀ number ∈ resume r since replay,
        number < w.index.nextSeq ∧ w.index.nextSeq ≤ number + ringEvents + 1 ∧
          ∀ seq, number + 1 ≤ seq → seq < w.index.nextSeq → seq ∈ w.index.events.map (·.2)))
  | .ingest _ _ | .reap _ | .reset | .putProofMeta _ _ | .putProofInline _ _ _ | .restart | .join
  | .deliver _ | .abort _ => .isTrue trivial

theorem Stored.kept (h : w.Stored floor) {number : ℕ} (hlt : number < w.index.nextSeq)
    (hring : w.index.nextSeq ≤ number + ringEvents + 1)
    (hheld : ∀ seq, number < seq → seq < w.index.nextSeq → seq ∈ w.index.events.map (·.2)) :
    floor ≤ number ∧ number ≤ w.issued.length ∧ w.issued.length ≤ number + ringEvents := by
  have hnext := h.next
  refine ⟨?_, by omega, by omega⟩
  by_contra hlost
  have hfloor := h.floor_le
  have hmem := hheld (number + 1) (by omega) (by omega)
  rw [h.events, Feed.numbers_behind, List.mem_range'_1] at hmem
  omega

theorem map_push_nil (readers : List (Feed.Reader Entry)) :
    readers.map (·.push []) = readers := by
  have hsame : (fun r : Feed.Reader Entry => r.push []) = id := funext Feed.push_nil
  rw [hsame, List.map_id]

theorem broadcast_nil (w : World) : w.broadcast w.index [] = w := by
  show World.mk w.index (w.readers.map (·.push [])) (w.issued ++ []) w.cleared = w
  rw [map_push_nil, List.append_nil]

theorem Stored.readers (h : w.Stored floor) (readers : List (Feed.Reader Entry)) :
    Stored { w with readers } floor :=
  ⟨h.floor_le, h.cleared_le, h.ring, h.events, h.next, h.stream, h.fresh, h.spaced⟩

theorem Stored.floor_append (h : w.Stored floor) (items : List Entry) :
    floor ≤ (w.issued ++ items).length := by
  rw [List.length_append]
  exact Nat.le_add_right_of_le h.floor_le

theorem Stored.ring_append (h : w.Stored floor) (items : List Entry) :
    floor ≤ max w.cleared ((w.issued ++ items).length - ringEvents) := by
  have hring := h.ring
  rw [List.length_append]
  omega

/-- A request that leaves the log alone. -/
theorem Stored.quiet (h : w.Stored floor) (hkeeps : w.index.KeepsLog index) :
    Stored { w with index } floor := by
  obtain ⟨hevents, hnext, hstream⟩ := hkeeps
  refine ⟨h.floor_le, h.cleared_le, h.ring, hevents.trans h.events, hnext.trans h.next, ?_, ?_,
    h.spaced⟩
  · rw [hstream]
    exact h.stream
  · rw [hevents]
    exact h.fresh

/-- Events are recorded whose keys are not on the log. -/
theorem Spaced.append {cleared : ℕ} {issued items : List Entry} (h : Spaced cleared issued)
    (hring : floor ≤ max cleared (issued.length - ringEvents))
    (hfresh : ((Feed.behind (issued ++ items) floor).map fun row => row.1.key).Nodup) :
    Spaced cleared (issued ++ items) := by
  intro i j e e' hij hi hj hkey
  by_cases hlast : j < issued.length
  · rw [List.getElem?_append_left hlast] at hj
    rw [List.getElem?_append_left (by omega)] at hi
    exact h i j e e' hij hi hj hkey
  · by_cases hheld : floor ≤ i
    · -- both are on the log
      exfalso
      have hkeys : (Feed.behind (issued ++ items) floor).map (fun row => row.1.key) =
          ((issued ++ items).drop floor).map Entry.key := by
        show List.map (Entry.key ∘ Prod.fst) _ = _
        rw [← List.map_map, Feed.behind, List.zipIdx_map_fst]
      rw [hkeys, List.nodup_iff_getElem?_ne_getElem?] at hfresh
      have hlength := (List.getElem?_eq_some_iff.mp hj).1
      apply hfresh (i - floor) (j - floor) (by omega)
      · rw [List.length_map, List.length_drop]
        omega
      · rw [List.getElem?_map, List.getElem?_map, List.getElem?_drop, List.getElem?_drop,
          Nat.add_sub_cancel' hheld, Nat.add_sub_cancel' (by omega), hi, hj, Option.map_some,
          Option.map_some, hkey]
    · omega

/-- **What has been recorded is sent to everybody**, and the log is cut or not. -/
theorem Stored.broadcast {floor' : ℕ} (h : w.Stored floor) (hlogs : w.index.Logs index out)
    {stored : Index} (hle : floor ≤ floor') (hfloor' : floor' ≤ (w.issued ++ out.map (·.1)).length)
    (hring : floor' ≤ max w.cleared ((w.issued ++ out.map (·.1)).length - ringEvents))
    (hevents : stored.events = Feed.behind (w.issued ++ out.map (·.1)) floor')
    (hsublist : stored.events.Sublist index.events) (hnext : stored.nextSeq = index.nextSeq)
    (hstream : stored.kv.streamSeq = some (index.nextSeq - 1)) :
    (w.broadcast stored out).Stored floor' ∧
      Feed.step ringEvents (w.feed floor) (.extend (out.map (·.1)) floor') =
        some ((w.broadcast stored out).feed floor') := by
  obtain ⟨hindexed, hout, hindex, hfresh⟩ := h.logs hlogs
  refine ⟨⟨hfloor', h.cleared_le.trans hle, hring, hevents, hnext.trans hindex, ?_, ?_, ?_⟩, ?_⟩
  · show stored.kv.streamSeq.getD 0 = _
    rw [hstream, hindex]
    rfl
  · exact hfresh.sublist (hsublist.map _)
  · rw [hindexed] at hfresh
    exact h.spaced.append h.ring hfresh
  · rw [List.length_append] at hfloor'
    rw [Feed.step, if_pos ⟨hle, hfloor'⟩]
    show some (Feed.State.mk _ _ (w.readers.map (·.push ((out.map (·.1)).zipIdx
      (w.issued.length + 1))))) = _
    rw [← hout]
    rfl

/-- **One step of the index** is a step of the feed, or leaves it alone. -/
theorem Stored.step {e : Event} (h : w.Stored floor) (hstep : step w e = some w') :
    ∃ floor', w'.Stored floor' ∧ (w'.feed floor' = w.feed floor ∨
      ∃ fe, Feed.step ringEvents (w.feed floor) fe = some (w'.feed floor') ∧
        (Resumes w e → Feed.Resumes (w.feed floor) fe) ∧
          (Kept w e → Feed.Kept ringEvents (w.feed floor) fe)) := by
  cases e with
  | ingest now body =>
      obtain rfl : w.broadcast (w.index.ingest now body).1 (w.index.ingest now body).2.outgoing =
        w' := Option.some.inj hstep
      have hlogs := w.index.ingested_logs now body
      obtain ⟨hevents, -, -, -⟩ := h.logs hlogs
      -- what is trimmed is behind the ring, and the feed may forget as much
      have hall := h.floor_append ((w.index.ingested now body).2.outgoing.map (·.1))
      obtain ⟨hposted, hcut, hnext, hstream⟩ := w.index.ingest_stores now body
      rw [hposted]
      obtain ⟨hstored, hfeed⟩ := h.broadcast hlogs (Nat.le_max_left floor _)
        (Nat.max_le.mpr ⟨hall, Nat.sub_le _ ringEvents⟩)
        (Nat.max_le.mpr ⟨h.ring_append _, Nat.le_max_right _ _⟩)
        (hcut.trans (trim_behind hevents hall)) (hcut ▸ Index.trim_sublist _) hnext hstream
      exact ⟨_, hstored, .inr ⟨_, hfeed, fun _ => trivial, fun _ => trivial⟩⟩
  | reap now =>
      obtain rfl : w.broadcast (w.index.reap now).1 (w.index.reap now).2 = w' :=
        Option.some.inj hstep
      cases hhighest : w.index.highestEpoch with
      | none =>
          have hsame : w.broadcast (w.index.reap now).1 (w.index.reap now).2 = w := by
            rw [Index.reap, hhighest]
            exact broadcast_nil w
          rw [hsame]
          exact ⟨floor, h, .inl rfl⟩
      | some highest =>
          obtain ⟨index, hlogs, hevents, hnext, hstream⟩ :=
            w.index.reap_stores now hhighest
          obtain ⟨hstored, hfeed⟩ := h.broadcast hlogs (Nat.le_refl floor) (h.floor_append _)
            (h.ring_append _) (hevents.trans (h.logs hlogs).1) (hevents ▸ List.Sublist.refl _)
            hnext hstream
          exact ⟨floor, hstored, .inr ⟨_, hfeed, fun _ => trivial, fun _ => trivial⟩⟩
  | reset =>
      obtain rfl := Option.some.inj hstep
      -- every event is forgotten, but the numbers go on
      refine ⟨w.issued.length, ⟨Nat.le_refl _, Nat.le_refl _, Nat.le_max_left _ _,
        (Feed.behind_length _).symm, h.next, ?_, .nil, ?_⟩,
        .inr ⟨.extend [] w.issued.length, ?_, fun _ => trivial, fun _ => trivial⟩⟩
      · show (some (w.index.nextSeq - 1)).getD 0 = _
        rw [h.next]
        rfl
      · intro i j e e' hij _ hj _
        have hlt := (List.getElem?_eq_some_iff.mp hj).1
        exact .inl (Nat.lt_trans hij hlt)
      · rw [Feed.step, if_pos ⟨h.floor_le, Nat.le_refl _⟩, List.append_nil]
        show some (Feed.State.mk _ _ (w.readers.map (·.push []))) = _
        rw [map_push_nil]
        rfl
  | putProofMeta epoch m =>
      obtain rfl := Option.some.inj hstep
      exact ⟨floor, h.quiet (w.index.putProofMeta_keepsLog epoch m), .inl rfl⟩
  | putProofInline epoch m bytes =>
      obtain rfl := Option.some.inj hstep
      exact ⟨floor, h.quiet (w.index.putProofInline_keepsLog epoch m bytes), .inl rfl⟩
  | restart =>
      obtain rfl := Option.some.inj hstep
      -- the next number is read back from what is stored, so nothing moves but the clients
      have hsame : w.index.restarted = w.index := by
        rw [Index.restarted, h.loadSeq]
      rw [hsame]
      exact ⟨floor, h.readers _, .inr ⟨.loseAll, rfl, fun _ => trivial, fun _ => trivial⟩⟩
  | join =>
      obtain rfl := Option.some.inj hstep
      exact ⟨floor, h.readers _, .inr ⟨.join, rfl, fun _ => trivial, fun _ => trivial⟩⟩
  | live i since replay =>
      obtain ⟨-, hlive⟩ := Option.ite_none_left_eq_some.mp hstep
      obtain ⟨r, r', hr, hr', rfl⟩ := atReader_eq_some hlive
      obtain rfl := Option.some.inj hr'
      refine ⟨floor, h.readers _,
        .inr ⟨.connect i (resume r since replay), ?_, fun hresumes r₁ hr₁ => ?_, fun hkept => ?_⟩⟩
      · rw [h.serveLive]
        exact Feed.atReader_of_eq hr rfl
      · obtain rfl : r = r₁ := Option.some.inj (hr.symm.trans hr₁)
        exact hresumes r hr
      · cases hresume : resume r since replay with
        | none => trivial
        | some number =>
            obtain ⟨hlt, hring, hheld⟩ := hkept r hr number hresume
            exact h.kept hlt hring hheld
  | deliver i =>
      obtain ⟨r, r', hr, hr', rfl⟩ := atReader_eq_some hstep
      exact ⟨floor, h.readers _, .inr ⟨.deliver i, Feed.atReader_of_eq hr hr',
        fun _ => trivial, fun _ => trivial⟩⟩
  | abort i =>
      obtain ⟨r, r', hr, hr', rfl⟩ := atReader_eq_some hstep
      exact ⟨floor, h.readers _, .inr ⟨.lose i, Feed.atReader_of_eq hr hr',
        fun _ => trivial, fun _ => trivial⟩⟩

/-- **Every run of the index is a run of the feed**, on the events there have been. -/
theorem refines_feed {meets : World → Event → Prop}
    {meets' : Feed.State Entry → Feed.Event Entry → Prop}
    (hmeets : ∀ w e floor fe, meets w e → (Resumes w e → Feed.Resumes (w.feed floor) fe) →
      (Kept w e → Feed.Kept ringEvents (w.feed floor) fe) → meets' (w.feed floor) fe)
    (h : Reached World.step meets .start w) :
    ∃ floor, w.Stored floor ∧
      Reached (Feed.step ringEvents) meets' ⟨[], 0, []⟩ (w.feed floor) := by
  refine h.invariant (fun w => ∃ floor, w.Stored floor ∧
    Reached (Feed.step ringEvents) meets' ⟨[], 0, []⟩ (w.feed floor)) ⟨0, .start, .start⟩ ?_
  rintro w e w' ⟨floor, hstored, hrun⟩ hcondition hstep
  obtain ⟨floor', hstored', hsame | ⟨fe, hfeed, hresumes, hkept⟩⟩ := hstored.step hstep
  · exact ⟨floor', hstored', hsame ▸ hrun⟩
  · exact ⟨floor', hstored',
      hrun.step (hmeets w e floor fe hcondition hresumes hkept) hfeed⟩

theorem reached_stored {meets : World → Event → Prop} (h : Reached World.step meets .start w) :
    ∃ floor, w.Stored floor := by
  have hmeets : ∀ w e floor fe, meets w e → (Resumes w e → Feed.Resumes (w.feed floor) fe) →
      (Kept w e → Feed.Kept ringEvents (w.feed floor) fe) → always (w.feed floor) fe :=
    fun _ _ _ _ _ _ _ => trivial
  obtain ⟨floor, hstored, -⟩ := refines_feed hmeets h
  exact ⟨floor, hstored⟩

/-- **In order, and nothing twice**: as long as clients resume behind what they have seen, what
each has been given goes up, and every event came under the number it has. -/
theorem given_in_order (h : Reached World.step Resumes .start w) {r : Feed.Reader Entry}
    (hr : r ∈ w.readers) :
    (r.given.Pairwise fun p q => p.2 < q.2) ∧
      ∀ p ∈ r.given, 1 ≤ p.2 ∧ w.issued[p.2 - 1]? = some p.1 := by
  obtain ⟨floor, -, hrun⟩ := refines_feed (fun _ _ _ _ hresumes hfeed _ => hfeed hresumes) h
  have hordered := Feed.reached_ordered hrun r hr
  refine ⟨(List.pairwise_append.mp hordered.ascending).1, fun p hp => ?_⟩
  exact List.mem_zipIdx_iff_le_and_getElem?_sub.mp
    (hordered.authentic p (List.mem_append_left _ hp))

/-- **Nothing is missed**: if every request is served whole, and the ring also holds what each has
missed when it resumes, a client has been given every event since it first came, up to the last it
has seen. On a stream with nothing under way, that is the last there has been. -/
theorem given_whole
    (h : Reached World.step (fun w e => Keyed w e ∧ Resumes w e ∧ Kept w e) .start w)
    {r : Feed.Reader Entry} (hr : r ∈ w.readers) {last : ℕ} (hseen : r.seen = some last) :
    (∃ first, r.since = some first ∧ (first ≤ last ∧ last ≤ w.issued.length) ∧
      r.given = Feed.between w.issued first last) ∧
      (r.wire = some ⟨none, []⟩ → last = w.issued.length) := by
  obtain ⟨floor, -, hrun⟩ : ∃ floor, w.Stored floor ∧ Reached (Feed.step ringEvents)
      (fun s e => Feed.Resumes s e ∧ Feed.Kept ringEvents s e) ⟨[], 0, []⟩ (w.feed floor) :=
    refines_feed (fun _ _ _ _ hcondition hresumes hkept =>
      ⟨hresumes hcondition.2.1, hkept hcondition.2.2⟩) h
  have hcomplete := Feed.reached_complete hrun r hr
  refine ⟨hcomplete.seen last hseen, fun hwire => ?_⟩
  obtain ⟨number, -, hle, hitems, hlast⟩ := hcomplete.wire _ hwire
  obtain rfl := hlast last hseen
  have hnone : (Feed.behind w.issued number).length = 0 := congrArg List.length hitems.symm
  rw [Feed.behind, List.length_zipIdx, List.length_drop] at hnone
  exact Nat.le_antisymm hle (Nat.le_of_sub_eq_zero hnone)

end World

end Zkasper.Api

/-! ## A client that comes back -/

namespace Zkasper.Formal

open Api

/-- A post of one event. -/
def post (type : String) (daemonSeq epoch : ℤ) : Json :=
  .obj [("daemon", .obj [("id", .str "formal")]),
    ("events", .arr [.obj [("type", .str type), ("seq", .num daemonSeq), ("epoch", .num epoch)]])]

/-- A client sees one event and loses its connection, and another comes while it is away. The
object is restarted, and the client comes back for what it has missed. -/
def comesBack : List World.Event :=
  [.join, .live 0 none true, .ingest 5 (post "epoch.opened" 1 7), .deliver 0, .deliver 0,
    .abort 0, .ingest 6 (post "epoch.abandoned" 2 7), .restart, .live 0 none true, .deliver 0,
    .deliver 0]

end Zkasper.Formal

namespace Zkasper.Api.World

open Library Transition Formal

theorem given_in_order_comesBack : ∃ w, run World.step Resumes .start comesBack = some w ∧
    (w.readers.map fun r => r.given.map (·.2)) = [[1, 2]] ∧ ∀ r ∈ w.readers,
      (r.given.Pairwise fun p q => p.2 < q.2) ∧
        ∀ p ∈ r.given, 1 ≤ p.2 ∧ w.issued[p.2 - 1]? = some p.1 := by
  obtain ⟨w, hrun, hgiven⟩ : ∃ w, run World.step Resumes .start comesBack = some w ∧
      (w.readers.map fun r => r.given.map (·.2)) = [[1, 2]] := by decide +kernel
  exact ⟨w, hrun, hgiven, fun r hr => given_in_order (.of_run hrun) hr⟩

theorem given_whole_comesBack : ∃ w,
    run World.step (fun w e => Keyed w e ∧ Resumes w e ∧ Kept w e) .start comesBack = some w ∧
    w.issued.length = 2 ∧ ∀ r ∈ w.readers, ∃ first, r.since = some first ∧
      r.given = Feed.between w.issued first 2 := by
  obtain ⟨w, hrun, hseen, hlength⟩ : ∃ w,
      run World.step (fun w e => Keyed w e ∧ Resumes w e ∧ Kept w e) .start comesBack = some w ∧
      (w.readers.map (·.seen)) = [some 2] ∧ w.issued.length = 2 := by decide +kernel
  refine ⟨w, hrun, hlength, fun r hr => ?_⟩
  have hlast : r.seen = some 2 := by
    have hmem := List.mem_map_of_mem (f := Feed.Reader.seen) hr
    rw [hseen] at hmem
    exact List.mem_singleton.mp hmem
  obtain ⟨⟨first, hfirst, -, hgiven⟩, -⟩ := given_whole (.of_run hrun) hr hlast
  exact ⟨first, hfirst, hgiven⟩

end Zkasper.Api.World
