import Zkasper.Library.Frames
import Zkasper.Library.Transition
import Mathlib.Data.List.DropRight
import Mathlib.Data.UInt

/-! # Attestation gossip

The beacon node's event stream. A task reads it and files what it carries, and the
daemon takes what was filed, whenever it gets to it. The stream arrives in chunks
that end anywhere; a frame is an event or a comment, and one comment is how the node
admits that it threw events away. A connection that ends is opened again, and what
was gossiped meanwhile is not delivered.

The two parties share a mailbox, two flags and three counters, and every read or
write of one of them is a step of its own here. Over every interleaving of these
steps, and however the stream was cut, the daemon gets each attestation of the
stream once and in order (`delivered_once`), and no outage and no notice of one goes
unreported. -/

namespace Zkasper.Gossip

/-! ## Text -/

/-- `char::REPLACEMENT_CHARACTER` -/
def replacement : Char := '\uFFFD'

/-- The byte continues a character. -/
def isContinuation (b : UInt8) : Bool := 0x80 ≤ b && b ≤ 0xBF

/-- The length of a character by its first byte. -/
def utf8CharWidth (b : UInt8) : ℕ :=
  if b < 0x80 then 1
  else if 0xC2 ≤ b && b ≤ 0xDF then 2
  else if 0xE0 ≤ b && b ≤ 0xEF then 3
  else if 0xF0 ≤ b && b ≤ 0xF4 then 4
  else 0

/-- The second byte can follow the first: nothing overlong, no surrogate, nothing
past the last code point. -/
def canFollow (b c : UInt8) : Bool :=
  if b = 0xE0 then 0xA0 ≤ c && c ≤ 0xBF
  else if b = 0xED then 0x80 ≤ c && c ≤ 0x9F
  else if b = 0xF0 then 0x90 ≤ c && c ≤ 0xBF
  else if b = 0xF4 then 0x80 ≤ c && c ≤ 0x8F
  else isContinuation c

/-- The code point of a first byte, of which some low bits count, and of the bytes
that continue it. -/
def codePoint (b : UInt8) (bits : ℕ) (continued : List UInt8) : Char :=
  Char.ofNat (continued.foldl (fun n c => n * 64 + c.toNat % 64) (b.toNat % 2 ^ bits))

/-- One character, or a replacement for the longest start of one. -/
def decodeChar (b : UInt8) (rest : List UInt8) : Char × List UInt8 :=
  match utf8CharWidth b, rest with
  | 1, rest => (Char.ofNat b.toNat, rest)
  | 2, c :: rest =>
      if canFollow b c then (codePoint b 5 [c], rest) else (replacement, c :: rest)
  | 3, c :: rest =>
      if !canFollow b c then (replacement, c :: rest)
      else match rest with
        | d :: rest =>
            if isContinuation d then (codePoint b 4 [c, d], rest) else (replacement, d :: rest)
        | [] => (replacement, [])
  | 4, c :: rest =>
      if !canFollow b c then (replacement, c :: rest)
      else match rest with
        | d :: rest =>
            if !isContinuation d then (replacement, d :: rest)
            else match rest with
              | e :: rest =>
                  if isContinuation e then (codePoint b 3 [c, d, e], rest)
                  else (replacement, e :: rest)
              | [] => (replacement, [])
        | [] => (replacement, [])
  | _, rest => (replacement, rest)

/-- At most `fuel` characters. -/
def decodeUpTo : ℕ → List UInt8 → List Char
  | 0, _ => []
  | _, [] => []
  | fuel + 1, b :: rest =>
      let decoded := decodeChar b rest
      decoded.1 :: decodeUpTo fuel decoded.2

/-- `String::from_utf8_lossy` -/
def fromUtf8Lossy (bytes : List UInt8) : List Char := decodeUpTo bytes.length bytes

/-- `char::is_whitespace` -/
def isWhitespace (c : Char) : Bool :=
  let n := c.toNat
  (0x09 ≤ n && n ≤ 0x0D) || n = 0x20 || n = 0x85 || n = 0xA0 || n = 0x1680 ||
    (0x2000 ≤ n && n ≤ 0x200A) || n = 0x2028 || n = 0x2029 || n = 0x202F || n = 0x205F || n = 0x3000

/-- `str::trim` -/
def trim (s : List Char) : List Char := (s.dropWhile isWhitespace).rdropWhile isWhitespace

/-- A line without the carriage return before its end. -/
def stripReturn (line : List Char) : List Char :=
  if line.getLast? = some '\r' then line.dropLast else line

/-- The lines, the current one up to here in reverse. -/
def linesFrom : List Char → List Char → List (List Char)
  | current, [] => if current = [] then [] else [current.reverse]
  | current, c :: rest =>
      if c = '\n' then stripReturn current.reverse :: linesFrom [] rest
      else linesFrom (c :: current) rest

/-- `str::lines` -/
def lines (s : List Char) : List (List Char) := linesFrom [] s

/-- `str::split_once` -/
def splitOnce (separator : Char) : List Char → Option (List Char × List Char)
  | [] => none
  | c :: rest =>
      if c = separator then some ([], rest)
      else (splitOnce separator rest).map fun found => (c :: found.1, found.2)

/-! ## Frames -/

/-- What reads a payload. -/
structure Parser (A : Type) where
  Value : Type
  fromStr : List Char → Option Value
  parseAttestationEntry : Value → Option A
  parseSingleAttestationEntry : Value → Option A

/-- What a frame does. -/
inductive Effect (A : Type)
  | nothing
  /-- The node dropped events. -/
  | dropped
  | reorged
  | delivered (attestation : A)

variable {A : Type}

/-- The topic and the payload of a frame, or nothing where a comment says that
events were dropped: the lines after it are not read. -/
def readLines : List (List Char) → List Char → List Char → Option (List Char × List Char)
  | [], topic, payload => some (topic, payload)
  | line :: rest, topic, payload =>
      match splitOnce ':' line with
      | some (field, value) =>
          if field = "event".toList then readLines rest (trim value) payload
          else if field = "data".toList then readLines rest topic (trim value)
          else if field = [] ∧ "dropped".toList <:+: value then none
          else readLines rest topic payload
      | none => readLines rest topic payload

/-- One SSE frame: an `event:` name and a `data:` payload, or a comment. -/
def effect (parser : Parser A) (frame : List Char) : Effect A :=
  match readLines (lines frame) [] [] with
  | none => .dropped
  | some (topic, payload) =>
      if payload = [] then .nothing
      else if topic = "chain_reorg".toList then .reorged
      else match parser.fromStr payload with
        | none => .nothing
        | some entry =>
            let attestation :=
              if topic = "attestation".toList then parser.parseAttestationEntry entry
              else if topic = "single_attestation".toList then
                parser.parseSingleAttestationEntry entry
              else none
            attestation.elim .nothing .delivered

/-! ## The two parties -/

/-- What they share. -/
structure Shared (A : Type) where
  inbox : List A
  reorged : Bool
  gapped : Bool
  delivered : UInt64
  reconnects : UInt64
  dropped : UInt64

/-- The write that the reader does next. -/
inductive Pending (A : Type)
  | none
  /-- The notice was counted; the gap is raised. -/
  | raiseGap
  /-- The attestation was counted; it is filed. -/
  | push (attestation : A)
  /-- The connection is gone and the gap was raised; it is counted and opened again. -/
  | countReconnect

structure Source (A : Type) where
  shared : Shared A
  buffered : List Char
  pending : Pending A

/-- Frames are separated by a blank line. -/
def blankLine : List Char := "\n\n".toList

/-- The first write of a frame. -/
def Source.ingest (s : Source A) : Effect A → Source A
  | .nothing => s
  | .dropped =>
      { s with
        shared := { s.shared with dropped := s.shared.dropped + 1 }
        pending := .raiseGap }
  | .reorged => { s with shared := { s.shared with reorged := true } }
  | .delivered attestation =>
      { s with
        shared := { s.shared with delivered := s.shared.delivered + 1 }
        pending := .push attestation }

/-- The second write. -/
def Source.finish (s : Source A) : Source A :=
  match s.pending with
  | .none => s
  | .raiseGap => { s with shared := { s.shared with gapped := true }, pending := .none }
  | .push attestation =>
      { s with
        shared := { s.shared with inbox := s.shared.inbox ++ [attestation] }
        pending := .none }
  | .countReconnect =>
      { shared := { s.shared with reconnects := s.shared.reconnects + 1 }
        buffered := []
        pending := .none }

/-- What happens next. -/
inductive Event
  /-- The connection hands on a chunk. -/
  | chunk (bytes : List UInt8)
  /-- The reader takes a complete frame off the buffer. -/
  | frame
  /-- The reader does its second write. -/
  | finish
  /-- The connection closes or fails. -/
  | ended
  | drain
  | tookReorg
  | tookGap

/-- The source, and what has happened so far: the chunks of this connection and of
those before it, what the daemon was given, and how often a gap and a reorg were
raised since it last asked. -/
structure World (A : Type) where
  source : Source A
  connection : List (List UInt8)
  connections : List (List (List UInt8))
  drained : List (List A)
  gaps : ℕ
  reorgs : ℕ

/-- `Shared::default()`, and a connection that has handed on nothing. -/
def World.start : World A where
  source := ⟨⟨[], false, false, 0, 0, 0⟩, [], .none⟩
  connection := []
  connections := []
  drained := []
  gaps := 0
  reorgs := 0

/-- The reader waits for the connection: it has no write and no frame left. -/
def Source.waiting (s : Source A) : Bool :=
  match s.pending, Frames.cut blankLine s.buffered with
  | .none, none => true
  | _, _ => false

/-- A frame is taken off the buffer. -/
def World.frame (w : World A) (outcome : Effect A) (rest : List Char) : World A :=
  { w with
    source := { w.source with buffered := rest }.ingest outcome
    reorgs := match outcome with | .reorged => w.reorgs + 1 | _ => w.reorgs }

/-- The reader's second write. -/
def World.finish (w : World A) : World A :=
  match w.source.pending with
  | .raiseGap => { w with source := w.source.finish, gaps := w.gaps + 1 }
  | .countReconnect =>
      { w with
        source := w.source.finish
        connection := []
        connections := w.connections ++ [w.connection] }
  | _ => { w with source := w.source.finish }

/-- One step of one of the two. -/
def step (parser : Parser A) (w : World A) : Event → Option (World A)
  | .chunk bytes =>
      if w.source.waiting then
        some { w with
          source := { w.source with buffered := w.source.buffered ++ fromUtf8Lossy bytes }
          connection := w.connection ++ [bytes] }
      else none
  | .frame =>
      match w.source.pending, Frames.cut blankLine w.source.buffered with
      | .none, some (frame, rest) => some (w.frame (effect parser frame) rest)
      | _, _ => none
  | .finish =>
      match w.source.pending with
      | .none => none
      | _ => some w.finish
  | .ended =>
      if w.source.waiting then
        some { w with
          source := { w.source with
            shared := { w.source.shared with gapped := true }
            pending := .countReconnect }
          gaps := w.gaps + 1 }
      else none
  | .drain =>
      some { w with
        source := { w.source with shared := { w.source.shared with inbox := [] } }
        drained := w.drained ++ [w.source.shared.inbox] }
  | .tookReorg =>
      some { w with
        source := { w.source with shared := { w.source.shared with reorged := false } }
        reorgs := 0 }
  | .tookGap =>
      some { w with
        source := { w.source with shared := { w.source.shared with gapped := false } }
        gaps := 0 }

/-! ## What has been read -/

/-- The text of a connection. -/
def text (chunks : List (List UInt8)) : List Char := chunks.flatMap fromUtf8Lossy

/-- Its complete frames. -/
def frames (chunks : List (List UInt8)) : List (List Char) :=
  (Frames.take blankLine (text chunks)).1

/-- The attestation a frame delivers, if it delivers one. -/
def Effect.attestation? : Effect A → Option A
  | .delivered attestation => some attestation
  | _ => none

def Effect.isNotice : Effect A → Bool
  | .dropped => true
  | _ => false

/-- What frames deliver. -/
def attestations (parser : Parser A) (frames : List (List Char)) : List A :=
  frames.filterMap fun frame => (effect parser frame).attestation?

/-- How many of them are notices. -/
def notices (parser : Parser A) (frames : List (List Char)) : ℕ :=
  frames.countP fun frame => (effect parser frame).isNotice

theorem attestations_append (parser : Parser A) (before after : List (List Char)) :
    attestations parser (before ++ after) =
      attestations parser before ++ attestations parser after :=
  List.filterMap_append

theorem attestations_frame (parser : Parser A) (frame : List Char) :
    attestations parser [frame] = (effect parser frame).attestation?.toList := by
  unfold attestations
  cases h : (effect parser frame).attestation? <;> simp [h]

theorem notices_append (parser : Parser A) (before after : List (List Char)) :
    notices parser (before ++ after) = notices parser before + notices parser after :=
  List.countP_append

theorem notices_frame (parser : Parser A) (frame : List Char) :
    notices parser [frame] = if (effect parser frame).isNotice then 1 else 0 := by
  simp [notices, List.countP_cons]

/-! ## Every interleaving -/

/-- An attestation that was counted and is not filed. -/
def Pending.counted : Pending A → List A
  | .push attestation => [attestation]
  | _ => []

/-- **The mailbox and the stream agree**: `done` are the frames of this connection
that were taken off the buffer, and what was taken is filed, handed over, or about
to be filed. -/
structure Agrees (parser : Parser A) (w : World A) (done : List (List Char)) : Prop where
  stream : Frames.take blankLine (text w.connection) =
    (done ++ (Frames.take blankLine w.source.buffered).1,
      (Frames.take blankLine w.source.buffered).2)
  filed : w.drained.flatten ++ w.source.shared.inbox ++ w.source.pending.counted =
    attestations parser (w.connections.flatMap frames ++ done)
  delivered : w.source.shared.delivered =
    UInt64.ofNat (attestations parser (w.connections.flatMap frames ++ done)).length
  dropped : w.source.shared.dropped =
    UInt64.ofNat (notices parser (w.connections.flatMap frames ++ done))
  reconnects : w.source.shared.reconnects = UInt64.ofNat w.connections.length
  /-- A connection that is gone has no frame left in the buffer. -/
  gone : w.source.pending = .countReconnect → Frames.cut blankLine w.source.buffered = none
  gapped : w.source.shared.gapped = decide (0 < w.gaps)
  reorged : w.source.shared.reorged = decide (0 < w.reorgs)

variable {parser : Parser A} {w w' : World A} {done : List (List Char)}

theorem blankLine_ne_nil : blankLine ≠ [] := by decide

theorem waiting_iff {s : Source A} :
    s.waiting = true ↔ s.pending = .none ∧ Frames.cut blankLine s.buffered = none := by
  unfold Source.waiting
  cases s.pending <;> cases Frames.cut blankLine s.buffered <;> simp

theorem agrees_start : Agrees parser (World.start : World A) [] where
  stream := rfl
  filed := rfl
  delivered := rfl
  dropped := rfl
  reconnects := rfl
  gone := fun h => nomatch h
  gapped := rfl
  reorged := rfl

/-- Where the buffer holds no frame, what was taken are all there are. -/
theorem Agrees.frames_eq (h : Agrees parser w done)
    (hcut : Frames.cut blankLine w.source.buffered = none) : frames w.connection = done := by
  unfold frames
  rw [h.stream, Frames.take_of_cut_none hcut, List.append_nil]

/-- More of the stream arrives: the frames of the whole are those that were taken,
and those that the buffer holds by now. -/
theorem Agrees.chunk (h : Agrees parser w done)
    (hcut : Frames.cut blankLine w.source.buffered = none) (bytes : List UInt8) :
    Frames.take blankLine (text (w.connection ++ [bytes])) =
      (done ++ (Frames.take blankLine (w.source.buffered ++ fromUtf8Lossy bytes)).1,
        (Frames.take blankLine (w.source.buffered ++ fromUtf8Lossy bytes)).2) := by
  have hstream := h.stream
  rw [Frames.take_of_cut_none hcut, List.append_nil] at hstream
  have htext : text (w.connection ++ [bytes]) = text w.connection ++ fromUtf8Lossy bytes := by
    simp [text]
  rw [htext, Frames.take_append blankLine_ne_nil, hstream]

/-- **A frame**: what it delivers is counted, and not filed yet. -/
theorem Agrees.frame (h : Agrees parser w done) (hpending : w.source.pending = .none)
    {frame rest : List Char} (hcut : Frames.cut blankLine w.source.buffered = some (frame, rest)) :
    Agrees parser (w.frame (effect parser frame) rest) (done ++ [frame]) := by
  have hsnoc : w.connections.flatMap frames ++ (done ++ [frame]) =
      w.connections.flatMap frames ++ done ++ [frame] := (List.append_assoc _ _ _).symm
  have hstream : Frames.take blankLine (text w.connection) =
      (done ++ [frame] ++ (Frames.take blankLine rest).1, (Frames.take blankLine rest).2) := by
    rw [h.stream, Frames.take_of_cut_some blankLine_ne_nil hcut, List.append_assoc]
    rfl
  have hfiled : w.drained.flatten ++ w.source.shared.inbox ++
      (effect parser frame).attestation?.toList =
        attestations parser (w.connections.flatMap frames ++ (done ++ [frame])) := by
    rw [hsnoc, attestations_append, attestations_frame, ← h.filed, hpending]
    simp [Pending.counted]
  have hdelivered : w.source.shared.delivered +
      UInt64.ofNat (effect parser frame).attestation?.toList.length =
        UInt64.ofNat
          (attestations parser (w.connections.flatMap frames ++ (done ++ [frame]))).length := by
    rw [hsnoc, attestations_append, attestations_frame, List.length_append, UInt64.ofNat_add,
      h.delivered]
  -- a notice counts as a frame that is dropped, nothing else does
  have hdropped : w.source.shared.dropped +
      UInt64.ofNat (if (effect parser frame).isNotice then 1 else 0) =
        UInt64.ofNat (notices parser (w.connections.flatMap frames ++ (done ++ [frame]))) := by
    rw [hsnoc, notices_append, notices_frame, UInt64.ofNat_add, h.dropped]
  have hcounted : w.source.pending.counted = [] := by
    rw [hpending]
    rfl
  have hnot : w.source.pending ≠ .countReconnect := by
    rw [hpending]
    simp
  cases houtcome : effect parser frame with
  | nothing =>
      rw [houtcome] at hfiled hdelivered hdropped
      exact ⟨hstream, (congrArg (_ ++ ·) hcounted).trans hfiled,
        (UInt64.add_zero _).symm.trans hdelivered, (UInt64.add_zero _).symm.trans hdropped,
        h.reconnects, fun hgone => absurd hgone hnot, h.gapped, h.reorged⟩
  | dropped =>
      rw [houtcome] at hfiled hdelivered hdropped
      exact ⟨hstream, hfiled, (UInt64.add_zero _).symm.trans hdelivered, hdropped,
        h.reconnects, (fun hgone => nomatch hgone), h.gapped, h.reorged⟩
  | reorged =>
      rw [houtcome] at hfiled hdelivered hdropped
      exact ⟨hstream, (congrArg (_ ++ ·) hcounted).trans hfiled,
        (UInt64.add_zero _).symm.trans hdelivered, (UInt64.add_zero _).symm.trans hdropped,
        h.reconnects, fun hgone => absurd hgone hnot, h.gapped,
        (decide_eq_true (Nat.succ_pos w.reorgs)).symm⟩
  | delivered attestation =>
      rw [houtcome] at hfiled hdelivered hdropped
      exact ⟨hstream, hfiled, hdelivered, (UInt64.add_zero _).symm.trans hdropped,
        h.reconnects, (fun hgone => nomatch hgone), h.gapped, h.reorged⟩

/-- **The second write.** -/
theorem Agrees.finish (h : Agrees parser w done) (hpending : w.source.pending ≠ .none) :
    ∃ done, Agrees parser w.finish done := by
  have hnone := h.frames_eq
  obtain ⟨hstream, hfiled, hdelivered, hdropped, hreconnects, hgone, hgapped, hreorged⟩ := h
  unfold World.finish Source.finish
  cases hcase : w.source.pending with
  | none => exact absurd hcase hpending
  | raiseGap =>
      rw [hcase] at hfiled
      exact ⟨done, hstream, hfiled, hdelivered, hdropped, hreconnects, (fun hgone => nomatch hgone),
        (decide_eq_true (Nat.succ_pos w.gaps)).symm, hreorged⟩
  | push attestation =>
      rw [hcase] at hfiled
      refine ⟨done, hstream, ?_, hdelivered, hdropped, hreconnects, (fun hgone => nomatch hgone),
        hgapped, hreorged⟩
      show w.drained.flatten ++ (w.source.shared.inbox ++ [attestation]) ++ [] = _
      rw [List.append_nil, ← List.append_assoc]
      exact hfiled
  | countReconnect =>
      rw [hcase] at hfiled
      have hframes : (w.connections ++ [w.connection]).flatMap frames ++ [] =
          w.connections.flatMap frames ++ done := by
        rw [List.append_nil, List.flatMap_append, List.flatMap_singleton, hnone (hgone hcase)]
      refine ⟨[], rfl, ?_, ?_, ?_, ?_, (fun hgone => nomatch hgone), hgapped, hreorged⟩
      · rw [hframes]
        exact hfiled
      · rw [hframes]
        exact hdelivered
      · rw [hframes]
        exact hdropped
      · show w.source.shared.reconnects + 1 = _
        rw [hreconnects, List.length_append]
        exact (UInt64.ofNat_add _ 1).symm

/-- **One step of either party.** -/
theorem Agrees.step {e : Event} (h : Agrees parser w done) (hstep : step parser w e = some w') :
    ∃ done, Agrees parser w' done := by
  cases e with
  | chunk bytes =>
      simp only [Gossip.step, Option.ite_none_right_eq_some, waiting_iff] at hstep
      obtain ⟨⟨hpending, hcut⟩, hnext⟩ := hstep
      obtain rfl := Option.some.inj hnext
      exact ⟨done, { h with
        stream := h.chunk hcut bytes
        gone := fun hgone => absurd (hpending.symm.trans hgone) (by simp) }⟩
  | frame =>
      simp only [Gossip.step] at hstep
      split at hstep
      · next hpending hcut =>
          obtain rfl := Option.some.inj hstep
          exact ⟨_, h.frame hpending hcut⟩
      · cases hstep
  | finish =>
      simp only [Gossip.step] at hstep
      split at hstep
      · cases hstep
      · next hpending =>
          obtain rfl := Option.some.inj hstep
          exact h.finish hpending
  | ended =>
      simp only [Gossip.step, Option.ite_none_right_eq_some, waiting_iff] at hstep
      obtain ⟨⟨hpending, hcut⟩, hnext⟩ := hstep
      obtain rfl := Option.some.inj hnext
      have hfiled := h.filed
      rw [hpending] at hfiled
      exact ⟨done, { h with
        filed := hfiled
        gone := fun _ => hcut
        gapped := (decide_eq_true (Nat.succ_pos w.gaps)).symm }⟩
  | drain =>
      obtain rfl := Option.some.inj hstep
      refine ⟨done, { h with filed := ?_ }⟩
      show (w.drained ++ [w.source.shared.inbox]).flatten ++ [] ++ w.source.pending.counted = _
      rw [List.flatten_append, List.flatten_singleton, List.append_nil]
      exact h.filed
  | tookReorg =>
      obtain rfl := Option.some.inj hstep
      exact ⟨done, { h with reorged := rfl }⟩
  | tookGap =>
      obtain rfl := Option.some.inj hstep
      exact ⟨done, { h with gapped := rfl }⟩

/-- **Every run.** -/
theorem exists_agrees (h : Transition.Reached (step parser) Transition.always .start w) :
    ∃ done, Agrees parser w done := by
  apply Transition.Reached.invariant (fun w => ∃ done, Agrees parser w done)
    ⟨[], agrees_start⟩ _ h
  rintro w e w' ⟨done, hagrees⟩ - hstep
  exact hagrees.step hstep

/-! ## How the stream was cut -/

/-- The character of an ASCII byte. -/
def asciiChar (b : UInt8) : Char := Char.ofNat b.toNat

theorem decodeUpTo_ascii : ∀ {fuel : ℕ} {bytes : List UInt8}, bytes.length ≤ fuel →
    (∀ b ∈ bytes, b < 0x80) → decodeUpTo fuel bytes = bytes.map asciiChar
  | 0, bytes, hle, _ => by
      rw [List.eq_nil_of_length_eq_zero (Nat.le_zero.mp hle)]
      rfl
  | fuel + 1, [], _, _ => rfl
  | fuel + 1, b :: rest, hle, hascii => by
      obtain ⟨hb, hrest⟩ := List.forall_mem_cons.mp hascii
      have hwidth : utf8CharWidth b = 1 := if_pos hb
      have hchar : decodeChar b rest = (asciiChar b, rest) := by
        unfold decodeChar
        rw [hwidth]
        rfl
      rw [decodeUpTo, hchar, decodeUpTo_ascii (Nat.le_of_succ_le_succ hle) hrest]
      rfl

theorem fromUtf8Lossy_ascii {bytes : List UInt8} (hascii : ∀ b ∈ bytes, b < 0x80) :
    fromUtf8Lossy bytes = bytes.map asciiChar :=
  decodeUpTo_ascii le_rfl hascii

/-- Chunks of ASCII read as the bytes they are chunks of. Where a chunk ends inside a
longer character, both halves of it are replaced. -/
theorem text_ascii {chunks : List (List UInt8)} (hascii : ∀ b ∈ chunks.flatten, b < 0x80) :
    text chunks = chunks.flatten.map asciiChar := by
  induction chunks with
  | nil => rfl
  | cons chunk chunks ih =>
      rw [List.flatten_cons, List.forall_mem_append] at hascii
      rw [List.flatten_cons, List.map_append, ← ih hascii.2, ← fromUtf8Lossy_ascii hascii.1]
      rfl

/-- **Delivered once.** In every run of the reader and the daemon, what was handed
over and what waits in the inbox are attestations of the complete frames of the
connections, each once and in the order of the stream; whenever the reader waits for
the connection, they are all of them, and the counters count them and the notices,
modulo 2^64. The two flags are raised exactly when a gap, or a reorg, was met since
the daemon last asked. And where a connection was ASCII, its frames are those of its
bytes, wherever the chunks ended. -/
theorem delivered_once (h : Transition.Reached (step parser) Transition.always .start w) :
    (w.drained.flatten ++ w.source.shared.inbox <+:
      attestations parser ((w.connections ++ [w.connection]).flatMap frames)) ∧
    (w.source.waiting = true →
      w.drained.flatten ++ w.source.shared.inbox =
          attestations parser ((w.connections ++ [w.connection]).flatMap frames) ∧
        w.source.shared.delivered =
          UInt64.ofNat (w.drained.flatten ++ w.source.shared.inbox).length ∧
        w.source.shared.dropped =
          UInt64.ofNat (notices parser ((w.connections ++ [w.connection]).flatMap frames))) ∧
    w.source.shared.reconnects = UInt64.ofNat w.connections.length ∧
    (w.source.shared.gapped = true ↔ 0 < w.gaps) ∧
    (w.source.shared.reorged = true ↔ 0 < w.reorgs) ∧
    ∀ chunks ∈ w.connections ++ [w.connection], (∀ b ∈ chunks.flatten, b < 0x80) →
      frames chunks = (Frames.take blankLine (chunks.flatten.map asciiChar)).1 := by
  obtain ⟨done, hagrees⟩ := exists_agrees h
  have hflat : (w.connections ++ [w.connection]).flatMap frames =
      w.connections.flatMap frames ++ frames w.connection := by
    rw [List.flatMap_append, List.flatMap_singleton]
  rw [hflat]
  refine ⟨?_, ?_, hagrees.reconnects, ?_, ?_, ?_⟩
  · -- the frames that the buffer still holds come after those that were taken
    have hframes : frames w.connection =
        done ++ (Frames.take blankLine w.source.buffered).1 := by
      unfold frames
      rw [hagrees.stream]
    rw [hframes, ← List.append_assoc, attestations_append, ← hagrees.filed, List.append_assoc]
    exact List.prefix_append _ _
  · intro hwaiting
    obtain ⟨hpending, hcut⟩ := waiting_iff.mp hwaiting
    have hfiled := hagrees.filed
    rw [hpending] at hfiled
    rw [hagrees.frames_eq hcut]
    have hall : w.drained.flatten ++ w.source.shared.inbox =
        attestations parser (w.connections.flatMap frames ++ done) :=
      (List.append_nil _).symm.trans hfiled
    exact ⟨hall, by rw [hall, hagrees.delivered], hagrees.dropped⟩
  · rw [hagrees.gapped, decide_eq_true_iff]
  · rw [hagrees.reorged, decide_eq_true_iff]
  · intro chunks _ hascii
    unfold frames
    rw [text_ascii hascii]

/-! ## A stream cut inside a frame -/

namespace Formal

/-- Reads every payload. -/
def anyPayload : Gossip.Parser (List Char) where
  Value := List Char
  fromStr := some
  parseAttestationEntry := some
  parseSingleAttestationEntry := fun _ => none

def bytesOf (s : String) : List UInt8 := s.toList.map fun c => c.toNat.toUInt8

def cutInside : List Event :=
  [.chunk (bytesOf "event:attestation\nda"), .chunk (bytesOf "ta:1\n\ndata"), .frame, .drain,
    .finish, .ended, .finish]

/-- The frame arrived in two chunks, was filed after the daemon looked, and the rest
of the connection is lost; the gap is raised. -/
theorem delivered_once_cut :
    ∃ w, Transition.run (step anyPayload) Transition.always .start cutInside = some w ∧
      (w.source.waiting = true ∧ w.drained = [[]] ∧ w.source.shared.inbox = ["1".toList]) ∧
      w.source.shared.gapped = true ∧
      attestations anyPayload ((w.connections ++ [w.connection]).flatMap frames) =
        ["1".toList] := by
  obtain ⟨w, hrun, hseen⟩ :
      ∃ w, Transition.run (step anyPayload) Transition.always .start cutInside = some w ∧
        (w.source.waiting = true ∧ w.drained = [[]] ∧ w.source.shared.inbox = ["1".toList] ∧
          0 < w.gaps) := by
    decide
  obtain ⟨hwaiting, hdrained, hinbox, hgaps⟩ := hseen
  obtain ⟨-, hall, -, hgapped, -⟩ := delivered_once (Transition.Reached.of_run hrun)
  have hattestations := (hall hwaiting).1
  rw [hdrained, hinbox] at hattestations
  exact ⟨w, hrun, ⟨hwaiting, hdrained, hinbox⟩, hgapped.mpr hgaps, hattestations.symm⟩

end Formal

end Zkasper.Gossip
