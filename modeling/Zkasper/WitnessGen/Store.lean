import Zkasper.Library.Sealed
import Zkasper.StreamFinal
import Zkasper.WitnessGen.HostDiff
import Zkasper.WitnessGen.Updates
import Mathlib.Data.Nat.Pairing

/-! # The daemon's state file

The accumulator is a chain, so an epoch diff applied twice, skipped or half-written would
not fail: it would yield a root nothing later can tell is wrong. The store is what makes
that impossible. It moves by exactly one epoch or not at all (`advance`), it folds every
root into an audit digest (`chainStep`), and on disk it is sealed and checked against the
tree it describes (`load`). No function to 32 bytes is injective on files, so where a change
is refused the checksum of one body is taken to be nothing else's.

The audit digest of a history is its fold, and histories of one length with one digest are
one (`chainDigest_inj`). Across lengths an injective hash is not enough: a first link may
come out as the digest the chain starts from (`chainDigest_shifts`). -/

namespace Zkasper.Store

open Library

variable {P : Primitives}

/-! ## The state -/

/-- A Casper checkpoint. -/
structure Checkpoint (P : Primitives) where
  epoch : UInt64
  root : P.Bytes32

/-- An output, and the proof that backs it. -/
structure Record (Output : Type) where
  output : Output
  proof : List UInt64

/-- Everything the daemon needs to pick up exactly where it stopped. -/
structure StoreState (P : Primitives) where
  chain : String
  initEpoch : UInt64
  /-- Epoch the accumulator currently represents. -/
  cursorEpoch : UInt64
  accRoot : P.Digest
  accCommitment : P.Digest
  /-- Running hash over every `(epoch, acc_root)` since the init point. -/
  accChainDigest : P.Digest
  totalActiveBalance : UInt64
  numValidators : UInt64
  justifiedThrough : Option UInt64
  attemptedEpoch : Option UInt64
  lastJustification : Option (Record (JustificationOutput P))
  lastStreamFinal : Option (Record (StreamFinalOutput P))
  lastEpochDiff : Option (Record (EpochDiffOutput P))
  finalized : Option (Checkpoint P)

/-- Fold one accumulator root into the audit chain. -/
def chainStep (previous : P.Digest) (epoch : UInt64) (accRoot : P.Digest) : P.Digest :=
  P.compress (P.compress previous (P.digestOfWords [epoch, 0, 0, 0])) accRoot

namespace StoreState

/-- Initial state, straight out of a checked init point. -/
def started (chain : String) (epoch : UInt64) (accRoot : P.Digest)
    (totalActiveBalance numValidators : UInt64) : StoreState P where
  chain
  initEpoch := epoch
  cursorEpoch := epoch
  accRoot
  accCommitment := P.commitment accRoot totalActiveBalance
  accChainDigest := chainStep P.zero epoch accRoot
  totalActiveBalance
  numValidators
  justifiedThrough := none
  attemptedEpoch := none
  lastJustification := none
  lastStreamFinal := none
  lastEpochDiff := none
  finalized := none

/-- The arguments of one `advance`. -/
structure Advance (P : Primitives) where
  toEpoch : UInt64
  accRoot : P.Digest
  commitment : P.Digest
  totalActiveBalance : UInt64
  numValidators : UInt64
  epochDiff : Option (Record (EpochDiffOutput P))

/-- Move the accumulator forward by exactly one epoch: the result, and the state behind it. -/
def advance (s : StoreState P) (a : Advance P) : Except String Unit × StoreState P :=
  if a.toEpoch ≠ s.cursorEpoch + 1 then
    (.error (s!"epoch diff must advance the accumulator by exactly one epoch: " ++
      s!"cursor is {s.cursorEpoch}, tried to move to {a.toEpoch}"), s)
  else if P.commitment a.accRoot a.totalActiveBalance ≠ a.commitment then
    (.error "accumulator commitment does not bind the root and total active balance", s)
  else
    (.ok (), { s with
      cursorEpoch := a.toEpoch
      accRoot := a.accRoot
      accCommitment := a.commitment
      accChainDigest := chainStep s.accChainDigest a.toEpoch a.accRoot
      totalActiveBalance := a.totalActiveBalance
      numValidators := a.numValidators
      lastEpochDiff := a.epochDiff })

/-- The justification a streaming final proof for `forEpoch` turns into a finalization, if
the epoch before it produced one. -/
def previousJustification (s : StoreState P) (forEpoch : UInt64) :
    Option (PreviousJustification P × List UInt64) :=
  let batch := s.lastJustification.bind fun record =>
    if record.output.targetEpoch + 1 = forEpoch then
      some (.batch record.output, record.proof) else none
  match s.lastStreamFinal with
  | some record =>
      if record.output.justifiedEpoch + 1 = forEpoch then
        some (.stream record.output, record.proof) else batch
  | none => batch

end StoreState

/-! ## The file -/

/-- A serializer: what it writes it reads back, and a buffer is shorter than 2^64. -/
structure Bincode (α : Type) where
  serialize : α → Except String (List UInt8)
  deserialize : List UInt8 → Except String α
  roundtrip : ∀ {x bytes}, serialize x = .ok bytes → deserialize bytes = .ok x
  fits : ∀ {x bytes}, serialize x = .ok bytes → bytes.length < 2 ^ 64

/-- What is persisted. -/
structure Payload (P : Primitives) where
  state : StoreState P
  epochState : EpochState P
  treeLevels : List (List P.Digest)
  treeDepth : ℕ
  denseDepth : ℕ

/-- `b"ZKASPRD\\x01"`. -/
def magic : Bytes 8 := ⟨[0x5a, 0x4b, 0x41, 0x53, 0x50, 0x52, 0x44, 0x01], rfl⟩

def formatVersion : ℕ := 5

section File

variable {α : Type} (bincode : Bincode α) (sha256 : List UInt8 → Bytes 32)

def encode (payload : α) : Except String (List UInt8) := do
  let body ← bincode.serialize payload
  return magic.val ++ leBytes 4 formatVersion ++ leBytes 8 body.length ++ (sha256 body).val ++ body

def decode (bytes : List UInt8) : Except String α := do
  Guest.assert (Regions.header ≤ bytes.length)
    s!"truncated: {bytes.length} bytes is shorter than the header"
  Guest.assert (bytes.take 8 = magic.val) "not a zkasperd store (bad magic)"
  let version := fromLeBytes ((bytes.drop 8).take 4)
  Guest.assert (version = formatVersion)
    s!"store format version {version}, expected {formatVersion}"
  let len := fromLeBytes ((bytes.drop 12).take 8)
  let body := bytes.drop Regions.header
  Guest.assert (body.length = len)
    s!"truncated: header declares {len} payload bytes, found {body.length}"
  Guest.assert ((sha256 body).val = (bytes.drop 20).take 32) "payload checksum mismatch"
  bincode.deserialize body

end File

/-- What a load produced: the state, the tree it describes, and the cached view of the epoch
the tree sits on. -/
structure Snapshot (P : Primitives) where
  state : StoreState P
  tree : AccTree P
  epochState : EpochState P

/-- `AccTree::from_raw`. -/
def fromRaw (levels : List (List P.Digest)) (depth denseDepth : ℕ) : AccTree P :=
  ⟨depth, denseDepth, levels, AccTree.computeZeroHashes depth⟩

section Load

variable (bincode : Bincode (Payload P)) (sha256 : List UInt8 → Bytes 32)

/-- The bytes `save` writes. -/
def save (snapshot : Snapshot P) : Except String (List UInt8) :=
  encode bincode sha256 ⟨snapshot.state, snapshot.epochState, snapshot.tree.levels,
    snapshot.tree.depth, snapshot.tree.denseDepth⟩

/-- Read the state back, checking it every way it can be checked. `None` only when there is
no state file at all. -/
def load (file : Option (List UInt8)) : Except String (Option (Snapshot P)) :=
  match file with
  | none => return none
  | some bytes => do
      let payload ← decode bincode sha256 bytes
      let tree := fromRaw payload.treeLevels payload.treeDepth payload.denseDepth
      tree.verifyConsistent
      Guest.assert (tree.root = payload.state.accRoot) <|
        "persisted tree root does not match the recorded accumulator root at epoch " ++
        s!"{payload.state.cursorEpoch}"
      Guest.assert (P.commitment tree.root payload.state.totalActiveBalance =
          payload.state.accCommitment)
        "persisted accumulator commitment does not bind the root and total active balance"
      return some ⟨payload.state, tree, payload.epochState⟩

end Load

/-! ## The audit digest -/

section Audit

/-- The fold of `chain_step` over a history, from the zero digest. -/
def chainDigest (history : List (UInt64 × P.Digest)) : P.Digest :=
  history.foldl (fun digest entry => chainStep digest entry.1 entry.2) P.zero

theorem chainDigest_concat (history : List (UInt64 × P.Digest)) (entry : UInt64 × P.Digest) :
    chainDigest (history ++ [entry]) = chainStep (chainDigest history) entry.1 entry.2 := by
  rw [chainDigest, List.foldl_append]
  rfl

theorem chainStep_inj (hcompress : Function.Injective2 P.compress)
    (hwords : Function.Injective fun e : UInt64 => P.digestOfWords [e, 0, 0, 0])
    {previous previous' : P.Digest} {e e' : UInt64} {r r' : P.Digest}
    (h : chainStep previous e r = chainStep previous' e' r') :
    previous = previous' ∧ e = e' ∧ r = r' := by
  obtain ⟨hlink, hroot⟩ := hcompress h
  obtain ⟨hprevious, hepoch⟩ := hcompress hlink
  exact ⟨hprevious, hwords hepoch, hroot⟩

/-- **Histories of one length and one digest are one.** -/
theorem chainDigest_inj (hcompress : Function.Injective2 P.compress)
    (hwords : Function.Injective fun e : UInt64 => P.digestOfWords [e, 0, 0, 0]) :
    ∀ {xs ys : List (UInt64 × P.Digest)}, xs.length = ys.length →
      chainDigest xs = chainDigest ys → xs = ys := by
  intro xs
  induction xs using List.reverseRecOn with
  | nil =>
      intro ys hlength _
      exact (List.length_eq_zero_iff.mp hlength.symm).symm
  | append_singleton xs x ih =>
      intro ys hlength h
      rcases List.eq_nil_or_concat ys with rfl | ⟨ys, y, rfl⟩
      · simp at hlength
      · rw [List.concat_eq_append] at hlength h ⊢
        rw [chainDigest_concat, chainDigest_concat] at h
        obtain ⟨hdigest, hepoch, hroot⟩ := chainStep_inj hcompress hwords h
        have hentry : x = y := Prod.ext hepoch hroot
        rw [hentry, ih (by simpa using hlength) hdigest]

end Audit

/-! ## A run of calls -/

section Runs

/-- One call, and what it adds to the history if it succeeds. -/
def attempt (run : StoreState P × List (UInt64 × P.Digest)) (call : StoreState.Advance P) :
    StoreState P × List (UInt64 × P.Digest) :=
  match run.1.advance call with
  | (.ok (), s) => (s, run.2 ++ [(call.toEpoch, call.accRoot)])
  | (.error _, s) => (s, run.2)

/-- A call either refuses and changes nothing, or moves the whole state on by one epoch. -/
theorem advance_cases (s : StoreState P) (call : StoreState.Advance P) :
    (∃ message, s.advance call = (.error message, s)) ∨
      call.toEpoch = s.cursorEpoch + 1 ∧
      P.commitment call.accRoot call.totalActiveBalance = call.commitment ∧
      s.advance call = (.ok (), { s with
        cursorEpoch := call.toEpoch
        accRoot := call.accRoot
        accCommitment := call.commitment
        accChainDigest := chainStep s.accChainDigest call.toEpoch call.accRoot
        totalActiveBalance := call.totalActiveBalance
        numValidators := call.numValidators
        lastEpochDiff := call.epochDiff }) := by
  unfold StoreState.advance
  split
  · exact .inl ⟨_, rfl⟩
  · next hepoch =>
      split
      · exact .inl ⟨_, rfl⟩
      · next hcommitment =>
          exact .inr ⟨not_ne_iff.mp hepoch, not_ne_iff.mp hcommitment, rfl⟩

/-- **A refused call changes nothing.** -/
theorem advance_error {s s' : StoreState P} {call : StoreState.Advance P} {message : String}
    (h : s.advance call = (.error message, s')) : s' = s := by
  rcases advance_cases s call with ⟨_, hrefused⟩ | ⟨-, -, hmoved⟩
  · rw [hrefused] at h
    exact (Prod.mk.inj h).2.symm
  · rw [hmoved] at h
    cases h

/-- What a state and the history behind it have to do with each other: `first` is the init
point, and `log` the successful advances. -/
structure Audited (epoch : UInt64) (accRoot : P.Digest)
    (run : StoreState P × List (UInt64 × P.Digest)) : Prop where
  init : run.1.initEpoch = epoch
  cursor : run.1.cursorEpoch = epoch + UInt64.ofNat run.2.length
  commitment : run.1.accCommitment = P.commitment run.1.accRoot run.1.totalActiveBalance
  digest : run.1.accChainDigest = chainDigest ((epoch, accRoot) :: run.2)
  last : ((epoch, accRoot) :: run.2).getLast? = some (run.1.cursorEpoch, run.1.accRoot)

theorem Audited.attempt {epoch : UInt64} {accRoot : P.Digest}
    {run : StoreState P × List (UInt64 × P.Digest)} (h : Audited epoch accRoot run)
    (call : StoreState.Advance P) : Audited epoch accRoot (attempt run call) := by
  unfold Store.attempt
  rcases advance_cases run.1 call with ⟨message, hrefused⟩ | ⟨hepoch, hcommitment, hmoved⟩
  · rw [hrefused]
    exact h
  · rw [hmoved]
    constructor
    · exact h.init
    · show call.toEpoch = epoch + UInt64.ofNat (run.2 ++ [(call.toEpoch, call.accRoot)]).length
      rw [hepoch, h.cursor, List.length_append, List.length_singleton, UInt64.ofNat_add,
        UInt64.add_assoc]
      rfl
    · exact hcommitment.symm
    · show chainStep run.1.accChainDigest call.toEpoch call.accRoot = _
      rw [h.digest, ← List.cons_append, chainDigest_concat]
    · rw [← List.cons_append, List.getLast?_concat]

theorem audited_run (chain : String) (epoch : UInt64) (accRoot : P.Digest)
    (totalActiveBalance numValidators : UInt64) (calls : List (StoreState.Advance P)) :
    Audited epoch accRoot (calls.foldl attempt
      (.started chain epoch accRoot totalActiveBalance numValidators, [])) := by
  have hstart : Audited epoch accRoot
      (.started chain epoch accRoot totalActiveBalance numValidators, []) :=
    ⟨rfl, (UInt64.add_zero epoch).symm, rfl, rfl, rfl⟩
  revert hstart
  generalize ((.started chain epoch accRoot totalActiveBalance numValidators, []) :
    StoreState P × List (UInt64 × P.Digest)) = run
  induction calls generalizing run with
  | nil => exact fun h => h
  | cons call calls ih => exact fun h => ih _ (h.attempt call)

/-- Only what justified the epoch before is handed out. -/
theorem previousJustification_eq_some {s : StoreState P} {e : UInt64}
    {previous : PreviousJustification P} {proof : List UInt64}
    (h : s.previousJustification e = some (previous, proof)) :
    previous.targetEpoch = e - 1 ∧
      ((∃ record, s.lastStreamFinal = some record ∧ previous = .stream record.output ∧
          proof = record.proof) ∨
        ∃ record, s.lastJustification = some record ∧ previous = .batch record.output ∧
          proof = record.proof) := by
  have hbatch : (s.lastJustification.bind fun record =>
      if record.output.targetEpoch + 1 = e then
        some (PreviousJustification.batch record.output, record.proof) else none) =
          some (previous, proof) →
      previous.targetEpoch = e - 1 ∧ ∃ record, s.lastJustification = some record ∧
        previous = .batch record.output ∧ proof = record.proof := by
    intro hfound
    obtain ⟨record, hrecord, hsome⟩ := Option.bind_eq_some_iff.mp hfound
    obtain ⟨hepoch, hpair⟩ := Option.ite_none_right_eq_some.mp hsome
    obtain ⟨rfl, rfl⟩ := Prod.mk.inj (Option.some.inj hpair)
    subst hepoch
    exact ⟨(UInt64.add_sub_cancel _ _).symm, record, hrecord, rfl, rfl⟩
  simp only [StoreState.previousJustification] at h
  split at h
  · next record hrecord =>
      split at h
      · next hepoch =>
          subst hepoch
          obtain ⟨rfl, rfl⟩ := Prod.mk.inj (Option.some.inj h)
          exact ⟨(UInt64.add_sub_cancel _ _).symm, .inl ⟨record, hrecord, rfl, rfl⟩⟩
      · exact (hbatch h).imp_right .inr
  · exact (hbatch h).imp_right .inr

end Runs

/-! ## Reading back -/

section ReadBack

variable {α : Type} {bincode : Bincode α} {sha256 : List UInt8 → Bytes 32}

/-- What is written is a sealed file over the serialized body. -/
theorem encode_eq_ok {x : α} {bytes : List UInt8} (h : encode bincode sha256 x = .ok bytes) :
    ∃ r : Regions, r.bytes = bytes ∧ r.Sealed sha256 magic formatVersion ∧
      bincode.serialize x = .ok r.body := by
  obtain ⟨body, hbody, hbytes⟩ := Guest.bind_eq_ok.mp h
  refine ⟨Regions.ofBody sha256 magic formatVersion body, Guest.pure_eq_ok.mp hbytes, ?_, hbody⟩
  apply Regions.sealed_ofBody
  · decide
  · exact bincode.fits hbody

/-- **What is accepted is sealed.** -/
theorem decode_eq_ok {r : Regions} {x : α} :
    decode bincode sha256 r.bytes = .ok x ↔
      r.Sealed sha256 magic formatVersion ∧ bincode.deserialize r.body = .ok x := by
  simp only [decode, Guest.bind_eq_ok, Guest.assert_eq_ok, exists_const, Regions.take_magic,
    Regions.take_version, Regions.take_length, Regions.take_checksum, Regions.drop_header,
    Regions.length_bytes]
  constructor
  · rintro ⟨-, hmagic, hversion, hlength, hchecksum, hbody⟩
    exact ⟨⟨Subtype.ext hmagic, hversion, hlength.symm, (Subtype.ext hchecksum).symm⟩, hbody⟩
  · rintro ⟨hsealed, hbody⟩
    exact ⟨Nat.le_add_right _ _, congrArg Subtype.val hsealed.magic_eq, hsealed.version_eq,
      hsealed.length_eq.symm, congrArg Subtype.val hsealed.checksum_eq.symm, hbody⟩

/-- **Decoding undoes encoding.** -/
theorem decode_encode {x : α} {bytes : List UInt8} (h : encode bincode sha256 x = .ok bytes) :
    decode bincode sha256 bytes = .ok x := by
  obtain ⟨r, rfl, hsealed, hbody⟩ := encode_eq_ok h
  exact decode_eq_ok.mpr ⟨hsealed, bincode.roundtrip hbody⟩

/-- **A file changed in one region** is refused, where nothing else has the checksum of its
body. -/
theorem decode_changed {x y : α} {r r' : Regions}
    (hsha : ∀ body, sha256 body = sha256 r.body → body = r.body)
    (h : encode bincode sha256 x = .ok r.bytes) (hone : r.DifferInOne r')
    (hread : decode bincode sha256 r'.bytes = .ok y) : r' = r := by
  have hsealed := (decode_eq_ok.mp (decode_encode h)).1
  exact hsealed.eq_of_one hsha (decode_eq_ok.mp hread).1 hone

variable {bincode : Bincode (Payload P)}

/-- **What a load trusts**: the tree is consistent, and the root and the commitment on
record are the tree's. -/
theorem load_eq_ok {bytes : List UInt8} {snapshot : Snapshot P}
    (h : load bincode sha256 (some bytes) = .ok (some snapshot)) :
    snapshot.tree.verifyConsistent = .ok () ∧ snapshot.tree.root = snapshot.state.accRoot ∧
      snapshot.state.accCommitment =
        P.commitment snapshot.state.accRoot snapshot.state.totalActiveBalance := by
  simp only [load, Guest.bind_eq_ok, Guest.assert_eq_ok, Guest.pure_eq_ok, exists_const] at h
  obtain ⟨payload, -, _, htree, hroot, hcommitment, h⟩ := h
  obtain rfl := Option.some.inj h
  exact ⟨htree, hroot, hroot ▸ hcommitment.symm⟩

/-- **A load undoes a save** of a tree that hashes to the recorded root, after any run. -/
theorem load_save {snapshot : Snapshot P} {bytes : List UInt8} {epoch : UInt64}
    {accRoot : P.Digest} {log : List (UInt64 × P.Digest)}
    (hstate : Audited epoch accRoot (snapshot.state, log))
    (htree : snapshot.tree.verifyConsistent = .ok ())
    (hzero : snapshot.tree.zeroHashes = AccTree.computeZeroHashes snapshot.tree.depth)
    (hroot : snapshot.tree.root = snapshot.state.accRoot)
    (h : save bincode sha256 snapshot = .ok bytes) :
    load bincode sha256 (some bytes) = .ok (some snapshot) := by
  have hraw : fromRaw snapshot.tree.levels snapshot.tree.depth snapshot.tree.denseDepth =
      snapshot.tree := by
    rw [fromRaw, ← hzero]
  simp only [load, decode_encode h, Guest.bind_eq_ok, Guest.assert_eq_ok, Guest.pure_eq_ok,
    exists_const]
  refine ⟨_, rfl, (), ?_, ?_, ?_, ?_⟩
  · rw [hraw]
    exact htree
  · rw [hraw]
    exact hroot
  · rw [hraw, hroot]
    exact hstate.commitment.symm
  · rw [hraw]

end ReadBack

/-! ## The store -/

section Transitions

/-- **Accumulator store transitions.** Over every run of calls from an init point: a refused
call changes nothing; the cursor is as many epochs on as calls succeeded; the commitment
binds the root and the total; the audit digest is the fold over every epoch and root since
the start, and with their number determines them; a previous justification is that of the
epoch before; what is written reads back, and a file changed in one region does not. -/
theorem store_transitions (hcompress : Function.Injective2 P.compress)
    (hwords : Function.Injective fun e : UInt64 => P.digestOfWords [e, 0, 0, 0])
    (sha256 : List UInt8 → Bytes 32)
    (bincode : Bincode (Payload P)) (chain : String) (epoch : UInt64) (accRoot : P.Digest)
    (totalActiveBalance numValidators : UInt64) (calls : List (StoreState.Advance P)) :
    let run := calls.foldl attempt
      (.started chain epoch accRoot totalActiveBalance numValidators, [])
    (∀ (s s' : StoreState P) (call : StoreState.Advance P) (message : String),
        s.advance call = (.error message, s') → s' = s) ∧
      run.1.cursorEpoch - run.1.initEpoch = UInt64.ofNat run.2.length ∧
      run.1.accCommitment = P.commitment run.1.accRoot run.1.totalActiveBalance ∧
      run.1.accChainDigest = chainDigest ((epoch, accRoot) :: run.2) ∧
      (∀ history : List (UInt64 × P.Digest), history.length = run.2.length + 1 →
        chainDigest history = run.1.accChainDigest → history = (epoch, accRoot) :: run.2) ∧
      (∀ (s : StoreState P) (e : UInt64) (previous : PreviousJustification P)
        (proof : List UInt64), s.previousJustification e = some (previous, proof) →
          previous.targetEpoch = e - 1) ∧
      (∀ (x : Payload P) (bytes : List UInt8), encode bincode sha256 x = .ok bytes →
        decode bincode sha256 bytes = .ok x) ∧
      ∀ (x y : Payload P) (r r' : Regions), encode bincode sha256 x = .ok r.bytes →
        (∀ body, sha256 body = sha256 r.body → body = r.body) → r.DifferInOne r' → r' ≠ r →
          decode bincode sha256 r'.bytes ≠ .ok y := by
  intro run
  have h := audited_run chain epoch accRoot totalActiveBalance numValidators calls
  refine ⟨fun s s' call message => advance_error, ?_, h.commitment, h.digest, ?_, ?_, ?_, ?_⟩
  · rw [h.cursor, h.init, UInt64.add_comm, UInt64.add_sub_cancel]
  · intro history hlength hdigest
    apply chainDigest_inj hcompress hwords (by simpa using hlength)
    rw [hdigest, h.digest]
  · intro s e previous proof hsome
    exact (previousJustification_eq_some hsome).1
  · exact fun x bytes => decode_encode
  · intro x y r r' hencode hsha hone hne hread
    exact hne (decode_changed hsha hencode hone hread)

/-- Digests of free terms, with the words of an epoch among them. -/
@[reducible] def spelled : Primitives :=
  { Formal.formal {} with digestOfWords := fun words => .leaf 0 (words.headD 0) }

/-! ### A store that moved once -/

deriving instance DecidableEq for JustificationOutput, StreamFinalOutput, EpochDiffOutput,
  EpochState, Checkpoint, Record, StoreState, Payload

/-- A serializer that knows one value and the bytes of it. -/
def Bincode.only {α : Type} [DecidableEq α] (x : α) (body : List UInt8)
    (hbody : body.length < 2 ^ 64) : Bincode α where
  serialize y := if y = x then .ok body else .error "another value"
  deserialize bytes := if bytes = body then .ok x else .error "other bytes"
  roundtrip {y bytes} h := by
    split at h
    · next hy =>
        obtain rfl := Except.ok.inj h
        rw [if_pos rfl, hy]
    · cases h
  fits {y bytes} h := by
    split at h
    · exact Except.ok.inj h ▸ hbody
    · cases h

/-- The advance from epoch 7 to epoch 8. -/
def toEight : StoreState.Advance spelled :=
  ⟨8, Formal.Digest.zero, .commitment .zero 64, 64, 2, none⟩

/-- It is tried twice. -/
def movedOnce : StoreState spelled × List (UInt64 × spelled.Digest) :=
  [toEight, toEight].foldl attempt (.started "mainnet" 7 Formal.Digest.zero 32 1, [])

/-- The state behind it, with the view of its epoch and a tree of two leaves. -/
def kept : Payload spelled where
  state := movedOnce.1
  epochState := ⟨256, .bytes [1], [.bytes [2]], [.bytes [3], .bytes [4]], .bytes [5], 2⟩
  treeLevels := [[.leaf 0 32, .leaf 0 32], [.node (.leaf 0 32) (.leaf 0 32)]]
  treeDepth := 1
  denseDepth := 1

/-- The body that is written of it. -/
def keptBincode : Bincode (Payload spelled) := .only kept [8, 2, 64] (by decide)

/-- A checksum that no other body has. -/
def keptChecksum : List UInt8 → Bytes 32
  | [8, 2, 64] => u64ToChunk 1
  | _ => zeroBytes 32

def keptFile : Regions := .ofBody keptChecksum magic formatVersion [8, 2, 64]

/-- An advance tried twice, and the file of what comes of it, which reads back as long as nobody
touches its body. -/
theorem store_transitions_kept :
    movedOnce.1.cursorEpoch - movedOnce.1.initEpoch = 1 ∧
      movedOnce.1.accChainDigest = chainDigest [(7, Formal.Digest.zero), (8, Formal.Digest.zero)] ∧
      decode keptBincode keptChecksum keptFile.bytes = .ok kept ∧
      ∀ y, decode keptBincode keptChecksum { keptFile with body := [8, 3, 64] }.bytes ≠ .ok y := by
  have hwords : Function.Injective fun e : UInt64 => spelled.digestOfWords [e, 0, 0, 0] := by
    intro e e' h
    exact (Formal.Digest.leaf.inj h).2
  have hcompress : Function.Injective2 spelled.compress := fun _ _ _ _ h =>
    Formal.Digest.node.inj h
  have hlog : movedOnce.2 = [(8, Formal.Digest.zero)] := by decide +kernel
  have hencode : encode keptBincode keptChecksum kept = .ok keptFile.bytes := by decide +kernel
  have hchecksum : ∀ body, keptChecksum body = keptChecksum keptFile.body →
      body = keptFile.body := by
    intro body h
    by_contra hbody
    have hother : keptChecksum body = zeroBytes 32 := keptChecksum.eq_2 body hbody
    rw [hother] at h
    exact absurd h (by decide)
  obtain ⟨-, hcursor, -, hdigest, -, -, hreads, hchanged⟩ := store_transitions hcompress hwords
    keptChecksum keptBincode "mainnet" 7 Formal.Digest.zero 32 1 [toEight, toEight]
  refine ⟨hcursor.trans (congrArg (fun log => UInt64.ofNat (List.length log)) hlog),
    hdigest.trans (congrArg (fun log => chainDigest ((7, Formal.Digest.zero) :: log)) hlog),
    hreads kept _ hencode, fun y => ?_⟩
  apply hchanged kept y keptFile _ hencode hchecksum
  · exact .inr (.inr (.inr (.inr ⟨[8, 3, 64], rfl⟩)))
  · intro hsame
    exact absurd (congrArg Regions.body hsame) (by decide)

/-- Digests that are numbers, and the pairing of numbers for a hash: it is injective, and
zero is the pair of zero and zero. -/
@[reducible] def numbered : Primitives :=
  { Formal.formal {} with
    Digest := ℕ
    decEqDigest := inferInstance
    zero := 0
    compress := Nat.pair
    leaf := fun _ balance => balance.toNat
    commitment := fun root total => Nat.pair root total.toNat
    commitFp12 := fun _ => 0
    digestOfWords := fun words => (words.headD 0).toNat }

/-- One digest, and two histories: the first link of the longer one is the digest the
shorter one starts from. -/
theorem chainDigest_shifts :
    Function.Injective2 numbered.compress ∧
      Function.Injective (fun e : UInt64 => numbered.digestOfWords [e, 0, 0, 0]) ∧
      ∃ (call : StoreState.Advance numbered) (s : StoreState numbered)
        (log : List (UInt64 × ℕ)),
        [call].foldl attempt (.started "mainnet" 0 (0 : ℕ) 0 0, []) = (s, log) ∧
        s.accChainDigest =
          (StoreState.started "mainnet" 1 (0 : ℕ) 0 0 : StoreState numbered).accChainDigest ∧
        (0, 0) :: log ≠ [(1, 0)] := by
  refine ⟨?_, ?_, ⟨1, (0 : ℕ), (0 : ℕ), 0, 0, none⟩, _, _, rfl, ?_, ?_⟩
  · intro a a' b b' h
    exact Nat.pair_eq_pair.mp h
  · intro e e' h
    exact UInt64.toNat_inj.mp h
  · decide +kernel
  · decide +kernel

end Transitions

end Zkasper.Store
