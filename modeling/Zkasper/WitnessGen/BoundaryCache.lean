import Zkasper.Library.Cursor
import Zkasper.Library.Sealed
import Zkasper.Library.Transition
import Zkasper.WitnessGen.Committees
import Mathlib.Data.Nat.Digits.Lemmas

/-! # The boundary cache

The registry and the committees of an epoch boundary, kept in memory and beside the store
until the accumulator has moved past them. A file is named for its slot, says its slot in its
header, and carries a checksum of its body; the checksum does not cover the header, and
nothing compares the two slots.

What a call finds of the file system is its argument. The temporary file of a write that fails
is left out: no slot is named by it. So is the room `decode` reserves for a count. -/

namespace Zkasper.Boundaries

open Library

/-! ## What is kept -/

/-- A validator with its index, as the node reports it. -/
structure BoundaryValidator extends ValidatorResponse where
  index : UInt64

/-- The state-derived inputs one epoch boundary is read for. -/
structure BoundaryInputs where
  slot : UInt64
  validators : List BoundaryValidator
  committees : List CommitteeResponse

/-- How many boundaries are kept in memory. -/
def hotLimit : ℕ := 2

/-! ## The file -/

/-- `b"ZKBOUND\\x01"`. -/
def magic : Bytes 8 := ⟨[0x5a, 0x4b, 0x42, 0x4f, 0x55, 0x4e, 0x44, 0x01], rfl⟩

def formatVersion : ℕ := 1

def BoundaryValidator.encode (v : BoundaryValidator) : List UInt8 :=
  leBytes 8 v.index.toNat ++ (v.pubkey.val ++ (v.withdrawalCredentials.val ++
    (leBytes 8 v.effectiveBalance.toNat ++ (leBytes 8 v.activationEligibilityEpoch.toNat ++
      (leBytes 8 v.activationEpoch.toNat ++ (leBytes 8 v.exitEpoch.toNat ++
        (leBytes 8 v.withdrawableEpoch.toNat ++ [if v.slashed then 1 else 0])))))))

def encodeCommittee (c : CommitteeResponse) : List UInt8 :=
  leBytes 8 c.slot.toNat ++ (leBytes 8 c.index.toNat ++ (leBytes 8 c.validators.length ++
    c.validators.flatMap fun index => leBytes 8 index.toNat))

def BoundaryInputs.body (inputs : BoundaryInputs) : List UInt8 :=
  leBytes 8 inputs.validators.length ++ (inputs.validators.flatMap BoundaryValidator.encode ++
    (leBytes 8 inputs.committees.length ++ inputs.committees.flatMap encodeCommittee))

def readValidator : Reader BoundaryValidator := do
  let index ← Cursor.u64
  let pubkey ← Cursor.array 48
  let withdrawalCredentials ← Cursor.array 32
  let effectiveBalance ← Cursor.u64
  let activationEligibilityEpoch ← Cursor.u64
  let activationEpoch ← Cursor.u64
  let exitEpoch ← Cursor.u64
  let withdrawableEpoch ← Cursor.u64
  let slashed ← Cursor.byte
  return { index, pubkey, withdrawalCredentials, effectiveBalance, activationEligibilityEpoch,
           activationEpoch, exitEpoch, withdrawableEpoch, slashed := slashed == 1 }

def readCommittee : Reader CommitteeResponse := do
  let slot ← Cursor.u64
  let index ← Cursor.u64
  let members ← Cursor.u64
  let validators ← Cursor.many Cursor.u64 members.toNat
  return ⟨slot, index, validators⟩

def readInputs (slot : UInt64) : Reader BoundaryInputs := do
  let count ← Cursor.u64
  let validators ← Cursor.many readValidator count.toNat
  let count ← Cursor.u64
  let committees ← Cursor.many readCommittee count.toNat
  return ⟨slot, validators, committees⟩

section File

variable (sha256 : List UInt8 → Bytes 32)

def encode (inputs : BoundaryInputs) : List UInt8 :=
  magic.val ++ leBytes 4 formatVersion ++ leBytes 8 inputs.slot.toNat ++
    (sha256 inputs.body).val ++ inputs.body

def decode (bytes : List UInt8) : Except String BoundaryInputs := do
  Guest.assert (Regions.header ≤ bytes.length)
    s!"truncated: {bytes.length} bytes is shorter than the header"
  Guest.assert (bytes.take 8 = magic.val) "not a boundary file (bad magic)"
  let version := fromLeBytes ((bytes.drop 8).take 4)
  Guest.assert (version = formatVersion)
    s!"boundary format version {version}, expected {formatVersion}"
  let slot := UInt64.ofNat (fromLeBytes ((bytes.drop 12).take 8))
  let body := bytes.drop Regions.header
  Guest.assert ((sha256 body).val = (bytes.drop 20).take 32) "payload checksum mismatch"
  let (inputs, c) ← readInputs slot ⟨body, 0⟩
  Guest.assert (c.pos = body.length)
    s!"{body.length - c.pos} bytes left over after the last committee"
  return inputs

end File

/-! ## The directory -/

abbrev FileName := List Char

/-- `{slot:012}.bin` -/
def path (slot : UInt64) : FileName :=
  let digits := Nat.digits 10 slot.toNat
  (digits ++ List.replicate (12 - digits.length) 0).reverse.map Nat.digitChar ++ ".bin".toList

/-- The digits of a `u64`, or nothing where it overflows. -/
def parseDigits : ℕ → List Char → Option ℕ
  | n, [] => some n
  | n, c :: cs =>
      if c.isDigit ∧ 10 * n + (c.toNat - '0'.toNat) < 2 ^ 64 then
        parseDigits (10 * n + (c.toNat - '0'.toNat)) cs
      else none

/-- `str::parse::<u64>` -/
def parse : List Char → Option UInt64
  | [] => none
  | ['+'] => none
  | '+' :: cs => (parseDigits 0 cs).map UInt64.ofNat
  | cs => (parseDigits 0 cs).map UInt64.ofNat

/-- The slot a boundary file is named for. -/
def slotOf (name : FileName) : Option UInt64 :=
  if ".bin".toList.isSuffixOf name then parse (name.take (name.length - 4)) else none

/-- The boundaries of a run: in memory, the oldest first, and in the directory. -/
structure BoundaryCache where
  hot : List BoundaryInputs
  dir : FileName → Option (List UInt8)

namespace BoundaryCache

variable (sha256 : List UInt8 → Bytes 32)

/-- Whether the boundary at `slot` is held, without decoding it. -/
def holds (cache : BoundaryCache) (slot : UInt64) : Bool :=
  cache.hot.any (·.slot = slot) || (cache.dir (path slot)).isSome

def warm (cache : BoundaryCache) (inputs : BoundaryInputs) : BoundaryCache :=
  let hot := cache.hot.filter (·.slot ≠ inputs.slot) ++ [inputs]
  { cache with hot := hot.drop (hot.length - hotLimit) }

/-- The boundary at `slot`, from memory or from its file. A file that does not decode is
removed, if it can be. -/
def get (cache : BoundaryCache) (slot : UInt64) (readable removed : Bool) :
    BoundaryCache × Option BoundaryInputs :=
  match cache.hot.find? (·.slot = slot) with
  | some held => (cache, some held)
  | none =>
      match cache.dir (path slot) with
      | none => (cache, none)
      | some bytes =>
          match (if readable then decode sha256 bytes else .error "read boundary file") with
          | .ok inputs => (cache.warm inputs, some inputs)
          | .error _ =>
              ({ cache with
                dir := if removed then Function.update cache.dir (path slot) none else cache.dir },
                none)

/-- Hold `inputs`, in memory and, if it can be written, in the directory. -/
def put (cache : BoundaryCache) (inputs : BoundaryInputs) (written : Bool) : BoundaryCache :=
  let dir := if written then
      Function.update cache.dir (path inputs.slot) (some (encode sha256 inputs))
    else cache.dir
  { cache with dir }.warm inputs

/-- Drop every boundary before `slot`, as far as the directory lists it and lets go of it. -/
def forgetBefore (cache : BoundaryCache) (slot : UInt64) (listed : Bool)
    (removed : FileName → Bool) : BoundaryCache where
  hot := cache.hot.filter (slot ≤ ·.slot)
  dir := fun name =>
    if listed ∧ removed name ∧ (slotOf name).any (· < slot) then none else cache.dir name

end BoundaryCache

/-! ## Runs -/

/-- A buffer of the file is shorter than 2^64, as every buffer is. -/
def BoundaryInputs.Sized (inputs : BoundaryInputs) : Prop := inputs.body.length < 2 ^ 64

/-- What can happen to a cache. -/
inductive Call where
  | put (inputs : BoundaryInputs) (sized : inputs.Sized) (written : Bool)
  | get (slot : UInt64) (readable removed : Bool)
  | holds (slot : UInt64)
  | forgetBefore (slot : UInt64) (listed : Bool) (removed : FileName → Bool)
  /-- A new cache beside the same store. -/
  | reopen
  /-- Anything at all is left under a name of the directory. -/
  | damage (name : FileName) (content : Option (List UInt8))

/-- A cache, and everything that was ever put into it. -/
structure World where
  cache : BoundaryCache
  puts : List BoundaryInputs

namespace World

variable (sha256 : List UInt8 → Bytes 32)

/-- Nothing is held. -/
def fresh : World := ⟨⟨[], fun _ => none⟩, []⟩

def call (w : World) : Call → World
  | .put inputs _ written => ⟨w.cache.put sha256 inputs written, w.puts ++ [inputs]⟩
  | .get slot readable removed => { w with cache := (w.cache.get sha256 slot readable removed).1 }
  | .holds _ => w
  | .forgetBefore slot listed removed =>
      { w with cache := w.cache.forgetBefore slot listed removed }
  | .reopen => { w with cache := { w.cache with hot := [] } }
  | .damage name content =>
      { w with cache := { w.cache with dir := Function.update w.cache.dir name content } }

def step (w : World) (c : Call) : Option World := some (w.call sha256 c)

/-- What a `get` returns. -/
def answer (w : World) (slot : UInt64) (readable removed : Bool) : Option BoundaryInputs :=
  (w.cache.get sha256 slot readable removed).2

end World

/-- No other body has the checksum of one that was put. -/
def Collisionless (sha256 : List UInt8 → Bytes 32) (puts : List BoundaryInputs) : Prop :=
  ∀ inputs ∈ puts, ∀ body, sha256 body = sha256 inputs.body → body = inputs.body

/-- What `decode` checks of a file before it reads the body. The eight bytes in front of the
checksum are the slot here. -/
structure Intact (sha256 : List UInt8 → Bytes 32) (r : Regions) : Prop where
  magic : r.magic = magic
  version : fromLeBytes r.version.val = formatVersion
  checksum : sha256 r.body = r.checksum

/-- A file that is under the name of a slot is that slot's, and has the checksum of inputs that
were put for it. -/
def OfSlot (sha256 : List UInt8 → Bytes 32) (puts : List BoundaryInputs) (slot : UInt64)
    (r : Regions) : Prop :=
  UInt64.ofNat (fromLeBytes r.length.val) = slot ∧
    ∃ inputs ∈ puts, inputs.slot = slot ∧ r.checksum = sha256 inputs.body

/-- **Damage that a header shows**: what is left under the name of a slot is not intact, or it
is what was put there. -/
def Harmless (sha256 : List UInt8 → Bytes 32) (w : World) : Call → Prop
  | .damage name (some bytes) => ∀ slot, name = path slot → ∀ r : Regions, r.bytes = bytes →
      Intact sha256 r → OfSlot sha256 w.puts slot r
  | _ => True

/-! ## The round trip -/

section RoundTrip

variable {sha256 : List UInt8 → Bytes 32}

theorem reads_validator (v : BoundaryValidator) : Reads readValidator v.encode v := by
  have hflag : ((if v.slashed then 1 else 0 : UInt8) == 1) = v.slashed := by
    cases v.slashed <;> rfl
  have hrecord := (Reads.byte (if v.slashed then 1 else 0)).map fun slashed =>
    ({ v with slashed := slashed == 1 } : BoundaryValidator)
  rw [hflag] at hrecord
  apply (Reads.u64 v.index).bind
  apply (Reads.array v.pubkey).bind
  apply (Reads.array v.withdrawalCredentials).bind
  apply (Reads.u64 v.effectiveBalance).bind
  apply (Reads.u64 v.activationEligibilityEpoch).bind
  apply (Reads.u64 v.activationEpoch).bind
  apply (Reads.u64 v.exitEpoch).bind
  apply (Reads.u64 v.withdrawableEpoch).bind
  exact hrecord

/-- A count below 2^64 is read back as it was. -/
theorem reads_count {n : ℕ} (h : n < 2 ^ 64) : Reads Cursor.u64 (leBytes 8 n) (UInt64.ofNat n) := by
  have hread := Reads.u64 (UInt64.ofNat n)
  rwa [UInt64.toNat_ofNat_of_lt' h] at hread

theorem reads_committee {c : CommitteeResponse} (h : c.validators.length < 2 ^ 64) :
    Reads readCommittee (encodeCommittee c) c := by
  have hindices : Reads (Cursor.many Cursor.u64 c.validators.length)
      (c.validators.flatMap fun index => leBytes 8 index.toNat) c.validators :=
    .many fun index _ => .u64 index
  have hmany := hindices.map fun validators =>
    (⟨c.slot, c.index, validators⟩ : CommitteeResponse)
  apply (Reads.u64 c.slot).bind
  apply (Reads.u64 c.index).bind
  apply (reads_count h).bind
  rw [UInt64.toNat_ofNat_of_lt' h]
  exact hmany

theorem length_le_flatMap {α : Type} (f : α → List UInt8) :
    ∀ as : List α, (∀ a ∈ as, 1 ≤ (f a).length) → as.length ≤ (as.flatMap f).length := by
  intro as
  induction as with
  | nil => simp
  | cons a as ih =>
      intro h
      obtain ⟨ha, has⟩ := List.forall_mem_cons.mp h
      have hrest := ih has
      rw [List.flatMap_cons, List.length_append, List.length_cons]
      omega

theorem length_encode_le {α : Type} (f : α → List UInt8) {as : List α} {a : α} (ha : a ∈ as) :
    (f a).length ≤ (as.flatMap f).length := by
  rw [List.length_flatMap]
  exact List.le_sum_of_mem (List.mem_map_of_mem ha)

/-- What is in a buffer is counted below 2^64. -/
theorem BoundaryInputs.Sized.counts {inputs : BoundaryInputs} (h : inputs.Sized) :
    inputs.validators.length < 2 ^ 64 ∧ inputs.committees.length < 2 ^ 64 ∧
      ∀ c ∈ inputs.committees, c.validators.length < 2 ^ 64 := by
  unfold BoundaryInputs.Sized BoundaryInputs.body at h
  simp only [List.length_append, leBytes_length] at h
  have hvalidators := length_le_flatMap BoundaryValidator.encode inputs.validators fun v _ => by
    simp only [BoundaryValidator.encode, List.length_append, leBytes_length]
    omega
  have hcommittees := length_le_flatMap encodeCommittee inputs.committees fun c _ => by
    simp only [encodeCommittee, List.length_append, leBytes_length]
    omega
  refine ⟨by omega, by omega, fun c hc => ?_⟩
  have hone := length_encode_le encodeCommittee hc
  have hmembers := length_le_flatMap (fun index : UInt64 => leBytes 8 index.toNat) c.validators
    fun index _ => by simp
  have hcommittee : (encodeCommittee c).length =
      24 + (c.validators.flatMap fun index => leBytes 8 index.toNat).length := by
    simp only [encodeCommittee, List.length_append, leBytes_length]
    omega
  omega

theorem reads_inputs {inputs : BoundaryInputs} (h : inputs.Sized) :
    Reads (readInputs inputs.slot) inputs.body inputs := by
  obtain ⟨hvalidators, hcommittees, hmembers⟩ := h.counts
  have htable : Reads (Cursor.many readCommittee inputs.committees.length)
      (inputs.committees.flatMap encodeCommittee) inputs.committees :=
    .many fun c hc => reads_committee (hmembers c hc)
  have hregistry : Reads (Cursor.many readValidator inputs.validators.length)
      (inputs.validators.flatMap BoundaryValidator.encode) inputs.validators :=
    .many fun v _ => reads_validator v
  have hlast := htable.map fun committees =>
    (⟨inputs.slot, inputs.validators, committees⟩ : BoundaryInputs)
  apply (reads_count hvalidators).bind
  rw [UInt64.toNat_ofNat_of_lt' hvalidators]
  apply hregistry.bind
  apply (reads_count hcommittees).bind
  rw [UInt64.toNat_ofNat_of_lt' hcommittees]
  exact hlast

/-- What `decode` accepts: an intact file, whose body reads to its end. -/
theorem decode_eq_ok {r : Regions} {inputs : BoundaryInputs} :
    decode sha256 r.bytes = .ok inputs ↔ Intact sha256 r ∧
      ∃ c, readInputs (UInt64.ofNat (fromLeBytes r.length.val)) ⟨r.body, 0⟩ = .ok (inputs, c) ∧
        c.pos = r.body.length := by
  simp only [decode, Guest.bind_eq_ok, Guest.assert_eq_ok, Guest.pure_eq_ok, exists_const,
    Regions.take_magic, Regions.take_version, Regions.take_length, Regions.take_checksum,
    Regions.drop_header, Regions.length_bytes, Prod.exists]
  constructor
  · rintro ⟨-, hmagic, hversion, hchecksum, inputs', c, hread, hend, rfl⟩
    exact ⟨⟨Subtype.ext hmagic, hversion, Subtype.ext hchecksum⟩, c, hread, hend⟩
  · rintro ⟨hintact, c, hread, hend⟩
    exact ⟨Nat.le_add_right _ _, congrArg Subtype.val hintact.magic, hintact.version,
      congrArg Subtype.val hintact.checksum, inputs, c, hread, hend, rfl⟩

/-- What decodes is long enough to have a header. -/
theorem exists_regions {bytes : List UInt8} {inputs : BoundaryInputs}
    (h : decode sha256 bytes = .ok inputs) : ∃ r : Regions, r.bytes = bytes := by
  simp only [decode, Guest.bind_eq_ok, Guest.assert_eq_ok] at h
  obtain ⟨_, hheader, -⟩ := h
  exact Regions.exists_bytes hheader

/-- The file of some inputs, by its regions. -/
def fileOf (sha256 : List UInt8 → Bytes 32) (inputs : BoundaryInputs) : Regions where
  magic := magic
  version := ⟨leBytes 4 formatVersion, leBytes_length _ _⟩
  length := ⟨leBytes 8 inputs.slot.toNat, leBytes_length _ _⟩
  checksum := sha256 inputs.body
  body := inputs.body

theorem fileOf_slot (inputs : BoundaryInputs) :
    UInt64.ofNat (fromLeBytes (fileOf sha256 inputs).length.val) = inputs.slot := by
  show UInt64.ofNat (fromLeBytes (leBytes 8 inputs.slot.toNat)) = _
  rw [fromLeBytes_leBytes inputs.slot.toNat_lt, UInt64.ofNat_toNat]

/-- The body alone decides what is read. -/
theorem decode_eq_put {r : Regions} {inputs out : BoundaryInputs} (hsized : inputs.Sized)
    (hslot : UInt64.ofNat (fromLeBytes r.length.val) = inputs.slot) (hbody : r.body = inputs.body)
    (h : decode sha256 r.bytes = .ok out) : out = inputs := by
  obtain ⟨-, c, hread, -⟩ := decode_eq_ok.mp h
  have hwritten := reads_inputs hsized [] [] (by simpa [BoundaryInputs.Sized] using hsized)
  rw [List.nil_append, List.append_nil] at hwritten
  rw [hslot, hbody] at hread
  exact (Prod.mk.inj (Except.ok.inj (hread.symm.trans hwritten))).1

/-- **Decoding undoes encoding.** -/
theorem decode_encode {inputs : BoundaryInputs} (h : inputs.Sized) :
    decode sha256 (encode sha256 inputs) = .ok inputs := by
  apply (decode_eq_ok (r := fileOf sha256 inputs)).mpr
  have hwritten := reads_inputs h [] [] (by simpa [BoundaryInputs.Sized] using h)
  rw [List.nil_append, List.append_nil] at hwritten
  rw [fileOf_slot]
  exact ⟨⟨rfl, fromLeBytes_leBytes (by decide), rfl⟩, _, hwritten, Nat.zero_add _⟩

end RoundTrip

/-! ## Names -/

/-- **A file name is one slot's.** -/
theorem path_injective : Function.Injective path := by
  intro slot slot' h
  -- the padding is no digit of the number: it adds nothing to what the digits say
  have hvalue : ∀ n k, Nat.ofDigits 10 (Nat.digits 10 n ++ List.replicate k 0) = n := by
    intro n k
    rw [Nat.ofDigits_append_replicate_zero, Nat.ofDigits_digits]
  have hread : ∀ n k, ((Nat.digits 10 n ++ List.replicate k 0).map Nat.digitChar).map
      (fun c : Char => c.toNat - 48) = Nat.digits 10 n ++ List.replicate k 0 := by
    intro n k
    rw [List.map_map, List.map_congr_left (g := id), List.map_id]
    intro d hd
    have hdigit : d < 10 := by
      rcases List.mem_append.mp hd with hd | hd
      · exact Nat.digits_lt_base (by decide) hd
      · rw [List.eq_of_mem_replicate hd]
        decide
    exact Nat.toNat_digitChar_sub_48_of_lt_ten hdigit
  have hchars := List.append_cancel_right h
  rw [List.map_reverse, List.map_reverse, List.reverse_inj] at hchars
  have hdigits := congrArg (List.map fun c : Char => c.toNat - 48) hchars
  rw [hread, hread] at hdigits
  have hnat := congrArg (Nat.ofDigits 10) hdigits
  rw [hvalue, hvalue] at hnat
  exact UInt64.toNat_inj.mp hnat

/-! ## What a cache keeps -/

section Kept

variable {sha256 : List UInt8 → Bytes 32}

/-- Nothing is in memory that was not put, and an intact file under a slot's name is of that
slot. -/
structure Kept (sha256 : List UInt8 → Bytes 32) (w : World) : Prop where
  hot : ∀ inputs ∈ w.cache.hot, inputs ∈ w.puts
  dir : ∀ slot bytes, w.cache.dir (path slot) = some bytes → ∀ r : Regions, r.bytes = bytes →
    Intact sha256 r → OfSlot sha256 w.puts slot r
  sized : ∀ inputs ∈ w.puts, inputs.Sized

theorem mem_warm {cache : BoundaryCache} {inputs held : BoundaryInputs}
    (h : held ∈ (cache.warm inputs).hot) : held ∈ cache.hot ∨ held = inputs := by
  have hmem := List.mem_of_mem_drop h
  rcases List.mem_append.mp hmem with hmem | hmem
  · exact .inl (List.mem_of_mem_filter hmem)
  · exact .inr (List.mem_singleton.mp hmem)

/-- **A file that decodes is what was put**: its slot is the one it was looked up for, its body
the one that has its checksum. -/
theorem Kept.decoded {w : World} (h : Kept sha256 w) (hhash : Collisionless sha256 w.puts)
    {slot : UInt64} {bytes : List UInt8} {out : BoundaryInputs}
    (hfile : w.cache.dir (path slot) = some bytes) (hdecode : decode sha256 bytes = .ok out) :
    out ∈ w.puts ∧ out.slot = slot := by
  obtain ⟨r, rfl⟩ := exists_regions hdecode
  have hintact := (decode_eq_ok.mp hdecode).1
  obtain ⟨hslot, inputs, hput, hof, hchecksum⟩ := h.dir slot _ hfile r rfl hintact
  have hbody : r.body = inputs.body :=
    hhash inputs hput _ (hintact.checksum.trans hchecksum)
  obtain rfl := decode_eq_put (h.sized inputs hput) (hslot.trans hof.symm) hbody hdecode
  exact ⟨hput, hof⟩

/-- **What is served was put, for that slot.** -/
theorem Kept.served {w : World} (h : Kept sha256 w) (hhash : Collisionless sha256 w.puts)
    {slot : UInt64} {readable removed : Bool} {out : BoundaryInputs}
    (hanswer : w.answer sha256 slot readable removed = some out) :
    out ∈ w.puts ∧ out.slot = slot := by
  unfold World.answer BoundaryCache.get at hanswer
  split at hanswer
  · next held hheld =>
      obtain rfl := Option.some.inj hanswer
      exact ⟨h.hot held (List.mem_of_find?_eq_some hheld),
        by simpa using List.find?_some hheld⟩
  · split at hanswer
    · cases hanswer
    · next bytes hfile =>
        split at hanswer
        · next inputs hdecode =>
            obtain rfl := Option.some.inj hanswer
            split at hdecode
            · exact h.decoded hhash hfile hdecode
            · cases hdecode
        · cases hanswer

/-- A `get` only warms what it answers, and only takes files away. -/
theorem get_only (sha256 : List UInt8 → Bytes 32) (cache : BoundaryCache) (slot : UInt64)
    (readable removed : Bool) :
    (∀ held ∈ (cache.get sha256 slot readable removed).1.hot,
      held ∈ cache.hot ∨ (cache.get sha256 slot readable removed).2 = some held) ∧
    ∀ name bytes, (cache.get sha256 slot readable removed).1.dir name = some bytes →
      cache.dir name = some bytes := by
  unfold BoundaryCache.get
  split
  · exact ⟨fun _ hheld => .inl hheld, fun _ _ hfile => hfile⟩
  · split
    · exact ⟨fun _ hheld => .inl hheld, fun _ _ hfile => hfile⟩
    · split
      · next inputs _ =>
          refine ⟨fun held hheld => ?_, fun _ _ hfile => hfile⟩
          rcases mem_warm hheld with hheld | rfl
          · exact .inl hheld
          · exact .inr rfl
      · refine ⟨fun _ hheld => .inl hheld, fun name bytes hfile => ?_⟩
        dsimp only at hfile
        split at hfile
        · rw [Function.update_apply] at hfile
          split at hfile
          · cases hfile
          · exact hfile
        · exact hfile

theorem Kept.get {w : World} (h : Kept sha256 w) (hhash : Collisionless sha256 w.puts)
    (slot : UInt64) (readable removed : Bool) :
    Kept sha256 (w.call sha256 (.get slot readable removed)) := by
  obtain ⟨hhot, hdir⟩ := get_only sha256 w.cache slot readable removed
  refine ⟨fun held hheld => ?_, fun slot' bytes hfile => h.dir slot' bytes (hdir _ _ hfile),
    h.sized⟩
  rcases hhot held hheld with hheld | hanswer
  · exact h.hot held hheld
  · exact (h.served hhash hanswer).1

/-- More puts leave a file that was of its slot so. -/
theorem OfSlot.mono {puts puts' : List BoundaryInputs} {slot : UInt64} {r : Regions}
    (h : OfSlot sha256 puts slot r) (hsub : puts ⊆ puts') : OfSlot sha256 puts' slot r := by
  obtain ⟨hslot, inputs, hput, hof, hchecksum⟩ := h
  exact ⟨hslot, inputs, hsub hput, hof, hchecksum⟩

/-- A `put` writes the file its name says. -/
theorem Kept.put {w : World} (h : Kept sha256 w) (inputs : BoundaryInputs)
    (hsized : inputs.Sized) (written : Bool) :
    Kept sha256 (w.call sha256 (.put inputs hsized written)) := by
  have hsub : w.puts ⊆ w.puts ++ [inputs] := List.subset_append_left _ _
  have hput : inputs ∈ w.puts ++ [inputs] := List.mem_append_right _ (List.mem_singleton_self _)
  constructor
  · intro held hheld
    rcases mem_warm hheld with hheld | rfl
    · exact hsub (h.hot held hheld)
    · exact hput
  · intro slot bytes hfile r hr hintact
    replace hfile : (if written then Function.update w.cache.dir (path inputs.slot)
        (some (encode sha256 inputs)) else w.cache.dir) (path slot) = some bytes := hfile
    split at hfile
    · rw [Function.update_apply] at hfile
      split at hfile
      · next hname =>
          obtain rfl := path_injective hname
          obtain rfl := Option.some.inj hfile
          obtain rfl : r = fileOf sha256 inputs := Regions.bytes_injective hr
          exact ⟨fileOf_slot inputs, inputs, hput, rfl, rfl⟩
      · exact (h.dir slot bytes hfile r hr hintact).mono hsub
    · exact (h.dir slot bytes hfile r hr hintact).mono hsub
  · intro held hheld
    rcases List.mem_append.mp hheld with hheld | hheld
    · exact h.sized held hheld
    · obtain rfl := List.mem_singleton.mp hheld
      exact hsized

/-- **One call**, whatever it is, as long as the damage shows. -/
theorem Kept.call {w : World} (h : Kept sha256 w) (hhash : Collisionless sha256 w.puts)
    (c : Call) (hharmless : Harmless sha256 w c) : Kept sha256 (w.call sha256 c) := by
  cases c with
  | put inputs sized written => exact h.put inputs sized written
  | get slot readable removed => exact h.get hhash slot readable removed
  | holds slot => exact h
  | forgetBefore slot listed removed =>
      refine ⟨fun held hheld => h.hot held (List.mem_of_mem_filter hheld),
        fun slot' bytes hfile => h.dir slot' bytes ?_, h.sized⟩
      replace hfile : (if listed ∧ removed (path slot') ∧ (slotOf (path slot')).any (· < slot)
        then none else w.cache.dir (path slot')) = some bytes := hfile
      split at hfile
      · cases hfile
      · exact hfile
  | reopen => exact ⟨fun _ hheld => absurd hheld List.not_mem_nil, h.dir, h.sized⟩
  | damage name content =>
      refine ⟨h.hot, fun slot bytes hfile r hr hintact => ?_, h.sized⟩
      replace hfile : Function.update w.cache.dir name content (path slot) = some bytes := hfile
      rw [Function.update_apply] at hfile
      split at hfile
      · next hname =>
          subst hfile
          exact hharmless slot hname.symm r hr hintact
      · exact h.dir slot bytes hfile r hr hintact

/-- What was put stays on record. -/
theorem World.puts_subset (w : World) (c : Call) : w.puts ⊆ (w.call sha256 c).puts := by
  cases c with
  | put inputs sized written => exact List.subset_append_left _ _
  | _ => exact List.Subset.refl _

theorem kept_fresh : Kept sha256 World.fresh where
  hot := fun _ hheld => absurd hheld List.not_mem_nil
  dir := fun _ _ hfile => nomatch hfile
  sized := fun _ hheld => absurd hheld List.not_mem_nil

/-- **Every run keeps it**, as long as no body that was put shares its checksum. -/
theorem Kept.of_reached {w : World}
    (h : Transition.Reached (World.step sha256) (Harmless sha256) World.fresh w)
    (hhash : Collisionless sha256 w.puts) : Kept sha256 w := by
  revert hhash
  apply h.invariant fun w => Collisionless sha256 w.puts → Kept sha256 w
  · intro _
    exact kept_fresh
  · intro w c w' ih hharmless hmoves hhash
    obtain rfl := Option.some.inj hmoves
    -- what was put before is among what has been put now
    have hbefore : Collisionless sha256 w.puts := fun inputs hput =>
      hhash inputs (w.puts_subset c hput)
    exact (ih hbefore).call hbefore c hharmless

end Kept

/-- **The boundary cache returns what was put**, whatever is done to its files, as long as the
damage shows: every file of a slot's name that is left there fails a check of its header, or is
that slot's. -/
theorem boundaries_as_put (sha256 : List UInt8 → Bytes 32) :
    (∀ inputs : BoundaryInputs, inputs.Sized →
      decode sha256 (encode sha256 inputs) = .ok inputs) ∧
    ∀ w, Transition.Reached (World.step sha256) (Harmless sha256) World.fresh w →
      Collisionless sha256 w.puts → ∀ slot readable removed inputs,
        w.answer sha256 slot readable removed = some inputs →
          inputs ∈ w.puts ∧ inputs.slot = slot :=
  ⟨fun _ hsized => decode_encode hsized,
    fun _ hreached hhash _ _ _ _ hanswer => (Kept.of_reached hreached hhash).served hhash hanswer⟩

end Zkasper.Boundaries

namespace Zkasper.Formal

open Boundaries Library

/-- An empty registry. -/
def noValidators (slot : UInt64) : BoundaryInputs := ⟨slot, [], []⟩

/-- Tells the empty registry from every other body. -/
def tellsEmpty (body : List UInt8) : Bytes 32 :=
  if body = (noValidators 0).body then ⟨List.replicate 32 1, rfl⟩ else zeroBytes 32

theorem tellsEmpty_collisionless {puts : List BoundaryInputs}
    (hputs : ∀ inputs ∈ puts, ∃ slot, inputs = noValidators slot) :
    Collisionless tellsEmpty puts := by
  intro inputs hput body h
  obtain ⟨slot, rfl⟩ := hputs inputs hput
  show body = (noValidators 0).body
  replace h : tellsEmpty body = tellsEmpty (noValidators 0).body := h
  by_contra hother
  rw [tellsEmpty, if_neg hother] at h
  exact absurd h (by decide)

/-- The empty registry of `slot` is put. -/
def keepEmpty (w : World) (slot : UInt64) : World :=
  w.call tellsEmpty (.put (noValidators slot) (show 16 < 2 ^ 64 by decide) true)

/-- The empty registry of slot 320 is put, its header is made to say 352, and the run starts
again. -/
def reheaded : World :=
  ((keepEmpty .fresh 320).call tellsEmpty (.damage (path 320) (some
    { fileOf tellsEmpty (noValidators 320) with length := ⟨leBytes 8 352, rfl⟩ }.bytes))).call
      tellsEmpty .reopen

/-- A validator from the start of the chain, as the node reports it. -/
def reported (index effectiveBalance : UInt64) : BoundaryValidator where
  pubkey := ⟨index.toUInt8 :: List.replicate 47 7, rfl⟩
  effectiveBalance := effectiveBalance
  activationEpoch := 0
  exitEpoch := 18446744073709551615
  withdrawalCredentials := zeroBytes 32
  slashed := false
  activationEligibilityEpoch := 0
  withdrawableEpoch := 18446744073709551615
  index := index

/-- Two validators, and who attests in the first two slots. -/
def populated (slot balance : UInt64) : BoundaryInputs :=
  ⟨slot, [reported 0 32, reported 1 balance], [⟨slot, 0, [1]⟩, ⟨slot + 1, 0, [0]⟩]⟩

theorem populated_sized (slot balance : UInt64) : (populated slot balance).Sized := by
  show (populated slot balance).body.length < 2 ^ 64
  have hreported : ∀ v : BoundaryValidator, v.encode.length = 129 := by
    intro v
    simp [BoundaryValidator.encode, v.pubkey.property, v.withdrawalCredentials.property]
  simp [populated, BoundaryInputs.body, encodeCommittee, hreported]

/-- Tells two registries from every other body. -/
def tellsTwo (body : List UInt8) : Bytes 32 :=
  if body = (populated 320 31).body then ⟨List.replicate 32 1, rfl⟩
  else if body = (populated 352 30).body then ⟨List.replicate 32 2, rfl⟩
  else zeroBytes 32

theorem tellsTwo_collisionless :
    Collisionless tellsTwo [populated 320 31, populated 352 30] := by
  intro inputs hput body h
  by_contra hother
  rcases List.mem_pair.mp hput with rfl | rfl
  · have hfirst : tellsTwo (populated 320 31).body = ⟨List.replicate 32 1, rfl⟩ := if_pos rfl
    rw [hfirst, tellsTwo, if_neg hother] at h
    split at h <;> exact absurd h (by decide)
  · have hsecond : tellsTwo (populated 352 30).body = ⟨List.replicate 32 2, rfl⟩ := by
      decide +kernel
    rw [hsecond, tellsTwo, if_neg hother] at h
    split at h <;> exact absurd h (by decide)

/-- The registries of slots 320 and 352 are put, the file of the first is cut short, and the run
starts again. -/
def cutShort : World :=
  (((World.fresh.call tellsTwo (.put (populated 320 31) (populated_sized _ _) true)).call tellsTwo
    (.put (populated 352 30) (populated_sized _ _) true)).call tellsTwo
      (.damage (path 320) (some magic.val))).call tellsTwo .reopen

/-- What is shorter than a header does no harm. -/
theorem harmless_short {sha256 : List UInt8 → Bytes 32} {w : World} {name : FileName}
    {bytes : List UInt8} (h : bytes.length < Regions.header) :
    Harmless sha256 w (.damage name (some bytes)) := by
  intro slot hname r hr
  rw [← hr, r.length_bytes] at h
  omega

end Zkasper.Formal

namespace Zkasper.Boundaries

open Formal

/-- A file cut short leaves the other one served as it was put. -/
theorem boundaries_as_put_cut :
    decode tellsTwo (encode tellsTwo (populated 320 31)) = .ok (populated 320 31) ∧
      ∃ inputs, cutShort.answer tellsTwo 352 true true = some inputs ∧
        inputs ∈ cutShort.puts ∧ inputs.slot = 352 := by
  obtain ⟨hround, hserved⟩ := boundaries_as_put tellsTwo
  refine ⟨hround _ (populated_sized _ _), ?_⟩
  have hreached : Transition.Reached (World.step tellsTwo) (Harmless tellsTwo) World.fresh
      cutShort := by
    apply Transition.Reached.step _ trivial rfl
    apply Transition.Reached.step _ (harmless_short (by decide)) rfl
    apply Transition.Reached.step (e := .put (populated 352 30) _ true) _ trivial rfl
    exact Transition.Reached.step (e := .put (populated 320 31) _ true) .start trivial rfl
  obtain ⟨inputs, hanswer⟩ := Option.isSome_iff_exists.mp
    (show (cutShort.answer tellsTwo 352 true true).isSome by decide +kernel)
  exact ⟨inputs, hanswer, hserved _ hreached tellsTwo_collisionless _ _ _ _ hanswer⟩

/-- **One byte of the header makes a registry another slot's**: the checksum does not cover the
header, and the slot in it is not compared to the one the file is named for. The registry is
served where it was put, as the other slot's, and then from memory where nothing was put. -/
theorem boundaries_not_as_put :
    Transition.Reached (World.step tellsEmpty) Transition.always World.fresh reheaded ∧
      Collisionless tellsEmpty reheaded.puts ∧
      (∃ inputs, reheaded.answer tellsEmpty 320 true true = some inputs ∧ inputs.slot = 352) ∧
      (∃ inputs, (reheaded.call tellsEmpty (.get 320 true true)).answer tellsEmpty 352 true true =
        some inputs ∧ inputs.slot = 352) ∧
      (reheaded.call tellsEmpty (.get 320 true true)).puts = [noValidators 320] := by
  refine ⟨?_, ?_, by decide +kernel, by decide +kernel, rfl⟩
  · apply Transition.Reached.step _ trivial rfl
    apply Transition.Reached.step _ trivial rfl
    exact Transition.Reached.step .start trivial rfl
  · apply tellsEmpty_collisionless
    intro inputs hput
    exact ⟨320, List.mem_singleton.mp hput⟩

end Zkasper.Boundaries
