import Zkasper.Fcr.RuleGuest
import Zkasper.Library.Chunks
import Zkasper.Library.Padded

/-! # The witness of the rule on the wire

A header whose length is written before it, and behind it the votes of every validator
and the base registry, each a blob filled up to the next eighth byte. The guest reads the
blobs where they are: it finds them by the header's validator count, and takes the words
of the whole buffer for bytes and the bytes of a blob for words again.

The header is what `bincode` makes of it, and that is a parameter here: what is written is
read back wherever it reads a header back. Lengths are `usize`, whose sums wrap, and the
buffer is one that memory holds: its length fits an `isize`. -/

namespace Zkasper.Fcr

open Panics Padded Chunks

/-! ## Reading and writing -/

/-- What a sum of lengths wraps to. -/
def usize (n : ℕ) : ℕ := n % 2 ^ 64

/-- `isize::MAX`, the most bytes an allocation has. -/
def isizeMax : ℕ := 2 ^ 63 - 1

/-- The low three bits of `n + 7` cleared. -/
def align8 (n : ℕ) : ℕ := usize (n + 7) / 8 * 8

/-- `out.resize(align8(out.len()), 0)` -/
def resize8 (out : List UInt8) : List UInt8 :=
  out.take (align8 out.length) ++ List.replicate (align8 out.length - out.length) 0

def u32Bytes (values : List UInt32) : List UInt8 := values.flatMap fun v => leBytes 4 v.toNat

def u64Bytes (values : List UInt64) : List UInt8 := values.flatMap fun v => leBytes 8 v.toNat

def u32OfBytes (bytes : List UInt8) : UInt32 := UInt32.ofNat (fromLeBytes bytes)

def u64OfBytes (bytes : List UInt8) : UInt64 := UInt64.ofNat (fromLeBytes bytes)

/-- `chunks(8)`, a word of each, the last one filled up with zeros. -/
def readWords (bytes : List UInt8) : List UInt64 := (chunks 8 (pad 8 0 bytes)).map u64OfBytes

/-- `align_to`, for a type of `size` bytes and data that starts `off` bytes into a buffer
that is aligned to 8: what is before the first aligned byte, the values from there on, and
what is left of them. -/
def alignTo (size off : ℕ) (data : List UInt8) :
    List UInt8 × List (List UInt8) × List UInt8 :=
  let front := min ((size - off % size) % size) data.length
  let aligned := data.drop front
  (data.take front, chunks size aligned, aligned.drop (aligned.length / size * size))

section Encode

variable (serialize : Header → List UInt8)

/-- `[u64 header_len][bincode header][pad][roots u32][pad][slots u32][pad][balances u64][pad]`
and the bitset of the slashed ones. -/
def encode (header : Header) (voteRoots voteSlots : List UInt32) (balances : List UInt64)
    (slashed : List UInt8) : Guest (List UInt8) := do
  let n := header.nValidators.toNat
  Guest.assert (voteRoots.length = n) "assertion `left == right` failed"
  Guest.assert (voteSlots.length = n) "assertion `left == right` failed"
  Guest.assert (balances.length = n) "assertion `left == right` failed"
  Guest.assert (slashed.length = (n + 7) / 8) "assertion `left == right` failed"
  let hdr := serialize header
  Guest.assert (8 + hdr.length + 24 * n + 64 ≤ isizeMax) "capacity overflow"
  let out := resize8 (leBytes 8 hdr.length ++ hdr)
  let out := resize8 (out ++ u32Bytes voteRoots)
  let out := resize8 (out ++ u32Bytes voteSlots)
  let out := resize8 (out ++ u64Bytes balances)
  return resize8 (out ++ slashed)

end Encode

section Decode

/-- The next blob, and where the one after it starts. -/
def takeBlob (bytes : List UInt8) (off len : ℕ) : Guest (List UInt8 × ℕ) := do
  let s ← Guest.expect (slice bytes off (usize (off + len))) "short blob"
  return (s, align8 (usize (off + len)))

variable (deserialize : List UInt8 → Guest Header)

def decode (words : List UInt64) : Guest Witness := do
  let bytes := u64Bytes words
  let hdrLen := (← Guest.expect words.head? "empty input").toNat
  let hdr ← Guest.expect (slice bytes 8 (usize (8 + hdrLen))) "short header"
  let header ← deserialize hdr
  let n := header.nValidators.toNat
  let rootsOff := align8 (usize (8 + hdrLen))
  let (roots, slotsOff) ← takeBlob bytes rootsOff (usize (4 * n))
  let (slots, balancesOff) ← takeBlob bytes slotsOff (usize (4 * n))
  let (balances, slashedOff) ← takeBlob bytes balancesOff (usize (8 * n))
  let (slashed, _) ← takeBlob bytes slashedOff ((n + 7) / 8)
  let (p, voteRoots, _) := alignTo 4 rootsOff roots
  let (q, voteSlots, _) := alignTo 4 slotsOff slots
  let (r, balances, _) := alignTo 8 balancesOff balances
  Guest.assert (p.isEmpty ∧ q.isEmpty ∧ r.isEmpty) "unaligned blob"
  return ⟨header, voteRoots.map u32OfBytes, voteSlots.map u32OfBytes, balances.map u64OfBytes,
    slashed⟩

end Decode

/-! ## Values and their bytes -/

theorem u32OfBytes_leBytes (v : UInt32) : u32OfBytes (leBytes 4 v.toNat) = v := by
  rw [u32OfBytes, fromLeBytes_leBytes v.toNat_lt, UInt32.ofNat_toNat]

theorem u64OfBytes_leBytes (v : UInt64) : u64OfBytes (leBytes 8 v.toNat) = v := by
  rw [u64OfBytes, fromLeBytes_leBytes v.toNat_lt, UInt64.ofNat_toNat]

theorem leBytes_u32OfBytes {bytes : List UInt8} (h : bytes.length = 4) :
    leBytes 4 (u32OfBytes bytes).toNat = bytes := by
  have hlt : fromLeBytes bytes < 2 ^ 32 := by simpa [h] using fromLeBytes_lt bytes
  rw [u32OfBytes, UInt32.toNat_ofNat_of_lt' hlt, leBytes_fromLeBytes h]

theorem leBytes_u64OfBytes {bytes : List UInt8} (h : bytes.length = 8) :
    leBytes 8 (u64OfBytes bytes).toNat = bytes := by
  have hlt : fromLeBytes bytes < 2 ^ 64 := by simpa [h] using fromLeBytes_lt bytes
  rw [u64OfBytes, UInt64.toNat_ofNat_of_lt' hlt, leBytes_fromLeBytes h]

theorem u32Bytes_length (values : List UInt32) : (u32Bytes values).length = 4 * values.length := by
  simp [u32Bytes, List.length_flatMap, Nat.mul_comm]

theorem u64Bytes_length (values : List UInt64) : (u64Bytes values).length = 8 * values.length := by
  simp [u64Bytes, List.length_flatMap, Nat.mul_comm]

theorem map_chunks_u32Bytes (values : List UInt32) :
    (chunks 4 (u32Bytes values)).map u32OfBytes = values :=
  map_chunks_flatMap (by decide) (fun _ _ => leBytes_length 4 _) fun v _ => u32OfBytes_leBytes v

theorem map_chunks_u64Bytes (values : List UInt64) :
    (chunks 8 (u64Bytes values)).map u64OfBytes = values :=
  map_chunks_flatMap (by decide) (fun _ _ => leBytes_length 8 _) fun v _ => u64OfBytes_leBytes v

/-- Whole words are the bytes they were read from. -/
theorem u64Bytes_readWords {bytes : List UInt8} (h : 8 ∣ bytes.length) :
    u64Bytes (readWords bytes) = bytes := by
  rw [readWords, pad_of_dvd 0 (by decide) h]
  exact flatMap_map_chunks (Nat.mod_eq_zero_of_dvd h) fun _ hpiece => leBytes_u64OfBytes hpiece

/-- Data that starts where a value can start is values from its first byte on. -/
theorem alignTo_of_dvd {size off : ℕ} (h : size ∣ off) (data : List UInt8) :
    alignTo size off data =
      ([], chunks size data, data.drop (data.length / size * size)) := by
  have hfront : min ((size - off % size) % size) data.length = 0 := by
    rw [Nat.mod_eq_zero_of_dvd h, Nat.sub_zero, Nat.mod_self, Nat.zero_min]
  rw [alignTo, hfront]
  rfl

/-! ## Offsets that do not wrap -/

theorem usize_of_le {n : ℕ} (h : n ≤ isizeMax) : usize n = n :=
  Nat.mod_eq_of_lt (by simp only [isizeMax] at h; omega)

theorem align8_of_le {n : ℕ} (h : n ≤ isizeMax) : align8 n = alignUp 8 n := by
  have hlt : n + 7 < 2 ^ 64 := by
    simp only [isizeMax] at h
    omega
  rw [align8, usize, Nat.mod_eq_of_lt hlt]
  rfl

theorem resize8_of_le {out : List UInt8} (h : out.length ≤ isizeMax) :
    resize8 out = pad 8 0 out := by
  have hle : out.length ≤ alignUp 8 out.length := le_alignUp _ (by decide)
  rw [resize8, align8_of_le h, List.take_of_length_le hle, pad]

/-- A buffer that is filled up after every blob is laid out, as long as its length does
not come near what wraps. -/
theorem foldl_resize8 {blobs : List (List UInt8)} {out : List UInt8}
    (h : out.length + (blobs.map List.length).sum + 8 * blobs.length ≤ isizeMax) :
    blobs.foldl (fun out blob => resize8 (out ++ blob)) out = layout 8 0 blobs out := by
  induction blobs generalizing out with
  | nil => rfl
  | cons blob blobs ih =>
      rw [List.map_cons, List.sum_cons, List.length_cons] at h
      have hhere : (out ++ blob).length ≤ isizeMax := by
        rw [List.length_append]
        omega
      have hpad : (pad 8 0 (out ++ blob)).length < (out ++ blob).length + 8 := by
        rw [length_pad 0 (by decide)]
        exact alignUp_lt _ (by decide)
      rw [List.length_append] at hpad
      rw [List.foldl_cons, resize8_of_le hhere]
      exact ih (by omega)

section TakeBlob

variable {bytes s : List UInt8} {off off' len : ℕ}

theorem takeBlob_of_slice (hbytes : bytes.length ≤ isizeMax)
    (h : slice bytes off (off + len) = some s) :
    takeBlob bytes off len = .ok (s, alignUp 8 (off + len)) := by
  have hle : off + len ≤ isizeMax := (slice_eq_some.mp h).1.2.trans hbytes
  rw [takeBlob, usize_of_le hle, h, align8_of_le hle]
  rfl

/-- A blob that is taken lies in the buffer, whatever its length was said to be, and the
next one starts in it or at its end. -/
theorem takeBlob_eq_ok (hbytes : bytes.length ≤ isizeMax) (hdvd : 8 ∣ bytes.length)
    (hoff : off ≤ bytes.length) (hlen : len ≤ 2 ^ 35)
    (h : takeBlob bytes off len = .ok (s, off')) :
    slice bytes off (off + len) = some s ∧ off' = alignUp 8 (off + len) ∧
      off' ≤ bytes.length := by
  have husize : usize (off + len) = off + len := by
    apply Nat.mod_eq_of_lt
    simp only [isizeMax] at hbytes
    omega
  obtain ⟨taken, htaken, h⟩ := Guest.bind_eq_ok.mp h
  have hslice := Guest.expect_eq_ok.mp htaken
  rw [husize] at h hslice
  obtain ⟨hs, hoff'⟩ := Prod.mk.inj (Except.ok.inj h)
  have hend : off + len ≤ bytes.length := (slice_eq_some.mp hslice).1.2
  rw [align8_of_le (hend.trans hbytes)] at hoff'
  subst hs hoff'
  exact ⟨hslice, rfl, alignUp_le (by decide) hend hdvd⟩

end TakeBlob

/-! ## What is written -/

/-- The lengths that the header's count asks for. -/
structure Witness.Matched (w : Witness) : Prop where
  voteRoots : w.voteRoots.length = w.header.nValidators.toNat
  voteSlots : w.voteSlots.length = w.header.nValidators.toNat
  balances : w.balances.length = w.header.nValidators.toNat
  slashed : w.slashed.length = (w.header.nValidators.toNat + 7) / 8

/-- What is allocated for the buffer is what memory can hold. -/
def Fits (serialize : Header → List UInt8) (header : Header) : Prop :=
  8 + (serialize header).length + 24 * header.nValidators.toNat + 64 ≤ isizeMax

/-- The blobs of a witness, its header with its length the first of them. -/
def blobs (serialize : Header → List UInt8) (w : Witness) : List (List UInt8) :=
  [leBytes 8 (serialize w.header).length ++ serialize w.header, u32Bytes w.voteRoots,
    u32Bytes w.voteSlots, u64Bytes w.balances, w.slashed]

section Encode

variable {serialize : Header → List UInt8} {w : Witness}

/-- All the blobs fit what was allocated for them. -/
theorem length_blobs_le (hw : w.Matched) (hfits : Fits serialize w.header) :
    ((blobs serialize w).map List.length).sum + 8 * (blobs serialize w).length ≤ isizeMax := by
  have hsum : ((blobs serialize w).map List.length).sum =
      8 + (serialize w.header).length + (4 * w.voteRoots.length + (4 * w.voteSlots.length +
        (8 * w.balances.length + w.slashed.length))) := by
    simp only [blobs, List.map_cons, List.map_nil, List.sum_cons, List.sum_nil,
      List.length_append, leBytes_length, u32Bytes_length, u64Bytes_length, Nat.add_zero]
  have hcount : (blobs serialize w).length = 5 := rfl
  rw [hsum, hcount, hw.voteRoots, hw.voteSlots, hw.balances, hw.slashed]
  unfold Fits at hfits
  omega

theorem encode_of_matched (hw : w.Matched) (hfits : Fits serialize w.header) :
    encode serialize w.header w.voteRoots w.voteSlots w.balances w.slashed =
      .ok (layout 8 0 (blobs serialize w) []) := by
  have hroom : ([] : List UInt8).length + ((blobs serialize w).map List.length).sum +
      8 * (blobs serialize w).length ≤ isizeMax := by
    rw [List.length_nil, Nat.zero_add]
    exact length_blobs_le hw hfits
  have hcapacity : 8 + (serialize w.header).length + 24 * w.header.nValidators.toNat + 64 ≤
      isizeMax := hfits
  rw [← foldl_resize8 hroom]
  simp only [encode, hw.voteRoots, hw.voteSlots, hw.balances, hw.slashed, Guest.assert, if_true]
  rw [if_pos hcapacity]
  rfl

end Encode

/-! ## What is read -/

def rootsOff (hdrLen : ℕ) : ℕ := alignUp 8 (8 + hdrLen)

def slotsOff (hdrLen n : ℕ) : ℕ := alignUp 8 (rootsOff hdrLen + 4 * n)

def balancesOff (hdrLen n : ℕ) : ℕ := alignUp 8 (slotsOff hdrLen n + 4 * n)

def slashedOff (hdrLen n : ℕ) : ℕ := alignUp 8 (balancesOff hdrLen n + 8 * n)

/-- A witness that is what a buffer holds, every part of it within the buffer. -/
structure Holds (deserialize : List UInt8 → Guest Header) (bytes : List UInt8) (hdrLen : ℕ)
    (w : Witness) : Prop where
  header : ∃ hdr, slice bytes 8 (8 + hdrLen) = some hdr ∧ deserialize hdr = .ok w.header
  voteRoots : slice bytes (rootsOff hdrLen)
    (rootsOff hdrLen + 4 * w.header.nValidators.toNat) = some (u32Bytes w.voteRoots)
  voteSlots : slice bytes (slotsOff hdrLen w.header.nValidators.toNat)
    (slotsOff hdrLen w.header.nValidators.toNat + 4 * w.header.nValidators.toNat) =
      some (u32Bytes w.voteSlots)
  balances : slice bytes (balancesOff hdrLen w.header.nValidators.toNat)
    (balancesOff hdrLen w.header.nValidators.toNat + 8 * w.header.nValidators.toNat) =
      some (u64Bytes w.balances)
  slashed : slice bytes (slashedOff hdrLen w.header.nValidators.toNat)
    (slashedOff hdrLen w.header.nValidators.toNat + (w.header.nValidators.toNat + 7) / 8) =
      some w.slashed

section Decode

variable {deserialize : List UInt8 → Guest Header} {bytes : List UInt8} {hdrLen : ℕ}
  {words : List UInt64} {w : Witness}

/-- The parts have the lengths that the count asks for. -/
theorem Holds.matched (h : Holds deserialize bytes hdrLen w) : w.Matched := by
  have hroots := length_of_slice h.voteRoots
  have hslots := length_of_slice h.voteSlots
  have hbalances := length_of_slice h.balances
  have hslashed := length_of_slice h.slashed
  rw [u32Bytes_length] at hroots hslots
  rw [u64Bytes_length] at hbalances
  exact ⟨by omega, by omega, by omega, by omega⟩

theorem dvd_rootsOff (hdrLen : ℕ) : 8 ∣ rootsOff hdrLen := dvd_alignUp 8 _

theorem dvd_slotsOff (hdrLen n : ℕ) : 8 ∣ slotsOff hdrLen n := dvd_alignUp 8 _

theorem dvd_balancesOff (hdrLen n : ℕ) : 8 ∣ balancesOff hdrLen n := dvd_alignUp 8 _

section AlignTo

variable {off n : ℕ} {data : List UInt8}

/-- A value of four bytes can start wherever one of eight can. -/
theorem alignTo_four (h : 8 ∣ off) (data : List UInt8) :
    alignTo 4 off data = ([], chunks 4 data, data.drop (data.length / 4 * 4)) :=
  alignTo_of_dvd (Nat.dvd_trans ⟨2, rfl⟩ h) data

theorem alignTo_u32Bytes (h : 8 ∣ off) (values : List UInt32) :
    (alignTo 4 off (u32Bytes values)).2.1.map u32OfBytes = values := by
  rw [alignTo_four h]
  exact map_chunks_u32Bytes values

theorem alignTo_u64Bytes (h : 8 ∣ off) (values : List UInt64) :
    (alignTo 8 off (u64Bytes values)).2.1.map u64OfBytes = values := by
  rw [alignTo_of_dvd h]
  exact map_chunks_u64Bytes values

/-- The values of a blob of whole ones are the blob. -/
theorem u32Bytes_alignTo (h : 8 ∣ off) (hdata : slice bytes off (off + 4 * n) = some data) :
    u32Bytes ((alignTo 4 off data).2.1.map u32OfBytes) = data := by
  have hlength := length_of_slice hdata
  rw [alignTo_four h]
  exact flatMap_map_chunks (by omega) fun _ hpiece => leBytes_u32OfBytes hpiece

theorem u64Bytes_alignTo (h : 8 ∣ off) (hdata : slice bytes off (off + 8 * n) = some data) :
    u64Bytes ((alignTo 8 off data).2.1.map u64OfBytes) = data := by
  have hlength := length_of_slice hdata
  rw [alignTo_of_dvd h]
  exact flatMap_map_chunks (by omega) fun _ hpiece => leBytes_u64OfBytes hpiece

end AlignTo

/-- A count of validators times the size of a value does not wrap. -/
theorem usize_count (count : UInt32) {size : ℕ} (h : size ≤ 8) :
    usize (size * count.toNat) = size * count.toNat := by
  have hcount := count.toNat_lt
  have hle : size * count.toNat ≤ 8 * count.toNat := Nat.mul_le_mul_right _ h
  exact usize_of_le (by simp only [isizeMax]; omega)

/-- **What is in the buffer is what is read**, with the length of the header in its first
word. -/
theorem decode_of_holds (hlength : 8 * words.length ≤ isizeMax) {first : UInt64}
    (hfirst : words.head? = some first)
    (h : Holds deserialize (u64Bytes words) first.toNat w) : decode deserialize words = .ok w := by
  obtain ⟨hdr, hhdr, hheader⟩ := h.header
  have hbytes : (u64Bytes words).length ≤ isizeMax := by rwa [u64Bytes_length]
  have hend : 8 + first.toNat ≤ isizeMax := (slice_eq_some.mp hhdr).1.2.trans hbytes
  have hroots := takeBlob_of_slice hbytes h.voteRoots
  have hslots := takeBlob_of_slice hbytes h.voteSlots
  have hbalances := takeBlob_of_slice hbytes h.balances
  have hslashed := takeBlob_of_slice hbytes h.slashed
  have hrootsOff : align8 (usize (8 + first.toNat)) = rootsOff first.toNat := by
    rw [usize_of_le hend, align8_of_le hend, rootsOff]
  rw [decode]
  refine Guest.bind_eq_ok.mpr ⟨first, Guest.expect_eq_ok.mpr hfirst, ?_⟩
  refine Guest.bind_eq_ok.mpr ⟨hdr, Guest.expect_eq_ok.mpr (by rwa [usize_of_le hend]), ?_⟩
  refine Guest.bind_eq_ok.mpr ⟨w.header, hheader, ?_⟩
  simp only [hrootsOff, usize_count _ (by decide : 4 ≤ 8), usize_count _ (le_refl 8)]
  refine Guest.bind_eq_ok.mpr ⟨_, hroots, ?_⟩
  refine Guest.bind_eq_ok.mpr ⟨_, hslots, ?_⟩
  refine Guest.bind_eq_ok.mpr ⟨_, hbalances, ?_⟩
  refine Guest.bind_eq_ok.mpr ⟨_, hslashed, ?_⟩
  refine Guest.bind_eq_ok.mpr ⟨(), Guest.assert_eq_ok.mpr ?_, ?_⟩
  · rw [alignTo_four (dvd_rootsOff _), alignTo_four (dvd_alignUp 8 _),
      alignTo_of_dvd (dvd_alignUp 8 _)]
    exact ⟨rfl, rfl, rfl⟩
  · rw [alignTo_u32Bytes (dvd_rootsOff _), alignTo_u32Bytes (dvd_alignUp 8 _),
      alignTo_u64Bytes (dvd_alignUp 8 _)]
    rfl

/-- **What is read is in the buffer**, whatever the words are. -/
theorem holds_of_decode (hlength : 8 * words.length ≤ isizeMax)
    (h : decode deserialize words = .ok w) :
    ∃ first, words.head? = some first ∧ Holds deserialize (u64Bytes words) first.toNat w := by
  have hbytes : (u64Bytes words).length ≤ isizeMax := by rwa [u64Bytes_length]
  have hdvd : 8 ∣ (u64Bytes words).length := ⟨words.length, u64Bytes_length words⟩
  rw [decode] at h
  obtain ⟨first, hfirst, h⟩ := Guest.bind_eq_ok.mp h
  obtain ⟨hdr, hhdr, h⟩ := Guest.bind_eq_ok.mp h
  obtain ⟨header, hheader, h⟩ := Guest.bind_eq_ok.mp h
  have hslice := Guest.expect_eq_ok.mp hhdr
  -- the sum wraps only to an end that is before the start
  have hend : usize (8 + first.toNat) = 8 + first.toNat := by
    have hlt := first.toNat_lt
    have hle := (slice_eq_some.mp hslice).1.1
    unfold usize at hle ⊢
    omega
  rw [hend] at hslice
  have hinside : 8 + first.toNat ≤ (u64Bytes words).length := (slice_eq_some.mp hslice).1.2
  have hrootsOff : align8 (8 + first.toNat) = rootsOff first.toNat :=
    align8_of_le (hinside.trans hbytes)
  simp only [hend, hrootsOff, usize_count _ (by decide : 4 ≤ 8), usize_count _ (le_refl 8)] at h
  have hn := header.nValidators.toNat_lt
  obtain ⟨⟨roots, slotsAt⟩, hfirstBlob, h⟩ := Guest.bind_eq_ok.mp h
  obtain ⟨hroots, rfl, hslotsAt⟩ := takeBlob_eq_ok hbytes hdvd
    (alignUp_le (by decide) hinside hdvd) (by omega) hfirstBlob
  obtain ⟨⟨slots, balancesAt⟩, hsecond, h⟩ := Guest.bind_eq_ok.mp h
  obtain ⟨hslots, rfl, hbalancesAt⟩ := takeBlob_eq_ok hbytes hdvd hslotsAt (by omega) hsecond
  obtain ⟨⟨balances, slashedAt⟩, hthird, h⟩ := Guest.bind_eq_ok.mp h
  obtain ⟨hbalances, rfl, hslashedAt⟩ :=
    takeBlob_eq_ok hbytes hdvd hbalancesAt (by omega) hthird
  obtain ⟨⟨slashed, restAt⟩, hfourth, h⟩ := Guest.bind_eq_ok.mp h
  obtain ⟨hslashed, -, -⟩ := takeBlob_eq_ok hbytes hdvd hslashedAt (by omega) hfourth
  obtain ⟨-, -, h⟩ := Guest.bind_eq_ok.mp h
  obtain rfl := Except.ok.inj h
  exact ⟨first, Guest.expect_eq_ok.mp hfirst, ⟨hdr, hslice, hheader⟩,
    hroots.trans (congrArg some (u32Bytes_alignTo (dvd_rootsOff _) hroots).symm),
    hslots.trans (congrArg some (u32Bytes_alignTo (dvd_slotsOff _ _) hslots).symm),
    hbalances.trans (congrArg some (u64Bytes_alignTo (dvd_balancesOff _ _) hbalances).symm),
    hslashed⟩

end Decode

/-- What was written holds the witness it was written from. -/
theorem holds_layout {serialize : Header → List UInt8} {deserialize : List UInt8 → Guest Header}
    {w : Witness} (hbincode : deserialize (serialize w.header) = .ok w.header) (hw : w.Matched) :
    Holds deserialize (layout 8 0 (blobs serialize w) []) (serialize w.header).length w := by
  obtain ⟨front, hfront⟩ : ∃ front, front =
    leBytes 8 (serialize w.header).length ++ serialize w.header := ⟨_, rfl⟩
  have hfrontLength : front.length = 8 + (serialize w.header).length := by
    rw [hfront, List.length_append, leBytes_length]
  have hblobs : blobs serialize w =
      [front, u32Bytes w.voteRoots, u32Bytes w.voteSlots, u64Bytes w.balances, w.slashed] := by
    rw [hfront, blobs]
  rw [hblobs]
  -- where every blob starts is how much is written before it
  have hroots : (layout 8 0 [front] []).length = rootsOff (serialize w.header).length := by
    rw [rootsOff, ← hfrontLength]
    exact (length_layout_concat (0 : UInt8) (by decide) [] front []).trans
      (congrArg (alignUp 8) (Nat.zero_add _))
  have hslots : (layout 8 0 [front, u32Bytes w.voteRoots] []).length =
      slotsOff (serialize w.header).length w.header.nValidators.toNat := by
    rw [slotsOff, ← hroots, ← hw.voteRoots, ← u32Bytes_length]
    exact length_layout_concat 0 (by decide) [front] _ []
  have hbalances : (layout 8 0 [front, u32Bytes w.voteRoots, u32Bytes w.voteSlots] []).length =
      balancesOff (serialize w.header).length w.header.nValidators.toNat := by
    rw [balancesOff, ← hslots, ← hw.voteSlots, ← u32Bytes_length]
    exact length_layout_concat 0 (by decide) [front, u32Bytes w.voteRoots] _ []
  have hslashed : (layout 8 0
      [front, u32Bytes w.voteRoots, u32Bytes w.voteSlots, u64Bytes w.balances] []).length =
      slashedOff (serialize w.header).length w.header.nValidators.toNat := by
    rw [slashedOff, ← hbalances, ← hw.balances, ← u64Bytes_length]
    exact length_layout_concat 0 (by decide)
      [front, u32Bytes w.voteRoots, u32Bytes w.voteSlots] _ []
  refine ⟨⟨serialize w.header, ?_, hbincode⟩, ?_, ?_, ?_, ?_⟩
  · have hslice := slice_layout (a := 8) (0 : UInt8) [] front
      [u32Bytes w.voteRoots, u32Bytes w.voteSlots, u64Bytes w.balances, w.slashed] []
    have hinner : slice front 8 (8 + (serialize w.header).length) = some (serialize w.header) := by
      have hmiddle : slice (leBytes 8 (serialize w.header).length ++ (serialize w.header ++ [])) 8
          (8 + (serialize w.header).length) = some (serialize w.header) :=
        slice_middle (leBytes_length 8 _) rfl
      rwa [List.append_nil, ← hfront] at hmiddle
    rw [← hinner, slice_slice hslice (Nat.le_add_right _ _) hfrontLength.ge]
    exact congrArg₂ (slice _) (Nat.zero_add 8).symm (Nat.zero_add _).symm
  · rw [← hroots, ← hw.voteRoots, ← u32Bytes_length]
    exact slice_layout 0 [front] _ _ []
  · rw [← hslots, ← hw.voteSlots, ← u32Bytes_length]
    exact slice_layout 0 [front, u32Bytes w.voteRoots] _ _ []
  · rw [← hbalances, ← hw.balances, ← u64Bytes_length]
    exact slice_layout 0 [front, u32Bytes w.voteRoots, u32Bytes w.voteSlots] _ _ []
  · rw [← hslashed, ← hw.slashed]
    exact slice_layout 0 [front, u32Bytes w.voteRoots, u32Bytes w.voteSlots, u64Bytes w.balances]
      _ [] []

/-- The first word of what was written is the length of the header. -/
theorem head_readWords_layout {serialize : Header → List UInt8} {w : Witness}
    (hlength : (serialize w.header).length ≤ isizeMax) :
    ∃ first, (readWords (layout 8 0 (blobs serialize w) [])).head? = some first ∧
      first.toNat = (serialize w.header).length := by
  have hdvd : 8 ∣ (layout 8 0 (blobs serialize w) []).length :=
    dvd_length_layout 0 (by decide) _ (Nat.dvd_zero 8)
  have hback := u64Bytes_readWords hdvd
  obtain ⟨rest, hrest⟩ : ∃ rest, layout 8 0 (blobs serialize w) [] =
      leBytes 8 (serialize w.header).length ++ rest := by
    obtain ⟨rest, hrest⟩ := prefix_layout (a := 8) (0 : UInt8) (blobs serialize w).tail
      (pad 8 0 ([] ++ (leBytes 8 (serialize w.header).length ++ serialize w.header)))
    rw [List.nil_append, pad, List.append_assoc, List.append_assoc] at hrest
    exact ⟨_, hrest.symm⟩
  cases hwords : readWords (layout 8 0 (blobs serialize w) []) with
  | nil =>
      rw [hwords, hrest] at hback
      cases hback
  | cons first words =>
      have hfirst : leBytes 8 first.toNat ++ u64Bytes words =
          leBytes 8 (serialize w.header).length ++ rest := by
        rw [← hrest, ← hback, hwords]
        rfl
      obtain ⟨hword, -⟩ := List.append_inj hfirst (by simp)
      refine ⟨first, rfl, leBytes_injective first.toNat_lt ?_ hword⟩
      simp only [isizeMax] at hlength
      omega

/-! ## The slashed flags -/

/-- The bits of bytes in a row, by place. -/
theorem getElem?_flatMap_bitsOf {bytes : List UInt8} {i : ℕ} (h : i < 8 * bytes.length) :
    (bytes.flatMap bitsOf)[i]? = some ((bytes.getD (i / 8) 0).toNat.testBit (i % 8)) := by
  induction bytes generalizing i with
  | nil => exact absurd h (Nat.not_lt_zero i)
  | cons byte bytes ih =>
      have hwidth : (bitsOf byte).length = 8 := rfl
      rw [List.flatMap_cons]
      by_cases hhere : i < 8
      · rw [List.getElem?_append_left (hwidth ▸ hhere), bitsOf, List.getElem?_map,
          List.getElem?_range hhere, Nat.div_eq_of_lt hhere, Nat.mod_eq_of_lt hhere]
        rfl
      · rw [List.length_cons] at h
        rw [List.getElem?_append_right (by omega), hwidth, ih (by omega)]
        have hdiv : i / 8 = (i - 8) / 8 + 1 := by omega
        have hmod : (i - 8) % 8 = i % 8 := by omega
        rw [hdiv, hmod, List.getD_cons_succ]

/-- **The bitset is expanded** to a flag of every validator, the one of its bit. -/
theorem Witness.Matched.flags {w : Witness} (h : w.Matched) :
    w.baseRegistry.2 = (List.range w.header.nValidators.toNat).map
      fun i => (w.slashed.getD (i / 8) 0).toNat.testBit (i % 8) := by
  have hslashed := h.slashed
  apply List.ext_getElem?
  intro i
  rw [baseRegistry, List.getElem?_map]
  by_cases hi : i < w.header.nValidators.toNat
  · rw [List.getElem?_take_of_lt hi, getElem?_flatMap_bitsOf (by omega), List.getElem?_range hi]
    rfl
  · rw [List.getElem?_take_eq_none (Nat.le_of_not_lt hi),
      List.getElem?_eq_none (List.length_range.trans_le (Nat.le_of_not_lt hi))]
    rfl

/-! ## The round trip -/

section RoundTrip

variable (serialize : Header → List UInt8) (deserialize : List UInt8 → Guest Header)

/-- **A witness survives the wire**: wherever the bytes of a header are read back as that
header, what is written of a witness with matching lengths is whole words, and they are
read as that witness, its flags the bits that were written. And whatever the words are,
reading them fails with an error or returns what is in the buffer, every part of it at
its place and within the buffer. -/
theorem wire_round_trip :
    (∀ w : Witness, deserialize (serialize w.header) = .ok w.header → w.Matched →
      Fits serialize w.header → ∃ out,
        encode serialize w.header w.voteRoots w.voteSlots w.balances w.slashed = .ok out ∧
        8 ∣ out.length ∧ decode deserialize (readWords out) = .ok w ∧
        w.baseRegistry = (w.balances, (List.range w.header.nValidators.toNat).map
          fun i => (w.slashed.getD (i / 8) 0).toNat.testBit (i % 8))) ∧
      ∀ words : List UInt64, 8 * words.length ≤ isizeMax →
        (∃ e, decode deserialize words = .error e) ∨
          ∃ w first, decode deserialize words = .ok w ∧ words.head? = some first ∧
            Holds deserialize (u64Bytes words) first.toNat w ∧ w.Matched := by
  constructor
  · intro w hbincode hw hfits
    have hdvd : 8 ∣ (layout 8 0 (blobs serialize w) []).length :=
      dvd_length_layout 0 (by decide) _ (Nat.dvd_zero 8)
    have hback := u64Bytes_readWords hdvd
    have hwords : 8 * (readWords (layout 8 0 (blobs serialize w) [])).length ≤ isizeMax := by
      rw [← u64Bytes_length, hback]
      refine (length_layout_le 0 (by decide) _ []).trans ?_
      rw [List.length_nil, Nat.zero_add]
      exact length_blobs_le hw hfits
    have hheader : (serialize w.header).length ≤ isizeMax := by
      unfold Fits at hfits
      omega
    obtain ⟨first, hfirst, hlength⟩ := head_readWords_layout hheader
    have hholds := holds_layout hbincode hw
    rw [← hback, ← hlength] at hholds
    exact ⟨_, encode_of_matched hw hfits, hdvd, decode_of_holds hwords hfirst hholds,
      Prod.ext rfl hw.flags⟩
  · intro words hlength
    cases hdecode : decode deserialize words with
    | error e => exact .inl ⟨e, rfl⟩
    | ok w =>
        obtain ⟨first, hfirst, hholds⟩ := holds_of_decode hlength hdecode
        exact .inr ⟨w, first, rfl, hfirst, hholds, hholds.matched⟩

end RoundTrip

/-! ## A header's bytes -/

/-- How many there are, and each of them. -/
def vecBytes {α : Type} (write : α → List UInt8) (values : List α) : List UInt8 :=
  leBytes 8 values.length ++ values.flatMap write

/-- A byte that says whether it is there, and it where it is. -/
def optionBytes {α : Type} (write : α → List UInt8) : Option α → List UInt8
  | none => [0]
  | some value => 1 :: write value

def BlockNode.serialize (b : BlockNode) : List UInt8 :=
  b.root.1 ++ (leBytes 8 b.slot.toNat ++ (optionBytes (fun i => leBytes 4 i.toNat) b.parent ++
    (b.justifiedCheckpoint.serialize ++
    (optionBytes Cp.serialize b.unrealizedJustifiedCheckpoint ++
    [if b.optimisticOrInvalid then 1 else 0]))))

def RegistryHeader.serialize (r : RegistryHeader) : List UInt8 :=
  leBytes 8 r.epoch.toNat ++ (leBytes 8 r.totalActiveBalance.toNat ++
    (vecBytes (fun change => leBytes 4 change.1.toNat ++ leBytes 8 change.2.toNat)
      r.balanceChanges ++ vecBytes (fun i => leBytes 4 i.toNat) r.slashedToggles))

def EpochSeed.serialize (s : EpochSeed) : List UInt8 :=
  leBytes 8 s.epoch.toNat ++ (s.seed.1 ++ leBytes 4 s.registry.toNat)

/-- `bincode::serialize`: fields in order. -/
def Header.serialize (h : Header) : List UInt8 :=
  leBytes 8 h.slot.toNat ++ (h.headRoot.1 ++ (h.finalizedCheckpoint.serialize ++
    (h.unrealizedJustifiedCheckpoint.serialize ++ (leBytes 8 h.byzantineThreshold.toNat ++
    (leBytes 8 h.proposerScoreBoost.toNat ++ (h.state.serialize ++
    (vecBytes BlockNode.serialize h.blocks ++ (vecBytes Subtype.val h.extraRoots ++
    (vecBytes RegistryHeader.serialize h.registries ++ (leBytes 4 h.nValidators.toNat ++
    (vecBytes (fun i => leBytes 8 i.toNat) h.equivocatingIndices ++
    (optionBytes (fun i => leBytes 4 i.toNat) h.headBalanceUpdate ++
    (optionBytes (fun i => leBytes 4 i.toNat) h.checkpointBalanceUpdate ++
    vecBytes EpochSeed.serialize h.epochSeeds)))))))))))))

end Zkasper.Fcr

namespace Zkasper.Formal

open Zkasper.Fcr

/-- A witness of three validators, the first and the third of them slashed. -/
def slashedPair : Witness :=
  let cp : Cp := ⟨6, zeroBytes 32⟩
  { header := {
      slot := 193
      headRoot := zeroBytes 32
      finalizedCheckpoint := cp
      unrealizedJustifiedCheckpoint := cp
      byzantineThreshold := 25
      proposerScoreBoost := 40
      state := ⟨zeroBytes 32, cp, 0, cp, 0, cp, zeroBytes 32, zeroBytes 32, 0, some 192⟩
      blocks := [⟨zeroBytes 32, 192, none, cp, some cp, false⟩]
      extraRoots := [zeroBytes 32]
      registries := [⟨6, 64, [], []⟩]
      nValidators := 3
      equivocatingIndices := [1]
      headBalanceUpdate := some 0
      checkpointBalanceUpdate := none
      epochSeeds := [⟨6, zeroBytes 32, 0⟩] }
    voteRoots := [0, 1, 4294967295]
    voteSlots := [192, 191, 0]
    balances := [32, 0, 32]
    slashed := [5] }

/-- A reader of that header, from its bytes. -/
def readSlashedPair (bytes : List UInt8) : Guest Header :=
  if bytes = slashedPair.header.serialize then .ok slashedPair.header
  else .error "io error: unexpected end of file"

theorem slashedPair_matched : slashedPair.Matched := ⟨rfl, rfl, rfl, rfl⟩

theorem slashedPair_fits : Fits Header.serialize slashedPair.header := by
  have hlength : slashedPair.header.serialize.length < 1000 := by decide +kernel
  have hcount : slashedPair.header.nValidators.toNat = 3 := rfl
  rw [Fits, hcount, isizeMax]
  omega

end Zkasper.Formal

namespace Zkasper.Fcr

open Formal

/-- Three validators: the votes and the flags both leave a word half empty. -/
theorem wire_round_trip_three : ∃ out,
    encode Header.serialize slashedPair.header [0, 1, 4294967295] [192, 191, 0] [32, 0, 32] [5] =
      .ok out ∧
      8 ∣ out.length ∧ decode readSlashedPair (readWords out) = .ok slashedPair ∧
      slashedPair.baseRegistry = ([32, 0, 32], [true, false, true]) :=
  (wire_round_trip Header.serialize readSlashedPair).1 slashedPair (if_pos rfl)
    slashedPair_matched slashedPair_fits

end Zkasper.Fcr
