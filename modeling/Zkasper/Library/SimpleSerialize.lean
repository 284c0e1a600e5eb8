import Zkasper.Bytes
import Zkasper.Library.Panics
import Zkasper.Library.PerfectTree
import Mathlib.Data.Nat.Log

/-! # SimpleSerialize

The serialization and the hash tree root of a type, put together from those of its parts.
A `Codec` is one type: how long its values are where they all have one length, what they
are written as, and what they hash to. Integers are basic, and packed into chunks; vectors,
lists and containers are made of other codecs.

What has no fixed length is written behind everything that has, and an offset stands in its
place (`serializeParts`). So a part is read back in two ways: at the place of its head, and at
its offset (`slice_head`, `slice_tail`). -/

namespace Zkasper.SimpleSerialize

open PerfectTree Panics

variable {T α σ : Type}

/-! ## Chunks -/

theorem leBytes_zero (n : ℕ) : leBytes n 0 = List.replicate n 0 := by
  induction n with
  | zero => rfl
  | succ n ih =>
      rw [leBytes, Nat.zero_div, ih, List.replicate_succ]
      rfl

/-- A small integer is followed by zeros. -/
theorem leBytes_of_lt {m v : ℕ} (n : ℕ) (hv : v < 256 ^ m) :
    leBytes (m + n) v = leBytes m v ++ List.replicate n 0 := by
  have hsplit := leBytes_append n m 0 hv
  rwa [Nat.zero_mul, Nat.add_zero, leBytes_zero] at hsplit

/-- The values that are hashed: 32 bytes, and the hash of two of them. -/
structure Hasher (T : Type) where
  ofBytes : Bytes 32 → T
  pair : T → T → T

namespace Hasher

variable (h : Hasher T)

theorem length_take_padded (bytes : List UInt8) :
    (bytes.take 32 ++ List.replicate (32 - bytes.length) 0).length = 32 := by
  simp
  omega

/-- At most 32 bytes, padded with zeros. -/
def padded (bytes : List UInt8) : T :=
  h.ofBytes ⟨bytes.take 32 ++ List.replicate (32 - bytes.length) 0, length_take_padded bytes⟩

def zero : T := h.ofBytes (zeroBytes 32)

/-- Bytes cut into chunks, the last of them padded. -/
def pack (bytes : List UInt8) : List T :=
  (List.range ((bytes.length + 31) / 32)).map fun i => h.padded ((bytes.drop (i * 32)).take 32)

/-- The root of the smallest tree with a leaf for every chunk there may be. -/
def merkleize (limit : ℕ) (chunks : List T) : T :=
  root h.pair (Nat.clog 2 limit) fun i => chunks.getD i h.zero

def mixInLength (dataRoot : T) (length : ℕ) : T := h.pair dataRoot (h.padded (leBytes 32 length))

theorem length_pack (bytes : List UInt8) : (h.pack bytes).length = (bytes.length + 31) / 32 := by
  rw [pack, List.length_map, List.length_range]

theorem pack_single {bytes : List UInt8} (hpos : 0 < bytes.length) (hle : bytes.length ≤ 32) :
    h.pack bytes = [h.padded bytes] := by
  have hone : (bytes.length + 31) / 32 = 1 := by omega
  rw [pack, hone]
  show [h.padded ((bytes.drop (0 * 32)).take 32)] = _
  rw [Nat.zero_mul, List.drop_zero, List.take_of_length_le hle]

theorem merkleize_of_clog {limit depth : ℕ} (hdepth : Nat.clog 2 limit = depth) (chunks : List T) :
    h.merkleize limit chunks = root h.pair depth fun i => chunks.getD i h.zero := by
  rw [merkleize, hdepth]

/-- One chunk is its own root. -/
theorem merkleize_one (chunk : T) : h.merkleize 1 [chunk] = chunk := by
  rw [merkleize, Nat.clog_one_right]
  rfl

/-- At most 32 bytes are one chunk, if there are any. -/
theorem merkleize_one_pack {bytes : List UInt8} (hle : bytes.length ≤ 32) :
    h.merkleize 1 (h.pack bytes) = h.padded bytes := by
  cases bytes with
  | nil =>
      rw [merkleize, Nat.clog_one_right]
      rfl
  | cons b bytes =>
      have hsingle := h.pack_single (List.length_pos_of_ne_nil (List.cons_ne_nil b bytes)) hle
      rw [hsingle, h.merkleize_one]

theorem merkleize_two (a b : T) : h.merkleize 2 [a, b] = h.pair a b :=
  h.merkleize_of_clog (Nat.clog_pow 2 1 Nat.one_lt_two) _

theorem merkleize_three (a b c : T) :
    h.merkleize 3 [a, b, c] = h.pair (h.pair a b) (h.pair c h.zero) :=
  h.merkleize_of_clog (show Nat.clog 2 3 = 2 by decide) _

/-- Five to eight chunks make a tree of eight leaves. -/
theorem merkleize_eight {limit : ℕ} (hlimit : Nat.clog 2 limit = 3) (chunks : List T) :
    h.merkleize limit chunks =
      let leaf i := chunks.getD i h.zero
      h.pair (h.pair (h.pair (leaf 0) (leaf 1)) (h.pair (leaf 2) (leaf 3)))
        (h.pair (h.pair (leaf 4) (leaf 5)) (h.pair (leaf 6) (leaf 7))) :=
  h.merkleize_of_clog hlimit _

end Hasher

/-! ## What is written of the parts -/

/-- One part, as it is written: in its place, or behind an offset. -/
inductive Part where
  | fixed (bytes : List UInt8)
  | variable (bytes : List UInt8)

namespace Part

def bytes : Part → List UInt8
  | fixed bytes | .variable bytes => bytes

/-- How much room a part takes in front. -/
def width : Part → ℕ
  | fixed bytes => bytes.length
  | .variable _ => 4

/-- What is written behind. -/
def tail : Part → List UInt8
  | fixed _ => []
  | .variable bytes => bytes

/-- What is written in front, where the tail comes at an offset. -/
def head (offset : ℕ) : Part → List UInt8
  | fixed bytes => bytes
  | .variable _ => leBytes 4 offset

@[simp] theorem length_head (offset : ℕ) (part : Part) : (part.head offset).length = part.width := by
  cases part <;> simp [head, width]

end Part

/-- Where the head of a part stands. -/
def headStart (parts : List Part) (i : ℕ) : ℕ := ((parts.take i).map Part.width).sum

/-- Where the tail of a part stands. -/
def tailStart (parts : List Part) (i : ℕ) : ℕ :=
  (parts.map Part.width).sum + ((parts.take i).map fun part => part.tail.length).sum

/-- The heads, each variable one the offset of its tail. -/
def heads (parts : List Part) : List (List UInt8) :=
  parts.mapIdx fun i part => part.head (tailStart parts i)

/-- All heads, and all tails behind them. -/
def serializeParts (parts : List Part) : List UInt8 :=
  (heads parts).flatten ++ (parts.map Part.tail).flatten

section Layout

variable {parts : List Part} {i : ℕ} {part : Part}

/-- A piece of what was joined. -/
theorem slice_flatten {pieces : List (List UInt8)} {piece : List UInt8}
    (hpiece : pieces[i]? = some piece) {start : ℕ}
    (hstart : ((pieces.take i).map List.length).sum = start) :
    slice pieces.flatten start (start + piece.length) = some piece := by
  obtain ⟨hi, rfl⟩ := List.getElem?_eq_some_iff.mp hpiece
  have hsplit : pieces.flatten =
      (pieces.take i).flatten ++ (pieces[i] ++ (pieces.drop (i + 1)).flatten) := by
    rw [← List.flatten_cons, ← List.drop_eq_getElem_cons hi, ← List.flatten_append,
      List.take_append_drop]
  rw [hsplit]
  exact slice_middle (List.length_flatten.trans hstart) rfl

theorem map_length_heads (parts : List Part) :
    (heads parts).map List.length = parts.map Part.width := by
  apply List.ext_getElem?
  intro i
  simp [heads, Function.comp_def]

theorem heads_getElem? (hpart : parts[i]? = some part) :
    (heads parts)[i]? = some (part.head (tailStart parts i)) := by
  rw [heads, List.getElem?_mapIdx, hpart, Option.map_some]

/-- **A head is where it is written.** -/
theorem slice_head (hpart : parts[i]? = some part) :
    slice (serializeParts parts) (headStart parts i) (headStart parts i + part.width) =
      some (part.head (tailStart parts i)) := by
  have hi : i < (heads parts).length := (List.getElem?_eq_some_iff.mp (heads_getElem? hpart)).1
  rw [serializeParts, ← List.flatten_append, ← Part.length_head (tailStart parts i)]
  apply slice_flatten (i := i)
  · rw [List.getElem?_append_left hi, heads_getElem? hpart]
  · rw [List.take_append_of_le_length hi.le, List.map_take, map_length_heads, ← List.map_take,
      headStart]

/-- **A tail is at its offset.** -/
theorem slice_tail (hpart : parts[i]? = some part) :
    slice (serializeParts parts) (tailStart parts i) (tailStart parts i + part.tail.length) =
      some part.tail := by
  have hlength : (heads parts).length = parts.length := by rw [heads, List.length_mapIdx]
  rw [serializeParts, ← List.flatten_append]
  apply slice_flatten (i := (heads parts).length + i)
  · rw [List.getElem?_append_right (Nat.le_add_right _ _), Nat.add_sub_cancel_left,
      List.getElem?_map, hpart, Option.map_some]
  · rw [List.take_length_add_append, List.map_append, List.sum_append, map_length_heads,
      ← List.map_take, List.map_map, tailStart]
    rfl

theorem tailStart_succ (hpart : parts[i]? = some part) :
    tailStart parts (i + 1) = tailStart parts i + part.tail.length := by
  obtain ⟨hi, rfl⟩ := List.getElem?_eq_some_iff.mp hpart
  rw [tailStart, tailStart, List.take_succ_eq_append_getElem hi, List.map_append, List.sum_append,
    Nat.add_assoc]
  simp

theorem length_serializeParts (parts : List Part) :
    (serializeParts parts).length = tailStart parts parts.length := by
  rw [serializeParts, List.length_append, List.length_flatten, List.length_flatten,
    map_length_heads, List.map_map, tailStart, List.take_length]
  rfl

/-- What lies between two offsets is the tails in between. -/
theorem tailStart_le {i j : ℕ} (hij : i ≤ j) : tailStart parts i ≤ tailStart parts j := by
  obtain ⟨n, rfl⟩ := Nat.exists_eq_add_of_le hij
  rw [tailStart, tailStart, List.take_add, List.map_append, List.sum_append]
  omega

/-- A fixed part has no tail. -/
theorem tailStart_eq_of_fixed {i j : ℕ} (hij : i ≤ j)
    (h : ∀ k, i ≤ k → k < j → ∀ part, parts[k]? = some part → part.tail = []) :
    tailStart parts j = tailStart parts i := by
  induction j, hij using Nat.le_induction with
  | base => rfl
  | succ j hij ih =>
      rw [← ih fun k hk hkj => h k hk (hkj.trans (Nat.lt_succ_self j))]
      cases hpart : parts[j]? with
      | none =>
          have hlength := List.getElem?_eq_none_iff.mp hpart
          rw [tailStart, tailStart, List.take_of_length_le hlength,
            List.take_of_length_le (hlength.trans (Nat.le_succ j))]
      | some part =>
          rw [tailStart_succ hpart, h j hij (Nat.lt_succ_self j) part hpart]
          rfl

/-- Without variable parts the parts are written one after the other. -/
theorem serializeParts_fixed (pieces : List (List UInt8)) :
    serializeParts (pieces.map .fixed) = pieces.flatten := by
  have hheads : heads (pieces.map .fixed) = pieces := by
    apply List.ext_getElem?
    intro i
    simp [heads, Part.head, Function.comp_def]
  have htails : (pieces.map Part.fixed).map Part.tail = pieces.map fun _ => [] := by
    rw [List.map_map]
    rfl
  rw [serializeParts, hheads, htails]
  simp

end Layout

/-! ## Codecs -/

/-- A type, as its values are serialized and hashed. -/
structure Codec (T α : Type) where
  /-- The length of every value, where all have one. -/
  size : Option ℕ
  /-- A basic value is packed into chunks with its neighbours. -/
  basic : Bool
  serialize : α → List UInt8
  root : α → T
  length_serialize : ∀ n, size = some n → ∀ a, (serialize a).length = n

namespace Codec

/-- A field of a record. -/
def of (c : Codec T α) (field : σ → α) : Codec T σ where
  size := c.size
  basic := c.basic
  serialize s := c.serialize (field s)
  root s := c.root (field s)
  length_serialize n hn s := c.length_serialize n hn (field s)

/-- A value as a part of another one. -/
def part (c : Codec T α) (a : α) : Part :=
  if c.size.isSome then .fixed (c.serialize a) else .variable (c.serialize a)

theorem part_of_some {c : Codec T α} (hc : c.size.isSome) (a : α) :
    c.part a = .fixed (c.serialize a) := if_pos hc

theorem part_of_none {c : Codec T α} (hc : c.size = none) (a : α) :
    c.part a = .variable (c.serialize a) := by
  rw [part, hc]
  rfl

theorem width_part (c : Codec T α) (a : α) : (c.part a).width = c.size.getD 4 := by
  cases hc : c.size with
  | none =>
      rw [part_of_none hc]
      rfl
  | some n =>
      rw [part_of_some (by rw [hc]; rfl)]
      exact c.length_serialize n hc a

theorem tail_part (c : Codec T α) (a : α) :
    (c.part a).tail = if c.size.isSome then [] else c.serialize a := by
  unfold part
  split <;> rfl

/-- Values of one length are written one after the other. -/
theorem serializeParts_of_some {c : Codec T α} (hc : c.size.isSome) (as : List α) :
    serializeParts (as.map c.part) = (as.map c.serialize).flatten := by
  have hparts : as.map c.part = (as.map c.serialize).map .fixed := by
    rw [List.map_map]
    exact List.map_congr_left fun a _ => part_of_some hc a
  rw [hparts, serializeParts_fixed]

theorem length_flatten_serialize {c : Codec T α} {n : ℕ} (hc : c.size = some n) (as : List α) :
    (as.map c.serialize).flatten.length = as.length * n := by
  induction as with
  | nil => simp
  | cons a as ih =>
      rw [List.map_cons, List.flatten_cons, List.length_append, ih, c.length_serialize n hc,
        List.length_cons, Nat.succ_mul, Nat.add_comm]

/-- So an element is where the ones before it end. -/
theorem slice_elements {c : Codec T α} {n : ℕ} (hc : c.size = some n) {as : List α} {i : ℕ} {a : α}
    (ha : as[i]? = some a) (rest : List UInt8) :
    slice ((as.map c.serialize).flatten ++ rest) (i * n) (i * n + n) = some (c.serialize a) := by
  obtain ⟨hi, rfl⟩ := List.getElem?_eq_some_iff.mp ha
  have hsplit : (as.map c.serialize).flatten ++ rest = ((as.take i).map c.serialize).flatten ++
      (c.serialize as[i] ++ (((as.drop (i + 1)).map c.serialize).flatten ++ rest)) := by
    rw [← List.append_assoc (c.serialize as[i]), ← List.flatten_cons, ← List.map_cons,
      ← List.drop_eq_getElem_cons hi, ← List.append_assoc, ← List.flatten_append, ← List.map_append,
      List.take_append_drop]
  rw [hsplit]
  apply slice_middle
  · rw [length_flatten_serialize hc, List.length_take, min_eq_left hi.le]
  · rw [c.length_serialize n hc]

/-- Fields of one length each are written one after the other. -/
theorem serializeParts_fields {fields : List (Codec T σ)}
    (hfixed : ∀ field ∈ fields, field.size.isSome) (s : σ) :
    serializeParts (fields.map fun field => field.part s) =
      (fields.map fun field => field.serialize s).flatten := by
  have hparts : (fields.map fun field => field.part s) =
      (fields.map fun field => field.serialize s).map .fixed := by
    rw [List.map_map]
    exact List.map_congr_left fun field hfield => part_of_some (hfixed field hfield) s
  rw [hparts, serializeParts_fixed]

/-- And each takes its own length. -/
theorem map_length_fields {fields : List (Codec T σ)}
    (hfixed : ∀ field ∈ fields, field.size.isSome) (s : σ) :
    (fields.map fun field => field.serialize s).map List.length =
      fields.map fun field => field.size.getD 0 := by
  rw [List.map_map]
  apply List.map_congr_left
  intro field hfield
  obtain ⟨n, hn⟩ := Option.isSome_iff_exists.mp (hfixed field hfield)
  rw [hn]
  exact field.length_serialize n hn s

section Types

variable (h : Hasher T)

/-- An unsigned integer of `k` bytes, or a boolean. -/
def uint (k : ℕ) (value : α → ℕ) : Codec T α where
  size := some k
  basic := true
  serialize a := leBytes k (value a)
  root a := h.merkleize ((k + 31) / 32) (h.pack (leBytes k (value a)))
  length_serialize := by
    rintro n ⟨⟩ a
    exact leBytes_length k _

/-- The bits as a number, the first of them the lowest. -/
def bitsValue (bits : List Bool) : ℕ := bits.foldr (fun bit v => bit.toNat + 2 * v) 0

/-- A vector of bits, eight to a byte. -/
def bitvector (n : ℕ) : Codec T { bits : List Bool // bits.length = n } where
  size := some ((n + 7) / 8)
  basic := false
  serialize bits := leBytes ((n + 7) / 8) (bitsValue bits.val)
  root bits := h.merkleize ((n + 255) / 256) (h.pack (leBytes ((n + 7) / 8) (bitsValue bits.val)))
  length_serialize := by
    rintro n ⟨⟩ a
    exact leBytes_length _ _

/-- The chunks of elements, where there are at most `limit`: packed, or a root each. -/
def elementsRoot (c : Codec T α) (limit : ℕ) (as : List α) : T :=
  if c.basic then
    h.merkleize ((limit * c.size.getD 0 + 31) / 32) (h.pack (as.map c.serialize).flatten)
  else h.merkleize limit (as.map c.root)

/-- As many elements as the type says. -/
def vector (c : Codec T α) (n : ℕ) : Codec T { as : List α // as.length = n } where
  size := c.size.map (n * ·)
  basic := false
  serialize as := serializeParts (as.val.map c.part)
  root as := elementsRoot h c n as.val
  length_serialize := by
    rintro m hm ⟨as, rfl⟩
    obtain ⟨k, hc, rfl⟩ := Option.map_eq_some_iff.mp hm
    rw [serializeParts_of_some (by rw [hc]; rfl), length_flatten_serialize hc]

/-- At most as many elements as the type says. -/
def list (c : Codec T α) (limit : ℕ) : Codec T { as : List α // as.length ≤ limit } where
  size := none
  basic := false
  serialize as := serializeParts (as.val.map c.part)
  root as := h.mixInLength (elementsRoot h c limit as.val) as.val.length
  length_serialize := by
    rintro n ⟨⟩

/-- A record of fields. -/
def container (fields : List (Codec T σ)) : Codec T σ where
  size :=
    if fields.all (·.size.isSome) then some (fields.map fun f => f.size.getD 0).sum else none
  basic := false
  serialize s := serializeParts (fields.map fun f => f.part s)
  root s := h.merkleize fields.length (fields.map fun f => f.root s)
  length_serialize := by
    intro n hn s
    obtain ⟨hall, rfl⟩ := Option.ite_none_right_eq_some.mp hn |>.imp_right Option.some.inj
    have hfixed : ∀ field ∈ fields, field.size.isSome := List.all_eq_true.mp hall
    rw [serializeParts_fields hfixed, List.length_flatten, map_length_fields hfixed]

/-! ### The types that have a name -/

def uint8 : Codec T UInt8 := uint h 1 UInt8.toNat

def uint64 : Codec T UInt64 := uint h 8 UInt64.toNat

def uint256 : Codec T (BitVec 256) := uint h 32 BitVec.toNat

def boolean : Codec T Bool := uint h 1 Bool.toNat

/-- A vector of bytes. -/
def bytes (n : ℕ) : Codec T (Bytes n) := vector h (uint8 h) n

end Types

/-! ### The layout of a record -/

section Record

variable {h : Hasher T} {fields : List (Codec T σ)} {i n start stop : ℕ} {field : Codec T σ}

/-- The length of each field, where it has one. -/
def sizes (fields : List (Codec T σ)) : List (Option ℕ) := fields.map Codec.size

/-- The room each of them takes in front. -/
def widths (fields : List (Codec T σ)) : List ℕ := (sizes fields).map (·.getD 4)

/-- The parts of a record. -/
def parts (fields : List (Codec T σ)) (s : σ) : List Part := fields.map fun f => f.part s

theorem parts_getElem? (hfield : fields[i]? = some field) (s : σ) :
    (parts fields s)[i]? = some (field.part s) := by
  rw [parts, List.getElem?_map, hfield, Option.map_some]

theorem map_width_parts (fields : List (Codec T σ)) (s : σ) :
    (parts fields s).map Part.width = widths fields := by
  rw [parts, widths, sizes, List.map_map, List.map_map]
  exact List.map_congr_left fun f _ => width_part f s

theorem headStart_parts (fields : List (Codec T σ)) (s : σ) (i : ℕ) :
    headStart (parts fields s) i = ((widths fields).take i).sum := by
  rw [headStart, List.map_take, map_width_parts]

/-- The heads take the same room in every record. -/
theorem tailStart_zero (fields : List (Codec T σ)) (s : σ) :
    tailStart (parts fields s) 0 = (widths fields).sum := by
  rw [tailStart, map_width_parts]
  simp

/-- Between two tails are those of the variable fields there. -/
theorem tailStart_parts_eq {i j : ℕ} (hij : i ≤ j)
    (h : ∀ k, i ≤ k → k < j → (sizes fields)[k]? ≠ some none) (s : σ) :
    tailStart (parts fields s) j = tailStart (parts fields s) i := by
  refine tailStart_eq_of_fixed hij fun k hik hkj part hpart => ?_
  rw [parts, List.getElem?_map] at hpart
  obtain ⟨field, hfield, rfl⟩ := Option.map_eq_some_iff.mp hpart
  have hsize := h k hik hkj
  rw [sizes, List.getElem?_map, hfield, Option.map_some, ne_eq, Option.some_inj] at hsize
  rw [tail_part, if_pos (Option.isSome_iff_ne_none.mpr hsize)]

/-- **A field of one length** is at its place. -/
theorem slice_fixed (s : σ) (hfield : fields[i]? = some field) (hsize : field.size = some n)
    (hstart : ((widths fields).take i).sum = start) (hstop : start + n = stop) :
    slice ((container h fields).serialize s) start stop = some (field.serialize s) := by
  have hsome : field.size.isSome := by
    rw [hsize]
    rfl
  have hhead := slice_head (parts_getElem? hfield s)
  rw [headStart_parts, hstart, width_part, hsize, Option.getD_some, hstop,
    part_of_some hsome] at hhead
  exact hhead

/-- In the place of any other is the offset of its tail, -/
theorem slice_offset (s : σ) (hfield : fields[i]? = some field) (hsize : field.size = none)
    (hstart : ((widths fields).take i).sum = start) :
    slice ((container h fields).serialize s) start (start + 4) =
      some (leBytes 4 (tailStart (parts fields s) i)) := by
  have hhead := slice_head (parts_getElem? hfield s)
  rw [headStart_parts, hstart, width_part, hsize, Option.getD_none, part_of_none hsize] at hhead
  exact hhead

/-- and there it runs up to the next. -/
theorem slice_variable (s : σ) (hfield : fields[i]? = some field) (hsize : field.size = none) :
    slice ((container h fields).serialize s) (tailStart (parts fields s) i)
      (tailStart (parts fields s) (i + 1)) = some (field.serialize s) := by
  have htail := slice_tail (parts_getElem? hfield s)
  rw [← tailStart_succ (parts_getElem? hfield s), part_of_none hsize] at htail
  exact htail

theorem length_serialize_container (fields : List (Codec T σ)) (s : σ) :
    ((container h fields).serialize s).length = tailStart (parts fields s) fields.length := by
  show (serializeParts (parts fields s)).length = _
  rw [length_serializeParts, parts, List.length_map]

/-- The room of the heads, and the lengths of the fields that have none there. -/
theorem length_serialize_eq (fields : List (Codec T σ)) (s : σ) :
    ((container h fields).serialize s).length = (widths fields).sum +
      (fields.map fun f => if f.size.isSome then 0 else (f.serialize s).length).sum := by
  rw [length_serialize_container, tailStart, map_width_parts, parts, ← List.length_map,
    List.take_length, List.map_map]
  congr 2
  apply List.map_congr_left
  intro f _
  show (f.part s).tail.length = _
  rw [tail_part]
  split <;> rfl

end Record

/-! ### What they come to -/

section Laws

variable {h : Hasher T}

theorem elementsRoot_of_basic {c : Codec T α} (hc : c.basic = true) (limit : ℕ) (as : List α) :
    elementsRoot h c limit as = h.merkleize ((limit * c.size.getD 0 + 31) / 32)
      (h.pack (as.map c.serialize).flatten) := if_pos hc

theorem elementsRoot_of_composite {c : Codec T α} (hc : c.basic = false) (limit : ℕ)
    (as : List α) : elementsRoot h c limit as = h.merkleize limit (as.map c.root) :=
  if_neg (by rw [hc]; decide)

theorem uint_root {k : ℕ} {value : α → ℕ} (hpos : 0 < k) (hk : k ≤ 32) (a : α) :
    (uint h k value).root a = h.padded (leBytes k (value a)) := by
  have hone : (k + 31) / 32 = 1 := by omega
  show h.merkleize ((k + 31) / 32) (h.pack (leBytes k (value a))) = _
  rw [hone, h.merkleize_one_pack (by rwa [leBytes_length])]

@[simp] theorem of_size (c : Codec T α) (field : σ → α) : (c.of field).size = c.size := rfl

@[simp] theorem of_serialize (c : Codec T α) (field : σ → α) (s : σ) :
    (c.of field).serialize s = c.serialize (field s) := rfl

@[simp] theorem of_root (c : Codec T α) (field : σ → α) (s : σ) :
    (c.of field).root s = c.root (field s) := rfl

theorem container_root (fields : List (Codec T σ)) (s : σ) :
    (container h fields).root s = h.merkleize fields.length (fields.map fun f => f.root s) := rfl

/-! Small records, whose trees are written out. -/

theorem container_root_two {f₀ f₁ : Codec T σ} (s : σ) :
    (container h [f₀, f₁]).root s = h.pair (f₀.root s) (f₁.root s) := by
  rw [container_root]
  exact h.merkleize_two _ _

theorem container_root_three {f₀ f₁ f₂ : Codec T σ} (s : σ) :
    (container h [f₀, f₁, f₂]).root s =
      h.pair (h.pair (f₀.root s) (f₁.root s)) (h.pair (f₂.root s) h.zero) := by
  rw [container_root]
  exact h.merkleize_three _ _ _

theorem container_root_five {f₀ f₁ f₂ f₃ f₄ : Codec T σ} (s : σ) :
    (container h [f₀, f₁, f₂, f₃, f₄]).root s =
      h.pair
        (h.pair (h.pair (f₀.root s) (f₁.root s)) (h.pair (f₂.root s) (f₃.root s)))
        (h.pair (h.pair (f₄.root s) h.zero) (h.pair h.zero h.zero)) := by
  rw [container_root]
  exact h.merkleize_eight (show Nat.clog 2 5 = 3 by decide) _

theorem container_root_eight {f₀ f₁ f₂ f₃ f₄ f₅ f₆ f₇ : Codec T σ} (s : σ) :
    (container h [f₀, f₁, f₂, f₃, f₄, f₅, f₆, f₇]).root s =
      h.pair
        (h.pair (h.pair (f₀.root s) (f₁.root s)) (h.pair (f₂.root s) (f₃.root s)))
        (h.pair (h.pair (f₄.root s) (f₅.root s)) (h.pair (f₆.root s) (f₇.root s))) := by
  rw [container_root]
  exact h.merkleize_eight (Nat.clog_pow 2 3 Nat.one_lt_two) _

/-- Bytes are written as they are. -/
theorem flatten_serialize_uint8 (as : List UInt8) :
    (as.map (uint8 h).serialize).flatten = as := by
  have hone : ∀ a, (uint8 h).serialize a = [a] := by
    intro a
    show [UInt8.ofNat a.toNat] = [a]
    rw [UInt8.ofNat_toNat]
  induction as with
  | nil => rfl
  | cons a as ih => rw [List.map_cons, List.flatten_cons, ih, hone, List.singleton_append]

@[simp] theorem bytes_serialize {n : ℕ} (a : Bytes n) : (bytes h n).serialize a = a.val :=
  (serializeParts_of_some rfl _).trans (flatten_serialize_uint8 _)

theorem bytes_root {n : ℕ} (a : Bytes n) :
    (bytes h n).root a = h.merkleize ((n + 31) / 32) (h.pack a.val) := by
  show elementsRoot h (uint8 h) n a.val = _
  rw [elementsRoot_of_basic rfl, flatten_serialize_uint8]
  show h.merkleize ((n * 1 + 31) / 32) _ = _
  rw [Nat.mul_one]

/-- At most 32 bytes are a chunk. -/
theorem bytes_root_chunk {n : ℕ} (hpos : 0 < n) (hn : n ≤ 32) (a : Bytes n) :
    (bytes h n).root a = h.padded a.val := by
  have hone : (n + 31) / 32 = 1 := by omega
  rw [bytes_root, hone, h.merkleize_one_pack (by rwa [a.2])]

end Laws

/-- A value as a message: what is written, if every offset in it fits into its four bytes. -/
def encode (c : Codec T α) (a : α) : Option (List UInt8) :=
  if (c.serialize a).length < 2 ^ 32 then some (c.serialize a) else none

theorem encode_eq_some {c : Codec T α} {a : α} {written : List UInt8} :
    c.encode a = some written ↔ (c.serialize a).length < 2 ^ 32 ∧ c.serialize a = written := by
  unfold encode
  split <;> simp_all

end Codec
end Zkasper.SimpleSerialize
