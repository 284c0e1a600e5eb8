import Zkasper.Bytes

/-! # Sealed files

A body behind a header that names what it is: a magic, a format version, the length of the
body and its checksum, all of fixed width. `Regions` is such a file taken apart, sealed or
not, and `Sealed` is what a reader checks of it. The body decides the header
(`Sealed.eq_of_body`), and where no other body has its checksum the header decides the body,
so no one region of a sealed file can be another (`Sealed.eq_of_one`). -/

namespace Zkasper.Library

/-- A file by its regions. -/
structure Regions where
  magic : Bytes 8
  version : Bytes 4
  length : Bytes 8
  checksum : Bytes 32
  body : List UInt8

namespace Regions

/-- Bytes in front of the body. -/
def header : ℕ := 8 + 4 + 8 + 32

def bytes (r : Regions) : List UInt8 :=
  r.magic.val ++ r.version.val ++ r.length.val ++ r.checksum.val ++ r.body

variable (r : Regions)

theorem length_bytes : r.bytes.length = header + r.body.length := by
  simp only [bytes, header, List.length_append, r.magic.property, r.version.property,
    r.length.property, r.checksum.property]

@[simp] theorem take_magic : r.bytes.take 8 = r.magic.val := by
  simp only [bytes, List.append_assoc]
  exact List.take_left' r.magic.property

@[simp] theorem take_version : (r.bytes.drop 8).take 4 = r.version.val := by
  simp only [bytes, List.append_assoc]
  rw [List.drop_left' r.magic.property]
  exact List.take_left' r.version.property

@[simp] theorem take_length : (r.bytes.drop 12).take 8 = r.length.val := by
  have hfront : (r.magic.val ++ r.version.val).length = 12 := by
    rw [List.length_append, r.magic.property, r.version.property]
  rw [bytes, List.append_assoc, List.append_assoc, List.drop_left' hfront]
  exact List.take_left' r.length.property

@[simp] theorem take_checksum : (r.bytes.drop 20).take 32 = r.checksum.val := by
  have hfront : (r.magic.val ++ r.version.val ++ r.length.val).length = 20 := by
    rw [List.length_append, List.length_append, r.magic.property, r.version.property,
      r.length.property]
  rw [bytes, List.append_assoc, List.drop_left' hfront]
  exact List.take_left' r.checksum.property

@[simp] theorem drop_header : r.bytes.drop header = r.body := by
  have hfront : (r.magic.val ++ r.version.val ++ r.length.val ++ r.checksum.val).length =
      header := by
    simp only [header, List.length_append, r.magic.property, r.version.property,
      r.length.property, r.checksum.property]
  exact List.drop_left' hfront

/-- A file is told apart by its regions. -/
theorem bytes_injective : Function.Injective bytes := by
  intro r r' h
  have hmagic : r.magic = r'.magic := Subtype.ext (by rw [← take_magic, h, take_magic])
  have hversion : r.version = r'.version := Subtype.ext (by rw [← take_version, h, take_version])
  have hlength : r.length = r'.length := Subtype.ext (by rw [← take_length, h, take_length])
  have hchecksum : r.checksum = r'.checksum :=
    Subtype.ext (by rw [← take_checksum, h, take_checksum])
  have hbody : r.body = r'.body := by rw [← drop_header, h, drop_header]
  cases r
  cases r'
  simp only at hmagic hversion hlength hchecksum hbody
  rw [hmagic, hversion, hlength, hchecksum, hbody]

/-- Bytes that reach past the header have regions. -/
theorem exists_bytes {bytes : List UInt8} (h : header ≤ bytes.length) :
    ∃ r : Regions, r.bytes = bytes := by
  unfold header at h
  refine ⟨⟨⟨bytes.take 8, ?_⟩, ⟨(bytes.drop 8).take 4, ?_⟩, ⟨(bytes.drop 12).take 8, ?_⟩,
    ⟨(bytes.drop 20).take 32, ?_⟩, bytes.drop 52⟩, ?_⟩
  · rw [List.length_take]
    omega
  · rw [List.length_take, List.length_drop]
    omega
  · rw [List.length_take, List.length_drop]
    omega
  · rw [List.length_take, List.length_drop]
    omega
  · have hsplit : ∀ n m, bytes.drop n = (bytes.drop n).take m ++ bytes.drop (n + m) := by
      intro n m
      rw [← List.drop_drop, List.take_append_drop]
    have hfile := List.take_append_drop 8 bytes
    rw [hsplit 8 4, hsplit 12 8, hsplit 20 32] at hfile
    simpa only [Regions.bytes, List.append_assoc] using hfile

variable (hash : List UInt8 → Bytes 32) (magic : Bytes 8) (version : ℕ)

/-- The file over a body. -/
def ofBody (body : List UInt8) : Regions where
  magic
  version := ⟨leBytes 4 version, leBytes_length 4 version⟩
  length := ⟨leBytes 8 body.length, leBytes_length 8 body.length⟩
  checksum := hash body
  body

/-- What a reader checks. -/
structure Sealed : Prop where
  magic_eq : r.magic = magic
  version_eq : fromLeBytes r.version.val = version
  length_eq : fromLeBytes r.length.val = r.body.length
  checksum_eq : r.checksum = hash r.body

theorem sealed_ofBody {body : List UInt8} (hversion : version < 2 ^ 32)
    (hbody : body.length < 2 ^ 64) :
    (ofBody hash magic version body).Sealed hash magic version where
  magic_eq := rfl
  version_eq := fromLeBytes_leBytes (by simpa using hversion)
  length_eq := fromLeBytes_leBytes (by simpa using hbody)
  checksum_eq := rfl

/-- All but one region are the same. -/
def DifferInOne (r r' : Regions) : Prop :=
  (∃ m, r' = { r with magic := m }) ∨ (∃ v, r' = { r with version := v }) ∨
    (∃ l, r' = { r with length := l }) ∨ (∃ c, r' = { r with checksum := c }) ∨
      ∃ b, r' = { r with body := b }

variable {r} {hash} {magic} {version} {r' : Regions}

/-- **The body decides the header.** -/
theorem Sealed.eq_of_body (h : r.Sealed hash magic version) (h' : r'.Sealed hash magic version)
    (hbody : r'.body = r.body) : r' = r := by
  have hmagic : r'.magic = r.magic := h'.magic_eq.trans h.magic_eq.symm
  have hversion : r'.version = r.version := by
    apply Subtype.ext
    apply fromLeBytes_inj
    · rw [r'.version.property, r.version.property]
    · rw [h'.version_eq, h.version_eq]
  have hlength : r'.length = r.length := by
    apply Subtype.ext
    apply fromLeBytes_inj
    · rw [r'.length.property, r.length.property]
    · rw [h'.length_eq, h.length_eq, hbody]
  have hchecksum : r'.checksum = r.checksum := by rw [h'.checksum_eq, h.checksum_eq, hbody]
  cases r
  cases r'
  simp_all

/-- **No one region can be another.** -/
theorem Sealed.eq_of_one (hhash : ∀ body, hash body = hash r.body → body = r.body)
    (h : r.Sealed hash magic version) (h' : r'.Sealed hash magic version)
    (hone : DifferInOne r r') : r' = r := by
  apply h.eq_of_body h'
  rcases hone with ⟨_, rfl⟩ | ⟨_, rfl⟩ | ⟨_, rfl⟩ | ⟨_, rfl⟩ | ⟨b, rfl⟩
  · rfl
  · rfl
  · rfl
  · rfl
  · -- the checksum was left alone
    exact hhash b (h'.checksum_eq.symm.trans h.checksum_eq)

end Regions

end Zkasper.Library
