import Zkasper.Bytes
import Zkasper.Guest

/-! # Reading a body back

A reader moves a cursor over a body and fails where the body ends early. `Reads r bytes a` is
what a round trip needs of one: standing before `bytes`, it yields `a` and stands behind
them. Readers in sequence read their fields in sequence, and a counted loop the elements of a
list. -/

namespace Zkasper.Library

/-- A body, and how much of it has been read. -/
structure Cursor where
  body : List UInt8
  pos : ℕ

/-- A reader of one value. -/
abbrev Reader (α : Type) := StateT Cursor (Except String) α

namespace Cursor

/-- The next `n` bytes. -/
def take (n : ℕ) : Reader (List UInt8) := fun c => do
  Guest.assert (c.pos + n < 2 ^ 64) "length overflow"
  Guest.assert (c.pos + n ≤ c.body.length) s!"truncated at byte {c.pos}"
  return ((c.body.drop c.pos).take n, { c with pos := c.pos + n })

def u64 : Reader UInt64 := do
  let bytes ← take 8
  return UInt64.ofNat (fromLeBytes bytes)

/-- `try_into().unwrap()` -/
def tryInto (n : ℕ) (bytes : List UInt8) : Reader (Bytes n) :=
  if h : bytes.length = n then pure ⟨bytes, h⟩
  else throw "called `Result::unwrap()` on an `Err` value: TryFromSliceError(())"

/-- `[u8; n]` -/
def array (n : ℕ) : Reader (Bytes n) := do
  let bytes ← take n
  tryInto n bytes

def byte : Reader UInt8 := do
  let bytes ← take 1
  return bytes.headD 0

/-- `n` values, one after the other. -/
def many {α : Type} (r : Reader α) : ℕ → Reader (List α)
  | 0 => return []
  | n + 1 => do
      let a ← r
      let as ← many r n
      return a :: as

end Cursor

/-! ## What a reader reads -/

/-- **The reader reads `a` off `bytes`**, whatever stands before and behind them. -/
def Reads {α : Type} (r : Reader α) (bytes : List UInt8) (a : α) : Prop :=
  ∀ pre rest : List UInt8, (pre ++ bytes ++ rest).length < 2 ^ 64 →
    r ⟨pre ++ bytes ++ rest, pre.length⟩ =
      .ok (a, ⟨pre ++ bytes ++ rest, pre.length + bytes.length⟩)

namespace Reads

variable {α β : Type} {r : Reader α} {a : α} {xs ys : List UInt8}

protected theorem pure (a : α) : Reads (pure a) [] a := fun _ _ _ => rfl

/-- Fields in sequence. -/
protected theorem bind {f : α → Reader β} {b : β} (hr : Reads r xs a) (hf : Reads (f a) ys b) :
    Reads (r >>= f) (xs ++ ys) b := by
  intro pre rest hlength
  have hfirst : pre ++ (xs ++ ys) ++ rest = pre ++ xs ++ (ys ++ rest) := by simp
  have hsecond : pre ++ xs ++ (ys ++ rest) = (pre ++ xs) ++ ys ++ rest := by simp
  have hr := hr pre (ys ++ rest) (hfirst ▸ hlength)
  have hf := hf (pre ++ xs) rest (hsecond ▸ hfirst ▸ hlength)
  rw [hfirst]
  show (r _ >>= fun p => f p.1 p.2) = _
  rw [hr]
  show f a _ = _
  rw [hsecond, ← List.length_append, hf, List.length_append, List.length_append, Nat.add_assoc]

/-- What is made of a value once it is read. -/
protected theorem map (hr : Reads r xs a) (f : α → β) :
    Reads (do let a ← r; return f a) xs (f a) := by
  have h := hr.bind (f := fun a => pure (f a)) (Reads.pure (f a))
  rwa [List.append_nil] at h

protected theorem take {n : ℕ} (hn : xs.length = n) : Reads (Cursor.take n) xs xs := by
  subst hn
  intro pre rest hlength
  have hend : pre.length + xs.length ≤ (pre ++ xs ++ rest).length := by
    simp only [List.length_append]
    omega
  have hread : ((pre ++ xs ++ rest).drop pre.length).take xs.length = xs := by
    rw [List.append_assoc, List.drop_left' rfl, List.take_left' rfl]
  simp only [Cursor.take, Guest.bind_eq_ok, Guest.assert_eq_ok, Guest.pure_eq_ok, exists_const,
    hread, and_true]
  exact ⟨hend.trans_lt hlength, hend⟩

protected theorem u64 (v : UInt64) : Reads Cursor.u64 (leBytes 8 v.toNat) v := by
  have h := (Reads.take (leBytes_length 8 v.toNat)).map fun bytes => UInt64.ofNat (fromLeBytes bytes)
  rw [fromLeBytes_leBytes v.toNat_lt, UInt64.ofNat_toNat] at h
  exact h

protected theorem array {n : ℕ} (bytes : Bytes n) : Reads (Cursor.array n) bytes.val bytes := by
  have hsized : Reads (Cursor.tryInto n bytes.val) [] bytes := by
    rw [Cursor.tryInto, dif_pos bytes.property]
    exact .pure bytes
  have h := (Reads.take bytes.property).bind hsized
  rwa [List.append_nil] at h

protected theorem byte (b : UInt8) : Reads Cursor.byte [b] b :=
  (Reads.take (n := 1) rfl).map fun bytes => bytes.headD 0

/-- As many values as were written. -/
protected theorem many {encode : α → List UInt8} : ∀ {as : List α},
    (∀ a ∈ as, Reads r (encode a) a) → Reads (Cursor.many r as.length) (as.flatMap encode) as := by
  intro as
  induction as with
  | nil =>
      intro _
      exact .pure []
  | cons a as ih =>
      intro h
      obtain ⟨ha, has⟩ := List.forall_mem_cons.mp h
      rw [List.flatMap_cons]
      exact ha.bind ((ih has).map fun as => a :: as)

end Reads
end Zkasper.Library
