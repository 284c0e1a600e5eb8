import Mathlib.Data.List.Basic
import Mathlib.Data.UInt
import Mathlib.Tactic.Common

/-! # Raw bytes

Fixed-size byte arrays, and the little-endian form of an integer. `u64ToChunk` is
the one encoding SSZ puts an integer leaf in, and all that is ever needed of it is
that it loses nothing. -/

namespace Zkasper

/-! ## Arrays of a fixed size

The small ones are functions on `Fin`, read at literals. -/

instance instNeZeroTwo : NeZero 2 := ⟨two_ne_zero⟩

instance instNeZeroFour : NeZero 4 := ⟨four_ne_zero⟩

instance instNeZeroEight : NeZero 8 := ⟨Nat.succ_ne_zero 7⟩

/-- `[u8; n]`. -/
abbrev Bytes (n : ℕ) := { bytes : List UInt8 // bytes.length = n }

/-! ## Little-endian integers -/

/-- The `n` low bytes of `v`, least significant first. -/
def leBytes : ℕ → ℕ → List UInt8
  | 0, _ => []
  | n + 1, v => UInt8.ofNat v :: leBytes n (v / 256)

@[simp] theorem leBytes_length (n v : ℕ) : (leBytes n v).length = n := by
  induction n generalizing v with
  | zero => rfl
  | succ n ih => rw [leBytes, List.length_cons, ih]

theorem leBytes_injective {n : ℕ} : ∀ {v w : ℕ}, v < 256 ^ n → w < 256 ^ n →
    leBytes n v = leBytes n w → v = w := by
  induction n with
  | zero => intro v w hv hw _; rw [pow_zero] at hv hw; omega
  | succ n ih =>
      intro v w hv hw h
      rw [pow_succ] at hv hw
      obtain ⟨hlow, hhigh⟩ := List.cons.inj h
      have hdiv : v / 256 = w / 256 := ih (by omega) (by omega) hhigh
      have hmod : v % 256 = w % 256 := by simpa using congrArg UInt8.toNat hlow
      omega

/-- The low bytes of a sum of a small value and a shifted one are the bytes of each. -/
theorem leBytes_append (n : ℕ) : ∀ (m : ℕ) {v : ℕ} (w : ℕ), v < 256 ^ m →
    leBytes (m + n) (v + w * 256 ^ m) = leBytes m v ++ leBytes n w := by
  intro m
  induction m with
  | zero =>
      intro v w hv
      rw [pow_zero] at hv
      obtain rfl : v = 0 := by omega
      simp [leBytes]
  | succ m ih =>
      intro v w hv
      have hshift : w * 256 ^ (m + 1) = 256 * (w * 256 ^ m) := by
        rw [pow_succ', Nat.mul_left_comm]
      have hlow : UInt8.ofNat (v + w * 256 ^ (m + 1)) = UInt8.ofNat v := by
        apply UInt8.toNat_inj.mp
        simp only [UInt8.toNat_ofNat']
        omega
      have hhigh : (v + w * 256 ^ (m + 1)) / 256 = v / 256 + w * 256 ^ m := by omega
      rw [pow_succ] at hv
      rw [Nat.add_right_comm, leBytes, leBytes, hlow, hhigh, ih w (by omega)]
      rfl

/-- `from_le_bytes`. -/
def fromLeBytes (bytes : List UInt8) : ℕ := bytes.foldr (fun b v => b.toNat + 256 * v) 0

theorem fromLeBytes_leBytes {n : ℕ} : ∀ {v : ℕ}, v < 256 ^ n → fromLeBytes (leBytes n v) = v := by
  induction n with
  | zero =>
      intro v hv
      rw [pow_zero] at hv
      show 0 = v
      omega
  | succ n ih =>
      intro v hv
      rw [pow_succ] at hv
      have hlow : (UInt8.ofNat v).toNat = v % 256 := by simp
      have hhigh : fromLeBytes (leBytes n (v / 256)) = v / 256 := ih (by omega)
      show (UInt8.ofNat v).toNat + 256 * fromLeBytes (leBytes n (v / 256)) = v
      rw [hlow, hhigh]
      omega

/-- Bytes of one length are told apart by their value. -/
theorem fromLeBytes_inj : ∀ {xs ys : List UInt8}, xs.length = ys.length →
    fromLeBytes xs = fromLeBytes ys → xs = ys := by
  intro xs
  induction xs with
  | nil =>
      intro ys hlength _
      exact (List.length_eq_zero_iff.mp hlength.symm).symm
  | cons x xs ih =>
      intro ys hlength h
      cases ys with
      | nil => cases hlength
      | cons y ys =>
          have hvalue : x.toNat + 256 * fromLeBytes xs = y.toNat + 256 * fromLeBytes ys := h
          have hx := x.toNat_lt
          have hy := y.toNat_lt
          have hlow : x = y := UInt8.toNat_inj.mp (by omega)
          rw [hlow, ih (by simpa using hlength) (by omega)]

theorem fromLeBytes_lt : ∀ bytes : List UInt8, fromLeBytes bytes < 256 ^ bytes.length := by
  intro bytes
  induction bytes with
  | nil => exact Nat.one_pos
  | cons b bytes ih =>
      have hb := b.toNat_lt
      show b.toNat + 256 * fromLeBytes bytes < 256 ^ (bytes.length + 1)
      rw [pow_succ]
      omega

theorem leBytes_fromLeBytes {n : ℕ} {bytes : List UInt8} (h : bytes.length = n) :
    leBytes n (fromLeBytes bytes) = bytes := by
  subst h
  apply fromLeBytes_inj (leBytes_length _ _)
  exact fromLeBytes_leBytes (fromLeBytes_lt bytes)

/-- `[0; n]`. -/
def zeroBytes (n : ℕ) : Bytes n := ⟨List.replicate n 0, List.length_replicate⟩

/-- Pad a `u64` to a 32-byte little-endian SSZ chunk. -/
def u64ToChunk (val : UInt64) : Bytes 32 :=
  ⟨leBytes 8 val.toNat ++ List.replicate 24 0, by simp⟩

theorem u64ToChunk_injective : Function.Injective u64ToChunk := by
  intro v w h
  have hbytes : leBytes 8 v.toNat = leBytes 8 w.toNat :=
    List.append_cancel_right (congrArg Subtype.val h)
  exact UInt64.toNat_inj.mp (leBytes_injective v.toNat_lt w.toNat_lt hbytes)

end Zkasper
