import Mathlib.Data.UInt
import Mathlib.Tactic.Common
import Mathlib.Tactic.NormNum
import Mathlib.Tactic.Ring

/-! # Seven bits a byte

A variable-length integer is written seven bits to a byte, the lowest group first, and
the high bit of a byte says that another one follows. These are the facts a writer and
a reader of such a format meet on: what a byte holds below its high bit, and that a
value shifted into place is its low group and its other groups, each shifted into
theirs. -/

namespace Zkasper.Septets

theorem toNat_low (byte : UInt8) : (byte &&& 0x7f).toUInt64.toNat = byte.toNat % 128 := by
  have hmask : byte.toNat &&& (2 ^ 7 - 1) = byte.toNat % 2 ^ 7 :=
    Nat.and_two_pow_sub_one_eq_mod _ _
  rw [UInt8.toNat_toUInt64, UInt8.toNat_and]
  exact hmask

theorem toNat_continued (byte : UInt8) : (byte ||| 0x80).toNat = byte.toNat % 128 + 128 := by
  have h := (by decide +kernel : ∀ b : Fin 256, b.val ||| 128 = b.val % 128 + 128)
  rw [UInt8.toNat_or]
  exact h ⟨byte.toNat, byte.toNat_lt⟩

/-- A continued byte says that another one follows. -/
theorem not_continued_lt (byte : UInt8) : ¬ byte ||| 0x80 < 0x80 := by
  rw [UInt8.lt_iff_toNat_lt, toNat_continued]
  show ¬ byte.toNat % 128 + 128 < 128
  omega

/-- A value of one group is the byte that holds it. -/
theorem single {value : UInt64} (h : ¬ 0x80 ≤ value) :
    (value.toUInt8 &&& 0x7f).toUInt64 = value ∧ value.toUInt8 < 0x80 := by
  have hlt : value.toNat < 128 := by simpa [UInt64.le_iff_toNat_le] using h
  constructor
  · apply UInt64.toNat_inj.mp
    rw [toNat_low, UInt64.toNat_toUInt8]
    omega
  · rw [UInt8.lt_iff_toNat_lt, UInt64.toNat_toUInt8]
    show value.toNat % 2 ^ 8 < 128
    omega

/-- The low group and the others, over the naturals. -/
theorem shift_group (v k : ℕ) : (v % 128) <<< k ||| (v / 128) <<< (k + 7) = v <<< k := by
  apply Nat.eq_of_testBit_eq
  intro i
  rw [show (128 : ℕ) = 2 ^ 7 from rfl]
  simp only [Nat.testBit_or, Nat.testBit_shiftLeft, Nat.testBit_mod_two_pow,
    Nat.testBit_div_two_pow]
  by_cases hi : k ≤ i
  · by_cases h7 : k + 7 ≤ i
    · have hback : i - (k + 7) + 7 = i - k := by omega
      simp [hi, h7, hback]
    · simp [hi, h7]
      omega
  · simp [hi]
    omega

theorem toNat_shiftRight_seven (value : UInt64) : (value >>> 7).toNat = value.toNat / 128 := by
  rw [UInt64.toNat_shiftRight]
  exact Nat.shiftRight_eq_div_pow _ _

/-- **The groups of a value**: the lowest one, and the others seven places up. -/
theorem shift_continued (value : UInt64) {k : ℕ} (hk : k + 7 < 64) :
    ((value.toUInt8 ||| 0x80) &&& 0x7f).toUInt64 <<< UInt64.ofNat k |||
      (value >>> 7) <<< UInt64.ofNat (k + 7) = value <<< UInt64.ofNat k := by
  apply UInt64.toNat_inj.mp
  have hplace : k % 2 ^ 64 % 64 = k := by omega
  have hnext : (k + 7) % 2 ^ 64 % 64 = k + 7 := by omega
  have hgroup : (value.toNat % 2 ^ 8 % 128 + 128) % 128 = value.toNat % 128 := by omega
  simp only [UInt64.toNat_or, UInt64.toNat_shiftLeft, toNat_low, toNat_continued,
    toNat_shiftRight_seven, UInt64.toNat_ofNat', UInt64.toNat_toUInt8, hplace, hnext, hgroup]
  rw [← Nat.or_mod_two_pow, shift_group]

/-! ## What a string of groups is worth -/

/-- The value of some groups, the lowest first, over the naturals. -/
def value : List UInt8 → ℕ
  | [] => 0
  | byte :: bytes => byte.toNat % 128 + 128 * value bytes

/-- An encoding: every byte says that another one follows, and the last one does not. -/
inductive IsEncoding : List UInt8 → Prop
  | last {byte : UInt8} : byte < 0x80 → IsEncoding [byte]
  | more {byte : UInt8} {bytes : List UInt8} :
      0x80 ≤ byte → IsEncoding bytes → IsEncoding (byte :: bytes)

theorem value_lt (bytes : List UInt8) : value bytes < 128 ^ bytes.length := by
  induction bytes with
  | nil => exact Nat.one_pos
  | cons byte bytes ih =>
      rw [value, List.length_cons, pow_succ]
      omega

theorem value_append (xs ys : List UInt8) :
    value (xs ++ ys) = value xs + 128 ^ xs.length * value ys := by
  induction xs with
  | nil => simp [value]
  | cons x xs ih =>
      rw [List.cons_append, value, value, ih, List.length_cons, pow_succ]
      ring

/-- An encoding taken apart: the bytes that continue it, and the one that ends it. -/
theorem isEncoding_iff {bytes : List UInt8} :
    IsEncoding bytes ↔
      ∃ more last, bytes = more ++ [last] ∧ (∀ byte ∈ more, 0x80 ≤ byte) ∧ last < 0x80 := by
  constructor
  · intro h
    induction h with
    | last hlast => exact ⟨[], _, rfl, by simp, hlast⟩
    | more hmore _ ih =>
        obtain ⟨more, last, rfl, hall, hlast⟩ := ih
        exact ⟨_ :: more, last, rfl, List.forall_mem_cons.mpr ⟨hmore, hall⟩, hlast⟩
  · rintro ⟨more, last, rfl, hall, hlast⟩
    induction more with
    | nil => exact .last hlast
    | cons byte more ih =>
        obtain ⟨hbyte, hmore⟩ := List.forall_mem_cons.mp hall
        exact .more hbyte (ih hmore)

/-- **One more group in its place**: over 64 bits it is added, and what does not fit is lost. -/
theorem toNat_or_group {acc : UInt64} {k : ℕ} (hacc : acc.toNat < 2 ^ k) (hk : k < 64)
    (byte : UInt8) :
    (acc ||| (byte &&& 0x7f).toUInt64 <<< UInt64.ofNat k).toNat =
      (acc.toNat + byte.toNat % 128 * 2 ^ k) % 2 ^ 64 := by
  have hplace : k % 2 ^ 64 % 64 = k := by omega
  have hsum : acc.toNat ||| (byte.toNat % 128) <<< k = acc.toNat + byte.toNat % 128 * 2 ^ k := by
    rw [Nat.or_comm, ← Nat.shiftLeft_add_eq_or_of_lt hacc, Nat.shiftLeft_eq, Nat.add_comm]
  rw [UInt64.toNat_or, UInt64.toNat_shiftLeft, toNat_low, UInt64.toNat_ofNat', hplace, ← hsum,
    Nat.or_mod_two_pow, Nat.mod_eq_of_lt acc.toNat_lt]

end Zkasper.Septets
