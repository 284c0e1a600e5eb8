import Mathlib.Data.UInt
import Mathlib.Data.List.OfFn
import Mathlib.Tactic.Common
import Mathlib.Tactic.NormNum

/-! # Words cut anew

A string of bits is held in 64-bit words, the low bit of the first word first. A window of
another width is cut out of it with shifts: from the word it begins in, and where it runs over
the end of that word, from the next one. A window is the bits it covers and nothing else
(`testBit_window`), and words are their bits (`ext_bitAt`), so windows that tile the string
lose nothing of it (`eq_of_windows`). -/

namespace Zkasper.Recut

/-- Bit `k` of some words laid end to end; past the last of them every bit is clear. -/
def bitAt (words : List UInt64) (k : ℕ) : Bool := (words.getD (k / 64) 0).toNat.testBit (k % 64)

/-- The window of some width, below 64, that begins at a bit. -/
def window (width : ℕ) (words : List UInt64) (bit : ℕ) : UInt64 :=
  let limb := bit / 64
  let offset := bit % 64
  let v := words.getD limb 0 >>> UInt64.ofNat offset
  let v := if offset + width > 64 ∧ limb + 1 < words.length then
      v ||| words.getD (limb + 1) 0 <<< UInt64.ofNat (64 - offset) else v
  v &&& UInt64.ofNat (2 ^ width - 1)

variable {words words' : List UInt64} {width bit : ℕ}

/-! ## Shifts and masks, over the naturals -/

theorem toNat_shiftRight_ofNat (v : UInt64) {n : ℕ} (hn : n < 64) :
    (v >>> UInt64.ofNat n).toNat = v.toNat >>> n := by
  rw [UInt64.toNat_shiftRight, UInt64.toNat_ofNat']
  congr 1
  omega

theorem toNat_shiftLeft_ofNat (v : UInt64) {n : ℕ} (hn : n < 64) :
    (v <<< UInt64.ofNat n).toNat = v.toNat <<< n % 2 ^ 64 := by
  have hplace : n % 2 ^ 64 % 64 = n := by omega
  rw [UInt64.toNat_shiftLeft, UInt64.toNat_ofNat', hplace]

theorem toNat_and_mask (v : UInt64) (hwidth : width < 64) :
    (v &&& UInt64.ofNat (2 ^ width - 1)).toNat = v.toNat % 2 ^ width := by
  have hmask : 2 ^ width - 1 < 2 ^ 64 := by
    have := Nat.pow_lt_pow_right Nat.one_lt_two hwidth
    omega
  rw [UInt64.toNat_and, UInt64.toNat_ofNat', Nat.mod_eq_of_lt hmask,
    Nat.and_two_pow_sub_one_eq_mod]

/-- A word has no bit past its sixty-fourth. -/
theorem testBit_of_le (v : UInt64) {n : ℕ} (hn : 64 ≤ n) : v.toNat.testBit n = false :=
  Nat.testBit_lt_two_pow (v.toNat_lt.trans_le (Nat.pow_le_pow_right Nat.two_pos hn))

theorem bitAt_of_le {k : ℕ} (hk : 64 * words.length ≤ k) : bitAt words k = false := by
  have hlength : words.length ≤ k / 64 := by omega
  rw [bitAt, List.getD_eq_getElem?_getD, List.getElem?_eq_none hlength]
  exact Nat.zero_testBit _

/-! ## Windows -/

theorem window_lt (words : List UInt64) (bit : ℕ) (hwidth : width < 64) :
    (window width words bit).toNat < 2 ^ width := by
  unfold window
  rw [toNat_and_mask _ hwidth]
  exact Nat.mod_lt _ (Nat.two_pow_pos width)

/-- **A window is the bits it covers.** -/
theorem testBit_window (hwidth : width < 64) {j : ℕ} (hj : j < width) :
    (window width words bit).toNat.testBit j = bitAt words (bit + j) := by
  have hoffset : bit % 64 < 64 := Nat.mod_lt _ (by norm_num)
  unfold window
  rw [toNat_and_mask _ hwidth, Nat.testBit_mod_two_pow, decide_eq_true hj, Bool.true_and]
  rcases Nat.lt_or_ge (bit % 64 + j) 64 with hhere | hnext
  · -- the bit is in the word the window begins in
    have hlimb : (bit + j) / 64 = bit / 64 := by omega
    have hplace : (bit + j) % 64 = bit % 64 + j := by omega
    rw [bitAt, hlimb, hplace]
    split
    · next hover =>
        rw [UInt64.toNat_or, Nat.testBit_or, toNat_shiftRight_ofNat _ hoffset,
          Nat.testBit_shiftRight, toNat_shiftLeft_ofNat _ (by omega), Nat.testBit_mod_two_pow,
          Nat.testBit_shiftLeft, decide_eq_false (by omega : ¬ 64 - bit % 64 ≤ j)]
        simp
    · rw [toNat_shiftRight_ofNat _ hoffset, Nat.testBit_shiftRight]
  · -- it is in the next one, if there is one
    have hlimb : (bit + j) / 64 = bit / 64 + 1 := by omega
    have hplace : (bit + j) % 64 = j - (64 - bit % 64) := by omega
    split
    · next hover =>
        rw [UInt64.toNat_or, Nat.testBit_or, toNat_shiftRight_ofNat _ hoffset,
          Nat.testBit_shiftRight, testBit_of_le _ hnext, toNat_shiftLeft_ofNat _ (by omega),
          Nat.testBit_mod_two_pow, Nat.testBit_shiftLeft,
          decide_eq_true (by omega : 64 - bit % 64 ≤ j), decide_eq_true (by omega : j < 64), bitAt,
          hlimb, hplace]
        simp
    · next hover =>
        rw [toNat_shiftRight_ofNat _ hoffset, Nat.testBit_shiftRight, testBit_of_le _ hnext,
          bitAt_of_le (by omega)]

/-! ## Tilings -/

/-- Words are their bits. -/
theorem ext_bitAt (hlength : words.length = words'.length)
    (h : ∀ k < 64 * words.length, bitAt words k = bitAt words' k) : words = words' := by
  apply List.ext_getElem hlength
  intro i hi hi'
  apply UInt64.toNat_inj.mp
  apply Nat.eq_of_testBit_eq
  intro j
  rcases Nat.lt_or_ge j 64 with hj | hj
  · have hbit := h (64 * i + j) (by omega)
    have hlimb : (64 * i + j) / 64 = i := by omega
    have hplace : (64 * i + j) % 64 = j := by omega
    rw [bitAt, bitAt, hlimb, hplace, List.getD_eq_getElem?_getD, List.getD_eq_getElem?_getD,
      List.getElem?_eq_getElem hi, List.getElem?_eq_getElem hi'] at hbit
    exact hbit
  · rw [testBit_of_le _ hj, testBit_of_le _ hj]

/-- **Windows that tile the words determine them.** -/
theorem eq_of_windows {count : ℕ} (hwidth : width < 64) (hlength : words.length = words'.length)
    (htile : 64 * words.length ≤ count * width)
    (h : ∀ i < count, window width words (i * width) = window width words' (i * width)) :
    words = words' := by
  apply ext_bitAt hlength
  intro k hk
  have hpos : 0 < width := by
    rcases Nat.eq_zero_or_pos width with rfl | hpos
    · omega
    · exact hpos
  have hi : k / width < count := (Nat.div_lt_iff_lt_mul hpos).mpr (by omega)
  have hj : k % width < width := Nat.mod_lt _ hpos
  have hk : k / width * width + k % width = k := Nat.div_add_mod' k width
  rw [← hk, ← testBit_window hwidth hj, ← testBit_window hwidth hj, h _ hi]

end Zkasper.Recut
