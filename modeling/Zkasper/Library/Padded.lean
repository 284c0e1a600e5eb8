import Zkasper.Library.Panics
import Mathlib.Algebra.GroupWithZero.Nat

/-! # Blobs at aligned offsets

A buffer that blobs of any length are written to one after another, each from an offset
that is a multiple of `a` on: after each of them the buffer is filled up to the next such
offset. A reader that knows the length of every blob finds all of them again, because
where a blob starts is where the ones before it end (`length_layout_concat`), and what is
written after it leaves it where it is (`slice_layout`). -/

namespace Padded

open Panics

variable {α : Type} {a n m : ℕ}

/-- The least multiple of `a` from `n` on. -/
def alignUp (a n : ℕ) : ℕ := (n + (a - 1)) / a * a

theorem dvd_alignUp (a n : ℕ) : a ∣ alignUp a n := Nat.dvd_mul_left a _

theorem alignUp_lt (n : ℕ) (ha : 0 < a) : alignUp a n < n + a := by
  have hle : alignUp a n ≤ n + (a - 1) := Nat.div_mul_le_self _ _
  omega

theorem le_alignUp (n : ℕ) (ha : 0 < a) : n ≤ alignUp a n := by
  have hlt : n + (a - 1) < ((n + (a - 1)) / a + 1) * a :=
    (Nat.div_lt_iff_lt_mul ha).mp (Nat.lt_succ_self _)
  rw [Nat.succ_mul] at hlt
  show n ≤ (n + (a - 1)) / a * a
  omega

/-- An offset that is aligned already is its own next one. -/
theorem alignUp_le (ha : 0 < a) (hle : n ≤ m) (hm : a ∣ m) : alignUp a n ≤ m := by
  obtain ⟨k, rfl⟩ := hm
  have hdiv : (n + (a - 1)) / a < k + 1 := by
    rw [Nat.div_lt_iff_lt_mul ha, Nat.succ_mul, Nat.mul_comm k]
    omega
  calc alignUp a n ≤ k * a := Nat.mul_le_mul_right a (Nat.lt_succ_iff.mp hdiv)
    _ = a * k := Nat.mul_comm k a

variable (a) (zero : α)

/-- The buffer filled up to the next aligned offset. -/
def pad (out : List α) : List α :=
  out ++ List.replicate (alignUp a out.length - out.length) zero

/-- The buffer after the blobs. -/
def layout (blobs : List (List α)) (out : List α) : List α :=
  blobs.foldl (fun out blob => pad a zero (out ++ blob)) out

variable {a}

theorem length_pad (ha : 0 < a) (out : List α) :
    (pad a zero out).length = alignUp a out.length := by
  rw [pad, List.length_append, List.length_replicate]
  exact Nat.add_sub_of_le (le_alignUp _ ha)

/-- A buffer that ends at an aligned offset has nothing to be filled up with. -/
theorem pad_of_dvd (ha : 0 < a) {out : List α} (h : a ∣ out.length) : pad a zero out = out := by
  have hle : alignUp a out.length ≤ out.length := alignUp_le ha le_rfl h
  rw [pad, Nat.sub_eq_zero_of_le hle, List.replicate_zero, List.append_nil]

theorem layout_concat (blobs : List (List α)) (blob out : List α) :
    layout a zero (blobs ++ [blob]) out = pad a zero (layout a zero blobs out ++ blob) := by
  rw [layout, List.foldl_append]
  rfl

/-- Where the next blob starts. -/
theorem length_layout_concat (ha : 0 < a) (blobs : List (List α)) (blob out : List α) :
    (layout a zero (blobs ++ [blob]) out).length =
      alignUp a ((layout a zero blobs out).length + blob.length) := by
  rw [layout_concat, length_pad zero ha, List.length_append]

/-- Blobs are only ever added behind what is there. -/
theorem prefix_layout (blobs : List (List α)) (out : List α) :
    out <+: layout a zero blobs out := by
  induction blobs generalizing out with
  | nil => exact List.prefix_refl out
  | cons blob blobs ih =>
      refine .trans ?_ (ih (pad a zero (out ++ blob)))
      rw [pad, List.append_assoc]
      exact List.prefix_append out _

/-- **A blob is found again** from the offset where the blobs before it end. -/
theorem slice_layout (before : List (List α)) (blob : List α) (after : List (List α))
    (out : List α) :
    slice (layout a zero (before ++ blob :: after) out) (layout a zero before out).length
      ((layout a zero before out).length + blob.length) = some blob := by
  have hsplit : layout a zero (before ++ blob :: after) out =
      layout a zero after (pad a zero (layout a zero before out ++ blob)) := by
    rw [layout, List.foldl_append]
    rfl
  obtain ⟨rest, hrest⟩ := prefix_layout (a := a) zero after
    (pad a zero (layout a zero before out ++ blob))
  rw [hsplit, ← hrest, pad, List.append_assoc, List.append_assoc]
  exact slice_middle rfl rfl

/-- What the blobs take up. -/
theorem length_layout_le (ha : 0 < a) (blobs : List (List α)) (out : List α) :
    (layout a zero blobs out).length ≤
      out.length + (blobs.map List.length).sum + a * blobs.length := by
  induction blobs generalizing out with
  | nil => exact Nat.le_refl _
  | cons blob blobs ih =>
      have hrest := ih (pad a zero (out ++ blob))
      have hlt := alignUp_lt (out ++ blob).length ha
      rw [length_pad zero ha] at hrest
      rw [List.length_append] at hrest hlt
      rw [List.map_cons, List.sum_cons, List.length_cons, Nat.mul_succ]
      exact hrest.trans (by omega)

/-- The buffer ends at an aligned offset. -/
theorem dvd_length_layout (ha : 0 < a) (blobs : List (List α)) {out : List α}
    (hout : a ∣ out.length) : a ∣ (layout a zero blobs out).length := by
  induction blobs generalizing out with
  | nil => exact hout
  | cons blob blobs ih =>
      apply ih
      rw [length_pad zero ha]
      exact dvd_alignUp a _

end Padded
