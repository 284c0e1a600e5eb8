import Mathlib.Data.List.Basic
import Mathlib.Data.List.OfFn
import Mathlib.Tactic.Common

/-! # Lists cut into pieces of one length

A list whose length is a multiple of `n` is the pieces of length `n` it is cut into, and
nothing else is: cutting undoes joining (`chunks_flatten`) and joining undoes cutting
(`flatten_chunks`). -/

namespace Zkasper.Chunks

variable {α : Type} {n : ℕ}

/-- The pieces of length `n` of a list, as many as fit. -/
def chunks (n : ℕ) (xs : List α) : List (List α) :=
  (List.range (xs.length / n)).map fun i => (xs.drop (i * n)).take n

/-- The first pieces, joined, are the front of the list. -/
theorem flatten_map_range (xs : List α) (n k : ℕ) :
    ((List.range k).map fun i => (xs.drop (i * n)).take n).flatten = xs.take (k * n) := by
  induction k with
  | zero => simp
  | succ k ih =>
      rw [List.range_succ, List.map_append, List.flatten_append, ih, Nat.succ_mul, List.take_add]
      simp

theorem flatten_chunks {xs : List α} (h : xs.length % n = 0) : (chunks n xs).flatten = xs := by
  rw [chunks, flatten_map_range, Nat.div_mul_cancel (Nat.dvd_of_mod_eq_zero h), List.take_length]

theorem length_of_mem_chunks {xs piece : List α} (h : piece ∈ chunks n xs) :
    piece.length = n := by
  obtain ⟨i, hi, rfl⟩ := List.mem_map.mp h
  have hlt : i < xs.length / n := List.mem_range.mp hi
  have hfits : (i + 1) * n ≤ xs.length :=
    (Nat.mul_le_mul_right n hlt).trans (Nat.div_mul_le_self _ _)
  rw [Nat.succ_mul] at hfits
  rw [List.length_take, List.length_drop]
  omega

theorem length_flatten {pieces : List (List α)} (h : ∀ piece ∈ pieces, piece.length = n) :
    pieces.flatten.length = pieces.length * n := by
  induction pieces with
  | nil => rw [List.flatten_nil, List.length_nil, List.length_nil, Nat.zero_mul]
  | cons piece pieces ih =>
      obtain ⟨hpiece, hpieces⟩ := List.forall_mem_cons.mp h
      rw [List.flatten_cons, List.length_append, hpiece, ih hpieces, List.length_cons,
        Nat.succ_mul, Nat.add_comm]

/-- **Cutting undoes joining**, where the pieces have one length. -/
theorem chunks_flatten (hn : n ≠ 0) {pieces : List (List α)}
    (h : ∀ piece ∈ pieces, piece.length = n) : chunks n pieces.flatten = pieces := by
  rw [chunks, length_flatten h, Nat.mul_div_cancel _ (Nat.pos_of_ne_zero hn)]
  induction pieces with
  | nil => rfl
  | cons piece pieces ih =>
      obtain ⟨hpiece, hpieces⟩ := List.forall_mem_cons.mp h
      rw [List.length_cons, List.range_succ_eq_map, List.map_cons, List.map_map]
      congr 1
      · rw [Nat.zero_mul, List.drop_zero, List.flatten_cons,
          List.take_append_of_le_length hpiece.ge]
        exact List.take_of_length_le hpiece.le
      · refine (List.map_congr_left fun i _ => ?_).trans (ih hpieces)
        have hdrop :
            (piece ++ pieces.flatten).drop ((i + 1) * n) = pieces.flatten.drop (i * n) := by
          rw [Nat.succ_mul, Nat.add_comm, ← hpiece, List.drop_length_add_append]
        rw [Function.comp_apply, List.flatten_cons, hdrop]

/-- Elements written at one width are read back piece by piece. -/
theorem map_chunks_flatMap {β : Type} (hn : n ≠ 0) {write : β → List α} {read : List α → β}
    {xs : List β} (hwidth : ∀ x ∈ xs, (write x).length = n) (hread : ∀ x ∈ xs, read (write x) = x) :
    (chunks n (xs.flatMap write)).map read = xs := by
  rw [List.flatMap_def, chunks_flatten hn (List.forall_mem_map.mpr hwidth), List.map_map]
  exact (List.map_congr_left hread).trans (List.map_id xs)

/-- Pieces that are written as they were read are the list again. -/
theorem flatMap_map_chunks {β : Type} {write : β → List α} {read : List α → β} {xs : List α}
    (hxs : xs.length % n = 0) (hwrite : ∀ piece, piece.length = n → write (read piece) = piece) :
    ((chunks n xs).map read).flatMap write = xs := by
  have hpieces : (chunks n xs).map (write ∘ read) = (chunks n xs).map id :=
    List.map_congr_left fun piece hpiece => hwrite piece (length_of_mem_chunks hpiece)
  rw [List.flatMap_def, List.map_map, hpieces, List.map_id, flatten_chunks hxs]

/-- A list that is read off by `getD` is the list it was. -/
theorem ofFn_getD {xs : List α} (h : xs.length = n) (default : α) :
    List.ofFn (fun i : Fin n => xs.getD i default) = xs := by
  subst h
  apply List.ext_getElem
  · rw [List.length_ofFn]
  · intro i hi hi'
    rw [List.getElem_ofFn]
    exact (List.getElem_eq_getD default).symm

theorem map_range_getD {xs : List α} (h : xs.length = n) (default : α) :
    (List.range n).map (fun i => xs.getD i default) = xs := by
  subst h
  apply List.ext_getElem
  · rw [List.length_map, List.length_range]
  · intro i hi hi'
    rw [List.getElem_map, List.getElem_range]
    exact (List.getElem_eq_getD default).symm

theorem getD_ofFn (f : Fin n → α) (default : α) (i : Fin n) :
    (List.ofFn f).getD i default = f i := by
  have hlt : (i : ℕ) < (List.ofFn f).length := by
    rw [List.length_ofFn]
    exact i.isLt
  rw [← List.getElem_eq_getD (h := hlt) default, List.getElem_ofFn]

end Zkasper.Chunks
