import Mathlib.Data.List.Basic
import Mathlib.Tactic.Common

/-! # Swap-or-not

A shuffle of `n` positions in rounds. A round mirrors the positions at a pivot (`flip`)
and asks a bit of each pair whether it trades places (`turn`), so it undoes itself, and
the rounds taken backwards undo the rounds (`back_forth`).

On a list a round is two runs of swaps from both ends of a stretch towards its middle
(`mirror`), one on each side of the pivot. What stands at a position after a round stood
at its turn before it (`round_getElem?`). -/

namespace Zkasper.SwapOrNot

/-! ## Positions -/

/-- The mirror image of a position, around the ring of `n`. -/
def flip (n pivot i : ℕ) : ℕ := (pivot + n - i) % n

/-- Where a round sends a position: both of a pair ask the bit of the larger one. -/
def turn (n pivot : ℕ) (bit : ℕ → Bool) (i : ℕ) : ℕ :=
  if bit (max i (flip n pivot i)) then flip n pivot i else i

section Positions

variable {n pivot i : ℕ} {bit : ℕ → Bool}

theorem flip_of_le (hpivot : pivot < n) (hi : i ≤ pivot) : flip n pivot i = pivot - i := by
  have hsum : pivot + n - i = pivot - i + n := by omega
  rw [flip, hsum, Nat.add_mod_right, Nat.mod_eq_of_lt (by omega)]

theorem flip_of_gt (hi : pivot < i) (hn : i < n) : flip n pivot i = pivot + n - i := by
  rw [flip, Nat.mod_eq_of_lt (by omega)]

theorem flip_lt (hpivot : pivot < n) : flip n pivot i < n :=
  Nat.mod_lt _ (by omega)

/-- **Mirroring twice** is nothing. -/
theorem flip_flip (hpivot : pivot < n) (hi : i < n) : flip n pivot (flip n pivot i) = i := by
  rcases Nat.lt_or_ge pivot i with hgt | hle
  · rw [flip_of_gt hgt hi, flip_of_gt (by omega) (by omega)]
    omega
  · rw [flip_of_le hpivot hle, flip_of_le hpivot (Nat.sub_le _ _)]
    omega

theorem turn_lt (hpivot : pivot < n) (hi : i < n) : turn n pivot bit i < n := by
  unfold turn
  split
  · exact flip_lt hpivot
  · exact hi

/-- **A round undoes itself.** -/
theorem turn_turn (hpivot : pivot < n) (hi : i < n) :
    turn n pivot bit (turn n pivot bit i) = i := by
  by_cases hbit : bit (max i (flip n pivot i)) = true
  · have hturn : turn n pivot bit i = flip n pivot i := if_pos hbit
    rw [hturn, turn, flip_flip hpivot hi, Nat.max_comm, if_pos hbit]
  · have hturn : turn n pivot bit i = i := if_neg hbit
    rw [hturn, hturn]

end Positions

/-! ## Rounds -/

section Rounds

variable {n : ℕ} {turns : ℕ → ℕ → ℕ}

/-- The first rounds, the earliest first. -/
def forth (turns : ℕ → ℕ → ℕ) (rounds i : ℕ) : ℕ :=
  (List.range rounds).foldl (fun i r => turns r i) i

/-- The same rounds, the latest first. -/
def back (turns : ℕ → ℕ → ℕ) (rounds i : ℕ) : ℕ :=
  (List.range rounds).reverse.foldl (fun i r => turns r i) i

theorem forth_succ (rounds i : ℕ) :
    forth turns (rounds + 1) i = turns rounds (forth turns rounds i) := by
  simp [forth, List.range_succ]

theorem back_succ (rounds i : ℕ) :
    back turns (rounds + 1) i = back turns rounds (turns rounds i) := by
  simp [back, List.range_succ]

theorem forth_lt (hlt : ∀ r i, i < n → turns r i < n) :
    ∀ (rounds : ℕ) {i : ℕ}, i < n → forth turns rounds i < n := by
  intro rounds
  induction rounds with
  | zero => exact fun hi => hi
  | succ rounds ih =>
      intro i hi
      rw [forth_succ]
      exact hlt _ _ (ih hi)

theorem back_lt (hlt : ∀ r i, i < n → turns r i < n) :
    ∀ (rounds : ℕ) {i : ℕ}, i < n → back turns rounds i < n := by
  intro rounds
  induction rounds with
  | zero => exact fun hi => hi
  | succ rounds ih =>
      intro i hi
      rw [back_succ]
      exact ih (hlt _ _ hi)

/-- **Backwards and forth again** is nothing, where every round undoes itself. -/
theorem forth_back (hlt : ∀ r i, i < n → turns r i < n)
    (hturn : ∀ r i, i < n → turns r (turns r i) = i) :
    ∀ (rounds : ℕ) {i : ℕ}, i < n → forth turns rounds (back turns rounds i) = i := by
  intro rounds
  induction rounds with
  | zero => exact fun _ => rfl
  | succ rounds ih =>
      intro i hi
      rw [forth_succ, back_succ, ih (hlt _ _ hi), hturn _ _ hi]

theorem back_forth (hlt : ∀ r i, i < n → turns r i < n)
    (hturn : ∀ r i, i < n → turns r (turns r i) = i) :
    ∀ (rounds : ℕ) {i : ℕ}, i < n → back turns rounds (forth turns rounds i) = i := by
  intro rounds
  induction rounds with
  | zero => exact fun _ => rfl
  | succ rounds ih =>
      intro i hi
      rw [forth_succ, back_succ, hturn _ _ (forth_lt hlt rounds hi), ih hi]

end Rounds

/-! ## Lists -/

section Lists

variable {α : Type} {xs : List α} {bit : ℕ → Bool}

/-- Two elements trade places. -/
def swap (xs : List α) (i j : ℕ) : List α :=
  match xs[i]?, xs[j]? with
  | some a, some b => (xs.set i b).set j a
  | _, _ => xs

@[simp] theorem length_swap (i j : ℕ) : (swap xs i j).length = xs.length := by
  unfold swap
  split
  · rw [List.length_set, List.length_set]
  · rfl

theorem swap_getElem? {i j : ℕ} (hi : i < xs.length) (hj : j < xs.length) (k : ℕ) :
    (swap xs i j)[k]? = if k = j then xs[i]? else if k = i then xs[j]? else xs[k]? := by
  have hi' : xs[i]? = some xs[i] := List.getElem?_eq_getElem hi
  have hj' : xs[j]? = some xs[j] := List.getElem?_eq_getElem hj
  simp only [swap, hi', hj']
  by_cases hkj : k = j
  · subst hkj
    rw [List.getElem?_set_self (by rw [List.length_set]; exact hj), if_pos rfl]
  · rw [List.getElem?_set_ne (Ne.symm hkj), if_neg hkj]
    by_cases hki : k = i
    · subst hki
      rw [List.getElem?_set_self hi, if_pos rfl]
    · rw [List.getElem?_set_ne (Ne.symm hki), if_neg hki]

/-- `count` pairs, from both ends of the stretch between `i` and `j`. -/
def mirror (bit : ℕ → Bool) (i j count : ℕ) (xs : List α) : List α :=
  (List.range count).foldl (fun xs t => if bit (j - t) then swap xs (i + t) (j - t) else xs) xs

theorem mirror_succ (i j count : ℕ) : mirror bit i j (count + 1) xs =
    if bit (j - count) then swap (mirror bit i j count xs) (i + count) (j - count)
    else mirror bit i j count xs := by
  simp [mirror, List.range_succ]

@[simp] theorem length_mirror (i j count : ℕ) : (mirror bit i j count xs).length = xs.length := by
  induction count with
  | zero => rfl
  | succ count ih =>
      rw [mirror_succ]
      split
      · rw [length_swap, ih]
      · exact ih

/-- What some pairs from both ends have done, while the ends have not met. -/
theorem mirror_getElem? {i j : ℕ} (hj : j < xs.length) : ∀ {count : ℕ},
    i + 2 * count ≤ j + 1 → ∀ k, (mirror bit i j count xs)[k]? =
      if (i ≤ k ∧ k < i + count ∨ j < k + count ∧ k ≤ j) ∧ bit (max k (i + j - k)) = true
      then xs[i + j - k]? else xs[k]? := by
  intro count
  induction count with
  | zero =>
      intro _ k
      rw [if_neg (by omega)]
      rfl
  | succ count ih =>
      intro hmeet k
      have ih' := ih (by omega)
      -- the next pair lies between those that were swapped, so both are still in place
      have hleft : (mirror bit i j count xs)[i + count]? = xs[i + count]? := by
        rw [ih', if_neg (by omega)]
      have hright : (mirror bit i j count xs)[j - count]? = xs[j - count]? := by
        rw [ih', if_neg (by omega)]
      have hother : k ≠ i + count → k ≠ j - count →
          ((i ≤ k ∧ k < i + (count + 1) ∨ j < k + (count + 1) ∧ k ≤ j) ↔
            (i ≤ k ∧ k < i + count ∨ j < k + count ∧ k ≤ j)) := by
        intro h1 h2
        omega
      have hmaxl : max (i + count) (i + j - (i + count)) = j - count := by omega
      have hmaxr : max (j - count) (i + j - (j - count)) = j - count := by omega
      rw [mirror_succ]
      by_cases hbit : bit (j - count) = true
      · rw [if_pos hbit, swap_getElem? (by rw [length_mirror]; omega) (by rw [length_mirror]; omega),
          hleft, hright]
        -- three kinds of places: the two of this pair, and every other
        by_cases hkr : k = j - count
        · subst hkr
          rw [if_pos rfl, hmaxr, if_pos ⟨by omega, hbit⟩]
          congr 1
          omega
        · by_cases hkl : k = i + count
          · subst hkl
            rw [if_neg hkr, if_pos rfl, hmaxl, if_pos ⟨by omega, hbit⟩]
            congr 1
            omega
          · rw [if_neg hkr, if_neg hkl, ih']
            simp only [hother hkl hkr]
      · rw [if_neg hbit, ih']
        by_cases hkr : k = j - count
        · subst hkr
          rw [hmaxr, if_neg fun h => hbit h.2, if_neg fun h => hbit h.2]
        · by_cases hkl : k = i + count
          · subst hkl
            rw [hmaxl, if_neg fun h => hbit h.2, if_neg fun h => hbit h.2]
          · simp only [hother hkl hkr]

/-- Half of a stretch is all of its pairs. -/
theorem mirror_half {i j : ℕ} (hj : j < xs.length) (k : ℕ) :
    (mirror bit i j ((j + 1 - i) / 2) xs)[k]? =
      if i ≤ k ∧ k ≤ j ∧ bit (max k (i + j - k)) = true then xs[i + j - k]? else xs[k]? := by
  rcases Nat.lt_or_ge j i with hempty | hle
  · have hzero : (j + 1 - i) / 2 = 0 := by omega
    rw [hzero, if_neg (by omega)]
    rfl
  rw [mirror_getElem? hj (by omega)]
  by_cases hmid : 2 * k = i + j
  · have hself : i + j - k = k := by omega
    rw [hself, ite_self, ite_self]
  · have hiff : (i ≤ k ∧ k < i + (j + 1 - i) / 2 ∨ j < k + (j + 1 - i) / 2 ∧ k ≤ j) ↔
        i ≤ k ∧ k ≤ j := by omega
    simp only [hiff, and_assoc]

/-- One round: the stretch up to the pivot, and the one behind it. -/
def round (bit : ℕ → Bool) (pivot : ℕ) (xs : List α) : List α :=
  mirror bit (pivot + 1) (xs.length - 1) ((xs.length - (pivot + 1)) / 2)
    (mirror bit 0 pivot ((pivot + 1) / 2) xs)

@[simp] theorem length_round (pivot : ℕ) : (round bit pivot xs).length = xs.length := by
  rw [round, length_mirror, length_mirror]

/-- **A round of swaps is a turn of positions.** -/
theorem round_getElem? {pivot : ℕ} (hpivot : pivot < xs.length) {k : ℕ} (hk : k < xs.length) :
    (round bit pivot xs)[k]? = xs[turn xs.length pivot bit k]? := by
  have hfirst (k : ℕ) : (mirror bit 0 pivot ((pivot + 1) / 2) xs)[k]? =
      if 0 ≤ k ∧ k ≤ pivot ∧ bit (max k (0 + pivot - k)) = true then xs[0 + pivot - k]?
      else xs[k]? := mirror_half hpivot k
  have hcount : (xs.length - (pivot + 1)) / 2 = (xs.length - 1 + 1 - (pivot + 1)) / 2 := by
    congr 1
    omega
  rw [round, hcount, mirror_half (by rw [length_mirror]; omega), turn]
  rcases Nat.lt_or_ge pivot k with hgt | hle
  · have hsum : pivot + 1 + (xs.length - 1) - k = pivot + xs.length - k := by omega
    rw [hsum, flip_of_gt hgt hk]
    by_cases hbit : bit (max k (pivot + xs.length - k)) = true
    · rw [if_pos ⟨hgt, by omega, hbit⟩, if_pos hbit, hfirst, if_neg (by omega)]
    · rw [if_neg fun h => hbit h.2.2, if_neg hbit, hfirst, if_neg (by omega)]
  · rw [if_neg (by omega), hfirst, flip_of_le hpivot hle, Nat.zero_add]
    by_cases hbit : bit (max k (pivot - k)) = true
    · rw [if_pos ⟨Nat.zero_le _, hle, hbit⟩, if_pos hbit]
    · rw [if_neg fun h => hbit h.2.2, if_neg hbit]

/-- **A round of swaps undoes itself** too. -/
theorem round_round {pivot : ℕ} (hpivot : pivot < xs.length) :
    round bit pivot (round bit pivot xs) = xs := by
  have hpivot' : pivot < (round bit pivot xs).length := by rwa [length_round]
  apply List.ext_getElem?
  intro k
  rcases Nat.lt_or_ge k xs.length with hk | hk
  · have hturn : turn xs.length pivot bit k < xs.length := turn_lt hpivot hk
    rw [round_getElem? hpivot' (by rwa [length_round]), length_round, round_getElem? hpivot hturn,
      turn_turn hpivot hk]
  · rw [List.getElem?_eq_none (by simpa using hk), List.getElem?_eq_none hk]

/-! ### Nothing is lost -/

theorem swap_perm (i j : ℕ) : (swap xs i j).Perm xs := by
  unfold swap
  split
  · next a b hi hj =>
      obtain ⟨hilt, rfl⟩ := List.getElem?_eq_some_iff.mp hi
      obtain ⟨hjlt, rfl⟩ := List.getElem?_eq_some_iff.mp hj
      exact List.set_set_perm hilt hjlt
  · exact List.Perm.refl _

theorem mirror_perm (i j count : ℕ) : (mirror bit i j count xs).Perm xs := by
  induction count with
  | zero => exact List.Perm.refl _
  | succ count ih =>
      rw [mirror_succ]
      split
      · exact (swap_perm _ _).trans ih
      · exact ih

theorem round_perm (pivot : ℕ) : (round bit pivot xs).Perm xs :=
  (mirror_perm _ _ _).trans (mirror_perm _ _ _)

end Lists

/-! ## A whole shuffle -/

section Shuffle

variable {α : Type} {bits : ℕ → ℕ → Bool} {pivots : ℕ → ℕ}

/-- The rounds on a list, the latest first. -/
def shuffle (bits : ℕ → ℕ → Bool) (pivots : ℕ → ℕ) (rounds : ℕ) (xs : List α) : List α :=
  (List.range rounds).reverse.foldl (fun xs r => round (bits r) (pivots r) xs) xs

theorem shuffle_succ (rounds : ℕ) (xs : List α) : shuffle bits pivots (rounds + 1) xs =
    shuffle bits pivots rounds (round (bits rounds) (pivots rounds) xs) := by
  simp [shuffle, List.range_succ]

@[simp] theorem length_shuffle (rounds : ℕ) : ∀ xs : List α,
    (shuffle bits pivots rounds xs).length = xs.length := by
  induction rounds with
  | zero => exact fun _ => rfl
  | succ rounds ih =>
      intro xs
      rw [shuffle_succ, ih, length_round]

/-- **Where an element comes from**: the rounds on the list, taken backwards, are the
rounds on the position, taken forth. -/
theorem shuffle_getElem? : ∀ (rounds : ℕ) {xs : List α}, (∀ r, pivots r < xs.length) →
    ∀ {k : ℕ}, k < xs.length → (shuffle bits pivots rounds xs)[k]? =
      xs[forth (fun r => turn xs.length (pivots r) (bits r)) rounds k]? := by
  intro rounds
  induction rounds with
  | zero => exact fun _ _ _ => rfl
  | succ rounds ih =>
      intro xs hpivots k hk
      have hlength : (round (bits rounds) (pivots rounds) xs).length = xs.length :=
        length_round (pivots rounds)
      rw [shuffle_succ, ih (by rw [hlength]; exact hpivots) (by rw [hlength]; exact hk), hlength,
        forth_succ, round_getElem? (hpivots rounds)]
      exact forth_lt (fun r i hi => turn_lt (hpivots r) hi) rounds hk

/-- The rounds on a list, the earliest first. -/
def unshuffle (bits : ℕ → ℕ → Bool) (pivots : ℕ → ℕ) (rounds : ℕ) (xs : List α) : List α :=
  (List.range rounds).foldl (fun xs r => round (bits r) (pivots r) xs) xs

theorem unshuffle_succ (rounds : ℕ) (xs : List α) : unshuffle bits pivots (rounds + 1) xs =
    round (bits rounds) (pivots rounds) (unshuffle bits pivots rounds xs) := by
  simp [unshuffle, List.range_succ]

@[simp] theorem length_unshuffle (rounds : ℕ) (xs : List α) :
    (unshuffle bits pivots rounds xs).length = xs.length := by
  induction rounds with
  | zero => rfl
  | succ rounds ih => rw [unshuffle_succ, length_round, ih]

/-- **The rounds forth undo the rounds back**. -/
theorem unshuffle_shuffle (rounds : ℕ) : ∀ {xs : List α}, (∀ r, pivots r < xs.length) →
    unshuffle bits pivots rounds (shuffle bits pivots rounds xs) = xs := by
  induction rounds with
  | zero => exact fun _ => rfl
  | succ rounds ih =>
      intro xs hpivots
      rw [unshuffle_succ, shuffle_succ, ih (by rw [length_round]; exact hpivots)]
      exact round_round (hpivots rounds)

theorem shuffle_unshuffle (rounds : ℕ) {xs : List α} (hpivots : ∀ r, pivots r < xs.length) :
    shuffle bits pivots rounds (unshuffle bits pivots rounds xs) = xs := by
  induction rounds with
  | zero => rfl
  | succ rounds ih =>
      rw [shuffle_succ, unshuffle_succ, round_round (by rw [length_unshuffle]; exact hpivots rounds),
        ih]

theorem shuffle_perm (rounds : ℕ) : ∀ xs : List α, (shuffle bits pivots rounds xs).Perm xs := by
  induction rounds with
  | zero => exact fun _ => List.Perm.refl _
  | succ rounds ih =>
      intro xs
      rw [shuffle_succ]
      exact (ih _).trans (round_perm _)

theorem unshuffle_perm (rounds : ℕ) (xs : List α) : (unshuffle bits pivots rounds xs).Perm xs := by
  induction rounds with
  | zero => exact List.Perm.refl _
  | succ rounds ih =>
      rw [unshuffle_succ]
      exact (round_perm _).trans ih

end Shuffle

end Zkasper.SwapOrNot
