import Zkasper.Fcr.Shuffle

/-! # The shuffle of one index

The consensus specification shuffles one index at a time (`computeShuffledIndex`), and the
guest a list at once. The loop of the source over the rounds counts them in a byte and stops
on reaching the last one: from any number of rounds but zero it stops after exactly that many,
backwards or forwards (`runShuffle_eq`).

Backwards, what comes to stand at a position stood at the shuffled index of the position, and
each of the two directions undoes the other (`shuffle_list_exact`). -/

namespace Zkasper.Fcr

section ShuffledIndex

variable (sha256 : List UInt8 → Bytes 32) (seed : Bytes 32)

/-! ## The specification -/

/-- One round of the specification's `compute_shuffled_index`. -/
def shuffledIndexRound (indexCount index currentRound : ℕ) : ℕ :=
  let pivot := fromLeBytes ((sha256 (seed.val ++ [UInt8.ofNat currentRound])).val.take 8) % indexCount
  let flip := (pivot + indexCount - index) % indexCount
  let position := max index flip
  let source := sha256 (seed.val ++ [UInt8.ofNat currentRound] ++ leBytes 4 (position / 256))
  let byte := source.val.getD (position % 256 / 8) 0
  let bit := (byte >>> UInt8.ofNat (position % 8)) % 2
  if bit = 1 then flip else index

/-- The specification's `compute_shuffled_index`, with the number of rounds to take. -/
def computeShuffledIndex (index indexCount shuffleRoundCount : ℕ) : ℕ :=
  (List.range shuffleRoundCount).foldl (shuffledIndexRound sha256 seed indexCount) index

/-! ## The loop over the rounds -/

/-- The loop of `shuffle_list`, its counter a byte; it breaks before the fuel is used up. -/
def shuffleLoop (rounds : UInt8) (forwards : Bool) :
    ℕ → UInt8 → List UInt32 → Option (List UInt32)
  | 0, _, _ => none
  | fuel + 1, r, input =>
      let input := listRound sha256 seed input r.toNat
      if forwards then
        if r + 1 = rounds then some input else shuffleLoop rounds forwards fuel (r + 1) input
      else if r = 0 then some input else shuffleLoop rounds forwards fuel (r - 1) input

/-- `shuffle_list` as the source runs it. A byte counts to at most 256. -/
def runShuffle (input : List UInt32) (rounds : UInt8) (forwards : Bool) : Option (List UInt32) :=
  if input.length = 0 then some input
  else shuffleLoop sha256 seed rounds forwards 256 (if forwards then 0 else rounds - 1) input

variable {sha256 seed}

theorem shuffleLoop_backwards (rounds : UInt8) : ∀ {fuel : ℕ} {r : UInt8}, r.toNat < fuel →
    ∀ input : List UInt32, shuffleLoop sha256 seed rounds false fuel r input =
      some ((List.range (r.toNat + 1)).reverse.foldl (listRound sha256 seed) input) := by
  intro fuel
  induction fuel with
  | zero => exact fun h => absurd h (Nat.not_lt_zero _)
  | succ fuel ih =>
      intro r hr input
      rw [shuffleLoop, if_neg Bool.false_ne_true]
      split
      · next hzero =>
          subst hzero
          rfl
      · next hzero =>
          have hpos : r.toNat ≠ 0 := fun h => hzero (UInt8.toNat_inj.mp h)
          have hprev : (r - 1).toNat + 1 = r.toNat := by
            rw [UInt8.toNat_sub_of_le _ _ (UInt8.le_iff_toNat_le.mpr (by show 1 ≤ r.toNat; omega))]
            show r.toNat - 1 + 1 = r.toNat
            omega
          rw [ih (by omega), hprev, List.range_succ (n := r.toNat), List.reverse_append]
          rfl

theorem shuffleLoop_forwards {rounds : UInt8} : ∀ {fuel : ℕ} {r : UInt8}, r < rounds →
    rounds.toNat ≤ r.toNat + fuel → ∀ input : List UInt32,
      shuffleLoop sha256 seed rounds true fuel r input =
        some ((List.range' r.toNat (rounds.toNat - r.toNat)).foldl (listRound sha256 seed) input) := by
  intro fuel
  induction fuel with
  | zero =>
      intro r hr hfuel
      have := UInt8.lt_iff_toNat_lt.mp hr
      omega
  | succ fuel ih =>
      intro r hr hfuel input
      have hlt := UInt8.lt_iff_toNat_lt.mp hr
      have hnext : (r + 1).toNat = r.toNat + 1 := by
        rw [UInt8.toNat_add]
        have := rounds.toNat_lt
        show (r.toNat + 1) % 2 ^ 8 = r.toNat + 1
        omega
      rw [shuffleLoop, if_pos rfl]
      split
      · next hlast =>
          have hcount : rounds.toNat - r.toNat = 1 := by
            rw [← hlast, hnext]
            omega
          rw [hcount]
          rfl
      · next hmore =>
          have hne : rounds.toNat ≠ r.toNat + 1 := by
            intro h
            exact hmore (UInt8.toNat_inj.mp (hnext.trans h.symm))
          have hcount : rounds.toNat - r.toNat = rounds.toNat - (r.toNat + 1) + 1 := by omega
          rw [ih (UInt8.lt_iff_toNat_lt.mpr (by omega)) (by omega), hnext, hcount,
            List.range'_succ]
          rfl

/-- **The loop stops**, after exactly as many rounds as it is asked for. -/
theorem runShuffle_eq (input : List UInt32) {rounds : UInt8} (hrounds : 1 ≤ rounds)
    (forwards : Bool) : runShuffle sha256 seed input rounds forwards =
      some (shuffleList sha256 seed input rounds.toNat forwards) := by
  have hpos : 1 ≤ rounds.toNat := UInt8.le_iff_toNat_le.mp hrounds
  have hbyte := rounds.toNat_lt
  unfold runShuffle shuffleList
  split
  · rfl
  · cases forwards with
    | true =>
        have hfirst : (0 : UInt8) < rounds := UInt8.lt_iff_toNat_lt.mpr hpos
        have hfuel : rounds.toNat ≤ (0 : UInt8).toNat + 256 := by
          show rounds.toNat ≤ 0 + 256
          omega
        rw [if_pos rfl, if_pos rfl, shuffleLoop_forwards hfirst hfuel, List.range_eq_range']
        rfl
    | false =>
        have hlast : (rounds - 1).toNat + 1 = rounds.toNat := by
          rw [UInt8.toNat_sub_of_le _ _ hrounds]
          show rounds.toNat - 1 + 1 = rounds.toNat
          omega
        rw [if_neg Bool.false_ne_true, if_neg Bool.false_ne_true,
          shuffleLoop_backwards rounds (by omega), hlast]

/-! ## Both directions -/

theorem sourceBit_eq (byte : UInt8) (position : ℕ) :
    sourceBit byte position = decide ((byte >>> UInt8.ofNat (position % 8)) % 2 = 1) := by
  have hlow : ∀ b : UInt8, (b &&& 1 == 1) = decide (b % 2 = 1) := by
    intro b
    have h := (by decide +kernel :
      ∀ n : Fin 256, (UInt8.ofNat n &&& 1 == 1) = decide (UInt8.ofNat n % 2 = 1))
    simpa using h ⟨b.toNat, b.toNat_lt⟩
  exact hlow _

/-- A round of the specification is a turn of the library. -/
theorem shuffledIndexRound_eq (indexCount index currentRound : ℕ) :
    shuffledIndexRound sha256 seed indexCount index currentRound =
      turns sha256 seed indexCount currentRound index := by
  have hbyte : ∀ (source : Bytes 32) (position : ℕ),
      source.val.getD (position % 256 / 8) 0 = sourceByte source position := by
    intro source position
    have hlt : position % 256 / 8 < source.val.length := by
      rw [source.property]
      omega
    rw [List.getD_eq_getElem?_getD, List.getElem?_eq_getElem hlt]
    rfl
  simp only [shuffledIndexRound, hbyte, turns, SwapOrNot.turn, bits, sourceBit_eq,
    decide_eq_true_eq]
  rfl

theorem computeShuffledIndex_eq (index indexCount rounds : ℕ) :
    computeShuffledIndex sha256 seed index indexCount rounds =
      SwapOrNot.forth (turns sha256 seed indexCount) rounds index := by
  have hround : shuffledIndexRound sha256 seed indexCount =
      fun i r => turns sha256 seed indexCount r i := by
    funext i r
    exact shuffledIndexRound_eq indexCount i r
  rw [computeShuffledIndex, hround]
  rfl

theorem shuffleList_forwards_eq {input : List UInt32} (hinput : 0 < input.length) (rounds : ℕ) :
    shuffleList sha256 seed input rounds true =
      SwapOrNot.unshuffle (bits sha256 seed) (pivots sha256 seed input.length) rounds input := by
  rw [shuffleList, if_neg (by omega), if_pos rfl, listRounds_eq _ hinput _ rfl]
  rfl

theorem shuffleList_perm (input : List UInt32) (rounds : ℕ) (forwards : Bool) :
    (shuffleList sha256 seed input rounds forwards).Perm input := by
  rcases Nat.eq_zero_or_pos input.length with hzero | hpos
  · rw [shuffleList, if_pos hzero]
  · cases forwards with
    | true =>
        rw [shuffleList_forwards_eq hpos]
        exact SwapOrNot.unshuffle_perm _ _
    | false =>
        rw [shuffleList_eq hpos]
        exact SwapOrNot.shuffle_perm _ _

/-- Each direction undoes the other. -/
theorem shuffleList_shuffleList (input : List UInt32) (rounds : ℕ) (forwards : Bool) :
    shuffleList sha256 seed (shuffleList sha256 seed input rounds forwards) rounds (!forwards) =
      input := by
  have hlength : (shuffleList sha256 seed input rounds forwards).length = input.length :=
    (shuffleList_perm input rounds forwards).length_eq
  rcases Nat.eq_zero_or_pos input.length with hzero | hpos
  · rw [shuffleList, if_pos (hlength.trans hzero), shuffleList, if_pos hzero]
  · have hpos' : 0 < (shuffleList sha256 seed input rounds forwards).length := by rwa [hlength]
    have hpivots : ∀ r, pivots sha256 seed input.length r < input.length := pivots_lt hpos
    cases forwards with
    | true =>
        rw [Bool.not_true, shuffleList_eq hpos', hlength, shuffleList_forwards_eq hpos]
        exact SwapOrNot.shuffle_unshuffle rounds hpivots
    | false =>
        rw [Bool.not_false, shuffleList_forwards_eq hpos', hlength, shuffleList_eq hpos]
        exact SwapOrNot.unshuffle_shuffle rounds hpivots

/-- What stands at a position stood at the position's shuffled index. -/
theorem shuffleList_getElem? {input : List UInt32} (rounds : ℕ) {i : ℕ} (hi : i < input.length) :
    (shuffleList sha256 seed input rounds false)[i]? =
      input[computeShuffledIndex sha256 seed i input.length rounds]? := by
  have hpos : 0 < input.length := by omega
  rw [shuffleList_eq hpos, SwapOrNot.shuffle_getElem? rounds (pivots_lt hpos) hi,
    computeShuffledIndex_eq]
  rfl

end ShuffledIndex

/-- **The list is shuffled as its indices are.** From any number of rounds but zero, backwards
and forwards, the shuffle returns the elements in another order; backwards it is the one the
specification reads index by index; and each direction after the other is nothing. -/
theorem shuffle_list_exact (sha256 : List UInt8 → Bytes 32) (seed : Bytes 32)
    (input : List UInt32) {rounds : UInt8} (hrounds : 1 ≤ rounds) :
    ∃ backwards forwards, runShuffle sha256 seed input rounds false = some backwards ∧
      runShuffle sha256 seed input rounds true = some forwards ∧
      (∀ i < input.length, backwards[i]? =
        input[computeShuffledIndex sha256 seed i input.length rounds.toNat]?) ∧
      backwards.Perm input ∧ forwards.Perm input ∧
      runShuffle sha256 seed backwards rounds true = some input ∧
      runShuffle sha256 seed forwards rounds false = some input := by
  refine ⟨_, _, runShuffle_eq input hrounds false, runShuffle_eq input hrounds true,
    fun i hi => shuffleList_getElem? rounds.toNat hi, shuffleList_perm _ _ _,
    shuffleList_perm _ _ _, ?_, ?_⟩
  · rw [runShuffle_eq _ hrounds]
    exact congrArg some (shuffleList_shuffleList input rounds.toNat false)
  · rw [runShuffle_eq _ hrounds]
    exact congrArg some (shuffleList_shuffleList input rounds.toNat true)

/-- Five elements, whom the ninety rounds leave in another order each way. -/
theorem shuffle_list_exact_five :
    ∃ backwards forwards,
      runShuffle mixing (zeroBytes 32) [5, 6, 7, 8, 9] 90 false = some backwards ∧
      runShuffle mixing (zeroBytes 32) [5, 6, 7, 8, 9] 90 true = some forwards ∧
      (∀ i < 5, backwards[i]? =
        [5, 6, 7, 8, 9][computeShuffledIndex mixing (zeroBytes 32) i 5 90]?) ∧
      backwards.Perm [5, 6, 7, 8, 9] ∧ forwards.Perm [5, 6, 7, 8, 9] ∧
      runShuffle mixing (zeroBytes 32) backwards 90 true = some [5, 6, 7, 8, 9] ∧
      runShuffle mixing (zeroBytes 32) forwards 90 false = some [5, 6, 7, 8, 9] :=
  shuffle_list_exact mixing (zeroBytes 32) [5, 6, 7, 8, 9] (by decide : (1 : UInt8) ≤ 90)

example : runShuffle mixing (zeroBytes 32) [5, 6, 7, 8, 9] 90 false = some [7, 8, 6, 5, 9] ∧
    runShuffle mixing (zeroBytes 32) [5, 6, 7, 8, 9] 90 true = some [8, 7, 5, 6, 9] := by
  decide +kernel

end Zkasper.Fcr
