import Zkasper.Bytes
import Zkasper.Library.SwapOrNot

/-! # The committee shuffle, twice

The spec's swap-or-not shuffle as the fast-confirmation circuits run it: position by
position, backwards (`committeePosition`), and over a whole list in half-rounds that
hash once for every 256 positions (`shuffleList`). SHA-256 is the one function both
crates reach by their own padding; it is a parameter here.

Both are the rounds of the library, one on positions and one on lists, so the list that
comes out has at a validator's position that validator (`shuffleList_committeePosition`). -/

namespace Zkasper.Fcr

/-- `SHUFFLE_ROUND_COUNT`. -/
def shuffleRoundCount : ℕ := 90

/-- `source[(position % 256) / 8]`. -/
def sourceByte (source : Bytes 32) (position : ℕ) : UInt8 :=
  source.val.get ⟨position % 256 / 8, by have := source.property; omega⟩

/-- `(byte >> (position % 8)) & 1 == 1`. -/
def sourceBit (byte : UInt8) (position : ℕ) : Bool :=
  (byte >>> UInt8.ofNat (position % 8)) &&& 1 == 1

/-! ## The two shuffles

A list that fits in memory is far too short for a sum or product of positions to
overflow 64 bits. The four bytes of a chunk number are its `as u32`. -/

section Shuffles

variable (sha256 : List UInt8 → Bytes 32) (seed : Bytes 32)

/-- The `pivot` of each shuffle round. -/
def pivots (n r : ℕ) : ℕ :=
  fromLeBytes ((sha256 (seed.val ++ [UInt8.ofNat r])).val.take 8) % n

/-- The hash that holds the bits of 256 positions. -/
def source (r chunk : ℕ) : Bytes 32 :=
  sha256 (seed.val ++ [UInt8.ofNat r] ++ leBytes 4 chunk)

/-- One round of `committee_position`. -/
def positionRound (pivots : ℕ → ℕ) (n index r : ℕ) : ℕ :=
  let flip := (pivots r + n - index) % n
  let position := if index > flip then index else flip
  if sourceBit (sourceByte (source sha256 seed r (position / 256)) position) position
  then flip else index

/-- Where in the epoch's shuffled committee list a validator sits. -/
def committeePosition (index n : ℕ) (pivots : ℕ → ℕ) : ℕ :=
  (List.range shuffleRoundCount).reverse.foldl (positionRound sha256 seed pivots n) index

/-- What the loop over a list keeps of the hashes, beside the list. -/
structure HalfRound where
  source : Bytes 32
  byteV : UInt8
  input : List UInt32

/-- One turn of the loop, at the pair `i`, `j`. -/
def halfRoundStep (r i j : ℕ) (s : HalfRound) : HalfRound :=
  let source := if j % 256 = 255 then source sha256 seed r (j / 256) else s.source
  let byteV := if j % 8 = 7 then sourceByte source j else s.byteV
  ⟨source, byteV, if sourceBit byteV j then SwapOrNot.swap s.input i j else s.input⟩

/-- Half a round: `count` pairs, from both ends of the stretch between `i` and `j`. -/
def halfRound (r i j count : ℕ) (input : List UInt32) : HalfRound :=
  (List.range count).foldl (fun s t => halfRoundStep sha256 seed r (i + t) (j - t) s)
    ⟨source sha256 seed r (j / 256), sourceByte (source sha256 seed r (j / 256)) j, input⟩

/-- One round of `shuffle_list`. -/
def listRound (input : List UInt32) (r : ℕ) : List UInt32 :=
  let pivot := pivots sha256 seed input.length r
  let input := (halfRound sha256 seed r 0 pivot ((pivot + 1) / 2) input).input
  let mirror := (pivot + input.length + 1) / 2
  (halfRound sha256 seed r (pivot + 1) (input.length - 1) (mirror - (pivot + 1)) input).input

/-- Lighthouse's `shuffle_list`: the swap-or-not shuffle over a whole list. -/
def shuffleList (input : List UInt32) (rounds : ℕ) (forwards : Bool) : List UInt32 :=
  if input.length = 0 then input
  else if forwards then (List.range rounds).foldl (listRound sha256 seed) input
  else (List.range rounds).reverse.foldl (listRound sha256 seed) input

end Shuffles

/-! ## Both are the library's rounds -/

section Rounds

variable (sha256 : List UInt8 → Bytes 32) (seed : Bytes 32)

/-- The bit a round asks of a position. -/
def bits (r position : ℕ) : Bool :=
  sourceBit (sourceByte (source sha256 seed r (position / 256)) position) position

/-- Where a round sends a position. -/
def turns (n r : ℕ) : ℕ → ℕ :=
  SwapOrNot.turn n (pivots sha256 seed n r) (bits sha256 seed r)

variable {sha256 seed}

theorem pivots_lt {n : ℕ} (hn : 0 < n) (r : ℕ) : pivots sha256 seed n r < n :=
  Nat.mod_lt _ hn

theorem positionRound_eq (n index r : ℕ) :
    positionRound sha256 seed (pivots sha256 seed n) n index r = turns sha256 seed n r index := by
  have hmax : ∀ i j : ℕ, (if i > j then i else j) = max i j := by
    intro i j
    split <;> omega
  simp only [positionRound, hmax]
  rfl

theorem committeePosition_eq (n index : ℕ) :
    committeePosition sha256 seed index n (pivots sha256 seed n) =
      SwapOrNot.back (turns sha256 seed n) shuffleRoundCount index := by
  have hround : positionRound sha256 seed (pivots sha256 seed n) n =
      fun i r => turns sha256 seed n r i := by
    funext i r
    exact positionRound_eq n i r
  rw [committeePosition, hround]
  rfl

/-- What the loop holds at a position: that position's hash and byte, and the list. -/
structure HalfRound.At (s : HalfRound) (sha256 : List UInt8 → Bytes 32) (seed : Bytes 32)
    (r j : ℕ) (input : List UInt32) : Prop where
  source_eq : s.source = Fcr.source sha256 seed r (j / 256)
  byteV_eq : s.byteV = sourceByte s.source j
  input_eq : s.input = input

/-- **The cache is right**: going down, a byte serves eight positions and a hash 256. -/
theorem halfRoundStep_at {r i j j' : ℕ} {s : HalfRound} {input : List UInt32}
    (hj : j' = j ∨ j' = j + 1) (h : s.At sha256 seed r j' input) :
    (halfRoundStep sha256 seed r i j s).At sha256 seed r j
      (if bits sha256 seed r j then SwapOrNot.swap input i j else input) := by
  have hsource : (if j % 256 = 255 then source sha256 seed r (j / 256) else s.source) =
      source sha256 seed r (j / 256) := by
    split
    · rfl
    · have hchunk : j' / 256 = j / 256 := by omega
      rw [h.source_eq, hchunk]
  have hbyte : (if j % 8 = 7 then sourceByte (source sha256 seed r (j / 256)) j else s.byteV) =
      sourceByte (source sha256 seed r (j / 256)) j := by
    split
    · rfl
    · have hchunk : j' / 256 = j / 256 := by omega
      have hindex : j' % 256 / 8 = j % 256 / 8 := by omega
      rw [h.byteV_eq, h.source_eq, hchunk]
      simp only [sourceByte, hindex]
  constructor
  · exact hsource
  · simp only [halfRoundStep, hsource, hbyte]
  · simp only [halfRoundStep, hsource, hbyte, h.input_eq]
    rfl

theorem halfRound_at (r i j : ℕ) (input : List UInt32) : ∀ {count : ℕ}, count ≤ j + 1 →
    (halfRound sha256 seed r i j count input).At sha256 seed r (j - (count - 1))
      (SwapOrNot.mirror (bits sha256 seed r) i j count input) := by
  intro count
  induction count with
  | zero => exact fun _ => ⟨rfl, rfl, rfl⟩
  | succ count ih =>
      intro hcount
      have hprev : j - (count - 1) = j - count ∨ j - (count - 1) = j - count + 1 := by omega
      have hstep := halfRoundStep_at (i := i + count) hprev (ih (by omega))
      rw [SwapOrNot.mirror_succ, Nat.add_sub_cancel]
      rw [halfRound, List.range_succ, List.foldl_append]
      exact hstep

theorem halfRound_input {r i j count : ℕ} (hcount : count ≤ j + 1) (input : List UInt32) :
    (halfRound sha256 seed r i j count input).input =
      SwapOrNot.mirror (bits sha256 seed r) i j count input :=
  (halfRound_at r i j input hcount).input_eq

/-- **A round over the list** is the library's. -/
theorem listRound_eq {input : List UInt32} (hinput : 0 < input.length) (r : ℕ) :
    listRound sha256 seed input r =
      SwapOrNot.round (bits sha256 seed r) (pivots sha256 seed input.length r) input := by
  have hpivot : pivots sha256 seed input.length r < input.length := pivots_lt hinput r
  have hfirst : (halfRound sha256 seed r 0 (pivots sha256 seed input.length r)
      ((pivots sha256 seed input.length r + 1) / 2) input).input =
        SwapOrNot.mirror (bits sha256 seed r) 0 (pivots sha256 seed input.length r)
          ((pivots sha256 seed input.length r + 1) / 2) input :=
    halfRound_input (by omega) input
  have hcount : (pivots sha256 seed input.length r + input.length + 1) / 2 -
      (pivots sha256 seed input.length r + 1) =
        (input.length - (pivots sha256 seed input.length r + 1)) / 2 := by
    omega
  simp only [listRound, hfirst, SwapOrNot.length_mirror, hcount]
  exact halfRound_input (by omega) _

theorem listRounds_eq (n : ℕ) (hn : 0 < n) : ∀ (rs : List ℕ) {input : List UInt32},
    input.length = n → rs.foldl (listRound sha256 seed) input =
      rs.foldl (fun xs r => SwapOrNot.round (bits sha256 seed r) (pivots sha256 seed n r) xs)
        input := by
  intro rs
  induction rs with
  | nil => exact fun _ => rfl
  | cons r rs ih =>
      intro input hlength
      have hround : listRound sha256 seed input r = SwapOrNot.round (bits sha256 seed r)
          (pivots sha256 seed n r) input := by
        rw [listRound_eq (by omega) r, hlength]
      rw [List.foldl_cons, List.foldl_cons, hround]
      exact ih (by rw [SwapOrNot.length_round, hlength])

theorem shuffleList_eq {input : List UInt32} (hinput : 0 < input.length) (rounds : ℕ) :
    shuffleList sha256 seed input rounds false =
      SwapOrNot.shuffle (bits sha256 seed) (pivots sha256 seed input.length) rounds input := by
  rw [shuffleList, if_neg (by omega), if_neg (by simp), listRounds_eq _ hinput _ rfl]
  rfl

@[simp] theorem length_shuffleList (sha256 : List UInt8 → Bytes 32) (seed : Bytes 32)
    (input : List UInt32) (rounds : ℕ) :
    (shuffleList sha256 seed input rounds false).length = input.length := by
  rcases Nat.eq_zero_or_pos input.length with hzero | hpos
  · rw [shuffleList, if_pos hzero]
  · rw [shuffleList_eq hpos, SwapOrNot.length_shuffle]

end Rounds

/-! ## One permutation, read both ways -/

section Inverse

variable {sha256 : List UInt8 → Bytes 32} {seed : Bytes 32}

theorem turns_lt {n : ℕ} (r i : ℕ) (hi : i < n) : turns sha256 seed n r i < n :=
  SwapOrNot.turn_lt (pivots_lt (by omega) r) hi

theorem turns_turns {n : ℕ} (r i : ℕ) (hi : i < n) :
    turns sha256 seed n r (turns sha256 seed n r i) = i :=
  SwapOrNot.turn_turn (pivots_lt (by omega) r) hi

theorem committeePosition_lt {n i : ℕ} (hi : i < n) :
    committeePosition sha256 seed i n (pivots sha256 seed n) < n := by
  rw [committeePosition_eq]
  exact SwapOrNot.back_lt turns_lt shuffleRoundCount hi

/-- Two validators never sit at one place. -/
theorem committeePosition_injOn {n i j : ℕ} (hi : i < n) (hj : j < n)
    (h : committeePosition sha256 seed i n (pivots sha256 seed n) =
      committeePosition sha256 seed j n (pivots sha256 seed n)) : i = j := by
  have hforth : ∀ {k : ℕ}, k < n → SwapOrNot.forth (turns sha256 seed n) shuffleRoundCount
      (SwapOrNot.back (turns sha256 seed n) shuffleRoundCount k) = k :=
    SwapOrNot.forth_back turns_lt turns_turns shuffleRoundCount
  rw [committeePosition_eq, committeePosition_eq] at h
  rw [← hforth hi, ← hforth hj, h]

/-- Every place is a validator's. -/
theorem committeePosition_surjOn (sha256 : List UInt8 → Bytes 32) (seed : Bytes 32) {n p : ℕ}
    (hp : p < n) :
    ∃ i < n, committeePosition sha256 seed i n (pivots sha256 seed n) = p := by
  refine ⟨SwapOrNot.forth (turns sha256 seed n) shuffleRoundCount p,
    SwapOrNot.forth_lt turns_lt shuffleRoundCount hp, ?_⟩
  rw [committeePosition_eq]
  exact SwapOrNot.back_forth turns_lt turns_turns shuffleRoundCount hp

/-- **The list has each validator at its position.** -/
theorem shuffleList_committeePosition (sha256 : List UInt8 → Bytes 32) (seed : Bytes 32)
    {active : List UInt32} {i : ℕ} (hi : i < active.length) :
    (shuffleList sha256 seed active shuffleRoundCount false)[
      committeePosition sha256 seed i active.length (pivots sha256 seed active.length)]? =
      active[i]? := by
  have hpos : 0 < active.length := by omega
  rw [shuffleList_eq hpos, SwapOrNot.shuffle_getElem? shuffleRoundCount (pivots_lt hpos)
    (committeePosition_lt hi), committeePosition_eq]
  exact congrArg (active[·]?) (SwapOrNot.forth_back turns_lt turns_turns shuffleRoundCount hi)

end Inverse

/-- A hash to run the shuffles on: every byte of the data moves every byte of it. -/
def mixing (data : List UInt8) : Bytes 32 :=
  ⟨(List.range 32).map fun k =>
    data.foldl (fun sum byte => (sum ^^^ byte) * 167 + UInt8.ofNat k) 91, by simp⟩

end Zkasper.Fcr
