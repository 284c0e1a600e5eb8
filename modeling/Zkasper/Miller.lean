import Zkasper.Guest
import Zkasper.Library.Chords
import Mathlib.Tactic.Ring

/-! # The Miller loop

The Miller loop over a batch of pairs, without the final exponentiation. A step
needs the tangent at the running point or the chord to the pair's own point, and
does not solve for it: the host hints the line's coefficients and the guest checks
them.

What is checked leaves the host nothing to choose (`advance_honest`), so a batch
has one value whatever it was hinted, and the value of a batch is the product of
the values of its parts (`millerLoopBatch_append`), which is what lets accumulators
of separate proofs be multiplied. Over points of the group the checks never fail:
the running points are the multiples of the pairs' own that the bits spell
(`millerLoop_multiples`), and none of those is where a line is missing.

The fields are fields here: the arithmetic of the limbs is the library's, on
canonical inputs. -/

namespace Zkasper.Miller

open Chords

variable {Fp Fp2 Fp12 : Type} [Field Fp] [Field Fp2] [DecidableEq Fp2] [Algebra Fp Fp2]
  [CommRing Fp12]

/-! ## The loop -/

/-- What the loop stands on above the arithmetic of the fields. -/
structure Tower (Fp2 Fp12 : Type) [CommRing Fp12] where
  /-- `1/(1+u)` -/
  extUInv : Fp2
  /-- What a sparse multiplication multiplies with: `1 + (c₁·v + c₂·v²)·w`. -/
  sparse : Fp2 → Fp2 → Fp12
  conjugateFp12 : Fp12 →+* Fp12

/-- What the host is asked for: the coefficients of a line, in every iteration for
every pair. It answers as it likes. -/
structure Hints (F : Type) where
  twistDblLineCoeffs : ℕ → ℕ → Point F → Line F
  twistAddLineCoeffs : ℕ → ℕ → Point F → Point F → Line F

/-- Bits of |x| for BLS12-381, most significant first. -/
def xAbsBinBe : List ℕ :=
  [1, 1, 0, 1, 0, 0, 1, 0, 0, 0, 0, 0, 0, 0, 0, 1, 0, 0, 0, 0, 0, 0, 0, 0, 0, 0, 0, 0, 0, 0, 0, 0,
    0, 0, 0, 0, 0, 0, 0, 0, 0, 0, 0, 0, 0, 0, 0, 1, 0, 0, 0, 0, 0, 0, 0, 0, 0, 0, 0, 0, 0, 0, 0, 0]

/-- Does `y = λx + μ` hold at `q`? -/
def lineCheckTwist (q : Point Fp2) (l : Line Fp2) : Bool :=
  decide (l.slope * q.x + l.intercept = q.y)

/-- Does the line pass through both points? -/
def isLineTwist (q1 q2 : Point Fp2) (l : Line Fp2) : Bool :=
  -- A chord is only determined when the two points have distinct x.
  if q1.x = q2.x then false else lineCheckTwist q1 l && lineCheckTwist q2 l

/-- Is the line tangent to the twist at `q`? -/
def isTangentTwist (q : Point Fp2) (l : Line Fp2) : Bool :=
  -- A tangent is only determined when y != 0, which also rejects 2-torsion.
  if q.y = 0 then false
  else lineCheckTwist q l && decide (l.slope * q.y + l.slope * q.y = 3 • q.x ^ 2)

/-- The line, evaluated at a point of the first group. -/
def lineEvalTwist (T : Tower Fp2 Fp12) (l : Line Fp2) (x y : Fp2) : Fp12 :=
  T.sparse (l.intercept * -y) (l.slope * x)

/-- `q1 + q2` on the twist, given the chord's coefficients. -/
def addTwistWithHints (q1 q2 : Point Fp2) (l : Line Fp2) : Point Fp2 :=
  let x3 := l.slope ^ 2 - q1.x - q2.x
  ⟨x3, -(l.intercept + l.slope * x3)⟩

/-- `2q` on the twist, given the tangent's coefficients. -/
def dblTwistWithHints (q : Point Fp2) (l : Line Fp2) : Point Fp2 :=
  let x3 := l.slope ^ 2 - (q.x + q.x)
  ⟨x3, -(l.intercept + l.slope * x3)⟩

/-- One pair: the point of the second group, what lines are evaluated at, and the
running point. -/
structure Running (Fp2 : Type) where
  q : Point Fp2
  xpPrime : Fp2
  ypPrime : Fp2
  r : Point Fp2

/-- `xp' = (-xp/yp)·1/(1+u)` and `yp' = (1/yp)·1/(1+u)`, once per point of the first group. -/
def Running.start (T : Tower Fp2 Fp12) (p : Point Fp) (q : Point Fp2) : Running Fp2 :=
  let yp := p.y⁻¹
  let xp := -p.x * yp
  ⟨q, xp • T.extUInv, yp • T.extUInv, q⟩

/-- One pair in one iteration: a doubling, and an addition where the bit is set. -/
def advance (T : Tower Fp2 Fp12) (hints : Hints Fp2) (bit k i : ℕ) (f : Fp12)
    (pair : Running Fp2) : Guest (Fp12 × Running Fp2) := do
  let l := hints.twistDblLineCoeffs k i pair.r
  Guest.assert (isTangentTwist pair.r l = true) "tangent check failed"
  let f := f * lineEvalTwist T l pair.xpPrime pair.ypPrime
  let r := dblTwistWithHints pair.r l
  if bit = 1 then do
    let l := hints.twistAddLineCoeffs k i r pair.q
    Guest.assert (isLineTwist r pair.q l = true) "line check failed"
    return (f * lineEvalTwist T l pair.xpPrime pair.ypPrime,
      { pair with r := addTwistWithHints r pair.q l })
  else return (f, { pair with r })

/-- Every pair of one iteration, from position `i` on. -/
def advanceAll (T : Tower Fp2 Fp12) (hints : Hints Fp2) (bit k : ℕ) :
    ℕ → Fp12 → List (Running Fp2) → Guest (Fp12 × List (Running Fp2))
  | _, f, [] => return (f, [])
  | i, f, pair :: pairs => do
      let (f, pair) ← advance T hints bit k i f pair
      let (f, pairs) ← advanceAll T hints bit k (i + 1) f pairs
      return (f, pair :: pairs)

/-- One iteration. -/
def iterate (T : Tower Fp2 Fp12) (hints : Hints Fp2) (s : Fp12 × List (Running Fp2))
    (entry : ℕ × ℕ) : Guest (Fp12 × List (Running Fp2)) :=
  advanceAll T hints entry.1 entry.2 0 (s.1 ^ 2) s.2

/-- The loop: `f = 1` and `rᵢ = qᵢ`, then an iteration for every bit after the first. -/
def millerLoop (T : Tower Fp2 Fp12) (hints : Hints Fp2) (g1Points : List (Point Fp))
    (g2Points : List (Point Fp2)) : Guest (Fp12 × List (Running Fp2)) :=
  (xAbsBinBe.drop 1).zipIdx.foldlM (iterate T hints)
    (1, g1Points.zipWith (Running.start T) g2Points)

/-- Miller loop over a batch of pairs, without the final exponentiation. -/
def millerLoopBatch (T : Tower Fp2 Fp12) (hints : Hints Fp2) (g1Points : List (Point Fp))
    (g2Points : List (Point Fp2)) : Guest Fp12 := do
  Guest.assert (g1Points.length = g2Points.length)
    "miller_loop_batch: unequal number of G1 and G2 points"
  let s ← millerLoop T hints g1Points g2Points
  -- x is negative, so the loop's result is conjugated.
  return T.conjugateFp12 s.1

/-! ## Hints -/

/-- The host that solves for the lines. -/
def honest : Hints Fp2 where
  twistDblLineCoeffs _ _ r := r.tangent
  twistAddLineCoeffs _ _ r q := r.chord q

theorem isTangentTwist_iff {q : Point Fp2} {l : Line Fp2} (htwo : (2 : Fp2) ≠ 0) :
    isTangentTwist q l = true ↔ q.y ≠ 0 ∧ l = q.tangent := by
  unfold isTangentTwist lineCheckTwist
  by_cases hy : q.y = 0
  · simp [hy]
  · simp only [hy, if_false, Bool.and_eq_true, decide_eq_true_eq, ne_eq, not_false_eq_true,
      true_and]
    constructor
    · rintro ⟨hline, hslope⟩
      exact eq_tangent htwo hy hline hslope
    · rintro rfl
      exact ⟨tangent_through q, tangent_slope htwo hy⟩

theorem isLineTwist_iff {q1 q2 : Point Fp2} {l : Line Fp2} :
    isLineTwist q1 q2 l = true ↔ q1.x ≠ q2.x ∧ l = q1.chord q2 := by
  unfold isLineTwist lineCheckTwist
  by_cases hx : q1.x = q2.x
  · simp [hx]
  · simp only [hx, if_false, Bool.and_eq_true, decide_eq_true_eq, ne_eq, not_false_eq_true,
      true_and]
    constructor
    · rintro ⟨h1, h2⟩
      exact eq_chord hx h1 h2
    · rintro rfl
      exact ⟨chord_through_left q1 q2, chord_through_right hx⟩

omit [DecidableEq Fp2] in
theorem dblTwistWithHints_eq (q : Point Fp2) (l : Line Fp2) :
    dblTwistWithHints q l = l.sum q q := by
  unfold dblTwistWithHints Line.sum
  rw [← sub_sub, add_comm]

omit [DecidableEq Fp2] in
theorem addTwistWithHints_eq (q1 q2 : Point Fp2) (l : Line Fp2) :
    addTwistWithHints q1 q2 l = l.sum q1 q2 := by
  unfold addTwistWithHints Line.sum
  rw [add_comm]

section Step

variable {T : Tower Fp2 Fp12} {hints : Hints Fp2} {bit k i : ℕ} {f : Fp12} {pair : Running Fp2}

/-- Where the honest lines lead a pair. -/
def doubled (r : Point Fp2) : Point Fp2 := r.tangent.sum r r

/-- What a pair multiplies into the value, and where it goes. -/
def stepValue (T : Tower Fp2 Fp12) (bit : ℕ) (pair : Running Fp2) : Fp12 :=
  let double := lineEvalTwist T pair.r.tangent pair.xpPrime pair.ypPrime
  if bit = 1 then double * lineEvalTwist T ((doubled pair.r).chord pair.q) pair.xpPrime pair.ypPrime
  else double

def stepPair (bit : ℕ) (pair : Running Fp2) : Running Fp2 :=
  if bit = 1 then
    { pair with r := ((doubled pair.r).chord pair.q).sum (doubled pair.r) pair.q }
  else { pair with r := doubled pair.r }

/-- There is a tangent to double by, and a chord to add by where one is needed. -/
def Determined (bit : ℕ) (pair : Running Fp2) : Prop :=
  pair.r.y ≠ 0 ∧ (bit = 1 → (doubled pair.r).x ≠ pair.q.x)

/-- **Nothing is left to the host**: a step is the step by the lines there are. -/
theorem advance_eq_ok (htwo : (2 : Fp2) ≠ 0) {s : Fp12 × Running Fp2}
    (h : advance T hints bit k i f pair = .ok s) :
    Determined bit pair ∧ s = (f * stepValue T bit pair, stepPair bit pair) := by
  simp only [advance, Guest.bind_eq_ok, Guest.assert_eq_ok, exists_const] at h
  obtain ⟨htangent, h⟩ := h
  obtain ⟨hy, hline⟩ := (isTangentTwist_iff htwo).mp htangent
  rw [hline, dblTwistWithHints_eq] at h
  unfold Determined stepValue stepPair
  by_cases hbit : bit = 1
  · rw [if_pos hbit] at h
    simp only [Guest.bind_eq_ok, Guest.assert_eq_ok, Guest.pure_eq_ok, exists_const] at h
    obtain ⟨hchord, rfl⟩ := h
    obtain ⟨hx, hline'⟩ := isLineTwist_iff.mp hchord
    refine ⟨⟨hy, fun _ => hx⟩, ?_⟩
    rw [if_pos hbit, if_pos hbit, hline', addTwistWithHints_eq, mul_assoc]
    rfl
  · rw [if_neg hbit] at h
    obtain rfl := Guest.pure_eq_ok.mp h
    rw [if_neg hbit, if_neg hbit]
    exact ⟨⟨hy, fun hone => absurd hone hbit⟩, rfl⟩

/-- The honest host is never refused where the lines are determined. -/
theorem advance_honest (htwo : (2 : Fp2) ≠ 0) (h : Determined bit pair) :
    advance T honest bit k i f pair = .ok (f * stepValue T bit pair, stepPair bit pair) := by
  obtain ⟨hy, hx⟩ := h
  have htangent : isTangentTwist pair.r pair.r.tangent = true :=
    (isTangentTwist_iff htwo).mpr ⟨hy, rfl⟩
  refine Guest.bind_eq_ok.mpr ⟨(), Guest.assert_eq_ok.mpr htangent, ?_⟩
  simp only [honest, dblTwistWithHints_eq]
  unfold stepValue stepPair
  by_cases hbit : bit = 1
  · have hchord : isLineTwist (doubled pair.r) pair.q ((doubled pair.r).chord pair.q) = true :=
      isLineTwist_iff.mpr ⟨hx hbit, rfl⟩
    rw [if_pos hbit, if_pos hbit, if_pos hbit]
    refine Guest.bind_eq_ok.mpr ⟨(), Guest.assert_eq_ok.mpr hchord, ?_⟩
    rw [addTwistWithHints_eq, mul_assoc]
    rfl
  · rw [if_neg hbit, if_neg hbit, if_neg hbit]
    rfl

end Step

/-! ## Whole runs -/

section Run

variable {T : Tower Fp2 Fp12} {hints : Hints Fp2}

/-- What a pair contributes over the bits to come: every factor is squared once for
each bit after its own. -/
def pairValue (T : Tower Fp2 Fp12) : List ℕ → Running Fp2 → Fp12
  | [], _ => 1
  | bit :: bits, pair =>
      stepValue T bit pair ^ 2 ^ bits.length * pairValue T bits (stepPair bit pair)

/-- Where the bits take a pair. -/
def pairEnd (bits : List ℕ) (pair : Running Fp2) : Running Fp2 :=
  bits.foldl (fun pair bit => stepPair bit pair) pair

/-- Every line on the way is determined. -/
def AllDetermined : List ℕ → Running Fp2 → Prop
  | [], _ => True
  | bit :: bits, pair => Determined bit pair ∧ AllDetermined bits (stepPair bit pair)

/-- **One iteration**: every pair makes its step, and multiplies its lines in. -/
theorem advanceAll_eq_ok (htwo : (2 : Fp2) ≠ 0) {bit k : ℕ} :
    ∀ {i : ℕ} {f : Fp12} {pairs : List (Running Fp2)} {s : Fp12 × List (Running Fp2)},
      advanceAll T hints bit k i f pairs = .ok s →
        (∀ pair ∈ pairs, Determined bit pair) ∧
          s = (f * (pairs.map (stepValue T bit)).prod, pairs.map (stepPair bit)) := by
  intro i f pairs
  induction pairs generalizing i f with
  | nil =>
      intro s h
      obtain rfl := Guest.pure_eq_ok.mp h
      simp
  | cons pair pairs ih =>
      intro s h
      simp only [advanceAll, Guest.bind_eq_ok, Guest.pure_eq_ok] at h
      obtain ⟨first, hfirst, rest, hrest, rfl⟩ := h
      obtain ⟨hdetermined, rfl⟩ := advance_eq_ok htwo hfirst
      obtain ⟨hall, rfl⟩ := ih hrest
      refine ⟨List.forall_mem_cons.mpr ⟨hdetermined, hall⟩, ?_⟩
      simp only [List.map_cons, List.prod_cons, mul_assoc]

theorem advanceAll_honest (htwo : (2 : Fp2) ≠ 0) {bit k : ℕ} :
    ∀ {i : ℕ} {f : Fp12} {pairs : List (Running Fp2)},
      (∀ pair ∈ pairs, Determined bit pair) →
        advanceAll T honest bit k i f pairs =
          .ok (f * (pairs.map (stepValue T bit)).prod, pairs.map (stepPair bit)) := by
  intro i f pairs
  induction pairs generalizing i f with
  | nil =>
      intro _
      simp [advanceAll, pure, Except.pure]
  | cons pair pairs ih =>
      intro h
      obtain ⟨hdetermined, hall⟩ := List.forall_mem_cons.mp h
      simp only [advanceAll, advance_honest htwo hdetermined, Guest.ok_bind, ih hall,
        List.map_cons, List.prod_cons, mul_assoc]
      rfl

omit [Field Fp2] [DecidableEq Fp2] in
/-- A product of powers and what they are multiplied with. -/
theorem prod_pow_mul {n : ℕ} {v w : Running Fp2 → Fp12} : ∀ pairs : List (Running Fp2),
    (pairs.map v).prod ^ n * (pairs.map w).prod = (pairs.map fun pair => v pair ^ n * w pair).prod
  | [] => by simp
  | pair :: pairs => by
      simp only [List.map_cons, List.prod_cons, ← prod_pow_mul pairs, mul_pow]
      ring

/-- **The loop**, by induction on the bits: whatever was hinted, the value is the
product of what the pairs contribute, and every pair is where the bits take it. -/
theorem iterate_eq_ok (htwo : (2 : Fp2) ≠ 0) :
    ∀ {bits : List ℕ} {k : ℕ} {f : Fp12} {pairs : List (Running Fp2)}
      {s : Fp12 × List (Running Fp2)},
      (bits.zipIdx k).foldlM (iterate T hints) (f, pairs) = .ok s →
        (∀ pair ∈ pairs, AllDetermined bits pair) ∧
          s = (f ^ 2 ^ bits.length * (pairs.map (pairValue T bits)).prod,
            pairs.map (pairEnd bits)) := by
  intro bits
  induction bits with
  | nil =>
      intro k f pairs s h
      obtain rfl := Guest.foldlM_nil.mp h
      have hstay : pairs.map (pairEnd []) = pairs := List.map_id pairs
      simp [AllDetermined, pairValue, hstay]
  | cons bit bits ih =>
      intro k f pairs s h
      rw [List.zipIdx_cons] at h
      obtain ⟨mid, hfirst, hrest⟩ := Guest.foldlM_cons.mp h
      have hstep : advanceAll T hints bit k 0 (f ^ 2) pairs = .ok mid := hfirst
      obtain ⟨hdetermined, rfl⟩ := advanceAll_eq_ok htwo hstep
      obtain ⟨hall, rfl⟩ := ih hrest
      refine ⟨fun pair hpair => ⟨hdetermined pair hpair, hall _ (List.mem_map_of_mem hpair)⟩, ?_⟩
      have hvalue : (f ^ 2 * (pairs.map (stepValue T bit)).prod) ^ 2 ^ bits.length *
          ((pairs.map (stepPair bit)).map (pairValue T bits)).prod =
            f ^ 2 ^ (bits.length + 1) * (pairs.map (pairValue T (bit :: bits))).prod := by
        rw [List.map_map, mul_pow, mul_assoc, prod_pow_mul, ← pow_mul, ← pow_succ']
        rfl
      have hend : (pairs.map (stepPair bit)).map (pairEnd bits) =
          pairs.map (pairEnd (bit :: bits)) :=
        List.map_map
      rw [List.length_cons, hvalue, hend]

theorem iterate_honest (htwo : (2 : Fp2) ≠ 0) :
    ∀ {bits : List ℕ} {k : ℕ} {f : Fp12} {pairs : List (Running Fp2)},
      (∀ pair ∈ pairs, AllDetermined bits pair) →
        ∃ s, (bits.zipIdx k).foldlM (iterate T honest) (f, pairs) = .ok s := by
  intro bits
  induction bits with
  | nil => exact fun _ => ⟨_, rfl⟩
  | cons bit bits ih =>
      intro k f pairs h
      have hstep := advanceAll_honest (T := T) (k := k) (i := 0) (f := f ^ 2) htwo
        fun pair hpair => (h pair hpair).1
      have hrest : ∀ pair ∈ pairs.map (stepPair bit), AllDetermined bits pair := by
        intro after hafter
        obtain ⟨pair, hpair, rfl⟩ := List.mem_map.mp hafter
        exact (h pair hpair).2
      obtain ⟨s, hs⟩ := ih (k := k + 1) (f := f ^ 2 * (pairs.map (stepValue T bit)).prod) hrest
      refine ⟨s, ?_⟩
      rw [List.zipIdx_cons]
      exact Guest.foldlM_cons.mpr ⟨_, hstep, hs⟩

/-- What one pair is worth in a batch. -/
def millerValue (T : Tower Fp2 Fp12) (p : Point Fp) (q : Point Fp2) : Fp12 :=
  pairValue T (xAbsBinBe.drop 1) (Running.start T p q)

/-- Every line that the batch needs is determined. -/
def BatchDetermined (T : Tower Fp2 Fp12) (ps : List (Point Fp)) (qs : List (Point Fp2)) : Prop :=
  ∀ pair ∈ ps.zipWith (Running.start T) qs, AllDetermined (xAbsBinBe.drop 1) pair

/-- **The value of a batch**: the product of its pairs', whatever was hinted. -/
theorem millerLoopBatch_eq_ok (htwo : (2 : Fp2) ≠ 0) {ps : List (Point Fp)}
    {qs : List (Point Fp2)} {f : Fp12} (h : millerLoopBatch T hints ps qs = .ok f) :
    ps.length = qs.length ∧ BatchDetermined T ps qs ∧
      f = T.conjugateFp12 (ps.zipWith (millerValue T) qs).prod := by
  simp only [millerLoopBatch, millerLoop, Guest.bind_eq_ok, Guest.assert_eq_ok, Guest.pure_eq_ok,
    exists_const] at h
  obtain ⟨hlength, s, hloop, rfl⟩ := h
  obtain ⟨hall, rfl⟩ := iterate_eq_ok htwo hloop
  refine ⟨hlength, hall, congrArg T.conjugateFp12 ?_⟩
  show 1 ^ 2 ^ (xAbsBinBe.drop 1).length * _ = _
  rw [one_pow, one_mul, List.map_zipWith]
  rfl

/-- A batch whose lines are determined passes with the lines there are. -/
theorem millerLoopBatch_honest (htwo : (2 : Fp2) ≠ 0) {ps : List (Point Fp)}
    {qs : List (Point Fp2)} (hlength : ps.length = qs.length) (hall : BatchDetermined T ps qs) :
    ∃ f, millerLoopBatch T honest ps qs = .ok f := by
  obtain ⟨s, hs⟩ := iterate_honest (T := T) (k := 0) (f := 1) htwo hall
  simp only [millerLoopBatch, Guest.bind_eq_ok, Guest.assert_eq_ok, Guest.pure_eq_ok, exists_const]
  exact ⟨_, hlength, s, hs, rfl⟩

/-- What a batch can come to. -/
theorem exists_millerLoopBatch (htwo : (2 : Fp2) ≠ 0) {ps : List (Point Fp)}
    {qs : List (Point Fp2)} {f : Fp12} :
    (∃ hints, millerLoopBatch T hints ps qs = .ok f) ↔
      ps.length = qs.length ∧ BatchDetermined T ps qs ∧
        f = T.conjugateFp12 (ps.zipWith (millerValue T) qs).prod := by
  constructor
  · rintro ⟨hints, h⟩
    exact millerLoopBatch_eq_ok htwo h
  · rintro ⟨hlength, hall, rfl⟩
    obtain ⟨f, hf⟩ := millerLoopBatch_honest htwo hlength hall
    obtain ⟨-, -, rfl⟩ := millerLoopBatch_eq_ok htwo hf
    exact ⟨honest, hf⟩

omit [DecidableEq Fp2] in
theorem batchDetermined_append {ps ps' : List (Point Fp)} {qs qs' : List (Point Fp2)}
    (hlength : ps.length = qs.length) :
    BatchDetermined T (ps ++ ps') (qs ++ qs') ↔
      BatchDetermined T ps qs ∧ BatchDetermined T ps' qs' := by
  unfold BatchDetermined
  rw [List.zipWith_append hlength, List.forall_mem_append]

/-- **Batches compose.** Whatever the hosts hint: over a batch there is one value the
loop can come to, and the values over the concatenation of two batches are the
products of a value over the first and a value over the second. -/
theorem millerLoopBatch_append (htwo : (2 : Fp2) ≠ 0) {ps : List (Point Fp)}
    {qs : List (Point Fp2)} (hlength : ps.length = qs.length) :
    (∀ hints hints' f f', millerLoopBatch T hints ps qs = .ok f →
      millerLoopBatch T hints' ps qs = .ok f' → f = f') ∧
    ∀ ps' qs' f, (∃ hints, millerLoopBatch T hints (ps ++ ps') (qs ++ qs') = .ok f) ↔
      ∃ hints hints' f₁ f₂, millerLoopBatch T hints ps qs = .ok f₁ ∧
        millerLoopBatch T hints' ps' qs' = .ok f₂ ∧ f = f₁ * f₂ := by
  constructor
  · intro hints hints' f f' h h'
    obtain ⟨-, -, rfl⟩ := millerLoopBatch_eq_ok htwo h
    obtain ⟨-, -, rfl⟩ := millerLoopBatch_eq_ok htwo h'
    rfl
  · intro ps' qs' f
    rw [exists_millerLoopBatch htwo, batchDetermined_append hlength, List.zipWith_append hlength,
      List.prod_append, map_mul, List.length_append, List.length_append, hlength]
    constructor
    · rintro ⟨hboth, ⟨hall, hall'⟩, rfl⟩
      obtain ⟨f₁, h₁⟩ := millerLoopBatch_honest htwo hlength hall
      obtain ⟨f₂, h₂⟩ := millerLoopBatch_honest htwo (Nat.add_left_cancel hboth) hall'
      obtain ⟨-, -, rfl⟩ := millerLoopBatch_eq_ok htwo h₁
      obtain ⟨-, -, rfl⟩ := millerLoopBatch_eq_ok htwo h₂
      exact ⟨honest, honest, _, _, h₁, h₂, rfl⟩
    · rintro ⟨hints, hints', f₁, f₂, h₁, h₂, rfl⟩
      obtain ⟨-, hall, rfl⟩ := millerLoopBatch_eq_ok htwo h₁
      obtain ⟨hlength', hall', rfl⟩ := millerLoopBatch_eq_ok htwo h₂
      exact ⟨congrArg (qs.length + ·) hlength', ⟨hall, hall'⟩, rfl⟩

end Run

/-! ## Points of the group -/

section Multiples

variable {T : Tower Fp2 Fp12} {b : Fp2} {Q : (curve b).Point}

/-- The number that bits spell, read after another one. -/
def spelled (n : ℕ) (bits : List ℕ) : ℕ :=
  bits.foldl (fun n bit => if bit = 1 then 2 * n + 1 else 2 * n) n

/-- |x| -/
def xAbs : ℕ := 0xd201000000010000

theorem spelled_xAbsBinBe : spelled 1 (xAbsBinBe.drop 1) = xAbs := by decide

theorem le_spelled : ∀ {bits : List ℕ} {n : ℕ}, n ≤ spelled n bits
  | [], _ => le_rfl
  | bit :: bits, n => by
      have hrest : (if bit = 1 then 2 * n + 1 else 2 * n) ≤ spelled n (bit :: bits) := le_spelled
      split at hrest <;> omega

/-- **A pair's walk**, by induction on the bits: at every step the running point is
the multiple that the bits so far spell, every line on the way is there, and the
walk ends at the multiple they all spell. -/
theorem pairEnd_multiple (htwo : (2 : Fp2) ≠ 0) {N : ℕ} (hQ : ∀ m, 0 < m → m ≤ N → m • Q ≠ 0) :
    ∀ {bits : List ℕ} {n : ℕ} {pair : Running Fp2}, 0 < n → spelled n bits ≤ N →
      Multiple Q 1 pair.q → Multiple Q n pair.r →
        AllDetermined bits pair ∧ Multiple Q (spelled n bits) (pairEnd bits pair).r := by
  intro bits
  induction bits with
  | nil => exact fun _ _ _ hr => ⟨trivial, hr⟩
  | cons bit bits ih =>
      intro n pair hpos hle hq hr
      have hnext : (if bit = 1 then 2 * n + 1 else 2 * n) ≤ N := le_spelled.trans hle
      have hdouble : 2 * n ≤ N := by
        split at hnext <;> omega
      have hy : pair.r.y ≠ 0 := hr.y_ne_zero (hQ _ (by omega) hdouble)
      have hdoubled : Multiple Q (2 * n) (doubled pair.r) := hr.double htwo hy
      have hx : bit = 1 → (doubled pair.r).x ≠ pair.q.x := by
        intro hbit
        rw [if_pos hbit] at hnext
        exact hdoubled.x_ne hq (by omega) (hQ _ (by omega) (by omega)) (hQ _ (by omega) hnext)
      have hstep : Multiple Q (if bit = 1 then 2 * n + 1 else 2 * n) (stepPair bit pair).r := by
        unfold stepPair
        split
        · next hbit => exact hdoubled.add hq (hx hbit)
        · exact hdoubled
      have hq' : Multiple Q 1 (stepPair bit pair).q := by
        unfold stepPair
        split <;> exact hq
      have hpos' : 0 < if bit = 1 then 2 * n + 1 else 2 * n := by
        split <;> omega
      obtain ⟨hall, hend⟩ := ih hpos' hle hq' hstep
      exact ⟨⟨⟨hy, hx⟩, hall⟩, hend⟩

/-- A point whose multiples up to |x| are all affine. -/
def Lasting (b : Fp2) (q : Point Fp2) : Prop :=
  ∃ Q : (curve b).Point, Multiple Q 1 q ∧ ∀ m, 0 < m → m ≤ xAbs → m • Q ≠ 0

/-- **Any point of the group but the identity**: its order is above |x|. -/
theorem lasting_of_prime_order {q : Point Fp2} (hq : Multiple Q 1 q) {r : ℕ} (hr : r.Prime)
    (hlarge : xAbs < r) (hgroup : r • Q = 0) : Lasting b q := by
  refine ⟨Q, hq, fun m hpos hle hzero => ?_⟩
  have hne : Q ≠ 0 := by
    obtain ⟨h, hsome⟩ := hq
    rw [one_nsmul] at hsome
    rw [hsome]
    exact WeierstrassCurve.Affine.Point.some_ne_zero h
  have : Fact r.Prime := ⟨hr⟩
  have hdvd : r ∣ m := by
    rw [← addOrderOf_eq_prime hgroup hne]
    exact addOrderOf_dvd_iff_nsmul_eq_zero.mpr hzero
  exact absurd (Nat.le_of_dvd hpos hdvd) (by omega)

omit [DecidableEq Fp2] in
theorem stepPair_q (bit : ℕ) (pair : Running Fp2) : (stepPair bit pair).q = pair.q := by
  unfold stepPair
  split <;> rfl

omit [DecidableEq Fp2] in
theorem pairEnd_q : ∀ (bits : List ℕ) (pair : Running Fp2), (pairEnd bits pair).q = pair.q
  | [], _ => rfl
  | bit :: bits, pair => (pairEnd_q bits (stepPair bit pair)).trans (stepPair_q bit pair)

/-- The walk of a pair of the batch. -/
theorem start_multiple (htwo : (2 : Fp2) ≠ 0) (p : Point Fp) {q : Point Fp2} (hq : Lasting b q) :
    AllDetermined (xAbsBinBe.drop 1) (Running.start T p q) ∧
      ∃ Q : (curve b).Point, Multiple Q 1 q ∧
        Multiple Q xAbs (pairEnd (xAbsBinBe.drop 1) (Running.start T p q)).r := by
  obtain ⟨Q, hone, hmultiples⟩ := hq
  have hstart : Multiple Q 1 (Running.start T p q).r := hone
  obtain ⟨hall, hend⟩ :=
    pairEnd_multiple htwo hmultiples one_pos spelled_xAbsBinBe.le hone hstart
  rw [spelled_xAbsBinBe] at hend
  exact ⟨hall, Q, hone, hend⟩

omit [DecidableEq Fp2] in
/-- A pair of the batch, with the points it was made of. -/
theorem mem_starts {ps : List (Point Fp)} {qs : List (Point Fp2)} {pair : Running Fp2}
    (h : pair ∈ ps.zipWith (Running.start T) qs) :
    ∃ p : Point Fp, ∃ q ∈ qs, pair = Running.start T p q := by
  rw [← List.map_uncurry_zip_eq_zipWith] at h
  obtain ⟨⟨p, q⟩, hmem, rfl⟩ := List.mem_map.mp h
  exact ⟨p, q, (List.of_mem_zip hmem).2, rfl⟩

omit [DecidableEq Fp2] in
/-- The pairs keep their points. -/
theorem starts_q {bits : List ℕ} : ∀ {ps : List (Point Fp)} {qs : List (Point Fp2)},
    ps.length = qs.length →
      ((ps.zipWith (Running.start T) qs).map (pairEnd bits)).map (·.q) = qs
  | [], [], _ => rfl
  | p :: ps, q :: qs, h => by
      have hrest : ((ps.zipWith (Running.start T) qs).map (pairEnd bits)).map (·.q) = qs :=
        starts_q (Nat.succ.inj h)
      simp only [List.zipWith_cons_cons, List.map_cons, hrest, pairEnd_q]
      rfl

theorem batchDetermined_of_lasting (htwo : (2 : Fp2) ≠ 0) {ps : List (Point Fp)}
    {qs : List (Point Fp2)} (hqs : ∀ q ∈ qs, Lasting b q) : BatchDetermined T ps qs := by
  intro pair hpair
  obtain ⟨p, q, hq, rfl⟩ := mem_starts hpair
  exact (start_multiple htwo p (hqs q hq)).1

/-- **Over points of the group the loop never fails**: there are hints it accepts,
and whatever hints it accepted, it has walked every pair to the multiple |x| of its
point. -/
theorem millerLoop_multiples (htwo : (2 : Fp2) ≠ 0) {ps : List (Point Fp)}
    {qs : List (Point Fp2)} (hlength : ps.length = qs.length) (hqs : ∀ q ∈ qs, Lasting b q) :
    (∃ hints f, millerLoopBatch T hints ps qs = .ok f) ∧
      ∀ hints f pairs, millerLoop T hints ps qs = .ok (f, pairs) →
        pairs.map (·.q) = qs ∧ ∀ pair ∈ pairs,
          ∃ Q : (curve b).Point, Multiple Q 1 pair.q ∧ Multiple Q xAbs pair.r := by
  refine ⟨⟨honest, millerLoopBatch_honest htwo hlength (batchDetermined_of_lasting htwo hqs)⟩,
    fun hints f pairs h => ?_⟩
  obtain ⟨-, hs⟩ := iterate_eq_ok htwo h
  obtain rfl := congrArg Prod.snd hs
  constructor
  · exact starts_q hlength
  · intro pair hpair
    obtain ⟨start, hstart, rfl⟩ := List.mem_map.mp hpair
    obtain ⟨p, q, hq, rfl⟩ := mem_starts hstart
    rw [pairEnd_q]
    exact (start_multiple htwo p (hqs q hq)).2

end Multiples

/-! ## The cusp

Over the rationals the points of `y² = x³` but the one at the origin are the
multiples of `(1, 1)` and what lies between them, and none of those multiples is the
identity. -/

namespace Cusp

/-- The lines themselves, for a value. -/
def tower : Tower ℚ ℚ := ⟨1, fun c₁ c₂ => 1 + c₁ + c₂, RingHom.id ℚ⟩

def one : Point ℚ := ⟨1, 1⟩

/-- The point at `n`: the coordinates are the square and the cube of `1/n`. -/
def place (n : ℕ) : Point ℚ := ⟨(n : ℚ)⁻¹ ^ 2, (n : ℚ)⁻¹ ^ 3⟩

theorem nonsingular_one : (curve (0 : ℚ)).Nonsingular 1 1 := by
  rw [WeierstrassCurve.Affine.nonsingular_iff, WeierstrassCurve.Affine.equation_iff]
  norm_num [curve]

theorem tangent_place : (place 1).tangent.sum (place 1) (place 1) = place 2 := by
  simp only [place, Point.tangent, Line.sum, Point.mk.injEq]
  norm_num

/-- Only the first place is above the first. -/
theorem inv_sq_ne_one {n : ℕ} (hn : 2 ≤ n) : (n : ℚ)⁻¹ ^ 2 ≠ 1 := by
  have hcast : (2 : ℚ) ≤ n := by exact_mod_cast hn
  have hinv : (n : ℚ) * (n : ℚ)⁻¹ = 1 := mul_inv_cancel₀ (by linarith)
  intro hone
  have hsquare : (n : ℚ) ^ 2 = 1 := by
    linear_combination ((n : ℚ) * (n : ℚ)⁻¹ + 1) * hinv - (n : ℚ) ^ 2 * hone
  nlinarith

/-- The chord from the first place, by its slope. -/
theorem chord_place {n : ℕ} (hn : 2 ≤ n) :
    ((place n).chord (place 1)).sum (place n) (place 1) = place (n + 1) := by
  have hcast : (2 : ℚ) ≤ n := by exact_mod_cast hn
  have hinv : (n : ℚ) * (n : ℚ)⁻¹ = 1 := mul_inv_cancel₀ (by linarith)
  have hinv' : ((n : ℚ) + 1) * ((n : ℚ) + 1)⁻¹ = 1 := mul_inv_cancel₀ (by linarith)
  have hne : (n : ℚ)⁻¹ ^ 2 - 1 ≠ 0 := sub_ne_zero.mpr (inv_sq_ne_one hn)
  have hplace : place (n + 1) = ⟨((n : ℚ) + 1)⁻¹ ^ 2, ((n : ℚ) + 1)⁻¹ ^ 3⟩ := by
    simp [place]
  rw [hplace]
  simp only [place, Point.chord, Line.sum, Nat.cast_one, inv_one, one_pow]
  generalize (n : ℚ)⁻¹ = u at *
  generalize ((n : ℚ) + 1)⁻¹ = v at *
  -- `1/(n+1)` and `1/n` are tied by this alone
  have htie : v * (1 + u) = u := by
    linear_combination u * hinv' - v * hinv
  have hslope : (u ^ 3 - 1) / (u ^ 2 - 1) = 1 + u - v := by
    rw [div_eq_iff hne]
    linear_combination (u - 1) * htie
  rw [hslope, Point.mk.injEq]
  constructor
  · linear_combination -2 * htie
  · linear_combination (2 + u - 3 * v) * htie

/-- By induction: the tangent doubles the first, and chords to it add on. -/
theorem multiple_place (n : ℕ) (hpos : 0 < n) :
    Multiple (.some 1 1 nonsingular_one : (curve (0 : ℚ)).Point) n (place n) := by
  have hone : Multiple (.some 1 1 nonsingular_one : (curve (0 : ℚ)).Point) 1 (place 1) := by
    refine ⟨?_, ?_⟩
    · simpa [place] using nonsingular_one
    · simp [place]
  induction n, hpos using Nat.le_induction with
  | base => exact hone
  | succ n hle ih =>
      rcases Nat.eq_or_lt_of_le hle with rfl | hlt
      · have hdouble := hone.double two_ne_zero (by simp [place])
        rw [tangent_place] at hdouble
        exact hdouble
      · have hx : (place n).x ≠ (place 1).x := by
          simpa [place] using inv_sq_ne_one hlt
        have hadd := ih.add hone hx
        rw [chord_place hlt] at hadd
        exact hadd

theorem lasting_one : Lasting 0 one := by
  refine ⟨.some 1 1 nonsingular_one, ⟨nonsingular_one, one_nsmul _⟩, fun m hpos _ => ?_⟩
  obtain ⟨h, hsome⟩ := multiple_place m hpos
  rw [hsome]
  exact WeierstrassCurve.Affine.Point.some_ne_zero h

theorem lasting_ones : ∀ q ∈ [one, one], Lasting 0 q := by
  simpa using lasting_one

/-- Two pairs, one in each batch. -/
theorem millerLoopBatch_append_one :
    ∃ f f₁ f₂ : ℚ, f = f₁ * f₂ ∧ ∃ hints hints' hints'',
      millerLoopBatch tower hints [one] [one] = .ok f₁ ∧
        millerLoopBatch tower hints' [one] [one] = .ok f₂ ∧
        millerLoopBatch tower hints'' [one, one] [one, one] = .ok f := by
  have hlength : [one].length = [one].length := rfl
  have hboth : BatchDetermined tower [one, one] [one, one] :=
    batchDetermined_of_lasting two_ne_zero lasting_ones
  obtain ⟨f, hf⟩ := millerLoopBatch_honest two_ne_zero rfl hboth
  obtain ⟨hints, hints', f₁, f₂, h₁, h₂, hprod⟩ :=
    ((millerLoopBatch_append (T := tower) two_ne_zero hlength).2 [one] [one] f).mp ⟨honest, hf⟩
  exact ⟨f, f₁, f₂, hprod, hints, hints', honest, h₁, h₂, hf⟩

/-- Two pairs are walked to the end. -/
theorem millerLoop_multiples_one :
    (∃ hints f, millerLoopBatch tower hints [one, one] [one, one] = .ok f) ∧
      ∀ hints f pairs, millerLoop tower hints [one, one] [one, one] = .ok (f, pairs) →
        pairs.map (·.q) = [one, one] ∧ ∀ pair ∈ pairs,
          ∃ Q : (curve (0 : ℚ)).Point, Multiple Q 1 pair.q ∧ Multiple Q xAbs pair.r :=
  millerLoop_multiples two_ne_zero rfl lasting_ones

end Cusp

end Zkasper.Miller
