import Zkasper.Fcr.Verifier
import Mathlib.Data.List.Chain

/-! # Joining batches into a window

What `accumulate` makes of any published values. A batch joins on to the one before it
(`Joins`) by five comparisons, and the last of them, on slots, is made in wrapping 64-bit
arithmetic, as the window's last slot is computed; only the sum of the supports is checked.
So a run is joined exactly if every batch joins on and the supports sum below 2^64
(`accumulate_eq_ok`), and a window is joined like a batch of its slots (`accumulate_append`).

Where every batch covers a slot and ends below 2^64 that is what a window should be. A batch
of no slots, or one past the last slot number, is joined all the same (`accumulate_exact_iff`). -/

namespace Zkasper.Fcr

variable {P : Primitives}

/-! ## What joins -/

/-- Number of slots a window counts. -/
def Window.slotCount (w : Window P) : UInt64 := w.lastSlot - w.firstSlot + 1

/-- The batch `b'` continues the batch `b`, as the loop compares them. -/
structure Joins (b b' : FcrBatchOutput P) : Prop where
  accumulator : b'.accumulatorCommitment = b.accumulatorCommitment
  committee : b'.committeeRoot = b.committeeRoot
  total : b'.totalActiveBalance = b.totalActiveBalance
  head : b'.parentHeadRoot = b.headRoot
  slot : b'.firstSlot = b.firstSlot + b.slotCount

/-- The sum of the supports. -/
def supports (batches : List (FcrBatchOutput P)) : ℕ :=
  (batches.map fun b => b.support.toNat).sum

@[simp] theorem supports_cons (b : FcrBatchOutput P) (batches : List (FcrBatchOutput P)) :
    supports (b :: batches) = b.support.toNat + supports batches := by
  simp [supports]

@[simp] theorem supports_append (xs ys : List (FcrBatchOutput P)) :
    supports (xs ++ ys) = supports xs + supports ys := by
  simp [supports]

/-- **A run that joins up**: each batch continues the one before it, and the supports fit. -/
structure Linked (batches : List (FcrBatchOutput P)) : Prop where
  joins : batches.IsChain Joins
  support : supports batches < 2 ^ 64

/-- The window of a run: what the first and the last batch say, and the support of all. -/
def Window.ofRun (first last : FcrBatchOutput P) (support : UInt64) : Window P :=
  { Window.start first with
    lastSlot := last.firstSlot + last.slotCount - 1
    headRoot := last.headRoot
    headSlot := last.headSlot
    support := support }

theorem Window.ofRun_self (b : FcrBatchOutput P) : Window.ofRun b b b.support = Window.start b :=
  rfl

/-- Two batches counted against one validator set and one partition of it. -/
structure Agrees (b b' : FcrBatchOutput P) : Prop where
  accumulator : b'.accumulatorCommitment = b.accumulatorCommitment
  committee : b'.committeeRoot = b.committeeRoot
  total : b'.totalActiveBalance = b.totalActiveBalance

namespace Agrees

variable {a b c : FcrBatchOutput P}

theorem refl (b : FcrBatchOutput P) : Agrees b b := ⟨rfl, rfl, rfl⟩

theorem symm (h : Agrees a b) : Agrees b a :=
  ⟨h.accumulator.symm, h.committee.symm, h.total.symm⟩

theorem trans (hab : Agrees a b) (hbc : Agrees b c) : Agrees a c :=
  ⟨hbc.accumulator.trans hab.accumulator, hbc.committee.trans hab.committee,
    hbc.total.trans hab.total⟩

end Agrees

theorem Joins.agrees {b b' : FcrBatchOutput P} (h : Joins b b') : Agrees b b' :=
  ⟨h.accumulator, h.committee, h.total⟩

/-! ## The loop -/

section Loop

variable {first last batch : FcrBatchOutput P} {rest : List (FcrBatchOutput P)}
  {support : UInt64} {w : Window P}

/-- **One turn of the loop**: the batch continues the last one, and the support fits. -/
theorem extend_ofRun_eq_ok (hagrees : Agrees first last) :
    (Window.ofRun first last support).extend batch = .ok w ↔
      Joins last batch ∧ support.toNat + batch.support.toNat < 2 ^ 64 ∧
        w = Window.ofRun first batch (UInt64.ofNat (support.toNat + batch.support.toNat)) := by
  have hslot : last.firstSlot + last.slotCount - 1 + 1 = last.firstSlot + last.slotCount :=
    UInt64.sub_add_cancel _ _
  constructor
  · intro h
    unfold Window.extend at h
    split_ifs at h with haccumulator hcommittee htotal hhead hfirst
    simp only [ne_eq, not_not] at haccumulator hcommittee htotal hhead hfirst
    cases hsum : toU64? ((Window.ofRun first last support).support.toNat + batch.support.toNat) with
    | none =>
        rw [hsum] at h
        cases h
    | some sum =>
        rw [hsum] at h
        obtain ⟨hfits, hsum⟩ := Option.ite_none_right_eq_some.mp hsum
        obtain rfl := Option.some.inj hsum
        refine ⟨⟨haccumulator.trans hagrees.accumulator.symm,
          hcommittee.trans hagrees.committee.symm, htotal.trans hagrees.total.symm, hhead,
          hfirst.trans hslot⟩, hfits, (Except.ok.inj h).symm⟩
  · rintro ⟨hjoins, hfits, rfl⟩
    have haccumulator : batch.accumulatorCommitment =
        (Window.ofRun first last support).accumulatorCommitment :=
      hjoins.accumulator.trans hagrees.accumulator
    have hcommittee : batch.committeeRoot = (Window.ofRun first last support).committeeRoot :=
      hjoins.committee.trans hagrees.committee
    have htotal : batch.totalActiveBalance =
        (Window.ofRun first last support).totalActiveBalance :=
      hjoins.total.trans hagrees.total
    have hhead : batch.parentHeadRoot = (Window.ofRun first last support).headRoot := hjoins.head
    have hfirst : batch.firstSlot = (Window.ofRun first last support).lastSlot + 1 :=
      hjoins.slot.trans hslot.symm
    have hsum : toU64? ((Window.ofRun first last support).support.toNat + batch.support.toNat) =
        some (UInt64.ofNat (support.toNat + batch.support.toNat)) := if_pos hfits
    rw [Window.extend, if_neg (not_not.mpr haccumulator), if_neg (not_not.mpr hcommittee),
      if_neg (not_not.mpr htotal), if_neg (not_not.mpr hhead), if_neg (not_not.mpr hfirst), hsum]
    rfl

theorem foldlM_extend_eq_ok (hagrees : Agrees first last) :
    rest.foldlM Window.extend (Window.ofRun first last support) = .ok w ↔
      (last :: rest).IsChain Joins ∧ support.toNat + supports rest < 2 ^ 64 ∧
        w = Window.ofRun first (rest.getLastD last)
          (UInt64.ofNat (support.toNat + supports rest)) := by
  induction rest generalizing last support with
  | nil =>
      have hsupport : support.toNat + supports ([] : List (FcrBatchOutput P)) < 2 ^ 64 :=
        support.toNat_lt
      rw [Guest.foldlM_nil]
      constructor
      · rintro rfl
        exact ⟨List.isChain_singleton _, hsupport, by simp [supports]⟩
      · rintro ⟨-, -, rfl⟩
        simp [supports]
  | cons batch rest ih =>
      rw [Guest.foldlM_cons, List.isChain_cons_cons, List.getLastD_cons, supports_cons]
      constructor
      · rintro ⟨mid, hstep, hrest⟩
        obtain ⟨hjoins, hfits, rfl⟩ := (extend_ofRun_eq_ok hagrees).mp hstep
        obtain ⟨hchain, hsum, rfl⟩ := (ih (hagrees.trans hjoins.agrees)).mp hrest
        rw [UInt64.toNat_ofNat', Nat.mod_eq_of_lt hfits, Nat.add_assoc] at hsum
        refine ⟨⟨hjoins, hchain⟩, hsum, ?_⟩
        rw [UInt64.toNat_ofNat', Nat.mod_eq_of_lt hfits, Nat.add_assoc]
      · rintro ⟨⟨hjoins, hchain⟩, hsum, rfl⟩
        have hfits : support.toNat + batch.support.toNat < 2 ^ 64 := by omega
        refine ⟨_, (extend_ofRun_eq_ok hagrees).mpr ⟨hjoins, hfits, rfl⟩,
          (ih (hagrees.trans hjoins.agrees)).mpr ⟨hchain, ?_, ?_⟩⟩
        · rw [UInt64.toNat_ofNat', Nat.mod_eq_of_lt hfits, Nat.add_assoc]
          exact hsum
        · rw [UInt64.toNat_ofNat', Nat.mod_eq_of_lt hfits, Nat.add_assoc]

/-- **What is joined**, and what into. -/
theorem accumulate_eq_ok :
    accumulate (first :: rest) = .ok w ↔ Linked (first :: rest) ∧
      w = Window.ofRun first (rest.getLastD first)
        (UInt64.ofNat (supports (first :: rest))) := by
  rw [accumulate, ← Window.ofRun_self, foldlM_extend_eq_ok (Agrees.refl first), ← supports_cons]
  exact ⟨fun ⟨hchain, hsum, hw⟩ => ⟨⟨hchain, hsum⟩, hw⟩,
    fun ⟨hlinked, hw⟩ => ⟨hlinked.joins, hlinked.support, hw⟩⟩

/-- The last batch of a run agrees with the first. -/
theorem agrees_getLastD (h : (first :: rest).IsChain Joins) :
    Agrees first (rest.getLastD first) := by
  induction rest generalizing first with
  | nil => exact Agrees.refl first
  | cons batch rest ih =>
      obtain ⟨hjoins, hchain⟩ := List.isChain_cons_cons.mp h
      rw [List.getLastD_cons]
      exact hjoins.agrees.trans (ih hchain)

end Loop

/-! ## Windows of windows -/

/-- A window read as one batch of its slots. -/
def Window.asBatch (w : Window P) : FcrBatchOutput P where
  accumulatorCommitment := w.accumulatorCommitment
  committeeRoot := w.committeeRoot
  parentHeadRoot := w.parentHeadRoot
  headRoot := w.headRoot
  headSlot := w.headSlot
  support := w.support
  totalActiveBalance := w.totalActiveBalance
  firstSlot := w.firstSlot
  slotCount := w.slotCount
  -- a window is not judged before it is joined
  threshold := 0
  confirmed := false
  byzantineThreshold := 0
  proposerScoreBoost := 0
  emptySlotSupport := 0

section Append

variable {xs ys : List (FcrBatchOutput P)} {w : Window P}

theorem joins_asBatch {b first last : FcrBatchOutput P} {support : UInt64} :
    Joins b (Window.ofRun first last support).asBatch ↔ Joins b first :=
  ⟨fun ⟨ha, hc, ht, hh, hs⟩ => ⟨ha, hc, ht, hh, hs⟩,
    fun ⟨ha, hc, ht, hh, hs⟩ => ⟨ha, hc, ht, hh, hs⟩⟩

theorem ofRun_asBatch {x first last : FcrBatchOutput P} {support sum : UInt64} :
    Window.ofRun x (Window.ofRun first last support).asBatch sum = Window.ofRun x last sum := by
  have hlast : first.firstSlot + (last.firstSlot + last.slotCount - 1 - first.firstSlot + 1) - 1 =
      last.firstSlot + last.slotCount - 1 := by
    rw [← UInt64.add_assoc, UInt64.add_sub_cancel, UInt64.add_comm, UInt64.sub_add_cancel]
  exact congrArg (fun lastSlot => ({ Window.start x with
    lastSlot := lastSlot
    headRoot := last.headRoot
    headSlot := last.headSlot
    support := sum } : Window P)) hlast

/-- One turn of the loop, with a window for the batch. -/
theorem extend_asBatch_eq_ok {x last y last' : FcrBatchOutput P} (hagrees : Agrees x last)
    {n m : ℕ} (hn : n < 2 ^ 64) (hm : m < 2 ^ 64) :
    (Window.ofRun x last (UInt64.ofNat n)).extend
        (Window.ofRun y last' (UInt64.ofNat m)).asBatch = .ok w ↔
      Joins last y ∧ n + m < 2 ^ 64 ∧ w = Window.ofRun x last' (UInt64.ofNat (n + m)) := by
  have hsum : (UInt64.ofNat n).toNat +
      (Window.ofRun y last' (UInt64.ofNat m)).asBatch.support.toNat = n + m := by
    show (UInt64.ofNat n).toNat + (UInt64.ofNat m).toNat = n + m
    rw [UInt64.toNat_ofNat', UInt64.toNat_ofNat', Nat.mod_eq_of_lt hn, Nat.mod_eq_of_lt hm]
  rw [extend_ofRun_eq_ok hagrees, joins_asBatch, ofRun_asBatch, hsum]

theorem getLastD_append_cons (y : FcrBatchOutput P) (ys : List (FcrBatchOutput P)) :
    ∀ (xs : List (FcrBatchOutput P)) (x : FcrBatchOutput P),
      (xs ++ y :: ys).getLastD x = ys.getLastD y
  | [], _ => List.getLastD_cons
  | x' :: xs, x => by
      rw [List.cons_append, List.getLastD_cons, getLastD_append_cons y ys xs x']

/-- **A window joins like a batch**: a run in two parts is the window of the one extended by the
window of the other. -/
theorem accumulate_append (hxs : xs ≠ []) (hys : ys ≠ []) :
    accumulate (xs ++ ys) = .ok w ↔
      ∃ w₁ w₂, accumulate xs = .ok w₁ ∧ accumulate ys = .ok w₂ ∧ w₁.extend w₂.asBatch = .ok w := by
  obtain ⟨x, xs, rfl⟩ := List.exists_cons_of_ne_nil hxs
  obtain ⟨y, ys, rfl⟩ := List.exists_cons_of_ne_nil hys
  have hjoin : (x :: xs ++ y :: ys).IsChain Joins ↔
      (x :: xs).IsChain Joins ∧ (y :: ys).IsChain Joins ∧ Joins (xs.getLastD x) y := by
    rw [List.isChain_append, List.getLast?_cons, List.head?_cons, ← List.getLastD_eq_getLast?]
    simp
  have hsum : supports (x :: xs ++ y :: ys) = supports (x :: xs) + supports (y :: ys) :=
    supports_append _ _
  have hwhole : accumulate (x :: xs ++ y :: ys) = .ok w ↔ Linked (x :: xs ++ y :: ys) ∧
      w = Window.ofRun x (ys.getLastD y)
        (UInt64.ofNat (supports (x :: xs) + supports (y :: ys))) := by
    rw [← hsum, List.cons_append, accumulate_eq_ok, getLastD_append_cons]
  rw [hwhole]
  constructor
  · rintro ⟨⟨hchain, hsupport⟩, hw⟩
    obtain ⟨hxs, hys, hjoins⟩ := hjoin.mp hchain
    rw [hsum] at hsupport
    have hx : supports (x :: xs) < 2 ^ 64 := by omega
    have hy : supports (y :: ys) < 2 ^ 64 := by omega
    exact ⟨_, _, accumulate_eq_ok.mpr ⟨⟨hxs, hx⟩, rfl⟩, accumulate_eq_ok.mpr ⟨⟨hys, hy⟩, rfl⟩,
      (extend_asBatch_eq_ok (agrees_getLastD hxs) hx hy).mpr ⟨hjoins, hsupport, hw⟩⟩
  · rintro ⟨w₁, w₂, hw₁, hw₂, h⟩
    obtain ⟨⟨hxs, hx⟩, rfl⟩ := accumulate_eq_ok.mp hw₁
    obtain ⟨⟨hys, hy⟩, rfl⟩ := accumulate_eq_ok.mp hw₂
    obtain ⟨hjoins, hsupport, hw⟩ := (extend_asBatch_eq_ok (agrees_getLastD hxs) hx hy).mp h
    exact ⟨⟨hjoin.mpr ⟨hxs, hys, hjoins⟩, hsum ▸ hsupport⟩, hw⟩

end Append

/-! ## What a window should be -/

/-- A batch of at least one slot, whose slot numbers do not overflow. -/
structure InBounds (b : FcrBatchOutput P) : Prop where
  covers : 1 ≤ b.slotCount
  ends : b.firstSlot.toNat + b.slotCount.toNat < 2 ^ 64

/-- **A contiguous run**, in exact arithmetic: one validator set, one partition, each batch on
the head and the slot the one before it ends with, and supports that fit 64 bits. -/
structure Contiguous (batches : List (FcrBatchOutput P)) : Prop where
  agree : ∀ b ∈ batches, ∀ b' ∈ batches, Agrees b b'
  heads : batches.IsChain fun b b' => b'.parentHeadRoot = b.headRoot
  slots : batches.IsChain fun b b' =>
    b'.firstSlot.toNat = b.firstSlot.toNat + b.slotCount.toNat - 1 + 1
  support : supports batches < 2 ^ 64

/-- **The window of a run**: all of its support and all of its slots, from the first batch's
parent to the last one's head. -/
structure IsWindow (batches : List (FcrBatchOutput P)) (w : Window P) : Prop where
  support : w.support.toNat = supports batches
  slotCount : w.slotCount.toNat = (batches.map fun b => b.slotCount.toNat).sum
  parent : ∀ b ∈ batches.head?, w.parentHeadRoot = b.parentHeadRoot
  head : ∀ b ∈ batches.getLast?, w.headRoot = b.headRoot

section Exact

variable {batches : List (FcrBatchOutput P)}

theorem joins_iff {b b' : FcrBatchOutput P} (hb : InBounds b) :
    Joins b b' ↔ Agrees b b' ∧ b'.parentHeadRoot = b.headRoot ∧
      b'.firstSlot.toNat = b.firstSlot.toNat + b.slotCount.toNat - 1 + 1 := by
  have hcovers : 1 ≤ b.slotCount.toNat := UInt64.le_iff_toNat_le.mp hb.covers
  have hends := hb.ends
  have hslot : b'.firstSlot = b.firstSlot + b.slotCount ↔
      b'.firstSlot.toNat = b.firstSlot.toNat + b.slotCount.toNat - 1 + 1 := by
    rw [← UInt64.toNat_inj, UInt64.toNat_add, Nat.mod_eq_of_lt hends]
    omega
  exact ⟨fun h => ⟨h.agrees, h.head, hslot.mp h.slot⟩,
    fun ⟨hagrees, hhead, hfirst⟩ => ⟨hagrees.accumulator, hagrees.committee, hagrees.total, hhead,
      hslot.mpr hfirst⟩⟩

theorem isChain_agrees : batches.IsChain Agrees ↔ ∀ b ∈ batches, ∀ b' ∈ batches, Agrees b b' := by
  have htrans : IsTrans (FcrBatchOutput P) Agrees := ⟨fun _ _ _ => Agrees.trans⟩
  have hsymm : Std.Symm (Agrees (P := P)) := ⟨fun _ _ => Agrees.symm⟩
  rw [List.isChain_iff_pairwise]
  constructor
  · exact fun h b hb b' hb' => h.forall_of_forall (fun b _ => Agrees.refl b) hb hb'
  · exact fun h => List.pairwise_of_forall_mem_list h

/-- In bounds the wrapping comparisons are the exact ones. -/
theorem linked_iff (hin : ∀ b ∈ batches, InBounds b) : Linked batches ↔ Contiguous batches := by
  have hjoins : batches.IsChain Joins ↔ batches.IsChain Agrees ∧
      (batches.IsChain fun b b' => b'.parentHeadRoot = b.headRoot) ∧
      batches.IsChain fun b b' =>
        b'.firstSlot.toNat = b.firstSlot.toNat + b.slotCount.toNat - 1 + 1 := by
    simp only [List.isChain_iff_getElem, ← forall_and]
    exact forall_congr' fun i => forall_congr' fun hi => joins_iff (hin _ (List.getElem_mem _))
  rw [isChain_agrees] at hjoins
  constructor
  · intro h
    obtain ⟨hagree, hheads, hslots⟩ := hjoins.mp h.joins
    exact ⟨hagree, hheads, hslots, h.support⟩
  · intro h
    exact ⟨hjoins.mpr ⟨h.agree, h.heads, h.slots⟩, h.support⟩

/-- The slots of a contiguous run, counted from both of its ends. -/
theorem slots_sum {first : FcrBatchOutput P} {rest : List (FcrBatchOutput P)}
    (hin : ∀ b ∈ first :: rest, InBounds b) (hchain : (first :: rest).IsChain Joins) :
    first.firstSlot.toNat + ((first :: rest).map fun b => b.slotCount.toNat).sum =
      (rest.getLastD first).firstSlot.toNat + (rest.getLastD first).slotCount.toNat := by
  induction rest generalizing first with
  | nil => simp
  | cons batch rest ih =>
      obtain ⟨hjoins, hchain⟩ := List.isChain_cons_cons.mp hchain
      obtain ⟨hfirst, hrest⟩ := List.forall_mem_cons.mp hin
      have hslot := ((joins_iff hfirst).mp hjoins).2.2
      have hcovers : 1 ≤ first.slotCount.toNat := UInt64.le_iff_toNat_le.mp hfirst.covers
      have hsum := ih hrest hchain
      rw [List.getLastD_cons, ← hsum, List.map_cons, List.sum_cons]
      omega

theorem accumulate_isWindow (hin : ∀ b ∈ batches, InBounds b) {w : Window P}
    (h : accumulate batches = .ok w) : IsWindow batches w := by
  cases batches with
  | nil => cases h
  | cons first rest =>
      obtain ⟨⟨hchain, hsupport⟩, rfl⟩ := accumulate_eq_ok.mp h
      have hsum := slots_sum hin hchain
      have hends := (hin _ List.getLastD_mem_cons).ends
      set last := rest.getLastD first with hlast
      have hcount : last.firstSlot + last.slotCount - 1 - first.firstSlot + 1 =
          last.firstSlot + last.slotCount - first.firstSlot := by
        grind
      have htotal : (last.firstSlot + last.slotCount).toNat =
          last.firstSlot.toNat + last.slotCount.toNat := by
        rw [UInt64.toNat_add, Nat.mod_eq_of_lt hends]
      constructor
      · show (UInt64.ofNat (supports (first :: rest))).toNat = supports (first :: rest)
        rw [UInt64.toNat_ofNat', Nat.mod_eq_of_lt hsupport]
      · show (last.firstSlot + last.slotCount - 1 - first.firstSlot + 1).toNat = _
        rw [hcount, UInt64.toNat_sub_of_le _ _ (UInt64.le_iff_toNat_le.mpr (by omega)), htotal]
        omega
      · intro b hb
        obtain rfl := Option.mem_some_iff.mp hb
        rfl
      · intro b hb
        rw [List.getLast?_cons, ← List.getLastD_eq_getLast?] at hb
        obtain rfl := Option.mem_some_iff.mp hb
        rfl

end Exact

/-- **What joining promises** of a run. In bounds it is joined exactly if it is contiguous, and
into the window of the run; in any two parts it is joined as the windows of the parts are; and
out of bounds, or with supports that do not fit, it is an error. -/
structure Exact (batches : List (FcrBatchOutput P)) : Prop where
  accepted : (∀ b ∈ batches, InBounds b) → ((∃ w, accumulate batches = .ok w) ↔ Contiguous batches)
  window : (∀ b ∈ batches, InBounds b) → ∀ w, accumulate batches = .ok w → IsWindow batches w
  split : ∀ xs ys, xs ≠ [] → ys ≠ [] → batches = xs ++ ys → ∀ w, accumulate batches = .ok w ↔
    ∃ w₁ w₂, accumulate xs = .ok w₁ ∧ accumulate ys = .ok w₂ ∧ w₁.extend w₂.asBatch = .ok w
  refused : (∃ b ∈ batches, ¬ InBounds b) ∨ 2 ^ 64 ≤ supports batches →
    ∃ e, accumulate batches = .error e

/-- **Where joining keeps its promise**: where every batch covers a slot and ends below 2^64, or
the run does not join up anyway. What breaks it are runs out of bounds whose neighbours are
equal in wrapping arithmetic. -/
theorem accumulate_exact_iff (first : FcrBatchOutput P) (rest : List (FcrBatchOutput P)) :
    Exact (first :: rest) ↔
      (∀ b ∈ first :: rest, InBounds b) ∨ ¬ Linked (first :: rest) := by
  have hok : (∃ w, accumulate (first :: rest) = .ok w) ↔ Linked (first :: rest) :=
    ⟨fun ⟨w, hw⟩ => (accumulate_eq_ok.mp hw).1, fun h => ⟨_, accumulate_eq_ok.mpr ⟨h, rfl⟩⟩⟩
  have herror : (∃ e, accumulate (first :: rest) = .error e) ↔ ¬ Linked (first :: rest) := by
    rw [← hok]
    cases accumulate (first :: rest) with
    | ok w => simp
    | error e => simp
  constructor
  · intro h
    by_contra hboth
    obtain ⟨hout, hlinked⟩ := not_or.mp hboth
    push Not at hout hlinked
    exact herror.mp (h.refused (Or.inl hout)) hlinked
  · intro h
    constructor
    · intro hin
      rw [hok, linked_iff hin]
    · exact fun hin w hw => accumulate_isWindow hin hw
    · rintro xs ys hxs hys heq w
      rw [heq]
      exact accumulate_append hxs hys
    · rintro (⟨b, hb, hout⟩ | hsum)
      · exact herror.mpr (h.resolve_left fun hin => hout (hin b hb))
      · exact herror.mpr fun hlinked => absurd hlinked.support (not_lt.mpr hsum)

/-- A batch of no slots is joined into a window that ends before it starts, and a batch whose
last slot is past 2^64 into one that ends at slot 3. -/
theorem not_exact_out_of_bounds :
    accumulate [sampleBatch 5 0 200] = .ok (sampleWindow 5 0 200) ∧
      (sampleWindow 5 0 200).lastSlot = 4 ∧ ¬ Exact [sampleBatch 5 0 200] ∧
      accumulate [sampleBatch 5 18446744073709551615 200] =
        .ok (sampleWindow 5 18446744073709551615 200) ∧
      (sampleWindow 5 18446744073709551615 200).lastSlot = 3 ∧
      ¬ Exact [sampleBatch 5 18446744073709551615 200] := by
  refine ⟨rfl, rfl, fun h => ?_, rfl, rfl, fun h => ?_⟩
  · have hout : ¬ InBounds (sampleBatch 5 0 200) := fun h => absurd h.covers (by decide)
    obtain ⟨e, he⟩ := h.refused (Or.inl ⟨_, List.mem_singleton_self _, hout⟩)
    cases he
  · have hout : ¬ InBounds (sampleBatch 5 18446744073709551615 200) :=
      fun h => absurd h.ends (by decide)
    obtain ⟨e, he⟩ := h.refused (Or.inl ⟨_, List.mem_singleton_self _, hout⟩)
    cases he

end Zkasper.Fcr
