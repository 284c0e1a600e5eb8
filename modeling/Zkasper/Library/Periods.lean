import Mathlib.Order.Interval.Finset.Nat
import Mathlib.Data.Finset.Card
import Mathlib.Tactic.Common

/-! # Time in which something ran

Instants are counted, so what runs in two overlapping periods at once is counted once: the time is
never more than has passed (`elapsed_le`). A period that starts after all others have ended adds
its whole length (`elapsed_append`). -/

namespace Periods

/-- The instants of a window in which some period runs. -/
def running (periods : List (ℕ × ℕ)) (start stop : ℕ) : Finset ℕ :=
  (Finset.Ico start stop).filter fun t => ∃ p ∈ periods, p.1 ≤ t ∧ t < p.2

/-- How much of a window some period runs. -/
def elapsed (periods : List (ℕ × ℕ)) (start stop : ℕ) : ℕ := (running periods start stop).card

variable {periods more : List (ℕ × ℕ)} {start stop stop' t : ℕ}

theorem mem_running : t ∈ running periods start stop ↔
    (start ≤ t ∧ t < stop) ∧ ∃ p ∈ periods, p.1 ≤ t ∧ t < p.2 := by
  rw [running, Finset.mem_filter, Finset.mem_Ico]

/-- Nothing runs longer than the window. -/
theorem elapsed_le (periods : List (ℕ × ℕ)) (start stop : ℕ) :
    elapsed periods start stop ≤ stop - start := by
  rw [← Nat.card_Ico]
  exact Finset.card_filter_le _ _

theorem elapsed_mono (hstop : stop ≤ stop') :
    elapsed periods start stop ≤ elapsed (periods ++ more) start stop' := by
  apply Finset.card_le_card
  intro t ht
  obtain ⟨⟨hstart, hlt⟩, p, hp, hruns⟩ := mem_running.mp ht
  exact mem_running.mpr ⟨⟨hstart, hlt.trans_le hstop⟩, p, List.mem_append_left _ hp, hruns⟩

/-- A period after all others adds what the window has of it. -/
theorem elapsed_append (period : ℕ × ℕ) (hafter : ∀ p ∈ periods, p.2 ≤ period.1)
    (hstop : stop ≤ stop') (hends : period.2 ≤ stop') :
    elapsed periods start stop + (period.2 - max period.1 start) ≤
      elapsed (periods ++ [period]) start stop' := by
  have hdisjoint : Disjoint (running periods start stop)
      (Finset.Ico (max period.1 start) period.2) := by
    rw [Finset.disjoint_left]
    intro t ht hperiod
    obtain ⟨-, p, hp, -, hlt⟩ := mem_running.mp ht
    have hbefore := hafter p hp
    have hfrom := le_of_max_le_left (Finset.mem_Ico.mp hperiod).1
    omega
  rw [elapsed, ← Nat.card_Ico, ← Finset.card_union_of_disjoint hdisjoint]
  apply Finset.card_le_card
  intro t ht
  rw [mem_running]
  rcases Finset.mem_union.mp ht with ht | ht
  · obtain ⟨⟨hstart, hlt⟩, p, hp, hruns⟩ := mem_running.mp ht
    exact ⟨⟨hstart, hlt.trans_le hstop⟩, p, List.mem_append_left _ hp, hruns⟩
  · obtain ⟨hfrom, hlt⟩ := Finset.mem_Ico.mp ht
    obtain ⟨hperiod, hstart⟩ := max_le_iff.mp hfrom
    exact ⟨⟨hstart, hlt.trans_le hends⟩, period, by simp, hperiod, hlt⟩

end Periods
