import Mathlib.Order.Defs.LinearOrder
import Mathlib.Algebra.Order.Monoid.Defs
import Mathlib.Data.List.TakeWhile

/-! # Windows on a lane

A lane keeps the windows it has booked, ordered by their start. The search for room walks over
them once and jumps to the end of whatever is in the way (`firstClear`). Where it stops, no window
is (`firstClear_clear`): a window it has passed ends before, and once one starts after the room
there is, so do all that follow. Booking keeps the order (`Ordered.book`), whatever is booked. -/

namespace Windows

variable {𝕜 : Type} [LinearOrder 𝕜]

/-- The windows of a lane, by start. -/
def Ordered (windows : List (𝕜 × 𝕜)) : Prop := windows.Pairwise fun w w' => w.1 ≤ w'.1

/-- No window has anything of what is between. -/
def Clear (windows : List (𝕜 × 𝕜)) (start stop : 𝕜) : Prop :=
  ∀ w ∈ windows, stop ≤ w.1 ∨ w.2 ≤ start

/-- Book a window, in order. -/
def book (windows : List (𝕜 × 𝕜)) (window : 𝕜 × 𝕜) : List (𝕜 × 𝕜) :=
  windows.takeWhile (·.1 < window.1) ++ window :: windows.dropWhile (·.1 < window.1)

theorem mem_book {windows : List (𝕜 × 𝕜)} {window w : 𝕜 × 𝕜} :
    w ∈ book windows window ↔ w = window ∨ w ∈ windows := by
  have hsplit : w ∈ windows ↔ w ∈ windows.takeWhile (·.1 < window.1) ∨
      w ∈ windows.dropWhile (·.1 < window.1) := by
    rw [← List.mem_append, List.takeWhile_append_dropWhile]
  rw [book, List.mem_append, List.mem_cons, hsplit]
  exact or_left_comm

/-- What is left after the windows that start before starts no earlier. -/
theorem le_of_mem_dropWhile {windows : List (𝕜 × 𝕜)} (h : Ordered windows) {start : 𝕜} :
    ∀ w ∈ windows.dropWhile (·.1 < start), start ≤ w.1 := by
  induction windows with
  | nil => simp
  | cons first windows ih =>
      obtain ⟨hfirst, hrest⟩ := List.pairwise_cons.mp h
      intro w hw
      rw [List.dropWhile_cons] at hw
      split at hw
      · exact ih hrest w hw
      · next hlate =>
          have hlate : start ≤ first.1 := by simpa using hlate
          rcases List.mem_cons.mp hw with rfl | hw
          · exact hlate
          · exact hlate.trans (hfirst w hw)

theorem Ordered.book {windows : List (𝕜 × 𝕜)} (h : Ordered windows) (window : 𝕜 × 𝕜) :
    Ordered (book windows window) := by
  have hkept : Ordered (windows.takeWhile (·.1 < window.1) ++
      windows.dropWhile (·.1 < window.1)) := by
    rw [List.takeWhile_append_dropWhile]
    exact h
  obtain ⟨hbefore, hafter, hacross⟩ := List.pairwise_append.mp hkept
  refine List.pairwise_append.mpr ⟨hbefore, List.pairwise_cons.mpr
    ⟨le_of_mem_dropWhile h, hafter⟩, ?_⟩
  intro w hw w' hw'
  rcases List.mem_cons.mp hw' with rfl | hw'
  · have hearly := List.mem_takeWhile_imp hw
    exact le_of_lt (by simpa using hearly)
  · exact hacross w hw w' hw'

variable [Add 𝕜]

/-- Earliest start at or after `release` that leaves `duration` clear. -/
def firstClear (windows : List (𝕜 × 𝕜)) (release duration : 𝕜) : 𝕜 :=
  windows.foldl (fun start busy =>
    if busy.1 < start + duration ∧ start < busy.2 then busy.2 else start) release

/-- Room that every window leaves is taken. -/
theorem firstClear_eq {windows : List (𝕜 × 𝕜)} {release duration : 𝕜}
    (h : ∀ w ∈ windows, release + duration ≤ w.1) :
    firstClear windows release duration = release := by
  induction windows with
  | nil => rfl
  | cons first windows ih =>
      obtain ⟨hfirst, hrest⟩ := List.forall_mem_cons.mp h
      rw [firstClear, List.foldl_cons, if_neg (fun hbusy => not_lt.mpr hfirst hbusy.1)]
      exact ih hrest

theorem le_firstClear (windows : List (𝕜 × 𝕜)) (release duration : 𝕜) :
    release ≤ firstClear windows release duration := by
  induction windows generalizing release with
  | nil => exact le_rfl
  | cons first windows ih =>
      rw [firstClear, List.foldl_cons]
      split
      · next hbusy => exact hbusy.2.le.trans (ih first.2)
      · exact ih release

/-- **Where the search stops, there is room.** -/
theorem firstClear_clear {windows : List (𝕜 × 𝕜)} (h : Ordered windows) (release duration : 𝕜) :
    Clear windows (firstClear windows release duration)
      (firstClear windows release duration + duration) := by
  induction windows generalizing release with
  | nil => intro w hw; cases hw
  | cons first windows ih =>
      obtain ⟨hfirst, hrest⟩ := List.pairwise_cons.mp h
      intro w hw
      by_cases hlate : release + duration ≤ first.1
      · -- nothing that follows is in the way
        have hstop : firstClear (first :: windows) release duration = release := by
          apply firstClear_eq
          intro w hw
          rcases List.mem_cons.mp hw with rfl | hw
          · exact hlate
          · exact hlate.trans (hfirst w hw)
        rw [hstop]
        left
        rcases List.mem_cons.mp hw with rfl | hw
        · exact hlate
        · exact hlate.trans (hfirst w hw)
      · -- the search goes on after the window
        obtain ⟨start, hpast, hstart⟩ : ∃ start, first.2 ≤ start ∧
            firstClear (first :: windows) release duration = firstClear windows start duration := by
          by_cases hbusy : release < first.2
          · refine ⟨first.2, le_rfl, ?_⟩
            rw [firstClear, List.foldl_cons, if_pos ⟨not_le.mp hlate, hbusy⟩]
            rfl
          · refine ⟨release, not_lt.mp hbusy, ?_⟩
            rw [firstClear, List.foldl_cons, if_neg (fun h => hbusy h.2)]
            rfl
        rw [hstart]
        rcases List.mem_cons.mp hw with rfl | hw
        · exact .inr (hpast.trans (le_firstClear _ _ _))
        · exact ih hrest start w hw

end Windows
