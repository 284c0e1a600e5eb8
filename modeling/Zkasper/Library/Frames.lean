import Mathlib.Data.List.Infix
import Mathlib.Tactic.Common

/-! # Frames in a stream

A stream that is cut into frames by a delimiter, and read a piece at a time: what
has arrived is searched for the delimiter, every frame that is complete is taken
off, and the rest waits for more. `take_append` says that the pieces do not matter:
the frames of a longer stream are the frames of its beginning, and then those of
what was left of it with the rest. -/

namespace Frames

variable {α : Type} [DecidableEq α]

/-- The first frame and what comes after its delimiter, where the stream has one. -/
def cut (delimiter : List α) : List α → Option (List α × List α)
  | [] => if delimiter = [] then some ([], []) else none
  | a :: as =>
      if delimiter <+: a :: as then some ([], (a :: as).drop delimiter.length)
      else (cut delimiter as).map fun found => (a :: found.1, found.2)

/-- All the complete frames, at most `fuel` of them, and the rest. -/
def takeUpTo (delimiter : List α) : ℕ → List α → List (List α) × List α
  | 0, stream => ([], stream)
  | fuel + 1, stream =>
      match cut delimiter stream with
      | none => ([], stream)
      | some (frame, rest) =>
          let taken := takeUpTo delimiter fuel rest
          (frame :: taken.1, taken.2)

/-- All the complete frames, and the rest. -/
def take (delimiter stream : List α) : List (List α) × List α :=
  takeUpTo delimiter stream.length stream

variable {delimiter : List α} {stream frame rest : List α}

/-- A stream that was cut is put together again. -/
theorem cut_eq_some (h : cut delimiter stream = some (frame, rest)) :
    stream = frame ++ delimiter ++ rest := by
  induction stream generalizing frame with
  | nil =>
      simp only [cut] at h
      split at h
      · next hempty =>
          obtain ⟨rfl, rfl⟩ := Prod.mk.inj (Option.some.inj h)
          simp [hempty]
      · cases h
  | cons a as ih =>
      simp only [cut] at h
      split at h
      · next hprefix =>
          obtain ⟨rfl, rfl⟩ := Prod.mk.inj (Option.some.inj h)
          obtain ⟨tail, htail⟩ := hprefix
          rw [← htail, List.drop_left, List.nil_append]
      · obtain ⟨⟨found, after⟩, hfound, heq⟩ := Option.map_eq_some_iff.mp h
        obtain ⟨rfl, rfl⟩ := Prod.mk.inj heq
        rw [ih hfound]
        rfl

/-- What is left is shorter. -/
theorem cut_length (hdelimiter : delimiter ≠ []) (h : cut delimiter stream = some (frame, rest)) :
    rest.length < stream.length := by
  have hpos := List.length_pos_iff.mpr hdelimiter
  have hlength := congrArg List.length (cut_eq_some h)
  simp only [List.length_append] at hlength
  omega

/-- **More of the stream does not move a frame** that was complete already. -/
theorem cut_append (h : cut delimiter stream = some (frame, rest)) (more : List α) :
    cut delimiter (stream ++ more) = some (frame, rest ++ more) := by
  induction stream generalizing frame with
  | nil =>
      simp only [cut] at h
      split at h
      · next hempty =>
          obtain ⟨rfl, rfl⟩ := Prod.mk.inj (Option.some.inj h)
          subst hempty
          cases more <;> simp [cut]
      · cases h
  | cons a as ih =>
      simp only [cut] at h
      rw [List.cons_append, cut]
      by_cases hprefix : delimiter <+: a :: as
      · rw [if_pos hprefix] at h
        obtain ⟨rfl, rfl⟩ := Prod.mk.inj (Option.some.inj h)
        have hlonger : delimiter <+: a :: (as ++ more) := hprefix.trans (List.prefix_append _ more)
        rw [if_pos hlonger]
        congr 2
        exact List.drop_append_of_le_length hprefix.length_le
      · rw [if_neg hprefix] at h
        obtain ⟨⟨found, after⟩, hfound, heq⟩ := Option.map_eq_some_iff.mp h
        obtain ⟨rfl, rfl⟩ := Prod.mk.inj heq
        have hstays : ¬ delimiter <+: a :: (as ++ more) := by
          -- the frame that was found leaves room for a delimiter behind it
          intro hlonger
          apply hprefix
          have hlength : delimiter.length ≤ (a :: as).length := by
            have := congrArg List.length (cut_eq_some hfound)
            simp only [List.length_append] at this
            simp only [List.length_cons]
            omega
          exact List.prefix_of_prefix_length_le hlonger (List.prefix_append (a :: as) more) hlength
        rw [if_neg hstays, ih hfound]
        rfl

/-- More fuel than the stream is long changes nothing. -/
theorem takeUpTo_eq (hdelimiter : delimiter ≠ []) :
    ∀ {fuel fuel' : ℕ} {stream : List α}, stream.length ≤ fuel → stream.length ≤ fuel' →
      takeUpTo delimiter fuel stream = takeUpTo delimiter fuel' stream := by
  have hempty : cut delimiter ([] : List α) = none := if_neg hdelimiter
  intro fuel
  induction fuel with
  | zero =>
      intro fuel' stream hle _
      obtain rfl := List.eq_nil_of_length_eq_zero (Nat.le_zero.mp hle)
      cases fuel' <;> simp [takeUpTo, hempty]
  | succ fuel ih =>
      intro fuel' stream hle hle'
      cases fuel' with
      | zero =>
          obtain rfl := List.eq_nil_of_length_eq_zero (Nat.le_zero.mp hle')
          simp [takeUpTo, hempty]
      | succ fuel' =>
          cases hcut : cut delimiter stream with
          | none => simp [takeUpTo, hcut]
          | some found =>
              obtain ⟨frame, rest⟩ := found
              have hshorter := cut_length hdelimiter hcut
              simp only [takeUpTo, hcut, ih (show rest.length ≤ fuel by omega)
                (show rest.length ≤ fuel' by omega)]

theorem take_of_cut_none (h : cut delimiter stream = none) :
    take delimiter stream = ([], stream) := by
  unfold take
  cases stream.length with
  | zero => rfl
  | succ n => simp [takeUpTo, h]

theorem take_of_cut_some (hdelimiter : delimiter ≠ [])
    (h : cut delimiter stream = some (frame, rest)) :
    take delimiter stream = (frame :: (take delimiter rest).1, (take delimiter rest).2) := by
  have hshorter := cut_length hdelimiter h
  unfold take
  obtain ⟨n, hn⟩ : ∃ n, stream.length = n + 1 := ⟨stream.length - 1, by omega⟩
  simp only [hn, takeUpTo, h]
  rw [takeUpTo_eq hdelimiter (show rest.length ≤ n by omega) le_rfl]

/-- **The pieces do not matter**: the frames of a longer stream are those of its
beginning, and then those of what was left of it with the rest. -/
theorem take_append (hdelimiter : delimiter ≠ []) (stream more : List α) :
    take delimiter (stream ++ more) =
      ((take delimiter stream).1 ++ (take delimiter ((take delimiter stream).2 ++ more)).1,
        (take delimiter ((take delimiter stream).2 ++ more)).2) := by
  induction hlength : stream.length using Nat.strongRecOn generalizing stream with
  | _ n ih =>
      cases hcut : cut delimiter stream with
      | none => rw [take_of_cut_none hcut, List.nil_append]
      | some found =>
          obtain ⟨frame, rest⟩ := found
          have hih := ih _ (hlength ▸ cut_length hdelimiter hcut) rest rfl
          rw [take_of_cut_some hdelimiter (cut_append hcut more), take_of_cut_some hdelimiter hcut,
            hih]
          rfl

end Frames
