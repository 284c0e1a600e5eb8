import Mathlib.Data.List.Basic
import Mathlib.Data.List.Sort
import Mathlib.Tactic.Common

/-! # Code that panics and code that returns an error

Rust stops a call in two ways, and a caller can handle one of them: an error is a value it
matches on, a panic unwinds through it. A function that returns a plain value can only do
the second, so it is a partial function, `none` where it panics. A function that returns a
`Result` can do both, and is an `Outcome`; `ofPanics` runs a partial function inside one,
and adds no error of its own.

`slice` is the panic a parser has to avoid: a range of a buffer whose end is past the
buffer, or before its start. -/

namespace Panics

variable {ε α β : Type}

/-! ## Outcomes -/

/-- How a call stops short. -/
inductive Fault (ε : Type) where
  | error (e : ε)
  | panicked
deriving DecidableEq

/-- A value, an error, or a panic. -/
abbrev Outcome (ε α : Type) := Except (Fault ε) α

/-- Run a function that returns no error where errors can be returned. -/
def ofPanics (x : Option α) : Outcome ε α :=
  match x with
  | some a => .ok a
  | none => .error .panicked

/-- Run a function that never panics. -/
def ofResult (x : Except ε α) : Outcome ε α := x.mapError .error

/-- `ensure!(c, e)`: an error where the condition fails. -/
def ensure (c : Prop) [Decidable c] (e : ε) : Outcome ε Unit :=
  if c then .ok () else .error (.error e)

@[simp] theorem ofPanics_some (a : α) : (ofPanics (some a) : Outcome ε α) = .ok a := rfl

@[simp] theorem ofPanics_eq_ok {x : Option α} {a : α} :
    (ofPanics x : Outcome ε α) = .ok a ↔ x = some a := by
  cases x <;> simp [ofPanics]

@[simp] theorem ofPanics_eq_panicked {x : Option α} :
    (ofPanics x : Outcome ε α) = .error .panicked ↔ x = none := by
  cases x <;> simp [ofPanics]

/-- Whether a call panicked. -/
def panics (x : Outcome ε α) : Bool :=
  match x with
  | .error .panicked => true
  | _ => false

@[simp] theorem panics_eq_true {x : Outcome ε α} : panics x = true ↔ x = .error .panicked := by
  rcases x with (e | _) | a <;> simp [panics]

@[simp] theorem ofResult_eq_ok {x : Except ε α} {a : α} :
    (ofResult x : Outcome ε α) = .ok a ↔ x = .ok a := by
  cases x <;> simp [ofResult, Except.mapError]

theorem ok_bind (a : α) (f : α → Outcome ε β) : ((.ok a : Outcome ε α) >>= f) = f a := rfl

/-- What goes on after a call that does not panic. -/
theorem ofPanics_some_bind (a : α) (f : α → Outcome ε β) : (ofPanics (some a) >>= f) = f a := rfl

theorem ensure_bind_of_pos {c : Prop} [Decidable c] (h : c) (e : ε) (f : Unit → Outcome ε α) :
    (ensure c e >>= f) = f () := by
  rw [ensure, if_pos h]
  rfl

theorem ensure_bind_of_neg {c : Prop} [Decidable c] (h : ¬ c) (e : ε) (f : Unit → Outcome ε α) :
    (ensure c e >>= f) = .error (.error e) := by
  rw [ensure, if_neg h]
  rfl

@[simp] theorem ensure_eq_ok {c : Prop} [Decidable c] {e : ε} {u : Unit} :
    ensure c e = .ok u ↔ c := by
  unfold ensure
  split <;> simp_all

/-- What follows a call and cannot panic does not change whether there is a panic. -/
theorem isSome_bind_of_forall {x : Option α} {f : α → Option β} (h : ∀ a, (f a).isSome) :
    (x >>= f).isSome ↔ x.isSome := by
  cases x with
  | none => rfl
  | some a => simpa using h a

/-! ## Slices -/

/-- `&data[start..stop]` -/
def slice (data : List α) (start stop : ℕ) : Option (List α) :=
  if start ≤ stop ∧ stop ≤ data.length then some ((data.take stop).drop start) else none

section Slice

variable {data front part back : List α} {start stop n : ℕ}

theorem slice_eq_some {s : List α} :
    slice data start stop = some s ↔
      (start ≤ stop ∧ stop ≤ data.length) ∧ (data.take stop).drop start = s := by
  unfold slice
  split <;> simp_all

theorem slice_of_le (hstart : start ≤ stop) (hstop : stop ≤ data.length) :
    slice data start stop = some ((data.take stop).drop start) :=
  if_pos ⟨hstart, hstop⟩

theorem slice_isSome : (slice data start stop).isSome ↔ start ≤ stop ∧ stop ≤ data.length := by
  unfold slice
  split <;> simp_all

theorem length_of_slice {s : List α} (h : slice data start stop = some s) :
    s.length = stop - start := by
  obtain ⟨⟨hle, hstop⟩, rfl⟩ := slice_eq_some.mp h
  rw [List.length_drop, List.length_take, min_eq_left hstop]

/-- A slice of a slice is a slice. -/
theorem slice_slice {s : List α} (h : slice data start stop = some s) {first last : ℕ}
    (hle : first ≤ last) (hlast : last ≤ s.length) :
    slice s first last = slice data (start + first) (start + last) := by
  have hlength := length_of_slice h
  obtain ⟨⟨hstart, hstop⟩, rfl⟩ := slice_eq_some.mp h
  rw [slice_of_le hle hlast, slice_of_le (by omega) (by omega), List.take_drop, List.take_take,
    List.drop_drop, min_eq_left (by omega : start + last ≤ stop)]

/-- The part in the middle, where the bounds are known to be its own. -/
theorem slice_middle (hstart : front.length = start) (hstop : start + part.length = stop) :
    slice (front ++ (part ++ back)) start stop = some part := by
  subst hstart hstop
  rw [slice_of_le (Nat.le_add_right _ _) (by simp), ← List.append_assoc,
    ← List.length_append, List.take_left', List.drop_left]
  rfl

theorem slice_all : slice data 0 data.length = some data := by
  rw [slice_of_le (Nat.zero_le _) le_rfl, List.take_length, List.drop_zero]

end Slice

/-! ## Loops -/

/-- A loop none of whose rounds panics collects its results. -/
theorem mapM_eq_some_map {f : α → Option β} {g : α → β} {as : List α}
    (h : ∀ a ∈ as, f a = some (g a)) : as.mapM f = some (as.map g) := by
  induction as with
  | nil => rfl
  | cons a as ih =>
      obtain ⟨ha, has⟩ := List.forall_mem_cons.mp h
      rw [List.mapM_cons, ha, ih has]
      rfl

/-- A loop runs through exactly if none of its rounds panics. -/
theorem mapM_isSome {f : α → Option β} {as : List α} :
    (as.mapM f).isSome ↔ ∀ a ∈ as, (f a).isSome := by
  induction as with
  | nil => simp
  | cons a as ih =>
      rw [List.mapM_cons, List.forall_mem_cons, ← ih]
      cases f a with
      | none => simp
      | some b => cases as.mapM f <;> simp

theorem mapM_congr {f g : α → Option β} {as : List α} (h : ∀ a ∈ as, f a = g a) :
    as.mapM f = as.mapM g := by
  induction as with
  | nil => rfl
  | cons a as ih =>
      obtain ⟨ha, has⟩ := List.forall_mem_cons.mp h
      rw [List.mapM_cons, List.mapM_cons, ha, ih has]

theorem length_of_mapM {f : α → Option β} {as : List α} {bs : List β}
    (h : as.mapM f = some bs) : bs.length = as.length := by
  induction as generalizing bs with
  | nil =>
      obtain rfl : [] = bs := Option.some_inj.mp h
      rfl
  | cons a as ih =>
      rw [List.mapM_cons, Option.bind_eq_bind, Option.bind_eq_some_iff] at h
      obtain ⟨b, -, h⟩ := h
      obtain ⟨rest, hrest, h⟩ := Option.bind_eq_some_iff.mp h
      obtain rfl : b :: rest = bs := Option.some_inj.mp h
      rw [List.length_cons, List.length_cons, ih hrest]

/-- What a round of a finished loop returned. -/
theorem getElem_of_mapM {f : α → Option β} {as : List α} {bs : List β}
    (h : as.mapM f = some bs) {i : ℕ} {a : α} (ha : as[i]? = some a) : bs[i]? = f a := by
  induction as generalizing bs i with
  | nil => cases ha
  | cons head as ih =>
      rw [List.mapM_cons, Option.bind_eq_bind, Option.bind_eq_some_iff] at h
      obtain ⟨b, hb, h⟩ := h
      obtain ⟨rest, hrest, h⟩ := Option.bind_eq_some_iff.mp h
      obtain rfl : b :: rest = bs := Option.some_inj.mp h
      cases i with
      | zero =>
          obtain rfl : head = a := Option.some_inj.mp ha
          exact hb.symm
      | succ i => exact ih hrest ha

end Panics
