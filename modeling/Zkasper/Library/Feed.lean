import Zkasper.Library.Transition
import Mathlib.Data.List.Basic

/-! # A numbered feed

Items are numbered as they come, from 1 on, and go to every reader that is connected. A reader
that has lost its connection comes back with the last number it has seen, and is first given
what it has missed: what is still kept of it, and no more than so many at once. Every
connection begins with a greeting, which carries the number it resumes behind.

A reader that comes back with what it has seen is never given an item twice or out of order
(`Reader.Ordered`). If nothing it has missed was dropped, or was too much for one answer, it has
been given every item since it came in (`Reader.Complete`). -/

namespace Zkasper.Library.Feed

variable {α : Type}

/-- The items behind a number, with their numbers. -/
def behind (issued : List α) (number : ℕ) : List (α × ℕ) :=
  (issued.drop number).zipIdx (number + 1)

/-- The items behind one number, up to another. -/
def between (issued : List α) (first last : ℕ) : List (α × ℕ) :=
  (behind issued first).take (last - first)

/-! ## States -/

/-- What is on its way to a reader: the greeting, then items. -/
structure Wire (α : Type) where
  greeting : Option ℕ
  items : List (α × ℕ)

structure Reader (α : Type) where
  /-- The last number it has seen. -/
  seen : Option ℕ
  /-- Its connection. -/
  wire : Option (Wire α)
  /-- What it has been given. -/
  given : List (α × ℕ)
  /-- The first number it has seen: it came in behind that. -/
  since : Option ℕ

/-- One that was never connected. -/
def Reader.new : Reader α := ⟨none, none, [], none⟩

structure State (α : Type) where
  /-- Every item there has been. -/
  issued : List α
  /-- The items up to this number are not kept any more. -/
  floor : ℕ
  readers : List (Reader α)

/-! ## Steps -/

def Wire.push (items : List (α × ℕ)) (w : Wire α) : Wire α := { w with items := w.items ++ items }

def Reader.push (items : List (α × ℕ)) (r : Reader α) : Reader α :=
  { r with wire := r.wire.map (·.push items) }

def Reader.lose (r : Reader α) : Reader α := { r with wire := none }

/-- The reader takes what comes first. -/
def Reader.receive (r : Reader α) : Wire α → Option (Reader α)
  | ⟨some anchor, items⟩ => some
      { r with seen := some anchor, wire := some ⟨none, items⟩, since := r.since.or (some anchor) }
  | ⟨none, item :: items⟩ => some
      { r with seen := some item.2, wire := some ⟨none, items⟩, given := r.given ++ [item] }
  | ⟨none, []⟩ => none

/-- How a connection begins, for one who resumes behind a number or asks for nothing. -/
def State.opening (limit : ℕ) (s : State α) : Option ℕ → Wire α
  | none => ⟨some s.issued.length, []⟩
  | some number => ⟨some number, (behind s.issued (max s.floor number)).take limit⟩

/-- What can happen next; readers are named by their place in the list. -/
inductive Event (α : Type) where
  /-- Items come, and everything up to a number is dropped. -/
  | extend (items : List α) (floor : ℕ)
  | join
  | connect (i : ℕ) (resume : Option ℕ)
  | deliver (i : ℕ)
  | lose (i : ℕ)
  /-- Every connection is gone. -/
  | loseAll

/-- The reader at a place, changed. -/
def State.atReader (s : State α) (i : ℕ) (f : Reader α → Option (Reader α)) : Option (State α) := do
  let r ← s.readers[i]?
  let r' ← f r
  return { s with readers := s.readers.set i r' }

def step (limit : ℕ) (s : State α) : Event α → Option (State α)
  | .extend items floor =>
      if s.floor ≤ floor ∧ floor ≤ s.issued.length + items.length then
        some {
          issued := s.issued ++ items
          floor
          readers := s.readers.map (·.push (items.zipIdx (s.issued.length + 1))) }
      else none
  | .join => some { s with readers := s.readers ++ [.new] }
  | .connect i resume => s.atReader i fun r => some { r with wire := some (s.opening limit resume) }
  | .deliver i => s.atReader i fun r => r.wire.bind r.receive
  | .lose i => s.atReader i fun r => some r.lose
  | .loseAll => some { s with readers := s.readers.map Reader.lose }

/-- A reader that has seen something resumes behind that. -/
def Resumes (s : State α) : Event α → Prop
  | .connect i resume => ∀ r, s.readers[i]? = some r → ∀ number, r.seen = some number →
      resume = some number
  | _ => True

/-- Everything behind where a reader resumes is kept, and goes into one answer. -/
def Kept (limit : ℕ) (s : State α) : Event α → Prop
  | .connect _ (some number) =>
      s.floor ≤ number ∧ number ≤ s.issued.length ∧ s.issued.length ≤ number + limit
  | _ => True

/-! ## Numbers -/

theorem behind_append {issued items : List α} {number : ℕ} (h : number ≤ issued.length) :
    behind (issued ++ items) number =
      behind issued number ++ items.zipIdx (issued.length + 1) := by
  have hlength : number + 1 + (issued.length - number) = issued.length + 1 := by omega
  rw [behind, List.drop_append_of_le_length h, List.zipIdx_append, List.length_drop, hlength]
  rfl

theorem behind_length (issued : List α) : behind issued issued.length = [] := by
  rw [behind, List.drop_length]
  rfl

theorem numbers_behind (issued : List α) (number : ℕ) :
    (behind issued number).map (·.2) = List.range' (number + 1) (issued.length - number) := by
  rw [behind, List.zipIdx_map_snd, List.length_drop]

theorem filter_zipIdx (xs : List α) (first number : ℕ) :
    (xs.zipIdx first).filter (fun item => number < item.2) =
      (xs.drop (number + 1 - first)).zipIdx (max first (number + 1)) := by
  induction xs generalizing first with
  | nil => simp
  | cons a xs ih =>
      rw [List.zipIdx_cons, List.filter_cons, ih]
      by_cases h : number < first
      · have hnone : number + 1 - first = 0 := by omega
        have hnone' : number + 1 - (first + 1) = 0 := by omega
        rw [if_pos (decide_eq_true h), hnone, hnone', List.drop_zero, List.drop_zero,
          List.zipIdx_cons, Nat.max_eq_left (by omega), Nat.max_eq_left (by omega)]
      · have hone : number + 1 - first = number + 1 - (first + 1) + 1 := by omega
        rw [if_neg (by simpa using h), hone, List.drop_succ_cons, Nat.max_eq_right (by omega),
          Nat.max_eq_right (by omega)]

/-- What is kept of the items behind a number, from another number on. -/
theorem filter_behind (issued : List α) (floor number : ℕ) :
    (behind issued floor).filter (fun item => number < item.2) =
      behind issued (max floor number) := by
  have hdrop : floor + (number + 1 - (floor + 1)) = max floor number := by omega
  have hfirst : max (floor + 1) (number + 1) = max floor number + 1 := by omega
  rw [behind, filter_zipIdx, List.drop_drop, hdrop, hfirst]
  rfl

theorem mem_of_mem_behind {issued : List α} {number : ℕ} {p : α × ℕ}
    (h : p ∈ behind issued number) : p ∈ issued.zipIdx 1 := by
  rw [behind, List.mem_zipIdx_iff_le_and_getElem?_sub, List.getElem?_drop] at h
  have hplace : number + (p.2 - (number + 1)) = p.2 - 1 := by omega
  rw [hplace] at h
  exact List.mem_zipIdx_iff_le_and_getElem?_sub.mpr ⟨by omega, h.2⟩

/-- What is behind a number begins with the next. -/
theorem behind_eq_cons {issued : List α} {number : ℕ} {item : α × ℕ} {items : List (α × ℕ)}
    (h : behind issued number = item :: items) :
    issued[number]? = some item.1 ∧ item.2 = number + 1 ∧ items = behind issued (number + 1) := by
  rw [behind, List.zipIdx_eq_cons_iff] at h
  obtain ⟨a, rest, hdrop, rfl, rfl⟩ := h
  refine ⟨?_, rfl, ?_⟩
  · rw [← List.head?_drop, hdrop, List.head?_cons]
  · rw [behind, ← List.tail_drop, hdrop, List.tail_cons]

theorem between_self (issued : List α) (number : ℕ) : between issued number number = [] := by
  rw [between, Nat.sub_self, List.take_zero]

theorem between_append {issued : List α} (items : List α) {first last : ℕ} (hle : first ≤ last)
    (hlast : last ≤ issued.length) :
    between (issued ++ items) first last = between issued first last := by
  rw [between, between, behind_append (Nat.le_trans hle hlast), List.take_append_of_le_length]
  rw [behind, List.length_zipIdx, List.length_drop]
  omega

/-- One more. -/
theorem between_succ {issued : List α} {first last : ℕ} (h : first ≤ last) {item : α × ℕ}
    {items : List (α × ℕ)} (hitem : behind issued last = item :: items) :
    between issued first (last + 1) = between issued first last ++ [item] := by
  obtain ⟨hget, hnumber, -⟩ := behind_eq_cons hitem
  have hnext : (behind issued first)[last - first]? = some item := by
    have hindex : first + (last - first) = last := by omega
    have hplace : first + 1 + (last - first) = last + 1 := by omega
    rw [behind, List.getElem?_zipIdx, List.getElem?_drop, hindex, hget, hplace, ← hnumber]
    rfl
  rw [between, Nat.succ_sub h, List.take_add_one, hnext]
  rfl

/-! ## Every reader -/

section Readers

variable {limit : ℕ} {s s' : State α} {e : Event α}

theorem atReader_eq_some {i : ℕ} {f : Reader α → Option (Reader α)}
    (h : s.atReader i f = some s') :
    ∃ r r', s.readers[i]? = some r ∧ f r = some r' ∧
      s' = { s with readers := s.readers.set i r' } := by
  obtain ⟨r, hr, h⟩ := Option.bind_eq_some_iff.mp h
  obtain ⟨r', hr', h⟩ := Option.bind_eq_some_iff.mp h
  exact ⟨r, r', hr, hr', (Option.some.inj h).symm⟩

theorem atReader_of_eq {i : ℕ} {f : Reader α → Option (Reader α)} {r r' : Reader α}
    (hr : s.readers[i]? = some r) (hr' : f r = some r') :
    s.atReader i f = some { s with readers := s.readers.set i r' } := by
  rw [State.atReader, hr, Option.bind_eq_bind, Option.bind_some, hr']
  rfl

theorem push_nil (r : Reader α) : r.push [] = r := by
  obtain ⟨seen, wire, given, since⟩ := r
  cases wire with
  | none => rfl
  | some w => simp [Reader.push, Wire.push]

/-- **The rule for readers**: what holds of every reader is kept by a step, if each thing that
can happen to one keeps it. -/
theorem forall_readers {Q : List α → Reader α → Prop} (h : ∀ r ∈ s.readers, Q s.issued r)
    (hstep : step limit s e = some s') (hnew : Q s.issued .new)
    (hpush : ∀ r items, Q s.issued r →
      Q (s.issued ++ items) (r.push (items.zipIdx (s.issued.length + 1))))
    (hlose : ∀ r, Q s.issued r → Q s.issued r.lose)
    (hreceive : ∀ r w r', r.wire = some w → r.receive w = some r' → Q s.issued r →
      Q s.issued r')
    (hconnect : ∀ i resume r, e = .connect i resume → s.readers[i]? = some r → Q s.issued r →
      Q s.issued { r with wire := some (s.opening limit resume) }) :
    ∀ r ∈ s'.readers, Q s'.issued r := by
  have hset : ∀ {i : ℕ} {r' : Reader α}, Q s.issued r' → ∀ r ∈ s.readers.set i r',
      Q s.issued r := by
    intro i r' hr' r hr
    rcases List.mem_or_eq_of_mem_set hr with hr | rfl
    · exact h r hr
    · exact hr'
  cases e with
  | extend items floor =>
      obtain ⟨-, hs⟩ := Option.ite_none_right_eq_some.mp hstep
      obtain rfl := Option.some.inj hs
      intro r hr
      obtain ⟨old, hold, rfl⟩ := List.mem_map.mp hr
      exact hpush old items (h old hold)
  | join =>
      obtain rfl := Option.some.inj hstep
      intro r hr
      rcases List.mem_append.mp hr with hr | hr
      · exact h r hr
      · obtain rfl := List.mem_singleton.mp hr
        exact hnew
  | connect i resume =>
      obtain ⟨r, r', hr, hr', rfl⟩ := atReader_eq_some hstep
      obtain rfl := Option.some.inj hr'
      exact hset (hconnect i resume r rfl hr (h r (List.mem_of_getElem? hr)))
  | deliver i =>
      obtain ⟨r, r', hr, hr', rfl⟩ := atReader_eq_some hstep
      obtain ⟨w, hw, hreceived⟩ := Option.bind_eq_some_iff.mp hr'
      exact hset (hreceive r w r' hw hreceived (h r (List.mem_of_getElem? hr)))
  | lose i =>
      obtain ⟨r, r', hr, hr', rfl⟩ := atReader_eq_some hstep
      obtain rfl := Option.some.inj hr'
      exact hset (hlose r (h r (List.mem_of_getElem? hr)))
  | loseAll =>
      obtain rfl := Option.some.inj hstep
      intro r hr
      obtain ⟨old, hold, rfl⟩ := List.mem_map.mp hr
      exact hlose old (h old hold)

end Readers

/-! ## In order -/

/-- The items on the way to a reader. -/
def Reader.pending (r : Reader α) : List (α × ℕ) := (r.wire.map (·.items)).getD []

/-- **In order, and nothing twice**: what a reader was given and what is on its way to it goes
up, under the numbers it came with. -/
structure Reader.Ordered (issued : List α) (r : Reader α) : Prop where
  ascending : (r.given ++ r.pending).Pairwise fun p q => p.2 < q.2
  authentic : ∀ p ∈ r.given ++ r.pending, p ∈ issued.zipIdx 1
  seen : ∀ p ∈ r.given, ∃ number, r.seen = some number ∧ p.2 ≤ number
  greeting : ∀ w anchor, r.wire = some w → w.greeting = some anchor →
    ∀ p ∈ r.given, p.2 ≤ anchor

namespace Reader.Ordered

variable {issued : List α} {r r' : Reader α} {w : Wire α}

theorem new : (Reader.new : Reader α).Ordered issued where
  ascending := .nil
  authentic _ h := by cases h
  seen _ h := by cases h
  greeting _ _ h := by cases h

theorem number_le (h : r.Ordered issued) {p : α × ℕ} (hp : p ∈ r.given ++ r.pending) :
    p.2 ≤ issued.length := by
  have hlt := List.snd_lt_of_mem_zipIdx (h.authentic p hp)
  omega

theorem lose (h : r.Ordered issued) : r.lose.Ordered issued where
  ascending := by
    have hgiven : r.lose.given ++ r.lose.pending = r.given := List.append_nil _
    rw [hgiven]
    exact (List.pairwise_append.mp h.ascending).1
  authentic p hp := by
    have hgiven : r.lose.given ++ r.lose.pending = r.given := List.append_nil _
    rw [hgiven] at hp
    exact h.authentic p (List.mem_append_left _ hp)
  seen := h.seen
  greeting _ _ hw := by cases hw

/-- Whatever comes is behind all that has come. -/
theorem push (h : r.Ordered issued) (items : List α) :
    (r.push (items.zipIdx (issued.length + 1))).Ordered (issued ++ items) := by
  have hissued : (issued ++ items).zipIdx 1 =
      issued.zipIdx 1 ++ items.zipIdx (issued.length + 1) := by
    rw [List.zipIdx_append, Nat.add_comm]
  cases hwire : r.wire with
  | none =>
      have hsame : r.push (items.zipIdx (issued.length + 1)) = r := by
        rw [Reader.push, hwire]
        exact congrArg (fun wire => { r with wire }) hwire.symm
      rw [hsame]
      refine ⟨h.ascending, fun p hp => ?_, h.seen, h.greeting⟩
      rw [hissued]
      exact List.mem_append_left _ (h.authentic p hp)
  | some w =>
      have hall : (r.push (items.zipIdx (issued.length + 1))).given ++
          (r.push (items.zipIdx (issued.length + 1))).pending =
            (r.given ++ r.pending) ++ items.zipIdx (issued.length + 1) := by
        simp only [Reader.push, Reader.pending, hwire, Option.map_some, Option.getD_some,
          Wire.push, List.append_assoc]
      refine ⟨?_, fun p hp => ?_, h.seen, ?_⟩
      · rw [hall, List.pairwise_append]
        refine ⟨h.ascending, ?_, fun p hp q hq => ?_⟩
        · rw [← List.pairwise_map, List.zipIdx_map_snd]
          exact List.pairwise_lt_range'
        · have hle := h.number_le hp
          have hge := List.le_snd_of_mem_zipIdx hq
          omega
      · rw [hall] at hp
        rw [hissued]
        rcases List.mem_append.mp hp with hp | hp
        · exact List.mem_append_left _ (h.authentic p hp)
        · exact List.mem_append_right _ hp
      · intro w' anchor hw' hanchor
        simp only [Reader.push, hwire, Option.map_some, Option.some.injEq] at hw'
        obtain rfl := hw'
        exact h.greeting w anchor hwire hanchor

/-- What comes first is taken. -/
theorem receive (h : r.Ordered issued) (hwire : r.wire = some w) (hr : r.receive w = some r') :
    r'.Ordered issued := by
  have hpending : r.pending = w.items := by rw [Reader.pending, hwire]; rfl
  obtain ⟨hascending, hauthentic, hseen, hgreeting⟩ := h
  rw [hpending] at hascending hauthentic
  match w, hr with
  | ⟨some anchor, items⟩, hr =>
      obtain rfl := Option.some.inj hr
      exact ⟨hascending, hauthentic,
        fun p hp => ⟨anchor, rfl, hgreeting _ anchor hwire rfl p hp⟩,
        fun w' a hw' ha => by obtain rfl := Option.some.inj hw'; cases ha⟩
  | ⟨none, item :: items⟩, hr =>
      obtain rfl := Option.some.inj hr
      have hmoved : r.given ++ item :: items = (r.given ++ [item]) ++ items :=
        List.append_cons _ _ _
      dsimp only at hascending hauthentic
      rw [hmoved] at hascending hauthentic
      refine ⟨hascending, hauthentic, fun p hp => ⟨item.2, rfl, ?_⟩,
        fun w' a hw' ha => by obtain rfl := Option.some.inj hw'; cases ha⟩
      rcases List.mem_append.mp hp with hp | hp
      · have hbefore := (List.pairwise_append.mp (List.pairwise_append.mp hascending).1).2.2
        exact Nat.le_of_lt (hbefore p hp item List.mem_cons_self)
      · obtain rfl := List.mem_singleton.mp hp
        exact Nat.le_refl _

/-- A reader that resumes is given what is behind what it has seen. -/
theorem connect {s : State α} {limit : ℕ} {resume : Option ℕ} (h : r.Ordered s.issued)
    (hresumes : ∀ number, r.seen = some number → resume = some number) :
    { r with wire := some (s.opening limit resume) }.Ordered s.issued := by
  have hgiven : ∀ p ∈ r.given, ∃ number, resume = some number ∧ p.2 ≤ number := by
    intro p hp
    obtain ⟨number, hnumber, hle⟩ := h.seen p hp
    exact ⟨number, hresumes number hnumber, hle⟩
  have hfirst := (List.pairwise_append.mp h.ascending).1
  have hold : ∀ p ∈ r.given, p ∈ s.issued.zipIdx 1 := fun p hp =>
    h.authentic p (List.mem_append_left _ hp)
  cases resume with
  | none =>
      -- without a number to resume from, the reader was given nothing yet
      have hnothing : r.given = [] := List.eq_nil_iff_forall_not_mem.mpr fun p hp => by
        obtain ⟨_, hnone, -⟩ := hgiven p hp
        cases hnone
      refine ⟨?_, ?_, h.seen, ?_⟩
      · show (r.given ++ []).Pairwise _
        rwa [List.append_nil]
      · show ∀ p ∈ r.given ++ [], _
        rwa [List.append_nil]
      · intro _ _ _ _ p hp
        rw [hnothing] at hp
        cases hp
  | some number =>
      have hbehind : ∀ q ∈ (behind s.issued (max s.floor number)).take limit,
          number < q.2 ∧ q ∈ s.issued.zipIdx 1 := by
        intro q hq
        have hmem := List.mem_of_mem_take hq
        have hnumber := List.le_snd_of_mem_zipIdx hmem
        exact ⟨by omega, mem_of_mem_behind hmem⟩
      refine ⟨?_, ?_, h.seen, ?_⟩
      · refine List.pairwise_append.mpr ⟨hfirst, ?_, fun p hp q hq => ?_⟩
        · refine List.Pairwise.sublist (List.take_sublist _ _) ?_
          rw [behind, ← List.pairwise_map, List.zipIdx_map_snd]
          exact List.pairwise_lt_range'
        · obtain ⟨_, hsome, hle⟩ := hgiven p hp
          obtain rfl := Option.some.inj hsome
          exact Nat.lt_of_le_of_lt hle (hbehind q hq).1
      · intro p hp
        rcases List.mem_append.mp hp with hp | hp
        · exact hold p hp
        · exact (hbehind p hp).2
      · intro w anchor hw hanchor p hp
        obtain rfl := Option.some.inj hw
        obtain rfl := Option.some.inj hanchor
        obtain ⟨_, hsome, hle⟩ := hgiven p hp
        obtain rfl := Option.some.inj hsome
        exact hle

end Reader.Ordered

/-- **In order, in every run** in which readers resume behind what they have seen. -/
theorem reached_ordered {limit : ℕ} {s : State α}
    (h : Transition.Reached (step limit) Resumes ⟨[], 0, []⟩ s) :
    ∀ r ∈ s.readers, r.Ordered s.issued := by
  refine h.invariant (fun s => ∀ r ∈ s.readers, r.Ordered s.issued) (fun _ hr => by cases hr) ?_
  intro s e s' hordered hresumes hstep
  apply forall_readers hordered hstep .new
  · exact fun r items hr => hr.push items
  · exact fun r hr => hr.lose
  · exact fun r w r' hwire hreceive hr => hr.receive hwire hreceive
  · intro i resume r he hr hold
    subst he
    exact hold.connect (hresumes r hr)

/-! ## Without a gap -/

/-- **Everything since it came in**: what a reader was given is every item behind the number it
came in behind, up to the last it has seen, and what is on its way to it is all the rest. -/
structure Reader.Complete (issued : List α) (r : Reader α) : Prop where
  seen : ∀ last, r.seen = some last → ∃ first, r.since = some first ∧
    (first ≤ last ∧ last ≤ issued.length) ∧ r.given = between issued first last
  unseen : r.seen = none → r.since = none ∧ r.given = []
  wire : ∀ w, r.wire = some w → ∃ number, w.greeting.or r.seen = some number ∧
    number ≤ issued.length ∧ w.items = behind issued number ∧
      ∀ last, r.seen = some last → number = last

namespace Reader.Complete

variable {issued : List α} {r r' : Reader α} {w : Wire α}

theorem new : (Reader.new : Reader α).Complete issued where
  seen _ h := by cases h
  unseen _ := ⟨rfl, rfl⟩
  wire _ h := by cases h

theorem lose (h : r.Complete issued) : r.lose.Complete issued :=
  ⟨h.seen, h.unseen, fun _ hw => by cases hw⟩

theorem push (h : r.Complete issued) (items : List α) :
    (r.push (items.zipIdx (issued.length + 1))).Complete (issued ++ items) where
  seen last hlast := by
    obtain ⟨first, hfirst, ⟨hle, hissued⟩, hgiven⟩ := h.seen last hlast
    refine ⟨first, hfirst, ⟨hle, ?_⟩, ?_⟩
    · rw [List.length_append]
      omega
    · rw [between_append items hle hissued]
      exact hgiven
  unseen := h.unseen
  wire w hw := by
    obtain ⟨old, hold, rfl⟩ := Option.map_eq_some_iff.mp hw
    obtain ⟨number, hnumber, hissued, hitems, hseen⟩ := h.wire old hold
    refine ⟨number, hnumber, ?_, ?_, hseen⟩
    · rw [List.length_append]
      omega
    · rw [behind_append hissued, ← hitems]
      rfl

theorem receive (h : r.Complete issued) (hwire : r.wire = some w) (hr : r.receive w = some r') :
    r'.Complete issued := by
  obtain ⟨number, hnumber, hissued, hitems, hlast⟩ := h.wire w hwire
  match w, hr with
  | ⟨some anchor, items⟩, hr =>
      obtain rfl := Option.some.inj hr
      obtain rfl : anchor = number := Option.some.inj hnumber
      have hgiven : ∃ first, r.since.or (some anchor) = some first ∧
          (first ≤ anchor ∧ anchor ≤ issued.length) ∧ r.given = between issued first anchor := by
        cases hseen : r.seen with
        | none =>
            obtain ⟨hsince, hnothing⟩ := h.unseen hseen
            refine ⟨anchor, ?_, ⟨Nat.le_refl _, hissued⟩, ?_⟩
            · rw [hsince]
              rfl
            · rw [hnothing, between_self]
        | some last =>
            obtain rfl := hlast last hseen
            obtain ⟨first, hfirst, hle, hgiven⟩ := h.seen anchor hseen
            exact ⟨first, by rw [hfirst]; rfl, hle, hgiven⟩
      constructor
      · intro last hsome
        obtain rfl := Option.some.inj hsome
        exact hgiven
      · intro hnone
        cases hnone
      · intro w' hw'
        obtain rfl := Option.some.inj hw'
        exact ⟨anchor, rfl, hissued, hitems, fun last hsome => Option.some.inj hsome⟩
  | ⟨none, item :: items⟩, hr =>
      obtain rfl := Option.some.inj hr
      have hseen : r.seen = some number := hnumber
      obtain ⟨first, hfirst, ⟨hle, -⟩, hgiven⟩ := h.seen number hseen
      obtain ⟨hget, hnext, hrest⟩ := behind_eq_cons hitems.symm
      have hlt : number < issued.length := (List.getElem?_eq_some_iff.mp hget).1
      constructor
      · intro last hsome
        obtain rfl := Option.some.inj hsome
        refine ⟨first, hfirst, ⟨by omega, by omega⟩, ?_⟩
        rw [hnext, between_succ hle hitems.symm, ← hgiven]
      · intro hnone
        cases hnone
      · intro w' hw'
        obtain rfl := Option.some.inj hw'
        refine ⟨item.2, rfl, by omega, ?_, fun last hsome => Option.some.inj hsome⟩
        rw [hnext]
        exact hrest

theorem connect {s : State α} {limit : ℕ} {resume : Option ℕ} (h : r.Complete s.issued)
    (hresumes : ∀ number, r.seen = some number → resume = some number)
    (hkept : ∀ number, resume = some number →
      s.floor ≤ number ∧ number ≤ s.issued.length ∧ s.issued.length ≤ number + limit) :
    { r with wire := some (s.opening limit resume) }.Complete s.issued := by
  refine ⟨h.seen, h.unseen, fun w hw => ?_⟩
  obtain rfl := Option.some.inj hw
  cases resume with
  | none =>
      refine ⟨s.issued.length, rfl, Nat.le_refl _, (behind_length _).symm, fun last hlast => ?_⟩
      cases hresumes last hlast
  | some number =>
      obtain ⟨hfloor, hle, hlimit⟩ := hkept number rfl
      refine ⟨number, rfl, hle, ?_, fun last hlast => Option.some.inj (hresumes last hlast)⟩
      show (behind s.issued (max s.floor number)).take limit = _
      rw [Nat.max_eq_right hfloor, List.take_of_length_le]
      rw [behind, List.length_zipIdx, List.length_drop]
      omega

end Reader.Complete

/-- **Everything, in every run** in which readers resume behind what they have seen, and what
they have missed is kept. -/
theorem reached_complete {limit : ℕ} {s : State α}
    (h : Transition.Reached (step limit) (fun s e => Resumes s e ∧ Kept limit s e) ⟨[], 0, []⟩ s) :
    ∀ r ∈ s.readers, r.Complete s.issued := by
  refine h.invariant (fun s => ∀ r ∈ s.readers, r.Complete s.issued) (fun _ hr => by cases hr) ?_
  rintro s e s' hcomplete ⟨hresumes, hkept⟩ hstep
  apply forall_readers hcomplete hstep .new
  · exact fun r items hr => hr.push items
  · exact fun r hr => hr.lose
  · exact fun r w r' hwire hreceive hr => hr.receive hwire hreceive
  · intro i resume r he hr hold
    subst he
    apply hold.connect (hresumes r hr)
    intro number hresume
    subst hresume
    exact hkept

end Zkasper.Library.Feed
