import Zkasper.WitnessGen.CommitteeColumns

/-! # Member tables

The public keys a prover server keeps for its clients, and what a client believes it
keeps. A table is named by a hash chained over its entries in the order they went in,
so two tables of one name have the same entries wherever the chain is collision free
(`TableHash.CollisionFree`), and everything below reads a table off its entries.

The hash is a parameter: over an arbitrary type of digests its being collision free
can be assumed, which over 32 bytes it could not. -/

namespace Zkasper.CommitteeCache

open Committee

variable (P : Primitives)

/-- One validator's key, as the table names it. -/
structure TableEntry where
  validatorIndex : UInt64
  pubkey : P.G1Point
  deriving DecidableEq

/-- The running hash over the entries of a table. -/
structure TableHash where
  TableDigest : Type
  decEqTableDigest : DecidableEq TableDigest
  /-- The table before anything has been put in it. -/
  emptyTable : TableDigest
  extend : TableDigest → TableEntry P → TableDigest

attribute [instance] TableHash.decEqTableDigest

variable {P}

/-- How the table names one member. -/
def entry (m : CommitteeMember P) : TableEntry P := ⟨m.validatorIndex, m.pubkey⟩

variable {H : TableHash P}

namespace TableHash

/-- The name of the table that holds some entries, in the order they went in. -/
def chain (H : TableHash P) (entries : List (TableEntry P)) : H.TableDigest :=
  entries.foldl H.extend H.emptyTable

/-- Two tables of one name have the same entries. -/
def CollisionFree (H : TableHash P) : Prop := Function.Injective H.chain

variable (P) in
/-- The free instance: a table is named by its entries. -/
@[reducible] def free : TableHash P where
  TableDigest := List (TableEntry P)
  decEqTableDigest := inferInstance
  emptyTable := []
  extend entries e := entries ++ [e]

theorem free_collisionFree : (free P).CollisionFree := by
  have hchain : ∀ entries : List (TableEntry P), (free P).chain entries = entries := by
    intro entries
    induction entries using List.reverseRecOn with
    | nil => rfl
    | append_singleton entries e ih => rw [chain, List.foldl_append, ← chain, ih]; rfl
  intro a b h
  rwa [hchain, hchain] at h

@[simp] theorem foldl_chain (entries added : List (TableEntry P)) :
    added.foldl H.extend (H.chain entries) = H.chain (entries ++ added) := by
  rw [chain, chain, List.foldl_append]

end TableHash

/-! ## What a request asks of the table -/

variable (H) in
/-- What the far end must add to its table before it can serve an epoch. -/
inductive MemberTable where
  /-- Every key, for a server that holds none of them. -/
  | full (entries : List (TableEntry P))
  /-- What activated since, on top of the table the server is believed to hold. -/
  | append (base : H.TableDigest) (added : List (TableEntry P))

namespace MemberTable

variable (H) in
/-- Every member's key, for a server that holds none of them. -/
def ofMembers (members : List (CommitteeMember P)) : MemberTable H := full (members.map entry)

/-- The digest of the table this leaves the far end holding. -/
def resultingDigest : MemberTable H → H.TableDigest
  | full entries => entries.foldl H.extend H.emptyTable
  | append base added => added.foldl H.extend base

def entries : MemberTable H → List (TableEntry P)
  | full entries => entries
  | append _ added => added

/-- The entries of the table this leaves the far end holding. -/
def Leaves (table : MemberTable H) (entries : List (TableEntry P)) : Prop :=
  match table with
  | full every => entries = every
  | append base added => ∃ before, H.chain before = base ∧ entries = before ++ added

theorem Leaves.resultingDigest {table : MemberTable H} {entries : List (TableEntry P)}
    (h : table.Leaves entries) : table.resultingDigest = H.chain entries := by
  cases table with
  | full every =>
      obtain rfl := h
      rfl
  | append base added =>
      obtain ⟨before, rfl, rfl⟩ := h
      exact TableHash.foldl_chain before added

end MemberTable

/-! ## The client's side -/

variable (H) in
/-- What one client believes the server is holding: a digest, and a bit for every
validator index whose key it has sent. -/
structure TableBelief where
  /-- `none` once this end has no idea what the far end holds. -/
  digest : Option H.TableDigest := none
  /-- 64 indices a word. -/
  sent : List ℕ := []

namespace TableBelief

variable (belief : TableBelief H)

def holds (index : UInt64) : Bool :=
  belief.sent[index.toNat / 64]?.any fun word => word.testBit (index.toNat % 64)

def mark (index : UInt64) : TableBelief H :=
  let word := index.toNat / 64
  -- Words past the end are added as zeros, and none are where there are enough.
  let sent := belief.sent ++ List.replicate (word + 1 - belief.sent.length) 0
  { belief with sent := sent.modify word (· ||| 1 <<< (index.toNat % 64)) }

/-- What to send so the far end can name every member of this witness. -/
def plan (members : List (CommitteeMember P)) : MemberTable H :=
  match belief.digest with
  | none => .ofMembers H members
  | some base => .append base ((members.filter fun m => !belief.holds m.validatorIndex).map entry)

/-- The table as it now stands, with nothing left to add. -/
def settled : Option (MemberTable H) := belief.digest.map fun base => .append base []

/-- Record a table the far end has taken. -/
def adopt (table : MemberTable H) : TableBelief H :=
  let cleared : TableBelief H :=
    match table with
    | .full _ => { belief with sent := [] }
    | .append _ _ => belief
  { table.entries.foldl (fun b e => b.mark e.validatorIndex) cleared with
    digest := some table.resultingDigest }

/-- Reconcile with what a server said it holds, at the handshake: only no table at all
is grounds to forget. -/
def reconcile (reported : Option H.TableDigest) : TableBelief H :=
  if reported.isNone then {} else belief

/-! ### The bits -/

variable {belief}

@[simp] theorem mark_digest (index : UInt64) : (belief.mark index).digest = belief.digest := rfl

/-- A word past the end is a word with no bit set. -/
theorem holds_eq (index : UInt64) :
    belief.holds index = (belief.sent[index.toNat / 64]?.getD 0).testBit (index.toNat % 64) := by
  unfold holds
  cases belief.sent[index.toNat / 64]? <;> simp

theorem getD_padded (words : List ℕ) (more word : ℕ) :
    (words ++ List.replicate more 0)[word]?.getD 0 = words[word]?.getD 0 := by
  by_cases hlt : word < words.length
  · rw [List.getElem?_append_left hlt]
  · rw [List.getElem?_append_right (by omega), List.getElem?_replicate,
      List.getElem?_eq_none (by omega)]
    split <;> rfl

theorem getD_mark (index : UInt64) (word : ℕ) :
    (belief.mark index).sent[word]?.getD 0 =
      if index.toNat / 64 = word then belief.sent[word]?.getD 0 ||| 1 <<< (index.toNat % 64)
      else belief.sent[word]?.getD 0 := by
  have hpad := getD_padded belief.sent (index.toNat / 64 + 1 - belief.sent.length) word
  simp only [mark, List.getElem?_modify]
  split
  · next hword =>
      have hlt : word < (belief.sent ++
          List.replicate (index.toNat / 64 + 1 - belief.sent.length) 0).length := by
        rw [List.length_append, List.length_replicate]
        omega
      rw [← hpad, List.getElem?_eq_getElem hlt]
      rfl
  · rw [Option.map_eq_map, Option.map_id']
    exact hpad

/-- An index is held once it is marked, or if it was held before. -/
theorem holds_mark {i j : UInt64} :
    (belief.mark i).holds j = true ↔ i = j ∨ belief.holds j = true := by
  rw [holds_eq, holds_eq, getD_mark]
  split
  · next hword =>
      have hsame : i.toNat % 64 = j.toNat % 64 ↔ i = j := by
        rw [← UInt64.toNat_inj]
        omega
      rw [Nat.testBit_or, Bool.or_eq_true, or_comm, ← hsame, Nat.shiftLeft_eq, Nat.one_mul,
        Nat.testBit_two_pow, decide_eq_true_eq]
  · next hword =>
      have hne : i ≠ j := fun h => hword (congrArg (·.toNat / 64) h)
      simp [hne]

theorem holds_foldl_mark {es : List (TableEntry P)} {j : UInt64} :
    (es.foldl (fun b e => b.mark e.validatorIndex) belief).holds j = true ↔
      j ∈ es.map TableEntry.validatorIndex ∨ belief.holds j = true := by
  induction es generalizing belief with
  | nil => simp
  | cons e es ih =>
      rw [List.foldl_cons, ih, holds_mark, List.map_cons, List.mem_cons]
      tauto

@[simp] theorem foldl_mark_digest (es : List (TableEntry P)) :
    (es.foldl (fun b e => b.mark e.validatorIndex) belief).digest = belief.digest := by
  induction es generalizing belief with
  | nil => rfl
  | cons e es ih => rw [List.foldl_cons, ih, mark_digest]

@[simp] theorem adopt_digest (table : MemberTable H) :
    (belief.adopt table).digest = some table.resultingDigest := rfl

/-- Taking a whole table forgets every other index. -/
theorem holds_adopt_full {entries : List (TableEntry P)} {j : UInt64} :
    (belief.adopt (.full entries)).holds j = true ↔
      j ∈ entries.map TableEntry.validatorIndex := by
  show (entries.foldl (fun b e => b.mark e.validatorIndex)
    ({ belief with sent := [] } : TableBelief H)).holds j = true ↔ _
  rw [holds_foldl_mark]
  simp [holds]

theorem holds_adopt_append {base : H.TableDigest} {added : List (TableEntry P)} {j : UInt64} :
    (belief.adopt (.append base added)).holds j = true ↔
      j ∈ added.map TableEntry.validatorIndex ∨ belief.holds j = true :=
  holds_foldl_mark

@[simp] theorem not_holds_forgotten (j : UInt64) : ({} : TableBelief H).holds j = false := rfl

end TableBelief
end Zkasper.CommitteeCache
