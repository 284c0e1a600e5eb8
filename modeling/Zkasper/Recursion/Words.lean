import Zkasper.Fcr.Types
import Zkasper.Onchain.Encoding
import Zkasper.StreamFinal
import Mathlib.Data.FinEnum

/-! # The words of a child proof

What a parent reads out of the flat word vector of a child: the key of the proving
system at its tail, the key of the program and the 64 public words behind the header.
`verifyChild` binds the public words to the bytes a child of the expected kind would have
published, and `published_eq` says that it binds all of them.

`split` reads the same vector apart for whoever wraps it. On an uncompressed proof the
two readers meet in every part (`split_eq_some`), but for public words that do not fit
the 32 bits they were committed in: those `split` hands on and `childPublicBytes`
refuses. -/

namespace Zkasper

/-! ## The outputs of the fast confirmation proofs -/

def Fcr.FcrBatchOutput.publicBytes {P : Primitives} (o : FcrBatchOutput P) : PublicBytes P :=
  [.digest o.accumulatorCommitment, .digest o.committeeRoot, .bytes32 o.parentHeadRoot,
    .bytes32 o.headRoot, .u64 o.headSlot, .u64 o.support, .u64 o.totalActiveBalance,
    .u64 o.firstSlot, .u64 o.slotCount, .u64 o.threshold, .u64 (if o.confirmed then 1 else 0),
    .u64 o.byzantineThreshold, .u64 o.proposerScoreBoost, .u64 o.emptySlotSupport]

def Fcr.FcrCommitteeOutput.publicBytes {P : Primitives} (o : FcrCommitteeOutput P) :
    PublicBytes P :=
  [.digest o.accumulatorCommitment, .bytes32 o.seed, .u64 o.epoch, .digest o.committeeRoot,
    .u64 o.activeCount]

/-! ## Outputs and their fields -/

/-- A flag is determined by the word it is published as. -/
theorem flagWord_injective {a b : Bool}
    (h : (if a then 1 else 0 : UInt64) = if b then 1 else 0) : a = b := by
  cases a <;> cases b <;> first | rfl | exact absurd h (by decide)

section Injective

variable {P : Primitives}

theorem SlotProofOutput.publicBytes_injective :
    Function.Injective (SlotProofOutput.publicBytes (P := P)) := by
  rintro ⟨⟩ ⟨⟩ h
  simpa [publicBytes] using h

theorem FinalizationOutput.publicBytes_injective :
    Function.Injective (FinalizationOutput.publicBytes (P := P)) := by
  rintro ⟨⟩ ⟨⟩ h
  simpa [publicBytes] using h

theorem JustificationOutput.publicBytes_injective :
    Function.Injective (JustificationOutput.publicBytes (P := P)) := by
  rintro ⟨⟩ ⟨⟩ h
  simp only [publicBytes, List.cons.injEq, PublicField.digest.injEq, PublicField.u64.injEq,
    PublicField.bytes32.injEq, PublicField.programVk.injEq, and_true] at h
  obtain ⟨rfl, rfl, rfl, rfl, rfl, rfl, rfl, rfl, hflag, rfl⟩ := h
  rw [flagWord_injective hflag]

theorem Fcr.FcrBatchOutput.publicBytes_injective :
    Function.Injective (FcrBatchOutput.publicBytes (P := P)) := by
  rintro ⟨⟩ ⟨⟩ h
  simp only [publicBytes, List.cons.injEq, PublicField.digest.injEq, PublicField.u64.injEq,
    PublicField.bytes32.injEq, and_true] at h
  obtain ⟨rfl, rfl, rfl, rfl, rfl, rfl, rfl, rfl, rfl, rfl, hflag, rfl, rfl, rfl⟩ := h
  rw [flagWord_injective hflag]

theorem Fcr.FcrCommitteeOutput.publicBytes_injective :
    Function.Injective (FcrCommitteeOutput.publicBytes (P := P)) := by
  rintro ⟨⟩ ⟨⟩ h
  simpa [publicBytes] using h

end Injective

namespace Recursion

open Onchain

variable {P : Primitives}

/-! ## Reading -/

/-- `PROGRAM_VK_LEN` -/
def programVkLen : ℕ := 4

/-- `ZISK_PUBLICS` -/
def ziskPublics : ℕ := 64

/-- `VADCOP_VK_LEN` -/
def vadcopVkLen : ℕ := 4

/-- `VK_OFFSET` -/
def vkOffset : ℕ := 3

/-- `PUBLICS_OFFSET` -/
def publicsOffset : ℕ := vkOffset + programVkLen

/-- `MIN_PROOF_WORDS`: a shorter buffer would have its tail read out of its publics. -/
def minProofWords : ℕ := publicsOffset + ziskPublics + vadcopVkLen

/-- `VADCOP_FINAL_VK` -/
def vadcopFinalVk : ProgramVk :=
  ⟨6218392583875695404, 9353885302538021251, 8280779842059074605, 10684020678174455855⟩

/-- A key out of the first four words of a slice. -/
def vkOfWords (words : List UInt64) : ProgramVk :=
  ⟨words.getD 0 0, words.getD 1 0, words.getD 2 0, words.getD 3 0⟩

section Readers

variable (proof : List UInt64)

/-- Whether a proof is laid out the way the offsets read it. -/
def isUncompressed : Bool := minProofWords ≤ proof.length && proof.getD 0 0 = 0

/-- The VADCOP final verification key a proof asks to be checked under. -/
def childVadcopVk : Option ProgramVk :=
  if isUncompressed proof then some (vkOfWords (proof.drop (proof.length - vadcopVkLen)))
  else none

/-- The program verification key a proof commits to. -/
def childProgramVk : Option ProgramVk :=
  if isUncompressed proof then some (vkOfWords (proof.drop vkOffset)) else none

/-- The four bytes of a public word, where it fits the slot it was committed in. -/
def slotBytes (word : UInt64) : Option (List UInt8) :=
  if word.toNat ≤ 4294967295 then some (leBytes 4 word.toNat) else none

/-- The byte stream the child committed. -/
def childPublicBytes : Option (List UInt8) :=
  if isUncompressed proof then
    (((proof.drop publicsOffset).take ziskPublics).mapM slotBytes).map List.flatten
  else none

end Readers

/-! ## Splitting -/

/-- A stored proof, split back into its parts. -/
structure StoredProof where
  /-- Whether the proof was compressed. -/
  minimal : Bool
  /-- `[is_vadcop_final_proof?] | program_vk(4) | inputs(64)` -/
  starkPublics : List UInt64
  proof : List UInt64
  ziskVk : ProgramVk
  deriving DecidableEq

/-- The flag-free `[program_vk | inputs]`. -/
def StoredProof.publicsFull (s : StoredProof) : List UInt64 :=
  if s.minimal then s.starkPublics else s.starkPublics.drop 1

def splitFirst : List UInt64 → Option (UInt64 × List UInt64)
  | [] => none
  | word :: words => some (word, words)

def splitAtChecked (words : List UInt64) (k : ℕ) : Option (List UInt64 × List UInt64) :=
  if k ≤ words.length then some (words.take k, words.drop k) else none

/-- The first word: whether the proof is minimal, where it is a flag at all. -/
def flag (word : UInt64) : Option Bool :=
  if word = 0 then some false else if word = 1 then some true else none

/-- Split a stored proof into its parts, or `none` if the words are not one. -/
def split (words : List UInt64) : Option StoredProof := do
  let (minimal, rest) ← splitFirst words
  let (nPublics, rest) ← splitFirst rest
  let minimal ← flag minimal
  guard (nPublics.toNat = programVkLen + ziskPublics + (if minimal then 0 else 1))
  let (starkPublics, rest) ← splitAtChecked rest nPublics.toNat
  guard (vadcopVkLen ≤ rest.length)
  let (proof, tail) ← splitAtChecked rest (rest.length - vadcopVkLen)
  guard (proof ≠ [])
  return ⟨minimal, starkPublics, proof, vkOfWords tail⟩

/-! ## Verifying -/

/-- Verify a child proof and bind it to the program and outputs the caller expects, with
the proof system's own verifier outside. An empty proof is accepted on native targets. -/
def verifyChild (native : Bool) (verifyZiskProof : List UInt64 → Bool) (proof : List UInt64)
    (expectedVk : ProgramVk) (expectedPublics : List UInt8) : Guest Bool :=
  if proof = [] then return native
  else do
    Guest.assert (expectedPublics.length ≤ maxPublicBytes)
      s!"public outputs exceed the {maxPublicBytes}-byte proof capacity"
    if childVadcopVk proof ≠ some vadcopFinalVk then return false
    else if childProgramVk proof ≠ some expectedVk then return false
    else
      match childPublicBytes proof with
      | none => return false
      | some publics =>
          if publics.take expectedPublics.length ≠ expectedPublics then return false
          else if (publics.drop expectedPublics.length).any (· ≠ 0) then return false
          else return verifyZiskProof proof

/-! ## What is published -/

/-- The kinds of child. -/
inductive Child where
  | slotProof
  | group
  | committee
  | epochDiff
  | justification
  | aggregate
  | finalization
  | streamFinal
  | fcrBatch
  | fcrCommittee

namespace Child

/-- The outputs of a kind of child. -/
def Output (P : Primitives) : Child → Type
  | slotProof => SlotProofOutput P
  | group => GroupProofOutput P
  | committee => CommitteeOutput P
  | epochDiff => EpochDiffOutput P
  | justification => JustificationOutput P
  | aggregate => AggregateOutput P
  | finalization => FinalizationOutput P
  | streamFinal => StreamFinalOutput P
  | fcrBatch => Fcr.FcrBatchOutput P
  | fcrCommittee => Fcr.FcrCommitteeOutput P

def fields : (child : Child) → child.Output P → PublicBytes P
  | slotProof, o => SlotProofOutput.publicBytes o
  | group, o => GroupProofOutput.publicBytes o
  | committee, o => CommitteeOutput.publicBytes o
  | epochDiff, o => EpochDiffOutput.publicBytes o
  | justification, o => JustificationOutput.publicBytes o
  | aggregate, o => AggregateOutput.publicBytes o
  | finalization, o => FinalizationOutput.publicBytes o
  | streamFinal, o => StreamFinalOutput.publicBytes o
  | fcrBatch, o => Fcr.FcrBatchOutput.publicBytes o
  | fcrCommittee, o => Fcr.FcrCommitteeOutput.publicBytes o

/-- `public_bytes` of an output. -/
def publicBytes (e : Encoding P) (child : Child) (o : child.Output P) : Guest (List UInt8) :=
  finish e (child.fields o)

/-! ### Their layouts -/

/-- The kind of a field. -/
inductive FieldKind where
  | u64
  | bytes32
  | digest
  | programVk
  deriving DecidableEq

def kindOf : PublicField P → FieldKind
  | .u64 _ => .u64
  | .bytes32 _ => .bytes32
  | .digest _ => .digest
  | .programVk _ => .programVk

/-- The layout of a child's outputs, the same for all of them. -/
def layout : Child → List FieldKind
  | slotProof => [.digest, .digest, .u64, .bytes32, .u64, .bytes32, .u64, .u64]
  | group => [.digest, .digest, .u64, .bytes32, .u64, .bytes32, .u64, .u64, .digest]
  | committee => [.digest, .u64, .digest]
  | epochDiff => [.digest, .bytes32, .u64, .digest, .digest, .u64, .bytes32, .u64]
  | justification =>
      [.digest, .digest, .u64, .bytes32, .u64, .bytes32, .u64, .u64, .u64, .programVk]
  | aggregate =>
      [.digest, .digest, .digest, .bytes32, .u64, .bytes32, .u64, .u64, .digest, .programVk]
  | finalization => [.digest, .digest, .u64, .bytes32, .bytes32]
  | streamFinal => [.digest, .digest, .u64, .bytes32, .bytes32, .u64, .bytes32, .programVk]
  | fcrBatch =>
      [.digest, .digest, .bytes32, .bytes32, .u64, .u64, .u64, .u64, .u64, .u64, .u64, .u64,
        .u64, .u64]
  | fcrCommittee => [.digest, .bytes32, .u64, .digest, .u64]

theorem fields_kinds (child : Child) (o : child.Output P) :
    (child.fields o).map kindOf = child.layout := by
  cases child <;> rfl

/-- An output is determined by its fields. -/
theorem fields_injective (child : Child) : Function.Injective (child.fields (P := P)) := by
  cases child with
  | slotProof => exact SlotProofOutput.publicBytes_injective
  | group => exact GroupProofOutput.publicBytes_injective
  | committee => exact CommitteeOutput.publicBytes_injective
  | epochDiff => exact EpochDiffOutput.publicBytes_injective
  | justification => exact JustificationOutput.publicBytes_injective
  | aggregate => exact AggregateOutput.publicBytes_injective
  | finalization => exact FinalizationOutput.publicBytes_injective
  | streamFinal => exact StreamFinalOutput.publicBytes_injective
  | fcrBatch => exact Fcr.FcrBatchOutput.publicBytes_injective
  | fcrCommittee => exact Fcr.FcrCommitteeOutput.publicBytes_injective

end Child

/-! ## Binding -/

/-- The bytes behind a digest and a 32-byte value are all of them, as they are where these
are arrays. -/
structure Faithful (e : Encoding P) : Prop where
  digest : Function.Injective e.digest
  bytes32 : Function.Injective e.bytes32

section Binding

variable {e : Encoding P}

theorem u64Bytes_injective : Function.Injective u64Bytes := by
  intro ws
  induction ws with
  | nil =>
      intro vs h
      have hlength := congrArg List.length h
      rw [u64Bytes_length, u64Bytes_length, List.length_nil] at hlength
      exact (List.eq_nil_of_length_eq_zero (by omega)).symm
  | cons w ws ih =>
      intro vs h
      cases vs with
      | nil =>
          have hlength := congrArg List.length h
          rw [u64Bytes_length, u64Bytes_length, List.length_cons, List.length_nil] at hlength
          omega
      | cons v vs =>
          simp only [u64Bytes, List.flatMap_cons] at h
          obtain ⟨hword, hrest⟩ := List.append_inj h (by simp)
          rw [UInt64.toNat_inj.mp (leBytes_injective w.toNat_lt v.toNat_lt hword), ih hrest]

/-- A field is determined by its bytes, among the fields of its kind. -/
theorem fieldBytes_injective (he : Faithful e) {x y : PublicField P}
    (hkind : Child.kindOf x = Child.kindOf y) (h : fieldBytes e x = fieldBytes e y) : x = y := by
  cases x <;> cases y <;> first | (cases hkind; done) | skip
  case u64 v w => rw [(List.cons.inj (u64Bytes_injective h)).1]
  case bytes32 v w => rw [he.bytes32 (Subtype.ext h)]
  case digest v w => rw [he.digest (List.ofFn_injective (u64Bytes_injective h))]
  case programVk v w =>
      have hwords := u64Bytes_injective h
      simp only [List.cons.injEq, and_true] at hwords
      obtain ⟨h0, h1, h2, h3⟩ := hwords
      cases v
      cases w
      simp only at h0 h1 h2 h3
      rw [h0, h1, h2, h3]

/-- **Fields of one layout** are determined by the bytes they are written as. -/
theorem fields_eq_of_bytes (he : Faithful e) : ∀ {xs ys : PublicBytes P},
    xs.map Child.kindOf = ys.map Child.kindOf →
      xs.flatMap (fieldBytes e) = ys.flatMap (fieldBytes e) → xs = ys := by
  intro xs
  induction xs with
  | nil =>
      intro ys hkinds _
      exact (List.map_eq_nil_iff.mp hkinds.symm).symm
  | cons x xs ih =>
      intro ys hkinds hbytes
      cases ys with
      | nil => cases hkinds
      | cons y ys =>
          obtain ⟨hkind, hrest⟩ := List.cons.inj hkinds
          have hlength : (fieldBytes e x).length = (fieldBytes e y).length := by
            rw [fieldBytes_length, fieldBytes_length]
            cases x <;> cases y <;> first | rfl | cases hkind
          obtain ⟨hx, hxs⟩ := List.append_inj hbytes hlength
          rw [fieldBytes_injective he hkind hx, ih hrest hxs]

/-- Words a layout takes. -/
def kindWords : Child.FieldKind → ℕ
  | .u64 => 2
  | _ => 8

theorem published_length (e : Encoding P) (child : Child) (o : child.Output P) :
    ((child.fields o).flatMap (fieldBytes e)).length = 4 * (child.layout.map kindWords).sum := by
  have hwords : ∀ field : PublicField P, fieldWords field = kindWords (Child.kindOf field) := by
    intro field
    cases field <;> rfl
  rw [fields_length, ← Child.fields_kinds child o, List.map_map]
  exact congrArg (4 * ·.sum) (List.map_congr_left fun field _ => hwords field)

/-- **No output is too long**: `finish` never panics. -/
theorem publicBytes_eq_ok (e : Encoding P) (child : Child) (o : child.Output P) :
    child.publicBytes e o = .ok ((child.fields o).flatMap (fieldBytes e)) ∧
      ((child.fields o).flatMap (fieldBytes e)).length ≤ maxPublicBytes := by
  have hfits : ((child.fields o).flatMap (fieldBytes e)).length ≤ maxPublicBytes := by
    rw [published_length]
    cases child <;> decide
  refine ⟨?_, hfits⟩
  simp only [Child.publicBytes, finish, Guest.bind_eq_ok, Guest.assert_eq_ok, exists_const]
  exact ⟨hfits, rfl⟩

/-- **What a verified child binds**: its program, and the whole of its public bytes. -/
theorem verifyChild_eq_true {native : Bool} {verifyZiskProof : List UInt64 → Bool}
    {proof : List UInt64} {vk : ProgramVk} {publics : List UInt8} (hproof : proof ≠ [])
    (h : verifyChild native verifyZiskProof proof vk publics = .ok true) :
    childProgramVk proof = some vk ∧ ∃ bytes, childPublicBytes proof = some bytes ∧
      bytes.take publics.length = publics ∧ ∀ b ∈ bytes.drop publics.length, b = 0 := by
  rw [verifyChild, if_neg hproof] at h
  obtain ⟨_, -, h⟩ := Guest.bind_eq_ok.mp h
  split at h
  · cases h
  · split at h
    · cases h
    · next hvk =>
        split at h
        · cases h
        · next bytes hbytes =>
            split at h
            · cases h
            · next htake =>
                split at h
                · cases h
                · next hdrop =>
                    refine ⟨not_not.mp hvk, bytes, hbytes, not_not.mp htake, fun b hb => ?_⟩
                    by_contra hne
                    exact hdrop (List.any_eq_true.mpr ⟨b, hb, decide_eq_true hne⟩)

/-- Two outputs of one kind that one proof verifies against are one output. -/
theorem verifyChild_binds (he : Faithful e) {child : Child} {a b : child.Output P}
    {native : Bool} {verifyZiskProof : List UInt64 → Bool} {proof : List UInt64}
    {vk vk' : ProgramVk} {publics publics' : List UInt8} (hproof : proof ≠ [])
    (ha : child.publicBytes e a = .ok publics) (hb : child.publicBytes e b = .ok publics')
    (h : verifyChild native verifyZiskProof proof vk publics = .ok true)
    (h' : verifyChild native verifyZiskProof proof vk' publics' = .ok true) :
    a = b ∧ vk = vk' := by
  rw [(publicBytes_eq_ok e child a).1] at ha
  rw [(publicBytes_eq_ok e child b).1] at hb
  obtain rfl := Except.ok.inj ha
  obtain rfl := Except.ok.inj hb
  obtain ⟨hvk, bytes, hbytes, htake, -⟩ := verifyChild_eq_true hproof h
  obtain ⟨hvk', bytes', hbytes', htake', -⟩ := verifyChild_eq_true hproof h'
  rw [hbytes] at hbytes'
  obtain rfl := Option.some.inj hbytes'
  rw [published_length] at htake htake'
  refine ⟨child.fields_injective (fields_eq_of_bytes he ?_ (htake.symm.trans htake')), ?_⟩
  · rw [Child.fields_kinds, Child.fields_kinds]
  · rw [hvk] at hvk'
    exact Option.some.inj hvk'

end Binding

/-! ## The abstract proof system -/

/-- The proof system the circuits are written over, on the words of a proof. -/
def system (e : Encoding P) (verifyZiskProof : List UInt64 → Bool) : ProofSystem P :=
  fun proof vk fields =>
    decide (verifyChild false verifyZiskProof proof vk (fields.flatMap (fieldBytes e)) = .ok true)

/-- **The circuits' `verify_child` is this one**, inside a guest. -/
theorem verifyChild_system (e : Encoding P) (verifyZiskProof : List UInt64 → Bool)
    (proof : List UInt64) (vk : ProgramVk) (fields : PublicBytes P) :
    Zkasper.verifyChild (system e verifyZiskProof) proof vk fields = true ↔
      verifyChild false verifyZiskProof proof vk (fields.flatMap (fieldBytes e)) = .ok true := by
  unfold Zkasper.verifyChild
  split
  · next hempty =>
      rw [verifyChild, if_pos hempty]
      exact ⟨nofun, fun h => absurd (Guest.pure_eq_ok.mp h) (by decide)⟩
  · exact decide_eq_true_iff

/-! ## The two readers -/

/-- The program key of a stored proof. -/
def StoredProof.programVk (s : StoredProof) : ProgramVk := vkOfWords s.publicsFull

/-- The public words of a stored proof. -/
def StoredProof.inputs (s : StoredProof) : List UInt64 := s.publicsFull.drop programVkLen

section Splitting

variable {words : List UInt64} {s : StoredProof}

theorem guard_eq_some {p : Prop} [Decidable p] {u : Unit} :
    (guard p : Option Unit) = some u ↔ p := by
  unfold guard
  split <;> simp_all

theorem splitFirst_eq_some {word : UInt64} {rest : List UInt64} :
    splitFirst words = some (word, rest) ↔ words = word :: rest := by
  cases words with
  | nil => exact ⟨nofun, nofun⟩
  | cons w ws =>
      simp only [splitFirst, Option.some.injEq, Prod.mk.injEq, List.cons.injEq]

theorem splitAtChecked_eq_some {k : ℕ} {front back : List UInt64} :
    splitAtChecked words k = some (front, back) ↔ words = front ++ back ∧ front.length = k := by
  unfold splitAtChecked
  constructor
  · intro h
    split at h
    · next hk =>
        obtain ⟨rfl, rfl⟩ := Prod.mk.inj (Option.some.inj h)
        exact ⟨(List.take_append_drop k words).symm, List.length_take_of_le hk⟩
    · cases h
  · rintro ⟨rfl, rfl⟩
    rw [if_pos (by simp), List.take_left, List.drop_left]

/-- **What `split` accepts**: a flag, a count, the publics it counts, a proof and a key. -/
theorem split_eq_some (h : split words = some s) :
    ∃ first count tail, words = first :: count :: (s.starkPublics ++ (s.proof ++ tail)) ∧
      flag first = some s.minimal ∧
      s.starkPublics.length = programVkLen + ziskPublics + (if s.minimal then 0 else 1) ∧
      s.proof ≠ [] ∧ tail.length = vadcopVkLen ∧ s.ziskVk = vkOfWords tail := by
  obtain ⟨⟨first, rest⟩, hfirst, h⟩ := Option.bind_eq_some_iff.mp h
  obtain ⟨⟨count, rest'⟩, hcount, h⟩ := Option.bind_eq_some_iff.mp h
  obtain ⟨minimal, hminimal, h⟩ := Option.bind_eq_some_iff.mp h
  obtain ⟨_, hpublics, h⟩ := Option.bind_eq_some_iff.mp h
  obtain ⟨⟨starkPublics, body⟩, hstark, h⟩ := Option.bind_eq_some_iff.mp h
  obtain ⟨_, hlong, h⟩ := Option.bind_eq_some_iff.mp h
  obtain ⟨⟨proof, tail⟩, hproof, h⟩ := Option.bind_eq_some_iff.mp h
  obtain ⟨_, hnonempty, h⟩ := Option.bind_eq_some_iff.mp h
  obtain rfl := Option.some.inj h
  rw [splitFirst_eq_some] at hfirst hcount
  rw [splitAtChecked_eq_some] at hstark hproof
  rw [guard_eq_some] at hpublics hlong hnonempty
  obtain ⟨rfl, hlength⟩ := hstark
  obtain ⟨rfl, hbody⟩ := hproof
  rw [List.length_append] at hlong hbody
  refine ⟨first, count, tail, ?_, hminimal, hlength.trans hpublics, hnonempty, by omega, rfl⟩
  rw [hfirst, hcount]

theorem flag_eq_false {word : UInt64} (h : flag word = some false) : word = 0 := by
  unfold flag at h
  split at h
  · assumption
  · split at h <;> cases h

/-- The first four words make the same key, whatever comes behind them. -/
theorem vkOfWords_append {front back : List UInt64} (h : programVkLen ≤ front.length) :
    vkOfWords (front ++ back) = vkOfWords front := by
  have hget : ∀ i < programVkLen, (front ++ back).getD i 0 = front.getD i 0 := by
    intro i hi
    rw [List.getD_eq_getElem?_getD, List.getD_eq_getElem?_getD,
      List.getElem?_append_left (lt_of_lt_of_le hi h)]
  simp only [vkOfWords, hget 0 (by decide), hget 1 (by decide), hget 2 (by decide),
    hget 3 (by decide)]

/-- Public words are read where every one fits its slot. -/
theorem mapM_slotBytes (inputs : List UInt64) : inputs.mapM slotBytes =
    if ∀ w ∈ inputs, w.toNat ≤ 4294967295 then some (inputs.map fun w => leBytes 4 w.toNat)
    else none := by
  induction inputs with
  | nil => simp
  | cons w ws ih =>
      rw [List.mapM_cons, ih, slotBytes]
      simp only [List.forall_mem_cons]
      by_cases hw : w.toNat ≤ 4294967295
      · by_cases hws : ∀ w ∈ ws, w.toNat ≤ 4294967295
        · rw [if_pos hw, if_pos hws, if_pos ⟨hw, hws⟩]
          rfl
        · rw [if_pos hw, if_neg hws, if_neg fun h : _ ∧ _ => hws h.2]
          rfl
      · rw [if_neg hw, if_neg fun h : _ ∧ _ => hw h.1]
        rfl

/-- **The two readers meet**: on an uncompressed proof they read one program key and one
trailing key, and the same public words where these fit their slots. -/
theorem split_agrees (h : split words = some s) (hminimal : s.minimal = false) :
    childProgramVk words = some s.programVk ∧ childVadcopVk words = some s.ziskVk ∧
      childPublicBytes words =
        if ∀ w ∈ s.inputs, w.toNat ≤ 4294967295
        then some (s.inputs.flatMap fun w => leBytes 4 w.toNat) else none := by
  obtain ⟨first, count, tail, rfl, hflag, hstark, hproof, htail, hvk⟩ := split_eq_some h
  rw [hminimal] at hflag hstark
  obtain rfl := flag_eq_false hflag
  have hlength : s.starkPublics.length = 69 := hstark
  have hkey : tail.length = 4 := htail
  have hpositive : 0 < s.proof.length := List.length_pos_iff.mpr hproof
  have hlaid : isUncompressed (0 :: count :: (s.starkPublics ++ (s.proof ++ tail))) = true := by
    rw [isUncompressed, Bool.and_eq_true, decide_eq_true_eq, decide_eq_true_eq]
    refine ⟨?_, rfl⟩
    rw [List.length_cons, List.length_cons, List.length_append, List.length_append, hlength, hkey]
    show 7 + 64 + 4 ≤ _
    omega
  -- the first public is the flag that `publicsFull` drops
  obtain ⟨isFinal, publics, hpublics⟩ : ∃ isFinal publics, s.starkPublics = isFinal :: publics :=
    List.exists_cons_of_length_eq_add_one hlength
  have hfull : s.publicsFull = publics := by
    rw [StoredProof.publicsFull, hminimal, hpublics]
    rfl
  have hfullLength : publics.length = 68 := by
    rw [hpublics, List.length_cons] at hlength
    omega
  have hbehind : (0 :: count :: (s.starkPublics ++ (s.proof ++ tail))).drop vkOffset =
      publics ++ (s.proof ++ tail) := by
    rw [hpublics]
    rfl
  refine ⟨?_, ?_, ?_⟩
  · rw [childProgramVk, if_pos hlaid, hbehind, vkOfWords_append (by rw [hfullLength]; decide),
      StoredProof.programVk, hfull]
  · have hfront : 0 :: count :: (s.starkPublics ++ (s.proof ++ tail)) =
        (0 :: count :: (s.starkPublics ++ s.proof)) ++ tail := by simp
    rw [childVadcopVk, if_pos hlaid, hvk, hfront, List.length_append, htail,
      Nat.add_sub_cancel, List.drop_left]
  · have hinputs : ((0 :: count :: (s.starkPublics ++ (s.proof ++ tail))).drop
        publicsOffset).take ziskPublics = s.inputs := by
      have hdrop : (0 :: count :: (s.starkPublics ++ (s.proof ++ tail))).drop publicsOffset =
          (publics ++ (s.proof ++ tail)).drop programVkLen := by
        rw [← hbehind, List.drop_drop]
        rfl
      have hcut : programVkLen ≤ publics.length := by
        rw [hfullLength]
        decide
      rw [hdrop, List.drop_append_of_le_length hcut, StoredProof.inputs, hfull]
      exact List.take_left' (by rw [List.length_drop, hfullLength]; rfl)
    rw [childPublicBytes, if_pos hlaid, hinputs, mapM_slotBytes]
    split
    · rw [Option.map_some, List.flatMap_def]
    · rfl

end Splitting

/-! ## The layer as a whole -/

/-- **Public outputs are bound.** No two outputs of one kind, nor two programs, verify
against one proof; every output fits a proof; and what `split` takes apart of an
uncompressed proof is what the three readers read, public words that do not fit their
slots being refused by the third. -/
theorem outputs_bound (e : Encoding P) (he : Faithful e) (native : Bool)
    (verifyZiskProof : List UInt64 → Bool) :
    (∀ (child : Child) (a b : child.Output P) (proof : List UInt64) (vk vk' : ProgramVk)
        (publics publics' : List UInt8), proof ≠ [] → child.publicBytes e a = .ok publics →
      child.publicBytes e b = .ok publics' →
      verifyChild native verifyZiskProof proof vk publics = .ok true →
      verifyChild native verifyZiskProof proof vk' publics' = .ok true → a = b ∧ vk = vk') ∧
    (∀ (child : Child) (a : child.Output P), ∃ publics, child.publicBytes e a = .ok publics ∧
      publics.length ≤ maxPublicBytes) ∧
    ∀ words s, split words = some s → s.minimal = false →
      childProgramVk words = some s.programVk ∧ childVadcopVk words = some s.ziskVk ∧
        childPublicBytes words =
          if ∀ w ∈ s.inputs, w.toNat ≤ 4294967295
          then some (s.inputs.flatMap fun w => leBytes 4 w.toNat) else none := by
  refine ⟨?_, fun child a => ⟨_, publicBytes_eq_ok e child a⟩, fun words s => split_agrees⟩
  intro child a b proof vk vk' publics publics' hproof ha hb h h'
  exact verifyChild_binds he hproof ha hb h h'

/-- The value types of the source, arrays of words and of bytes. What is published does
not depend on the operations over them. -/
def arrays : Primitives where
  Digest := Fin 4 → UInt64
  Bytes32 := Bytes 32
  G1Point := Fin 12 → UInt64
  G2Point := Fin 24 → UInt64
  Fp12 := Fin 72 → UInt64
  decEqDigest := inferInstance
  decEqBytes32 := inferInstance
  decEqG1Point := inferInstance
  decEqG2Point := inferInstance
  zero _ := 0
  compress a _ := a
  leaf _ _ _ := 0
  commitment a _ := a
  commitFp12 _ _ := 0
  digestOfWords words i := words.getD i 0
  pointOfWords words i := words.getD i 0
  ofBytes := id
  sha256Pair a _ := a
  decompress _ := none
  publicKeyFromBytes _ := none
  sameX a b := a = b
  curveAdd a _ := a
  neg := id
  addCompleteSafe _ _ := none
  g1Identity _ := 0
  g1Generator _ := 1
  decompressTwist _ := none
  addCompleteSafeTwist _ _ := none
  g2Identity _ := 0
  isOnSubgroupTwist _ := false
  hashToCurve _ _ := 0
  millerLoopBatch _ _ _ := 0
  fp12One _ := 1
  fp12Mul a _ := a
  finalExpIsOne _ := false

/-- Arrays are their own bytes. -/
def arrayEncoding : Encoding arrays where
  digest := id
  bytes32 := id

/-- The committee output of epoch 300. -/
def lateCommittee : CommitteeOutput arrays where
  accumulatorCommitment i := [4294967297, 8589934594, 12884901891, 17179869188].getD i 0
  targetEpoch := 300
  committeeRoot i := [21474836485, 25769803782, 30064771079, 34359738376].getD i 0

/-- An uncompressed proof of it, whose public words are the halves of those above. -/
def lateProof : List UInt64 :=
  [0, 69, 1, 21, 22, 23, 24] ++
    ([1, 1, 2, 2, 3, 3, 4, 4, 300, 0, 5, 5, 6, 6, 7, 7, 8, 8] ++ List.replicate 46 0) ++
    [7, 6218392583875695404, 9353885302538021251, 8280779842059074605, 10684020678174455855]

/-- The proof verifies for that committee, and for no other output or program; and `split` takes
it apart as the readers read it. -/
theorem outputs_bound_late :
    ∃ publics, Child.publicBytes arrayEncoding .committee lateCommittee = .ok publics ∧
      verifyChild false (fun _ => true) lateProof ⟨21, 22, 23, 24⟩ publics = .ok true ∧
      (∀ (b : CommitteeOutput arrays) (vk : ProgramVk) (publics : List UInt8),
        Child.publicBytes arrayEncoding .committee b = .ok publics →
          verifyChild false (fun _ => true) lateProof vk publics = .ok true →
            lateCommittee = b ∧ ⟨21, 22, 23, 24⟩ = vk) ∧
      ∃ s, split lateProof = some s ∧ childProgramVk lateProof = some s.programVk ∧
        childVadcopVk lateProof = some s.ziskVk := by
  obtain ⟨publics, hpublics, hverify⟩ : ∃ publics,
      Child.publicBytes arrayEncoding .committee lateCommittee = .ok publics ∧
        verifyChild false (fun _ => true) lateProof ⟨21, 22, 23, 24⟩ publics = .ok true := by
    decide +kernel
  obtain ⟨s, hsplit, hminimal⟩ : ∃ s, split lateProof = some s ∧ s.minimal = false := by
    decide +kernel
  have hfaithful : Faithful arrayEncoding := ⟨Function.injective_id, Function.injective_id⟩
  obtain ⟨hbinds, -, hreads⟩ := outputs_bound arrayEncoding hfaithful false fun _ => true
  refine ⟨publics, hpublics, hverify, fun b vk publics' hb h => ?_, s, hsplit, ?_⟩
  · exact hbinds .committee lateCommittee b lateProof ⟨21, 22, 23, 24⟩ vk publics publics'
      (by decide) hpublics hb hverify h
  · obtain ⟨hprogram, hkey, -⟩ := hreads lateProof s hsplit hminimal
    exact ⟨hprogram, hkey⟩

/-- An uncompressed proof of one word, under a program key of ones. -/
def shortProof (input : UInt64) : List UInt64 :=
  [0, 69, 1, 1, 1, 1, 1] ++ (List.replicate 63 0 ++ [input]) ++
    [7, 6218392583875695404, 9353885302538021251, 8280779842059074605, 10684020678174455855]

/-- **A public word of 33 bits**: `split` hands it on, and there are no public bytes. -/
theorem split_disagrees :
    ∃ s, split (shortProof 4294967296) = some s ∧
      (s.minimal = false ∧ (4294967296 : UInt64) ∈ s.inputs ∧
        childPublicBytes (shortProof 4294967296) = none) := by decide +kernel

end Recursion

end Zkasper
