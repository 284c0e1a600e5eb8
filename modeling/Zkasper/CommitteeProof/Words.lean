import Zkasper.CommitteeProof.Entries
import Zkasper.Library.Chunks

/-! # The words of a committee witness

`encode` lays a committee witness out as the flat array of words that `verify` reads in
place: a header with two counts, then members and auxiliaries at fixed strides. `read`
is the reading `verify` begins with (`verify_eq_ok_iff`); it takes back what `encode`
wrote (`read_encode`), and `encode_read` says from which words it loses nothing.

The counts are multiplied by their strides in wrapping arithmetic. The vectors that the
guest allocates bound the first one, and nothing bounds the second. -/

namespace Zkasper.Committee

open Chunks

variable {P : Primitives}

/-! ## Witnesses -/

namespace Wire

/-- `[u64; N]` -/
abbrev WordArray (n : ℕ) := Fin n → UInt64

/-- The first words of a slice, as an array. -/
def WordArray.ofList (n : ℕ) (words : List UInt64) : WordArray n := fun i => words.getD i 0

/-- One validator's committee assignment, as its words. -/
structure CommitteeMember where
  validatorIndex : UInt64
  pubkey : WordArray 12
  activeEffectiveBalance : UInt64
  slotInEpoch : UInt64
  deriving DecidableEq

/-- Witness for the committee proof, as its words. -/
structure CommitteeWitness where
  accumulatorCommitment : WordArray 4
  targetEpoch : UInt64
  accRoot : WordArray 4
  totalActiveBalance : UInt64
  members : List CommitteeMember
  auxiliaries : List (WordArray 4)
  deriving DecidableEq

/-- Both vectors fit the memory a vector may have, with members of fifteen words and
digests of four. -/
def CommitteeWitness.Fits (w : CommitteeWitness) : Prop :=
  w.members.length * (8 * memberWords) < 2 ^ 63 ∧
    w.auxiliaries.length * (8 * digestWords) < 2 ^ 63

/-! ## Writing and reading -/

def CommitteeMember.toWords (m : CommitteeMember) : List UInt64 :=
  m.validatorIndex :: (List.ofFn m.pubkey ++ [m.activeEffectiveBalance, m.slotInEpoch])

/-- Lay a committee witness out as the flat word array that `verify` reads. -/
def encode (w : CommitteeWitness) : List UInt64 :=
  List.ofFn w.accumulatorCommitment ++ List.ofFn w.accRoot ++
    [w.targetEpoch, w.totalActiveBalance, UInt64.ofNat w.members.length,
      UInt64.ofNat w.auxiliaries.length] ++
    (w.members.map CommitteeMember.toWords).flatten ++
    (w.auxiliaries.map fun auxiliary => List.ofFn auxiliary).flatten

/-- A member read out of its fifteen words. -/
def CommitteeMember.ofWords (words : List UInt64) : CommitteeMember where
  validatorIndex := words.getD 0 0
  pubkey := .ofList 12 ((words.drop 1).take 12)
  activeEffectiveBalance := words.getD 13 0
  slotInEpoch := words.getD 14 0

/-- What `verify` reads, with the checks it makes on the way. -/
def read (words : List UInt64) : Guest CommitteeWitness := do
  Guest.assert (headerWords ≤ words.length) "committee witness is shorter than its header"
  let memberCount := words.getD 10 0
  let auxiliaries := 12 + memberCount * 15
  Guest.assert (UInt64.ofNat words.length = auxiliaries + words.getD 11 0 * 4)
    "committee witness does not hold the counts its header names"
  Guest.assert (memberCount.toNat * 32 < 2 ^ 63) "capacity overflow"
  Guest.assert (auxiliaries.toNat ≤ words.length) "range end index out of range for slice"
  let members ← records memberWords ((words.take auxiliaries.toNat).drop headerWords)
  let digests ← records digestWords (words.drop auxiliaries.toNat)
  return {
    accumulatorCommitment := .ofList 4 (words.take 4)
    targetEpoch := words.getD 8 0
    accRoot := .ofList 4 ((words.drop 4).take 4)
    totalActiveBalance := words.getD 9 0
    members := members.map CommitteeMember.ofWords
    auxiliaries := digests.map (.ofList 4) }

/-- The member the circuit works with. -/
def CommitteeMember.value (P : Primitives) (m : CommitteeMember) : Committee.CommitteeMember P where
  validatorIndex := m.validatorIndex
  pubkey := P.pointOfWords (List.ofFn m.pubkey)
  activeEffectiveBalance := m.activeEffectiveBalance
  slotInEpoch := m.slotInEpoch

/-- What `verify` does with what it has read. -/
def CommitteeWitness.check (P : Primitives) (w : CommitteeWitness) (accDepth : ℕ) :
    Guest (CommitteeOutput P) := do
  let accRoot := P.digestOfWords (List.ofFn w.accRoot)
  let accumulatorCommitment := P.digestOfWords (List.ofFn w.accumulatorCommitment)
  Guest.assert (P.commitment accRoot w.totalActiveBalance = accumulatorCommitment)
    "accumulator commitment mismatch"
  let s ← (w.members.map (CommitteeMember.value P)).foldlM addMember
    ⟨[], fun _ => ⟨none⟩, fun _ => 0, none⟩
  let root' ← Merkle.batchRootColumns P.compress s.nodes
    (w.auxiliaries.map fun auxiliary => P.digestOfWords (List.ofFn auxiliary)) accDepth
  Guest.assert (root' = accRoot) "accumulator root mismatch"
  let committeeRoot ← root ((List.range maxSlots).map s.aggregate)
  return ⟨accumulatorCommitment, w.targetEpoch, committeeRoot⟩

/-! ## Records -/

/-- **Records** are what a run of words is cut into, where nothing is left over. -/
theorem records_eq_ok {n : ℕ} (hn : n ≠ 0) {words : List UInt64} {rs : List (List UInt64)} :
    records n words = .ok rs ↔ rs.flatten = words ∧ ∀ r ∈ rs, r.length = n := by
  simp only [records, Guest.bind_eq_ok, Guest.assert_eq_ok, Guest.pure_eq_ok, exists_const]
  constructor
  · rintro ⟨hmod, rfl⟩
    exact ⟨flatten_chunks hmod, fun r hr => length_of_mem_chunks hr⟩
  · rintro ⟨rfl, hlength⟩
    refine ⟨?_, chunks_flatten hn hlength⟩
    rw [length_flatten hlength, Nat.mul_mod_left]

@[simp] theorem length_toWords (m : CommitteeMember) : m.toWords.length = memberWords := by
  simp [CommitteeMember.toWords, memberWords]

theorem WordArray.ofList_ofFn {n : ℕ} (a : WordArray n) : .ofList n (List.ofFn a) = a :=
  funext fun i => getD_ofFn a 0 i

theorem WordArray.ofFn_ofList {n : ℕ} {words : List UInt64} (h : words.length = n) :
    List.ofFn (WordArray.ofList n words) = words :=
  ofFn_getD h 0

/-- A word past the limbs is one of the two behind them. -/
theorem getD_behind (words : List UInt64) (i : ℕ) :
    words.getD (13 + i) 0 = (words.drop 13).getD i 0 := by
  simp [List.getD_eq_getElem?_getD]

theorem ofWords_toWords (m : CommitteeMember) : .ofWords m.toWords = m := by
  have hlimbs : (m.toWords.drop 1).take 12 = List.ofFn m.pubkey := by
    show (List.ofFn m.pubkey ++ _).take 12 = _
    rw [List.take_append_of_le_length (by simp)]
    exact List.take_of_length_le (by simp)
  have hrest : m.toWords.drop 13 = [m.activeEffectiveBalance, m.slotInEpoch] := by
    show (List.ofFn m.pubkey ++ _).drop 12 = _
    exact List.drop_left' (by simp)
  have hbalance : m.toWords.getD 13 0 = m.activeEffectiveBalance := by
    rw [getD_behind m.toWords 0, hrest]
    rfl
  have hslot : m.toWords.getD 14 0 = m.slotInEpoch := by
    rw [getD_behind m.toWords 1, hrest]
    rfl
  cases m
  simp only [CommitteeMember.ofWords, hlimbs, hbalance, hslot, WordArray.ofList_ofFn]
  rfl

theorem toWords_ofWords {words : List UInt64} (h : words.length = memberWords) :
    (CommitteeMember.ofWords words).toWords = words := by
  obtain ⟨index, rest, rfl⟩ : ∃ index rest, words = index :: rest :=
    List.exists_cons_of_length_eq_add_one h
  have hrest : rest.length = 14 := Nat.succ_inj.mp h
  obtain ⟨balance, slot, hlast⟩ : ∃ balance slot, rest.drop 12 = [balance, slot] := by
    apply List.length_eq_two.mp
    rw [List.length_drop, hrest]
  have hdrop : (index :: rest).drop 13 = [balance, slot] := hlast
  have hbalance : (index :: rest).getD 13 0 = balance := by
    rw [getD_behind (index :: rest) 0, hdrop]
    rfl
  have hslot : (index :: rest).getD 14 0 = slot := by
    rw [getD_behind (index :: rest) 1, hdrop]
    rfl
  have hlimbs : List.ofFn (WordArray.ofList 12 (rest.take 12)) = rest.take 12 :=
    WordArray.ofFn_ofList (by rw [List.length_take, hrest]; rfl)
  show index :: (List.ofFn (WordArray.ofList 12 (rest.take 12)) ++
    [(index :: rest).getD 13 0, (index :: rest).getD 14 0]) = index :: rest
  rw [hlimbs, hbalance, hslot, ← hlast, List.take_append_drop]

theorem records_toWords (members : List CommitteeMember) :
    records memberWords (members.map CommitteeMember.toWords).flatten =
      .ok (members.map CommitteeMember.toWords) := by
  refine (records_eq_ok (by decide)).mpr ⟨rfl, fun r hr => ?_⟩
  obtain ⟨m, -, rfl⟩ := List.mem_map.mp hr
  exact length_toWords m

theorem records_digests (digests : List (WordArray 4)) :
    records digestWords (digests.map fun digest => List.ofFn digest).flatten =
      .ok (digests.map fun digest => List.ofFn digest) := by
  refine (records_eq_ok (by decide)).mpr ⟨rfl, fun r hr => ?_⟩
  obtain ⟨digest, -, rfl⟩ := List.mem_map.mp hr
  exact List.length_ofFn

/-! ## What is read back -/

/-- The twelve words of the header. -/
def CommitteeWitness.header (w : CommitteeWitness) : List UInt64 :=
  List.ofFn w.accumulatorCommitment ++ List.ofFn w.accRoot ++
    [w.targetEpoch, w.totalActiveBalance, UInt64.ofNat w.members.length,
      UInt64.ofNat w.auxiliaries.length]

/-- The words of the members. -/
def CommitteeWitness.memberWords (w : CommitteeWitness) : List UInt64 :=
  (w.members.map CommitteeMember.toWords).flatten

/-- The words of the auxiliaries. -/
def CommitteeWitness.auxiliaryWords (w : CommitteeWitness) : List UInt64 :=
  (w.auxiliaries.map fun auxiliary => List.ofFn auxiliary).flatten

theorem encode_eq (w : CommitteeWitness) :
    encode w = w.header ++ w.memberWords ++ w.auxiliaryWords := rfl

theorem length_header (w : CommitteeWitness) : w.header.length = 12 := by
  simp [CommitteeWitness.header]

theorem length_memberWords (w : CommitteeWitness) :
    w.memberWords.length = w.members.length * 15 := by
  rw [CommitteeWitness.memberWords, length_flatten (n := 15), List.length_map]
  intro r hr
  obtain ⟨m, -, rfl⟩ := List.mem_map.mp hr
  exact length_toWords m

theorem length_auxiliaryWords (w : CommitteeWitness) :
    w.auxiliaryWords.length = w.auxiliaries.length * 4 := by
  rw [CommitteeWitness.auxiliaryWords, length_flatten (n := 4), List.length_map]
  intro r hr
  obtain ⟨digest, -, rfl⟩ := List.mem_map.mp hr
  exact List.length_ofFn

theorem length_encode (w : CommitteeWitness) :
    (encode w).length = 12 + w.members.length * 15 + w.auxiliaries.length * 4 := by
  rw [encode_eq, List.length_append, List.length_append, length_header, length_memberWords,
    length_auxiliaryWords]

/-- Where the members end, in the arithmetic of the guest. -/
theorem toNat_auxiliaries {count : UInt64} (h : count.toNat * 32 < 2 ^ 63) :
    (12 + count * 15).toNat = 12 + count.toNat * 15 := by
  rw [UInt64.toNat_add, UInt64.toNat_mul]
  simp only [UInt64.reduceToNat]
  omega

/-- **What was written is what is read.** -/
theorem read_encode {w : CommitteeWitness} (hfits : w.Fits) : read (encode w) = .ok w := by
  obtain ⟨hmembers, hauxiliaries⟩ := hfits
  simp only [Committee.memberWords, digestWords] at hmembers hauxiliaries
  have hcount : (UInt64.ofNat w.members.length).toNat = w.members.length :=
    UInt64.toNat_ofNat_of_lt' (by norm_num [UInt64.size]; omega)
  have hcount' : (UInt64.ofNat w.auxiliaries.length).toNat = w.auxiliaries.length :=
    UInt64.toNat_ofNat_of_lt' (by norm_num [UInt64.size]; omega)
  -- the counts fit, so the offset of the second section does not wrap
  have hend : (12 + UInt64.ofNat w.members.length * 15).toNat = 12 + w.members.length * 15 := by
    rw [toNat_auxiliaries (by rw [hcount]; omega), hcount]
  have hten : (encode w).getD 10 0 = UInt64.ofNat w.members.length := rfl
  have heleven : (encode w).getD 11 0 = UInt64.ofNat w.auxiliaries.length := rfl
  have htotal : UInt64.ofNat (encode w).length =
      12 + UInt64.ofNat w.members.length * 15 + UInt64.ofNat w.auxiliaries.length * 4 := by
    rw [← UInt64.toNat_inj, UInt64.toNat_add, hend, UInt64.toNat_mul, hcount', length_encode,
      UInt64.toNat_ofNat']
    simp only [UInt64.reduceToNat]
    omega
  have hfront : (encode w).take (12 + w.members.length * 15) = w.header ++ w.memberWords := by
    rw [encode_eq]
    exact List.take_left' (by rw [List.length_append, length_header, length_memberWords])
  have hback : (encode w).drop (12 + w.members.length * 15) = w.auxiliaryWords := by
    rw [encode_eq]
    exact List.drop_left' (by rw [List.length_append, length_header, length_memberWords])
  have hmiddle : (w.header ++ w.memberWords).drop headerWords = w.memberWords :=
    List.drop_left' (length_header w)
  simp only [read, Guest.bind_eq_ok, Guest.assert_eq_ok, Guest.pure_eq_ok, exists_const, hten,
    heleven, hend, hfront, hback, hmiddle]
  refine ⟨?_, htotal, by rw [hcount]; omega, ?_, _, records_toWords w.members, _,
    records_digests w.auxiliaries, ?_⟩
  · rw [length_encode, headerWords]
    omega
  · rw [length_encode]
    omega
  · have hmap : (w.members.map CommitteeMember.toWords).map CommitteeMember.ofWords =
        w.members := by
      rw [List.map_map]
      exact (List.map_congr_left fun m _ => ofWords_toWords m).trans (List.map_id _)
    have hmap' : (w.auxiliaries.map fun digest => List.ofFn digest).map (WordArray.ofList 4) =
        w.auxiliaries := by
      rw [List.map_map]
      exact (List.map_congr_left fun digest _ => WordArray.ofList_ofFn digest).trans
        (List.map_id _)
    have hcommitment : (encode w).take 4 = List.ofFn w.accumulatorCommitment := by
      simp only [encode, List.append_assoc]
      exact List.take_left' List.length_ofFn
    have hroot : ((encode w).drop 4).take 4 = List.ofFn w.accRoot := by
      have hdrop : (encode w).drop 4 = List.ofFn w.accRoot ++
          ([w.targetEpoch, w.totalActiveBalance, UInt64.ofNat w.members.length,
            UInt64.ofNat w.auxiliaries.length] ++ (w.memberWords ++ w.auxiliaryWords)) := by
        simp only [encode, List.append_assoc]
        exact List.drop_left' List.length_ofFn
      rw [hdrop]
      exact List.take_left' List.length_ofFn
    rw [hmap, hmap', hcommitment, hroot, WordArray.ofList_ofFn, WordArray.ofList_ofFn]
    rfl

/-- The words from `k` on, one of them taken out. -/
theorem drop_eq_getD_cons {words : List UInt64} {k : ℕ} (h : k < words.length) :
    words.drop k = words.getD k 0 :: words.drop (k + 1) := by
  rw [List.drop_eq_getElem_cons h, List.getElem_eq_getD 0]

/-- A header, taken apart. -/
theorem take_header {words : List UInt64} (h : 12 ≤ words.length) :
    words.take 4 ++ (words.drop 4).take 4 ++
      [words.getD 8 0, words.getD 9 0, words.getD 10 0] = words.take 11 := by
  have hthree : (words.drop 8).take 3 = [words.getD 8 0, words.getD 9 0, words.getD 10 0] := by
    rw [drop_eq_getD_cons (by omega), drop_eq_getD_cons (by omega), drop_eq_getD_cons (by omega)]
    rfl
  rw [← hthree, ← List.take_add, ← List.take_add]

/-- What a reading is of: the counts of the members, the words themselves, and an
auxiliary count that agrees with them in wrapping arithmetic. -/
theorem read_eq_ok {words : List UInt64} (hsize : words.length * 8 < 2 ^ 63)
    {w : CommitteeWitness} (h : read words = .ok w) :
    w.members.length = (words.getD 10 0).toNat ∧
      12 + w.members.length * 15 + w.auxiliaries.length * 4 = words.length ∧
      w.header = words.take 11 ++ [UInt64.ofNat w.auxiliaries.length] ∧
      w.memberWords ++ w.auxiliaryWords = words.drop 12 ∧
      (words.getD 11 0).toNat * 4 % 2 ^ 64 = w.auxiliaries.length * 4 := by
  simp only [read, Guest.bind_eq_ok, Guest.assert_eq_ok, Guest.pure_eq_ok, exists_const] at h
  obtain ⟨hheader, htotal, hcapacity, hfits, members, hmembers, digests, hdigests, rfl⟩ := h
  rw [toNat_auxiliaries hcapacity] at hfits hmembers hdigests
  have htotal' := congrArg UInt64.toNat htotal
  rw [UInt64.toNat_add, toNat_auxiliaries hcapacity, UInt64.toNat_mul, UInt64.toNat_ofNat'] at htotal'
  simp only [UInt64.reduceToNat] at htotal'
  set count := (words.getD 10 0).toNat
  obtain ⟨hflat, hlength⟩ := (records_eq_ok (by decide)).mp hmembers
  obtain ⟨hflat', hlength'⟩ := (records_eq_ok (by decide)).mp hdigests
  have hcount : members.length = count := by
    have hwords := congrArg List.length hflat
    rw [length_flatten hlength, List.length_drop, List.length_take, min_eq_left hfits,
      headerWords, Committee.memberWords] at hwords
    omega
  have hcount' : digests.length * 4 = words.length - (12 + count * 15) := by
    have hwords := congrArg List.length hflat'
    rwa [length_flatten hlength', List.length_drop] at hwords
  have hmap : (members.map CommitteeMember.ofWords).map CommitteeMember.toWords = members := by
    rw [List.map_map]
    exact (List.map_congr_left fun r hr => toWords_ofWords (hlength r hr)).trans (List.map_id _)
  have hmap' : (digests.map (WordArray.ofList 4)).map (fun digest => List.ofFn digest) =
      digests := by
    rw [List.map_map]
    exact (List.map_congr_left fun r hr => WordArray.ofFn_ofList (hlength' r hr)).trans
      (List.map_id _)
  simp only [CommitteeWitness.header, CommitteeWitness.memberWords,
    CommitteeWitness.auxiliaryWords, hmap, hmap', hflat, hflat', List.length_map]
  rw [headerWords] at hheader ⊢
  refine ⟨hcount, by omega, ?_, ?_, by omega⟩
  · rw [WordArray.ofFn_ofList (by rw [List.length_take]; omega),
      WordArray.ofFn_ofList (by rw [List.length_take, List.length_drop]; omega), hcount,
      UInt64.ofNat_toNat, ← take_header hheader]
    simp
  · rw [← List.drop_append_of_le_length (by rw [List.length_take]; omega), List.take_append_drop]

/-- **What `encode` gives back of a reading** is the words, but for their auxiliary
count. -/
theorem encode_read {words : List UInt64} (hsize : words.length * 8 < 2 ^ 63)
    {w : CommitteeWitness} (h : read words = .ok w) :
    w.Fits ∧ (encode w = words ↔ (words.getD 11 0).toNat < 2 ^ 62) := by
  obtain ⟨-, hlength, hheader, hrest, hcount⟩ := read_eq_ok hsize h
  have hfits : w.Fits := by
    rw [CommitteeWitness.Fits, Committee.memberWords, digestWords]
    omega
  have hlong : 11 < words.length := by omega
  have hsplit : words = words.take 11 ++ words.getD 11 0 :: words.drop 12 := by
    rw [← drop_eq_getD_cons hlong, List.take_append_drop]
  have hencode : encode w =
      words.take 11 ++ UInt64.ofNat w.auxiliaries.length :: words.drop 12 := by
    rw [encode_eq, List.append_assoc, hrest, hheader, List.append_assoc]
    rfl
  refine ⟨hfits, ?_⟩
  have heleven : encode w = words ↔ UInt64.ofNat w.auxiliaries.length = words.getD 11 0 := by
    constructor
    · intro heq
      rw [hencode] at heq
      have hcons := List.append_cancel_left (heq.trans hsplit)
      exact (List.cons.inj hcons).1
    · intro heq
      rw [hencode, heq]
      exact hsplit.symm
  rw [heleven, ← UInt64.toNat_inj, UInt64.toNat_ofNat']
  have hlt := (words.getD 11 0).toNat_lt
  omega

/-! ## The circuit over what was read -/

theorem value_ofWords {words : List UInt64} (h : words.length = memberWords) :
    (CommitteeMember.ofWords words).value P = Committee.CommitteeMember.ofWords words := by
  have hlimbs : List.ofFn (WordArray.ofList 12 ((words.drop 1).take 12)) =
      (words.drop 1).take 12 :=
    WordArray.ofFn_ofList (by rw [List.length_take, List.length_drop, h]; rfl)
  simp only [CommitteeMember.value, CommitteeMember.ofWords, hlimbs]
  rfl

/-- **`verify` is a reading and a check of what was read.** -/
theorem verify_eq_ok_iff {words : List UInt64} {accDepth : ℕ} {out : CommitteeOutput P} :
    verify words accDepth = .ok out ↔
      ∃ w, read words = .ok w ∧ w.check P accDepth = .ok out := by
  have hfour : ∀ k, headerWords ≤ words.length → k ≤ 8 → List.ofFn (WordArray.ofList 4
      ((words.drop k).take 4)) = (words.drop k).take 4 := by
    intro k hheader hk
    rw [headerWords] at hheader
    exact WordArray.ofFn_ofList (by rw [List.length_take, List.length_drop]; omega)
  have hmembers : ∀ {rs : List (List UInt64)}, (∀ r ∈ rs, r.length = memberWords) →
      (rs.map CommitteeMember.ofWords).map (CommitteeMember.value P) =
        rs.map Committee.CommitteeMember.ofWords := by
    intro rs hrs
    rw [List.map_map]
    exact List.map_congr_left fun r hr => value_ofWords (hrs r hr)
  have hdigests : ∀ {rs : List (List UInt64)}, (∀ r ∈ rs, r.length = digestWords) →
      ((rs.map (WordArray.ofList 4)).map fun digest => P.digestOfWords (List.ofFn digest)) =
        rs.map P.digestOfWords := by
    intro rs hrs
    rw [List.map_map]
    exact List.map_congr_left fun r hr => congrArg P.digestOfWords (WordArray.ofFn_ofList (hrs r hr))
  simp only [verify, read, CommitteeWitness.check, Guest.bind_eq_ok, Guest.assert_eq_ok,
    Guest.pure_eq_ok, exists_const]
  constructor
  · rintro ⟨hheader, hcommitment, htotal, hcapacity, hfits, members, hm, s, hloop, digests, hd,
      r, hrun, hr, committeeRoot, hroot, hout⟩
    refine ⟨_, ⟨hheader, htotal, hcapacity, hfits, members, hm, digests, hd, rfl⟩, ?_⟩
    have hzero := hfour 0 hheader (by omega)
    rw [List.drop_zero] at hzero
    rw [hfour 4 hheader (by omega), hzero, hmembers ((records_eq_ok (by decide)).mp hm).2,
      hdigests ((records_eq_ok (by decide)).mp hd).2]
    exact ⟨hcommitment, s, hloop, r, hrun, hr, committeeRoot, hroot, hout⟩
  · rintro ⟨w, ⟨hheader, htotal, hcapacity, hfits, members, hm, digests, hd, rfl⟩, hcheck⟩
    have hzero := hfour 0 hheader (by omega)
    rw [List.drop_zero] at hzero
    rw [hfour 4 hheader (by omega), hzero, hmembers ((records_eq_ok (by decide)).mp hm).2,
      hdigests ((records_eq_ok (by decide)).mp hd).2] at hcheck
    obtain ⟨hcommitment, s, hloop, r, hrun, hr, committeeRoot, hroot, hout⟩ := hcheck
    exact ⟨hheader, hcommitment, htotal, hcapacity, hfits, members, hm, s, hloop, digests, hd,
      r, hrun, hr, committeeRoot, hroot, hout⟩

/-! ## Exactness -/

/-- The words are those of exactly one witness, and their header counts its records. -/
def Exact (words : List UInt64) : Prop :=
  (∃! w : CommitteeWitness, w.Fits ∧ encode w = words) ∧
    ∀ w, read words = .ok w → (words.getD 10 0).toNat = w.members.length ∧
      (words.getD 11 0).toNat = w.auxiliaries.length

/-- **The word format is exact** one way for every witness, and the other way for the
accepted words whose auxiliary count, times its stride, does not wrap. -/
theorem verify_exact_iff (P : Primitives) :
    (∀ w : CommitteeWitness, w.Fits → read (encode w) = .ok w) ∧
    ∀ (words : List UInt64) (accDepth : ℕ) (out : CommitteeOutput P),
      words.length * 8 < 2 ^ 63 → verify words accDepth = .ok out →
        (Exact words ↔ (words.getD 11 0).toNat < 2 ^ 62) := by
  refine ⟨fun w hfits => read_encode hfits, fun words accDepth out hsize h => ?_⟩
  obtain ⟨w, hread, -⟩ := verify_eq_ok_iff.mp h
  obtain ⟨hfits, hiff⟩ := encode_read hsize hread
  obtain ⟨hmembers, -, -, -, hcount⟩ := read_eq_ok hsize hread
  constructor
  · rintro ⟨⟨w', ⟨hfits', hencode⟩, -⟩, -⟩
    have hread' := read_encode hfits'
    rw [hencode, hread] at hread'
    obtain rfl := Except.ok.inj hread'
    exact hiff.mp hencode
  · intro hlt
    refine ⟨⟨w, ⟨hfits, hiff.mpr hlt⟩, ?_⟩, fun w' hread' => ?_⟩
    · rintro w' ⟨hfits', hencode⟩
      have hread' := read_encode hfits'
      rw [hencode, hread] at hread'
      exact (Except.ok.inj hread').symm
    · obtain rfl := Except.ok.inj (hread.symm.trans hread')
      exact ⟨hmembers.symm, by omega⟩

/-- The words of three members in two slots are those of one witness, as accepted words are. -/
theorem verify_exact_iff_two_slots : Exact twoSlots := by
  obtain ⟨out, h, -⟩ :
      ∃ out, verify (P := twoSlotsModel) twoSlots 2 = .ok out ∧ True := by decide +kernel
  exact ((verify_exact_iff twoSlotsModel).2 twoSlots 2 out (by decide) h).mpr (by decide)

/-- One member, its key the third generator, in slot 3. -/
def oneMember (count : UInt64) : List UInt64 :=
  [0, 0, 0, 0, 1, 0, 0, 0, 7, 32, 1, count] ++ ([0, 2] ++ List.replicate 11 0 ++ [32, 3])

/-- An accumulator of that member's leaf. -/
def oneMemberModel : Primitives :=
  Formal.formal {digests := [.commitment (.leaf (Formal.key 2) 32) 32, .leaf (Formal.key 2) 32]}

/-- **The count that wraps**: a header that names `2 ^ 62` auxiliaries over none is
accepted, and no witness is written with it. -/
theorem verify_not_exact :
    ∃ out, verify (P := oneMemberModel) (oneMember 4611686018427387904) 0 = .ok out ∧
      ∀ w : CommitteeWitness, w.Fits → encode w ≠ oneMember 4611686018427387904 := by
  obtain ⟨out, h, -⟩ : ∃ out,
      verify (P := oneMemberModel) (oneMember 4611686018427387904) 0 = .ok out ∧ True := by
    decide +kernel
  refine ⟨out, h, fun w hfits hencode => ?_⟩
  have hread := read_encode hfits
  rw [hencode] at hread
  have hlt := (encode_read (by decide) hread).2.mp hencode
  exact absurd hlt (by decide)

end Wire

end Zkasper.Committee
