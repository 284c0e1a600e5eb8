import Zkasper.Onchain.Verifier
import Zkasper.Recursion
import Zkasper.Formal

/-! # What the contract reads of a proof

The two ends of one wire. A guest writes its outputs with `PublicWriter`, every
byte string as it stands; the proof carries them four bytes to a word, the first
byte lowest; and the contract puts eight words together, the first word lowest.

So the layouts agree, every field is found where it was written, and the word the
contract makes of a field is the number its bytes spell from the least significant
up (`extract_field`). A `bytes32` is read the other way, its first byte the most
significant, and what is stored is the field backwards: it is the field exactly
when the field reads the same from both ends (`contract_reads_iff`). -/

namespace Zkasper.Onchain

/-! ## The guest's end -/

/-- The bytes behind the abstract values: a digest is four `u64`, and a 32-byte
value is its bytes. -/
structure Encoding (P : Primitives) where
  digest : P.Digest → Fin 4 → UInt64
  bytes32 : P.Bytes32 → Bytes 32

variable {P : Primitives} (e : Encoding P)

/-- The bytes of some `u64`s, each little-endian. -/
def u64Bytes (ws : List UInt64) : List UInt8 := ws.flatMap fun w => leBytes 8 w.toNat

@[simp] theorem u64Bytes_length (ws : List UInt64) : (u64Bytes ws).length = 8 * ws.length := by
  simp [u64Bytes, List.length_flatMap, Nat.mul_comm]

/-- The bytes a `PublicWriter` writes for a field. -/
def fieldBytes : PublicField P → List UInt8
  | .u64 v => u64Bytes [v]
  | .bytes32 v => (e.bytes32 v).1
  | .digest v => u64Bytes (List.ofFn (e.digest v))
  | .programVk vk => u64Bytes [vk.w0, vk.w1, vk.w2, vk.w3]

/-- `MAX_PUBLIC_BYTES` -/
def maxPublicBytes : ℕ := 256

/-- `PublicWriter::finish`, over the fields it was given. -/
def finish (fields : PublicBytes P) : Guest (List UInt8) := do
  Guest.assert ((fields.flatMap (fieldBytes e)).length ≤ maxPublicBytes)
    s!"public outputs exceed the {maxPublicBytes}-byte proof capacity"
  return fields.flatMap (fieldBytes e)

/-- The 32-bit words a proof carries its public bytes in, four bytes to a word,
the first of them lowest. -/
def publicWords : List UInt8 → List UInt32
  | b0 :: b1 :: b2 :: b3 :: bytes =>
      UInt32.ofNat (b0.toNat + 256 * (b1.toNat + 256 * (b2.toNat + 256 * b3.toNat))) ::
        publicWords bytes
  | _ => []

/-! ## The contract's end -/

/-- The 32 bytes of a `bytes32`, the first the most significant. -/
def Word256.bytes (v : Word256) : List UInt8 := (leBytes 32 v.toNat).reverse

/-- The bytes of some 32-bit words. -/
def wordBytes (ws : List UInt32) : List UInt8 := ws.flatMap fun w => leBytes 4 w.toNat

@[simp] theorem wordBytes_length (ws : List UInt32) : (wordBytes ws).length = 4 * ws.length := by
  simp [wordBytes, List.length_flatMap, Nat.mul_comm]

theorem leBytes_word (b0 b1 b2 b3 : UInt8) :
    leBytes 4 (UInt32.ofNat (b0.toNat + 256 * (b1.toNat + 256 * (b2.toNat + 256 * b3.toNat)))).toNat =
      [b0, b1, b2, b3] := by
  have h0 := b0.toNat_lt
  have h1 := b1.toNat_lt
  have h2 := b2.toNat_lt
  have h3 := b3.toNat_lt
  simp only [leBytes, UInt32.toNat_ofNat', List.cons.injEq, and_true, ← UInt8.toNat_inj,
    UInt8.toNat_ofNat']
  omega

/-- Fewer than four bytes, and a multiple of four of them, are none. -/
theorem eq_nil_of_short {bytes : List UInt8} (h : 4 ∣ bytes.length)
    (hshort : ∀ b0 b1 b2 b3 rest, bytes = b0 :: b1 :: b2 :: b3 :: rest → False) : bytes = [] := by
  rcases bytes with _ | ⟨b0, _ | ⟨b1, _ | ⟨b2, _ | ⟨b3, rest⟩⟩⟩⟩
  · rfl
  · exact absurd h (by simp)
  · exact absurd h (by simp)
  · exact absurd h (by simp)
  · exact absurd rfl (hshort b0 b1 b2 b3 rest)

/-- Words carry the bytes they were made of. -/
theorem wordBytes_publicWords (bytes : List UInt8) (h : 4 ∣ bytes.length) :
    wordBytes (publicWords bytes) = bytes := by
  induction bytes using publicWords.induct with
  | case1 b0 b1 b2 b3 bytes ih =>
      rw [publicWords, wordBytes, List.flatMap_cons, leBytes_word]
      rw [List.length_cons, List.length_cons, List.length_cons, List.length_cons] at h
      exact congrArg ([b0, b1, b2, b3] ++ ·) (ih (by omega))
  | case2 bytes hshort =>
      rw [eq_nil_of_short h hshort]
      rfl

/-- A value below the shift is a sum with whatever is put above it. -/
theorem or_shiftLeft_toNat {v : Word256} {w : UInt32} {i : ℕ} (hi : i < 8)
    (hv : v.toNat < 256 ^ (4 * i)) :
    (v ||| (BitVec.ofNat 256 w.toNat <<< (i * 32))).toNat = v.toNat + w.toNat * 256 ^ (4 * i) := by
  have hpow : (256 : ℕ) ^ (4 * i) = 2 ^ (i * 32) := by
    rw [show (256 : ℕ) = 2 ^ 8 from rfl, ← pow_mul]
    congr 1
    omega
  rw [hpow] at hv ⊢
  have hw := w.toNat_lt
  have hfit : w.toNat * 2 ^ (i * 32) < 2 ^ 256 := by
    calc w.toNat * 2 ^ (i * 32) < 2 ^ 32 * 2 ^ (i * 32) :=
          Nat.mul_lt_mul_of_pos_right hw (Nat.two_pow_pos _)
      _ = 2 ^ (32 + i * 32) := (pow_add 2 32 (i * 32)).symm
      _ ≤ 2 ^ 256 := Nat.pow_le_pow_right (by decide) (by omega)
  have hsmall : w.toNat < 2 ^ 256 := lt_of_lt_of_le hw (Nat.pow_le_pow_right (by decide) (by decide))
  rw [BitVec.toNat_or, BitVec.toNat_shiftLeft, BitVec.toNat_ofNat, Nat.mod_eq_of_lt hsmall,
    Nat.shiftLeft_eq, Nat.mod_eq_of_lt hfit, ← Nat.shiftLeft_eq, Nat.or_comm,
    ← Nat.shiftLeft_add_eq_or_of_lt hv, Nat.shiftLeft_eq, Nat.add_comm]

/-- **The loop**: after `n` words the result holds their bytes, lowest first. -/
theorem extract_loop {data : List UInt32} {offset : ℕ} : ∀ {n : ℕ}, n ≤ 8 →
    offset + n ≤ data.length → ∃ v : Word256,
      (List.range n).foldlM (extractWord data offset) 0 = .ok v ∧
      v.toNat < 256 ^ (4 * n) ∧
      leBytes (4 * n) v.toNat = wordBytes ((data.drop offset).take n) := by
  intro n
  induction n with
  | zero => intro _ _; exact ⟨0, rfl, by decide, rfl⟩
  | succ n ih =>
      intro hn hlen
      obtain ⟨v, hrun, hlt, hbytes⟩ := ih (by omega) (by omega)
      have hget : data[offset + n]? = some data[offset + n] := List.getElem?_eq_getElem (by omega)
      have hsum := or_shiftLeft_toNat (w := data[offset + n]) (show n < 8 by omega) hlt
      refine ⟨v ||| (BitVec.ofNat 256 data[offset + n].toNat <<< (n * 32)), ?_, ?_, ?_⟩
      · have hstep : extractWord data offset v n =
            .ok (v ||| (BitVec.ofNat 256 data[offset + n].toNat <<< (n * 32))) := by
          rw [extractWord, hget]
          rfl
        rw [List.range_succ, List.foldlM_append, Guest.bind_eq_ok]
        exact ⟨v, hrun, Guest.foldlM_cons.mpr ⟨_, hstep, Guest.foldlM_nil.mpr rfl⟩⟩
      · have hw := data[offset + n].toNat_lt
        have hpow : (256 : ℕ) ^ (4 * (n + 1)) = 2 ^ 32 * 256 ^ (4 * n) := by
          rw [Nat.mul_succ, pow_add, Nat.mul_comm]
          rfl
        rw [hsum, hpow]
        calc v.toNat + data[offset + n].toNat * 256 ^ (4 * n)
            < 1 * 256 ^ (4 * n) + data[offset + n].toNat * 256 ^ (4 * n) := by omega
          _ = (1 + data[offset + n].toNat) * 256 ^ (4 * n) := (Nat.add_mul ..).symm
          _ ≤ 2 ^ 32 * 256 ^ (4 * n) := Nat.mul_le_mul_right _ (by omega)
      · have htake : (data.drop offset).take (n + 1) =
            (data.drop offset).take n ++ [data[offset + n]] := by
          rw [List.take_add_one, List.getElem?_drop, hget]
          rfl
        rw [hsum, Nat.mul_succ, leBytes_append 4 (4 * n) _ hlt, hbytes, htake, wordBytes,
          wordBytes, List.flatMap_append]
        simp

/-- **What `_extractBytes32` reads** are the bytes of eight words, backwards. -/
theorem extractBytes32_bytes {data : List UInt32} {offset : ℕ} (h : offset + 8 ≤ data.length) :
    ∃ v : Word256, extractBytes32 data offset = .ok v ∧
      v.bytes = (wordBytes ((data.drop offset).take 8)).reverse := by
  obtain ⟨v, hrun, -, hbytes⟩ := extract_loop (n := 8) (by decide) h
  exact ⟨v, hrun, congrArg List.reverse hbytes⟩

theorem publicWords_append (xs ys : List UInt8) (h : 4 ∣ xs.length) :
    publicWords (xs ++ ys) = publicWords xs ++ publicWords ys := by
  induction xs using publicWords.induct with
  | case1 b0 b1 b2 b3 xs ih =>
      rw [List.length_cons, List.length_cons, List.length_cons, List.length_cons] at h
      simp only [List.cons_append, publicWords]
      rw [ih (by omega)]
  | case2 xs hshort =>
      rw [eq_nil_of_short h hshort]
      rfl

theorem publicWords_length {bytes : List UInt8} {n : ℕ} (h : bytes.length = 4 * n) :
    (publicWords bytes).length = n := by
  have hbytes := congrArg List.length (wordBytes_publicWords bytes ⟨n, h⟩)
  rw [wordBytes_length] at hbytes
  omega

/-! ## The two ends together -/

/-- The words of a proof that publishes some fields. -/
def submitted (fields : PublicBytes P) : List UInt32 :=
  publicWords (fields.flatMap (fieldBytes e))

/-- Words a field takes. -/
def fieldWords : PublicField P → ℕ
  | .u64 _ => 2
  | .bytes32 _ => 8
  | .digest _ => 8
  | .programVk _ => 8

@[simp] theorem fieldBytes_length (field : PublicField P) :
    (fieldBytes e field).length = 4 * fieldWords field := by
  cases field with
  | bytes32 v => exact (e.bytes32 v).2
  | u64 v => rfl
  | digest v => simp [fieldBytes, fieldWords]
  | programVk vk => rfl

theorem fields_length (fields : PublicBytes P) :
    (fields.flatMap (fieldBytes e)).length = 4 * (fields.map fieldWords).sum := by
  induction fields with
  | nil => rfl
  | cons field fields ih =>
      rw [List.flatMap_cons, List.length_append, ih, fieldBytes_length, List.map_cons,
        List.sum_cons, Nat.mul_add]

theorem submitted_length (fields : PublicBytes P) :
    (submitted e fields).length = (fields.map fieldWords).sum :=
  publicWords_length (fields_length e fields)

theorem submitted_split (before after : PublicBytes P) (field : PublicField P) :
    submitted e (before ++ field :: after) =
      submitted e before ++ (publicWords (fieldBytes e field) ++ submitted e after) := by
  unfold submitted
  rw [List.flatMap_append, List.flatMap_cons, publicWords_append _ _ ⟨_, fields_length e before⟩,
    publicWords_append _ _ ⟨_, fieldBytes_length e field⟩]

/-- **A field is read where it was written**, and comes out backwards. -/
theorem extract_field (before after : PublicBytes P) (field : PublicField P)
    (h : fieldWords field = 8) :
    ∃ v : Word256, extractBytes32 (submitted e (before ++ field :: after))
        (before.map fieldWords).sum = .ok v ∧ v.bytes = (fieldBytes e field).reverse := by
  have hfield : (fieldBytes e field).length = 4 * 8 := by rw [fieldBytes_length, h]
  have hsplit := submitted_split e before after field
  have hwords := publicWords_length hfield
  have hlength : (before.map fieldWords).sum + 8 ≤
      (submitted e (before ++ field :: after)).length := by
    rw [hsplit, List.length_append, List.length_append, submitted_length, hwords]
    omega
  obtain ⟨v, hread, hbytes⟩ := extractBytes32_bytes hlength
  refine ⟨v, hread, ?_⟩
  rw [hbytes, hsplit, List.drop_left' (submitted_length e before), List.take_left' hwords,
    wordBytes_publicWords _ ⟨8, hfield⟩]

/-- A `u64` out of two words, the first of them lowest. -/
def readU64 (words : List UInt32) (offset : ℕ) : ℕ :=
  (words.getD offset 0).toNat + (words.getD (offset + 1) 0).toNat * 256 ^ 4

/-- An integer field is read where it was written. -/
theorem readU64_field (before after : PublicBytes P) (v : UInt64) :
    readU64 (submitted e (before ++ .u64 v :: after)) (before.map fieldWords).sum = v.toNat := by
  have hwords : wordBytes (publicWords (leBytes 8 v.toNat)) = leBytes 8 v.toNat :=
    wordBytes_publicWords _ (by simp)
  have hfield : fieldBytes e (.u64 v) = leBytes 8 v.toNat := List.append_nil _
  obtain ⟨x, y, hxy⟩ : ∃ x y, publicWords (leBytes 8 v.toNat) = [x, y] :=
    List.length_eq_two.mp (publicWords_length (by simp))
  have hx : x.toNat < 256 ^ 4 := x.toNat_lt
  have hy : y.toNat < 256 ^ 4 := y.toNat_lt
  have hlow : (submitted e before ++ ([x, y] ++ submitted e after))[(submitted e before).length]? =
      some x := by
    rw [List.getElem?_append_right le_rfl, Nat.sub_self]
    rfl
  have hhigh : (submitted e before ++
      ([x, y] ++ submitted e after))[(submitted e before).length + 1]? = some y := by
    rw [List.getElem?_append_right (Nat.le_add_right _ _), Nat.add_sub_cancel_left]
    rfl
  have hread : readU64 (submitted e (before ++ .u64 v :: after)) (before.map fieldWords).sum =
      x.toNat + y.toNat * 256 ^ 4 := by
    rw [submitted_split, hfield, hxy, readU64, ← submitted_length e before, List.getD, List.getD,
      hlow, hhigh]
    rfl
  rw [hread]
  apply leBytes_injective (n := 8) _ v.toNat_lt
  · rw [show 8 = 4 + 4 from rfl, leBytes_append 4 4 _ hx, ← hwords, hxy]
    simp [wordBytes]
  · calc x.toNat + y.toNat * 256 ^ 4 < 1 * 256 ^ 4 + y.toNat * 256 ^ 4 := by omega
      _ = (1 + y.toNat) * 256 ^ 4 := (Nat.add_mul ..).symm
      _ ≤ 256 ^ 4 * 256 ^ 4 := Nat.mul_le_mul_right _ (by omega)
      _ = 256 ^ 8 := by decide

/-! ## The two transactions -/

/-- The fields `submitEpochDiff` reads, each with the word it starts at. -/
def diffFields (o : EpochDiffOutput P) : List (ℕ × PublicField P) :=
  [(diffCommitment1, .digest o.prevAccumulatorCommitment),
    (diffStateRoot1, .bytes32 o.stateRoot1),
    (diffCommitment2, .digest o.accumulatorCommitment),
    (diffStateRoot2, .bytes32 o.stateRoot2)]

/-- The fields `submitFinality` reads, each with the word it starts at. -/
def finalityFields (o : FinalizationOutput P) : List (ℕ × PublicField P) :=
  [(finCommitment, .digest o.accumulatorCommitment),
    (finNextCommitment, .digest o.nextAccumulatorCommitment),
    (finRoot, .bytes32 o.finalizedRoot),
    (finStateRoot, .bytes32 o.finalizedStateRoot)]

/-- The contract reads a field as some bytes. -/
def ReadsAs (data : List UInt32) (offset : ℕ) (bytes : List UInt8) : Prop :=
  ∃ v : Word256, extractBytes32 data offset = .ok v ∧ v.bytes = bytes

theorem ReadsAs.eq {data : List UInt32} {offset : ℕ} {bytes : List UInt8} {v : Word256}
    (h : ReadsAs data offset bytes) (hv : extractBytes32 data offset = .ok v) : v.bytes = bytes := by
  obtain ⟨w, hw, rfl⟩ := h
  rw [hv] at hw
  exact congrArg Word256.bytes (Except.ok.inj hw)

/-- An epoch diff reaches the contract as the guest wrote it: every field the
contract reads, and the two it stores. -/
structure DiffAgrees (o : EpochDiffOutput P) : Prop where
  reads : ∀ field ∈ diffFields o,
    ReadsAs (submitted e o.publicBytes) field.1 (fieldBytes e field.2)
  stores : ∀ V proof s s', submitEpochDiff V proof (submitted e o.publicBytes) s = .ok s' →
    s'.accumulatorCommitment.bytes = fieldBytes e (.digest o.accumulatorCommitment) ∧
      s'.latestStateRoot.bytes = (e.bytes32 o.stateRoot2).1

/-- A finality proof reaches the contract as the guest wrote it: every field the
contract reads, and the two it stores. -/
structure FinalityAgrees (o : FinalizationOutput P) : Prop where
  reads : ∀ field ∈ finalityFields o,
    ReadsAs (submitted e o.publicBytes) field.1 (fieldBytes e field.2)
  stores : ∀ V proof s s', submitFinality V proof (submitted e o.publicBytes) s = .ok s' →
    s'.latestFinalizedBlockRoot.bytes = (e.bytes32 o.finalizedRoot).1 ∧
      s'.latestFinalizedStateRoot.bytes = (e.bytes32 o.finalizedStateRoot).1

/-- **Every field of an epoch diff is read backwards.** -/
theorem diffFields_read (o : EpochDiffOutput P) : ∀ field ∈ diffFields o,
    ReadsAs (submitted e o.publicBytes) field.1 (fieldBytes e field.2).reverse := by
  obtain ⟨c1, r1, e1, c2, acc, total, r2, e2⟩ := o
  simp only [diffFields, List.forall_mem_cons, List.not_mem_nil, false_imp_iff, implies_true,
    and_true]
  exact ⟨extract_field e [] _ _ rfl, extract_field e [.digest c1] _ _ rfl,
    extract_field e [.digest c1, .bytes32 r1, .u64 e1] _ _ rfl,
    extract_field e [.digest c1, .bytes32 r1, .u64 e1, .digest c2, .digest acc, .u64 total]
      _ _ rfl⟩

/-- **Every field of a finality proof is read backwards.** -/
theorem finalityFields_read (o : FinalizationOutput P) : ∀ field ∈ finalityFields o,
    ReadsAs (submitted e o.publicBytes) field.1 (fieldBytes e field.2).reverse := by
  obtain ⟨c, c', epoch, root, stateRoot⟩ := o
  simp only [finalityFields, List.forall_mem_cons, List.not_mem_nil, false_imp_iff, implies_true,
    and_true]
  exact ⟨extract_field e [] _ _ rfl, extract_field e [.digest c] _ _ rfl,
    extract_field e [.digest c, .digest c', .u64 epoch] _ _ rfl,
    extract_field e [.digest c, .digest c', .u64 epoch, .bytes32 root] _ _ rfl⟩

/-- Read backwards, a field is read as itself exactly when it is the same both ways. -/
theorem readsAs_self_iff {data : List UInt32} {offset : ℕ} {bytes : List UInt8}
    (h : ReadsAs data offset bytes.reverse) :
    ReadsAs data offset bytes ↔ bytes.reverse = bytes := by
  constructor
  · rintro ⟨v, hv, rfl⟩
    exact (h.eq hv).symm
  · intro hpalindrome
    rwa [← hpalindrome]

/-- **The contract reads a proof as the guest wrote it** exactly when every field
it extracts reads the same from both ends. The offsets are right for every value;
the order of the bytes within a field is not. -/
theorem contract_reads_iff (o : EpochDiffOutput P) (f : FinalizationOutput P) :
    (DiffAgrees e o ↔ ∀ field ∈ diffFields o,
      (fieldBytes e field.2).reverse = fieldBytes e field.2) ∧
    (FinalityAgrees e f ↔ ∀ field ∈ finalityFields f,
      (fieldBytes e field.2).reverse = fieldBytes e field.2) := by
  have hdiff := diffFields_read e o
  have hfinality := finalityFields_read e f
  constructor
  · constructor
    · intro h field hfield
      exact (readsAs_self_iff (hdiff field hfield)).mp (h.reads field hfield)
    · intro h
      have hreads := fun field hfield => (readsAs_self_iff (hdiff field hfield)).mpr (h field hfield)
      refine ⟨hreads, fun V proof s s' hrun => ?_⟩
      obtain ⟨-, -, -, -, hcommitment, hroot, -⟩ := submitEpochDiff_eq_ok hrun
      exact ⟨(hreads (diffCommitment2, .digest o.accumulatorCommitment)
          (by simp [diffFields])).eq hcommitment,
        (hreads (diffStateRoot2, .bytes32 o.stateRoot2) (by simp [diffFields])).eq hroot⟩
  · constructor
    · intro h field hfield
      exact (readsAs_self_iff (hfinality field hfield)).mp (h.reads field hfield)
    · intro h
      have hreads := fun field hfield =>
        (readsAs_self_iff (hfinality field hfield)).mpr (h field hfield)
      refine ⟨hreads, fun V proof s s' hrun => ?_⟩
      obtain ⟨-, -, -, hblock, hstate, -⟩ := submitFinality_eq_ok hrun
      exact ⟨(hreads (finRoot, .bytes32 f.finalizedRoot) (by simp [finalityFields])).eq hblock,
        (hreads (finStateRoot, .bytes32 f.finalizedStateRoot) (by simp [finalityFields])).eq
          hstate⟩

/-! ## A root stored backwards -/

/-- The free instance's values as bytes: a raw string as itself, a leaf as its
balance, any other hash as nothing. -/
def freeEncoding (S : Formal.Scenario) : Encoding (Formal.formal S) where
  digest
    | .leaf _ balance => fun i => if i = 0 then balance else 0
    | _ => fun _ => 0
  bytes32
    | .bytes raw => if h : raw.length = 32 then ⟨raw, h⟩ else zeroBytes 32
    | .pair _ _ => zeroBytes 32

@[simp] theorem freeEncoding_bytes (S : Formal.Scenario) (raw : Bytes 32) :
    (freeEncoding S).bytes32 (.bytes raw.1) = raw := by
  simp [freeEncoding, raw.2]

/-- A block root whose first byte is 1: the contract takes the proof and stores
the number 1, whose last byte is. -/
theorem block_root_stored_backwards :
    let f : FinalizationOutput (Formal.formal {}) :=
      ⟨.zero, .zero, 5, .bytes (1 :: List.replicate 31 0), .bytes (List.replicate 32 0)⟩
    let data := submitted (freeEncoding {}) f.publicBytes
    let V : Verifiers := ⟨fun _ _ => true, fun _ words => words = data, fun _ _ => true⟩
    (∃ s', submitFinality V [] data ⟨0, 7, 0, 0, true⟩ = .ok s' ∧
      s'.latestFinalizedBlockRoot = 1 ∧
      s'.latestFinalizedBlockRoot.bytes = List.replicate 31 0 ++ [1]) ∧
    ¬ FinalityAgrees (freeEncoding {}) f := by
  intro f data V
  have hrun : ∃ s', submitFinality V [] data ⟨0, 7, 0, 0, true⟩ = .ok s' ∧
      s'.latestFinalizedBlockRoot = 1 ∧
      s'.latestFinalizedBlockRoot.bytes = List.replicate 31 0 ++ [1] := by decide +kernel
  refine ⟨hrun, fun h => ?_⟩
  obtain ⟨s', hok, -, hbytes⟩ := hrun
  have hstored := (h.stores V [] _ s' hok).1
  rw [hbytes] at hstored
  exact absurd hstored (by decide)

end Zkasper.Onchain
