import Zkasper.WitnessGen.BeaconSsz
import Zkasper.WitnessGen.MalformedStates

/-! # A field hashes to its root

`ssz_state.rs` has a function for every type a state is made of, which takes the bytes of a
value to its root. That it is the root of the type's codec is what `Hashes` says, and it is put
together the way the types are: a container out of its fields, a list out of its items. -/

namespace Zkasper

open Merkle PerfectTree Ssz Panics

namespace SszState

open SimpleSerialize Codec

variable {P : Primitives} {α : Type} {c : Codec P.Bytes32 α}
  {htrItem : List UInt8 → Option P.Bytes32} {itemSize limit depth : ℕ} {data : List UInt8}

/-- What the host hashes with. -/
def hasher (P : Primitives) : Hasher P.Bytes32 where
  ofBytes := P.ofBytes
  pair := P.sha256Pair

/-- A function of the host hashes what a codec writes to what the codec says. -/
abbrev Hashes (htr : List UInt8 → Option P.Bytes32) (c : Codec P.Bytes32 α) : Prop :=
  ∀ a, htr (c.serialize a) = some (c.root a)

/-! ## Chunks -/

theorem merkleizeChunks_eq_merkleize {chunks : List P.Bytes32} (hdepth : Nat.clog 2 limit = depth)
    (hfits : chunks.length ≤ limit) :
    merkleizeChunks P chunks depth = some ((hasher P).merkleize limit chunks) := by
  subst hdepth
  exact merkleizeChunks_eq (hfits.trans (Nat.le_pow_clog Nat.one_lt_two limit))

theorem mixInLength_eq (dataRoot : P.Bytes32) {length : ℕ} (hlength : length < 2 ^ 64) :
    mixInLength P dataRoot (UInt64.ofNat length) = (hasher P).mixInLength dataRoot length := by
  have hbytes : leBytes 32 length = leBytes 8 length ++ List.replicate 24 0 :=
    leBytes_of_lt 24 hlength
  have hchunk : u64ToChunk (UInt64.ofNat length) =
      ⟨(leBytes 32 length).take 32 ++ List.replicate (32 - (leBytes 32 length).length) 0,
        by simp⟩ := by
    apply Subtype.ext
    show leBytes 8 (UInt64.ofNat length).toNat ++ List.replicate 24 0 =
      (leBytes 32 length).take 32 ++ List.replicate (32 - (leBytes 32 length).length) 0
    rw [leBytes_length, List.take_of_length_le (leBytes_length 32 length).le, hbytes,
      UInt64.toNat_ofNat_of_lt' hlength]
    simp
  exact congrArg (P.sha256Pair dataRoot) (congrArg P.ofBytes hchunk)

theorem padToChunk_uint {value : α → ℕ} {k : ℕ} (hpos : 0 < k) (hk : k ≤ 32) (a : α) :
    padToChunk P ((uint (hasher P) k value).serialize a) = (uint (hasher P) k value).root a := by
  rw [uint_root hpos hk]
  rfl

theorem padToChunk_uint64 (v : UInt64) :
    padToChunk P ((uint64 (hasher P)).serialize v) = (uint64 (hasher P)).root v :=
  padToChunk_uint (by decide) (by decide) v

theorem padToChunk_boolean (b : Bool) :
    padToChunk P ((boolean (hasher P)).serialize b) = (boolean (hasher P)).root b :=
  padToChunk_uint (by decide) (by decide) b

theorem padToChunk_bytes {n : ℕ} (hpos : 0 < n) (hn : n ≤ 32) (a : Bytes n) :
    padToChunk P ((bytes (hasher P) n).serialize a) = (bytes (hasher P) n).root a := by
  rw [bytes_serialize, bytes_root_chunk hpos hn]
  rfl

/-- The whole of what is written is one slice. -/
theorem slice_serialize {n : ℕ} (hsize : c.size = some n) (a : α) :
    slice (c.serialize a) 0 n = some (c.serialize a) := by
  rw [← c.length_serialize n hsize a]
  exact slice_all

theorem htrUint64_hashes : Hashes (htrUint64 P) (uint64 (hasher P)) := by
  intro v
  rw [htrUint64, slice_serialize rfl]
  exact congrArg some (padToChunk_uint64 v)

theorem htrBytes32_hashes : Hashes (htrBytes32 P) (bytes (hasher P) 32) := by
  intro a
  rw [htrBytes32, slice_serialize rfl]
  exact congrArg some (padToChunk_bytes (by decide) (by decide) a)

theorem htrBitvector4_hashes : Hashes (htrBitvector4 P) (bitvector (hasher P) 4) := by
  intro bits
  rw [htrBitvector4, slice_serialize rfl]
  show some ((hasher P).padded _) = some ((hasher P).merkleize 1 ((hasher P).pack _))
  rw [(hasher P).merkleize_one_pack (by rw [leBytes_length]; decide)]
  rfl

theorem htrBlsPubkey_hashes : Hashes (htrBlsPubkey P) (bytes (hasher P) 48) := by
  intro a
  have hpack : (hasher P).pack a.val =
      [(hasher P).padded (a.val.take 32), (hasher P).padded ((a.val.take 48).drop 32)] := by
    rw [Hasher.pack, a.2, List.take_of_length_le a.2.le]
    show [(hasher P).padded _, (hasher P).padded ((a.val.drop 32).take 32)] = _
    rw [List.take_of_length_le (l := a.val.drop 32) (by rw [List.length_drop, a.2]; decide)]
    rfl
  rw [bytes_root, hpack, (hasher P).merkleize_two, bytes_serialize, htrBlsPubkey,
    slice_of_le (by decide) (by rw [a.2]; decide), slice_of_le (by decide) a.2.ge]
  rfl

theorem htrBlsSignature_hashes : Hashes (htrBlsSignature P) (bytes (hasher P) 96) := by
  intro a
  have hpack : (hasher P).pack a.val = [(hasher P).padded (a.val.take 32),
      (hasher P).padded ((a.val.take 64).drop 32), (hasher P).padded ((a.val.take 96).drop 64)] := by
    rw [Hasher.pack, a.2, List.drop_take, List.drop_take]
    rfl
  rw [bytes_root, hpack, (hasher P).merkleize_three, bytes_serialize, htrBlsSignature,
    slice_of_le (by decide) (by rw [a.2]; decide), slice_of_le (by decide) (by rw [a.2]; decide),
    slice_of_le (by decide) a.2.ge]
  rfl

/-! ## Containers -/

section Containers

theorem htrFork_hashes : Hashes (htrFork P) (forkCodec (hasher P)) := by
  intro f
  have hprevious : slice ((forkCodec (hasher P)).serialize f) 0 4 = some _ :=
    slice_fixed (i := 0) f rfl rfl rfl rfl
  have hcurrent : slice ((forkCodec (hasher P)).serialize f) 4 8 = some _ :=
    slice_fixed (i := 1) f rfl rfl rfl rfl
  have hepoch : slice ((forkCodec (hasher P)).serialize f) 8 16 = some _ :=
    slice_fixed (i := 2) f rfl rfl rfl rfl
  rw [htrFork, hprevious, hcurrent, hepoch]
  simp (disch := decide) only [of_serialize, padToChunk_bytes, padToChunk_uint64,
    Option.bind_eq_bind, Option.bind_some]
  rw [forkCodec, container_root_three]
  rfl

theorem htrBeaconBlockHeader_hashes :
    Hashes (htrBeaconBlockHeader P) (beaconBlockHeaderCodec (hasher P)) := by
  intro header
  have hslot : slice ((beaconBlockHeaderCodec (hasher P)).serialize header) 0 8 = some _ :=
    slice_fixed (i := 0) header rfl rfl rfl rfl
  have hproposer : slice ((beaconBlockHeaderCodec (hasher P)).serialize header) 8 16 = some _ :=
    slice_fixed (i := 1) header rfl rfl rfl rfl
  have hparent : slice ((beaconBlockHeaderCodec (hasher P)).serialize header) 16 48 = some _ :=
    slice_fixed (i := 2) header rfl rfl rfl rfl
  have hstate : slice ((beaconBlockHeaderCodec (hasher P)).serialize header) 48 80 = some _ :=
    slice_fixed (i := 3) header rfl rfl rfl rfl
  have hbody : slice ((beaconBlockHeaderCodec (hasher P)).serialize header) 80 112 = some _ :=
    slice_fixed (i := 4) header rfl rfl rfl rfl
  rw [htrBeaconBlockHeader, hslot, hproposer, hparent, hstate, hbody]
  simp only [of_serialize, padToChunk_uint64, htrBytes32_hashes _, Option.bind_eq_bind,
    Option.bind_some]
  rw [beaconBlockHeaderCodec, container_root_five]
  rfl

theorem htrEth1Data_hashes : Hashes (htrEth1Data P) (eth1DataCodec (hasher P)) := by
  intro data
  have hroot : slice ((eth1DataCodec (hasher P)).serialize data) 0 32 = some _ :=
    slice_fixed (i := 0) data rfl rfl rfl rfl
  have hcount : slice ((eth1DataCodec (hasher P)).serialize data) 32 40 = some _ :=
    slice_fixed (i := 1) data rfl rfl rfl rfl
  have hblock : slice ((eth1DataCodec (hasher P)).serialize data) 40 72 = some _ :=
    slice_fixed (i := 2) data rfl rfl rfl rfl
  rw [htrEth1Data, hroot, hcount, hblock]
  simp only [of_serialize, padToChunk_uint64, htrBytes32_hashes _, Option.bind_eq_bind,
    Option.bind_some]
  rw [eth1DataCodec, container_root_three]
  rfl

theorem htrCheckpoint_hashes : Hashes (htrCheckpoint P) (checkpointCodec (hasher P)) := by
  intro checkpoint
  have hepoch : slice ((checkpointCodec (hasher P)).serialize checkpoint) 0 8 = some _ :=
    slice_fixed (i := 0) checkpoint rfl rfl rfl rfl
  have hroot : slice ((checkpointCodec (hasher P)).serialize checkpoint) 8 40 = some _ :=
    slice_fixed (i := 1) checkpoint rfl rfl rfl rfl
  rw [htrCheckpoint, hepoch, hroot]
  simp only [of_serialize, padToChunk_uint64, htrBytes32_hashes _, Option.bind_eq_bind,
    Option.bind_some]
  rw [checkpointCodec, container_root_two]
  rfl

theorem htrHistoricalSummary_hashes :
    Hashes (htrHistoricalSummary P) (historicalSummaryCodec (hasher P)) := by
  intro summary
  have hblock : slice ((historicalSummaryCodec (hasher P)).serialize summary) 0 32 = some _ :=
    slice_fixed (i := 0) summary rfl rfl rfl rfl
  have hstate : slice ((historicalSummaryCodec (hasher P)).serialize summary) 32 64 = some _ :=
    slice_fixed (i := 1) summary rfl rfl rfl rfl
  rw [htrHistoricalSummary, hblock, hstate]
  simp only [of_serialize, htrBytes32_hashes _, Option.bind_eq_bind, Option.bind_some]
  rw [historicalSummaryCodec, container_root_two]
  rfl

theorem htrPendingDeposit_hashes :
    Hashes (htrPendingDeposit P) (pendingDepositCodec (hasher P)) := by
  intro deposit
  have hpubkey : slice ((pendingDepositCodec (hasher P)).serialize deposit) 0 48 = some _ :=
    slice_fixed (i := 0) deposit rfl rfl rfl rfl
  have hcredentials : slice ((pendingDepositCodec (hasher P)).serialize deposit) 48 80 = some _ :=
    slice_fixed (i := 1) deposit rfl rfl rfl rfl
  have hamount : slice ((pendingDepositCodec (hasher P)).serialize deposit) 80 88 = some _ :=
    slice_fixed (i := 2) deposit rfl rfl rfl rfl
  have hsignature : slice ((pendingDepositCodec (hasher P)).serialize deposit) 88 184 = some _ :=
    slice_fixed (i := 3) deposit rfl rfl rfl rfl
  have hslot : slice ((pendingDepositCodec (hasher P)).serialize deposit) 184 192 = some _ :=
    slice_fixed (i := 4) deposit rfl rfl rfl rfl
  rw [htrPendingDeposit, hpubkey, hcredentials, hamount, hsignature, hslot]
  simp only [of_serialize, padToChunk_uint64, htrBytes32_hashes _, htrBlsPubkey_hashes _,
    htrBlsSignature_hashes _, Option.bind_eq_bind, Option.bind_some]
  rw [pendingDepositCodec, container_root_five]
  rfl

theorem htrPendingPartialWithdrawal_hashes :
    Hashes (htrPendingPartialWithdrawal P) (pendingPartialWithdrawalCodec (hasher P)) := by
  intro withdrawal
  have hindex :
      slice ((pendingPartialWithdrawalCodec (hasher P)).serialize withdrawal) 0 8 = some _ :=
    slice_fixed (i := 0) withdrawal rfl rfl rfl rfl
  have hamount :
      slice ((pendingPartialWithdrawalCodec (hasher P)).serialize withdrawal) 8 16 = some _ :=
    slice_fixed (i := 1) withdrawal rfl rfl rfl rfl
  have hepoch :
      slice ((pendingPartialWithdrawalCodec (hasher P)).serialize withdrawal) 16 24 = some _ :=
    slice_fixed (i := 2) withdrawal rfl rfl rfl rfl
  rw [htrPendingPartialWithdrawal, hindex, hamount, hepoch]
  simp only [of_serialize, padToChunk_uint64, Option.bind_eq_bind, Option.bind_some]
  rw [pendingPartialWithdrawalCodec, container_root_three]
  rfl

theorem htrPendingConsolidation_hashes :
    Hashes (htrPendingConsolidation P) (pendingConsolidationCodec (hasher P)) := by
  intro consolidation
  have hsource :
      slice ((pendingConsolidationCodec (hasher P)).serialize consolidation) 0 8 = some _ :=
    slice_fixed (i := 0) consolidation rfl rfl rfl rfl
  have htarget :
      slice ((pendingConsolidationCodec (hasher P)).serialize consolidation) 8 16 = some _ :=
    slice_fixed (i := 1) consolidation rfl rfl rfl rfl
  rw [htrPendingConsolidation, hsource, htarget]
  simp only [of_serialize, padToChunk_uint64, Option.bind_eq_bind, Option.bind_some]
  rw [pendingConsolidationCodec, container_root_two]
  rfl

/-- Where the fields of a validator are. -/
theorem validator_slices (v : ValidatorResponse) :
    let h := hasher P
    let written := (validatorCodec h).serialize v
    slice written 0 48 = some (((bytes h 48).of ValidatorResponse.pubkey).serialize v) ∧
      slice written 48 80 =
        some (((bytes h 32).of ValidatorResponse.withdrawalCredentials).serialize v) ∧
      slice written 80 88 = some (((uint64 h).of ValidatorResponse.effectiveBalance).serialize v) ∧
      slice written 88 89 = some (((boolean h).of ValidatorResponse.slashed).serialize v) ∧
      slice written 89 97 =
        some (((uint64 h).of ValidatorResponse.activationEligibilityEpoch).serialize v) ∧
      slice written 97 105 = some (((uint64 h).of ValidatorResponse.activationEpoch).serialize v) ∧
      slice written 105 113 = some (((uint64 h).of ValidatorResponse.exitEpoch).serialize v) ∧
      slice written 113 121 =
        some (((uint64 h).of ValidatorResponse.withdrawableEpoch).serialize v) :=
  ⟨slice_fixed (i := 0) v rfl rfl rfl rfl, slice_fixed (i := 1) v rfl rfl rfl rfl,
    slice_fixed (i := 2) v rfl rfl rfl rfl, slice_fixed (i := 3) v rfl rfl rfl rfl,
    slice_fixed (i := 4) v rfl rfl rfl rfl, slice_fixed (i := 5) v rfl rfl rfl rfl,
    slice_fixed (i := 6) v rfl rfl rfl rfl, slice_fixed (i := 7) v rfl rfl rfl rfl⟩

theorem htrValidator_hashes : Hashes (htrValidator P) (validatorCodec (hasher P)) := by
  intro v
  obtain ⟨hpubkey, hcredentials, hbalance, hslashed, heligibility, hactivation, hexit,
    hwithdrawable⟩ := validator_slices (P := P) v
  rw [htrValidator, hpubkey, hcredentials, hbalance, hslashed, heligibility, hactivation, hexit,
    hwithdrawable]
  simp only [of_serialize, padToChunk_uint64, padToChunk_boolean, htrBytes32_hashes _,
    htrBlsPubkey_hashes _, Option.bind_eq_bind, Option.bind_some]
  rw [validatorCodec, container_root_eight]
  rfl

end Containers

/-! ## Vectors and lists -/

section Sequences

/-- The roots of elements that are written one after the other. -/
theorem itemRoots_serialize (hitem : Hashes htrItem c) (hsize : c.size = some itemSize)
    (as : List α) (rest : List UInt8) :
    itemRoots P htrItem itemSize as.length ((as.map c.serialize).flatten ++ rest) =
      some (as.map c.root) := by
  have hlength : (as.map c.root).length = as.length := List.length_map _
  rw [itemRoots, mapM_eq_some_map, Chunks.map_range_getD hlength P.zeroChunk]
  intro i hi
  have hi := List.mem_range.mp hi
  have hget := List.getElem?_eq_getElem hi
  rw [slice_elements hsize hget, List.getD_eq_getElem?_getD, List.getElem?_map, hget]
  exact hitem _

/-- What a list of elements of one length is written as. -/
theorem list_serialize {h : Hasher P.Bytes32} (hsize : c.size = some itemSize)
    (as : Bounded α limit) :
    (list h c limit).serialize as = (as.val.map c.serialize).flatten :=
  serializeParts_of_some (by rw [hsize]; rfl) _

theorem htrList_hashes (hpos : 0 < itemSize) (hitem : Hashes htrItem c) (hbasic : c.basic = false)
    (hsize : c.size = some itemSize) (hdepth : Nat.clog 2 limit = depth) (hlimit : limit < 2 ^ 64) :
    Hashes (htrList P htrItem itemSize · depth) (list (hasher P) c limit) := by
  intro as
  have hcount : (as.val.map c.serialize).flatten.length / itemSize = as.val.length := by
    rw [length_flatten_serialize hsize, Nat.mul_div_cancel _ hpos]
  have hroots := itemRoots_serialize hitem hsize as.val []
  rw [List.append_nil] at hroots
  have hfits : (as.val.map c.root).length ≤ limit := by
    rw [List.length_map]
    exact as.2
  show htrList P htrItem itemSize ((list (hasher P) c limit).serialize as) depth = _
  rw [list_serialize hsize, htrList, hcount, hroots, Option.bind_eq_bind, Option.bind_some,
    merkleizeChunks_eq_merkleize hdepth hfits, Option.bind_eq_bind, Option.bind_some,
    mixInLength_eq _ (as.2.trans_lt hlimit)]
  show some ((hasher P).mixInLength _ _) =
    some ((hasher P).mixInLength (elementsRoot (hasher P) c limit as.val) as.val.length)
  rw [elementsRoot_of_composite hbasic]

theorem htrVectorRoots_hashes (n : ℕ) :
    Hashes (htrVectorRoots P · n) (vector (hasher P) (bytes (hasher P) 32) n) := by
  rintro ⟨as, rfl⟩
  have hroots := itemRoots_serialize htrBytes32_hashes (P := P) rfl as []
  rw [List.append_nil] at hroots
  have hwritten : (vector (hasher P) (bytes (hasher P) 32) as.length).serialize ⟨as, rfl⟩ =
      (as.map (bytes (hasher P) 32).serialize).flatten := serializeParts_of_some rfl _
  show htrVectorRoots P ((vector (hasher P) (bytes (hasher P) 32) _).serialize _) _ = _
  rw [hwritten, htrVectorRoots, hroots, Option.bind_eq_bind, Option.bind_some,
    merkleizeChunks_eq_merkleize rfl (List.length_map _).le]
  rfl

/-- Integers, four to a chunk, are packed. -/
theorem gweiChunks_eq {count : ℕ} (hlength : data.length = count * 8) :
    gweiChunks P data count = some ((hasher P).pack data) := by
  have hchunks : (data.length + 31) / 32 = (count + 3) / 4 := by omega
  rw [gweiChunks, Hasher.pack, hchunks]
  apply mapM_eq_some_map
  intro i hi
  have hi := List.mem_range.mp hi
  -- the last chunk may have fewer
  have hfew : (List.range 4).filter (i * 4 + · < count) = List.range (min 4 (count - i * 4)) := by
    have hprefix : ∀ k ≤ 4, (List.range 4).filter (· < k) = List.range k := by decide
    rw [← hprefix _ (min_le_left 4 (count - i * 4))]
    apply List.filter_congr
    intro j hj
    have hj := List.mem_range.mp hj
    rw [decide_eq_decide]
    omega
  have hwords : ((List.range 4).filter (i * 4 + · < count)).mapM (fun j =>
      slice data ((i * 4 + j) * 8) ((i * 4 + j) * 8 + 8)) =
        some ((List.range (min 4 (count - i * 4))).map fun j =>
          ((data.drop (i * 32)).drop (j * 8)).take 8) := by
    rw [hfew]
    apply mapM_eq_some_map
    intro j hj
    have hj := List.mem_range.mp hj
    rw [slice_of_le (Nat.le_add_right _ _) (by omega), List.drop_drop, List.drop_take,
      Nat.add_sub_cancel_left, show (i * 4 + j) * 8 = i * 32 + j * 8 by omega]
  rw [hwords]
  show some (padToChunk P _) = _
  rw [Chunks.flatten_map_range]
  have htake : (data.drop (i * 32)).take (min 4 (count - i * 4) * 8) =
      (data.drop (i * 32)).take 32 := by
    rcases le_total 4 (count - i * 4) with hle | hle
    · rw [min_eq_left hle]
    · rw [min_eq_right hle, List.take_of_length_le, List.take_of_length_le]
      · rw [List.length_drop]; omega
      · rw [List.length_drop]; omega
  rw [htake]
  rfl

/-- The chunks that integers of a type take. -/
theorem gwei_chunks (n : ℕ) : (n * 8 + 31) / 32 = (n + 3) / 4 := by omega

theorem htrVectorGwei_hashes (n : ℕ) :
    Hashes (htrVectorGwei P · n) (vector (hasher P) (uint64 (hasher P)) n) := by
  rintro ⟨as, rfl⟩
  have hwritten : (vector (hasher P) (uint64 (hasher P)) as.length).serialize ⟨as, rfl⟩ =
      (as.map (uint64 (hasher P)).serialize).flatten := serializeParts_of_some rfl _
  have hlength := length_flatten_serialize (show (uint64 (hasher P)).size = some 8 from rfl) as
  have hfits : ((hasher P).pack (as.map (uint64 (hasher P)).serialize).flatten).length ≤
      (as.length * 8 + 31) / 32 := by
    rw [Hasher.length_pack, hlength]
  show htrVectorGwei P ((vector (hasher P) (uint64 (hasher P)) _).serialize _) _ = _
  rw [hwritten, htrVectorGwei, gweiChunks_eq hlength, Option.bind_eq_bind, Option.bind_some,
    merkleizeChunks_eq_merkleize (by rw [gwei_chunks]) hfits]
  rfl

theorem htrListGwei_hashes (hdepth : 2 ≤ depth) (hlimit : depth < 64) :
    Hashes (htrListGwei P · depth) (list (hasher P) (uint64 (hasher P)) (2 ^ depth)) := by
  intro as
  have hsize : (uint64 (hasher P)).size = some 8 := rfl
  have hlength := length_flatten_serialize hsize as.val
  have hchunks : (2 ^ depth * 8 + 31) / 32 = 2 ^ (depth - 2) := by
    have hpow : 2 ^ depth = 2 ^ 2 * 2 ^ (depth - 2) := by
      rw [← pow_add, Nat.add_sub_cancel' hdepth]
    omega
  have hfits : ((hasher P).pack (as.val.map (uint64 (hasher P)).serialize).flatten).length ≤
      (2 ^ depth * 8 + 31) / 32 := by
    have hle := as.2
    rw [Hasher.length_pack, hlength]
    omega
  show htrListGwei P ((list (hasher P) (uint64 (hasher P)) (2 ^ depth)).serialize as) depth = _
  rw [list_serialize hsize, htrListGwei, hlength, Nat.mul_div_cancel _ (by decide : 0 < 8),
    gweiChunks_eq hlength, Option.bind_eq_bind, Option.bind_some,
    merkleizeChunks_eq_merkleize (by rw [hchunks, Nat.clog_pow _ _ Nat.one_lt_two]) hfits,
    Option.bind_eq_bind, Option.bind_some,
    mixInLength_eq _ (as.2.trans_lt (Nat.pow_lt_pow_right Nat.one_lt_two hlimit))]
  rfl

theorem htrListUint8_hashes (hdepth : 5 ≤ depth) (hlimit : depth < 64) :
    Hashes (htrListUint8 P · depth) (list (hasher P) (uint8 (hasher P)) (2 ^ depth)) := by
  intro as
  have hsize : (uint8 (hasher P)).size = some 1 := rfl
  have hpow : 2 ^ depth = 2 ^ 5 * 2 ^ (depth - 5) := by
    rw [← pow_add, Nat.add_sub_cancel' hdepth]
  have hchunks : (2 ^ depth * 1 + 31) / 32 = 2 ^ (depth - 5) := by omega
  have hpack : ((List.range ((as.val.length + 31) / 32)).mapM fun i => do
      return padToChunk P (← slice as.val (i * 32) (min (i * 32 + 32) as.val.length))) =
        some ((hasher P).pack as.val) := by
    rw [Hasher.pack]
    apply mapM_eq_some_map
    intro i hi
    have hi := List.mem_range.mp hi
    have htake : (as.val.drop (i * 32)).take (min (i * 32 + 32) as.val.length - i * 32) =
        (as.val.drop (i * 32)).take 32 := by
      rw [List.take_eq_take_iff, List.length_drop]
      omega
    rw [slice_of_le (by omega) (min_le_right _ _), List.drop_take, htake]
    rfl
  have hfits : ((hasher P).pack as.val).length ≤ (2 ^ depth * 1 + 31) / 32 := by
    have hle := as.2
    rw [Hasher.length_pack]
    omega
  show htrListUint8 P ((list (hasher P) (uint8 (hasher P)) (2 ^ depth)).serialize as) depth = _
  rw [list_serialize hsize, flatten_serialize_uint8, htrListUint8, hpack, Option.bind_eq_bind,
    Option.bind_some,
    merkleizeChunks_eq_merkleize (by rw [hchunks, Nat.clog_pow _ _ Nat.one_lt_two]) hfits,
    Option.bind_eq_bind, Option.bind_some,
    mixInLength_eq _ (as.2.trans_lt (Nat.pow_lt_pow_right Nat.one_lt_two hlimit))]
  show some ((hasher P).mixInLength _ _) =
    some ((hasher P).mixInLength (elementsRoot (hasher P) (uint8 (hasher P)) _ as.val) _)
  rw [elementsRoot_of_basic rfl, flatten_serialize_uint8]
  rfl

theorem htrSyncCommittee_hashes : Hashes (htrSyncCommittee P) (syncCommitteeCodec (hasher P)) := by
  intro committee
  have hwritten : (syncCommitteeCodec (hasher P)).serialize committee =
      (committee.pubkeys.val.map (bytes (hasher P) 48).serialize).flatten ++
        ((bytes (hasher P) 48).serialize committee.aggregatePubkey ++ []) := by
    have hpubkeys : (vector (hasher P) (bytes (hasher P) 48) 512).serialize committee.pubkeys =
      (committee.pubkeys.val.map (bytes (hasher P) 48).serialize).flatten :=
        serializeParts_of_some rfl _
    rw [← hpubkeys]
    apply serializeParts_fields
    exact List.forall_mem_cons.mpr ⟨rfl, List.forall_mem_cons.mpr ⟨rfl, List.forall_mem_nil _⟩⟩
  have hroots := itemRoots_serialize htrBlsPubkey_hashes (P := P) rfl committee.pubkeys.val
    ((bytes (hasher P) 48).serialize committee.aggregatePubkey ++ [])
  rw [committee.pubkeys.2, ← hwritten] at hroots
  have haggregate :
      slice ((syncCommitteeCodec (hasher P)).serialize committee) 24576 24624 = some _ :=
    slice_fixed (i := 1) committee rfl rfl rfl rfl
  have hdepth : Nat.clog 2 512 = 9 := Nat.clog_pow 2 9 Nat.one_lt_two
  have hfits : (committee.pubkeys.val.map (bytes (hasher P) 48).root).length ≤ 512 := by
    rw [List.length_map, committee.pubkeys.2]
  rw [htrSyncCommittee, hroots, haggregate]
  simp only [of_serialize, htrBlsPubkey_hashes _, merkleizeChunks_eq_merkleize hdepth hfits,
    Option.bind_eq_bind, Option.bind_some]
  rw [syncCommitteeCodec, container_root_two]
  rfl

end Sequences

/-! ## The execution payload header -/

section PayloadHeader

variable {header : ExecutionPayloadHeader} {i : ℕ}
  {field : Codec P.Bytes32 ExecutionPayloadHeader}

/-- Bytes taken 32 at a time are packed. -/
theorem itemRoots_bytes {count : ℕ} (hlength : data.length = count * 32) :
    itemRoots P (htrBytes32 P) 32 count data = some ((hasher P).pack data) := by
  have hcount : (data.length + 31) / 32 = count := by omega
  rw [itemRoots, Hasher.pack, hcount]
  apply mapM_eq_some_map
  intro i hi
  have hi := List.mem_range.mp hi
  rw [slice_bind_htrBytes32 rfl (by omega), List.drop_take, Nat.add_sub_cancel_left]
  rfl

/-- The extra data, a chunk of it. -/
theorem extraData_root (as : Bounded UInt8 32) :
    (list (hasher P) (uint8 (hasher P)) 32).root as =
      mixInLength P (padToChunk P as.val) (UInt64.ofNat as.val.length) := by
  rw [mixInLength_eq _ (as.2.trans_lt (by decide))]
  show (hasher P).mixInLength (elementsRoot (hasher P) (uint8 (hasher P)) 32 as.val) _ = _
  rw [elementsRoot_of_basic rfl, flatten_serialize_uint8]
  have hsize : (uint8 (hasher P)).size = some 1 := rfl
  rw [hsize]
  exact congrArg (fun dataRoot => (hasher P).mixInLength dataRoot _)
    ((hasher P).merkleize_one_pack as.2)

theorem htrBytes32_hashes_uint256 : Hashes (htrBytes32 P) (uint256 (hasher P)) := by
  intro v
  rw [htrBytes32, slice_serialize rfl]
  exact congrArg some (padToChunk_uint (by decide) (by decide) v)

/-- The bloom filter, eight chunks. -/
theorem logsBloom_root (bloom : Bytes 256) :
    htrPayloadField P 4 ((bytes (hasher P) 256).serialize bloom) =
      some ((bytes (hasher P) 256).root bloom) := by
  rw [bytes_serialize, htrPayloadField, itemRoots_bytes bloom.2, bytes_root,
    (hasher P).merkleize_eight (show Nat.clog 2 ((256 + 31) / 32) = 3 from
      Nat.clog_pow 2 3 Nat.one_lt_two)]
  rfl

/-- Each field of the header is hashed to its root. -/
theorem htrPayloadField_eq (header : ExecutionPayloadHeader)
    (hfield : (executionPayloadHeaderFields (hasher P))[i]? = some field) :
    htrPayloadField P i (field.serialize header) = some (field.root header) := by
  have hi : i < 17 := (List.getElem?_eq_some_iff.mp hfield).1
  interval_cases i
  all_goals obtain rfl := Option.some_inj.mp hfield
  case «4» => exact logsBloom_root _
  case «10» =>
    show htrPayloadField P 10 ((list (hasher P) (uint8 (hasher P)) 32).serialize header.extraData) =
      some ((list (hasher P) (uint8 (hasher P)) 32).root header.extraData)
    rw [list_serialize rfl, flatten_serialize_uint8, extraData_root]
    rfl
  all_goals first
    | exact htrBytes32_hashes _
    | exact htrBytes32_hashes_uint256 _
    | exact congrArg some (padToChunk_uint64 _)
    | exact congrArg some (padToChunk_bytes (by decide) (by decide) _)

/-- One field of the header has no fixed length. -/
theorem sizes_payload : sizes (executionPayloadHeaderFields (hasher P)) =
    [some 32, some 20, some 32, some 32, some 256, some 32, some 8, some 8, some 8, some 8, none,
      some 32, some 32, some 32, some 32, some 8, some 8] := rfl

theorem widths_payload : widths (executionPayloadHeaderFields (hasher P)) = ephFixedSizes := by
  rw [widths, sizes_payload]
  rfl

/-- The extra data is written behind the other fields, -/
theorem extraDataOffset_serialize (header : ExecutionPayloadHeader) :
    tailStart (parts (executionPayloadHeaderFields (hasher P)) header) 10 = 584 := by
  rw [tailStart_parts_eq (Nat.zero_le 10) (by rw [sizes_payload]; decide), tailStart_zero,
    widths_payload]
  rfl

/-- and up to the end. -/
theorem extraData_stop (header : ExecutionPayloadHeader) :
    tailStart (parts (executionPayloadHeaderFields (hasher P)) header) 11 =
      ((executionPayloadHeaderCodec (hasher P)).serialize header).length := by
  rw [executionPayloadHeaderCodec, length_serialize_container]
  exact (tailStart_parts_eq (show 11 ≤ 17 by decide) (by rw [sizes_payload]; decide) header).symm

/-- Every field of the header is read back. -/
theorem slice_payloadField (header : ExecutionPayloadHeader)
    (hfield : (executionPayloadHeaderFields (hasher P))[i]? = some field) :
    let written := (executionPayloadHeaderCodec (hasher P)).serialize header
    slice written (ephRange 584 written.length i).1 (ephRange 584 written.length i).2 =
      some (field.serialize header) := by
  intro written
  have hi : i < 17 := (List.getElem?_eq_some_iff.mp hfield).1
  by_cases hextra : i = 10
  · subst hextra
    obtain rfl := Option.some_inj.mp hfield
    rw [ephRange, if_pos rfl, ← extraData_stop, ← extraDataOffset_serialize (P := P) header]
    exact slice_variable (i := 10) header rfl rfl
  · rw [ephRange, if_neg hextra]
    interval_cases i
    all_goals obtain rfl := Option.some_inj.mp hfield
    all_goals first
      | exact absurd rfl hextra
      | exact slice_fixed header hfield rfl (by rw [widths_payload]; rfl) rfl

/-- So all of them are hashed. -/
theorem payloadRoots_eq (header : ExecutionPayloadHeader) :
    let written := (executionPayloadHeaderCodec (hasher P)).serialize header
    ((List.range 17).mapM fun i => do
      let range := ephRange 584 written.length i
      htrPayloadField P i (← slice written range.1 range.2)) =
        some ((executionPayloadHeaderFields (hasher P)).map (·.root header)) := by
  intro written
  have hlength : ((executionPayloadHeaderFields (hasher P)).map (·.root header)).length = 17 := rfl
  rw [mapM_eq_some_map, Chunks.map_range_getD hlength P.zeroChunk]
  intro i hi
  have hi : i < (executionPayloadHeaderFields (hasher P)).length := List.mem_range.mp hi
  have hfield := List.getElem?_eq_getElem hi
  rw [List.getD_eq_getElem?_getD, List.getElem?_map, hfield]
  show (slice written _ _ >>= fun fieldData => htrPayloadField P i fieldData) = _
  rw [slice_payloadField header hfield]
  exact htrPayloadField_eq header hfield

/-- Chunks of nothing behind the others are leaves of nothing. -/
theorem getD_append_zeroChunks (chunks : List P.Bytes32) (n i : ℕ) :
    (chunks ++ List.replicate n P.zeroChunk).getD i P.zeroChunk = chunks.getD i P.zeroChunk := by
  rw [List.getD_eq_getElem?_getD, List.getD_eq_getElem?_getD]
  rcases lt_or_ge i chunks.length with hlt | hge
  · rw [List.getElem?_append_left hlt]
  · rw [List.getElem?_append_right hge, List.getElem?_eq_none hge, List.getElem?_replicate]
    split <;> rfl

theorem htrExecutionPayloadHeaderDeneb_hashes :
    Hashes (htrExecutionPayloadHeaderDeneb P) (executionPayloadHeaderCodec (hasher P)) := by
  intro header
  have hoffset : slice ((executionPayloadHeaderCodec (hasher P)).serialize header)
      (ephStart 10) (ephStart 10 + 4) = some (leBytes 4 584) := by
    rw [← extraDataOffset_serialize (P := P) header]
    exact slice_offset (i := 10) header rfl rfl (by rw [widths_payload]; rfl)
  have hread : fromLeBytes (leBytes 4 584) = 584 := fromLeBytes_leBytes (by decide)
  have hroots := payloadRoots_eq (P := P) header
  have hlength : ((executionPayloadHeaderFields (hasher P)).map (·.root header) ++
      List.replicate 15 P.zeroChunk).length ≤ 2 ^ 5 := by
    rw [List.length_append, List.length_replicate]
    exact le_rfl
  have hdepth : Nat.clog 2 17 = 5 := by decide
  rw [htrExecutionPayloadHeaderDeneb, hoffset]
  simp only [Option.bind_eq_bind, Option.bind_some, hread] at hroots ⊢
  rw [hroots, Option.bind_some, merkleizeChunks_eq hlength, executionPayloadHeaderCodec,
    container_root]
  refine congrArg some (Eq.trans ?_ ((hasher P).merkleize_of_clog hdepth _).symm)
  exact root_congr _ fun i _ => getD_append_zeroChunks _ _ i

end PayloadHeader

/-! ## The fields of a state -/

section Fields

variable {config : StateConfig} {fork : ConsensusFork} {i : ℕ}

/-- The registry is a list of validators. -/
theorem computeValidatorsHtr_eq (validators : Bounded ValidatorResponse (2 ^ 40)) :
    let written := (validatorsCodec (hasher P)).serialize validators
    computeValidatorsHtr P written (written.length / sszValidatorSize) =
      some ((validatorsCodec (hasher P)).root validators) :=
  htrList_hashes (show 0 < 121 by decide) htrValidator_hashes rfl rfl
    (Nat.clog_pow 2 40 Nat.one_lt_two) (by decide) validators

theorem eth1VotesLimitDepth_eq (hslots : config.slotsPerEpoch = 32) :
    eth1VotesLimitDepth config = 11 := by
  rw [eth1VotesLimitDepth, hslots]
  decide

/-- **Each field is hashed to its root**, by the function that its index selects. -/
theorem computeFieldHtr_electra (hslots : config.slotsPerEpoch = 32) (s : ElectraState)
    (hregistry : i ≠ beaconStateValidatorsFieldIndex) {field : Codec P.Bytes32 ElectraState}
    (hfield : (electraFields (hasher P))[i]? = some field) :
    computeFieldHtr P config i (field.serialize s) = some (field.root s) := by
  have hi : i < 37 := (List.getElem?_eq_some_iff.mp hfield).1
  have hclog (n : ℕ) : Nat.clog 2 (2 ^ n) = n := Nat.clog_pow 2 n Nat.one_lt_two
  interval_cases i
  all_goals obtain rfl := Option.some_inj.mp hfield
  case «11» => exact absurd rfl hregistry
  case «1» => exact htrBytes32_hashes _
  case «3» => exact htrFork_hashes _
  case «4» => exact htrBeaconBlockHeader_hashes _
  case «5» | «6» => exact htrVectorRoots_hashes 8192 _
  case «7» =>
    exact htrList_hashes (show 0 < 32 by decide) htrBytes32_hashes rfl rfl (hclog 24) (by decide) _
  case «8» => exact htrEth1Data_hashes _
  case «9» =>
    show htrList P (htrEth1Data P) 72 _ (eth1VotesLimitDepth config) = _
    rw [eth1VotesLimitDepth_eq hslots]
    exact htrList_hashes (show 0 < 72 by decide) htrEth1Data_hashes rfl rfl (hclog 11)
      (by decide) s.eth1DataVotes
  case «12» | «21» => exact htrListGwei_hashes (by decide) (by decide) _
  case «13» => exact htrVectorRoots_hashes 65536 _
  case «14» => exact htrVectorGwei_hashes 8192 _
  case «15» | «16» => exact htrListUint8_hashes (by decide) (by decide) _
  case «17» => exact htrBitvector4_hashes _
  case «18» | «19» | «20» => exact htrCheckpoint_hashes _
  case «22» | «23» => exact htrSyncCommittee_hashes _
  case «24» => exact htrExecutionPayloadHeaderDeneb_hashes _
  case «27» =>
    exact htrList_hashes (show 0 < 64 by decide) htrHistoricalSummary_hashes rfl rfl (hclog 24)
      (by decide) _
  case «34» =>
    exact htrList_hashes (show 0 < 192 by decide) htrPendingDeposit_hashes rfl rfl (hclog 27)
      (by decide) _
  case «35» =>
    exact htrList_hashes (show 0 < 24 by decide) htrPendingPartialWithdrawal_hashes rfl rfl (hclog 27)
      (by decide) _
  case «36» =>
    exact htrList_hashes (show 0 < 16 by decide) htrPendingConsolidation_hashes rfl rfl (hclog 18)
      (by decide) _
  all_goals exact htrUint64_hashes _

end Fields

end SszState

end Zkasper
