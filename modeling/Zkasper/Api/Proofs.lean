import Zkasper.Api.Live
import Zkasper.Library.Chunks

/-! # The proofs that are held

Where there is no bucket the bytes of a proof are kept in pieces, and when there are too many
bytes the oldest proofs are given up. What was put is what is got, or the row says that it is
gone (`put_back_or_gone`), and the pieces that are stored never come to more than the cap
(`evicts_oldest`). Both are about requests that are served whole: every epoch that is named can
be the key of a row. -/

namespace Zkasper.Api

open Library Transition

namespace Index

variable {s : Index} {epoch : ℤ} {m : ProofMeta} {bytes : List UInt8}

/-! ## Pieces -/

theorem pieces_flatten (bytes : List UInt8) : (pieces bytes).flatten = bytes := by
  rw [pieces, Chunks.flatten_map_range, List.take_of_length_le]
  unfold chunkBytes
  omega

theorem chunkRows_numbers (epoch : ℤ) (bytes : List UInt8) :
    (chunkRows epoch bytes).map (fun row => row.1.2) = List.range (pieces bytes).length := by
  rw [chunkRows, List.map_map]
  show (pieces bytes).zipIdx.map Prod.snd = _
  rw [List.zipIdx_map_snd, List.range_eq_range']

theorem chunkRows_pieces (epoch : ℤ) (bytes : List UInt8) :
    (chunkRows epoch bytes).map (·.2) = pieces bytes := by
  rw [chunkRows, List.map_map]
  show (pieces bytes).zipIdx.map Prod.fst = _
  rw [List.zipIdx_map_fst]

theorem chunkRows_epoch {row : (ℤ × ℕ) × List UInt8} (h : row ∈ chunkRows epoch bytes) :
    row.1.1 = epoch := by
  obtain ⟨chunk, -, rfl⟩ := List.mem_map.mp h
  rfl

theorem chunkRows_sorted (epoch : ℤ) (bytes : List UInt8) :
    ((chunkRows epoch bytes).insertionSort fun a b => a.1.2 ≤ b.1.2) = chunkRows epoch bytes := by
  apply List.Pairwise.insertionSort_eq
  have hnumbers : ((chunkRows epoch bytes).map fun row => row.1.2).Pairwise (· ≤ ·) := by
    rw [chunkRows_numbers]
    exact List.pairwise_le_range
  exact List.pairwise_map.mp hnumbers

/-! ## What an upload leaves -/

/-- The pieces of an epoch. -/
def chunksOf (s : Index) (epoch : ℤ) : Table (ℤ × ℕ) (List UInt8) :=
  s.proofChunks.filter fun chunk => chunk.1.1 = epoch

/-- **What was put is here**, or the row says that it is gone. -/
structure Keeps (s : Index) (epoch : ℤ) (m : ProofMeta) (bytes : List UInt8) (row : ProofRow) :
    Prop where
  stored : s.proofs.get? epoch = some row
  said : row.toProofMeta = { m with bytes := bytes.length }
  backend : row.backend = .inline
  chunks : row.evicted = false → s.chunksOf epoch = chunkRows epoch bytes

theorem Keeps.body {row : ProofRow} (h : s.Keeps epoch m bytes row) :
    s.proofBody epoch = if row.evicted then none else some bytes := by
  unfold proofBody
  rw [h.stored]
  dsimp only
  cases hevicted : row.evicted with
  | true => simp [isHeld, hevicted]
  | false =>
      have hheld : isHeld row = true := by simp [isHeld, h.backend, hevicted]
      have hbytes : row.bytes = bytes.length := congrArg ProofMeta.bytes h.said
      have hchunks := h.chunks hevicted
      unfold chunksOf at hchunks
      rw [if_pos hheld, hchunks, chunkRows_sorted, chunkRows_pieces, pieces_flatten, hbytes,
        if_pos (Nat.le_refl _), Nat.sub_self]
      simp

/-- The pieces of other epochs are not touched. -/
theorem chunksOf_dropChunks_of_ne {other : ℤ} (h : other ≠ epoch) :
    (s.dropChunks other).chunksOf epoch = s.chunksOf epoch := by
  unfold chunksOf dropChunks
  rw [List.filter_filter]
  apply List.filter_congr
  intro chunk _
  by_cases hchunk : chunk.1.1 = epoch
  · simp [hchunk, Ne.symm h]
  · simp [hchunk]

theorem chunksOf_dropChunks_self : (s.dropChunks epoch).chunksOf epoch = [] := by
  unfold chunksOf dropChunks
  rw [List.filter_filter, List.filter_eq_nil_iff]
  intro chunk _
  simp

theorem chunksOf_append_chunkRows {chunks : Table (ℤ × ℕ) (List UInt8)}
    (h : chunks.filter (fun chunk => chunk.1.1 = epoch) = []) :
    (chunks ++ chunkRows epoch bytes).filter (fun chunk => chunk.1.1 = epoch) =
      chunkRows epoch bytes := by
  rw [List.filter_append, h, List.nil_append, List.filter_eq_self]
  intro row hrow
  exact decide_eq_true (chunkRows_epoch hrow)

theorem chunksOf_append_of_ne {other : ℤ} (h : other ≠ epoch)
    (chunks : Table (ℤ × ℕ) (List UInt8)) :
    (chunks ++ chunkRows other bytes).filter (fun chunk => chunk.1.1 = epoch) =
      chunks.filter fun chunk => chunk.1.1 = epoch := by
  have hnone : (chunkRows other bytes).filter (fun chunk => chunk.1.1 = epoch) = [] := by
    rw [List.filter_eq_nil_iff]
    intro row hrow
    simp [chunkRows_epoch hrow, h]
  rw [List.filter_append, hnone, List.append_nil]

/-! ## Giving up the oldest -/

/-- The rows of proofs that are held here. -/
def held (s : Index) : List (ℤ × ProofRow) := s.proofs.filter fun row => isHeld row.2

theorem oldestInline_eq_some {row : ProofRow} (h : s.oldestInline = some (epoch, row)) :
    (epoch, row) ∈ s.held := by
  have hmem := List.mem_of_mem_head? h
  rwa [List.mem_insertionSort] at hmem

theorem oldestInline_eq_none (h : s.oldestInline = none) : s.held = [] := by
  have hnil := List.head?_eq_none_iff.mp h
  have hlength := List.length_insertionSort (r := fun r r' : ℤ × ProofRow => r.1 ≤ r'.1) s.held
  unfold held at hlength ⊢
  rw [hnil] at hlength
  exact List.length_eq_zero_iff.mp hlength.symm

/-- One proof is given up. -/
theorem held_evictEpoch {row : ProofRow} (hkeys : s.proofs.keys.Nodup) :
    (s.evictEpoch epoch row).held = s.held.filter fun r => r.1 ≠ epoch := by
  unfold held
  exact Table.filter_put (by simp [isHeld]) hkeys

theorem evictEpoch_fewer {row : ProofRow} (hkeys : s.proofs.keys.Nodup)
    (h : (epoch, row) ∈ s.held) : (s.evictEpoch epoch row).held.length < s.held.length := by
  rw [held_evictEpoch hkeys]
  exact List.length_filter_lt_length_iff_exists.mpr ⟨(epoch, row), h, by simp⟩

theorem evictEpoch_keys (epoch : ℤ) (row : ProofRow) (hkeys : s.proofs.keys.Nodup) :
    (s.evictEpoch epoch row).proofs.keys.Nodup := Table.nodup_keys_put _ _ hkeys

/-- **What is held is within the cap** after a turn for each proof and one more. -/
theorem evictLoop_within : ∀ {turns : ℕ} {s : Index}, s.proofs.keys.Nodup →
    s.held.length < turns → (s.evictLoop turns).1.inlineTotal ≤ inlineTotalCap := by
  intro turns
  induction turns with
  | zero => exact fun _ h => absurd h (Nat.not_lt_zero _)
  | succ turns ih =>
      intro s hkeys hlength
      unfold evictLoop
      split
      · next hwithin => exact hwithin
      · next hover =>
          split
          · next hnone =>
              exfalso
              apply hover
              have hnil := oldestInline_eq_none hnone
              unfold held at hnil
              unfold inlineTotal
              rw [hnil]
              exact Nat.zero_le _
          · next epoch row holdest =>
              apply ih (evictEpoch_keys _ row hkeys)
              have hfewer := evictEpoch_fewer hkeys (oldestInline_eq_some holdest)
              omega

/-! ### The oldest, and no more -/

/-- The bytes of some rows. -/
def bytesOf (rows : List (ℤ × ProofRow)) : ℕ := rows.foldr (fun row total => row.2.bytes + total) 0

theorem inlineTotal_eq (s : Index) : s.inlineTotal = bytesOf s.held := rfl

/-- All but the rows of one epoch. -/
def without (epoch : ℤ) (rows : List (ℤ × ProofRow)) : List (ℤ × ProofRow) :=
  rows.filter fun r => r.1 ≠ epoch

theorem bytesOf_without {rows : List (ℤ × ProofRow)} {row : ProofRow}
    (hkeys : (Table.keys rows).Nodup) (hmem : (epoch, row) ∈ rows) :
    bytesOf (without epoch rows) + row.bytes = bytesOf rows := by
  induction rows with
  | nil => cases hmem
  | cons first rows ih =>
      obtain ⟨hnew, hrest⟩ := List.nodup_cons.mp hkeys
      rcases List.mem_cons.mp hmem with rfl | hmem
      · have hothers : without epoch rows = rows := by
          apply List.filter_eq_self.mpr
          intro other hother
          apply decide_eq_true
          rintro rfl
          have hkey := Table.mem_keys_of_mem hother
          exact hnew hkey
        have hgone : without epoch ((epoch, row) :: rows) = without epoch rows :=
          List.filter_cons_of_neg (by simp)
        rw [hgone, hothers]
        exact Nat.add_comm _ _
      · have hne : first.1 ≠ epoch := by
          rintro rfl
          have hkey := Table.mem_keys_of_mem hmem
          exact hnew hkey
        have hkept : without epoch (first :: rows) = first :: without epoch rows :=
          List.filter_cons_of_pos (by simpa using hne)
        have hrows := ih hrest hmem
        rw [hkept]
        simp only [bytesOf, List.foldr_cons] at hrows ⊢
        omega

theorem held_keys (hkeys : s.proofs.keys.Nodup) : (Table.keys s.held).Nodup :=
  hkeys.sublist (List.filter_sublist.map _)

theorem oldestInline_le {row : ProofRow} (h : s.oldestInline = some (epoch, row)) :
    ∀ r ∈ s.held, epoch ≤ r.1 := by
  intro r hr
  have hsorted := List.pairwise_insertionSort (fun r r' : ℤ × ProofRow => r.1 ≤ r'.1) s.held
  have hmem : r ∈ s.held.insertionSort fun r r' => r.1 ≤ r'.1 := (List.mem_insertionSort _).mpr hr
  obtain ⟨rest, hrest⟩ := List.head?_eq_some_iff.mp h
  change s.held.insertionSort (fun r r' => r.1 ≤ r'.1) = _ at hrest
  rw [hrest] at hsorted hmem
  rcases List.mem_cons.mp hmem with rfl | hmem
  · exact Int.le_refl _
  · exact (List.pairwise_cons.mp hsorted).1 r hmem

theorem evictLoop_held : ∀ {turns : ℕ} {s : Index}, s.proofs.keys.Nodup →
    ∀ r ∈ (s.evictLoop turns).1.held, r ∈ s.held := by
  intro turns s hkeys
  refine (evictLoop_invariant (fun s' => s'.proofs.keys.Nodup ∧ ∀ r ∈ s'.held, r ∈ s.held) ?_
    ⟨hkeys, fun _ hr => hr⟩).2
  rintro s' epoch row - ⟨hkeys, hheld⟩
  refine ⟨evictEpoch_keys _ row hkeys, fun r hr => ?_⟩
  rw [held_evictEpoch hkeys] at hr
  exact hheld r (List.mem_of_mem_filter hr)

theorem evictLoop_nil {turns : ℕ} (h : (s.evictLoop turns).2 = []) : (s.evictLoop turns).1 = s := by
  cases turns with
  | zero => rfl
  | succ turns =>
      unfold evictLoop at h ⊢
      split
      · rfl
      · next hover =>
          rw [if_neg hover] at h
          split
          · rfl
          · next holdest =>
              rw [holdest] at h
              cases h

/-- What was given up is older than whatever is still held, and with the last of it there would be
too much. -/
structure Oldest (s s' : Index) (gone : List ℤ) : Prop where
  below : ∀ epoch ∈ gone, ∀ r ∈ s'.held, epoch < r.1
  needed : ∀ last, gone.getLast? = some last → ∃ row, (last, row) ∈ s.held ∧
    inlineTotalCap < s'.inlineTotal + row.bytes

theorem Oldest.nil (s : Index) : Oldest s s [] where
  below _ h := by cases h
  needed _ h := by cases h

theorem evictLoop_oldest : ∀ {turns : ℕ} {s : Index}, s.proofs.keys.Nodup →
    Oldest s (s.evictLoop turns).1 (s.evictLoop turns).2 := by
  intro turns
  induction turns with
  | zero => exact fun {s} _ => .nil s
  | succ turns ih =>
      intro s hkeys
      unfold evictLoop
      split
      · exact .nil s
      · next hover =>
          split
          · exact .nil s
          · next epoch row holdest =>
              dsimp only
              have hmem := oldestInline_eq_some holdest
              have hkeys' := evictEpoch_keys epoch row hkeys
              obtain ⟨hbelow, hlast⟩ := ih hkeys'
              constructor
              · intro gone hgone r hr
                rcases List.mem_cons.mp hgone with rfl | hgone
                · have hleft := evictLoop_held hkeys' r hr
                  rw [held_evictEpoch hkeys, List.mem_filter, decide_eq_true_eq] at hleft
                  exact lt_of_le_of_ne (oldestInline_le holdest r hleft.1) (Ne.symm hleft.2)
                · exact hbelow gone hgone r hr
              · intro last hsome
                rw [List.getLast?_cons] at hsome
                -- the last one out is the last of the later turns, or this one if there are none
                cases hrest : (evictLoop turns (s.evictEpoch epoch row)).2.getLast? with
                | some other =>
                    rw [hrest] at hsome
                    obtain rfl : other = last := Option.some.inj hsome
                    obtain ⟨row', hrow', htotal⟩ := hlast other hrest
                    rw [held_evictEpoch hkeys] at hrow'
                    exact ⟨row', List.mem_of_mem_filter hrow', htotal⟩
                | none =>
                    rw [hrest] at hsome
                    obtain rfl : epoch = last := Option.some.inj hsome
                    refine ⟨row, hmem, ?_⟩
                    have hnil := List.getLast?_eq_none_iff.mp hrest
                    rw [evictLoop_nil hnil, inlineTotal_eq, held_evictEpoch hkeys]
                    have hbytes := bytesOf_without (held_keys hkeys) hmem
                    unfold without at hbytes
                    rw [hbytes, ← inlineTotal_eq]
                    exact Nat.lt_of_not_le hover

theorem evict_within (hkeys : s.proofs.keys.Nodup) :
    s.evict.1.inlineTotal ≤ inlineTotalCap := by
  apply evictLoop_within hkeys
  exact Nat.lt_succ_of_le (List.length_filter_le _ _)

/-! ## What is kept -/

theorem Keeps.evictEpoch {row gone : ProofRow} {other : ℤ} (hkeys : s.proofs.keys.Nodup)
    (hgone : (other, gone) ∈ s.held) (h : s.Keeps epoch m bytes row) :
    ∃ row', (s.evictEpoch other gone).Keeps epoch m bytes row' := by
  by_cases hother : other = epoch
  · subst hother
    have hget := Table.get?_of_mem hkeys (List.mem_of_mem_filter hgone)
    obtain rfl : row = gone := Option.some.inj (h.stored.symm.trans hget)
    exact ⟨{ row with evicted := true, chunks := 0 }, Table.get?_put_self _ _ _, h.said, h.backend,
      fun hnot => by cases hnot⟩
  · refine ⟨row, ?_, h.said, h.backend, fun hnot => ?_⟩
    · exact (Table.get?_put_of_ne hother _ _).trans h.stored
    · exact (chunksOf_dropChunks_of_ne hother).trans (h.chunks hnot)

theorem Keeps.same {s' : Index} {row : ProofRow} (h : s.Keeps epoch m bytes row)
    (hproofs : s'.proofs = s.proofs) (hchunks : s'.proofChunks = s.proofChunks) :
    s'.Keeps epoch m bytes row where
  stored := by rw [hproofs]; exact h.stored
  said := h.said
  backend := h.backend
  chunks hnot := by
    unfold chunksOf
    rw [hchunks]
    exact h.chunks hnot

/-- The tables while an upload is written, before the oldest proofs are given up. -/
def uploaded (epoch : ℤ) (m : ProofMeta) (bytes : List UInt8) (s : Index) : Index :=
  { s.dropChunks epoch with
    proofChunks := (s.dropChunks epoch).proofChunks ++ chunkRows epoch bytes
    proofs := s.proofs.put epoch
      ⟨{ m with bytes := bytes.length }, .inline, (pieces bytes).length, false⟩ }

theorem uploaded_keeps : ∃ row, (s.uploaded epoch m bytes).Keeps epoch m bytes row :=
  ⟨_, Table.get?_put_self _ _ _, rfl, rfl, fun _ =>
    chunksOf_append_chunkRows chunksOf_dropChunks_self⟩

theorem Keeps.uploaded {row : ProofRow} {other : ℤ} (hother : other ≠ epoch)
    (h : s.Keeps epoch m bytes row) (m' : ProofMeta) (bytes' : List UInt8) :
    (s.uploaded other m' bytes').Keeps epoch m bytes row := by
  refine ⟨(Table.get?_put_of_ne hother _ _).trans h.stored, h.said, h.backend, fun hnot => ?_⟩
  refine Eq.trans (chunksOf_append_of_ne hother _) ?_
  exact (chunksOf_dropChunks_of_ne hother).trans (h.chunks hnot)

theorem evict_keeps (hkeys : s.proofs.keys.Nodup) (h : ∃ row, s.Keeps epoch m bytes row) :
    s.evict.1.proofs.keys.Nodup ∧ ∃ row, s.evict.1.Keeps epoch m bytes row := by
  apply evictLoop_invariant (fun s => s.proofs.keys.Nodup ∧ ∃ row, s.Keeps epoch m bytes row) _
    ⟨hkeys, h⟩
  rintro s other gone holdest ⟨hkeys, row, hkeeps⟩
  have hgone := oldestInline_eq_some holdest
  exact ⟨evictEpoch_keys _ gone hkeys, hkeeps.evictEpoch hkeys hgone⟩

theorem evict_keys (hkeys : s.proofs.keys.Nodup) : s.evict.1.proofs.keys.Nodup := by
  apply evictLoop_invariant (fun s => s.proofs.keys.Nodup) _ hkeys
  exact fun s _ row _ hkeys => evictEpoch_keys _ row hkeys

/-! ## What is stored

The total is counted off the rows of the proofs. The pieces that are stored come to the same. -/

/-- The bytes of some pieces. -/
def storedBytes (chunks : Table (ℤ × ℕ) (List UInt8)) : ℕ :=
  chunks.foldr (fun chunk total => chunk.2.length + total) 0

theorem storedBytes_append (chunks chunks' : Table (ℤ × ℕ) (List UInt8)) :
    storedBytes (chunks ++ chunks') = storedBytes chunks + storedBytes chunks' := by
  induction chunks with
  | nil => exact (Nat.zero_add _).symm
  | cons chunk chunks ih =>
      simp only [storedBytes, List.cons_append, List.foldr_cons] at ih ⊢
      omega

theorem storedBytes_eq (chunks : Table (ℤ × ℕ) (List UInt8)) :
    storedBytes chunks = (chunks.map (·.2)).flatten.length := by
  induction chunks with
  | nil => rfl
  | cons chunk chunks ih =>
      rw [List.map_cons, List.flatten_cons, List.length_append, ← ih]
      rfl

/-- The pieces of an upload are its bytes. -/
theorem storedBytes_chunkRows (epoch : ℤ) (bytes : List UInt8) :
    storedBytes (chunkRows epoch bytes) = bytes.length := by
  rw [storedBytes_eq, chunkRows_pieces, pieces_flatten]

theorem storedBytes_dropChunks (s : Index) (epoch : ℤ) :
    storedBytes (s.dropChunks epoch).proofChunks + storedBytes (s.chunksOf epoch) =
      storedBytes s.proofChunks := by
  unfold dropChunks chunksOf
  dsimp only
  induction s.proofChunks with
  | nil => rfl
  | cons chunk chunks ih =>
      by_cases hepoch : chunk.1.1 = epoch
      · rw [List.filter_cons_of_neg (by simpa using hepoch),
          List.filter_cons_of_pos (by simpa using hepoch)]
        simp only [storedBytes, List.foldr_cons] at ih ⊢
        omega
      · rw [List.filter_cons_of_pos (by simpa using hepoch),
          List.filter_cons_of_neg (by simpa using hepoch)]
        simp only [storedBytes, List.foldr_cons] at ih ⊢
        omega

/-- How many bytes a row says are held. -/
def rowBytes (row : ProofRow) : ℕ := if isHeld row then row.bytes else 0

/-- A row counts for its bytes, in place of the row it replaces. -/
theorem bytesOf_put (epoch : ℤ) (row : ProofRow) (rows : Table ℤ ProofRow) :
    bytesOf ((rows.put epoch row).filter fun r => isHeld r.2) +
        (rows.get? epoch).elim 0 rowBytes =
      bytesOf (rows.filter fun r => isHeld r.2) + rowBytes row := by
  have hcons : ∀ (r : ℤ × ProofRow) (rs : List (ℤ × ProofRow)),
      bytesOf ((r :: rs).filter fun r => isHeld r.2) =
        rowBytes r.2 + bytesOf (rs.filter fun r => isHeld r.2) := by
    intro r rs
    by_cases hheld : isHeld r.2 = true
    · rw [List.filter_cons, if_pos hheld, rowBytes, if_pos hheld]
      rfl
    · rw [List.filter_cons, if_neg hheld, rowBytes, if_neg hheld, Nat.zero_add]
  induction rows with
  | nil =>
      rw [Table.put, hcons]
      exact Nat.add_comm _ _
  | cons first rows ih =>
      obtain ⟨other, old⟩ := first
      rw [Table.put, Table.get?]
      split
      · rw [hcons, hcons]
        simp only [Option.elim_some]
        omega
      · rw [hcons, hcons]
        omega

theorem inlineTotal_uploaded (hnew : s.proofs.get? epoch = none) :
    (s.uploaded epoch m bytes).inlineTotal = s.inlineTotal + bytes.length := by
  have hrows := bytesOf_put epoch
    ⟨{ m with bytes := bytes.length }, .inline, (pieces bytes).length, false⟩ s.proofs
  rw [hnew] at hrows
  exact hrows

/-- An upload that fits is all that changes. -/
theorem putProofInline_fits (h : (s.uploaded epoch m bytes).inlineTotal ≤ inlineTotalCap) :
    s.putProofInline epoch m bytes = (s.uploaded epoch m bytes, []) := by
  show (s.uploaded epoch m bytes).evict = _
  unfold evict evictLoop
  rw [if_pos h]

/-- An upload that does not fit gives something up. -/
theorem putProofInline_evicts (hkeys : s.proofs.keys.Nodup)
    (hover : inlineTotalCap < (s.uploaded epoch m bytes).inlineTotal) :
    (s.putProofInline epoch m bytes).2 ≠ [] := by
  intro hnone
  have hleft : (s.uploaded epoch m bytes).evict.1 = s.uploaded epoch m bytes := evictLoop_nil hnone
  have huploaded : (s.uploaded epoch m bytes).proofs.keys.Nodup := Table.nodup_keys_put _ _ hkeys
  have hfit := evict_within huploaded
  rw [hleft] at hfit
  exact absurd hfit (Nat.not_le_of_gt hover)

/-- **The pieces that are stored are those of the rows**: of every epoch as many bytes as its row
says are held, and all in all as many as are counted. -/
structure Accounted (s : Index) : Prop where
  each : ∀ epoch, storedBytes (s.chunksOf epoch) = (s.proofs.get? epoch).elim 0 rowBytes
  total : storedBytes s.proofChunks = s.inlineTotal

theorem Accounted.same {s' : Index} (h : s.Accounted) (hproofs : s'.proofs = s.proofs)
    (hchunks : s'.proofChunks = s.proofChunks) : s'.Accounted := by
  constructor
  · intro epoch
    unfold chunksOf
    rw [hproofs, hchunks]
    exact h.each epoch
  · unfold inlineTotal
    rw [hproofs, hchunks]
    exact h.total

/-- A row is written, and the pieces of its epoch are those it speaks of. -/
theorem Accounted.put {s' : Index} {row : ProofRow} {added : Table (ℤ × ℕ) (List UInt8)}
    (h : s.Accounted) (hproofs : s'.proofs = s.proofs.put epoch row)
    (hchunks : s'.proofChunks = (s.dropChunks epoch).proofChunks ++ added)
    (hadded : ∀ chunk ∈ added, chunk.1.1 = epoch) (hbytes : storedBytes added = rowBytes row) :
    s'.Accounted := by
  constructor
  · intro other
    unfold chunksOf
    rw [hproofs, hchunks, Table.get?_put, List.filter_append]
    by_cases hother : epoch = other
    · subst hother
      have hgone : (s.dropChunks epoch).chunksOf epoch = [] := chunksOf_dropChunks_self
      unfold chunksOf at hgone
      rw [if_pos rfl, hgone, List.nil_append,
        List.filter_eq_self.mpr fun chunk hchunk => decide_eq_true (hadded chunk hchunk)]
      exact hbytes
    · have hleft := chunksOf_dropChunks_of_ne (s := s) hother
      unfold chunksOf at hleft
      have hnone : added.filter (fun chunk => chunk.1.1 = other) = [] := by
        rw [List.filter_eq_nil_iff]
        intro chunk hchunk
        simp [hadded chunk hchunk, hother]
      rw [if_neg hother, hleft, hnone, List.append_nil]
      exact h.each other
  · have hrows := bytesOf_put epoch row s.proofs
    have hdropped := storedBytes_dropChunks s epoch
    rw [h.each epoch, h.total] at hdropped
    have htotal : s'.inlineTotal =
        bytesOf ((s.proofs.put epoch row).filter fun r => isHeld r.2) := by
      rw [inlineTotal_eq, held, hproofs]
    have hbefore : s.inlineTotal = bytesOf (s.proofs.filter fun r => isHeld r.2) := rfl
    rw [hchunks, storedBytes_append, hbytes, htotal]
    omega

theorem Accounted.evictLoop (h : s.Accounted) (turns : ℕ) : (s.evictLoop turns).1.Accounted := by
  refine evictLoop_invariant Accounted ?_ h
  intro s epoch row _ hs
  have hchunks : (s.evictEpoch epoch row).proofChunks = (s.dropChunks epoch).proofChunks ++ [] :=
    (List.append_nil _).symm
  refine hs.put rfl hchunks (fun _ h => by cases h) ?_
  simp [storedBytes, rowBytes, isHeld]

/-! ## What other requests leave alone -/

theorem ingest_proofs (s : Index) (now : ℤ) (body : Json) :
    (s.ingest now body).1.proofs = s.proofs ∧
      (s.ingest now body).1.proofChunks = s.proofChunks := by
  have hlogs := s.ingested_logs now body
  unfold ingest
  dsimp only
  rw [(trim_tables _).2.2.1, (trim_tables _).2.2.2]
  exact ⟨hlogs.proofs, hlogs.proofChunks⟩

theorem reap_proofs (s : Index) (now : ℤ) :
    (s.reap now).1.proofs = s.proofs ∧ (s.reap now).1.proofChunks = s.proofChunks := by
  unfold reap
  split
  · exact ⟨rfl, rfl⟩
  · next highest _ =>
      have hlogs := reapStranded_logs
        { s with kv := { s.kv with highestEpoch := some highest } } highest now
      exact ⟨hlogs.proofs, hlogs.proofChunks⟩

/-- Nothing about other epochs is in what is stored of the bucket's. -/
theorem putProofMeta_proofs (s : Index) (epoch : ℤ) (m : ProofMeta) :
    (s.putProofMeta epoch m).proofs = s.proofs.put epoch ⟨m, .r2, 0, false⟩ ∧
      (s.putProofMeta epoch m).proofChunks = (s.dropChunks epoch).proofChunks := by
  have hland := landProof_quiet
    (dropChunks epoch { s with proofs := s.proofs.put epoch ⟨m, .r2, 0, false⟩ }) epoch m
  exact ⟨hland.proofs, hland.proofChunks⟩

theorem Keeps.putProofMeta {row : ProofRow} {other : ℤ} (hother : other ≠ epoch)
    (h : s.Keeps epoch m bytes row) (m' : ProofMeta) :
    (s.putProofMeta other m').Keeps epoch m bytes row := by
  obtain ⟨hproofs, hchunks⟩ := s.putProofMeta_proofs other m'
  refine ⟨?_, h.said, h.backend, fun hnot => ?_⟩
  · rw [hproofs]
    exact (Table.get?_put_of_ne hother _ _).trans h.stored
  · have hleft := chunksOf_dropChunks_of_ne (s := s) hother
    unfold chunksOf at hleft ⊢
    rw [hchunks, hleft]
    exact h.chunks hnot

theorem sum_filter_le (rows : List (ℤ × ProofRow)) (p : ℤ × ProofRow → Bool) :
    (rows.filter p).foldr (fun row total => row.2.bytes + total) 0 ≤
      rows.foldr (fun row total => row.2.bytes + total) 0 := by
  induction rows with
  | nil => exact Nat.le_refl _
  | cons row rows ih =>
      rw [List.filter_cons]
      split
      · exact Nat.add_le_add_left ih _
      · exact ih.trans (Nat.le_add_left _ _)

end Index

namespace World

variable {w w' : World} {epoch : ℤ} {m : ProofMeta} {bytes : List UInt8}

/-- The rows of proofs, and how many bytes are held. -/
def ProofsFit (s : Index) : Prop :=
  s.proofs.keys.Nodup ∧ s.inlineTotal ≤ inlineTotalCap

theorem proofsFit_event (e : Event) {s : Index} (h : ProofsFit s) : ProofsFit (e.index s) := by
  obtain ⟨hkeys, htotal⟩ := h
  have hsame : ∀ s' : Index, s'.proofs = s.proofs → ProofsFit s' := by
    intro s' hproofs
    unfold ProofsFit Index.inlineTotal
    rw [hproofs]
    exact ⟨hkeys, htotal⟩
  cases e with
  | ingest now body => exact hsame _ (s.ingest_proofs now body).1
  | reap now => exact hsame _ (s.reap_proofs now).1
  | reset => exact ⟨.nil, Nat.zero_le _⟩
  | putProofMeta epoch m =>
      show ProofsFit (s.putProofMeta epoch m)
      unfold ProofsFit Index.inlineTotal
      rw [(s.putProofMeta_proofs epoch m).1]
      refine ⟨Table.nodup_keys_put _ _ hkeys, ?_⟩
      rw [Table.filter_put (by simp [Index.isHeld]) hkeys]
      exact (Index.sum_filter_le _ _).trans htotal
  | putProofInline epoch m bytes =>
      have huploaded : (s.uploaded epoch m bytes).proofs.keys.Nodup :=
        Table.nodup_keys_put _ _ hkeys
      exact ⟨Index.evict_keys huploaded, Index.evict_within huploaded⟩
  | _ => exact hsame _ rfl

theorem reached_fit {meets : World → Event → Prop} (h : Reached World.step meets .start w) :
    ProofsFit w.index := by
  have hstart : ProofsFit Index.empty := ⟨.nil, Nat.zero_le _⟩
  exact index_invariant ProofsFit hstart (fun _ e _ => proofsFit_event e) h

theorem accounted_event (e : Event) {s : Index} (h : s.Accounted) : (e.index s).Accounted := by
  cases e with
  | ingest now body =>
      obtain ⟨hproofs, hchunks⟩ := s.ingest_proofs now body
      exact h.same hproofs hchunks
  | reap now =>
      obtain ⟨hproofs, hchunks⟩ := s.reap_proofs now
      exact h.same hproofs hchunks
  | reset => exact ⟨fun _ => rfl, rfl⟩
  | putProofMeta epoch m =>
      obtain ⟨hproofs, hchunks⟩ := s.putProofMeta_proofs epoch m
      refine h.put hproofs (hchunks.trans (List.append_nil _).symm) (fun _ h => by cases h) ?_
      simp [Index.storedBytes, Index.rowBytes, Index.isHeld]
  | putProofInline epoch m bytes =>
      have huploaded : (s.uploaded epoch m bytes).Accounted := by
        refine h.put rfl rfl (fun _ hchunk => Index.chunkRows_epoch hchunk) ?_
        rw [Index.storedBytes_chunkRows]
        simp [Index.rowBytes, Index.isHeld]
      exact huploaded.evictLoop _
  | _ => exact h.same rfl rfl

theorem accounted_of_reached {meets : World → Event → Prop}
    (h : Reached World.step meets .start w) : w.index.Accounted := by
  have hstart : Index.Accounted Index.empty := ⟨fun _ => rfl, rfl⟩
  exact index_invariant Index.Accounted hstart (fun _ e _ => accounted_event e) h

/-- The pieces that are stored are within the cap. -/
theorem stored_within {meets : World → Event → Prop} (h : Reached World.step meets .start w) :
    Index.storedBytes w.index.proofChunks ≤ inlineTotalCap := by
  rw [(accounted_of_reached h).total]
  exact (reached_fit h).2

/-- **Within the cap, the oldest first**: in every state the pieces that are stored fit, and an
upload gives up only proofs older than all that are still held, and no more of them than it must. -/
theorem evicts_oldest (h : Reached World.step Keyed .start w)
    (hkeyed : Keyed w (.putProofInline epoch m bytes))
    (hput : World.step w (.putProofInline epoch m bytes) = some w') :
    Index.storedBytes w.index.proofChunks ≤ inlineTotalCap ∧
      Index.storedBytes w'.index.proofChunks ≤ inlineTotalCap ∧
        Index.Oldest (w.index.uploaded epoch m bytes) w'.index
          (w.index.putProofInline epoch m bytes).2 := by
  refine ⟨stored_within h, stored_within (h.step hkeyed hput), ?_⟩
  obtain ⟨hkeys, -⟩ := reached_fit h
  rw [step_index hput]
  exact Index.evictLoop_oldest (Table.nodup_keys_put _ _ hkeys)

/-! ### An upload that is one too many -/

/-- Uploads of one size, each for the next epoch, as long as they fit. -/
theorem filled (m : ProofMeta) {bytes : List UInt8} : ∀ n : ℕ, n < 4294967296 →
    n * bytes.length ≤ inlineTotalCap → ∃ w, Reached World.step Keyed .start w ∧
      w.index.inlineTotal = n * bytes.length ∧
        ∀ epoch : ℤ, n ≤ epoch → w.index.proofs.get? epoch = none := by
  intro n
  induction n with
  | zero => exact fun _ _ => ⟨.start, .start, (Nat.zero_mul _).symm, fun _ _ => rfl⟩
  | succ n ih =>
      intro hn hfits
      have hfewer : n * bytes.length ≤ (n + 1) * bytes.length :=
        Nat.mul_le_mul_right _ (Nat.le_succ n)
      obtain ⟨w, hrun, htotal, hnew⟩ := ih (Nat.lt_of_succ_lt hn) (hfewer.trans hfits)
      have huploaded : (w.index.uploaded n m bytes).inlineTotal = (n + 1) * bytes.length := by
        rw [Index.inlineTotal_uploaded (hnew n (Int.le_refl _)), htotal, ← Nat.succ_mul]
      have hput := Index.putProofInline_fits (huploaded.trans_le hfits)
      have hkeyed : Keyed w (.putProofInline n m bytes) := by
        constructor <;> omega
      refine ⟨_, hrun.step hkeyed rfl, ?_, fun epoch hepoch => ?_⟩
      · show (w.index.putProofInline n m bytes).1.inlineTotal = _
        rw [hput, huploaded]
      · show (w.index.putProofInline n m bytes).1.proofs.get? epoch = none
        rw [hput]
        have hne : (n : ℤ) ≠ epoch := by omega
        exact (Table.get?_put_of_ne hne _ _).trans (hnew epoch (by omega))

/-- 128 proofs of 8 MiB are all that fits, and one more is uploaded. -/
theorem evicts_oldest_full : ∃ w w', Reached World.step Keyed .start w ∧
    World.step w (.putProofInline 128 ⟨0, "", none, none, none⟩
      (List.replicate (8 * 1024 * 1024) 0)) = some w' ∧
    (w.index.putProofInline 128 ⟨0, "", none, none, none⟩
      (List.replicate (8 * 1024 * 1024) 0)).2 ≠ [] ∧
    Index.storedBytes w'.index.proofChunks ≤ inlineTotalCap := by
  generalize hbytes : List.replicate (8 * 1024 * 1024) (0 : UInt8) = bytes
  have hlength : bytes.length = 8 * 1024 * 1024 := by rw [← hbytes, List.length_replicate]
  have hcap : 128 * bytes.length = inlineTotalCap := by rw [hlength, inlineTotalCap]
  obtain ⟨w, hrun, htotal, hnew⟩ :=
    filled ⟨0, "", none, none, none⟩ 128 (by decide) (Nat.le_of_eq hcap)
  have hkeyed : Keyed w (.putProofInline 128 ⟨0, "", none, none, none⟩ bytes) := by
    constructor <;> omega
  obtain ⟨-, hwithin, -⟩ := evicts_oldest hrun hkeyed rfl
  refine ⟨w, _, hrun, rfl, Index.putProofInline_evicts (reached_fit hrun).1 ?_, hwithin⟩
  rw [Index.inlineTotal_uploaded (hnew 128 (Int.le_refl _)), htotal, hcap, hlength]
  omega

/-- No proof of this epoch comes, and the tables are not dropped. -/
def Leaves (epoch : ℤ) (_ : World) : Event → Prop
  | .reset => False
  | .putProofMeta other _ => other ≠ epoch
  | .putProofInline other _ _ => other ≠ epoch
  | _ => True

instance decidableLeaves (epoch : ℤ) (w : World) (e : Event) : Decidable (Leaves epoch w e) :=
  match e with
  | .reset => .isFalse id
  | .putProofMeta other _ | .putProofInline other _ _ => inferInstanceAs (Decidable (other ≠ epoch))
  | .ingest _ _ | .reap _ | .restart | .join | .live _ _ _ | .deliver _ | .abort _ =>
      .isTrue trivial

theorem keeps_event {e : Event} {s : Index} (hkeys : s.proofs.keys.Nodup)
    (h : ∃ row, s.Keeps epoch m bytes row) (hleaves : Leaves epoch w e) :
    ∃ row, (e.index s).Keeps epoch m bytes row := by
  obtain ⟨row, hrow⟩ := h
  cases e with
  | ingest now body =>
      obtain ⟨hproofs, hchunks⟩ := s.ingest_proofs now body
      exact ⟨row, hrow.same hproofs hchunks⟩
  | reap now =>
      obtain ⟨hproofs, hchunks⟩ := s.reap_proofs now
      exact ⟨row, hrow.same hproofs hchunks⟩
  | reset => exact absurd hleaves id
  | putProofMeta other m' => exact ⟨row, hrow.putProofMeta hleaves m'⟩
  | putProofInline other m' bytes' =>
      exact (Index.evict_keeps (Table.nodup_keys_put _ _ hkeys)
        ⟨row, hrow.uploaded hleaves m' bytes'⟩).2
  | _ => exact ⟨row, hrow.same rfl rfl⟩

/-- **What was put is got back**, or the row says that it is gone: after whatever else happens, as
long as every request is served whole, no other proof of the epoch comes and the tables are not
dropped. -/
theorem put_back_or_gone (h : Reached World.step Keyed .start w) {uploaded : World}
    (hkeyed : Keyed w (.putProofInline epoch m bytes))
    (hput : World.step w (.putProofInline epoch m bytes) = some uploaded)
    (hrun : Reached World.step (fun w e => Keyed w e ∧ Leaves epoch w e) uploaded w') :
    ∃ row, w'.index.proofMeta epoch = some row ∧
      row.toProofMeta = { m with bytes := bytes.length } ∧
        w'.index.proofBody epoch = if row.evicted then none else some bytes := by
  have hfit := reached_fit h
  have hkeeps : ∃ row, uploaded.index.Keeps epoch m bytes row := by
    rw [step_index hput]
    exact (Index.evict_keeps (Table.nodup_keys_put _ _ hfit.1) Index.uploaded_keeps).2
  have hstart := reached_fit (h.step hkeyed hput)
  have hevent : ∀ w e, Keyed w e ∧ Leaves epoch w e →
      (ProofsFit w.index ∧ ∃ row, w.index.Keeps epoch m bytes row) →
        ProofsFit (e.index w.index) ∧ ∃ row, (e.index w.index).Keeps epoch m bytes row := by
    rintro w e ⟨-, hleaves⟩ ⟨hfit, hkeeps⟩
    exact ⟨proofsFit_event e hfit, keeps_event hfit.1 hkeeps hleaves⟩
  obtain ⟨-, row, hrow⟩ := index_invariant
    (fun s => ProofsFit s ∧ ∃ row, s.Keeps epoch m bytes row) ⟨hstart, hkeeps⟩ hevent hrun
  exact ⟨row, hrow.stored, hrow.said, hrow.body⟩

theorem put_back_or_gone_held : ∃ w,
    run World.step (fun w e => Keyed w e ∧ Leaves 7 w e)
      { World.start with
        index := (Index.empty.putProofInline 7 ⟨0, "", none, none, none⟩ [1, 2, 3]).1 }
      [.putProofInline 8 ⟨0, "", none, none, none⟩ [4], .restart,
        .ingest 5 (Formal.post "epoch.opened" 1 7), .reap 6] = some w ∧
    w.index.proofBody 7 = some [1, 2, 3] := by
  obtain ⟨w, hrun, hheld⟩ : ∃ w,
      run World.step (fun w e => Keyed w e ∧ Leaves 7 w e)
        { World.start with
          index := (Index.empty.putProofInline 7 ⟨0, "", none, none, none⟩ [1, 2, 3]).1 }
        [.putProofInline 8 ⟨0, "", none, none, none⟩ [4], .restart,
          .ingest 5 (Formal.post "epoch.opened" 1 7), .reap 6] = some w ∧
      (w.index.proofMeta 7).map (·.evicted) = some false := by decide +kernel
  have hkeyed : Keyed .start (.putProofInline 7 ⟨0, "", none, none, none⟩ [1, 2, 3]) := by
    decide
  obtain ⟨row, hrow, -, hbody⟩ := put_back_or_gone .start hkeyed rfl (.of_run hrun)
  rw [hrow] at hheld
  refine ⟨w, hrun, ?_⟩
  have hevicted : row.evicted = false := Option.some.inj hheld
  rw [hbody, hevicted]
  rfl

end World

end Zkasper.Api
