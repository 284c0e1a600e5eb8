import Zkasper.Api.Epochs
import Zkasper.Api.Spool

/-! # Epochs left open

A sweep goes through the epochs that were open when it began, lowest first, and gives up each of
them that is stranded. What it comes to is said of every epoch by itself (`sweep_exact`): a
stranded one is marked, and no other changes. A second sweep finds nothing (`sweep_again`). -/

namespace Zkasper.Api

open Library Transition

namespace Index

variable {s : Index} {epoch : ℤ}

/-! ## One row an epoch -/

/-- No epoch has two rows. -/
def OneRow (s : Index) : Prop := s.epochs.keys.Nodup

theorem OneRow.touchEpoch (h : s.OneRow) (epoch : ℤ) : (s.touchEpoch epoch).OneRow := by
  unfold Index.touchEpoch
  split
  · exact h
  · exact Table.nodup_keys_put _ _ h

theorem OneRow.setEpoch (h : s.OneRow) (epoch : ℤ) (patch : List (Column × Option Json)) :
    (s.setEpoch epoch patch).OneRow := Table.nodup_keys_put _ _ (h.touchEpoch epoch)

theorem OneRow.same {s' : Index} (h : s.OneRow) (hepochs : s'.epochs = s.epochs) : s'.OneRow := by
  unfold OneRow
  rw [hepochs]
  exact h

theorem OneRow.apply (h : s.OneRow) (now : ℤ) (type : String) (d : Json) :
    (s.apply now type d).OneRow := by
  unfold Index.apply
  split
  · split
    · split
      · exact h
      · exact h
    · exact h
  · unfold applyOpened
    dsimp only
    split
    · exact h.setEpoch _ _
    · exact (h.setEpoch _ _).setEpoch _ _
  · split
    · exact h.touchEpoch _
    · exact h
  · split
    · exact h.touchEpoch _
    · exact h
  · exact h.setEpoch _ _
  · exact h.setEpoch _ _
  · exact h.setEpoch _ _
  · exact h.setEpoch _ _
  · exact h.setEpoch _ _
  · exact h

theorem OneRow.landProof (h : s.OneRow) (epoch : ℤ) (m : ProofMeta) :
    (s.landProof epoch m).OneRow := by
  unfold Index.landProof
  split
  · exact h
  · dsimp only
    exact h.setEpoch _ _

theorem OneRow.ingested (h : s.OneRow) (now : ℤ) (body : Json) :
    (s.ingested now body).1.OneRow := by
  refine ingested_epochs OneRow.same (fun s epoch hs => hs.setEpoch epoch _) ?_ h
  intro s ev type streamSeq _ _ hs
  exact hs.apply _ _ _

/-! ## A sweep, epoch by epoch -/

theorem setEpoch_get? (s : Index) (epoch : ℤ) (patch : List (Column × Option Json)) (other : ℤ) :
    (s.setEpoch epoch patch).epochs.get? other =
      if epoch = other then some (patched (s.rowOf epoch) patch) else s.epochs.get? other := by
  have hsame := s.touchEpoch_rowOf epoch
  unfold rowOf at hsame ⊢
  unfold setEpoch
  rw [Table.get?_put, hsame]
  by_cases hother : epoch = other
  · rw [if_pos hother, if_pos hother]
  · rw [if_neg hother, if_neg hother]
    unfold touchEpoch
    split
    · rfl
    · exact Table.get?_put_of_ne hother _ _

/-- A row, given up if it is stranded. -/
def swept (highest : ℤ) (current : Option ℤ) (epoch : ℤ) (row : EpochRow) : EpochRow :=
  if isStranded (row .status) epoch highest current then
    patched row [(.status, some (.str "stranded"))]
  else row

theorem reapEpoch_get? (highest now : ℤ) (current : Option ℤ) (acc : Index × List (Entry × ℕ))
    {row : ℤ × Json} {old : EpochRow} (hold : acc.1.epochs.get? row.1 = some old)
    (hstatus : old .status = row.2) (other : ℤ) :
    (reapEpoch highest now current acc row).1.epochs.get? other =
      if row.1 = other then some (swept highest current row.1 old)
      else acc.1.epochs.get? other := by
  have hrow : acc.1.rowOf row.1 = old := by
    unfold rowOf
    rw [hold]
    rfl
  unfold reapEpoch swept
  dsimp only
  rw [hstatus]
  split
  · rw [(record_tables _ _ _ _ _ _).2, setEpoch_get?, hrow]
  · by_cases hother : row.1 = other
    · rw [if_pos hother, ← hother, hold]
    · rw [if_neg hother]

/-- The epochs that are swept, each once. -/
theorem foldl_reapEpoch_get? (highest now : ℤ) (current : Option ℤ) (rows : List (ℤ × Json)) :
    ∀ acc : Index × List (Entry × ℕ), (rows.map (·.1)).Nodup →
      (∀ row ∈ rows, ∃ old, acc.1.epochs.get? row.1 = some old ∧ old .status = row.2) →
        ∀ epoch, (rows.foldl (reapEpoch highest now current) acc).1.epochs.get? epoch =
          if epoch ∈ rows.map (·.1) then (acc.1.epochs.get? epoch).map (swept highest current epoch)
          else acc.1.epochs.get? epoch := by
  induction rows with
  | nil => exact fun _ _ _ _ => rfl
  | cons row rows ih =>
      intro acc hnodup hrows epoch
      obtain ⟨hnew, hrest⟩ := List.nodup_cons.mp hnodup
      obtain ⟨⟨old, hold, hstatus⟩, hothers⟩ := List.forall_mem_cons.mp hrows
      have hstep := reapEpoch_get? highest now current acc hold hstatus
      have hkept : ∀ other ∈ rows, ∃ old,
          (reapEpoch highest now current acc row).1.epochs.get? other.1 = some old ∧
            old .status = other.2 := by
        intro other hother
        have hne : row.1 ≠ other.1 := by
          intro hsame
          have hmem := List.mem_map_of_mem (f := Prod.fst) hother
          rw [← hsame] at hmem
          exact hnew hmem
        rw [hstep, if_neg hne]
        exact hothers other hother
      rw [List.foldl_cons, ih _ hrest hkept, hstep, List.map_cons]
      by_cases hepoch : row.1 = epoch
      · subst hepoch
        rw [if_neg hnew, if_pos rfl, if_pos List.mem_cons_self, hold]
        rfl
      · rw [if_neg hepoch]
        have hmem : epoch ∈ row.1 :: rows.map (·.1) ↔ epoch ∈ rows.map (·.1) := by
          rw [List.mem_cons]
          exact or_iff_right (Ne.symm hepoch)
        simp only [hmem]

/-- Whether an epoch is open is read off its row. -/
theorem mem_openBelow {highest : ℤ} {row : ℤ × Json} : row ∈ s.openBelow highest ↔
    ∃ old, (row.1, old) ∈ s.epochs ∧ old .status = row.2 ∧ row.2 = .str "proving" ∧
      row.1 < highest := by
  unfold openBelow
  rw [List.mem_insertionSort, List.mem_map]
  constructor
  · rintro ⟨⟨epoch, old⟩, hmem, rfl⟩
    obtain ⟨hmem, hopen⟩ := List.mem_filter.mp hmem
    dsimp only at hopen
    split at hopen
    · next status hstatus =>
        rw [Bool.and_eq_true, decide_eq_true_eq, decide_eq_true_eq] at hopen
        have hproving : old .status = .str "proving" := by rw [hstatus, hopen.1]
        exact ⟨old, hmem, rfl, hproving, hopen.2⟩
    · cases hopen
  · rintro ⟨old, hmem, hstatus, hproving, hlt⟩
    refine ⟨(row.1, old), List.mem_filter.mpr ⟨hmem, ?_⟩, Prod.ext rfl hstatus⟩
    dsimp only
    rw [hstatus, hproving]
    simp [hlt]

theorem swept_of_open {highest : ℤ} {current : Option ℤ} {row : EpochRow}
    (h : isStranded (row .status) epoch highest current = true) :
    row .status = .str "proving" ∧ epoch < highest := by
  refine ⟨?_, lt_of_isStranded h⟩
  unfold isStranded at h
  split at h
  · cases h
  · split at h
    · next status hstatus =>
        rw [Bool.and_eq_true, decide_eq_true_eq] at h
        rw [hstatus, h.1]
    · cases h

/-- **A sweep, epoch by epoch.** -/
theorem reapStranded_get? (h : s.OneRow) (highest now epoch : ℤ) :
    (s.reapStranded highest now).1.epochs.get? epoch =
      (s.epochs.get? epoch).map (swept highest s.currentEpoch epoch) := by
  have hnodup : ((s.openBelow highest).map (·.1)).Nodup := by
    unfold openBelow
    refine ((List.perm_insertionSort _ _).map _).nodup_iff.mpr ?_
    rw [List.map_map]
    exact h.sublist (List.filter_sublist.map _)
  have hrows : ∀ row ∈ s.openBelow highest, ∃ old, s.epochs.get? row.1 = some old ∧
      old .status = row.2 := by
    intro row hrow
    obtain ⟨old, hmem, hstatus, -⟩ := mem_openBelow.mp hrow
    exact ⟨old, Table.get?_of_mem h hmem, hstatus⟩
  unfold reapStranded
  rw [foldl_reapEpoch_get? highest now s.currentEpoch _ (s, []) hnodup hrows]
  split
  · rfl
  · next hclosed =>
      cases hrow : s.epochs.get? epoch with
      | none => rfl
      | some row =>
          have hkept : ¬ isStranded (row .status) epoch highest s.currentEpoch = true := by
            intro hstranded
            obtain ⟨hproving, hlt⟩ := swept_of_open hstranded
            apply hclosed
            have hopen : (epoch, row .status) ∈ s.openBelow highest :=
              mem_openBelow.mpr ⟨row, Table.mem_of_get? hrow, rfl, hproving, hlt⟩
            exact List.mem_map_of_mem (f := Prod.fst) hopen
          rw [Option.map_some, swept, if_neg hkept]

/-! ## A sweep after a sweep -/

/-- An epoch that was given up is not stranded any more. -/
theorem not_stranded_swept (highest : ℤ) (current : Option ℤ) (epoch : ℤ) (row : EpochRow) :
    ¬ isStranded (swept highest current epoch row .status) epoch highest current = true := by
  unfold swept
  split
  · intro hstranded
    obtain ⟨hproving, -⟩ := swept_of_open hstranded
    have hgiven : patched row [(.status, some (.str "stranded"))] .status = .str "stranded" := rfl
    rw [hgiven] at hproving
    simp at hproving
  · assumption

/-- Nothing is given up where nothing is stranded. -/
theorem reapStranded_none {highest : ℤ}
    (h : ∀ row ∈ s.openBelow highest, ¬ isStranded row.2 row.1 highest s.currentEpoch = true)
    (now : ℤ) : s.reapStranded highest now = (s, []) := by
  have hfold : ∀ (rows : List (ℤ × Json)),
      (∀ row ∈ rows, ¬ isStranded row.2 row.1 highest s.currentEpoch = true) →
        rows.foldl (reapEpoch highest now s.currentEpoch) (s, []) = (s, []) := by
    intro rows
    induction rows with
    | nil => exact fun _ => rfl
    | cons row rows ih =>
        intro hrows
        obtain ⟨hrow, hrest⟩ := List.forall_mem_cons.mp hrows
        have hstep : reapEpoch highest now s.currentEpoch (s, []) row = (s, []) := by
          unfold reapEpoch
          dsimp only
          rw [if_neg hrow]
        rw [List.foldl_cons, hstep]
        exact ih hrest
  exact hfold _ h

theorem reapStranded_kv {highest : ℤ} (h : s.highestEpoch = some highest) (now : ℤ) :
    (s.reapStranded highest now).1.kv = s.kv :=
  (reapStranded_below now ((below_highest _ h).2 highest rfl)).1

theorem reapStranded_highestEpoch (h : s.OneRow) {highest : ℤ}
    (hhighest : s.highestEpoch = some highest) (now : ℤ) :
    (s.reapStranded highest now).1.highestEpoch = some highest := by
  have hkeys : ∀ epoch, epoch ∈ (s.reapStranded highest now).1.epochs.keys ↔
      epoch ∈ s.epochs.keys := by
    intro epoch
    rw [← Table.get?_isSome_iff, ← Table.get?_isSome_iff, reapStranded_get? h, Option.isSome_map]
  obtain ⟨hmem, hmax⟩ := List.max?_eq_some_iff.mp hhighest
  exact List.max?_eq_some_iff.mpr
    ⟨(hkeys highest).mpr hmem, fun epoch hepoch => hmax epoch ((hkeys epoch).mp hepoch)⟩

/-- What a sweep leaves open is not stranded. -/
theorem reapStranded_again (h : s.OneRow) {s' : Index} {highest now : ℤ}
    (hepochs : s'.epochs = (s.reapStranded highest now).1.epochs)
    (hcurrent : s'.currentEpoch = s.currentEpoch) (now' : ℤ) :
    s'.reapStranded highest now' = (s', []) := by
  have hrows : s'.OneRow :=
    (reapStranded_epochs OneRow.same (fun s epoch hs => hs.setEpoch epoch _) h highest now).same
      hepochs
  apply reapStranded_none
  intro row hrow
  obtain ⟨old, hmem, hstatus, -⟩ := mem_openBelow.mp hrow
  have hold := Table.get?_of_mem hrows hmem
  rw [hepochs, reapStranded_get? h, Option.map_eq_some_iff] at hold
  obtain ⟨before, -, rfl⟩ := hold
  rw [hcurrent, ← hstatus]
  exact not_stranded_swept highest _ row.1 before

/-- **A sweep after a sweep** finds nothing. -/
theorem reap_again (h : s.OneRow) (now now' : ℤ) :
    (s.reap now).1.reap now' = ((s.reap now).1, []) := by
  cases hhighest : s.highestEpoch with
  | none =>
      have hnone : ∀ now, s.reap now = (s, []) := by
        intro now
        unfold reap
        rw [hhighest]
      rw [hnone, hnone]
  | some highest =>
      let marked : Index := { s with kv := { s.kv with highestEpoch := some highest } }
      have hone : marked.OneRow := h
      have hmarked : marked.highestEpoch = some highest := hhighest
      have hkv := reapStranded_kv hmarked now
      have htop := reapStranded_highestEpoch hone hmarked now
      have hagain := fun (s' : Index)
          (hepochs : s'.epochs = (marked.reapStranded highest now).1.epochs) =>
        reapStranded_again hone hepochs
      have hreap : (s.reap now).1 = { (marked.reapStranded highest now).1 with
          kv := { (marked.reapStranded highest now).1.kv with
            streamSeq := some ((marked.reapStranded highest now).1.nextSeq - 1) } } := by
        unfold reap
        rw [hhighest]
      generalize (marked.reapStranded highest now).1 = after at hkv htop hagain hreap
      generalize s.reap now = done at hreap ⊢
      -- the marks of the first sweep are the marks of the second
      have hmark :
          { done.1 with kv := { done.1.kv with highestEpoch := some highest } } = done.1 := by
        have hkept : after.kv.highestEpoch = some highest := by rw [hkv]
        rw [hreap, ← hkept]
      have hnext : done.1.highestEpoch = some highest := by
        rw [hreap]
        exact htop
      have hcurrent : done.1.currentEpoch = marked.currentEpoch := by
        unfold currentEpoch
        rw [hreap, hkv]
      have hnone := hagain done.1 (by rw [hreap]) hcurrent now'
      unfold reap
      rw [hnext]
      dsimp only
      rw [hmark, hnone, hreap]

end Index

namespace World

variable {w w' : World}

theorem oneRow_event (e : Event) {s : Index} (h : s.OneRow) : (e.index s).OneRow := by
  cases e with
  | ingest now body => exact Index.OneRow.same (h.ingested now body) (Index.trim_tables _).2.1
  | reap now =>
      exact Index.reap_epochs Index.OneRow.same (fun s epoch hs => hs.setEpoch epoch _) h now
  | reset => exact .nil
  | putProofMeta epoch m =>
      exact Index.OneRow.landProof (s := Index.dropChunks epoch { s with
        proofs := s.proofs.put epoch ⟨m, .r2, 0, false⟩ }) h epoch m
  | putProofInline epoch m bytes => exact Index.OneRow.same h (Index.evictLoop_tables _ _).2
  | _ => exact h

theorem reached_oneRow (h : Reached World.step always .start w) : w.index.OneRow := by
  have hstart : Index.OneRow World.start.index := .nil
  exact index_invariant Index.OneRow hstart (fun _ e _ => oneRow_event e) h

/-- **What a sweep comes to**, in every state: a stranded epoch is marked, and no other changes. -/
theorem sweep_exact (h : Reached World.step always .start w) {now highest : ℤ}
    (hhighest : w.index.highestEpoch = some highest)
    (hstep : World.step w (.reap now) = some w') (epoch : ℤ) :
    w'.index.epochs.get? epoch =
      (w.index.epochs.get? epoch).map (Index.swept highest w.index.currentEpoch epoch) := by
  have hone := reached_oneRow h
  rw [step_index hstep]
  show (w.index.reap now).1.epochs.get? epoch = _
  unfold Index.reap
  rw [hhighest]
  exact Index.reapStranded_get? (s := { w.index with
    kv := { w.index.kv with highestEpoch := some highest } }) hone highest now epoch

/-- An epoch is opened below one that is there already. -/
theorem sweep_exact_older : ∃ w w', run World.step always .start
      [.ingest 1 (Formal.post "epoch.opened" 1 9), .ingest 2 (Formal.post "epoch.opened" 2 5)] =
        some w ∧
    w.step (.reap 3) = some w' ∧ str (w'.index.column 5 .status) = some "stranded" ∧
      w'.index.epochs.get? 5 =
        (w.index.epochs.get? 5).map (Index.swept 9 w.index.currentEpoch 5) := by
  obtain ⟨w, hrun, hhighest, hstatus⟩ : ∃ w, run World.step always .start
      [.ingest 1 (Formal.post "epoch.opened" 1 9), .ingest 2 (Formal.post "epoch.opened" 2 5)] =
        some w ∧
      w.index.highestEpoch = some 9 ∧
        str ((w.index.reap 3).1.column 5 .status) = some "stranded" := by decide +kernel
  exact ⟨w, _, hrun, rfl, hstatus, sweep_exact (.of_run hrun) hhighest rfl 5⟩

/-- **A sweep again** changes nothing and tells nobody anything. -/
theorem sweep_again (h : Reached World.step always .start w) {now : ℤ}
    (hstep : World.step w (.reap now) = some w') (now' : ℤ) :
    World.step w' (.reap now') = some w' := by
  have hindex : w'.index = (w.index.reap now).1 := step_index hstep
  have hagain := Index.reap_again (reached_oneRow h) now now'
  rw [← hindex] at hagain
  show some (w'.broadcast (w'.index.reap now').1 (w'.index.reap now').2) = some w'
  rw [hagain, broadcast_nil]

/-- The epoch that was given up is not given up again. -/
theorem sweep_again_older : ∃ w w', run World.step always .start
      [.ingest 1 (Formal.post "epoch.opened" 1 9), .ingest 2 (Formal.post "epoch.opened" 2 5)] =
        some w ∧
    w.step (.reap 3) = some w' ∧ str (w'.index.column 5 .status) = some "stranded" ∧
      w'.step (.reap 4) = some w' := by
  obtain ⟨w, hrun, hstatus⟩ : ∃ w, run World.step always .start
      [.ingest 1 (Formal.post "epoch.opened" 1 9), .ingest 2 (Formal.post "epoch.opened" 2 5)] =
        some w ∧ str ((w.index.reap 3).1.column 5 .status) = some "stranded" := by decide +kernel
  exact ⟨w, _, hrun, rfl, hstatus, sweep_again (.of_run hrun) rfl 4⟩

end World

end Zkasper.Api
