import Zkasper.Api.Live

/-! # What an epoch is said to be

A record that says `proven` is one whose proof a consumer can fetch (`proven_available`): whatever
order the events of an epoch come in, and whenever the bytes of its proof are uploaded. The one
thing asked of a daemon is that a closing summary which carries a proof says a status: one that
says none changes the proof, and is not looked at again.

The bytes of such a proof are here, or a daemon that asks where to resume from is told that they
are missing (`proven_held_or_missing`), so that it can send them again. -/

namespace Zkasper.Api

open Library Transition

/-! ## Fields -/

namespace Json

variable {fields : List (String × Json)} {key other : String} {value : Json}

/-- The value under a name. -/
def lookup (key : String) (fields : List (String × Json)) : Option Json :=
  (fields.find? fun field => field.1 = key).map (·.2)

theorem lookup_cons (field : String × Json) :
    lookup key (field :: fields) = if field.1 = key then some field.2 else lookup key fields := by
  unfold lookup
  by_cases h : field.1 = key <;> simp [h]

theorem lookup_setField : lookup key (setField other value fields) =
    if other = key then some value else lookup key fields := by
  induction fields with
  | nil => simp [setField, lookup_cons]
  | cons field fields ih =>
      unfold setField
      split
      · next hsame =>
          rw [lookup_cons, lookup_cons, hsame]
          split <;> rfl
      · next hother =>
          rw [lookup_cons, lookup_cons, ih]
          by_cases h : field.1 = key
          · have hne : other ≠ key := fun hkey => hother (h.trans hkey.symm)
            rw [if_pos h, if_pos h, if_neg hne]
          · rw [if_neg h, if_neg h]

theorem lookup_erase (h : other ≠ key) :
    lookup key (fields.filter fun field => field.1 ≠ other) = lookup key fields := by
  induction fields with
  | nil => rfl
  | cons field fields ih =>
      by_cases hfield : field.1 = other
      · rw [List.filter_cons_of_neg (by simpa using hfield), lookup_cons,
          if_neg (by rw [hfield]; exact h), ih]
      · rw [List.filter_cons_of_pos (by simpa using hfield), lookup_cons, lookup_cons, ih]

theorem lookup_eq_none (h : key ∉ fields.map (·.1)) : lookup key fields = none := by
  induction fields with
  | nil => rfl
  | cons field fields ih =>
      rw [List.map_cons, List.mem_cons, not_or] at h
      rw [lookup_cons, if_neg (Ne.symm h.1), ih h.2]

/-- What is written over an object is what is read. -/
theorem get?_spread (d : Json) {v : Json} (h : (v.fields.map (·.1)).Nodup) (key : String) :
    (d.spread v).get? key = (v.get? key).or (d.get? key) := by
  have hfold : ∀ (news olds : List (String × Json)), (news.map (·.1)).Nodup →
      lookup key (news.foldl (fun fields field => setField field.1 field.2 fields) olds) =
        (lookup key news).or (lookup key olds) := by
    intro news
    induction news with
    | nil => exact fun _ _ => rfl
    | cons field news ih =>
        intro olds hnodup
        obtain ⟨hnew, hrest⟩ := List.nodup_cons.mp hnodup
        rw [List.foldl_cons, ih _ hrest, lookup_setField, lookup_cons]
        split
        · next hsame =>
            rw [lookup_eq_none (hsame ▸ hnew)]
            rfl
        · rfl
  exact hfold v.fields d.fields h

end Json

/-- Whether a proof is available depends on two of its fields. -/
theorem proofAvailable_congr {p p' : Json} (havailable : p'.get? "available" = p.get? "available")
    (hbytes : p'.get? "bytes" = p.get? "bytes") :
    proofAvailable (some p') = proofAvailable (some p) := by
  unfold proofAvailable
  dsimp only
  rw [havailable, hbytes]

theorem isRecord_of_available {p : Json} (h : proofAvailable (some p) = true) : p.isRecord := by
  cases p with
  | obj fields => rfl
  | _ => simp [proofAvailable, Json.get?, Json.fields] at h

/-- What is available is written over what is there. -/
theorem available_spread (d : Json) {v : Json} (hnames : (v.fields.map (·.1)).Nodup)
    (h : proofAvailable (some v) = true) : proofAvailable (some (d.spread v)) = true := by
  have hfields : ∃ b n, v.get? "available" = some b ∧ v.get? "bytes" = some n := by
    unfold proofAvailable at h
    cases havailable : v.get? "available" with
    | none => simp [havailable] at h
    | some b =>
        cases hbytes : v.get? "bytes" with
        | none => simp [havailable, hbytes, num] at h
        | some n => exact ⟨b, n, rfl, rfl⟩
  obtain ⟨b, n, havailable, hbytes⟩ := hfields
  rw [proofAvailable_congr (p := v), h]
  · rw [Json.get?_spread d hnames, havailable]
    rfl
  · rw [Json.get?_spread d hnames, hbytes]
    rfl

/-- What is stored as `proven` is available. -/
theorem available_of_statusForProof {declared proof : Option Json}
    (h : statusForProof declared proof = some "proven") : proofAvailable proof = true := by
  obtain ⟨status, -, hverdict⟩ := Option.map_eq_some_iff.mp h
  split at hverdict
  · next hother => exact absurd hverdict hother
  · split at hverdict
    · assumption
    · exact absurd hverdict (by decide)

theorem eq_some_of_defined {v : Option Json} {value : Json} (h : defined v = some value) :
    v = some value := by
  unfold defined at h
  split at h
  · cases h
  · cases h
  · exact h

namespace Index

variable {s : Index} {epoch : ℤ}

/-! ## Rows -/

/-- A row that says `proven` says where its proof is. -/
def Backed (row : EpochRow) : Prop :=
  row .status = .str "proven" → proofAvailable (defined (row .proof)) = true

/-- Every row does. -/
def Proven (s : Index) : Prop := ∀ epoch row, s.epochs.get? epoch = some row → Backed row

/-- The row of an epoch, a new one if there is none. -/
def rowOf (s : Index) (epoch : ℤ) : EpochRow := (s.epochs.get? epoch).getD newEpoch

theorem backed_newEpoch : Backed newEpoch := by
  intro h
  simp [newEpoch] at h

theorem Proven.rowOf (h : s.Proven) (epoch : ℤ) : Backed (s.rowOf epoch) := by
  unfold Index.rowOf
  cases hrow : s.epochs.get? epoch with
  | none => exact backed_newEpoch
  | some row => exact h epoch row hrow

theorem column_proof (s : Index) (epoch : ℤ) :
    s.column epoch .proof = defined (s.rowOf epoch .proof) := by
  unfold column rowOf
  cases s.epochs.get? epoch <;> rfl

theorem Proven.touchEpoch (h : s.Proven) (epoch : ℤ) : (s.touchEpoch epoch).Proven := by
  unfold Index.touchEpoch
  split
  · exact h
  · intro other row hrow
    rw [Table.get?_put] at hrow
    split at hrow
    · obtain rfl := Option.some.inj hrow
      exact backed_newEpoch
    · exact h other row hrow

theorem touchEpoch_rowOf (s : Index) (epoch : ℤ) :
    (s.touchEpoch epoch).rowOf epoch = s.rowOf epoch := by
  unfold touchEpoch
  split
  · rfl
  · next hnone =>
      unfold rowOf
      rw [Table.get?_put_self, hnone]
      rfl

/-- **A write to a row** that leaves it backed. -/
theorem Proven.setEpoch (h : s.Proven) {patch : List (Column × Option Json)}
    (hpatched : Backed (patched (s.rowOf epoch) patch)) : (s.setEpoch epoch patch).Proven := by
  intro other row hrow
  unfold Index.setEpoch at hrow
  rw [Table.get?_put] at hrow
  split at hrow
  · obtain rfl := Option.some.inj hrow
    have hsame := s.touchEpoch_rowOf epoch
    unfold Index.rowOf at hsame
    rw [hsame]
    exact hpatched
  · exact h.touchEpoch epoch other row hrow

theorem patched_of_ne {row : EpochRow} {patch : List (Column × Option Json)} {column : Column}
    (h : ∀ entry ∈ patch, entry.1 ≠ column) : patched row patch column = row column := by
  unfold patched
  induction patch with
  | nil => rfl
  | cons entry patch ih =>
      obtain ⟨hentry, hpatch⟩ := List.forall_mem_cons.mp h
      rw [List.foldl_cons, if_neg hentry]
      exact ih hpatch

/-- A write of other columns. -/
theorem backed_patched {row : EpochRow} {patch : List (Column × Option Json)} (h : Backed row)
    (hstatus : ∀ entry ∈ patch, entry.1 ≠ .status) (hproof : ∀ entry ∈ patch, entry.1 ≠ .proof) :
    Backed (patched row patch) := by
  unfold Backed
  rw [patched_of_ne hstatus, patched_of_ne hproof]
  exact h

/-- A row that is given another status. -/
theorem backed_of_status {row : EpochRow} (status : String) (h : row .status = .str status)
    (hother : status ≠ "proven") : Backed row := by
  intro hproven
  rw [h] at hproven
  exact absurd (Json.str.inj hproven) hother

/-! ## Events -/

theorem Proven.applyOpened (h : s.Proven) (d : Json) : (s.applyOpened epoch d).Proven := by
  have hfirst : ∀ patch : List (Column × Option Json), (∀ entry ∈ patch, entry.1 ≠ .status) →
      (∀ entry ∈ patch, entry.1 ≠ .proof) → (s.setEpoch epoch patch).Proven :=
    fun _ hstatus hproof => h.setEpoch (backed_patched (h.rowOf epoch) hstatus hproof)
  unfold Index.applyOpened
  dsimp only
  split
  · exact hfirst _ (by simp) (by simp)
  · apply (hfirst _ (by simp) (by simp)).setEpoch
    exact backed_of_status "proving" (by simp [patched]) (by decide)

theorem Proven.applyStage (h : s.Proven) (finished : Bool) (stage : String) (d : Json) :
    (s.applyStage finished epoch stage d).Proven := h.touchEpoch epoch

theorem Proven.mergeLatency (h : s.Proven) (patch : List (String × Option ℤ)) :
    (s.mergeLatency epoch patch).Proven :=
  h.setEpoch (backed_patched (h.rowOf epoch) (by simp) (by simp))

theorem Proven.applyAbandoned (h : s.Proven) (d : Json) : (s.applyAbandoned epoch d).Proven :=
  h.setEpoch (backed_of_status "abandoned" (by simp [patched]) (by decide))

/-- A proof that landed is available, or the epoch is unproven. -/
theorem Proven.applyLanded (h : s.Proven) (d : Json) : (s.applyLanded epoch d).Proven := by
  apply h.setEpoch
  by_cases havailable : proofAvailable (d.get? "proof") = true
  · intro _
    cases hproof : d.get? "proof" with
    | none => simp [hproof, proofAvailable] at havailable
    | some proof =>
        rw [hproof] at havailable
        have hrecord := isRecord_of_available havailable
        cases proof with
        | obj fields => simpa [patched, defined] using havailable
        | _ => cases hrecord
  · exact backed_of_status "unproven" (by simp [patched, havailable]) (by decide)

/-- A summary that carries a proof says a status, and the proof names nothing twice. -/
def Spoken (summary : Json) : Prop :=
  ∀ proof, defined (summary.get? "proof") = some proof →
    (str (summary.get? "status")).isSome ∧ (proof.fields.map (·.1)).Nodup

/-- What is merged over a proof is available if it was before. -/
theorem jmerge_available (s : Index) (epoch : ℤ) {v : Json} (hnames : (v.fields.map (·.1)).Nodup)
    (h : proofAvailable (some v) = true) : ∃ merged, s.jmerge epoch .proof (some v) = some merged ∧
      proofAvailable (some merged) = true ∧ defined (some merged) = some merged := by
  have hrecord := isRecord_of_available h
  have hdefined : defined (some v) = some v := by
    cases v with
    | obj fields => rfl
    | _ => cases hrecord
  unfold jmerge
  rw [hdefined, Option.map_some, if_pos hrecord]
  cases s.column epoch .proof with
  | none => exact ⟨v, rfl, h, hdefined⟩
  | some cur =>
      dsimp only
      split
      · exact ⟨cur.spread v, rfl, available_spread cur hnames h, rfl⟩
      · exact ⟨v, rfl, h, hdefined⟩

/-- **A summary**: what it says of the status is checked against the proof it leaves. -/
theorem Proven.applyClosed (h : s.Proven) {d : Json} (hspoken : Spoken (closingSummary d)) :
    (s.applyClosed epoch d).Proven := by
  unfold Index.applyClosed
  generalize closingSummary d = summary at hspoken
  dsimp only
  apply h.setEpoch
  have hold := h.rowOf epoch
  have hcolumn := s.column_proof epoch
  intro hstatus
  simp only [patched, List.foldl_cons, List.foldl_nil, reduceCtorEq, if_true, if_false] at hstatus ⊢
  cases hproof : defined (summary.get? "proof") with
  | none =>
      -- the proof is the one that is stored
      have hmerged : s.jmerge epoch .proof (summary.get? "proof") = none := by
        unfold jmerge
        rw [hproof]
        rfl
      rw [hmerged]
      rw [hproof, Option.none_or, hcolumn] at hstatus
      cases hverdict : statusForProof (summary.get? "status")
          (defined (some (s.rowOf epoch .proof))) with
      | none =>
          rw [hverdict] at hstatus
          exact hold hstatus
      | some status =>
          rw [hverdict] at hstatus
          obtain rfl : status = "proven" := Json.str.inj hstatus
          exact available_of_statusForProof hverdict
  | some proof =>
      obtain ⟨hverdict, hnames⟩ := hspoken proof hproof
      rw [hproof, Option.some_or] at hstatus
      obtain ⟨declared, hdeclared⟩ := Option.isSome_iff_exists.mp hverdict
      have hchecked : statusForProof (summary.get? "status") (some proof) = some "proven" := by
        unfold statusForProof at hstatus ⊢
        rw [hdeclared] at hstatus ⊢
        exact congrArg some (Json.str.inj hstatus)
      have havailable := available_of_statusForProof hchecked
      obtain ⟨merged, hmerged, hmergedAvailable, hdefined⟩ :=
        jmerge_available s epoch hnames havailable
      rw [eq_some_of_defined hproof, hmerged, Option.getD_some, hdefined]
      exact hmergedAvailable

theorem available_proofReference {m : ProofMeta} (h : m.bytes ≠ 0) :
    proofAvailable (some (proofReference m)) = true := by
  simp [proofAvailable, proofReference, Json.get?, Json.fields, num]
  omega

theorem names_textField (key : String) (v : Option String) :
    ((textField key v).map (·.1)).Sublist [key] := by
  cases v with
  | none => exact List.nil_sublist _
  | some v =>
      unfold textField
      dsimp only
      split
      · exact List.nil_sublist _
      · exact List.Sublist.refl _

/-- A reference names nothing twice. -/
theorem names_proofReference (m : ProofMeta) : ((proofReference m).fields.map (·.1)).Nodup := by
  have hnames : (["available", "bytes"] ++ ["sha256"] ++ ["stage"] ++ ["program_vk"] ++
      ["public_bytes"]).Nodup := by decide
  refine hnames.sublist ?_
  simp only [proofReference, Json.fields, List.map_append]
  exact ((((List.Sublist.refl _).append (names_textField "sha256" _)).append
    (names_textField "stage" _)).append (names_textField "program_vk" _)).append
      (names_textField "public_bytes" _)

/-- Bytes that come after the epoch closed are available. -/
theorem Proven.landProof (h : s.Proven) (m : ProofMeta) : (s.landProof epoch m).Proven := by
  unfold Index.landProof
  split
  · exact h
  · next hbytes =>
      dsimp only
      apply h.setEpoch
      intro _
      obtain ⟨merged, hmerged, havailable, hdefined⟩ := jmerge_available s epoch
        (names_proofReference m) (available_proofReference hbytes)
      simp only [patched, List.foldl_cons, List.foldl_nil, reduceCtorEq, if_true, if_false]
      rw [hmerged, Option.getD_some, hdefined]
      exact havailable

/-- What an event of a type says, where closing summaries speak. -/
theorem Proven.apply (h : s.Proven) (now : ℤ) {type : String} {d : Json}
    (hspoken : type = "epoch.closed" → Spoken (closingSummary d)) :
    (s.apply now type d).Proven := by
  unfold Index.apply
  split
  · split
    · split
      · exact h
      · exact h
    · exact h
  · exact h.applyOpened d
  · split
    · exact h.applyStage _ _ d
    · exact h
  · split
    · exact h.applyStage _ _ d
    · exact h
  · exact h.mergeLatency _
  · exact h.mergeLatency _
  · exact h.applyLanded d
  · exact h.applyClosed (hspoken rfl)
  · exact h.applyAbandoned d
  · exact h

/-! ## Requests -/

theorem Proven.same {s' : Index} (h : s.Proven) (hepochs : s'.epochs = s.epochs) : s'.Proven := by
  unfold Proven
  rw [hepochs]
  exact h

/-- What is stored of an event says what the event says. -/
theorem get?_eventData {key : String} (htype : "type" ≠ key) (hseq : "seq" ≠ key)
    (hmillis : "unix_millis" ≠ key) (now : ℤ) (seq : ℕ) (ev : Json) :
    (eventData now seq ev).get? key = ev.get? key := by
  have hdata : ((ev.erase "type").set "seq" (.num seq)).get? key = ev.get? key := by
    show Json.lookup key (Json.setField "seq" _ (ev.fields.filter _)) = _
    rw [Json.lookup_setField, if_neg hseq, Json.lookup_erase htype]
    rfl
  unfold eventData
  dsimp only
  split
  · exact hdata
  · show Json.lookup key (Json.setField "unix_millis" _ _) = _
    rw [Json.lookup_setField, if_neg hmillis]
    exact hdata

theorem record_data (s : Index) (daemonId : String) (daemonSeq : ℤ) (type : String) (ev : Json)
    (now : ℤ) : ∀ row, (s.record daemonId daemonSeq type ev now).1 = some row →
      row.1.data = eventData now s.nextSeq ev := by
  intro row h
  unfold record at h
  dsimp only at h
  split at h
  · cases h
  · obtain rfl := Option.some.inj h
    rfl

/-! ## What a post keeps of the epochs -/

section Rule

variable {Inv : Index → Prop}
  (hsame : ∀ {s s' : Index}, Inv s → s'.epochs = s.epochs → Inv s')
  (hgiven : ∀ (s : Index) (epoch : ℤ), Inv s →
    Inv (s.setEpoch epoch [(.status, some (.str "stranded"))]))

include hsame hgiven

theorem reapStranded_epochs (h : Inv s) (highest now : ℤ) :
    Inv (s.reapStranded highest now).1 := by
  refine s.reapStranded_invariant Inv ?_ h
  intro s epoch _ hs
  exact hsame (hgiven s epoch hs) (record_tables _ _ _ _ _ _).2

theorem reap_epochs (h : Inv s) (now : ℤ) : Inv (s.reap now).1 := by
  unfold Index.reap
  split
  · exact h
  · next highest _ =>
      have hswept := reapStranded_epochs hsame hgiven (s := { s with
        kv := { s.kv with highestEpoch := some highest } }) (hsame h rfl) highest now
      exact hsame hswept rfl

/-- **The rule for a post**: what is said of the epochs alone is kept if the events of the post keep
it, and an epoch that is given up does. -/
theorem ingested_epochs {now : ℤ} {body : Json}
    (hevent : ∀ (s : Index) (ev : Json) (type : String) (streamSeq : ℕ), ev ∈ eventsOf body →
      str (ev.get? "type") = some type → Inv s →
        Inv (s.apply now type (eventData now streamSeq ev)))
    (h : Inv s) : Inv (s.ingested now body).1 := by
  have hone : ∀ (acc : Index × Ingested) (ev : Json), ev ∈ eventsOf body → Inv acc.1 →
      Inv (ingestEvent (daemonIdOf body) now acc ev).1 := by
    intro acc ev hev hacc
    unfold ingestEvent
    dsimp only
    split
    · next type daemonSeq htype _ =>
        have htables := (record_tables acc.1 (daemonIdOf body) daemonSeq type ev now).2
        have hdata := record_data acc.1 (daemonIdOf body) daemonSeq type ev now
        split
        · next hrun =>
            rw [hrun] at htables
            exact hsame hacc htables
        · next row _ hrun =>
            rw [hrun] at htables hdata
            rw [hdata row rfl]
            exact hevent _ ev type _ hev htype (hsame hacc htables)
    · exact hacc
  have hfold : ∀ (evs : List Json) (acc : Index × Ingested), (∀ ev ∈ evs, ev ∈ eventsOf body) →
      Inv acc.1 → Inv (evs.foldl (ingestEvent (daemonIdOf body) now) acc).1 := by
    intro evs
    induction evs with
    | nil => exact fun _ _ h => h
    | cons ev evs ih =>
        intro acc hevs hacc
        obtain ⟨hev, hrest⟩ := List.forall_mem_cons.mp hevs
        exact ih _ hrest (hone acc ev hev hacc)
  -- a status is recorded too, but it touches no epoch
  have hstatus : ∀ acc : Index × Ingested, Inv acc.1 → Inv (ingestStatus body now acc).1 := by
    intro acc hacc
    unfold ingestStatus
    split
    · exact hacc
    · split
      · dsimp only
        split
        · exact hsame hacc rfl
        · exact hsame hacc (record_tables _ _ _ _ _ _).2
      · exact hacc
  have hreap : ∀ acc : Index × Ingested, Inv acc.1 → Inv (ingestReap now acc).1 := by
    intro acc hacc
    unfold ingestReap
    dsimp only
    split
    · exact hacc
    · split
      · exact reapStranded_epochs hsame hgiven (s := { acc.1 with
          kv := { acc.1.kv with highestEpoch := some _ } }) (hsame hacc rfl) _ _
      · exact hacc
  unfold Index.ingested
  apply hreap
  apply hstatus
  apply hfold _ _ fun _ hev => hev
  dsimp only
  split
  · exact h
  · exact hsame h rfl

end Rule

theorem Proven.given (h : s.Proven) (epoch : ℤ) :
    (s.setEpoch epoch [(.status, some (.str "stranded"))]).Proven :=
  h.setEpoch (backed_of_status "stranded" (by simp [patched]) (by decide))

theorem Proven.ingested (h : s.Proven) {now : ℤ} {body : Json}
    (hspoken : ∀ ev ∈ eventsOf body, str (ev.get? "type") = some "epoch.closed" →
      Spoken (closingSummary ev)) : (s.ingested now body).1.Proven := by
  refine ingested_epochs Proven.same (fun s epoch hs => hs.given epoch) ?_ h
  intro s ev type streamSeq hev htype hs
  apply hs.apply
  intro hclosed
  have hsummary : closingSummary (eventData now streamSeq ev) = closingSummary ev := by
    unfold closingSummary
    rw [get?_eventData (by decide) (by decide) (by decide)]
  rw [hsummary]
  exact hspoken ev hev (hclosed ▸ htype)

end Index

namespace World

variable {w : World}

/-- A closing summary that carries a proof says a status. -/
def Speaks (_ : World) : Event → Prop
  | .ingest _ body => ∀ ev ∈ Index.eventsOf body, str (ev.get? "type") = some "epoch.closed" →
      Index.Spoken (Index.closingSummary ev)
  | _ => True

theorem proven_event {e : Event} {s : Index} (h : s.Proven) (hspeaks : Speaks w e) :
    (e.index s).Proven := by
  cases e with
  | ingest now body =>
      exact Index.Proven.same (h.ingested hspeaks) (Index.trim_tables _).2.1
  | reap now => exact Index.reap_epochs Index.Proven.same (fun s epoch hs => hs.given epoch) h now
  | reset =>
      intro epoch row hrow
      cases hrow
  | putProofMeta epoch m =>
      exact Index.Proven.landProof (s := Index.dropChunks epoch { s with
        proofs := s.proofs.put epoch ⟨m, .r2, 0, false⟩ }) h m
  | putProofInline epoch m bytes =>
      exact Index.Proven.same h (Index.evictLoop_tables _ _).2
  | _ => exact h

theorem reached_proven (h : Reached World.step Speaks .start w) : w.index.Proven := by
  refine index_invariant Index.Proven ?_ (fun _ _ hspeaks hs => proven_event hs hspeaks) h
  intro epoch row hrow
  cases hrow

/-- **An epoch that says `proven` has a proof to fetch**, in every run. -/
theorem proven_available (h : Reached World.step Speaks .start w) {epoch : ℤ} {row : EpochRow}
    (hrow : w.index.epochs.get? epoch = some row) (hstatus : row .status = .str "proven") :
    proofAvailable (defined (row .proof)) = true :=
  reached_proven h epoch row hrow hstatus

theorem eq_str_of_str {v : Json} {t : String} (h : str (some v) = some t) : v = .str t := by
  unfold str at h
  split at h
  · next heq =>
      rw [Option.some.inj heq]
      exact congrArg Json.str (Option.some.inj h)
  · cases h

/-- An epoch closes without its proof, and the bytes come later. -/
theorem proven_available_late : ∃ (w : World) (row : EpochRow),
    w.index.epochs.get? 7 = some row ∧ row .status = .str "proven" ∧
      proofAvailable (defined (row .proof)) = true := by
  let closed : Json := .obj [("events", .arr [.obj [("type", .str "epoch.closed"), ("seq", .num 2),
    ("epoch", .num 7), ("summary", .obj [("status", .str "unproven")])]])]
  obtain ⟨w, hrun, hsaid⟩ : ∃ w, ((World.start.step (.ingest 5 closed)).bind fun w =>
      w.step (.putProofMeta 7 ⟨9, "", none, none, none⟩)) = some w ∧
      ((w.index.epochs.get? 7).bind fun row => str (some (row .status))) = some "proven" := by
    decide +kernel
  obtain ⟨w₁, hclosed, hput⟩ := Option.bind_eq_some_iff.mp hrun
  obtain ⟨row, hrow, hproven⟩ := Option.bind_eq_some_iff.mp hsaid
  have hstatus : row .status = .str "proven" := eq_str_of_str hproven
  have hspeaks : Speaks World.start (.ingest 5 closed) := by
    intro ev hev _
    simp [closed, Index.eventsOf, Json.get?, Json.fields] at hev
    subst hev
    intro proof hproof
    simp [Index.closingSummary, Json.get?, Json.fields, Json.isObject, defined] at hproof
  have hfirst : Reached World.step Speaks .start w₁ := .step .start hspeaks hclosed
  have hboth : Reached World.step Speaks .start w :=
    hfirst.step (e := .putProofMeta 7 ⟨9, "", none, none, none⟩) trivial hput
  exact ⟨w, row, hrow, hstatus, proven_available hboth hrow hstatus⟩

/-- A proof that can be fetched says that it is available. -/
theorem available_of_proof {v : Option Json} (h : proofAvailable v = true) :
    ∃ p, v = some p ∧ p.get? "available" = some (.bool true) := by
  cases v with
  | none => cases h
  | some p =>
      refine ⟨p, rfl, ?_⟩
      unfold proofAvailable at h
      dsimp only at h
      split at h
      · assumption
      · cases h

/-- What is in an ordered list is among the first so many, or behind that many. -/
theorem mem_take_or {α : Type} {R : α → α → Prop} {xs : List α} (h : xs.Pairwise R) {a : α}
    (ha : a ∈ xs) (n : ℕ) :
    a ∈ xs.take n ∨ (xs.take n).length = n ∧ ∀ b ∈ xs.take n, R b a := by
  by_cases hfew : xs.length ≤ n
  · rw [List.take_of_length_le hfew]
    exact .inl ha
  · have hparts := List.take_append_drop n xs
    rw [← hparts, List.mem_append] at ha
    rw [← hparts, List.pairwise_append] at h
    refine ha.imp_right fun hbehind => ⟨?_, fun b hb => h.2.2 b hb a hbehind⟩
    rw [List.length_take]
    omega

/-- **No proof is lost sight of**: an epoch that says `proven` has its bytes here or in the bucket,
or a daemon that asks is told that they are missing, if there are not two hundred higher ones. -/
theorem proven_held_or_missing (h : Reached World.step Speaks .start w) {epoch : ℤ}
    {row : EpochRow} (hrow : w.index.epochs.get? epoch = some row)
    (hstatus : row .status = .str "proven") :
    (∃ proof, w.index.proofMeta epoch = some proof ∧ proof.evicted = false) ∨
      epoch ∈ w.index.missingProofs ∨
        w.index.missingProofs.length = 200 ∧ ∀ other ∈ w.index.missingProofs, epoch ≤ other := by
  obtain ⟨p, hp, havailable⟩ := available_of_proof (reached_proven h epoch row hrow hstatus)
  by_cases hheld : ∃ proof, w.index.proofMeta epoch = some proof ∧ proof.evicted = false
  · exact .inl hheld
  · right
    unfold Index.missingProofs
    simp only [List.mem_reverse, List.length_reverse]
    refine mem_take_or (List.pairwise_insertionSort (· ≥ ·) _) ?_ 200
    rw [List.mem_insertionSort, List.mem_map]
    refine ⟨(epoch, row), List.mem_filter.mpr ⟨Table.mem_of_get? hrow, ?_⟩, rfl⟩
    simp only [hp, Option.bind_some, havailable]
    cases hrun : w.index.proofs.get? epoch with
    | none => rfl
    | some proof =>
        by_contra hkept
        exact hheld ⟨proof, hrun, by simpa using hkept⟩

/-- A daemon says that it has a proof, and none has come. -/
theorem proven_held_or_missing_named : ∃ (w : World) (row : EpochRow),
    w.index.epochs.get? 7 = some row ∧ row .status = .str "proven" ∧ 7 ∈ w.index.missingProofs := by
  let closed : Json := .obj [("events", .arr [.obj [("type", .str "epoch.closed"), ("seq", .num 2),
    ("epoch", .num 7), ("summary", .obj [("status", .str "proven"),
      ("proof", .obj [("available", .bool true), ("bytes", .num 9)])])]])]
  obtain ⟨w, hclosed, hsaid, hnone, hfew⟩ : ∃ w,
      World.start.step (.ingest 5 closed) = some w ∧
      ((w.index.epochs.get? 7).bind fun row => str (some (row .status))) = some "proven" ∧
      (w.index.proofMeta 7).isNone = true ∧ w.index.missingProofs.length ≠ 200 := by
    decide +kernel
  obtain ⟨row, hrow, hproven⟩ := Option.bind_eq_some_iff.mp hsaid
  have hstatus : row .status = .str "proven" := eq_str_of_str hproven
  have hspeaks : Speaks World.start (.ingest 5 closed) := by
    intro ev hev _
    simp [closed, Index.eventsOf, Json.get?, Json.fields] at hev
    subst hev
    intro proof hproof
    refine ⟨rfl, ?_⟩
    have hsaid : proof = .obj [("available", .bool true), ("bytes", .num 9)] :=
      (Option.some.inj hproof).symm
    subst hsaid
    decide
  have hreached : Reached World.step Speaks .start w := .step .start hspeaks hclosed
  refine ⟨w, row, hrow, hstatus, ?_⟩
  obtain ⟨proof, hmeta, _⟩ | hmissing | ⟨hmany, _⟩ := proven_held_or_missing hreached hrow hstatus
  · rw [hmeta] at hnone
    cases hnone
  · exact hmissing
  · exact absurd hmany hfew

end World

end Zkasper.Api
