import Zkasper.Api.Live

/-! # What is posted again

A daemon that had no answer posts the same events again, and so does one that is started over its
spool. An event is known by its key: once it is posted it is on the log (`recorded_once`), and
comes a second time only behind a whole ring of others. A post of which everything is still in
the ring changes nothing (`posted_again`), if the index has looked for stranded epochs since it
last heard of a new one. -/

namespace Zkasper.Api

open Library Transition

/-- An event with a type, under a number of its daemon. -/
def Names (ev : Json) (daemonSeq : ℤ) : Prop :=
  (∃ type, str (ev.get? "type") = some type) ∧ num (ev.get? "seq") = some daemonSeq

namespace Index

variable {s s' : Index} {out : List (Entry × ℕ)} {key : String × ℤ}

/-- There is an event of this key on the log. -/
def Holds (s : Index) (key : String × ℤ) : Prop := ∃ row ∈ s.events, row.1.key = key

/-- Every number on the log has been given out. -/
def Numbered (s : Index) : Prop := ∀ row ∈ s.events, row.2 < s.nextSeq

theorem Logs.holds (h : Logs s s' out) (hkey : s.Holds key) : s'.Holds key := by
  obtain ⟨row, hrow, hkey⟩ := hkey
  refine ⟨row, ?_, hkey⟩
  rw [h.events]
  exact List.mem_append_left _ hrow

theorem Logs.numbered (h : Logs s s' out) (hs : s.Numbered) : s'.Numbered := by
  intro row hrow
  rw [h.events] at hrow
  rw [h.next]
  rcases List.mem_append.mp hrow with hrow | hrow
  · exact Nat.lt_add_right _ (hs row hrow)
  · rw [h.numbers] at hrow
    have hlt := List.snd_lt_of_mem_zipIdx hrow
    rw [List.length_map] at hlt
    omega

theorem Extends.holds {acc acc' : Index × Ingested} (h : Extends acc acc')
    (hkey : acc.1.Holds key) : acc'.1.Holds key := by
  obtain ⟨out, hlogs, -⟩ := h
  exact hlogs.holds hkey

theorem Extends.numbered {acc acc' : Index × Ingested} (h : Extends acc acc')
    (hs : acc.1.Numbered) : acc'.1.Numbered := by
  obtain ⟨out, hlogs, -⟩ := h
  exact hlogs.numbered hs

/-! ## Recorded -/

section Record

variable (daemonId : String) (daemonSeq : ℤ) (type : String) (ev : Json) (now : ℤ)

theorem record_holds (hs : s.Numbered) :
    (s.record daemonId daemonSeq type ev now).2.Holds (daemonId, daemonSeq) := by
  unfold record
  dsimp only
  split
  · next hany =>
      obtain ⟨row, hrow, hsame⟩ := List.any_eq_true.mp hany
      rw [Bool.or_eq_true, Bool.and_eq_true, decide_eq_true_eq, decide_eq_true_eq,
        decide_eq_true_eq] at hsame
      rcases hsame with hnumber | ⟨hid, hseq⟩
      · exact absurd hnumber (Nat.ne_of_lt (hs row hrow))
      · exact ⟨row, hrow, Prod.ext hid hseq⟩
  · exact ⟨_, List.mem_append_right _ (List.mem_singleton_self _), rfl⟩

/-- What is there already is passed over. -/
theorem record_again (hkey : s.Holds (daemonId, daemonSeq)) :
    s.record daemonId daemonSeq type ev now = (none, s) := by
  obtain ⟨row, hrow, hsame⟩ := hkey
  obtain ⟨hid, hseq⟩ := Prod.mk.inj hsame
  unfold record
  dsimp only
  rw [if_pos]
  refine List.any_eq_true.mpr ⟨row, hrow, ?_⟩
  rw [Bool.or_eq_true, Bool.and_eq_true]
  exact .inr ⟨decide_eq_true hid, decide_eq_true hseq⟩

end Record

theorem ingestEvent_holds {daemonId : String} {now : ℤ} {acc : Index × Ingested} {ev : Json}
    {daemonSeq : ℤ} (hs : acc.1.Numbered) (hev : Names ev daemonSeq) :
    (ingestEvent daemonId now acc ev).1.Holds (daemonId, daemonSeq) := by
  obtain ⟨⟨type, htype⟩, hseq⟩ := hev
  have hheld := record_holds daemonId daemonSeq type ev now hs
  unfold ingestEvent
  simp only [htype, hseq]
  split
  · next hrun =>
      rwa [hrun] at hheld
  · next hrun =>
      rw [hrun] at hheld
      exact (apply_quiet _ _ _ _).holds hheld

theorem foldl_ingestEvent_holds {daemonId : String} {now : ℤ} {evs : List Json} {ev : Json}
    {daemonSeq : ℤ} (hmem : ev ∈ evs) (hev : Names ev daemonSeq) :
    ∀ acc : Index × Ingested, acc.1.Numbered →
      (evs.foldl (ingestEvent daemonId now) acc).1.Holds (daemonId, daemonSeq) := by
  induction evs with
  | nil => cases hmem
  | cons first evs ih =>
      intro acc hs
      have hstep := ingestEvent_extends daemonId now acc first
      rcases List.mem_cons.mp hmem with rfl | hmem
      · exact (Extends.foldl evs (ingestEvent_extends daemonId now) _).holds
          (ingestEvent_holds hs hev)
      · exact ih hmem _ (hstep.numbered hs)

/-- Every event of a post is on the log before it is cut. -/
theorem ingested_holds (hs : s.Numbered) (now : ℤ) {body ev : Json} {daemonSeq : ℤ}
    (hmem : ev ∈ eventsOf body) (hev : Names ev daemonSeq) :
    (s.ingested now body).1.Holds (daemonIdOf body, daemonSeq) := by
  unfold ingested
  exact ((ingestStatus_extends body now _).trans (ingestReap_extends now _)).holds
    (foldl_ingestEvent_holds hmem hev _ ((s.daemon_quiet body).numbered hs))

end Index

namespace World

variable {w w' : World} {floor : ℕ}

theorem Stored.numbered (h : w.Stored floor) : w.index.Numbered := by
  intro row hrow
  rw [h.events] at hrow
  have hlt := List.snd_lt_of_mem_zipIdx hrow
  have hle := h.floor_le
  rw [List.length_drop] at hlt
  rw [h.next]
  omega

/-- **Recorded once**: in every state a key comes again only behind a whole ring of other events
or a reset, and a post that was taken whole has every event of it among those since the last
reset. -/
theorem recorded_once (h : Reached World.step Keyed .start w) :
    (∀ i j e e', i < j → w.issued[i]? = some e → w.issued[j]? = some e' → e.key = e'.key →
      i < w.cleared ∨ i + ringEvents < j) ∧
    ∀ now body w', Keyed w (.ingest now body) → World.step w (.ingest now body) = some w' →
      ∀ ev ∈ Index.eventsOf body, ∀ daemonSeq, Names ev daemonSeq →
        ∃ e ∈ w'.issued.drop w'.cleared, e.key = (Index.daemonIdOf body, daemonSeq) := by
  obtain ⟨floor, hstored⟩ := reached_stored (h.mono fun _ _ _ => trivial)
  refine ⟨hstored.spaced, fun now body w' _ hstep ev hmem daemonSeq hev => ?_⟩
  obtain rfl : w.broadcast (w.index.ingest now body).1 (w.index.ingest now body).2.outgoing = w' :=
    Option.some.inj hstep
  obtain ⟨row, hrow, hkey⟩ := Index.ingested_holds hstored.numbered now hmem hev
  obtain ⟨hevents, -, -, -⟩ := hstored.logs (w.index.ingested_logs now body)
  refine ⟨row.1, ?_, hkey⟩
  show row.1 ∈ (w.issued ++ (w.index.ingest now body).2.outgoing.map (·.1)).drop w.cleared
  rw [(w.index.ingest_stores now body).1]
  rw [hevents] at hrow
  exact (List.drop_sublist_drop_left _ hstored.cleared_le).subset
    (List.fst_mem_of_mem_zipIdx hrow)

end World

/-! ## Posted again -/

namespace Index

variable {s : Index} {epoch mark : ℤ}

/-- Everything of a post is on the log: its events, and the status beside them. -/
structure Knows (s : Index) (body : Json) : Prop where
  events : ∀ ev ∈ eventsOf body, ∀ daemonSeq, Names ev daemonSeq →
    s.Holds (daemonIdOf body, daemonSeq)
  status : ∀ status, body.get? "status" = some status → status.isObject →
    (¬ (eventsOf body).any fun ev => str (ev.get? "type") = some "status") →
      s.Holds (daemonIdOf body ++ "#status",
        (num (status.get? "updated_unix")).getD (s.kv.lastDaemonSeq.getD 0))

theorem ingestEvent_again {daemonId : String} (now : ℤ) {ev : Json}
    (hheld : ∀ daemonSeq, Names ev daemonSeq → s.Holds (daemonId, daemonSeq)) (p : Ingested) :
    ∃ duplicates, ingestEvent daemonId now (s, p) ev = (s, { p with duplicates }) := by
  unfold ingestEvent
  dsimp only
  split
  · next type daemonSeq htype hseq =>
      rw [record_again daemonId daemonSeq type ev now (hheld daemonSeq ⟨⟨type, htype⟩, hseq⟩)]
      exact ⟨_, rfl⟩
  · exact ⟨p.duplicates, rfl⟩

theorem foldl_ingestEvent_again {daemonId : String} (now : ℤ) {evs : List Json}
    (hheld : ∀ ev ∈ evs, ∀ daemonSeq, Names ev daemonSeq → s.Holds (daemonId, daemonSeq))
    (p : Ingested) :
    ∃ duplicates, evs.foldl (ingestEvent daemonId now) (s, p) = (s, { p with duplicates }) := by
  induction evs generalizing p with
  | nil => exact ⟨p.duplicates, rfl⟩
  | cons ev evs ih =>
      obtain ⟨hev, hevs⟩ := List.forall_mem_cons.mp hheld
      obtain ⟨duplicates, hfirst⟩ := ingestEvent_again now hev p
      rw [List.foldl_cons, hfirst]
      exact ih hevs { p with duplicates }

/-! ### Epochs that have been looked at -/

/-- No epoch is above this. -/
def Below (s : Index) (mark : ℤ) : Prop := ∀ epoch ∈ s.epochs.keys, epoch ≤ mark

/-- The index has looked for stranded epochs since it heard of its highest. -/
def Swept (s : Index) : Prop := s.Below (s.kv.highestEpoch.getD (-1))

theorem setEpoch_kv (epoch : ℤ) (patch : List (Column × Option Json)) :
    (s.setEpoch epoch patch).kv = s.kv := by
  unfold setEpoch touchEpoch
  dsimp only
  split <;> rfl

theorem setEpoch_below (h : s.Below mark) (hepoch : epoch ≤ mark)
    (patch : List (Column × Option Json)) : (s.setEpoch epoch patch).Below mark := by
  have htouch : (s.touchEpoch epoch).Below mark := by
    unfold touchEpoch
    split
    · exact h
    · intro other hother
      rcases Table.mem_keys_put.mp hother with rfl | hother
      · exact hepoch
      · exact h other hother
  intro other hother
  rcases Table.mem_keys_put.mp hother with rfl | hother
  · exact hepoch
  · exact htouch other hother

/-- Only epochs below the highest are given up. -/
theorem reapStranded_below (now : ℤ) {highest : ℤ} (h : s.Below highest) :
    (s.reapStranded highest now).1.kv = s.kv ∧ (s.reapStranded highest now).1.Below highest := by
  refine s.reapStranded_invariant (fun s' => s'.kv = s.kv ∧ s'.Below highest) ?_ ⟨rfl, h⟩
  rintro s' epoch hlt ⟨hkv, hbelow⟩
  obtain ⟨hrecord, hepochs⟩ := record_tables
    (s'.setEpoch epoch [(.status, some (.str "stranded"))]) "api#stranded" epoch
    "epoch.stranded" (strandedEvent epoch now highest) now
  refine ⟨hrecord.trans ((setEpoch_kv _ _).trans hkv), ?_⟩
  unfold Below
  rw [hepochs]
  exact setEpoch_below hbelow (Int.le_of_lt hlt) _

/-- Nothing is above the highest epoch. -/
theorem below_highest (highest : Option ℤ) (h : s.highestEpoch = highest) :
    (highest = none → s.epochs.keys = []) ∧ ∀ top, highest = some top → s.Below top := by
  subst h
  refine ⟨List.max?_eq_none_iff.mp, fun top htop epoch hepoch => ?_⟩
  exact (List.max?_eq_some_iff.mp htop).2 epoch hepoch

theorem Swept.same {s' : Index} (h : s.Swept) (hkv : s'.kv = s.kv)
    (hepochs : s'.epochs = s.epochs) : s'.Swept := by
  unfold Swept Below
  rw [hkv, hepochs]
  exact h

theorem ingestReap_swept (now : ℤ) (acc : Index × Ingested) :
    (ingestReap now acc).1.Swept := by
  unfold ingestReap
  dsimp only
  split
  · next hnone =>
      intro epoch hepoch
      rw [(below_highest _ hnone).1 rfl] at hepoch
      cases hepoch
  · next highest hhighest =>
      have hbelow := (below_highest _ hhighest).2 highest rfl
      split
      · obtain ⟨hkv, hafter⟩ := reapStranded_below now
          (s := { acc.1 with kv := { acc.1.kv with highestEpoch := some highest } }) hbelow
        unfold Swept
        rw [hkv]
        exact hafter
      · next hmark =>
          intro epoch hepoch
          exact (hbelow epoch hepoch).trans (Int.not_lt.mp hmark)

theorem landProof_swept (hs : s.Swept) (hepoch : epoch ≤ s.kv.highestEpoch.getD (-1))
    (m : ProofMeta) : (s.landProof epoch m).Swept := by
  unfold landProof
  split
  · exact hs
  · dsimp only
    unfold Swept
    rw [setEpoch_kv]
    exact setEpoch_below hs hepoch _

/-! ### A post that changes nothing -/

/-- Only what is known of the daemon, and its status, have changed. -/
def Refreshed (s s' : Index) : Prop :=
  ∃ kv : Kv, s' = { s with kv } ∧ kv.lastDaemonSeq = s.kv.lastDaemonSeq ∧
    kv.highestEpoch = s.kv.highestEpoch

theorem Refreshed.trans {s s' s'' : Index} (h : Refreshed s s') (h' : Refreshed s' s'') :
    Refreshed s s'' := by
  obtain ⟨kv, rfl, hlast, hhighest⟩ := h
  obtain ⟨kv', rfl, hlast', hhighest'⟩ := h'
  exact ⟨kv', rfl, hlast'.trans hlast, hhighest'.trans hhighest⟩

theorem Refreshed.holds {s' : Index} {key : String × ℤ} (h : Refreshed s s') (hkey : s.Holds key) :
    s'.Holds key := by
  obtain ⟨kv, rfl, -, -⟩ := h
  exact hkey

theorem Refreshed.swept {s' : Index} (h : Refreshed s s') (hs : s.Swept) : s'.Swept := by
  obtain ⟨kv, rfl, -, hhighest⟩ := h
  unfold Swept
  rw [hhighest]
  exact hs

theorem ingestStatus_again {body : Json} (now : ℤ) {p : Ingested} (hknown : s.Knows body)
    (hlast : p.lastSeq = s.kv.lastDaemonSeq.getD 0) {s' : Index} (hs : Refreshed s s') :
    ∃ s'', Refreshed s s'' ∧ ingestStatus body now (s', p) = (s'', p) := by
  unfold ingestStatus
  split
  · exact ⟨s', hs, rfl⟩
  · next status hstatus =>
      split
      · next hobject =>
          have hset : Refreshed s (s'.setStatus now status) := hs.trans ⟨_, rfl, rfl, rfl⟩
          dsimp only
          split
          · exact ⟨_, hset, rfl⟩
          · next hnone =>
              have hheld := hset.holds (hknown.status status hstatus hobject hnone)
              rw [← hlast] at hheld
              rw [record_again _ _ _ _ _ hheld]
              exact ⟨_, hset, by rw [Option.toList_none, List.append_nil]⟩
      · exact ⟨s', hs, rfl⟩

theorem ingestReap_again (now : ℤ) (p : Ingested) (hswept : s.Swept) :
    ingestReap now (s, p) = (s, p) := by
  unfold ingestReap
  dsimp only
  split
  · rfl
  · next highest hhighest =>
      have hmem := (List.max?_eq_some_iff.mp hhighest).1
      rw [if_neg (Int.not_lt.mpr (hswept highest hmem))]

theorem daemon_refreshed (body : Json) : Refreshed s (if (daemonOf body).isEmpty then s else
    { s with kv := { s.kv with daemon := some (daemonOf body) } }) := by
  split
  · exact ⟨s.kv, rfl, rfl, rfl⟩
  · exact ⟨_, rfl, rfl, rfl⟩

/-- A post of which everything is known. -/
theorem ingested_again {body : Json} (now : ℤ) (hknown : s.Knows body) (hswept : s.Swept) :
    ∃ s' duplicates, Refreshed s s' ∧
      s.ingested now body = (s', ⟨0, duplicates, s.kv.lastDaemonSeq.getD 0, []⟩) := by
  have hdaemon := s.daemon_refreshed body
  unfold ingested
  dsimp only
  generalize (if (daemonOf body).isEmpty then s else
    { s with kv := { s.kv with daemon := some (daemonOf body) } }) = s₀ at hdaemon
  have hlast : s₀.kv.lastDaemonSeq = s.kv.lastDaemonSeq := by
    obtain ⟨kv, rfl, hlast, -⟩ := hdaemon
    exact hlast
  obtain ⟨duplicates, hevents⟩ := foldl_ingestEvent_again now
    (fun ev hev daemonSeq hnames => hdaemon.holds (hknown.events ev hev daemonSeq hnames))
    ⟨0, 0, s₀.kv.lastDaemonSeq.getD 0, []⟩
  rw [hevents]
  obtain ⟨s', hs', hstatus⟩ := ingestStatus_again now hknown
    (p := ⟨0, duplicates, s₀.kv.lastDaemonSeq.getD 0, []⟩) (congrArg (·.getD 0) hlast) hdaemon
  rw [hstatus, ingestReap_again now _ (hs'.swept hswept), hlast]
  exact ⟨s', duplicates, hs', rfl⟩

end Index

namespace World

variable {w w' : World}

/-- Proofs come in only of epochs that something was posted of. -/
def HeardOf (w : World) : Event → Prop
  | .putProofMeta epoch _ => epoch ≤ w.index.kv.highestEpoch.getD (-1)
  | _ => True

instance decidableHeardOf (w : World) (e : Event) : Decidable (HeardOf w e) :=
  match e with
  | .putProofMeta epoch _ => inferInstanceAs (Decidable (epoch ≤ w.index.kv.highestEpoch.getD (-1)))
  | .ingest _ _ | .reap _ | .reset | .putProofInline _ _ _ | .restart | .join | .live _ _ _
  | .deliver _ | .abort _ => .isTrue trivial

theorem swept_event {e : Event} (h : w.index.Swept) (hheard : HeardOf w e) :
    (e.index w.index).Swept := by
  cases e with
  | ingest now body =>
      have hswept : (w.index.ingested now body).1.Swept := Index.ingestReap_swept now _
      have htrim : ∀ s : Index, s.Swept → s.trim.Swept := fun s hs =>
        hs.same s.trim_tables.1 s.trim_tables.2.1
      exact htrim _ hswept
  | reap now =>
      show (w.index.reap now).1.Swept
      unfold Index.reap
      split
      · exact h
      · next highest hhighest =>
          have hbelow := (Index.below_highest _ hhighest).2 highest rfl
          obtain ⟨hkv, hafter⟩ := Index.reapStranded_below now (s := { w.index with
            kv := { w.index.kv with highestEpoch := some highest } }) hbelow
          show Index.Below _ ((Index.reapStranded highest now _).1.kv.highestEpoch.getD (-1))
          rw [hkv]
          exact hafter
  | reset =>
      intro epoch hepoch
      cases hepoch
  | putProofMeta epoch m =>
      exact Index.landProof_swept (s := Index.dropChunks epoch { w.index with
        proofs := w.index.proofs.put epoch ⟨m, .r2, 0, false⟩ }) h hheard m
  | putProofInline epoch m bytes =>
      obtain ⟨hkv, hepochs⟩ := Index.evictLoop_tables _ _
      exact Index.Swept.same h hkv hepochs
  | _ => exact h

end World

end Zkasper.Api

/-! ### A post of one event -/

namespace Zkasper.Formal

open Api

variable (type : String) (daemonSeq epoch : ℤ)

theorem daemonIdOf_post : Index.daemonIdOf (post type daemonSeq epoch) = "formal" := by
  simp [Index.daemonIdOf, Index.daemonOf, post, Json.get?, Json.fields, Json.isObject, str]

theorem eventsOf_post : Index.eventsOf (post type daemonSeq epoch) =
    [.obj [("type", .str type), ("seq", .num daemonSeq), ("epoch", .num epoch)]] := by
  simp [Index.eventsOf, post, Json.get?, Json.fields]

theorem names_post : Names (.obj [("type", .str type), ("seq", .num daemonSeq),
    ("epoch", .num epoch)]) daemonSeq := by
  simp [Names, Json.get?, Json.fields, str, num]

theorem knows_post {s : Index} (h : s.Holds ("formal", daemonSeq)) :
    s.Knows (post type daemonSeq epoch) where
  events ev hev daemonSeq' hnames := by
    rw [eventsOf_post, List.mem_singleton] at hev
    subst hev
    have hseq := hnames.2
    simp [Json.get?, Json.fields, num] at hseq
    rw [daemonIdOf_post, ← hseq]
    exact h
  status status hstatus := by simp [post, Json.get?, Json.fields] at hstatus

end Zkasper.Formal

namespace Zkasper.Api

open Library Transition Formal

namespace World

variable {w w' : World}

theorem recorded_once_comesBack : ∃ w, run World.step Keyed .start comesBack = some w ∧
    ∀ w', w.step (.ingest 9 (post "epoch.opened" 1 7)) = some w' →
      ∃ e ∈ w'.issued.drop w'.cleared, e.key = ("formal", 1) := by
  obtain ⟨w, hrun, hkeyed⟩ : ∃ w, run World.step Keyed .start comesBack = some w ∧
      Keyed w (.ingest 9 (post "epoch.opened" 1 7)) := by decide +kernel
  obtain ⟨-, hposted⟩ := recorded_once (.of_run hrun)
  refine ⟨w, hrun, fun w' hstep => ?_⟩
  rw [← daemonIdOf_post "epoch.opened" 1 7]
  refine hposted 9 _ w' hkeyed hstep _ ?_ 1 (names_post "epoch.opened" 1 7)
  rw [eventsOf_post]
  exact List.mem_singleton_self _

/-- **A post that comes again changes nothing**: not the log, the epochs, the stages or the proofs;
and nobody is sent anything. -/
theorem posted_again (h : Reached World.step (fun w e => Keyed w e ∧ HeardOf w e) .start w)
    (now : ℤ) {body : Json}
    (hknown : w.index.Knows body) (hstep : World.step w (.ingest now body) = some w') :
    (w.index.ingest now body).2.accepted = 0 ∧ w'.issued = w.issued ∧ w'.readers = w.readers ∧
      w'.index.nextSeq = w.index.nextSeq ∧ w'.index.epochs = w.index.epochs ∧
        w'.index.stages = w.index.stages ∧ w'.index.proofs = w.index.proofs ∧
          w'.index.proofChunks = w.index.proofChunks := by
  have hswept : w.index.Swept := by
    refine index_invariant Index.Swept ?_ (fun _ _ hheard hs => swept_event hs hheard.2) h
    intro epoch hepoch
    cases hepoch
  obtain ⟨s', duplicates, ⟨kv, rfl, -, -⟩, hingested⟩ := Index.ingested_again now hknown hswept
  obtain rfl : w.broadcast (w.index.ingest now body).1 (w.index.ingest now body).2.outgoing = w' :=
    Option.some.inj hstep
  have hposted : (w.index.ingest now body).2 =
      ⟨0, duplicates, w.index.kv.lastDaemonSeq.getD 0, []⟩ := by
    rw [(w.index.ingest_stores now body).1, hingested]
  have htables : (w.index.ingest now body).1.nextSeq = w.index.nextSeq ∧
      (w.index.ingest now body).1.epochs = w.index.epochs ∧
        (w.index.ingest now body).1.stages = w.index.stages ∧
          (w.index.ingest now body).1.proofs = w.index.proofs ∧
            (w.index.ingest now body).1.proofChunks = w.index.proofChunks := by
    unfold Index.ingest Index.trim
    rw [hingested]
    dsimp only
    split <;> exact ⟨rfl, rfl, rfl, rfl, rfl⟩
  rw [hposted]
  refine ⟨rfl, List.append_nil _, ?_, htables⟩
  exact map_push_nil w.readers

theorem posted_again_comesBack : ∃ w w',
    run World.step (fun w e => Keyed w e ∧ HeardOf w e) .start comesBack = some w ∧
    w.step (.ingest 9 (post "epoch.opened" 1 7)) = some w' ∧ w'.issued = w.issued ∧
      w'.index.epochs = w.index.epochs := by
  obtain ⟨w, hrun, hheld⟩ : ∃ w,
      run World.step (fun w e => Keyed w e ∧ HeardOf w e) .start comesBack = some w ∧
      ("formal", 1) ∈ w.index.events.map fun row => row.1.key := by decide +kernel
  have hknown : w.index.Knows (post "epoch.opened" 1 7) := knows_post _ _ _ (List.mem_map.mp hheld)
  obtain ⟨-, hissued, -, -, hepochs, -⟩ := posted_again (.of_run hrun) 9 hknown rfl
  exact ⟨w, _, hrun, rfl, hissued, hepochs⟩

end World

end Zkasper.Api
