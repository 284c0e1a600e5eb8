import Zkasper.Folds
import Zkasper.WitnessGen.TakenOnce

/-! # The batch pipeline closes what it counted

The walk ends with two thirds only on the turn that closed the slot that crossed them, and
that turn neither proves nor folds: its slot is still in the queue (`walk_crossing`). So
the group that closes the epoch leaves a slot proof to fold, and the link over it counts what
the host counts. Every check of that link is passed by what the pipeline keeps
(`Standing`), and by its slots being different ones (`Ledger`). -/

namespace Zkasper.Batch

open Library EpochAggregator GuardedSum

variable {P : Primitives} [Ord P.Bytes32] {B : Blst} {config : Config} {tick : Tick P}
  {a b : EpochAggregator P B}

/-! ## Where the walk crosses -/

/-- What is proven leaves the balance as it is. -/
theorem proveSlotGroup_eq_ok (h : (proveSlotGroup tick a).result = .ok b) :
    ∃ proven, tick.prover.proveSlot (a.slotProofWitness tick.tree) = .ok proven ∧
      b = a.adoptSlotProof proven := by
  obtain ⟨_, -, h⟩ := Logged.bind_result_eq_ok.mp h
  obtain ⟨_, -, h⟩ := Logged.bind_result_eq_ok.mp h
  obtain ⟨proven, hproven, h⟩ := Logged.bind_result_eq_ok.mp h
  obtain ⟨_, -, h⟩ := Logged.bind_result_eq_ok.mp h
  exact ⟨proven, hproven, (Except.ok.inj h).symm⟩

theorem foldJustification_eq_ok (h : (foldJustification config tick a).result = .ok b) :
    ∃ proven, tick.prover.proveJustification (a.justificationWitness config) = .ok proven ∧
      b = a.adoptJustification proven := by
  obtain ⟨_, -, h⟩ := Logged.bind_result_eq_ok.mp h
  obtain ⟨proven, hproven, h⟩ := Logged.bind_result_eq_ok.mp h
  obtain ⟨_, -, h⟩ := Logged.bind_result_eq_ok.mp h
  exact ⟨proven, hproven, (Except.ok.inj h).symm⟩

/-- Where a turn may take the epoch: on with what it is measured against, and over the
threshold only with something in the queue. -/
structure Crosses (a b : EpochAggregator P B) : Prop where
  total : b.totalActiveBalance = a.totalActiveBalance
  queued : b.thresholdReached = true → b.slots ≠ []

theorem Crosses.below (htotal : b.totalActiveBalance = a.totalActiveBalance)
    (hbelow : b.thresholdReached = false) : Crosses a b := by
  refine ⟨htotal, fun hreached => ?_⟩
  rw [hbelow] at hreached
  cases hreached

theorem proveIfWide_below (hbelow : a.thresholdReached = false)
    (h : (proveIfWide config tick a).result = .ok b) :
    b.totalActiveBalance = a.totalActiveBalance ∧ b.thresholdReached = false := by
  unfold proveIfWide at h
  split at h
  · obtain ⟨proven, -, rfl⟩ := proveSlotGroup_eq_ok h
    exact ⟨rfl, hbelow⟩
  · obtain rfl := Except.ok.inj h
    exact ⟨rfl, hbelow⟩

theorem foldIfWide_below (hbelow : a.thresholdReached = false)
    (h : (foldIfWide config tick a).result = .ok b) :
    b.totalActiveBalance = a.totalActiveBalance ∧ b.thresholdReached = false := by
  unfold foldIfWide at h
  split at h
  · obtain ⟨proven, -, rfl⟩ := foldJustification_eq_ok h
    exact ⟨rfl, hbelow⟩
  · obtain rfl := Except.ok.inj h
    exact ⟨rfl, hbelow⟩

/-- Neither width counts over the threshold. -/
theorem proveIfWide_reached (hreached : a.thresholdReached = true) :
    proveIfWide config tick a = pure a := by
  simp [proveIfWide, hreached]

theorem foldIfWide_reached (hreached : a.thresholdReached = true) :
    foldIfWide config tick a = pure a := by
  simp [foldIfWide, hreached]

theorem closeSlot_crosses (hbelow : a.thresholdReached = false) {slot : UInt64}
    (h : (closeSlot config tick a slot).result = .ok b) : Crosses a b := by
  unfold closeSlot at h
  split at h
  · next stream heq =>
      obtain rfl := Except.ok.inj h
      exact .below rfl hbelow
  · next stream complement heq =>
      obtain ⟨c, hprove, hfold⟩ := Logged.bind_result_eq_ok.mp h
      by_cases hreached : (a.queue stream complement).thresholdReached = true
      · -- the slot that crosses stays where it is
        rw [proveIfWide_reached hreached] at hprove
        obtain rfl := Except.ok.inj hprove
        rw [foldIfWide_reached hreached] at hfold
        obtain rfl := Except.ok.inj hfold
        refine ⟨rfl, fun _ => ?_⟩
        show a.slots ++ [complement] ≠ []
        simp
      · obtain ⟨htotal, hmid⟩ := proveIfWide_below (Bool.not_eq_true _ ▸ hreached) hprove
        obtain ⟨htotal', hlast⟩ := foldIfWide_below hmid hfold
        exact .below (htotal'.trans htotal) hlast

theorem scan_crosses (hbelow : a.thresholdReached = false)
    (h : (scan config tick a).result = .ok b) : Crosses a b := by
  obtain ⟨c, hread, h⟩ := Logged.bind_result_eq_ok.mp h
  have hsame : c.totalActiveBalance = a.totalActiveBalance ∧
      c.thresholdReached = a.thresholdReached := by
    cases hblock : tick.blocks a.nextSlot with
    | none =>
        rw [hblock] at hread
        obtain rfl := Guest.pure_eq_ok.mp hread
        exact ⟨rfl, rfl⟩
    | some attestations =>
        rw [hblock] at hread
        obtain ⟨_, -, hret⟩ := Guest.bind_eq_ok.mp hread
        obtain rfl := Guest.pure_eq_ok.mp hret
        exact ⟨rfl, rfl⟩
  have hmid : c.thresholdReached = false := hsame.2.trans hbelow
  cases hattested : attestationSlot config c a.nextSlot with
  | none =>
      rw [hattested] at h
      obtain rfl := Except.ok.inj h
      exact .below hsame.1 hmid
  | some attested =>
      rw [hattested] at h
      have hclose := closeSlot_crosses hmid h
      exact ⟨hclose.total.trans hsame.1, hclose.queued⟩

/-- Over the threshold the loop does not go on. -/
theorem walk_reached {fuel : ℕ} (hreached : a.thresholdReached = true) :
    walk config tick fuel a = pure a := by
  cases fuel with
  | zero => rfl
  | succ fuel => simp [walk, walking, hreached]

/-- **A walk that crosses the threshold ends with a slot in the queue.** -/
theorem walk_crossing : ∀ (fuel : ℕ) {a b : EpochAggregator P B}, a.thresholdReached = false →
    (walk config tick fuel a).result = .ok b → Crosses a b := by
  intro fuel
  induction fuel with
  | zero =>
      intro a b hbelow h
      obtain rfl := Except.ok.inj h
      exact .below rfl hbelow
  | succ fuel ih =>
      intro a b hbelow h
      unfold walk at h
      split at h
      · obtain ⟨c, hscan, hwalk⟩ := Logged.bind_result_eq_ok.mp h
        have hcrosses := scan_crosses hbelow hscan
        by_cases hreached : c.thresholdReached = true
        · -- the loop ends here
          rw [walk_reached hreached] at hwalk
          obtain rfl := Except.ok.inj hwalk
          exact hcrosses
        · have hrest := ih (Bool.not_eq_true _ ▸ hreached) hwalk
          exact ⟨hrest.total.trans hcrosses.total, hrest.queued⟩
      · obtain rfl := Except.ok.inj h
        refine ⟨rfl, fun hreached => ?_⟩
        rw [hbelow] at hreached
        cases hreached

/-! ## What the pipeline keeps for its links -/

/-- What a tick brings that a link relies on: proofs come out of the circuits and verify,
and an epoch is opened with its committees proven. -/
structure Proves (S : ProofSystem P) (accDepth : ℕ) (config : Config) (tick : Tick P) : Prop where
  honest : Honest S accDepth tick.prover
  slot : ∀ w out proof, tick.prover.proveSlot w = .ok (out, proof) →
    verifyBakedChild S proof slotProgramVk out.publicBytes = .ok true
  justification : ∀ w out proof, tick.prover.proveJustification w = .ok (out, proof) →
    verifyChild S proof config.justificationProgramVk out.publicBytes = true
  opening : ∀ o, tick.opening = .ok o →
    committeeLink S (some o.committeeOutput) o.committeeProof o.accCommitment tick.cursorEpoch =
      .ok o.committeeOutput.committeeRoot

/-- What every link of the epoch is over, with nothing in it yet. -/
def EpochAggregator.firstLink (a : EpochAggregator P B) (config : Config) :
    JustificationWitness P where
  accumulatorCommitment := a.accCommitment
  sourceEpoch := a.sourceEpoch
  sourceRoot := a.sourceRoot
  targetEpoch := a.targetEpoch
  targetRoot := a.targetRoot
  totalActiveBalance := a.totalActiveBalance
  accRoot := a.accRoot
  justificationProgramVk := config.justificationProgramVk
  committee := some a.committeeOutput
  committeeProof := a.committeeProof
  previous := none
  previousProof := []
  slotProofOutputs := []
  slotProofs := []

/-- The slot proofs that wait, each with its proof. -/
def EpochAggregator.waiting (a : EpochAggregator P B) : List (FoldedSlot P) :=
  a.unfolded.zip a.unfoldedProofs

/-- The proof of the chain, whichever link it is asked for. -/
def EpochAggregator.chainProof (a : EpochAggregator P B) (_ : JustificationOutput P) : List UInt64 :=
  a.justification.elim [] (·.proof)

/-- **What a link is checked against**, all but its slots. -/
structure Standing (S : ProofSystem P) (config : Config) (a : EpochAggregator P B) : Prop where
  opens : committeeLink S (some a.committeeOutput) a.committeeProof a.accCommitment a.targetEpoch =
    .ok a.committeeOutput.committeeRoot
  lengths : a.unfolded.length = a.unfoldedProofs.length
  verified : ∀ slot ∈ a.waiting,
    slot.Verified S (a.firstLink config) a.committeeOutput.committeeRoot
  commitment : a.unfolded ≠ [] → P.commitment a.accRoot a.totalActiveBalance = a.accCommitment
  chain : ∃ counted, StandsFor ((a.firstLink config).justificationOf a.committeeOutput.committeeRoot)
    (JustificationProven S (a.firstLink config) a.chainProof) (a.justification.map (·.output)) counted

namespace Standing

variable {S : ProofSystem P} {accDepth : ℕ}

theorem map_fst (h : Standing S config a) : a.waiting.map (·.1) = a.unfolded :=
  List.map_fst_zip h.lengths.le

theorem waiting_ne_nil (h : Standing S config a) (hne : a.unfolded ≠ []) : a.waiting ≠ [] := by
  intro hnil
  apply hne
  rw [← h.map_fst, hnil, List.map_nil]

/-- The witness of a link is a fold over what waits: later links leave the committee proof
out, and the circuit does not look for it. -/
theorem verifyJustification_eq (h : Standing S config a) :
    verifyJustification S (a.justificationWitness config) =
      foldSlots S (a.firstLink config) a.chainProof (a.justification.map (·.output)) a.waiting := by
  have hsnd : a.waiting.map (·.2) = a.unfoldedProofs := List.map_snd_zip h.lengths.ge
  unfold foldSlots JustificationWitness.fold
  rw [h.map_fst, hsnd]
  unfold justificationWitness chainProof
  cases a.justification with
  | none => rfl
  | some record => rfl

theorem openEpoch (hproves : Proves S accDepth config tick) {o : Opening P}
    (ho : tick.opening = .ok o) :
    Standing S config (BatchPipeline.openEpoch config tick.cursorEpoch o : EpochAggregator P B) where
  opens := hproves.opening o ho
  lengths := rfl
  verified slot hslot := by cases hslot
  commitment hne := absurd rfl hne
  chain := ⟨0, .inl ⟨rfl, rfl⟩⟩

theorem adoptSlotProof (h : Standing S config a) (hproves : Proves S accDepth config tick)
    {proven : SlotProofOutput P × Proof}
    (hproven : tick.prover.proveSlot (a.slotProofWitness tick.tree) = .ok proven) :
    Standing S config (a.adoptSlotProof proven) := by
  obtain ⟨out, proof⟩ := proven
  have hverified := hproves.slot _ _ _ hproven
  have hrun := hproves.honest.slot _ _ _ hproven
  simp only [verifySlotProofWithDepth, attest, Guest.bind_eq_ok, Guest.assert_eq_ok,
    Guest.pure_eq_ok, exists_const] at hrun
  obtain ⟨attested, ⟨hcommitment, -⟩, -, rfl⟩ := hrun
  have hwaiting : ∀ out, (a.adoptSlotProof (out, proof)).waiting = a.waiting ++ [(out, proof)] :=
    fun out => List.zip_append h.lengths
  refine { h with lengths := ?_, verified := ?_, commitment := fun _ => hcommitment }
  · show (a.unfolded ++ [_]).length = (a.unfoldedProofs ++ [_]).length
    rw [List.length_append, List.length_append, h.lengths]
    rfl
  · intro slot hslot
    rw [hwaiting] at hslot
    rcases List.mem_append.mp hslot with hslot | hslot
    · exact h.verified slot hslot
    · obtain rfl := List.mem_singleton.mp hslot
      exact ⟨hverified, rfl, rfl, rfl, rfl, rfl, rfl⟩

theorem adoptJustification (h : Standing S config a) (hproves : Proves S accDepth config tick)
    {proven : JustificationOutput P × Proof}
    (hproven : tick.prover.proveJustification (a.justificationWitness config) = .ok proven) :
    Standing S config (a.adoptJustification proven) := by
  obtain ⟨out, proof⟩ := proven
  have hverified := hproves.justification _ _ _ hproven
  have hrun := hproves.honest.justification _ _ _ hproven
  have hne : a.unfolded ≠ [] := by
    obtain ⟨_, hassert, -⟩ := Guest.bind_eq_ok.mp hrun
    exact Guest.assert_eq_ok.mp hassert
  obtain ⟨counted, hstands⟩ := h.chain
  rw [h.verifyJustification_eq,
    foldSlots_eq_ok (h.commitment hne) h.opens hstands (h.waiting_ne_nil hne) h.verified] at hrun
  obtain ⟨total, -, rfl⟩ := hrun
  exact {
    opens := h.opens
    lengths := rfl
    verified := fun slot hslot => by cases hslot
    commitment := fun hne => absurd rfl hne
    chain := ⟨total, .inr ⟨rfl, hverified⟩⟩ }

/-- **A link over slot proofs is accepted**: it counts what the host counts. -/
theorem accepted (h : Standing S config a) {log : List (Job P)} {folded : List (SlotComplement P)}
    {groups : List (List (SlotComplement P))} (hledger : Ledger config log a folded groups)
    (hlog : OnlyOnce log) (hslots : a.slots = []) (hne : a.unfolded ≠ []) :
    ∃ out, verifyJustification S (a.justificationWitness config) = .ok out ∧
      out.justified = a.thresholdReached := by
  obtain ⟨counted, hstands⟩ := h.chain
  -- no slot proof shares a slot with the chain, or with another
  have hparts := (hledger.handOutputs hlog).apart (.justification (a.justificationWitness config))
    (List.mem_append_right _ (List.mem_singleton.mpr rfl))
  obtain ⟨-, hpairwise, hchain⟩ := List.pairwise_append.mp hparts
  have hcounted : ∀ slot ∈ a.waiting.map FoldedSlot.count, Justified.Apart counted slot := by
    intro part hpart
    obtain ⟨slot, hslot, rfl⟩ := List.mem_map.mp hpart
    rcases hstands with ⟨-, rfl⟩ | ⟨hsome, -⟩
    · exact Justified.apart.zero _
    · apply and_eq_zero_of_disjoint
      apply hchain _ _ _ (List.mem_map_of_mem (List.of_mem_zip hslot).1)
      show _ ∈ List.map _ (a.justification.map (·.output)).toList
      rw [hsome]
      exact List.mem_singleton.mpr rfl
  have hdistinct : (a.waiting.map FoldedSlot.count).Pairwise Justified.Apart := by
    rw [show (a.justificationWitness config).slotProofOutputs = a.unfolded from rfl, ← h.map_fst,
      List.map_map, List.pairwise_map] at hpairwise
    rw [List.pairwise_map]
    exact hpairwise.imp fun hapart => and_eq_zero_of_disjoint hapart
  have hrun := (run_eq_some Justified.apart (a.waiting.map FoldedSlot.count)).mpr
    ⟨hcounted, hdistinct, rfl⟩
  rw [FoldedSlot.sum_count] at hrun
  refine ⟨(a.firstLink config).justificationOf a.committeeOutput.committeeRoot
    (counted + FoldedSlot.total a.waiting), ?_, ?_⟩
  · rw [h.verifyJustification_eq]
    exact (foldSlots_eq_ok (h.commitment hne) h.opens hstands (h.waiting_ne_nil hne) h.verified).mpr
      ⟨_, hrun, rfl⟩
  · -- the balance of the link is the host's
    have hbefore : (a.justification.elim 0 fun record => record.output.attestingBalance) =
        counted.attestingBalance := by
      have helim : (a.justification.elim 0 fun record => record.output.attestingBalance) =
          (a.justification.map (·.output)).elim 0 (·.attestingBalance) := by
        cases a.justification <;> rfl
      rcases hstands with ⟨hnone, rfl⟩ | ⟨hsome, -⟩
      · rw [helim, hnone]
        rfl
      · rw [helim, hsome]
        rfl
    have hbalance : a.attestingBalance =
        (counted + FoldedSlot.total a.waiting).attestingBalance := by
      rw [hledger.balance_eq, hbefore, hslots, List.map_nil, List.sum_nil, UInt64.add_zero,
        ← h.map_fst, List.map_map]
      rfl
    unfold thresholdReached
    rw [hbalance]
    rfl

end Standing

theorem standing_preserved {S : ProofSystem P} {accDepth : ℕ} :
    Preserved config (Proves S accDepth config) (fun _ => True)
      (fun _ => Standing S config : List (Job P) → EpochAggregator P B → Prop) where
  start := trivial
  opened hproves ho := .openEpoch hproves ho
  read _ _ h := { h with }
  close h _ _ := { h with }
  prove hproves _ h _ := ⟨trivial, fun _ hproven => h.adoptSlotProof hproves hproven⟩
  fold hproves _ h := ⟨trivial, fun _ hproven => h.adoptJustification hproves hproven⟩

/-! ## The end of the walk -/

/-- **The host counts what is proven and what is queued.** -/
def EpochAggregator.Balanced (a : EpochAggregator P B) : Prop :=
  a.attestingBalance = (a.justification.elim 0 fun record => record.output.attestingBalance) +
    (a.unfolded.map (·.attestingBalance)).sum + (a.slots.map (·.marginalBalance)).sum

/-- The group that closes the epoch leaves the queue empty, and a slot proof behind. -/
theorem closingGroup_eq_ok (hslots : a.slots ≠ []) (h : (closingGroup tick a).result = .ok b) :
    b.slots = [] ∧ b.unfolded ≠ [] ∧ b.thresholdReached = a.thresholdReached := by
  unfold closingGroup at h
  split at h
  · next hempty => exact absurd (List.isEmpty_iff.mp hempty) hslots
  · obtain ⟨proven, -, rfl⟩ := proveSlotGroup_eq_ok h
    refine ⟨rfl, ?_, rfl⟩
    show a.unfolded ++ [proven.1] ≠ []
    simp

/-- What is left waiting has not crossed. -/
theorem pending_below {Ready : Tick P → Prop} {s : BatchPipeline P B} {log : List (Job P)}
    (h : Reachable config Ready s log) (ha : s.pending = some a) : a.thresholdReached = false := by
  cases h with
  | empty => cases ha
  | forget _ => cases ha
  | @drive s _ tick _ _ =>
      unfold BatchPipeline.drive at ha
      cases hrun : (s.run config tick).result with
      | error e =>
          rw [hrun] at ha
          cases ha
      | ok ending =>
          rw [hrun] at ha
          obtain ⟨c, -, hsettle⟩ := Logged.bind_result_eq_ok.mp hrun
          cases ending with
          | justified record finalized => cases ha
          | gaveUpOn targetEpoch => cases ha
          | waiting c' =>
              obtain rfl := Option.some.inj ha
              unfold settle at hsettle
              split at hsettle
              · obtain ⟨_, -, hsettle⟩ := Logged.bind_result_eq_ok.mp hsettle
                obtain ⟨_, -, hsettle⟩ := Logged.bind_result_eq_ok.mp hsettle
                obtain ⟨_, -, hsettle⟩ := Logged.bind_result_eq_ok.mp hsettle
                obtain ⟨_, -, hsettle⟩ := Logged.bind_result_eq_ok.mp hsettle
                obtain ⟨_, -, hsettle⟩ := Logged.bind_result_eq_ok.mp hsettle
                obtain ⟨_, -, hsettle⟩ := Logged.bind_result_eq_ok.mp hsettle
                cases Except.ok.inj hsettle
              · next hbelow =>
                  split at hsettle
                  · obtain ⟨_, -, hsettle⟩ := Logged.bind_result_eq_ok.mp hsettle
                    cases Except.ok.inj hsettle
                  · obtain rfl := Ending.waiting.inj (Except.ok.inj hsettle)
                    exact Bool.not_eq_true _ ▸ hbelow

/-- The walk of a tick starts below the threshold, unless there is no balance at all. -/
theorem resume_below {Ready : Tick P → Prop} {s : BatchPipeline P B} {log : List (Job P)}
    (h : Reachable config Ready s log) (ha : s.resume config tick = .ok a)
    (htotal : a.totalActiveBalance ≠ 0) : a.thresholdReached = false := by
  unfold BatchPipeline.resume at ha
  cases hresumed : s.resumed tick with
  | some c =>
      rw [hresumed] at ha
      obtain rfl := Except.ok.inj ha
      exact pending_below h (Option.filter_eq_some_iff.mp hresumed).1
  | none =>
      rw [hresumed] at ha
      cases hopening : tick.opening with
      | error e =>
          rw [hopening] at ha
          cases ha
      | ok o =>
          rw [hopening] at ha
          obtain rfl := Except.ok.inj ha
          -- nothing is counted yet
          apply decide_eq_false
          show ¬ (o.totalActiveBalance.toNat * 2 ≤ (0 : UInt64).toNat * 3)
          have hpos : o.totalActiveBalance.toNat ≠ 0 := fun hzero =>
            htotal (UInt64.toNat_inj.mp hzero)
          rw [UInt64.toNat_zero]
          omega

/-- **The batch pipeline closes what it counted.** Its balance is that of the chain, of the
slot proofs that wait and of the queue, in every state and at every turn; a slot is in one
slot proof from the opening of the epoch on; and where an epoch with a balance crosses the
threshold, there is a slot to prove, a slot proof to fold, and a link that is accepted and
justifies. -/
theorem closes_what_it_counted {S : ProofSystem P} {accDepth : ℕ} {s : BatchPipeline P B}
    {log : List (Job P)} (h : Reachable config (Proves S accDepth config) s log)
    (htick : Proves S accDepth config tick) :
    OnlyOnce log ∧ (∀ a, s.pending = some a → a.Balanced) ∧
      (∀ (turns : EpochAggregator P B → ℕ) (a : EpochAggregator P B),
        (do let a ← Logged.lift (s.resume config tick); walk config tick (turns a) a).result =
          .ok a → a.Balanced) ∧
      ∀ a, (s.walked config tick).result = .ok a → a.totalActiveBalance ≠ 0 →
        a.thresholdReached = true → a.slots ≠ [] ∧
          ∀ b, (closingGroup tick a).result = .ok b → b.Balanced ∧ b.unfolded ≠ [] ∧
            ∃ out, verifyJustification S (b.justificationWitness config) = .ok out ∧
              out.justified = true := by
  have hhonest : ∀ tick, Proves S accDepth config tick → Honest S accDepth tick.prover :=
    fun _ h => h.honest
  have hledgers : Preserved config (Proves S accDepth config) OnlyOnce
    (Accounted config : List (Job P) → EpochAggregator P B → Prop) := accounted_preserved hhonest
  have hstanding : Preserved config (Proves S accDepth config) (fun _ => True)
    (fun _ => Standing S config : List (Job P) → EpochAggregator P B → Prop) := standing_preserved
  obtain ⟨hlog, hholds⟩ := hledgers.reachable h
  obtain ⟨-, hstands⟩ := hstanding.reachable h
  refine ⟨hlog, ?_, ?_, ?_⟩
  · intro a ha
    obtain ⟨folded, groups, hledger⟩ := hholds a ha
    exact hledger.balance_eq
  · intro turns a ha
    obtain ⟨folded, groups, hledger⟩ := (hledgers.walked htick hlog hholds turns).ok a ha
    exact hledger.balance_eq
  · intro a ha htotal hreached
    have hslots : a.slots ≠ [] := by
      obtain ⟨c, hresume, hwalk⟩ := Logged.bind_result_eq_ok.mp ha
      by_cases hstart : c.thresholdReached = true
      · -- then there would be no balance at all
        rw [walk_reached hstart] at hwalk
        obtain rfl := Except.ok.inj hwalk
        rw [resume_below h hresume htotal] at hreached
        cases hreached
      · exact (walk_crossing _ (Bool.not_eq_true _ ▸ hstart) hwalk).queued hreached
    refine ⟨hslots, fun b hb => ?_⟩
    obtain ⟨hempty, hne, hsame⟩ := closingGroup_eq_ok hslots hb
    have hwalked := hledgers.walked htick hlog hholds fun a => a.scanEnd.toNat - a.nextSlot.toNat
    have hclosed := hledgers.closingGroup htick hwalked.log (hwalked.ok a ha)
    obtain ⟨folded, groups, hledger⟩ := hclosed.ok b hb
    have hwalked' := hstanding.walked htick trivial hstands
      fun a => a.scanEnd.toNat - a.nextSlot.toNat
    have hclosed' : Logged.Leaves log (closingGroup tick a) (fun _ => True)
        fun b _ => Standing S config b :=
      hstanding.closingGroup htick trivial (hwalked'.ok a ha)
    -- the closing proof counts what the walk had counted when it stopped
    obtain ⟨out, haccepted, hjustified⟩ :=
      (hclosed'.ok b hb).accepted hledger hclosed.log hempty hne
    exact ⟨hledger.balance_eq, hne, out, haccepted, hjustified.trans (hsame.trans hreached)⟩

end Zkasper.Batch

/-! ## An epoch that closes, and one with nothing in it

The epoch of three validators again, and an epoch in which nobody is active: its threshold is
no balance at all, and is there before anything is closed. -/

namespace Zkasper.Formal

def vacantTree : AccTree (formal willing) :=
  (AccTree.build [] 1 2).toOption.getD ⟨0, 0, [], []⟩

def vacantOpening : Except String (Batch.Opening (formal willing)) := do
  let committees ← EpochCommittees.build [] [] vacantTree 32 2 1 0
  return {
    targetRoot := nextRoot
    sourceRoot := genesisRoot
    signingDomain := blank
    committees
    committeeOutput := committees.output
    committeeProof := [1]
    accRoot := vacantTree.root
    accCommitment := .commitment vacantTree.root 0
    totalActiveBalance := 0 }

def vacantTick : Batch.Tick (formal willing) :=
  { batchTick willing 0 64 (.ok ()) with
    opening := vacantOpening
    tree := vacantTree
    blocks := fun _ => none }

end Zkasper.Formal

namespace Zkasper.Batch

open Formal EpochAggregator

/-- A tick over the proof system that accepts everything, once its opening is checked. -/
theorem batchTick_proves {tick : Tick (formal willing)} (hprover : tick.prover = batchCircuits willing)
    (hopening : ∃ o, tick.opening = .ok o ∧
      committeeLink (fun _ _ _ => true) (some o.committeeOutput) o.committeeProof o.accCommitment
        tick.cursorEpoch = .ok o.committeeOutput.committeeRoot) :
    Proves (fun _ _ _ => true) 2 oneByOne tick where
  honest := by
    rw [hprover]
    exact batchCircuits_honest willing
  slot w out proof h := by
    rw [hprover] at h
    obtain ⟨_, -, hret⟩ := Guest.bind_eq_ok.mp h
    obtain ⟨rfl, rfl⟩ := Prod.mk.inj (Guest.pure_eq_ok.mp hret)
    rfl
  justification w out proof h := by
    rw [hprover] at h
    obtain ⟨_, -, hret⟩ := Guest.bind_eq_ok.mp h
    obtain ⟨rfl, rfl⟩ := Prod.mk.inj (Guest.pure_eq_ok.mp hret)
    rfl
  opening o ho := by
    obtain ⟨o', ho', hlink⟩ := hopening
    obtain rfl := Except.ok.inj (ho'.symm.trans ho)
    exact hlink

theorem batchTick_opens : Proves (fun _ _ _ => true) 2 oneByOne (batchTick willing 96 68 (.ok ())) :=
  batchTick_proves rfl (by decide +kernel)

/-- Two slots of three validators cross the threshold; the second one is still queued, and
the link over it justifies the epoch. -/
theorem closes_two_slots : ∃ b : EpochAggregator (formal willing) lone,
    (∃ a, (idle.walked oneByOne (batchTick willing 96 68 (.ok ()))).result = .ok a ∧
      (closingGroup (batchTick willing 96 68 (.ok ())) a).result = .ok b) ∧
    b.attestingBalance = 64 ∧ b.Balanced ∧
    ∃ out, verifyJustification (fun _ _ _ => true) (b.justificationWitness oneByOne) = .ok out ∧
      out.justified = true := by
  obtain ⟨a, hwalked, htotal, hreached, b, hclosed, hbalance⟩ : ∃ a,
      (idle.walked oneByOne (batchTick willing 96 68 (.ok ()))).result = .ok a ∧
        a.totalActiveBalance ≠ 0 ∧ a.thresholdReached = true ∧
          ∃ b, (closingGroup (batchTick willing 96 68 (.ok ())) a).result = .ok b ∧
            b.attestingBalance = 64 := by
    decide +kernel
  obtain ⟨-, -, -, hcloses⟩ := closes_what_it_counted (P := formal willing) (B := lone) .empty
    batchTick_opens
  obtain ⟨-, hend⟩ := hcloses a hwalked htotal hreached
  obtain ⟨hbalanced, -, hout⟩ := hend b hclosed
  exact ⟨b, ⟨a, hwalked, hclosed⟩, hbalance, hbalanced, hout⟩

/-- **Two ways to close other than counted**: an epoch that a failed tick dropped proves its
slots again, and an epoch with no balance at all closes with nothing to fold. -/
theorem closes_again_or_nothing :
    (¬ ∀ ticks : List (Tick (formal willing)),
      (∀ tick ∈ ticks, Proves (fun _ _ _ => true) 2 oneByOne tick) →
        ((idle.handed oneByOne ticks).flatMap Job.attested).Nodup) ∧
    ¬ ∀ tick : Tick (formal willing), Proves (fun _ _ _ => true) 2 oneByOne tick →
      ∀ a, (idle.walked oneByOne tick).result = .ok a → a.thresholdReached = true →
        ∀ b, (closingGroup tick a).result = .ok b → b.unfolded ≠ [] := by
  constructor
  · intro h
    apply failedAndRetried_again
    apply h failedAndRetried
    intro tick htick
    rcases List.mem_pair.mp htick with rfl | rfl
    · exact batchTick_proves rfl (by decide +kernel)
    · exact batchTick_proves rfl (by decide +kernel)
  · intro h
    obtain ⟨a, hwalked, hreached, b, hclosed, hempty⟩ : ∃ a,
        (idle.walked oneByOne vacantTick).result = .ok a ∧ a.thresholdReached = true ∧
          ∃ b, (closingGroup vacantTick a).result = .ok b ∧ b.unfolded.isEmpty = true := by
      decide +kernel
    exact h vacantTick (batchTick_proves rfl (by decide +kernel)) a hwalked hreached b hclosed
      (List.isEmpty_iff.mp hempty)

end Zkasper.Batch
