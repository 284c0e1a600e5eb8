import Zkasper.WitnessGen.BatchRuns

/-! # The ledger of an epoch

Every unit an epoch of the batch pipeline has closed is in one of three places: behind the
justification chain, in a slot proof that waits for it, or in the queue (`Ledger`). The
host's balance is the balance of all of them, and honest proofs count what they were handed,
each slot once. -/

namespace Zkasper.Batch

open Library EpochAggregator Streaming

variable {P : Primitives} [Ord P.Bytes32] {B : Blst}

/-! ## What proofs count -/

/-- An honest prover answers with the public outputs the circuit commits to. -/
structure Honest (S : ProofSystem P) (accDepth : ℕ) (prover : Prover P) : Prop where
  slot : ∀ w out proof, prover.proveSlot w = .ok (out, proof) →
    verifySlotProofWithDepth w accDepth = .ok out
  justification : ∀ w out proof, prover.proveJustification w = .ok (out, proof) →
    verifyJustification S w = .ok out

/-- The slots a witness has proven. -/
def Job.slots : Job P → List (SlotComplementWitness P)
  | .slotProof w => w.slots
  | .justification _ => []

/-- What each part of a witness counts: a slot itself, a proof the slots of its mask. -/
def Job.counts : Job P → List (Finset ℕ)
  | .slotProof w => w.slots.map fun slot => {slot.slotInEpoch.toNat}
  | .justification w => w.previous.toList.map (fun previous => slotsOf previous.slotsMask) ++
      w.slotProofOutputs.map fun output => slotsOf output.slotsMask

/-- **Each slot is counted once**: none is in two slot proofs, and no two parts of a witness
share one. -/
structure OnlyOnce (log : List (Job P)) : Prop where
  proven : ((log.flatMap Job.slots).map (·.slotInEpoch.toNat)).Nodup
  apart : ∀ job ∈ log, job.counts.Pairwise Disjoint

omit [Ord P.Bytes32] in
/-- A chain and proofs over different slots are apart. -/
theorem outputs_apart {justification : Option (JustificationOutput P)}
    {slots : List (SlotComplementWitness P)} {groups : List (List (SlotComplementWitness P))}
    {outputs : List (SlotProofOutput P)} (hchain : CountsJustification justification slots)
    (hgroups : List.Forall₂
      (fun group output => Counted group output.attestingBalance output.slotsMask) groups outputs)
    (hnodup : ((slots ++ groups.flatten).map (·.slotInEpoch.toNat)).Nodup) :
    (justification.toList.map (fun out => slotsOf out.slotsMask) ++
      outputs.map fun output => slotsOf output.slotsMask).Pairwise Disjoint := by
  have houtputs : (outputs.map fun output => slotsOf output.slotsMask) = groups.map slotNumbers := by
    clear hnodup
    induction hgroups with
    | nil => rfl
    | cons hgroup _ ih =>
        rw [List.map_cons, List.map_cons, hgroup.mask_eq, ih]
        rfl
  have hparts := @slotNumbers_apart P (slots :: groups) hnodup
  rw [List.map_cons] at hparts
  rw [houtputs]
  cases justification with
  | none => exact (List.pairwise_cons.mp hparts).2
  | some out =>
      have hmask := hchain.mask_eq
      rw [Option.elim_some] at hmask
      rw [Option.toList_some, List.map_singleton, hmask]
      exact hparts

/-! ## The ledger -/

/-- **Where the units of an epoch are**: `folded` behind the chain, `groups` in the slot
proofs that wait for it, the rest in the queue. -/
structure Ledger (config : Config) (log : List (Job P)) (a : EpochAggregator P B)
    (folded : List (SlotComplement P)) (groups : List (List (SlotComplement P))) : Prop where
  taken : Taken config.slotsPerEpoch a.targetEpoch a.committees a.stream
    (folded ++ groups.flatten ++ a.slots)
  proven : log.flatMap Job.slots = (folded ++ groups.flatten).map (·.witness)
  balance : a.attestingBalance =
    ((folded ++ groups.flatten ++ a.slots).map (·.marginalBalance)).sum
  chain : CountsJustification (a.justification.map (·.output)) (folded.map (·.witness))
  unfolded : List.Forall₂
    (fun group output => Counted group output.attestingBalance output.slotsMask)
    (groups.map (·.map (·.witness))) a.unfolded

/-- An epoch that keeps a ledger. -/
def Accounted (config : Config) (log : List (Job P)) (a : EpochAggregator P B) : Prop :=
  ∃ folded groups, Ledger config log a folded groups

namespace Ledger

variable {config : Config} {log : List (Job P)} {a : EpochAggregator P B}
  {folded : List (SlotComplement P)} {groups : List (List (SlotComplement P))}

theorem openEpoch {targetEpoch : UInt64} {o : Opening P} :
    Ledger config [] (BatchPipeline.openEpoch config targetEpoch o : EpochAggregator P B) [] [] where
  taken := .new
  proven := rfl
  balance := rfl
  chain := .nil
  unfolded := .nil

theorem read (h : Ledger config log a folded groups) (attestations : List (AttestationResponse P))
    (nextSlot : UInt64) :
    Ledger config log { a with nextSlot, stream := (a.stream.ingest attestations).1 } folded
      groups :=
  { h with taken := h.taken.ingest attestations }

/-- A slot that is closed joins the queue, and its balance the host's. -/
theorem queue (h : Ledger config log a folded groups) {slot : UInt64} {unit : SlotComplement P}
    (hslot : InEpoch config.slotsPerEpoch a.targetEpoch slot)
    (hpeek : a.stream.peek slot = some unit) :
    Ledger config log (a.queue (a.stream.forget slot) unit) folded groups := by
  obtain ⟨rfl, hprices⟩ := SlotStream.peek_prices hpeek
  rw [h.taken.sameCommittees, h.taken.sameWidth] at hprices
  have htaken := h.taken.forget (SlotStream.isOpen_of_peek hpeek) hprices hslot
  rw [List.append_assoc] at htaken
  refine { h with taken := htaken, balance := ?_ }
  show a.attestingBalance + unit.marginalBalance = _
  simp only [EpochAggregator.queue, h.balance, List.map_append, List.sum_append, List.map_cons,
    List.map_nil, List.sum_cons, List.sum_nil, UInt64.add_zero, UInt64.add_assoc]

/-- What is proven and what is queued are different slots. -/
theorem distinct (h : Ledger config log a folded groups) :
    ((log.flatMap Job.slots ++ a.slots.map (·.witness)).map (·.slotInEpoch.toNat)).Nodup := by
  rw [h.proven, ← List.map_append, List.map_map]
  exact h.taken.distinct

/-- **A slot proof** is over slots that no other slot proof is over. -/
theorem handSlots (h : Ledger config log a folded groups) (hlog : OnlyOnce log)
    (tree : AccTree P) : OnlyOnce (log ++ [.slotProof (a.slotProofWitness tree)]) where
  proven := by
    rw [List.flatMap_append, List.flatMap_singleton]
    exact h.distinct
  apart := by
    intro job hjob
    rcases List.mem_append.mp hjob with hjob | hjob
    · exact hlog.apart job hjob
    · obtain rfl := List.mem_singleton.mp hjob
      have hnodup := h.distinct
      rw [List.map_append] at hnodup
      exact slots_apart hnodup.of_append_right

theorem adoptSlotProof (h : Ledger config log a folded groups) {S : ProofSystem P} {accDepth : ℕ}
    {prover : Prover P} (hhonest : Honest S accDepth prover) {tree : AccTree P}
    {proven : SlotProofOutput P × Proof}
    (hproven : prover.proveSlot (a.slotProofWitness tree) = .ok proven) :
    Ledger config (log ++ [.slotProof (a.slotProofWitness tree)]) (a.adoptSlotProof proven) folded
      (groups ++ [a.slots]) := by
  obtain ⟨output, proof⟩ := proven
  have hcounted := verifySlotProofWithDepth_counted (hhonest.slot _ _ _ hproven)
  have hflatten : folded ++ (groups ++ [a.slots]).flatten ++ [] =
      folded ++ groups.flatten ++ a.slots := by
    rw [List.append_nil, List.flatten_append, List.flatten_singleton, List.append_assoc]
  constructor
  · show Taken _ _ _ _ (folded ++ (groups ++ [a.slots]).flatten ++ [])
    rw [hflatten]
    exact h.taken
  · rw [List.append_nil] at hflatten
    rw [hflatten, List.flatMap_append, List.flatMap_singleton, h.proven]
    exact List.map_append.symm
  · show a.attestingBalance = ((folded ++ (groups ++ [a.slots]).flatten ++ []).map _).sum
    rw [hflatten]
    exact h.balance
  · exact h.chain
  · rw [List.map_append]
    exact List.rel_append h.unfolded (.cons hcounted .nil)

/-- **A link** counts the chain and slot proofs that share no slot with it or each other. -/
theorem handOutputs (h : Ledger config log a folded groups) (hlog : OnlyOnce log) :
    OnlyOnce (log ++ [.justification (a.justificationWitness config)]) where
  proven := by
    rw [List.flatMap_append, List.flatMap_singleton, Job.slots, List.append_nil]
    exact hlog.proven
  apart := by
    intro job hjob
    rcases List.mem_append.mp hjob with hjob | hjob
    · exact hlog.apart job hjob
    · obtain rfl := List.mem_singleton.mp hjob
      have hnodup : ((folded.map (·.witness) ++ (groups.map (·.map (·.witness))).flatten).map
          (·.slotInEpoch.toNat)).Nodup := by
        rw [← List.map_flatten, ← List.map_append, ← h.proven]
        exact hlog.proven
      exact outputs_apart h.chain h.unfolded hnodup

theorem adoptJustification (h : Ledger config log a folded groups) {S : ProofSystem P}
    {accDepth : ℕ} {prover : Prover P} (hhonest : Honest S accDepth prover)
    {proven : JustificationOutput P × Proof}
    (hproven : prover.proveJustification (a.justificationWitness config) = .ok proven) :
    Ledger config (log ++ [.justification (a.justificationWitness config)])
      (a.adoptJustification proven) (folded ++ groups.flatten) [] := by
  obtain ⟨output, proof⟩ := proven
  have hcounted := verifyJustification_counted h.chain h.unfolded (hhonest.justification _ _ _ hproven)
  rw [← List.map_flatten, ← List.map_append] at hcounted
  have hflatten : folded ++ groups.flatten ++ ([] : List (List (SlotComplement P))).flatten =
      folded ++ groups.flatten := by
    rw [List.flatten_nil, List.append_nil]
  constructor
  · rw [hflatten]
    exact h.taken
  · rw [hflatten, List.flatMap_append, List.flatMap_singleton, Job.slots, List.append_nil]
    exact h.proven
  · rw [hflatten]
    exact h.balance
  · exact hcounted
  · exact .nil

/-- **The host counts what is proven and what is queued.** -/
theorem balance_eq (h : Ledger config log a folded groups) :
    a.attestingBalance = (a.justification.elim 0 fun record => record.output.attestingBalance) +
      (a.unfolded.map (·.attestingBalance)).sum + (a.slots.map (·.marginalBalance)).sum := by
  have hmarginal : ∀ units : List (SlotComplement P), (∀ unit ∈ units,
      unit ∈ folded ++ groups.flatten ++ a.slots) →
        (units.map (·.marginalBalance)).sum = ((units.map (·.witness)).map (·.support)).sum := by
    intro units hunits
    rw [List.map_map]
    apply congrArg
    apply List.map_congr_left
    intro unit hunit
    exact (h.taken.prices unit (hunits unit hunit)).marginal
  have hgroups : ∀ {groups : List (List (SlotComplementWitness P))}
      {outputs : List (SlotProofOutput P)},
      List.Forall₂ (fun group output => Counted group output.attestingBalance output.slotsMask)
        groups outputs →
        (outputs.map (·.attestingBalance)).sum = (groups.flatten.map (·.support)).sum := by
    intro groups outputs hcounted
    induction hcounted with
    | nil => rfl
    | cons hgroup _ ih =>
        rw [List.map_cons, List.sum_cons, List.flatten_cons, List.map_append, List.sum_append, ih,
          hgroup.balance_eq]
  have hchain : (a.justification.elim 0 fun record => record.output.attestingBalance) =
      ((folded.map (·.witness)).map (·.support)).sum := by
    have hbalance := h.chain.balance_eq
    cases hcase : a.justification with
    | none =>
        rw [hcase] at hbalance
        exact hbalance
    | some record =>
        rw [hcase] at hbalance
        exact hbalance
  rw [hchain, hgroups h.unfolded, ← List.map_flatten, h.balance, List.map_append, List.map_append,
    List.sum_append, List.sum_append, hmarginal folded, hmarginal groups.flatten]
  · intro unit hunit
    exact List.mem_append_left _ (List.mem_append_right _ hunit)
  · intro unit hunit
    exact List.mem_append_left _ (List.mem_append_left _ hunit)

end Ledger

/-- **Every epoch keeps a ledger**, whatever its blocks and however its ticks end. -/
theorem accounted_preserved {config : Config} {Ready : Tick P → Prop} {S : ProofSystem P}
    {accDepth : ℕ} (hready : ∀ tick, Ready tick → Honest S accDepth tick.prover) :
    Preserved config Ready OnlyOnce
      (Accounted config : List (Job P) → EpochAggregator P B → Prop) where
  start := ⟨List.nodup_nil, fun job hjob => by cases hjob⟩
  opened _ _ := ⟨[], [], .openEpoch⟩
  read attestations nextSlot := fun ⟨folded, groups, h⟩ =>
    ⟨folded, groups, h.read attestations nextSlot⟩
  close := fun ⟨folded, groups, h⟩ hslot hpeek => ⟨folded, groups, h.queue hslot hpeek⟩
  prove := by
    rintro tick log a htick hlog ⟨folded, groups, h⟩ -
    exact ⟨h.handSlots hlog tick.tree, fun proven hproven =>
      ⟨folded, _, h.adoptSlotProof (hready tick htick) hproven⟩⟩
  fold := by
    rintro tick log a htick hlog ⟨folded, groups, h⟩
    exact ⟨h.handOutputs hlog, fun proven hproven =>
      ⟨_, [], h.adoptJustification (hready tick htick) hproven⟩⟩

end Zkasper.Batch
