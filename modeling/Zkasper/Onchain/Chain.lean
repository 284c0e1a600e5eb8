import Zkasper.Onchain.Encoding

/-! # Finality on chain

The contract over one honest chain of epochs: its verifiers take exactly what the
guests publish about that chain, and anybody may send anything in any order.

The accumulator never goes back, because an epoch diff starts where the contract
stands and ends one epoch on. The checkpoint does. `submitFinality` takes a proof
whose first or second accumulator is the current one and compares it with nothing
else, so the proof of the epoch before is still taken after the proof of the
standing epoch was, and a commitment that repeats lets older ones in. Sent in time
(`Timely`) proofs move the checkpoint forward only (`finality_nondecreasing`), and
where commitments differ nothing else does. -/

namespace Zkasper.Onchain

variable {P : Primitives} {e : Encoding P}

/-! ## The chain and its proofs -/

/-- **One honest chain**: an accumulator, a boundary state and a finalized block an
epoch. A registry may repeat and its commitment with it; the states of two
boundaries differ, since each of them names its slot. -/
structure HonestChain (e : Encoding P) where
  commitment : ℕ → P.Digest
  accRoot : ℕ → P.Digest
  totalActiveBalance : ℕ → UInt64
  stateRoot : ℕ → P.Bytes32
  blockRoot : ℕ → P.Bytes32
  stateRoot_inj : ∀ m < 2 ^ 64, ∀ n < 2 ^ 64,
    e.bytes32 (stateRoot m) = e.bytes32 (stateRoot n) → m = n

namespace HonestChain

variable (chain : HonestChain e)

/-- What a bootstrap at epoch `n` publishes. -/
def bootstrapWords (n : ℕ) : List UInt32 :=
  submitted e [.digest (chain.commitment n), .digest (chain.accRoot n),
    .u64 (chain.totalActiveBalance n), .bytes32 (chain.stateRoot n), .u64 (UInt64.ofNat n)]

/-- What the epoch diff from epoch `n` to the next publishes. -/
def diffWords (n : ℕ) : List UInt32 :=
  submitted e (EpochDiffOutput.publicBytes ⟨chain.commitment n, chain.stateRoot n, UInt64.ofNat n,
    chain.commitment (n + 1), chain.accRoot (n + 1), chain.totalActiveBalance (n + 1),
    chain.stateRoot (n + 1), UInt64.ofNat (n + 1)⟩)

/-- What the finality proof of epoch `n` publishes. -/
def finalityWords (n : ℕ) : List UInt32 :=
  submitted e (FinalizationOutput.publicBytes ⟨chain.commitment n, chain.commitment (n + 1),
    UInt64.ofNat n, chain.blockRoot n, chain.stateRoot n⟩)

/-- The verifiers accept exactly what the guests publish about the chain. -/
structure Verified (V : Verifiers) : Prop where
  bootstrap : ∀ words, (∃ proof, V.bootstrapVerifier proof words = true) ↔
    ∃ n < 2 ^ 64, words = chain.bootstrapWords n
  epochDiff : ∀ words, (∃ proof, V.epochDiffVerifier proof words = true) ↔
    ∃ n, n + 1 < 2 ^ 64 ∧ words = chain.diffWords n
  finality : ∀ words, (∃ proof, V.finalityVerifier proof words = true) ↔
    ∃ n, n + 1 < 2 ^ 64 ∧ words = chain.finalityWords n

/-- The contract stands at epoch `n`: its accumulator and its state are that epoch's. -/
def StandsAt (s : Storage) (n : ℕ) : Prop :=
  s.accumulatorCommitment.bytes = (fieldBytes e (.digest (chain.commitment n))).reverse ∧
    s.latestStateRoot.bytes = (e.bytes32 (chain.stateRoot n)).1.reverse

instance (s : Storage) (n : ℕ) : Decidable (chain.StandsAt s n) :=
  inferInstanceAs (Decidable (_ ∧ _))

variable {chain}

/-- It stands at one epoch: two boundary states differ. -/
theorem StandsAt.unique {s : Storage} {m n : ℕ} (hm : m < 2 ^ 64) (hn : n < 2 ^ 64)
    (h : chain.StandsAt s m) (h' : chain.StandsAt s n) : m = n := by
  apply chain.stateRoot_inj m hm n hn
  apply Subtype.ext
  exact List.reverse_injective (h.2.symm.trans h'.2)

end HonestChain

/-- The finalized epoch a finality proof names, in its words 16 and 17. -/
def finalizedEpoch (words : List UInt32) : ℕ := readU64 words 16

/-- A finality proof names its own epoch. -/
@[simp] theorem finalizedEpoch_finalityWords (chain : HonestChain e) {n : ℕ} (hn : n < 2 ^ 64) :
    finalizedEpoch (chain.finalityWords n) = n := by
  have hread := readU64_field e
    [.digest (chain.commitment n), .digest (chain.commitment (n + 1))]
    [.bytes32 (chain.blockRoot n), .bytes32 (chain.stateRoot n)] (UInt64.ofNat n)
  rwa [UInt64.toNat_ofNat_of_lt' hn] at hread

/-! ## A run of the contract -/

/-- The storage, and what the proof that its checkpoint came from published. -/
structure Tracked where
  storage : Storage
  source : Option (List UInt32)

/-- The finalized epoch of the checkpoint stored, once there is one. -/
def Tracked.epoch (t : Tracked) : Option ℕ := t.source.map finalizedEpoch

/-- One transaction: a finality proof that goes through is the checkpoint's new source. -/
def track (V : Verifiers) (t : Tracked) (tx : Transaction) : Tracked where
  storage := tx.apply V t.storage
  source :=
    match tx, tx.run V t.storage with
    | .submitFinality _ publicOutputs, .ok _ => some publicOutputs
    | _, _ => t.source

/-- The state after some transactions, from the deployed contract on. -/
def runAll (V : Verifiers) (txs : List Transaction) : Tracked :=
  txs.foldl (track V) ⟨.deployed, none⟩

/-- What a transaction can do: nothing, or one of the three. -/
theorem track_cases (V : Verifiers) (t : Tracked) (tx : Transaction) :
    track V t tx = t ∨
    (∃ proof words s', tx = .bootstrap proof words ∧ bootstrap V proof words t.storage = .ok s' ∧
      track V t tx = ⟨s', t.source⟩) ∨
    (∃ proof words s', tx = .submitEpochDiff proof words ∧
      submitEpochDiff V proof words t.storage = .ok s' ∧ track V t tx = ⟨s', t.source⟩) ∨
    (∃ proof words s', tx = .submitFinality proof words ∧
      submitFinality V proof words t.storage = .ok s' ∧ track V t tx = ⟨s', some words⟩) := by
  cases hrun : tx.run V t.storage with
  | error message =>
      left
      unfold track Transaction.apply
      rw [hrun]
      cases tx <;> rfl
  | ok s' =>
      right
      have htrack : track V t tx = ⟨s', (track V t tx).source⟩ := by
        unfold track Transaction.apply
        rw [hrun]
      cases tx with
      | bootstrap proof words =>
          exact .inl ⟨proof, words, s', rfl, hrun, htrack⟩
      | submitEpochDiff proof words =>
          exact .inr (.inl ⟨proof, words, s', rfl, hrun, htrack⟩)
      | submitFinality proof words =>
          refine .inr (.inr ⟨proof, words, s', rfl, hrun, htrack.trans ?_⟩)
          unfold track
          simp only [hrun]

/-- **The two stored values come from one proof**, the source, or are still the
ones the contract was deployed with. -/
theorem runAll_source (V : Verifiers) (txs : List Transaction) :
    match (runAll V txs).source with
    | none => (runAll V txs).storage.latestFinalizedBlockRoot = 0 ∧
        (runAll V txs).storage.latestFinalizedStateRoot = 0
    | some words =>
        extractBytes32 words finRoot = .ok (runAll V txs).storage.latestFinalizedBlockRoot ∧
          extractBytes32 words finStateRoot =
            .ok (runAll V txs).storage.latestFinalizedStateRoot := by
  induction txs using List.reverseRecOn with
  | nil => exact ⟨rfl, rfl⟩
  | append_singleton txs tx ih =>
      have hstep : runAll V (txs ++ [tx]) = track V (runAll V txs) tx := by simp [runAll]
      rw [hstep]
      rcases track_cases V (runAll V txs) tx with h | ⟨_, _, _, -, hrun, h⟩ |
        ⟨_, _, _, -, hrun, h⟩ | ⟨_, words, s', -, hrun, h⟩
      · rwa [h]
      · obtain ⟨-, -, -, -, hs⟩ := bootstrap_eq_ok hrun
        rw [h, hs]
        exact ih
      · obtain ⟨-, -, -, -, -, -, hs⟩ := submitEpochDiff_eq_ok hrun
        rw [h, hs]
        exact ih
      · obtain ⟨-, -, -, hblock, hstate, -⟩ := submitFinality_eq_ok hrun
        rw [h]
        exact ⟨hblock, hstate⟩

/-! ## Where a run stands -/

section Runs

variable {chain : HonestChain e} {V : Verifiers}

/-- The checks of `submitFinality`, on its input and the storage before. -/
structure PassesChecks (V : Verifiers) (proof : List UInt8) (words : List UInt32) (s : Storage) :
    Prop where
  initialized : s.initialized = true
  verified : V.finalityVerifier proof words = true
  commitment : extractBytes32 words finCommitment = .ok s.accumulatorCommitment ∨
    extractBytes32 words finNextCommitment = .ok s.accumulatorCommitment

/-- **A finality proof sent in time**: of the epoch the contract stands at, or of
the epoch before it while the checkpoint is not yet of the standing epoch. Every
other transaction is in time. -/
def Timely (chain : HonestChain e) (V : Verifiers) (t : Tracked) : Transaction → Prop
  | .submitFinality proof words => PassesChecks V proof words t.storage →
      chain.StandsAt t.storage (finalizedEpoch words) ∨
        (chain.StandsAt t.storage (finalizedEpoch words + 1) ∧
          t.epoch ≠ some (finalizedEpoch words + 1))
  | _ => True

/-- Every transaction of the run is in time where it is sent. -/
def TimelyRun (chain : HonestChain e) (V : Verifiers) (txs : List Transaction) : Prop :=
  ∀ xs tx zs, txs = xs ++ tx :: zs → Timely chain V (runAll V xs) tx

/-- **Finality never regresses**: of any two states of the run, the later one's
checkpoint is of no earlier epoch. -/
def NonDecreasing (V : Verifiers) (txs : List Transaction) : Prop :=
  ∀ xs ys zs, txs = xs ++ ys ++ zs → ∀ m n, (runAll V xs).epoch = some m →
    (runAll V (xs ++ ys)).epoch = some n → m ≤ n

/-- The two commitments of every two epochs differ. -/
def HonestChain.CommitmentsDiffer (chain : HonestChain e) : Prop :=
  ∀ m < 2 ^ 64, ∀ n < 2 ^ 64, fieldBytes e (.digest (chain.commitment m)) =
    fieldBytes e (.digest (chain.commitment n)) → m = n

/-- **Where a run stands**: nowhere yet, or at an epoch no checkpoint is past. -/
def Stands (chain : HonestChain e) (t : Tracked) : Prop :=
  (t.storage.initialized = false ∧ t.source = none) ∨
    ∃ p < 2 ^ 64, t.storage.initialized = true ∧ chain.StandsAt t.storage p ∧
      ∀ k, t.epoch = some k → k ≤ p

/-- A bootstrap puts the contract at the epoch of its proof. -/
theorem standsAt_of_bootstrap (hV : chain.Verified V) {proof : List UInt8} {words : List UInt32}
    {s s' : Storage} (h : bootstrap V proof words s = .ok s') :
    ∃ n < 2 ^ 64, chain.StandsAt s' n := by
  obtain ⟨-, hverify, hcommitment, hroot, -⟩ := bootstrap_eq_ok h
  obtain ⟨n, hn, rfl⟩ := (hV.bootstrap words).mp ⟨proof, hverify⟩
  refine ⟨n, hn, ?_, ?_⟩
  · exact ReadsAs.eq (extract_field e [] _ (.digest (chain.commitment n)) rfl) hcommitment
  · exact ReadsAs.eq (extract_field e [.digest (chain.commitment n), .digest (chain.accRoot n),
      .u64 (chain.totalActiveBalance n)] _ (.bytes32 (chain.stateRoot n)) rfl) hroot

/-- An epoch diff takes the contract from the epoch it stands at to the next. -/
theorem standsAt_of_submitEpochDiff (hV : chain.Verified V) {proof : List UInt8}
    {words : List UInt32} {s s' : Storage} {p : ℕ} (hp : p < 2 ^ 64) (hs : chain.StandsAt s p)
    (h : submitEpochDiff V proof words s = .ok s') :
    p + 1 < 2 ^ 64 ∧ chain.StandsAt s' (p + 1) := by
  obtain ⟨-, hverify, hc1, hr1, hc2, hr2, -⟩ := submitEpochDiff_eq_ok h
  obtain ⟨n, hn, rfl⟩ := (hV.epochDiff words).mp ⟨proof, hverify⟩
  have hread := diffFields_read e ⟨chain.commitment n, chain.stateRoot n, UInt64.ofNat n,
    chain.commitment (n + 1), chain.accRoot (n + 1), chain.totalActiveBalance (n + 1),
    chain.stateRoot (n + 1), UInt64.ofNat (n + 1)⟩
  simp only [diffFields, List.forall_mem_cons, List.not_mem_nil, false_imp_iff, implies_true,
    and_true] at hread
  obtain ⟨hread1, hread2, hread3, hread4⟩ := hread
  obtain rfl : p = n := hs.unique hp (by omega) ⟨hread1.eq hc1, hread2.eq hr1⟩
  exact ⟨hn, hread3.eq hc2, hread4.eq hr2⟩

/-- What the contract reads of a finality proof of the chain. -/
theorem finalityWords_read (chain : HonestChain e) (n : ℕ) :
    ReadsAs (chain.finalityWords n) finCommitment
        (fieldBytes e (.digest (chain.commitment n))).reverse ∧
      ReadsAs (chain.finalityWords n) finNextCommitment
        (fieldBytes e (.digest (chain.commitment (n + 1)))).reverse ∧
      ReadsAs (chain.finalityWords n) finRoot (e.bytes32 (chain.blockRoot n)).1.reverse ∧
      ReadsAs (chain.finalityWords n) finStateRoot (e.bytes32 (chain.stateRoot n)).1.reverse := by
  have hread := finalityFields_read e ⟨chain.commitment n, chain.commitment (n + 1),
    UInt64.ofNat n, chain.blockRoot n, chain.stateRoot n⟩
  simp only [finalityFields, List.forall_mem_cons, List.not_mem_nil, false_imp_iff, implies_true,
    and_true] at hread
  exact hread

/-- Where commitments differ, a finality proof the contract takes is of the epoch
it stands at or of the one before. -/
theorem epoch_of_commitment (hdiffer : chain.CommitmentsDiffer) {s : Storage} {p n : ℕ}
    (hp : p < 2 ^ 64) (hn : n + 1 < 2 ^ 64) (hs : chain.StandsAt s p)
    (h : extractBytes32 (chain.finalityWords n) finCommitment = .ok s.accumulatorCommitment ∨
      extractBytes32 (chain.finalityWords n) finNextCommitment = .ok s.accumulatorCommitment) :
    n = p ∨ n + 1 = p := by
  obtain ⟨hfirst, hsecond, -⟩ := finalityWords_read chain n
  rcases h with h | h
  · left
    apply hdiffer n (by omega) p hp
    exact List.reverse_injective ((hfirst.eq h).symm.trans hs.1)
  · right
    apply hdiffer (n + 1) hn p hp
    exact List.reverse_injective ((hsecond.eq h).symm.trans hs.1)

/-- A finality proof that passes the checks goes through. -/
theorem submitFinality_of_checks {n : ℕ} {proof : List UInt8} {s : Storage}
    (h : PassesChecks V proof (chain.finalityWords n) s) :
    ∃ s', submitFinality V proof (chain.finalityWords n) s = .ok s' := by
  obtain ⟨⟨c, hc, -⟩, ⟨c', hc', -⟩, ⟨b, hb, -⟩, ⟨r, hr, -⟩⟩ := finalityWords_read chain n
  have hlength : (chain.finalityWords n).length = 34 := submitted_length e _
  have hmatch : c = s.accumulatorCommitment ∨ c' = s.accumulatorCommitment := by
    rcases h.commitment with hm | hm
    · exact .inl (Except.ok.inj (hc.symm.trans hm))
    · exact .inr (Except.ok.inj (hc'.symm.trans hm))
  refine ⟨{ s with latestFinalizedBlockRoot := b, latestFinalizedStateRoot := r }, ?_⟩
  simp only [submitFinality, Guest.bind_eq_ok, Guest.assert_eq_ok, Guest.pure_eq_ok, exists_const]
  exact ⟨h.initialized, by rw [hlength]; decide, h.verified, c, hc, c', hc', hmatch, b, hb, r, hr,
    rfl⟩

/-- **One transaction in time** keeps where the run stands, and the checkpoint
goes back to no earlier epoch. -/
theorem track_stands (hV : chain.Verified V) {t : Tracked} (ht : Stands chain t)
    {tx : Transaction} (htimely : Timely chain V t tx) :
    Stands chain (track V t tx) ∧
      ∀ m, t.epoch = some m → ∃ n, (track V t tx).epoch = some n ∧ m ≤ n := by
  rcases track_cases V t tx with h | ⟨proof, words, s', -, hrun, h⟩ |
    ⟨proof, words, s', -, hrun, h⟩ | ⟨proof, words, s', rfl, hrun, h⟩
  · rw [h]
    exact ⟨ht, fun m hm => ⟨m, hm, le_rfl⟩⟩
  · -- a bootstrap: nothing was finalized yet
    obtain ⟨hinit, -, -, -, hs⟩ := bootstrap_eq_ok hrun
    obtain ⟨p, hp, hstands⟩ := standsAt_of_bootstrap hV hrun
    rcases ht with ⟨-, hsource⟩ | ⟨_, _, hinit', _⟩
    · have hepoch : t.epoch = none := by rw [Tracked.epoch, hsource]; rfl
      rw [h]
      refine ⟨.inr ⟨p, hp, by rw [hs], hstands, fun k hk => ?_⟩, fun m hm => ?_⟩
      · exact absurd (hepoch.symm.trans hk) (by simp)
      · exact absurd (hepoch.symm.trans hm) (by simp)
    · exact absurd (hinit.symm.trans hinit') (by decide)
  · -- an epoch diff: the contract moves on, and the checkpoint stays
    obtain ⟨hinit, -, -, -, -, -, hs⟩ := submitEpochDiff_eq_ok hrun
    rcases ht with ⟨hinit', -⟩ | ⟨p, hp, -, hstands, hepoch⟩
    · exact absurd (hinit'.symm.trans hinit) (by decide)
    · obtain ⟨hp', hstands'⟩ := standsAt_of_submitEpochDiff hV hp hstands hrun
      rw [h]
      refine ⟨.inr ⟨p + 1, hp', by rw [hs]; exact hinit, hstands', fun k hk => ?_⟩,
        fun m hm => ⟨m, hm, le_rfl⟩⟩
      exact (hepoch k hk).trans (Nat.le_succ p)
  · -- a finality proof: of this epoch, or of the one before with the checkpoint behind
    obtain ⟨hinit, hverify, hcommitment, -, -, hs⟩ := submitFinality_eq_ok hrun
    obtain ⟨n, hn, rfl⟩ := (hV.finality words).mp ⟨proof, hverify⟩
    have hword : finalizedEpoch (chain.finalityWords n) = n :=
      finalizedEpoch_finalityWords chain (by omega)
    have hposition := htimely ⟨hinit, hverify, hcommitment⟩
    rw [hword] at hposition
    rcases ht with ⟨hinit', -⟩ | ⟨p, hp, -, hstands, hepoch⟩
    · exact absurd (hinit'.symm.trans hinit) (by decide)
    · have hnew : (track V t (.submitFinality proof (chain.finalityWords n))).epoch = some n := by
        rw [h, Tracked.epoch, Option.map_some, hword]
      have hplace : n ≤ p ∧ ∀ m, t.epoch = some m → m ≤ n := by
        rcases hposition with hat | ⟨hat, hbehind⟩
        · obtain rfl := hat.unique (by omega) hp hstands
          exact ⟨le_rfl, hepoch⟩
        · obtain rfl := hat.unique hn hp hstands
          refine ⟨Nat.le_succ n, fun m hm => ?_⟩
          have hle := hepoch m hm
          have hne : m ≠ n + 1 := fun heq => hbehind (heq ▸ hm)
          omega
      refine ⟨.inr ⟨p, hp, ?_, ?_, fun k hk => ?_⟩, fun m hm => ⟨n, hnew, hplace.2 m hm⟩⟩
      · rw [h, hs]
        exact hinit
      · rw [h, hs]
        exact hstands
      · rw [hnew] at hk
        obtain rfl := Option.some.inj hk
        exact hplace.1

theorem runAll_append (xs : List Transaction) (tx : Transaction) :
    runAll V (xs ++ [tx]) = track V (runAll V xs) tx := by
  rw [runAll, List.foldl_append]
  rfl

/-- **A run in time stands at an epoch no checkpoint is past.** -/
theorem runAll_stands (hV : chain.Verified V) {txs : List Transaction}
    (htimely : TimelyRun chain V txs) : Stands chain (runAll V txs) := by
  induction txs using List.reverseRecOn with
  | nil => exact .inl ⟨rfl, rfl⟩
  | append_singleton txs tx ih =>
      have hbefore : TimelyRun chain V txs := by
        rintro xs tx' zs rfl
        exact htimely xs tx' (zs ++ [tx]) (by simp)
      rw [runAll_append]
      exact (track_stands hV (ih hbefore) (htimely txs tx [] rfl)).1

/-- From one state of a run in time to a later one, the checkpoint goes forward. -/
theorem epoch_le_of_timely (hV : chain.Verified V) {txs : List Transaction}
    (htimely : TimelyRun chain V txs) (xs : List Transaction) {m : ℕ}
    (hm : (runAll V xs).epoch = some m) : ∀ ys zs, txs = xs ++ ys ++ zs →
      ∃ n, (runAll V (xs ++ ys)).epoch = some n ∧ m ≤ n := by
  intro ys
  induction ys using List.reverseRecOn with
  | nil =>
      intro zs _
      exact ⟨m, by rwa [List.append_nil], le_rfl⟩
  | append_singleton ys tx ih =>
      rintro zs rfl
      obtain ⟨n, hn, hle⟩ := ih (tx :: zs) (by simp)
      have hbefore : TimelyRun chain V (xs ++ ys) := by
        intro xs' tx' zs' heq
        exact htimely xs' tx' (zs' ++ [tx] ++ zs) (by
          rw [← List.append_assoc, heq]
          simp)
      have htx : Timely chain V (runAll V (xs ++ ys)) tx := htimely (xs ++ ys) tx zs (by simp)
      obtain ⟨n', hn', hle'⟩ := (track_stands hV (runAll_stands hV hbefore) htx).2 n hn
      exact ⟨n', by rw [← List.append_assoc, runAll_append, hn'], hle.trans hle'⟩

/-- Where commitments differ, a proof that the contract takes out of time puts the
checkpoint one epoch back. -/
theorem epoch_of_not_timely (hV : chain.Verified V) (hdiffer : chain.CommitmentsDiffer)
    {t : Tracked} (ht : Stands chain t) {tx : Transaction} (h : ¬ Timely chain V t tx) :
    ∃ n, t.epoch = some (n + 1) ∧ (track V t tx).epoch = some n := by
  cases tx with
  | bootstrap proof words => exact absurd trivial h
  | submitEpochDiff proof words => exact absurd trivial h
  | submitFinality proof words =>
      simp only [Timely, Classical.not_imp, not_or, not_and, not_not] at h
      obtain ⟨hchecks, hnot, hbehind⟩ := h
      obtain ⟨n, hn, rfl⟩ := (hV.finality words).mp ⟨proof, hchecks.verified⟩
      have hword : finalizedEpoch (chain.finalityWords n) = n :=
        finalizedEpoch_finalityWords chain (by omega)
      rw [hword] at hnot hbehind
      rcases ht with ⟨hinit, -⟩ | ⟨p, hp, -, hstands, -⟩
      · exact absurd (hinit.symm.trans hchecks.initialized) (by decide)
      · rcases epoch_of_commitment hdiffer hp hn hstands hchecks.commitment with rfl | rfl
        · exact absurd hstands hnot
        · obtain ⟨s', hrun⟩ := submitFinality_of_checks hchecks
          refine ⟨n, hbehind hstands, ?_⟩
          have hsource : (track V t (.submitFinality proof (chain.finalityWords n))).source =
              some (chain.finalityWords n) := by
            have hrun' : (Transaction.submitFinality proof (chain.finalityWords n)).run V
                t.storage = .ok s' := hrun
            simp only [track, hrun']
          rw [Tracked.epoch, hsource, Option.map_some, hword]

/-- **On-chain finality.** Over one honest chain, whoever sends what in whatever
order: the two stored values always come from one proof; a run whose finality
proofs are all sent in time never goes back; and where commitments differ those
are the only runs that never do. -/
theorem finality_nondecreasing (hV : chain.Verified V) (txs : List Transaction) :
    (match (runAll V txs).source with
      | none => (runAll V txs).storage.latestFinalizedBlockRoot = 0 ∧
          (runAll V txs).storage.latestFinalizedStateRoot = 0
      | some words =>
          extractBytes32 words finRoot = .ok (runAll V txs).storage.latestFinalizedBlockRoot ∧
            extractBytes32 words finStateRoot =
              .ok (runAll V txs).storage.latestFinalizedStateRoot) ∧
    (TimelyRun chain V txs → NonDecreasing V txs) ∧
    (chain.CommitmentsDiffer → (NonDecreasing V txs ↔ TimelyRun chain V txs)) := by
  have hforward : TimelyRun chain V txs → NonDecreasing V txs := by
    intro htimely xs ys zs htxs m n hm hn
    obtain ⟨n', hn', hle⟩ := epoch_le_of_timely hV htimely xs hm ys zs htxs
    obtain rfl := Option.some.inj (hn.symm.trans hn')
    exact hle
  refine ⟨runAll_source V txs, hforward, fun hdiffer => ⟨fun hnondecreasing => ?_, hforward⟩⟩
  -- the first transaction out of time would take the checkpoint back
  intro xs
  induction hlength : xs.length using Nat.strong_induction_on generalizing xs with
  | _ k ih =>
      intro tx zs htxs
      by_contra hlate
      have hbefore : TimelyRun chain V xs := by
        rintro xs' tx' zs' rfl
        refine ih xs'.length ?_ xs' rfl tx' (zs' ++ tx :: zs) (by simp [htxs])
        rw [← hlength, List.length_append, List.length_cons]
        omega
      obtain ⟨n, hm, hn⟩ := epoch_of_not_timely hV hdiffer (runAll_stands hV hbefore) hlate
      have hle := hnondecreasing xs [tx] zs (by simp [htxs]) (n + 1) n hm
        (by rw [runAll_append, hn])
      omega

end Runs

/-! ## A run that regresses -/

namespace HonestChain

/-- The verifiers of a chain: they look up the epoch that some words name. -/
def verifiers (chain : HonestChain e) : Verifiers where
  bootstrapVerifier _ words :=
    decide (readU64 words 26 < 2 ^ 64 ∧ words = chain.bootstrapWords (readU64 words 26))
  epochDiffVerifier _ words :=
    decide (readU64 words 16 + 1 < 2 ^ 64 ∧ words = chain.diffWords (readU64 words 16))
  finalityVerifier _ words :=
    decide (readU64 words 16 + 1 < 2 ^ 64 ∧ words = chain.finalityWords (readU64 words 16))

theorem verifiers_verified (chain : HonestChain e) : chain.Verified chain.verifiers where
  bootstrap words := by
    simp only [verifiers, decide_eq_true_eq, exists_const]
    refine ⟨fun h => ⟨_, h⟩, ?_⟩
    rintro ⟨n, hn, rfl⟩
    have hread : readU64 (chain.bootstrapWords n) 26 = n := by
      have := readU64_field e [.digest (chain.commitment n), .digest (chain.accRoot n),
        .u64 (chain.totalActiveBalance n), .bytes32 (chain.stateRoot n)] [] (UInt64.ofNat n)
      rwa [UInt64.toNat_ofNat_of_lt' hn] at this
    rw [hread]
    exact ⟨hn, rfl⟩
  epochDiff words := by
    simp only [verifiers, decide_eq_true_eq, exists_const]
    refine ⟨fun h => ⟨_, h⟩, ?_⟩
    rintro ⟨n, hn, rfl⟩
    have hread : readU64 (chain.diffWords n) 16 = n := by
      have := readU64_field e [.digest (chain.commitment n), .bytes32 (chain.stateRoot n)]
        [.digest (chain.commitment (n + 1)), .digest (chain.accRoot (n + 1)),
          .u64 (chain.totalActiveBalance (n + 1)), .bytes32 (chain.stateRoot (n + 1)),
          .u64 (UInt64.ofNat (n + 1))] (UInt64.ofNat n)
      rwa [UInt64.toNat_ofNat_of_lt' (show n < 2 ^ 64 by omega)] at this
    rw [hread]
    exact ⟨hn, rfl⟩
  finality words := by
    simp only [verifiers, decide_eq_true_eq, exists_const]
    refine ⟨fun h => ⟨_, h⟩, ?_⟩
    rintro ⟨n, hn, rfl⟩
    have hread : readU64 (chain.finalityWords n) 16 = n :=
      finalizedEpoch_finalityWords chain (by omega)
    rw [hread]
    exact ⟨hn, rfl⟩

/-- A chain whose every value is the number of its epoch. -/
def numbered : HonestChain (freeEncoding {}) where
  commitment n := .leaf 0 (UInt64.ofNat n)
  accRoot n := .leaf 0 (UInt64.ofNat n)
  totalActiveBalance _ := 32
  stateRoot n := .bytes (u64ToChunk (UInt64.ofNat n)).1
  blockRoot n := .bytes (u64ToChunk (UInt64.ofNat n)).1
  stateRoot_inj m hm n hn h := by
    rw [freeEncoding_bytes, freeEncoding_bytes] at h
    have htoNat := congrArg UInt64.toNat (u64ToChunk_injective h)
    rwa [UInt64.toNat_ofNat_of_lt' hm, UInt64.toNat_ofNat_of_lt' hn] at htoNat

end HonestChain

/-- One more transaction in time. -/
theorem TimelyRun.concat {chain : HonestChain e} {V : Verifiers} {txs : List Transaction}
    (h : TimelyRun chain V txs) (tx : Transaction) (htx : Timely chain V (runAll V txs) tx) :
    TimelyRun chain V (txs ++ [tx]) := by
  intro xs tx' zs hsplit
  rcases List.eq_nil_or_concat zs with rfl | ⟨zs, last, rfl⟩
  · obtain ⟨rfl, hlast⟩ := List.append_inj' hsplit rfl
    obtain rfl := List.singleton_inj.mp hlast
    exact htx
  · rw [List.concat_eq_append, ← List.cons_append, ← List.append_assoc] at hsplit
    obtain ⟨rfl, -⟩ := List.append_inj' hsplit rfl
    exact h xs tx' zs rfl

open HonestChain in
/-- A bootstrap at epoch 1, two epoch diffs, and the finality proofs of three epochs among them,
that of epoch 1 when the contract stands at epoch 2 already: all are in time, so the run never
goes back. -/
theorem finality_nondecreasing_numbered :
    let V := numbered.verifiers
    let txs : List Transaction := [.bootstrap [] (numbered.bootstrapWords 1),
      .submitEpochDiff [] (numbered.diffWords 1), .submitFinality [] (numbered.finalityWords 1),
      .submitFinality [] (numbered.finalityWords 2), .submitEpochDiff [] (numbered.diffWords 2),
      .submitFinality [] (numbered.finalityWords 3)]
    (runAll V (txs.take 3)).epoch = some 1 ∧ (runAll V (txs.take 4)).epoch = some 2 ∧
      (runAll V txs).epoch = some 3 ∧ NonDecreasing V txs := by
  intro V txs
  refine ⟨by decide +kernel, by decide +kernel, by decide +kernel, ?_⟩
  apply (finality_nondecreasing numbered.verifiers_verified txs).2.1
  have hnone : TimelyRun numbered V [] := fun xs tx zs h => by simp at h
  have hdiffs := (hnone.concat (.bootstrap [] (numbered.bootstrapWords 1)) trivial).concat
    (.submitEpochDiff [] (numbered.diffWords 1)) trivial
  have hfirst := hdiffs.concat (.submitFinality [] (numbered.finalityWords 1))
    fun _ => .inr (by decide +kernel)
  have hsecond := hfirst.concat (.submitFinality [] (numbered.finalityWords 2))
    fun _ => .inl (by decide +kernel)
  have hstands := hsecond.concat (.submitEpochDiff [] (numbered.diffWords 2)) trivial
  exact hstands.concat (.submitFinality [] (numbered.finalityWords 3))
    fun _ => .inl (by decide +kernel)

open HonestChain in
/-- **The checkpoint goes back**: a bootstrap at epoch 1, the finality proof of
epoch 1 under its first accumulator, then that of epoch 0 under its second. Every
proof is genuine, each is sent once, and no two commitments are the same. -/
theorem finality_regresses :
    let V := numbered.verifiers
    let txs : List Transaction := [.bootstrap [] (numbered.bootstrapWords 1),
      .submitFinality [] (numbered.finalityWords 1), .submitFinality [] (numbered.finalityWords 0)]
    numbered.Verified V ∧ (runAll V (txs.take 2)).epoch = some 1 ∧
      (runAll V txs).epoch = some 0 ∧ ¬ NonDecreasing V txs := by
  intro V txs
  have hbefore : (runAll V (txs.take 2)).epoch = some 1 := by decide +kernel
  have hafter : (runAll V txs).epoch = some 0 := by decide +kernel
  refine ⟨numbered.verifiers_verified, hbefore, hafter, fun h => ?_⟩
  exact absurd (h (txs.take 2) (txs.drop 2) [] (by rfl) 1 0 hbefore hafter) (by decide)

end Zkasper.Onchain
