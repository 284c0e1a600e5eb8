import Zkasper.Merkle

/-! # What a multi-opening leaves unnamed

An opening that is accepted takes the canonical auxiliaries of its tree, whatever list it was
given (`batchRoot_auxiliaries`). So two openings of the same indices take the same auxiliaries
exactly when the two trees agree on every leaf that is not named (`auxiliaries_eq_iff`). -/

namespace Zkasper.Merkle

open PerfectTree

variable {T : Type} {compress : T → T → T}

/-! ## The auxiliaries of an accepted opening -/

/-- **A level takes the missing children** of its tree, where its parents are those of the tree. -/
theorem scanLevel_auxiliaries (hc : Function.Injective2 compress) {t : ℕ → T}
    (nodes : List (ℕ × T)) :
    ∀ {aux parents rest}, scanLevel compress nodes aux = .ok (parents, rest) →
      (nodes.map Prod.fst).Pairwise (· < ·) → (∀ p ∈ parents, p.2 = above compress t p.1) →
        aux = (missingChildren (nodes.map Prod.fst)).map t ++ rest := by
  induction nodes using level_induction with
  | nil =>
      intro aux parents rest hrun _ _
      obtain ⟨-, rfl⟩ := Prod.mk.inj (Guest.pure_eq_ok.mp hrun)
      rfl
  | merge k v v' nodes hk ih =>
      intro aux parents rest hrun hlt hparents
      obtain ⟨next, hscan, rfl⟩ := (scanLevel_merge_eq_ok hk).mp hrun
      simp only [List.map_cons]
      rw [missingChildren_pair hk (past_merge hlt)]
      exact ih hscan (List.Pairwise.of_cons (List.Pairwise.of_cons hlt))
        fun p hp => hparents p (List.mem_cons_of_mem _ hp)
  | alone k v nodes hk ih =>
      intro aux parents rest hrun hlt hparents
      obtain ⟨sibling, aux', next, rfl, hscan, rfl⟩ := (scanLevel_alone_eq_ok hk).mp hrun
      have hown := (join_eq_above hc (hparents _ List.mem_cons_self)).2
      have hrest := ih hscan (List.Pairwise.of_cons hlt)
        fun p hp => hparents p (List.mem_cons_of_mem _ hp)
      simp only [List.map_cons]
      rw [missingChildren_cons (past_alone hk hlt), List.map_cons, List.cons_append, hown, hrest]

theorem climbLevels_auxiliaries (hc : Function.Injective2 compress) :
    ∀ {d : ℕ} {t : ℕ → T} {nodes top aux rest},
      climbLevels compress d nodes aux = .ok (top, rest) →
        (nodes.map Prod.fst).Pairwise (· < ·) → (∀ p ∈ top, p.2 = root compress d t) →
          aux = canonicalAuxiliaries compress d (tile d t) (nodes.map Prod.fst) ++ rest := by
  intro d
  induction d with
  | zero =>
      intro t nodes top aux rest hrun _ _
      obtain ⟨-, rfl⟩ := Prod.mk.inj (Guest.pure_eq_ok.mp hrun)
      rfl
  | succ d ih =>
      intro t nodes top aux rest hrun hlt htop
      obtain ⟨parents, aux', hscan, hclimb⟩ := climbLevels_succ_eq_ok.mp hrun
      have hindices := (scanLevel_shape nodes hscan hlt).1
      have hrest := ih (t := above compress t) hclimb (hindices ▸ parentsOf_pairwise hlt) htop
      have hparents : ∀ p ∈ parents, p.2 = above compress (tile (d + 1) t) p.1 := by
        intro p hp
        rw [above_tile]
        exact (climbLevels_sound hc hclimb htop p hp).1
      rw [canonicalAuxiliaries, above_tile, List.append_assoc, ← hindices, ← hrest]
      exact scanLevel_auxiliaries hc nodes hscan hlt hparents

/-- **An accepted opening takes the canonical auxiliaries** of the tree it opens. -/
theorem batchRoot_auxiliaries (hc : Function.Injective2 compress) {t : ℕ → T} {d : ℕ}
    {leaves : List (T × ℕ)} {aux : List T}
    (hrun : batchRoot compress leaves aux d = .ok (root compress d t)) :
    aux = canonicalAuxiliaries compress d (tile d t) (leaves.map Prod.snd) := by
  obtain ⟨hlt, hcolumns⟩ := batchRoot_eq_ok.mp hrun
  obtain ⟨-, high, hclimb⟩ := batchRootColumns_eq_ok.mp hcolumns
  have hindices : (leaves.map Prod.swap).map Prod.fst = leaves.map Prod.snd := by
    simp [Function.comp_def]
  have htop : ∀ p ∈ [(high, root compress d t)], p.2 = root compress d t := by
    intro p hp
    rw [List.mem_singleton.mp hp]
  have haux := climbLevels_auxiliaries hc hclimb (hindices.symm ▸ hlt) htop
  rwa [hindices, List.append_nil] at haux

/-! ## What they say of the leaves -/

/-- A child that is missing has its sibling named. -/
theorem mem_missingChildren {i : ℕ} {ks : List ℕ} :
    i ∈ missingChildren ks ↔ i ∉ ks ∧ i / 2 ∈ parentsOf ks := by
  simp only [missingChildren, List.mem_flatMap, List.mem_filter, List.mem_cons, List.not_mem_nil,
    or_false, decide_eq_true_eq]
  constructor
  · rintro ⟨j, hj, hchild, hnew⟩
    obtain rfl : i / 2 = j := by omega
    exact ⟨hnew, hj⟩
  · rintro ⟨hnew, hparent⟩
    exact ⟨i / 2, hparent, by omega, hnew⟩

/-- **The auxiliaries are the unnamed leaves**: over two trees they are the same exactly when the
trees agree on what is not named of the block that the indices are in. -/
theorem canonicalAuxiliaries_eq_iff (hc : Function.Injective2 compress) {high : ℕ} :
    ∀ {d : ℕ} {s t : ℕ → T} {ks : List ℕ}, ks ≠ [] → (∀ k ∈ ks, k / 2 ^ d = high) →
      (canonicalAuxiliaries compress d s ks = canonicalAuxiliaries compress d t ks ↔
        ∀ i, i / 2 ^ d = high → i ∉ ks → s i = t i) := by
  intro d
  induction d with
  | zero =>
      intro s t ks hne hblock
      refine iff_of_true rfl fun i hi hnew => ?_
      obtain ⟨k, hk⟩ := List.exists_mem_of_ne_nil ks hne
      have hkey := hblock k hk
      rw [pow_zero, Nat.div_one] at hi hkey
      exact absurd (hi.trans hkey.symm ▸ hk) hnew
  | succ d ih =>
      intro s t ks hne hblock
      have hparents : ∀ j ∈ parentsOf ks, j / 2 ^ d = high := by
        intro j hj
        obtain ⟨k, hk, rfl⟩ := mem_parentsOf.mp hj
        rw [← div_two_pow_succ]
        exact hblock k hk
      have hsome : parentsOf ks ≠ [] := by
        obtain ⟨k, hk⟩ := List.exists_mem_of_ne_nil ks hne
        exact List.ne_nil_of_mem (mem_parentsOf.mpr ⟨k, hk, rfl⟩)
      have hparts : canonicalAuxiliaries compress (d + 1) s ks =
          canonicalAuxiliaries compress (d + 1) t ks ↔ (∀ i ∈ missingChildren ks, s i = t i) ∧
            ∀ j, j / 2 ^ d = high → j ∉ parentsOf ks → above compress s j = above compress t j := by
        rw [canonicalAuxiliaries, canonicalAuxiliaries, ← ih hsome hparents, ← List.map_inj_left]
        refine ⟨fun h => List.append_inj h ?_, fun h => congrArg₂ _ h.1 h.2⟩
        rw [List.length_map, List.length_map]
      rw [hparts]
      constructor
      · rintro ⟨hmissing, habove⟩ i hi hnew
        by_cases hparent : i / 2 ∈ parentsOf ks
        · exact hmissing i (mem_missingChildren.mpr ⟨hnew, hparent⟩)
        · rw [div_two_pow_succ] at hi
          obtain ⟨hleft, hright⟩ := hc (habove (i / 2) hi hparent)
          rcases Nat.mod_two_eq_zero_or_one i with heven | hodd
          · rwa [show 2 * (i / 2) = i by omega] at hleft
          · rwa [show 2 * (i / 2) + 1 = i by omega] at hright
      · intro hleaves
        refine ⟨fun i hi => ?_, fun j hj hnew => ?_⟩
        · obtain ⟨hnew, hparent⟩ := mem_missingChildren.mp hi
          refine hleaves i ?_ hnew
          rw [div_two_pow_succ]
          exact hparents _ hparent
        · have hchild : ∀ i, i / 2 = j → s i = t i := by
            rintro i rfl
            refine hleaves i (by rw [div_two_pow_succ, hj]) fun hk => ?_
            exact hnew (mem_parentsOf.mpr ⟨i, hk, rfl⟩)
          rw [above, above, hchild (2 * j) (by omega), hchild (2 * j + 1) (by omega)]

/-- **Two openings of the same indices** take the same auxiliaries exactly when the trees agree on
every leaf that is not named. -/
theorem auxiliaries_eq_iff (hc : Function.Injective2 compress) {s t : ℕ → T} {d : ℕ}
    {leaves leaves' : List (T × ℕ)} {aux aux' : List T}
    (hrun : batchRoot compress leaves aux d = .ok (root compress d s))
    (hrun' : batchRoot compress leaves' aux' d = .ok (root compress d t))
    (hindices : leaves.map Prod.snd = leaves'.map Prod.snd) :
    aux = aux' ↔ ∀ i < 2 ^ d, (∀ n ∈ leaves, n.2 % 2 ^ d ≠ i) → s i = t i := by
  obtain ⟨-, hcolumns⟩ := batchRoot_eq_ok.mp hrun
  have hne : leaves.map Prod.snd ≠ [] := by
    have hnodes := (batchRootColumns_eq_ok.mp hcolumns).1
    simpa using hnodes
  obtain ⟨-, ⟨high, hhigh⟩, -⟩ := batchRoot_sound hc hrun
  have hblock : ∀ k ∈ leaves.map Prod.snd, k / 2 ^ d = high := by
    intro k hk
    obtain ⟨n, hn, rfl⟩ := List.mem_map.mp hk
    exact hhigh n hn
  rw [batchRoot_auxiliaries hc hrun, batchRoot_auxiliaries hc hrun', ← hindices,
    canonicalAuxiliaries_eq_iff hc hne hblock]
  constructor
  · intro hleaves i hi hnew
    have hplace : (2 ^ d * high + i) / 2 ^ d = high ∧ (2 ^ d * high + i) % 2 ^ d = i := by
      rw [Nat.mul_add_div (Nat.two_pow_pos d), Nat.mul_add_mod, Nat.div_eq_of_lt hi,
        Nat.mod_eq_of_lt hi]
      exact ⟨rfl, rfl⟩
    have hsame := hleaves (2 ^ d * high + i) hplace.1 fun hmem => by
      obtain ⟨n, hn, hplaced⟩ := List.mem_map.mp hmem
      exact hnew n hn (hplaced ▸ hplace.2)
    rwa [tile, tile, hplace.2] at hsame
  · intro hleaves k hk hnew
    refine hleaves (k % 2 ^ d) (Nat.mod_lt _ (Nat.two_pow_pos d)) fun n hn hsame => hnew ?_
    refine List.mem_map.mpr ⟨n, hn, ?_⟩
    rw [← Nat.div_add_mod n.2 (2 ^ d), hhigh n hn, hsame, ← hk, Nat.div_add_mod]

end Zkasper.Merkle
