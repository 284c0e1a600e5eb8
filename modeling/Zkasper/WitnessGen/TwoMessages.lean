import Zkasper.WitnessGen.Order
import Zkasper.WitnessGen.Signatures
import Mathlib.Algebra.Field.ZMod
import Mathlib.Tactic.Abel

/-! # The free instance, signatures included

The primitives of `Formal` over two signing roots, with signatures that are worth what
they were made of: how often each of the four keys signed each of the two roots, modulo
three. The final exponentiation compares what the keys claim with what the signature
holds, root by root, so a batch is accepted exactly when the two are the same
(`model`). -/

namespace Zkasper.Formal

open Std

/-! ## The order of terms -/

theorem Term.compare_eq : ∀ {a b : Term}, Term.compare a b = .eq ↔ a = b
  | .bytes raw, .bytes raw' => by
      rw [Term.compare, Std.compare_eq_iff_eq, Term.bytes.injEq]
  | .bytes _, .pair _ _ => by simp [Term.compare]
  | .pair _ _, .bytes _ => by simp [Term.compare]
  | .pair left right, .pair left' right' => by
      rw [Term.compare, Ordering.then_eq_eq, Term.compare_eq, Term.compare_eq, Term.pair.injEq]

theorem Term.compare_swap : ∀ {a b : Term}, Term.compare a b = (Term.compare b a).swap
  | .bytes raw, .bytes raw' => OrientedOrd.eq_swap
  | .bytes _, .pair _ _ => rfl
  | .pair _ _, .bytes _ => rfl
  | .pair left right, .pair left' right' => by
      rw [Term.compare, Term.compare, Ordering.swap_then, ← Term.compare_swap, ← Term.compare_swap]

theorem Term.compare_trans : ∀ {a b c : Term}, (Term.compare a b).isLE → (Term.compare b c).isLE →
    (Term.compare a c).isLE
  | .bytes raw, .bytes raw', .bytes raw'', h, h' => TransOrd.isLE_trans h h'
  | .bytes _, _, .pair _ _, _, _ => rfl
  | .bytes _, .pair _ _, .bytes _, _, h' => by simp [Term.compare] at h'
  | .pair _ _, .bytes _, _, h, _ => by simp [Term.compare] at h
  | .pair _ _, .pair _ _, .bytes _, _, h' => by simp [Term.compare] at h'
  | .pair left right, .pair left' right', .pair left'' right'', h, h' => by
      rw [Term.compare, Ordering.isLE_then_iff_or] at h h' ⊢
      rcases h with hlt | ⟨heq, hle⟩
      · rcases h' with hlt' | ⟨heq', hle'⟩
        · -- the left parts compare: equal ends would close a cycle
          left
          have hle := Term.compare_trans (Ordering.isLE_of_eq_lt hlt) (Ordering.isLE_of_eq_lt hlt')
          cases hends : Term.compare left left'' with
          | lt => rfl
          | eq =>
              rw [← Term.compare_eq.mp hends, Term.compare_swap, hlt] at hlt'
              cases hlt'
          | gt =>
              rw [hends] at hle
              cases hle
        · rw [← Term.compare_eq.mp heq']
          exact .inl hlt
      · rw [Term.compare_eq.mp heq]
        rcases h' with hlt' | ⟨heq', hle'⟩
        · exact .inl hlt'
        · exact .inr ⟨heq', Term.compare_trans hle hle'⟩

instance : TransOrd Term where
  eq_swap := Term.compare_swap
  isLE_trans := Term.compare_trans

instance : LawfulEqOrd Term where
  compare_self := Term.compare_eq.mpr rfl
  eq_of_compare := Term.compare_eq.mp

/-! ## Signatures -/

/-- A signature: how often each key signed each of the two roots. -/
abbrev Share := Fin 2 → Fin 4 → ZMod 3

/-- A point of the twist: a hashed message, or a signature. -/
inductive SignedTwist where
  | message (m : Term)
  | signed (s : Share)
  deriving DecidableEq

/-- The shares, one byte each. -/
def share (raw : Bytes 96) : Share := fun r k => ((raw.1.getD (4 * r + k) 0).toNat : ZMod 3)

def Share.bytes (s : Share) : Bytes 96 :=
  ⟨(List.finRange 2).flatMap (fun r => (List.finRange 4).map fun k => UInt8.ofNat (s r k).val) ++
    List.replicate 88 0, rfl⟩

theorem share_bytes (s : Share) : share s.bytes = s := by
  have hbyte : ∀ x : ZMod 3, (((UInt8.ofNat x.val).toNat : ℕ) : ZMod 3) = x := by decide
  funext r k
  fin_cases r <;> fin_cases k <;> exact hbyte _

section Signing

variable (roots : Fin 2 → Term)

/-- What a signature is worth over a root. -/
def worth (s : Share) (m : Term) : Fin 4 → ZMod 3 :=
  if m = roots 0 then s 0 else if m = roots 1 then s 1 else 0

/-- What a pair of a batch is worth over a root. -/
def pairWorth (m : Term) : Point × SignedTwist → Fin 4 → ZMod 3
  | (p, .message r) => if r = m then fun k => (p k : ZMod 3) else 0
  | (_, .signed s) => worth roots s m

/-- The messages of a batch. -/
def batchRoots (f : List (Point × SignedTwist)) : List Term :=
  f.filterMap fun pair => match pair.2 with
    | .message m => some m
    | .signed _ => none

/-- The primitives in which the four keys sign two roots. -/
@[reducible] def signing : Primitives :=
  { formal {} with
    G2Point := SignedTwist
    Fp12 := List (Point × SignedTwist)
    decEqG2Point := inferInstance
    commitFp12 := fun f => .fp12 (f.filterMap fun pair => match pair.2 with
      | .message m => some (m, pair.1)
      | .signed _ => none)
    decompressTwist := fun raw => some (.signed (share raw), decide (share raw = 0))
    addCompleteSafeTwist := fun p q => match p, q with
      | .signed s, .signed t => some (.signed (s + t))
      | _, _ => none
    g2Identity := .signed 0
    isOnSubgroupTwist := fun q => match q with
      | .signed _ => true
      | .message _ => false
    hashToCurve := .message
    millerLoopBatch := List.zip
    fp12One := []
    fp12Mul := (· ++ ·)
    finalExpIsOne := fun f => (batchRoots f ++ [roots 0, roots 1]).all fun m =>
      (f.map (pairWorth roots m)).sum = 0 }

/-- The host's side of it. -/
@[reducible] def shares : Blst :=
  ⟨Share, fun raw => some (share raw), fun s t => some (s + t), Share.bytes⟩

variable {roots}

theorem worth_add (s t : Share) (m : Term) :
    worth roots (s + t) m = worth roots s m + worth roots t m := by
  unfold worth
  split_ifs
  · rfl
  · rfl
  · exact (add_zero 0).symm

theorem worth_zero (m : Term) : worth roots 0 m = 0 := by
  unfold worth
  split_ifs <;> rfl

/-- A batch is accepted where it is worth nothing over every root. -/
theorem finalExpIsOne_iff {f : List (Point × SignedTwist)} :
    (signing roots).finalExpIsOne f = true ↔ ∀ m, (f.map (pairWorth roots m)).sum = 0 := by
  rw [List.all_eq_true]
  simp only [decide_eq_true_eq]
  refine ⟨fun h m => ?_, fun h m _ => h m⟩
  by_cases hm : m ∈ batchRoots f ++ [roots 0, roots 1]
  · exact h m hm
  · -- nothing is paired against the root, and no signature is over it
    rw [List.mem_append, not_or] at hm
    obtain ⟨hbatch, hroots⟩ := hm
    apply List.sum_eq_zero
    intro x hx
    obtain ⟨⟨p, q⟩, hpair, rfl⟩ := List.mem_map.mp hx
    cases q with
    | message r =>
        apply if_neg
        rintro rfl
        exact hbatch (List.mem_filterMap.mpr ⟨_, hpair, rfl⟩)
    | signed s =>
        show worth roots s m = 0
        rw [worth, if_neg, if_neg]
        · rintro rfl
          exact hroots (by simp)
        · rintro rfl
          exact hroots (by simp)

/-! ## The model -/

/-- Values of the four keys, for every validator; the others have none. -/
def onFour : (Fin 4 → ZMod 3) →+ (UInt64 → ZMod 3) where
  toFun f i := if h : i.toNat < 4 then f ⟨i.toNat, h⟩ else 0
  map_zero' := by
    funext i
    exact dite_eq_right_iff.mpr fun _ => rfl
  map_add' f g := by
    funext i
    by_cases h : i.toNat < 4 <;> simp [h]

theorem onFour_apply (f : Fin 4 → ZMod 3) (k : Fin 4) : onFour f (UInt64.ofNat k) = f k := by
  fin_cases k <;> rfl

theorem onFour_injective : Function.Injective onFour := by
  intro f g h
  funext k
  rw [← onFour_apply f, h, onFour_apply]

/-- The coefficients of a point, modulo three. -/
def residues : Point →+ (Fin 4 → ZMod 3) where
  toFun p k := (p k : ZMod 3)
  map_zero' := by
    funext k
    exact Int.cast_zero
  map_add' p q := by
    funext k
    exact Int.cast_add _ _

/-- What a point of the twist is made of. -/
def madeOf (roots : Fin 2 → Term) : SignedTwist → Term → UInt64 → ZMod 3
  | .message _, _ => 0
  | .signed s, m => onFour (worth roots s m)

/-- What some groups claim over a root. -/
theorem sum_single_apply (groups : List (Term × Point)) (m : Term) :
    (groups.map fun group =>
        (Pi.single group.1 (onFour (residues group.2)) : Term → UInt64 → ZMod 3)).sum m =
      onFour (groups.map fun group => if group.1 = m then residues group.2 else 0).sum := by
  induction groups with
  | nil => exact (map_zero onFour).symm
  | cons group groups ih =>
      rw [List.map_cons, List.sum_cons, List.map_cons, List.sum_cons, map_add, Pi.add_apply, ih,
        Pi.single_apply]
      congr 1
      by_cases h : m = group.1
      · rw [if_pos h, if_pos h.symm]
      · rw [if_neg h, if_neg (Ne.symm h), map_zero]

/-- A batch is worth what its signature holds less what its groups claim. -/
theorem batch_worth (groups : List (Term × Point)) (s : Share) (p : Point) (m : Term) :
    (((groups.map (fun group => (fun k => -group.2 k : Point)) ++ [p]).zip
        (groups.map (fun group => SignedTwist.message group.1) ++ [.signed s])).map
          (pairWorth roots m)).sum =
      worth roots s m -
        (groups.map fun group => if group.1 = m then residues group.2 else 0).sum := by
  induction groups with
  | nil => simp [pairWorth]
  | cons group groups ih =>
      rw [List.map_cons, List.map_cons, List.cons_append, List.cons_append, List.zip_cons_cons,
        List.map_cons, List.sum_cons, ih, List.map_cons, List.sum_cons, pairWorth]
      have hneg : (fun k => (((-group.2 k : ℤ)) : ZMod 3)) = -residues group.2 := by
        funext k
        exact Int.cast_neg _
      by_cases h : group.1 = m
      · rw [if_pos h, if_pos h, hneg]
        abel
      · rw [if_neg h, if_neg h]
        abel

/-- The four keys sign, and nothing else does. -/
def model (roots : Fin 2 → Term) : SignatureModel (signing roots) shares where
  order := 3
  two_lt_order := by omega
  OnCurve _ := True
  coeff p := onFour (residues p)
  OnTwist q := ∃ s, q = .signed s
  made := madeOf roots
  InGroup _ := True
  held s := madeOf roots (.signed s)
  curveAdd p q _ _ _ := ⟨trivial, by rw [← map_add, ← map_add]; rfl⟩
  neg p _ := ⟨trivial, by rw [← map_neg, ← map_neg]; rfl⟩
  sameX p q _ _ h := by
    rcases of_decide_eq_true h with rfl | rfl
    · exact .inl rfl
    · right
      rw [← map_neg, ← map_neg]
      rfl
  addCompleteSafe p q _ _ := ⟨_, rfl, trivial, by rw [← map_add, ← map_add]; rfl⟩
  g1Identity := by
    show onFour (residues 0) = 0
    rw [map_zero, map_zero]
  addCompleteSafeTwist := by
    rintro _ _ ⟨s, rfl⟩ ⟨t, rfl⟩
    refine ⟨_, rfl, ⟨_, rfl⟩, ?_⟩
    funext m
    show onFour _ = onFour _ + onFour _
    rw [worth_add, map_add]
  g2Identity := by
    refine ⟨⟨0, rfl⟩, ?_⟩
    funext m
    show onFour _ = 0
    rw [worth_zero, map_zero]
  isOnSubgroupTwist := by
    rintro _ ⟨s, rfl⟩
    rfl
  finalExpIsOne := by
    rintro groups _ - ⟨s, rfl⟩
    rw [finalExpIsOne_iff, funext_iff]
    apply forall_congr'
    intro m
    rw [sum_single_apply]
    refine (Eq.congr_left (batch_worth groups s _ m)).trans ?_
    rw [sub_eq_zero, eq_comm]
    exact onFour_injective.eq_iff.symm
  addSignature s t _ _ := by
    refine ⟨_, rfl, trivial, ?_⟩
    funext m
    show onFour _ = onFour _ + onFour _
    rw [worth_add, map_add]
  fromBytes_toBytes s := congrArg some (share_bytes s)
  decompressTwist := by
    rintro bytes _ hbytes - hne
    obtain rfl := Option.some.inj hbytes
    refine ⟨.signed (share bytes), ?_, ⟨_, rfl⟩, rfl⟩
    have hsome : share bytes ≠ 0 := by
      intro hzero
      apply hne
      funext m
      show onFour _ = 0
      rw [hzero, worth_zero, map_zero]
    exact congrArg (fun b => some (_, b)) (decide_eq_false hsome)

/-- The signature of one key over one root. -/
def signature (r : Fin 2) (k : Fin 4) : Share := Pi.single r (Pi.single k 1)

theorem onFour_single (k : Fin 4) : onFour (Pi.single k 1) =
    fun i => if i ∈ ({UInt64.ofNat k} : Finset UInt64) then 1 else 0 := by
  funext i
  show dite _ _ _ = ite _ _ _
  simp only [Finset.mem_singleton]
  by_cases hi : i.toNat < 4
  · rw [dif_pos hi, Pi.single_apply]
    refine if_congr ?_ rfl rfl
    rw [Fin.ext_iff, ← UInt64.toNat_inj]
    fin_cases k <;> rfl
  · rw [dif_neg hi, if_neg]
    rintro rfl
    apply hi
    fin_cases k <;> decide

/-- Every key is its validator's. -/
theorem key_keyOf (k : Fin 4) : (model roots).KeyOf (key k) {UInt64.ofNat k} := by
  have hresidues : residues (key k) = Pi.single k 1 := by
    funext i
    show ((key k i : ℤ) : ZMod 3) = _
    rw [key, Pi.single_apply]
    split_ifs
    · exact Int.cast_one
    · exact Int.cast_zero
  refine ⟨trivial, ?_⟩
  show onFour (residues (key k)) = _
  rw [hresidues, onFour_single]
  rfl

/-- **A signature is what its key is worth** over its root. -/
theorem signature_heldBy (hroots : roots 0 ≠ roots 1) (r : Fin 2) (k : Fin 4) :
    (model roots).HeldBy (signature r k) (roots r) {UInt64.ofNat k} := by
  refine ⟨trivial, ?_⟩
  funext m
  show onFour (worth roots (signature r k) m) =
    (Pi.single (roots r) (fun i => if i ∈ ({UInt64.ofNat k} : Finset UInt64) then 1 else 0) :
      Term → UInt64 → ZMod 3) m
  rw [Pi.single_apply, ← onFour_single, worth]
  have hne := hroots.symm
  fin_cases r
  · by_cases h0 : m = roots 0
    · simp [h0, signature]
    · by_cases h1 : m = roots 1 <;> simp [h0, h1, hne, signature]
  · by_cases h0 : m = roots 0
    · simp [h0, hroots, signature]
    · by_cases h1 : m = roots 1 <;> simp [h0, h1, hne, signature]

end Signing

end Zkasper.Formal
