import Zkasper.CommitteeProof.Words
import Zkasper.Library.Recut
import Mathlib.Data.Set.Function
import Mathlib.Logic.Encodable.Basic
import Mathlib.Logic.Equiv.List

/-! # What the accumulator's hashes absorb

`acc.rs` down to its words: how a point and a balance, two digests, a root and a total, or a
pairing value are laid into the state of the permutation. The circuits are written over hashes
that lose nothing; this is where that can be checked as far as it does not rest on the
permutation. A point is cut into thirteen windows that tile its limbs, everything else into
halves of words, so all that is absorbed is canonical and determines what it was made of
(`absorbs_everything`). What the circuits assume of their hashes, `CollisionFree`, then comes
down to the permutation (`Layout.collisionFree`).

The permutation acts on field elements. They are a type of their own here with `word` for the
element of a word, which is injective on canonical words only: no function from states of words
to digests of words is injective, and over an abstract type one can be. -/

namespace Zkasper.Acc

open Committee.Wire (WordArray)

/-! ## The layouts -/

/-- `x` then `y`, six 64-bit limbs each. -/
abbrev G1Point := WordArray 12

/-- Twelve base-field coefficients, six 64-bit limbs each. -/
abbrev Fp12 := WordArray 72

/-- The Goldilocks modulus. -/
def goldilocks : ℕ := 2 ^ 64 - 2 ^ 32 + 1

/-- Number of Goldilocks elements a G1 point packs into. -/
def pointElements : ℕ := 13

/-- Bits per packed element. -/
def packBits : ℕ := 60

def domainNode : UInt64 := 0

def domainLeaf : UInt64 := 1

def domainCommitment : UInt64 := 2

def domainFp12 : UInt64 := 4

/-- Repack a G1 point's 768 bits into 13 disjoint 60-bit windows. -/
def packPoint (point : G1Point) : WordArray pointElements :=
  fun i => Recut.window packBits (List.ofFn point) (i * packBits)

/-- `v & 0xFFFF_FFFF` -/
def lowHalf (v : UInt64) : UInt64 := v &&& 0xFFFFFFFF

/-- `v >> 32` -/
def highHalf (v : UInt64) : UInt64 := v >>> 32

/-- The halves of the limbs of a pairing value, from half `half` on: one block of the sponge. -/
def fp12Block (f : Fp12) (half : ℕ) : List UInt64 :=
  (List.range 8).map fun i =>
    let h := half + i
    let limb := (List.ofFn f).getD (h / 2) 0
    if h % 2 = 0 then lowHalf limb else highHalf limb

/-- The blocks of the loop `while half < 2 * f.len()`, eight halves a turn. -/
def fp12Blocks (f : Fp12) : List (List UInt64) := (List.range' 0 18 8).map (fp12Block f)

/-! ## The hashes -/

section Hashes

variable {F : Type} (word : UInt64 → F) (permute : (Fin 16 → F) → Fin 16 → F)

/-- `acc::Digest` -/
abbrev Digest (F : Type) := Fin 4 → F

/-- The first four elements of a state. -/
def squeeze (st : Fin 16 → F) : Digest F := fun i => st (i.castLE (by decide))

/-- The state `leaf` builds. -/
def leafState (point : G1Point) (activeEffectiveBalance : UInt64) : Fin 16 → F := fun i =>
  if h : i.val < pointElements then word (packPoint point ⟨i, h⟩)
  else if i.val = 13 then word (lowHalf activeEffectiveBalance)
  else if i.val = 14 then word (highHalf activeEffectiveBalance)
  else word domainLeaf

/-- The state `compress` builds. -/
def nodeState (left right : Digest F) : Fin 16 → F := fun i =>
  if h : i.val < 4 then left ⟨i, h⟩
  else if h : i.val - 4 < 4 then right ⟨i - 4, h⟩
  else if i.val = 15 then word domainNode
  else word 0

/-- The state `commitment` builds. -/
def commitmentState (root : Digest F) (totalActiveBalance : UInt64) : Fin 16 → F := fun i =>
  if h : i.val < 4 then root ⟨i, h⟩
  else if i.val = 4 then word (lowHalf totalActiveBalance)
  else if i.val = 5 then word (highHalf totalActiveBalance)
  else if i.val = 15 then word domainCommitment
  else word 0

/-- Accumulator leaf for one validator. -/
def leaf (point : G1Point) (activeEffectiveBalance : UInt64) : Digest F :=
  squeeze (permute (leafState word point activeEffectiveBalance))

/-- Compress two child digests into their parent. -/
def compress (left right : Digest F) : Digest F := squeeze (permute (nodeState word left right))

/-- Bind the accumulator root to the total active balance. -/
def commitment (root : Digest F) (totalActiveBalance : UInt64) : Digest F :=
  squeeze (permute (commitmentState word root totalActiveBalance))

/-- One turn of the sponge: the block overwrites the rate. -/
def absorb (st : Fin 16 → F) (block : List F) : Fin 16 → F :=
  permute fun i => (block[i.val]?).getD (st i)

/-- The elements `commit_fp12` absorbs, block by block. -/
def fp12Elements (f : Fp12) : List (List F) := (fp12Blocks f).map (·.map word)

/-- What the sponge makes of the blocks it absorbs. -/
def spongeFp12 (blocks : List (List F)) : Digest F :=
  squeeze (blocks.foldl (absorb permute) fun i => if i.val = 15 then word domainFp12 else word 0)

/-- Commitment to a Miller-loop accumulator. -/
def commitFp12 (f : Fp12) : Digest F := spongeFp12 word permute (fp12Elements word f)

/-- The states that go through one permutation, and are cut to a digest after it. -/
def Built : Set (Fin 16 → F) :=
  { st | (∃ point balance, st = leafState word point balance) ∨
    (∃ left right, st = nodeState word left right) ∨
    ∃ root total, st = commitmentState word root total }

end Hashes

/-! ## Nothing is lost -/

section Words

/-- A canonical word: the only one of its element. -/
def Canonical (v : UInt64) : Prop := v.toNat < goldilocks

theorem packPoint_lt (point : G1Point) (i : Fin pointElements) :
    (packPoint point i).toNat < 2 ^ packBits :=
  Recut.window_lt _ _ (by decide)

theorem packPoint_canonical (point : G1Point) (i : Fin pointElements) :
    Canonical (packPoint point i) :=
  (packPoint_lt point i).trans (by decide)

/-- **Thirteen windows of sixty bits tile twelve limbs.** -/
theorem packPoint_injective : Function.Injective packPoint := by
  intro p q h
  apply List.ofFn_injective
  have hwindows : ∀ i < pointElements,
      Recut.window packBits (List.ofFn p) (i * packBits) =
        Recut.window packBits (List.ofFn q) (i * packBits) := fun i hi => congrFun h ⟨i, hi⟩
  refine Recut.eq_of_windows (by decide) (by simp) ?_ hwindows
  rw [List.length_ofFn]
  decide

theorem toNat_lowHalf (v : UInt64) : (lowHalf v).toNat = v.toNat % 2 ^ 32 :=
  Recut.toNat_and_mask v (by decide : 32 < 64)

theorem toNat_highHalf (v : UInt64) : (highHalf v).toNat = v.toNat / 2 ^ 32 := by
  rw [← Nat.shiftRight_eq_div_pow]
  exact Recut.toNat_shiftRight_ofNat v (by decide : 32 < 64)

theorem lowHalf_canonical (v : UInt64) : Canonical (lowHalf v) := by
  rw [Canonical, toNat_lowHalf]
  exact (Nat.mod_lt _ (by decide)).trans (by decide)

theorem highHalf_canonical (v : UInt64) : Canonical (highHalf v) := by
  have hlt := v.toNat_lt
  have hgoldilocks : 2 ^ 32 < goldilocks := by decide
  rw [Canonical, toNat_highHalf]
  omega

/-- A word is its two halves. -/
theorem halves_injective {v w : UInt64} (hlow : lowHalf v = lowHalf w)
    (hhigh : highHalf v = highHalf w) : v = w := by
  have hlow := congrArg UInt64.toNat hlow
  have hhigh := congrArg UInt64.toNat hhigh
  rw [toNat_lowHalf, toNat_lowHalf] at hlow
  rw [toNat_highHalf, toNat_highHalf] at hhigh
  apply UInt64.toNat_inj.mp
  omega

theorem fp12Blocks_canonical (f : Fp12) : ∀ block ∈ fp12Blocks f, ∀ v ∈ block, Canonical v := by
  intro block hblock v hv
  obtain ⟨half, -, rfl⟩ := List.mem_map.mp hblock
  obtain ⟨i, -, rfl⟩ := List.mem_map.mp hv
  dsimp only
  split
  · exact lowHalf_canonical _
  · exact highHalf_canonical _

end Words

section Elements

variable {F : Type} {word : UInt64 → F} {permute : (Fin 16 → F) → Fin 16 → F}

/-- **The blocks of a pairing value determine its limbs.** -/
theorem fp12Elements_injective (hword : Set.InjOn word {v | Canonical v}) :
    Function.Injective (fp12Elements word) := by
  intro f g h
  have hhalf : ∀ k < 144, (let limb := fun f : Fp12 => (List.ofFn f).getD (k / 2) 0
      if k % 2 = 0 then lowHalf (limb f) = lowHalf (limb g)
      else highHalf (limb f) = highHalf (limb g)) := by
    intro k hk
    simp only [fp12Elements, fp12Blocks, List.map_map, List.map_inj_left, fp12Block,
      Function.comp_apply, List.mem_range] at h
    have hmem : k / 8 * 8 ∈ List.range' 0 18 8 :=
      List.mem_range'.mpr ⟨k / 8, by omega, by omega⟩
    have helement := h _ hmem (k % 8) (Nat.mod_lt _ (by decide))
    rw [Nat.div_add_mod' k 8] at helement
    dsimp only at helement ⊢
    split
    · next heven =>
        rw [if_pos heven, if_pos heven] at helement
        exact hword (lowHalf_canonical _) (lowHalf_canonical _) helement
    · next hodd =>
        rw [if_neg hodd, if_neg hodd] at helement
        exact hword (highHalf_canonical _) (highHalf_canonical _) helement
  funext i
  have hlimb : ∀ f : Fp12, (List.ofFn f).getD i 0 = f i := by
    intro f
    rw [List.getD_eq_getElem?_getD, List.getElem?_ofFn, dif_pos i.isLt]
    rfl
  have hlow := hhalf (2 * i) (by omega)
  have hhigh := hhalf (2 * i + 1) (by omega)
  have heven : 2 * i.val % 2 = 0 := by omega
  have hodd : (2 * i.val + 1) % 2 ≠ 0 := by omega
  have hplace : 2 * i.val / 2 = i := by omega
  have hplace' : (2 * i.val + 1) / 2 = i := by omega
  rw [if_pos heven, hplace] at hlow
  rw [if_neg hodd, hplace'] at hhigh
  rw [← hlimb f, ← hlimb g]
  exact halves_injective hlow hhigh

/-- **A leaf's state determines the point and the balance.** -/
theorem leafState_injective (hword : Set.InjOn word {v | Canonical v}) :
    Function.Injective2 (leafState word) := by
  intro p q a b h
  constructor
  · apply packPoint_injective
    funext i
    have hi : i.val < 16 := i.isLt.trans (by decide)
    have helement := congrFun h ⟨i, hi⟩
    simp only [leafState, dif_pos i.isLt] at helement
    exact hword (packPoint_canonical _ _) (packPoint_canonical _ _) helement
  · have hlow : word (lowHalf a) = word (lowHalf b) := congrFun h 13
    have hhigh : word (highHalf a) = word (highHalf b) := congrFun h 14
    exact halves_injective (hword (lowHalf_canonical _) (lowHalf_canonical _) hlow)
      (hword (highHalf_canonical _) (highHalf_canonical _) hhigh)

/-- **A node's state determines its children.** -/
theorem nodeState_injective : Function.Injective2 (nodeState word) := by
  intro a b c d h
  constructor
  · funext i
    have helement := congrFun h (i.castLE (by decide))
    simpa [nodeState] using helement
  · funext i
    have hi : ¬ i.val + 4 < 4 := by omega
    have helement := congrFun h ⟨i + 4, by omega⟩
    simpa [nodeState, hi] using helement

/-- **A commitment's state determines the root and the total.** -/
theorem commitmentState_injective (hword : Set.InjOn word {v | Canonical v}) :
    Function.Injective2 (commitmentState word) := by
  intro root root' total total' h
  constructor
  · funext i
    have helement := congrFun h (i.castLE (by decide))
    simpa [commitmentState] using helement
  · have hlow : word (lowHalf total) = word (lowHalf total') := congrFun h 4
    have hhigh : word (highHalf total) = word (highHalf total') := congrFun h 5
    exact halves_injective (hword (lowHalf_canonical _) (lowHalf_canonical _) hlow)
      (hword (highHalf_canonical _) (highHalf_canonical _) hhigh)

/-- The last element of a state says what the state is of. -/
theorem leafState_ne (hword : Set.InjOn word {v | Canonical v}) {domain : UInt64}
    (hdomain : Canonical domain) (hne : domain ≠ domainLeaf) {st : Fin 16 → F}
    (hst : st 15 = word domain) (point : G1Point) (balance : UInt64) :
    leafState word point balance ≠ st := by
  intro h
  have hlast : word domainLeaf = word domain := (congrFun h 15).trans hst
  have hleaf : Canonical domainLeaf := show domainLeaf.toNat < goldilocks by decide
  exact hne (hword hleaf hdomain hlast).symm

end Elements

/-- **Everything is absorbed, and nothing else.** A point is its thirteen windows, which are
canonical whatever the limbs. Where the truncated permutation is injective on the states that are
built, a leaf is of one point and one balance and is neither a node nor a commitment. And a
pairing value is the blocks it is absorbed in, which are canonical too. -/
theorem absorbs_everything {F : Type} {word : UInt64 → F}
    (hword : Set.InjOn word {v | Canonical v}) {permute : (Fin 16 → F) → Fin 16 → F}
    (hpermute : Set.InjOn (fun st => squeeze (permute st)) (Built word)) :
    Function.Injective packPoint ∧
    (∀ point i, Canonical (packPoint point i)) ∧
    (∀ p a q b, leaf word permute p a = leaf word permute q b → (p, a) = (q, b)) ∧
    (∀ p a left right, leaf word permute p a ≠ compress word permute left right) ∧
    (∀ p a root total, leaf word permute p a ≠ commitment word permute root total) ∧
    (∀ f g, fp12Elements word f = fp12Elements word g → f = g) ∧
    ∀ f, ∀ block ∈ fp12Blocks f, ∀ v ∈ block, Canonical v := by
  have hleaf : ∀ p a, leafState word p a ∈ Built word := fun p a => Or.inl ⟨p, a, rfl⟩
  refine ⟨packPoint_injective, packPoint_canonical, ?_, ?_, ?_,
    fun _ _ h => fp12Elements_injective hword h, fp12Blocks_canonical⟩
  · intro p a q b h
    obtain ⟨rfl, rfl⟩ := leafState_injective hword (hpermute (hleaf p a) (hleaf q b) h)
    rfl
  · intro p a left right h
    have hstate := hpermute (hleaf p a) (Or.inr (Or.inl ⟨left, right, rfl⟩)) h
    have hdomain : Canonical domainNode := show domainNode.toNat < goldilocks by decide
    exact leafState_ne hword hdomain (by decide) rfl p a hstate
  · intro p a root total h
    have hstate := hpermute (hleaf p a) (Or.inr (Or.inr ⟨root, total, rfl⟩)) h
    have hdomain : Canonical domainCommitment := show domainCommitment.toNat < goldilocks by decide
    exact leafState_ne hword hdomain (by decide) rfl p a hstate

/-- Over the naturals, a state can be one number. -/
theorem absorbs_everything_nat :
    let permute : (Fin 16 → ℕ) → Fin 16 → ℕ := fun st _ => Encodable.encode (List.ofFn st)
    leaf UInt64.toNat permute (fun _ => 42) 32000000000 ≠
      compress UInt64.toNat permute (fun _ => 1) (fun _ => 2) := by
  intro permute
  have hpermute : Set.InjOn (fun st => squeeze (permute st)) (Built UInt64.toNat) := by
    intro st _ st' _ h
    exact List.ofFn_injective (Encodable.encode_injective (congrFun h 0))
  exact (absorbs_everything (fun _ _ _ _ h => UInt64.toNat_inj.mp h) hpermute).2.2.2.1 _ _ _ _

/-! ## The hashes of the circuits -/

section Circuits

variable {F : Type} {word : UInt64 → F} {permute : (Fin 16 → F) → Fin 16 → F} {P : Primitives}

variable (word permute P) in
/-- The circuits' digests, points and pairing values can be written in words and elements so that
their accumulator hashes are those above. -/
structure Layout where
  digest : P.Digest → Digest F
  point : P.G1Point → G1Point
  fp12 : P.Fp12 → Fp12
  digest_injective : Function.Injective digest
  point_injective : Function.Injective point
  fp12_injective : Function.Injective fp12
  leaf : ∀ p balance, digest (P.leaf p balance) = Acc.leaf word permute (point p) balance
  compress : ∀ left right,
    digest (P.compress left right) = Acc.compress word permute (digest left) (digest right)
  commitment : ∀ root total,
    digest (P.commitment root total) = Acc.commitment word permute (digest root) total
  commitFp12 : ∀ f, digest (P.commitFp12 f) = Acc.commitFp12 word permute (fp12 f)

/-- **What collision freedom rests on**: of the accumulator, that the truncated permutation is
injective on the states that are built and the sponge on what it absorbs, and that no leaf is
the zero digest; the rest is about SHA-256. -/
theorem Layout.collisionFree (layout : Layout word permute P)
    (hword : Set.InjOn word {v | Canonical v})
    (hpermute : Set.InjOn (fun st => squeeze (permute st)) (Built word))
    (hsponge : Set.InjOn (spongeFp12 word permute) (Set.range (fp12Elements word)))
    (hzero : ∀ p balance, P.leaf p balance ≠ P.zero) (hbytes : Function.Injective P.ofBytes)
    (hsha : Function.Injective2 P.sha256Pair)
    (hchunk : ∀ a b, P.sha256Pair a b ≠ P.zeroChunk) : CollisionFree P where
  compress := by
    intro a b c d h
    have hdigest := congrArg layout.digest h
    rw [layout.compress, layout.compress] at hdigest
    have hstate := hpermute (.inr (.inl ⟨_, _, rfl⟩)) (.inr (.inl ⟨_, _, rfl⟩)) hdigest
    obtain ⟨hleft, hright⟩ := nodeState_injective hstate
    exact ⟨layout.digest_injective hleft, layout.digest_injective hright⟩
  leaf := by
    intro p q balance balance' h
    have hdigest := congrArg layout.digest h
    rw [layout.leaf, layout.leaf] at hdigest
    have hstate := hpermute (.inl ⟨_, _, rfl⟩) (.inl ⟨_, _, rfl⟩) hdigest
    obtain ⟨hpoint, hbalance⟩ := leafState_injective hword hstate
    exact ⟨layout.point_injective hpoint, hbalance⟩
  commitment := by
    intro root root' total total' h
    have hdigest := congrArg layout.digest h
    rw [layout.commitment, layout.commitment] at hdigest
    have hstate := hpermute (.inr (.inr ⟨_, _, rfl⟩)) (.inr (.inr ⟨_, _, rfl⟩)) hdigest
    obtain ⟨hroot, htotal⟩ := commitmentState_injective hword hstate
    exact ⟨layout.digest_injective hroot, htotal⟩
  commitFp12 := by
    intro f g h
    have hdigest := congrArg layout.digest h
    rw [layout.commitFp12, layout.commitFp12] at hdigest
    have helements := hsponge ⟨_, rfl⟩ ⟨_, rfl⟩ hdigest
    exact layout.fp12_injective (fp12Elements_injective hword helements)
  ofBytes := hbytes
  sha256Pair := hsha
  leaf_ne_zero := hzero
  sha256Pair_ne_zero := hchunk

end Circuits

end Zkasper.Acc
