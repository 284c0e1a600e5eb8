import Zkasper.WitnessGen.CommitteeColumns

/-! # Reading a variable-length integer

What a column of a committee request reads back as. `next` takes the first encoding of the
bytes, of ten bytes at most, and its value as far as 64 bits hold it (`next_eq_ok`). The
tenth byte has seven bits and only one of them has a place: the loop refuses an eleventh
byte and not the other six bits, which are shifted out (`next_exact_iff`). -/

namespace Zkasper.CommitteeCache.Varints

open Septets

/-- Past the last place every byte is refused. -/
theorem nextFrom_of_le {shift : ℕ} (h : 64 ≤ shift) (acc : UInt64) (bytes : List UInt8) :
    nextFrom shift acc bytes = .error "a varint claims more than 64 bits" := by
  cases bytes with
  | nil => rw [nextFrom, Guest.assert, if_neg (by omega)]; rfl
  | cons byte bytes => rw [nextFrom, Guest.assert, if_neg (by omega)]; rfl

theorem nextFrom_nil (shift : ℕ) (acc : UInt64) :
    ∃ message, nextFrom shift acc [] = .error message := by
  rw [nextFrom, Guest.assert]
  split
  · exact ⟨_, rfl⟩
  · exact ⟨_, rfl⟩

/-- **What the loop reads**: an encoding that ends within ten bytes, on top of what it has. -/
theorem nextFrom_eq_ok {k : ℕ} (hk : k ≤ 10) {acc v : UInt64} (hacc : acc.toNat < 2 ^ (7 * k))
    {bytes rest : List UInt8} :
    nextFrom (7 * k) acc bytes = .ok (v, rest) ↔
      ∃ consumed, bytes = consumed ++ rest ∧ IsEncoding consumed ∧ consumed.length + k ≤ 10 ∧
        v.toNat = (acc.toNat + value consumed * 2 ^ (7 * k)) % 2 ^ 64 := by
  induction bytes generalizing k acc with
  | nil =>
      obtain ⟨message, hnil⟩ := nextFrom_nil (7 * k) acc
      rw [hnil]
      refine ⟨(fun h => by cases h), ?_⟩
      rintro ⟨consumed, hsplit, hencoding, -⟩
      obtain ⟨rfl, -⟩ := List.append_eq_nil_iff.mp hsplit.symm
      cases hencoding
  | cons byte bytes ih =>
      rcases Nat.eq_or_lt_of_le hk with rfl | hlt
      · rw [nextFrom_of_le (by norm_num)]
        refine ⟨(fun h => by cases h), ?_⟩
        rintro ⟨consumed, -, hencoding, hlength, -⟩
        obtain ⟨more, last, rfl, -⟩ := isEncoding_iff.mp hencoding
        rw [List.length_append, List.length_singleton] at hlength
        omega
      rw [nextFrom_cons (by omega)]
      have hgroup := toNat_or_group hacc (by omega : 7 * k < 64) byte
      set acc' := acc ||| (byte &&& 0x7f).toUInt64 <<< UInt64.ofNat (7 * k) with hacc'
      split
      · next hlast =>
          -- the byte ends the encoding
          constructor
          · intro h
            obtain ⟨rfl, rfl⟩ := Prod.mk.inj (Except.ok.inj h)
            refine ⟨[byte], rfl, .last hlast, by rw [List.length_singleton]; omega, ?_⟩
            rw [hgroup, value, value]
            simp
          · rintro ⟨consumed, hsplit, hencoding, -, hv⟩
            cases hencoding with
            | last _ =>
                obtain ⟨rfl, rfl⟩ := List.cons.inj hsplit
                rw [value, value, Nat.mul_zero, Nat.add_zero, ← hgroup] at hv
                rw [UInt64.toNat_inj.mp hv]
            | more hmore _ =>
                obtain ⟨rfl, -⟩ := List.cons.inj hsplit
                exact absurd hlast (UInt8.not_lt.mpr hmore)
      · next hmore =>
          -- another one follows
          have hbound : acc'.toNat < 2 ^ (7 * (k + 1)) := by
            rw [hgroup]
            refine lt_of_le_of_lt (Nat.mod_le _ _) ?_
            have hlow : byte.toNat % 128 + 1 ≤ 128 := Nat.mod_lt _ (by norm_num)
            calc acc.toNat + byte.toNat % 128 * 2 ^ (7 * k)
                < 2 ^ (7 * k) + byte.toNat % 128 * 2 ^ (7 * k) := Nat.add_lt_add_right hacc _
              _ = (byte.toNat % 128 + 1) * 2 ^ (7 * k) := by ring
              _ ≤ 128 * 2 ^ (7 * k) := Nat.mul_le_mul_right _ hlow
              _ = 2 ^ (7 * (k + 1)) := by ring
          have hvalue : ∀ bytes, (acc'.toNat + value bytes * 2 ^ (7 * (k + 1))) % 2 ^ 64 =
              (acc.toNat + value (byte :: bytes) * 2 ^ (7 * k)) % 2 ^ 64 := by
            intro bytes
            rw [hgroup, Nat.mod_add_mod, value]
            congr 1
            ring
          have hnext := ih (by omega : k + 1 ≤ 10) hbound
          rw [show 7 * k + 7 = 7 * (k + 1) from rfl, hnext]
          constructor
          · rintro ⟨consumed, rfl, hencoding, hlength, hv⟩
            refine ⟨byte :: consumed, rfl, .more (UInt8.not_lt.mp hmore) hencoding, ?_, ?_⟩
            · rw [List.length_cons]
              omega
            · rw [hv, hvalue]
          · rintro ⟨consumed, hsplit, hencoding, hlength, hv⟩
            cases hencoding with
            | last hlast =>
                obtain ⟨rfl, -⟩ := List.cons.inj hsplit
                exact absurd hlast hmore
            | @more byte' consumed _ hencoding =>
                obtain ⟨rfl, rfl⟩ := List.cons.inj hsplit
                rw [List.length_cons] at hlength
                exact ⟨consumed, rfl, hencoding, by omega, by rw [hv, hvalue]⟩

/-- **What a column reads back**: its first encoding, of at most ten bytes, as far as 64 bits
hold its value. -/
theorem next_eq_ok {bytes rest : List UInt8} {v : UInt64} :
    next bytes = .ok (v, rest) ↔
      ∃ consumed, bytes = consumed ++ rest ∧ IsEncoding consumed ∧ consumed.length ≤ 10 ∧
        v.toNat = value consumed % 2 ^ 64 := by
  have hzero : (0 : UInt64).toNat < 2 ^ (7 * 0) := Nat.one_pos
  refine (nextFrom_eq_ok (Nat.zero_le 10) hzero).trans ?_
  simp

/-! ## The tenth byte -/

/-- **An exact reading**: what is returned is what the bytes passed encode, all of it. -/
def Exact (bytes : List UInt8) : Prop :=
  ∀ v rest, next bytes = .ok (v, rest) →
    ∃ consumed, bytes = consumed ++ rest ∧ IsEncoding consumed ∧ consumed.length ≤ 10 ∧
      value consumed = v.toNat

/-- Nine bytes that continue, and a tenth one that ends the encoding with more than its lowest
bit. -/
def Overflows (bytes : List UInt8) : Prop :=
  ∃ nine last rest, bytes = nine ++ last :: rest ∧ nine.length = 9 ∧
    (∀ byte ∈ nine, 0x80 ≤ byte) ∧ 1 < last ∧ last < 0x80

/-- An encoding of ten bytes at most fits 64 bits, unless its tenth byte has more than one. -/
theorem value_lt_iff {consumed rest : List UInt8} (hencoding : IsEncoding consumed)
    (hlength : consumed.length ≤ 10) :
    value consumed < 2 ^ 64 ↔ ¬ Overflows (consumed ++ rest) := by
  obtain ⟨more, last, rfl, hmore, hlast⟩ := isEncoding_iff.mp hencoding
  rw [List.length_append, List.length_singleton] at hlength
  have hlast' : last.toNat < 128 := UInt8.lt_iff_toNat_lt.mp hlast
  have hvalue : value (more ++ [last]) = value more + 128 ^ more.length * last.toNat := by
    rw [value_append, value, value, Nat.mul_zero, Nat.add_zero, Nat.mod_eq_of_lt hlast']
  have hlow := value_lt more
  rw [hvalue]
  rcases Nat.lt_or_ge more.length 9 with hshort | hnine
  · -- nine bytes at most: all of them have their places
    have hpow : 128 ^ more.length ≤ 128 ^ 8 := Nat.pow_le_pow_right (by norm_num) (by omega)
    have hhigh : 128 ^ more.length * last.toNat ≤ 128 ^ 8 * 127 :=
      Nat.mul_le_mul hpow (by omega)
    refine iff_of_true (by omega) ?_
    rintro ⟨nine, tenth, rest', hsplit, hlength', hall, -⟩
    have hat := congrArg (·[more.length]?) hsplit
    simp only [List.append_assoc, List.singleton_append] at hat
    rw [List.getElem?_append_right le_rfl, Nat.sub_self, List.getElem?_cons_zero,
      List.getElem?_append_left (by omega)] at hat
    exact absurd hlast (UInt8.not_lt.mpr (hall last (List.mem_of_getElem? hat.symm)))
  · have hnine : more.length = 9 := by omega
    have hfits : value more + 128 ^ more.length * last.toNat < 2 ^ 64 ↔ ¬ 1 < last := by
      rw [UInt8.lt_iff_toNat_lt, hnine]
      rw [hnine] at hlow
      show _ ↔ ¬ 1 < last.toNat
      omega
    rw [hfits, not_iff_not]
    constructor
    · intro hbits
      exact ⟨more, last, rest, by simp, hnine, hmore, hbits, hlast⟩
    · rintro ⟨nine, tenth, rest', hsplit, hlength', -, hbits, -⟩
      rw [List.append_assoc, List.singleton_append] at hsplit
      obtain ⟨-, htail⟩ := List.append_inj hsplit (hnine.trans hlength'.symm)
      obtain ⟨rfl, -⟩ := List.cons.inj htail
      exact hbits

/-- **Where a reading is exact**: a value written is the value read back with what follows it,
and of any bytes what is returned is what they encode, except where the tenth byte ends an
encoding with bits that have no place. -/
theorem next_exact_iff (bytes : List UInt8) :
    (∀ value rest, next (putVarint value ++ rest) = .ok (value, rest)) ∧
      (Exact bytes ↔ ¬ Overflows bytes) := by
  refine ⟨next_putVarint, fun h hoverflows => ?_, fun h v rest hread => ?_⟩
  · obtain ⟨nine, last, rest, rfl, hnine, hmore, hbits, hlast⟩ := id hoverflows
    have hencoding : IsEncoding (nine ++ [last]) :=
      isEncoding_iff.mpr ⟨nine, last, rfl, hmore, hlast⟩
    have hlength : (nine ++ [last]).length ≤ 10 := by simp [hnine]
    have hread : next (nine ++ last :: rest) =
        .ok (UInt64.ofNat (value (nine ++ [last])), rest) :=
      next_eq_ok.mpr ⟨nine ++ [last], by simp, hencoding, hlength, UInt64.toNat_ofNat'⟩
    obtain ⟨consumed, hsplit, -, -, hexact⟩ := h _ _ hread
    rw [List.append_cons] at hsplit hoverflows
    obtain rfl := List.append_cancel_right hsplit
    -- the value read is below 2 ^ 64, and the value encoded is not
    have hfits : ¬ value (nine ++ [last]) < 2 ^ 64 := fun hlt =>
      (value_lt_iff hencoding hlength).mp hlt hoverflows
    rw [hexact] at hfits
    exact hfits (UInt64.toNat_lt _)
  · obtain ⟨consumed, rfl, hencoding, hlength, hv⟩ := next_eq_ok.mp hread
    have hfits := (value_lt_iff hencoding hlength).mpr h
    exact ⟨consumed, rfl, hencoding, hlength, by rw [hv, Nat.mod_eq_of_lt hfits]⟩

/-- Ten bytes that encode 2 ^ 64 are read as zero. -/
theorem not_exact_of_tenth_byte :
    next (List.replicate 9 0x80 ++ [2]) = .ok (0, []) ∧
      value (List.replicate 9 0x80 ++ [2]) = 2 ^ 64 ∧ ¬ Exact (List.replicate 9 0x80 ++ [2]) := by
  have hread : next (List.replicate 9 0x80 ++ [2]) = .ok (0, []) := rfl
  have hvalue : value (List.replicate 9 0x80 ++ [2]) = 2 ^ 64 := by decide
  refine ⟨hread, hvalue, fun h => ?_⟩
  obtain ⟨consumed, hsplit, -, -, hexact⟩ := h _ _ hread
  rw [List.append_nil] at hsplit
  rw [← hsplit, hvalue] at hexact
  exact absurd hexact (by decide)

end Zkasper.CommitteeCache.Varints
