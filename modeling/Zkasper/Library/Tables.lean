import Mathlib.Data.List.Nodup

/-! # Tables

Rows under their keys, each key once, in the order they came in. -/

namespace Zkasper.Library

/-- Rows, each with its key. -/
abbrev Table (K V : Type) := List (K × V)

namespace Table

variable {K V : Type} [DecidableEq K]

/-- The row of a key. -/
def get? (k : K) : Table K V → Option V
  | [] => none
  | (k', v) :: t => if k' = k then some v else get? k t

/-- The row of a key is this from now on, whether there was one or not. -/
def put (k : K) (v : V) : Table K V → Table K V
  | [] => [(k, v)]
  | (k', v') :: t => if k' = k then (k, v) :: t else (k', v') :: put k v t

/-- The keys. -/
def keys (t : Table K V) : List K := t.map (·.1)

/-! ## What is read -/

theorem get?_put (k k' : K) (v : V) (t : Table K V) :
    (t.put k v).get? k' = if k = k' then some v else t.get? k' := by
  induction t with
  | nil => rfl
  | cons row t ih =>
      obtain ⟨key, old⟩ := row
      by_cases hkey : key = k
      · subst hkey
        by_cases h : key = k' <;> simp [put, get?, h]
      · by_cases h : key = k'
        · subst h
          simp [put, get?, hkey, Ne.symm hkey]
        · simp [put, get?, hkey, h, ih]

@[simp] theorem get?_put_self (k : K) (v : V) (t : Table K V) : (t.put k v).get? k = some v := by
  rw [get?_put, if_pos rfl]

theorem get?_put_of_ne {k k' : K} (h : k ≠ k') (v : V) (t : Table K V) :
    (t.put k v).get? k' = t.get? k' := by
  rw [get?_put, if_neg h]

theorem mem_of_get? {k : K} {v : V} {t : Table K V} (h : t.get? k = some v) : (k, v) ∈ t := by
  induction t with
  | nil => cases h
  | cons row t ih =>
      obtain ⟨key, old⟩ := row
      rw [get?] at h
      split at h
      · next hkey =>
          obtain rfl := Option.some.inj h
          exact hkey ▸ List.mem_cons_self
      · exact List.mem_cons_of_mem _ (ih h)

theorem get?_eq_none_iff {k : K} {t : Table K V} : t.get? k = none ↔ k ∉ t.keys := by
  induction t with
  | nil => simp [get?, keys]
  | cons row t ih =>
      obtain ⟨key, old⟩ := row
      by_cases hkey : key = k
      · simp [get?, keys, hkey]
      · simpa [get?, keys, hkey, Ne.symm hkey] using ih

theorem get?_isSome_iff {k : K} {t : Table K V} : (t.get? k).isSome ↔ k ∈ t.keys := by
  rw [← not_iff_not, Bool.not_eq_true, Option.isSome_eq_false_iff, Option.isNone_iff_eq_none,
    get?_eq_none_iff]

theorem mem_keys_put {k k' : K} {v : V} {t : Table K V} :
    k' ∈ (t.put k v).keys ↔ k' = k ∨ k' ∈ t.keys := by
  rw [← get?_isSome_iff, ← get?_isSome_iff, get?_put]
  by_cases h : k = k'
  · simp [h]
  · simp [h, Ne.symm h]

theorem nodup_keys_put (k : K) (v : V) {t : Table K V} (h : t.keys.Nodup) :
    (t.put k v).keys.Nodup := by
  induction t with
  | nil => exact List.nodup_singleton k
  | cons row t ih =>
      obtain ⟨key, old⟩ := row
      obtain ⟨hnew, hrest⟩ := List.nodup_cons.mp h
      by_cases hkey : key = k
      · subst hkey
        rw [put, if_pos rfl]
        exact h
      · rw [put, if_neg hkey]
        refine List.nodup_cons.mpr ⟨fun hmem => ?_, ih hrest⟩
        rcases mem_keys_put.mp hmem with hsame | hold
        · exact hkey hsame
        · exact hnew hold

omit [DecidableEq K] in
theorem mem_keys_of_mem {row : K × V} {t : Table K V} (h : row ∈ t) : row.1 ∈ t.keys :=
  List.mem_map_of_mem h

/-- Each key has one row. -/
theorem get?_of_mem {k : K} {v : V} {t : Table K V} (h : t.keys.Nodup) (hmem : (k, v) ∈ t) :
    t.get? k = some v := by
  induction t with
  | nil => cases hmem
  | cons row t ih =>
      obtain ⟨key, old⟩ := row
      obtain ⟨hnew, hrest⟩ := List.nodup_cons.mp h
      rcases List.mem_cons.mp hmem with heq | hmem
      · obtain ⟨rfl, rfl⟩ := Prod.mk.inj heq
        rw [get?, if_pos rfl]
      · have hkey : key ≠ k := by
          rintro rfl
          have hkeys := mem_keys_of_mem hmem
          exact hnew hkeys
        rw [get?, if_neg hkey]
        exact ih hrest hmem

/-- A row that is put where it is not looked for is gone from what is found. -/
theorem filter_put {k : K} {v : V} {t : Table K V} {p : K × V → Bool} (hp : p (k, v) = false)
    (h : t.keys.Nodup) : (t.put k v).filter p = (t.filter p).filter fun row => row.1 ≠ k := by
  induction t with
  | nil => simp [put, hp]
  | cons row t ih =>
      obtain ⟨key, old⟩ := row
      obtain ⟨hnew, hrest⟩ := List.nodup_cons.mp h
      by_cases hkey : key = k
      · subst hkey
        have hothers : ∀ row ∈ t.filter p, decide (row.1 ≠ key) = true := by
          intro row hrow
          apply decide_eq_true
          rintro rfl
          have hkeys := mem_keys_of_mem (List.mem_of_mem_filter hrow)
          exact hnew hkeys
        rw [put, if_pos rfl, List.filter_cons_of_neg (by simp [hp]), List.filter_cons]
        split
        · rw [List.filter_cons_of_neg (by simp), List.filter_eq_self.mpr hothers]
        · rw [List.filter_eq_self.mpr hothers]
      · rw [put, if_neg hkey, List.filter_cons, List.filter_cons, ih hrest]
        split
        · rw [List.filter_cons_of_pos (by simpa using hkey)]
        · rfl

end Table

end Zkasper.Library
