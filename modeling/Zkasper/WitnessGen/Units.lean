import Zkasper.WitnessGen.StreamRuns

/-! # The units of an epoch

What holds of the units an epoch has closed, whatever it has proven of them: each is
a complement of a slot of the epoch, and no slot is there twice, because a closed slot
is never opened again (`Taken`). -/

namespace Zkasper.Streaming

open SlotStream

variable {P : Primitives} [Ord P.Bytes32] {B : Blst} {𝕜 : Type} [LinearOrder 𝕜] [AddCommGroup 𝕜]

/-- The slot lies in the epoch, by the arithmetic of the source. -/
def InEpoch (slotsPerEpoch epoch slot : UInt64) : Prop :=
  epoch * slotsPerEpoch ≤ slot ∧ slot < (epoch + 1) * slotsPerEpoch

/-- Slots of one epoch with one number are one slot, whether or not the product wraps. -/
theorem InEpoch.eq_of_mod {slotsPerEpoch epoch s t : UInt64} (hs : InEpoch slotsPerEpoch epoch s)
    (ht : InEpoch slotsPerEpoch epoch t) (h : s % slotsPerEpoch = t % slotsPerEpoch) : s = t := by
  have hend : ((epoch + 1) * slotsPerEpoch).toNat ≤
      (epoch * slotsPerEpoch).toNat + slotsPerEpoch.toNat := by
    have hsplit : (epoch + 1) * slotsPerEpoch = epoch * slotsPerEpoch + slotsPerEpoch := by
      rw [UInt64.add_mul, UInt64.one_mul]
    rw [hsplit, UInt64.toNat_add]
    exact Nat.mod_le _ _
  obtain ⟨hs, hs'⟩ := hs
  obtain ⟨ht, ht'⟩ := ht
  rw [UInt64.le_iff_toNat_le] at hs ht
  rw [UInt64.lt_iff_toNat_lt] at hs' ht'
  have hmod : s.toNat ≡ t.toNat [MOD slotsPerEpoch.toNat] := by
    have hnat := congrArg UInt64.toNat h
    rwa [UInt64.toNat_mod, UInt64.toNat_mod] at hnat
  -- they are less than an epoch apart
  apply UInt64.toNat_inj.mp
  apply Nat.ModEq.eq_of_abs_lt hmod
  rw [abs_lt]
  omega

/-- **Each slot is taken once**: what is closed is never open again, and the units are
complements of as many slots of the epoch. -/
structure Taken (slotsPerEpoch epoch : UInt64) (committees : EpochCommittees P)
    (stream : SlotStream P B) (units : List (SlotComplement P)) : Prop where
  apart : stream.Apart
  sameWidth : stream.slotsPerEpoch = slotsPerEpoch
  sameCommittees : stream.committees = committees
  closed : ∀ unit ∈ units, unit.slot ∈ stream.closed
  nodup : (units.map (·.slot)).Nodup
  prices : ∀ unit ∈ units, Prices committees slotsPerEpoch unit
  inEpoch : ∀ unit ∈ units, InEpoch slotsPerEpoch epoch unit.slot

namespace Taken

variable {slotsPerEpoch epoch : UInt64} {committees : EpochCommittees P} {stream : SlotStream P B}
  {units : List (SlotComplement P)}

theorem new {targetEpoch : UInt64} {targetRoot sourceRoot : P.Bytes32} :
    Taken slotsPerEpoch epoch committees
      (SlotStream.new slotsPerEpoch committees targetEpoch targetRoot sourceRoot : SlotStream P B)
      [] where
  apart := new_apart
  sameWidth := rfl
  sameCommittees := rfl
  closed := by simp
  nodup := List.nodup_nil
  prices := by simp
  inEpoch := by simp

/-- Within the epoch they are different slots as well. -/
theorem distinct (h : Taken slotsPerEpoch epoch committees stream units) :
    (units.map (·.witness.slotInEpoch.toNat)).Nodup := by
  apply List.Nodup.map_on _ h.nodup.of_map
  intro unit hunit other hother heq
  have hmod : unit.slot % slotsPerEpoch = other.slot % slotsPerEpoch := by
    rw [← (h.prices unit hunit).slotInEpoch, ← (h.prices other hother).slotInEpoch]
    exact UInt64.toNat_inj.mp heq
  exact List.inj_on_of_nodup_map h.nodup hunit hother
    ((h.inEpoch unit hunit).eq_of_mod (h.inEpoch other hother) hmod)

theorem ingest (h : Taken slotsPerEpoch epoch committees stream units)
    (attestations : List (AttestationResponse P)) :
    Taken slotsPerEpoch epoch committees (stream.ingest attestations).1 units := by
  have hapart := h.apart.ingest attestations
  obtain ⟨pending, summed, heq, -⟩ := ingest_eq attestations stream
  rw [heq] at hapart ⊢
  exact { h with apart := hapart }

/-- Closing a slot that is open. -/
theorem forget (h : Taken slotsPerEpoch epoch committees stream units) {unit : SlotComplement P}
    (hopen : stream.IsOpen unit.slot) (hprices : Prices committees slotsPerEpoch unit)
    (hepoch : InEpoch slotsPerEpoch epoch unit.slot) :
    Taken slotsPerEpoch epoch committees (stream.forget unit.slot) (units ++ [unit]) where
  apart := h.apart.forget unit.slot
  sameWidth := h.sameWidth
  sameCommittees := h.sameCommittees
  closed := by
    rintro other hother
    rcases List.mem_append.mp hother with hother | hother
    · exact mem_closed_forget.mpr (.inr (h.closed other hother))
    · obtain rfl := List.mem_singleton.mp hother
      exact mem_closed_forget.mpr (.inl rfl)
  nodup := by
    rw [List.map_append, List.map_singleton, List.nodup_append_comm, List.singleton_append,
      List.nodup_cons]
    refine ⟨fun hmem => ?_, h.nodup⟩
    -- a slot that is open has not been closed before
    obtain ⟨other, hother, hslot⟩ := List.mem_map.mp hmem
    exact h.apart unit.slot hopen (hslot ▸ h.closed other hother)
  prices := by
    rintro other hother
    rcases List.mem_append.mp hother with hother | hother
    · exact h.prices other hother
    · obtain rfl := List.mem_singleton.mp hother
      exact hprices
  inEpoch := by
    rintro other hother
    rcases List.mem_append.mp hother with hother | hother
    · exact h.inEpoch other hother
    · obtain rfl := List.mem_singleton.mp hother
      exact hepoch

end Taken

namespace StreamAggregator

variable {a : StreamAggregator P B} {slotsPerEpoch : UInt64} {units : List (SlotComplement P)}

/-- What an epoch has closed. -/
def Taken (slotsPerEpoch : UInt64) (a : StreamAggregator P B) : Prop :=
  Streaming.Taken slotsPerEpoch a.context.targetEpoch a.committees a.stream a.units

theorem taken_stable : Stable (Taken slotsPerEpoch : StreamAggregator P B → Prop) :=
  fun _ attestations _ _ _ _ _ _ h => Streaming.Taken.ingest h attestations

omit [LinearOrder 𝕜] [AddCommGroup 𝕜] in
theorem taken_openEpoch {config : Config 𝕜} {targetEpoch : UInt64} {o : Opening P} :
    (StreamPipeline.openEpoch config targetEpoch o : StreamAggregator P B).Taken
      config.slotsPerEpoch :=
  .new

theorem mem_openUnits {unit : SlotComplement P} (h : unit ∈ a.openUnits slotsPerEpoch) :
    a.stream.IsOpen unit.slot ∧ Prices a.stream.committees a.stream.slotsPerEpoch unit ∧
      InEpoch slotsPerEpoch a.context.targetEpoch unit.slot := by
  obtain ⟨slot, hslot, hpeek⟩ := List.mem_filterMap.mp h
  obtain ⟨rfl, hprices⟩ := peek_prices hpeek
  obtain ⟨hopen, hepoch⟩ := List.mem_filter.mp hslot
  simp only [Bool.and_eq_true, decide_eq_true_eq] at hepoch
  exact ⟨mem_openSlots.mp hopen, hprices, hepoch⟩

/-- What is open is priced in ascending order. -/
theorem openUnits_pairwise (a : StreamAggregator P B) (slotsPerEpoch : UInt64) :
    (a.openUnits slotsPerEpoch).Pairwise fun unit other => unit.slot < other.slot := by
  apply List.pairwise_filterMap.mpr
  apply ((openSlots_pairwise a.stream).filter _).imp
  intro slot slot' hlt unit hunit other hother
  obtain ⟨rfl, -⟩ := peek_prices hunit
  obtain ⟨rfl, -⟩ := peek_prices hother
  exact hlt

/-- Closing slots appends their units and leaves the progress alone. -/
theorem closeUnits_eq (units : List (SlotComplement P)) : ∀ a : StreamAggregator P B,
    ∃ stream attestingBalance, a.closeUnits units =
      { a with stream, attestingBalance, units := a.units ++ units } := by
  induction units with
  | nil =>
      intro a
      refine ⟨a.stream, a.attestingBalance, ?_⟩
      rw [List.append_nil]
      rfl
  | cons unit units ih =>
      intro a
      obtain ⟨stream, attestingBalance, heq⟩ := ih (a.closeUnit unit)
      refine ⟨stream, attestingBalance, ?_⟩
      show (a.closeUnit unit).closeUnits units = _
      rw [heq]
      simp only [closeUnit, List.append_assoc, List.singleton_append]

/-- Closing open slots, each once. -/
theorem Taken.closeUnits : ∀ {units : List (SlotComplement P)} {a : StreamAggregator P B},
    a.Taken slotsPerEpoch → (units.Pairwise fun unit other => unit.slot < other.slot) →
      (∀ unit ∈ units, a.stream.IsOpen unit.slot ∧ Prices a.committees slotsPerEpoch unit ∧
        InEpoch slotsPerEpoch a.context.targetEpoch unit.slot) →
      (a.closeUnits units).Taken slotsPerEpoch := by
  intro units
  induction units with
  | nil => intro a h _ _; exact h
  | cons unit units ih =>
      intro a h hpairwise hunits
      obtain ⟨hlt, hpairwise⟩ := List.pairwise_cons.mp hpairwise
      obtain ⟨⟨hopen, hprices, hepoch⟩, hunits⟩ := List.forall_mem_cons.mp hunits
      apply ih (a := a.closeUnit unit) (Streaming.Taken.forget h hopen hprices hepoch) hpairwise
      intro other hother
      obtain ⟨hopen', hother'⟩ := hunits other hother
      exact ⟨isOpen_forget.mpr ⟨UInt64.ne_of_lt (hlt other hother), hopen'⟩, hother'⟩

/-- **Closing the first few of what is open.** -/
theorem Taken.close (h : a.Taken slotsPerEpoch) (hfirst : units <+: a.openUnits slotsPerEpoch) :
    (a.closeUnits units).Taken slotsPerEpoch := by
  apply Taken.closeUnits h ((openUnits_pairwise a slotsPerEpoch).sublist hfirst.sublist)
  intro unit hunit
  have hopen := mem_openUnits (hfirst.subset hunit)
  rwa [Streaming.Taken.sameCommittees h, Streaming.Taken.sameWidth h] at hopen

/-! ## Where the tail starts -/

/-- How many units are behind the aggregate, or the group it will absorb. -/
def handed (a : StreamAggregator P B) : ℕ := a.unfolded.elim a.proved Prod.fst

/-- **The tail** ends with the unit that carries the epoch over the target, and starts
where the aggregate and the group end, or is empty. -/
theorem tail_eq_some {policy : StreamPolicy 𝕜} {tail : Range} (h : a.tail policy = some tail) :
    ∃ c, crossing a.units (policy.targetBalance a.context.totalActiveBalance) = some c ∧
      tail = ⟨min a.handed (c + 1), c + 1⟩ := by
  simp only [StreamAggregator.tail, Option.bind_eq_bind, Option.bind_eq_some_iff] at h
  obtain ⟨p, hplan, h⟩ := h
  split at h
  · cases h
  · next hreached =>
      obtain ⟨c, hc, hret⟩ := Option.bind_eq_some_iff.mp h
      obtain rfl := Option.some.inj hret
      simp only [Bool.not_eq_true, Bool.not_eq_false', plan_thresholdReached hplan] at hreached
      obtain ⟨c', hcrossing⟩ := Option.isSome_iff_exists.mp hreached
      have hne : a.units ≠ [] := by
        intro hnil
        have hlt := (crossing_eq_some.mp hcrossing).1
        rw [hnil] at hlt
        exact absurd hlt (Nat.not_lt_zero c')
      -- the plan covers the units up to the crossing, so the last of them is the crossing
      obtain ⟨hcovered, -⟩ := plan_units hne hplan
      rw [hcovered, hcrossing, Option.getD_some, List.max?_eq_some_iff] at hc
      obtain ⟨hmem, hmax⟩ := hc
      have hle := List.mem_range.mp hmem
      have hge := hmax c' (List.mem_range.mpr (Nat.lt_succ_self c'))
      obtain rfl : c = c' := by omega
      exact ⟨c, hcrossing, rfl⟩

end StreamAggregator
end Zkasper.Streaming
