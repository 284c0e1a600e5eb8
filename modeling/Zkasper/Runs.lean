import Zkasper.CommitteeProof
import Zkasper.EpochDiff
import Zkasper.StreamFinal

/-! # Trees of runs

What a proof system is trusted for: whatever it accepts under the key of one of
the guests, some run of that guest published. A guest with children is run over a
proof system of which the same is true, so an accepted proof stands for a tree of
runs, and `Accepted` is that tree. Under a key that belongs to none of the guests
anything may be published: a program of the prover's own.

The key of the final proof is in no file of the repository, since no guest bakes
it; it is a parameter. -/

namespace Zkasper

variable {P : Primitives}

/-- The keys of the guests, given the final proof's. -/
def guestKeys (streamVk : ProgramVk) : List ProgramVk :=
  [committeeProgramVk, epochDiffProgramVk, slotProgramVk, groupProgramVk, aggregateProgramVk,
    justificationProgramVk, streamVk]

/-- **A tree of runs** that ends with a program publishing some bytes. -/
inductive Accepted (accDepth : ℕ) (slotsPerEpoch : UInt64) (streamVk : ProgramVk) :
    ProgramVk → PublicBytes P → Prop
  | committee {witness : List UInt64} {out : CommitteeOutput P}
      (run : Committee.verify witness accDepth = .ok out) :
      Accepted accDepth slotsPerEpoch streamVk committeeProgramVk out.publicBytes
  | epochDiff {out : EpochDiffOutput P} (run : EpochDiffAccepted accDepth out) :
      Accepted accDepth slotsPerEpoch streamVk epochDiffProgramVk out.publicBytes
  | slot {w : SlotProofWitness P} {out : SlotProofOutput P}
      (run : verifySlotProofWithDepth w accDepth = .ok out) :
      Accepted accDepth slotsPerEpoch streamVk slotProgramVk out.publicBytes
  | group {w : SlotProofWitness P} {out : GroupProofOutput P}
      (run : verifyGroupProofWithDepth w accDepth = .ok out) :
      Accepted accDepth slotsPerEpoch streamVk groupProgramVk out.publicBytes
  | aggregate {S : ProofSystem P} {w : AggregateWitness P} {out : AggregateOutput P}
      (children : ∀ proof vk publics, S proof vk publics = true →
        Accepted accDepth slotsPerEpoch streamVk vk publics)
      (run : verifyAggregate S w = .ok out) :
      Accepted accDepth slotsPerEpoch streamVk aggregateProgramVk out.publicBytes
  | justification {S : ProofSystem P} {w : JustificationWitness P} {out : JustificationOutput P}
      (children : ∀ proof vk publics, S proof vk publics = true →
        Accepted accDepth slotsPerEpoch streamVk vk publics)
      (run : verifyJustification S w = .ok out) :
      Accepted accDepth slotsPerEpoch streamVk justificationProgramVk out.publicBytes
  | streamFinal {S : ProofSystem P} {w : StreamFinalWitness P} {out : StreamFinalOutput P}
      (children : ∀ proof vk publics, S proof vk publics = true →
        Accepted accDepth slotsPerEpoch streamVk vk publics)
      (run : verifyStreamFinalWith S w accDepth slotsPerEpoch = .ok out) :
      Accepted accDepth slotsPerEpoch streamVk streamVk out.publicBytes
  | other {vk : ProgramVk} {publics : PublicBytes P} (foreign : vk ∉ guestKeys streamVk) :
      Accepted accDepth slotsPerEpoch streamVk vk publics

/-- Whatever the proof system accepts stands for a tree of runs. -/
def ProofSystem.Sound (S : ProofSystem P) (accDepth : ℕ) (slotsPerEpoch : UInt64)
    (streamVk : ProgramVk) : Prop :=
  ∀ proof vk publics, S proof vk publics = true →
    Accepted accDepth slotsPerEpoch streamVk vk publics

/-- Some accepted run of the final proof over a sound proof system publishes
`out`, and names the final proof's own key, which is the comparison that falls to
the verifier. -/
def StreamFinalAccepted (accDepth : ℕ) (slotsPerEpoch : UInt64) (streamVk : ProgramVk)
    (out : StreamFinalOutput P) : Prop :=
  out.programVk = streamVk ∧ ∃ (S : ProofSystem P) (w : StreamFinalWitness P),
    S.Sound accDepth slotsPerEpoch streamVk ∧
      verifyStreamFinalWith S w accDepth slotsPerEpoch = .ok out

/-! ## What the run behind a key was

A guest is told apart by its key, and the final proof, whose key is not fixed, by
what it publishes. -/

namespace Accepted

variable {accDepth : ℕ} {slotsPerEpoch : UInt64} {streamVk : ProgramVk}

theorem committee_inv {out : CommitteeOutput P}
    (h : Accepted accDepth slotsPerEpoch streamVk committeeProgramVk out.publicBytes) :
    ∃ witness, Committee.verify witness accDepth = .ok out := by
  generalize hvk : committeeProgramVk = vk at h
  generalize hpublics : out.publicBytes = publics at h
  cases h with
  | committee run => exact ⟨_, CommitteeOutput.publicBytes_injective hpublics ▸ run⟩
  | streamFinal => simp [CommitteeOutput.publicBytes, StreamFinalOutput.publicBytes] at hpublics
  | other foreign => exact absurd (by simp [guestKeys, ← hvk]) foreign
  | _ => cases hvk

theorem epochDiff_inv {out : EpochDiffOutput P}
    (h : Accepted accDepth slotsPerEpoch streamVk epochDiffProgramVk out.publicBytes) :
    EpochDiffAccepted accDepth out := by
  generalize hvk : epochDiffProgramVk = vk at h
  generalize hpublics : out.publicBytes = publics at h
  cases h with
  | epochDiff run => exact EpochDiffOutput.publicBytes_injective hpublics ▸ run
  | streamFinal => simp [EpochDiffOutput.publicBytes, StreamFinalOutput.publicBytes] at hpublics
  | other foreign => exact absurd (by simp [guestKeys, ← hvk]) foreign
  | _ => cases hvk

theorem group_inv {out : GroupProofOutput P}
    (h : Accepted accDepth slotsPerEpoch streamVk groupProgramVk out.publicBytes) :
    ∃ w, verifyGroupProofWithDepth w accDepth = .ok out := by
  generalize hvk : groupProgramVk = vk at h
  generalize hpublics : out.publicBytes = publics at h
  cases h with
  | group run => exact ⟨_, GroupProofOutput.publicBytes_injective hpublics ▸ run⟩
  | streamFinal => simp [GroupProofOutput.publicBytes, StreamFinalOutput.publicBytes] at hpublics
  | other foreign => exact absurd (by simp [guestKeys, ← hvk]) foreign
  | _ => cases hvk

end Accepted
end Zkasper
