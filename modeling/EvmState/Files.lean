import EvmState.Lib.Crash

/-!
# Metadata files

A file is written under a scratch name, synced, and then linked or renamed to
its own name. A process that dies in between leaves the scratch file.
-/

set_option autoImplicit false

namespace EvmState.Files
open EvmState.Fallible EvmState.Crash

inductive Part
  | temporary
  | publish
  | sync
  deriving DecidableEq

section Write
variable {σ ι : Type} (faults : ι → Option String) (point : Part → ι)
  (temporary publish discard : σ → σ) (taken : σ → Bool)

/-- A link fails when the name is taken; a rename finds no name taken. -/
def atomicWrite : Prog σ Unit := do
  arrive faults (point .temporary)
  write temporary
  arrive faults (point .publish)
  let taken ← read (fun s => .ok (taken s))
  if taken then do
    write discard
    check (.error "File exists")
  else do
    write publish
    arrive faults (point .sync)
    write discard

variable {faults point temporary publish discard taken} {C : ι → σ → Prop} {P R : σ → Prop}

def writePoints (point : Part → ι) : List ι := [point .temporary,point .publish,point .sync]

theorem visits_atomicWrite (hP : ∀ s, P s → C (point .temporary) s)
    (hM : ∀ s, P s → C (point .publish) (temporary s))
    (ht : ∀ s, P s → taken (temporary s) = false)
    (hN : ∀ s, P s → C (point .sync) (publish (temporary s)))
    (hR : ∀ s, P s → R (discard (publish (temporary s)))) :
    Visits faults (writePoints point) C P (atomicWrite faults point temporary publish discard taken)
      (fun _ => R) := by
  let M : σ → Prop := fun s => ∃ u, P u ∧ s = temporary u
  let N : σ → Prop := fun s => ∃ u, P u ∧ s = publish (temporary u)
  refine visits_point hP (visits_step (visits_write (R := fun _ => M) (fun s h => ⟨s,h,rfl⟩))
    (fun _ => visits_point ?_ ?_))
  · rintro s ⟨u,hu,rfl⟩
    exact hM u hu
  · refine visits_step (visits_read (Q := fun b s => M s ∧ b = false) ?_) (fun b => ?_)
    · rintro s ⟨u,hu,rfl⟩
      exact ⟨_,rfl,⟨u,hu,rfl⟩,ht u hu⟩
    · cases b with
      | true => exact fun _ h => absurd h.2 (by simp)
      | false =>
        refine visits_step (visits_write (R := fun _ => N) ?_) (fun _ => visits_point ?_ ?_)
        · rintro s ⟨⟨u,hu,rfl⟩,-⟩
          exact ⟨u,hu,rfl⟩
        · rintro s ⟨u,hu,rfl⟩
          exact hN u hu
        · refine visits_write ?_
          rintro s ⟨u,hu,rfl⟩
          exact hR u hu

end Write
end EvmState.Files
