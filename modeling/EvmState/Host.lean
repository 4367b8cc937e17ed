import EvmState.Lib.Fallible

/-!
# The identity of a machine

Records name the machine that wrote them by a hash of its persistent
identifier. Older records name the host and may be rebound by a recovery file.
-/

set_option autoImplicit false

namespace EvmState.Host

structure Machine where
  digest : String
  hostname : String

def Machine.id (machine : Machine) : String := "machine-sha256:" ++ machine.digest

/-- `rebinding` tells whether a recovery file is there and is the one of the
record. -/
def Machine.matchesFor (machine : Machine) (host : String) (rebinding : Option Bool) : Bool :=
  if host = "" then false
  else if "machine-sha256:".toList.isPrefixOf host.toList then host = machine.id
  else
    match rebinding with
    | some actual => actual
    | none => host = machine.hostname

theorem Machine.matchesFor_id (machine : Machine) (rebinding : Option Bool) :
    machine.matchesFor machine.id rebinding = true := by
  have hp : "machine-sha256:".toList.isPrefixOf machine.id.toList = true := by
    rw [Machine.id, String.toList_append, List.isPrefixOf_iff_prefix]
    exact List.prefix_append _ _
  have hne : machine.id ≠ "" := by
    intro he
    rw [he] at hp
    simp at hp
  unfold Machine.matchesFor
  rw [if_neg hne, if_pos hp]
  simp

end EvmState.Host
