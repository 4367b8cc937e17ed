import EvmState.Eth
import EvmState.Lib.Fallible
import EvmState.Lib.OrderedMap

/-!
# Account deletion at transaction end

Before Cancun every committed SELFDESTRUCT deletes the executing account, and
from Cancun on only one whose account was created in the same transaction.
Delegated code executes in the context of its nearest non-delegated ancestor.
-/

set_option autoImplicit false

namespace EvmState.Lifecycle
open EvmState.Hex EvmState.Eth EvmState.Fallible EvmState.OrderedMap

def bscCancunTime : ℕ := 1718863500

def isDelegated (call : Call) : Bool := call.callType = .delegate || call.callType = .callcode

def parentOf (calls : List Call) (current : Call) : Option Call :=
  calls.find? (fun parent => parent.index = current.parentIndex && parent.index ≠ current.index)

/-- The walk up the parent links. Every round adds an index of the starting
call or of `calls` to `visited`, so the fuel of `executionAddress` never ends
a walk that the visited set would have continued. -/
def resolveContext (calls : List Call) : ℕ → Call → List ℕ → Except String Bytes
  | 0, _, _ => .error "cyclic delegated call ancestry"
  | fuel+1, current, visited =>
    if isDelegated current then
      if current.index ∈ visited then .error "cyclic delegated call ancestry"
      else match parentOf calls current with
        | none => .error "delegated SELFDESTRUCT missing execution context"
        | some parent => resolveContext calls fuel parent (current.index::visited)
    else .ok current.address

def executionAddress (call : Call) (calls : List Call) : Except String Bytes :=
  resolveContext calls (calls.length+2) call []

/-- Accounts that a non-reverted Create call of the transaction has. -/
def created (tx : TransactionTrace) : List Bytes :=
  (tx.calls.filter (fun c => !c.stateReverted && c.callType = .create)).map (·.address)

def selfdestructs (tx : TransactionTrace) : List Call :=
  tx.calls.filter (fun c => c.suicide && !c.stateReverted)

/-- The fork rule: who is deleted when the transaction ends. -/
def deletes (timestamp : ℕ) (tx : TransactionTrace) (account : Bytes) : Bool :=
  timestamp < bscCancunTime || account ∈ created tx

def raise (result : SortedMap Bytes ℕ) (account : Bytes) (end_ : ℕ) : SortedMap Bytes ℕ :=
  result.insert account (match result.get? account with
    | some e => max e end_
    | none => end_)

def deletionStep (timestamp : ℕ) (tx : TransactionTrace) (result : SortedMap Bytes ℕ)
    (call : Call) : Except String (SortedMap Bytes ℕ) := do
  let account ← executionAddress call tx.calls
  if deletes timestamp tx account then
    ensure (tx.endOrdinal ≠ 0 ∧ call.endOrdinal < tx.endOrdinal)
      "account deletion has no reliable transaction-end ordinal"
    return raise result account tx.endOrdinal
  return result

def transactionDeletions (timestamp : ℕ) (result : SortedMap Bytes ℕ) (tx : TransactionTrace) :
    Except String (SortedMap Bytes ℕ) :=
  if tx.status = .succeeded then (selfdestructs tx).foldlM (deletionStep timestamp tx) result
  else .ok result

def deletions (block : Block) (timestamp : ℕ) : Except String (SortedMap Bytes ℕ) := do
  let result ← block.transactionTraces.foldlM (transactionDeletions timestamp) SortedMap.empty
  ensure (block.systemCalls.all (fun call => !(call.suicide && !call.stateReverted)))
    "SELFDESTRUCT in system execution requires producer qualification"
  return result

/-!
## Every deletion of a block

The deletions of one account are listed here one by one, before the map keeps
the last of them.
-/

def callDeletion (timestamp : ℕ) (tx : TransactionTrace) (call : Call) : Option (Bytes × ℕ) :=
  match executionAddress call tx.calls with
  | .ok account => if deletes timestamp tx account then some (account,tx.endOrdinal) else none
  | .error _ => none

def transactionEvents (timestamp : ℕ) (tx : TransactionTrace) : List (Bytes × ℕ) :=
  if tx.status = .succeeded then (selfdestructs tx).filterMap (callDeletion timestamp tx) else []

def deletionEvents (block : Block) (timestamp : ℕ) : List (Bytes × ℕ) :=
  block.transactionTraces.flatMap (transactionEvents timestamp)

abbrev Greatest (m : SortedMap Bytes ℕ) (es : List (Bytes × ℕ)) : Prop := m.Tops id es

theorem raise_greatest {m : SortedMap Bytes ℕ} {es : List (Bytes × ℕ)} (h : Greatest m es)
    (a : Bytes) (e : ℕ) : Greatest (raise m a e) (es++[(a,e)]) := by
  have hk : raise m a e = m.keepGreatest id a e := by
    ext b : 1
    by_cases hb : b = a
    · subst hb
      cases hm : m.get? b with
      | none => simp [raise, SortedMap.keepGreatest, hm]
      | some d =>
        by_cases hd : d < e
        · simp [raise, SortedMap.keepGreatest, hm, hd, max_eq_right hd.le]
        · simp [raise, SortedMap.keepGreatest, hm, hd, max_eq_left (not_lt.mp hd)]
    · simp only [raise, SortedMap.keepGreatest, SortedMap.get?_insert, if_neg hb]
      split <;> simp [hb]
  rw [hk]
  exact SortedMap.tops_keepGreatest h a e

theorem deletionStep_greatest {timestamp : ℕ} {tx : TransactionTrace} {call : Call}
    {m n : SortedMap Bytes ℕ} {es : List (Bytes × ℕ)} (h : Greatest m es)
    (hs : deletionStep timestamp tx m call = .ok n) :
    Greatest n (es++(callDeletion timestamp tx call).toList) := by
  obtain ⟨account,ha,hs⟩ := bind_ok.mp hs
  by_cases hd : deletes timestamp tx account
  · rw [if_pos hd] at hs
    obtain ⟨-,-,hs⟩ := bind_ok.mp hs
    obtain rfl := pure_ok.mp hs
    simpa [callDeletion, ha, hd] using raise_greatest h account tx.endOrdinal
  · rw [if_neg hd] at hs
    obtain rfl := pure_ok.mp hs
    simpa [callDeletion, ha, hd] using h

theorem selfdestructs_greatest {timestamp : ℕ} {tx : TransactionTrace} {calls : List Call}
    {m n : SortedMap Bytes ℕ} {es : List (Bytes × ℕ)} (h : Greatest m es)
    (hs : calls.foldlM (deletionStep timestamp tx) m = .ok n) :
    Greatest n (es++calls.filterMap (callDeletion timestamp tx)) := by
  induction calls generalizing m es with
  | nil =>
    obtain rfl := pure_ok.mp hs
    simpa using h
  | cons call calls ih =>
    obtain ⟨k,hk,hs⟩ := bind_ok.mp hs
    have hn := ih (deletionStep_greatest h hk) hs
    cases hc : callDeletion timestamp tx call <;> simpa [hc] using hn

theorem transactions_greatest {timestamp : ℕ} {txs : List TransactionTrace}
    {m n : SortedMap Bytes ℕ} {es : List (Bytes × ℕ)} (h : Greatest m es)
    (hs : txs.foldlM (transactionDeletions timestamp) m = .ok n) :
    Greatest n (es++txs.flatMap (transactionEvents timestamp)) := by
  induction txs generalizing m es with
  | nil =>
    obtain rfl := pure_ok.mp hs
    simpa using h
  | cons tx txs ih =>
    obtain ⟨k,hk,hs⟩ := bind_ok.mp hs
    have hone : Greatest k (es++transactionEvents timestamp tx) := by
      unfold transactionDeletions at hk
      unfold transactionEvents
      split at hk
      · rw [if_pos ‹_›]
        exact selfdestructs_greatest h hk
      · rw [if_neg ‹_›]
        cases hk
        simpa using h
    simpa using ih hone hs

/-- The deletion map of a block holds the last deletion of every account. -/
theorem deletions_greatest {block : Block} {timestamp : ℕ} {m : SortedMap Bytes ℕ}
    (h : deletions block timestamp = .ok m) : Greatest m (deletionEvents block timestamp) := by
  obtain ⟨n,hn,h⟩ := bind_ok.mp h
  obtain ⟨-,-,h⟩ := bind_ok.mp h
  obtain rfl := pure_ok.mp h
  simpa [deletionEvents] using transactions_greatest (SortedMap.tops_empty id) hn

end EvmState.Lifecycle
