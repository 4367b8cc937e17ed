import EvmState.Eth
import EvmState.Lib.Fallible

/-!
# Persistence rules

Which change records of an Extended block survived execution. A sink receives
them in producer order; here the calls on the sink are the list of records.
-/

set_option autoImplicit false

namespace EvmState.Persist
open EvmState.Hex EvmState.Eth EvmState.Fallible

inductive Scope where
  | unspecified
  | tx
  | txFailedPersistent
  | tx7702
  | systemCall
  | block
  deriving DecidableEq, Repr

structure Ctx where
  scope : Scope
  txHash : Bytes
  txIndex : ℕ
  txStatus : ℤ
  callIndex : ℕ
  deriving DecidableEq, Repr

def Ctx.block (scope : Scope) : Ctx := ⟨scope,[],0,0,0⟩

/-- One call on the sink. -/
inductive Record where
  | storage (c : StorageChange) (ctx : Ctx)
  | balance (c : BalanceChange) (ctx : Ctx)
  | nonce (c : NonceChange) (ctx : Ctx)
  | code (c : CodeChange) (ctx : Ctx)
  deriving DecidableEq, Repr

def isFailed (trx : TransactionTrace) : Bool := trx.status ≠ .succeeded

def isGasReason (bc : BalanceChange) : Bool :=
  bc.reason = .gasBuy || bc.reason = .gasRefund || bc.reason = .rewardTransactionFee

def stripZeros (b : Bytes) : Bytes := b.dropWhile (· = 0)

def balanceIsNoop (bc : BalanceChange) : Bool :=
  stripZeros (bc.oldValue.getD []) = stripZeros (bc.newValue.getD [])

def storageIsNoop (sc : StorageChange) : Bool := stripZeros sc.oldValue = stripZeros sc.newValue

def nonceIsNoop (nc : NonceChange) : Bool := nc.oldValue = nc.newValue

def codeIsNoop (cc : CodeChange) : Bool := cc.oldHash = cc.newHash

/-- Non-discarded authorities of a SetCode transaction. -/
def authorities (trx : TransactionTrace) : List Bytes :=
  if trx.type = .trxTypeSetCode then
    ((trx.setCodeAuthorizations.filter (fun a => !a.discarded)).filterMap (·.authority)).filter
      (fun a => !a.isEmpty)
  else []

def emitCallAll (call : Call) (ctx : Ctx) : List Record :=
  (call.storageChanges.filter (!storageIsNoop ·)).map (.storage · ctx) ++
  (call.balanceChanges.filter (!balanceIsNoop ·)).map (.balance · ctx) ++
  (call.nonceChanges.filter (!nonceIsNoop ·)).map (.nonce · ctx) ++
  (call.codeChanges.filter (!codeIsNoop ·)).map (.code · ctx)

def checkedSucc (n : ℕ) : Option ℕ := if n+1 < 2^64 then some (n+1) else none

/-- The record of the sender's own increment with its place in the list,
the first of the smallest ordinal. -/
def senderNonce (trx : TransactionTrace) (root : Call) : Option (NonceChange × ℕ) :=
  (root.nonceChanges.zipIdx.filter (fun n => 0 < n.1.ordinal && n.1.address = trx.fromAddress &&
    n.1.oldValue = trx.nonce && some n.1.newValue = checkedSucc trx.nonce)).argmin (·.1.ordinal)

def beforeExecution (root : Call) (ordinal : ℕ) : Bool :=
  0 < ordinal && ordinal < root.beginOrdinal

def collectFailed (trx : TransactionTrace) (base : Scope → ℕ → Ctx) (root : Call) :
    Except String (List Record) := do
  let ctx := base .txFailedPersistent root.index
  let gas := (root.balanceChanges.filter (fun bc => isGasReason bc && !balanceIsNoop bc)).map
    (.balance · ctx)
  let sender := senderNonce trx root
  let increment := sender.toList.map (.nonce ·.1 ctx)
  let auths := authorities trx
  if auths.isEmpty then return gas ++ increment
  ensure (root.beginOrdinal ≠ 0)
    "failed SetCode transaction has no authorization/execution ordinal boundary"
  let ctx7702 := base .tx7702 root.index
  let nonces := (root.nonceChanges.zipIdx.filter (fun nc => sender.map (·.2) ≠ some nc.2 &&
    beforeExecution root nc.1.ordinal && nc.1.address ∈ auths && !nonceIsNoop nc.1)).map
    (.nonce ·.1 ctx7702)
  let codes := (root.codeChanges.filter (fun cc => beforeExecution root cc.ordinal &&
    cc.address ∈ auths && !codeIsNoop cc)).map (.code · ctx7702)
  return gas ++ increment ++ nonces ++ codes

def collectTransaction (trx : TransactionTrace) : Except String (List Record) :=
  let base : Scope → ℕ → Ctx := fun scope callIndex =>
    ⟨scope,trx.hash,trx.index,trx.status.code,callIndex⟩
  if isFailed trx then
    match trx.calls.head? with
    | none => .ok []
    | some root => collectFailed trx base root
  else
    .ok ((trx.calls.filter (!·.stateReverted)).flatMap
      (fun call => emitCallAll call (base .tx call.index)))

def collectBlock (block : Block) : Except String (List Record) := do
  let system := (block.systemCalls.filter (!·.stateReverted)).flatMap
    (fun call => emitCallAll call { Ctx.block .systemCall with callIndex := call.index })
  let balances := (block.balanceChanges.filter (!balanceIsNoop ·)).map (.balance · (.block .block))
  let codes := (block.codeChanges.filter (!codeIsNoop ·)).map (.code · (.block .block))
  let transactions ← block.transactionTraces.mapM collectTransaction
  return system ++ balances ++ codes ++ transactions.flatten

end EvmState.Persist
