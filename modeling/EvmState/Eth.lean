import EvmState.Lib.Hex

/-!
# The Extended block of the chain producer

The part of the producer's block that the state mapper reads. Enumerations
arrive as protobuf integers; an unknown integer decodes to the zero member,
as the generated accessors do.
-/

set_option autoImplicit false

namespace EvmState.Eth
open EvmState.Hex

inductive TransactionTraceStatus where
  | unknown
  | succeeded
  | failed
  | reverted
  deriving DecidableEq, Repr

def TransactionTraceStatus.ofCode (n : ℤ) : TransactionTraceStatus :=
  if n = 1 then .succeeded else if n = 2 then .failed else if n = 3 then .reverted else .unknown

def TransactionTraceStatus.code : TransactionTraceStatus → ℤ
  | .unknown => 0
  | .succeeded => 1
  | .failed => 2
  | .reverted => 3

/-- Call types that decide the execution context; the others are `other`. -/
inductive CallType where
  | other
  | callcode
  | delegate
  | create
  deriving DecidableEq, Repr

def CallType.ofCode (n : ℤ) : CallType :=
  if n = 2 then .callcode else if n = 3 then .delegate else if n = 5 then .create else .other

/-- Balance change reasons that persist on failure; the others are `other`. -/
inductive Reason where
  | other
  | gasBuy
  | rewardTransactionFee
  | gasRefund
  deriving DecidableEq, Repr

def Reason.ofCode (n : ℤ) : Reason :=
  if n = 7 then .gasBuy else if n = 8 then .rewardTransactionFee
  else if n = 9 then .gasRefund else .other

inductive TxType where
  | other
  | trxTypeSetCode
  deriving DecidableEq, Repr

def TxType.ofCode (n : ℤ) : TxType := if n = 4 then .trxTypeSetCode else .other

structure StorageChange where
  address : Bytes
  key : Bytes
  oldValue : Bytes
  newValue : Bytes
  ordinal : ℕ
  deriving DecidableEq, Repr

structure BalanceChange where
  address : Bytes
  oldValue : Option Bytes
  newValue : Option Bytes
  reasonCode : ℤ
  ordinal : ℕ
  deriving DecidableEq, Repr

def BalanceChange.reason (c : BalanceChange) : Reason := .ofCode c.reasonCode

structure NonceChange where
  address : Bytes
  oldValue : ℕ
  newValue : ℕ
  ordinal : ℕ
  deriving DecidableEq, Repr

structure CodeChange where
  address : Bytes
  oldHash : Bytes
  newHash : Bytes
  newCode : Bytes
  ordinal : ℕ
  deriving DecidableEq, Repr

structure Call where
  index : ℕ
  parentIndex : ℕ
  callTypeCode : ℤ
  address : Bytes
  stateReverted : Bool
  suicide : Bool
  beginOrdinal : ℕ
  endOrdinal : ℕ
  storageChanges : List StorageChange
  balanceChanges : List BalanceChange
  nonceChanges : List NonceChange
  codeChanges : List CodeChange
  deriving DecidableEq, Repr

def Call.callType (c : Call) : CallType := .ofCode c.callTypeCode

structure SetCodeAuthorization where
  discarded : Bool
  authority : Option Bytes
  address : Bytes
  nonce : ℕ
  deriving DecidableEq, Repr

structure TransactionTrace where
  hash : Bytes
  index : ℕ
  statusCode : ℤ
  typeCode : ℤ
  fromAddress : Bytes
  nonce : ℕ
  endOrdinal : ℕ
  calls : List Call
  setCodeAuthorizations : List SetCodeAuthorization
  deriving DecidableEq, Repr

def TransactionTrace.status (t : TransactionTrace) : TransactionTraceStatus := .ofCode t.statusCode

def TransactionTrace.type (t : TransactionTrace) : TxType := .ofCode t.typeCode

structure Timestamp where
  seconds : ℤ
  nanos : ℤ
  deriving DecidableEq, Repr

structure BlockHeader where
  number : ℕ
  parentHash : Bytes
  stateRoot : Bytes
  coinbase : Bytes
  timestamp : Option Timestamp
  deriving DecidableEq, Repr

structure Block where
  ver : ℤ
  hash : Bytes
  number : ℕ
  detailLevel : ℤ
  header : Option BlockHeader
  transactionTraces : List TransactionTrace
  systemCalls : List Call
  balanceChanges : List BalanceChange
  codeChanges : List CodeChange
  deriving DecidableEq, Repr

def detaillevelExtended : ℤ := 0

end EvmState.Eth
