import EvmState.Collect
import EvmState.Lifecycle

/-!
# The native block projection

One row is a whole block: the last value of every changed key in the block,
and the lifecycle effects. A deletion at transaction end removes the earlier
storage values of the account and supplies zero fields unless a later
transaction supplies newer ones.
-/

set_option autoImplicit false

namespace EvmState.BlockProjection
open EvmState.Hex EvmState.Fallible EvmState.OrderedMap EvmState.Params EvmState.Lifecycle

def emptyCodeHash : String := "0xc5d2460186f7233c927e7db2dcc703c0e500b653ca82273b7bfad8045d85a470"

structure StorageValue where
  address : String
  slot : String
  value : String
  ordinal : ℕ
  deriving DecidableEq, Repr

structure BalanceValue where
  address : String
  value : String
  ordinal : ℕ
  deriving DecidableEq, Repr

structure NonceValue where
  address : String
  value : ℕ
  ordinal : ℕ
  deriving DecidableEq, Repr

structure CodeValue where
  address : String
  hash : String
  code : String
  ordinal : ℕ
  deriving DecidableEq, Repr

/-- Lifecycle kinds in the order of their texts. -/
inductive LifecycleKind where
  | codeCleared
  | nonceReset
  | selfdestruct
  | storageReset
  deriving DecidableEq, Repr

def LifecycleKind.text : LifecycleKind → String
  | .codeCleared => "code_cleared"
  | .nonceReset => "nonce_reset"
  | .selfdestruct => "selfdestruct"
  | .storageReset => "storage_reset"

theorem kind_text_injective : Function.Injective LifecycleKind.text := by
  intro a b h
  cases a <;> cases b <;> first | rfl | exact absurd h (by decide)

instance : LinearOrder LifecycleKind := LinearOrder.lift' LifecycleKind.text kind_text_injective

structure LifecycleEffect where
  address : String
  kind : LifecycleKind
  ordinal : ℕ
  deriving DecidableEq, Repr

structure BlockState where
  number : ℕ
  hash : String
  parentHash : String
  timestamp : ℕ
  stateRoot : String
  producerVersion : ℤ
  accounts : String
  schemaVersion : ℕ
  storage : List StorageValue
  balances : List BalanceValue
  nonces : List NonceValue
  codes : List CodeValue
  lifecycle : List LifecycleEffect
  deriving DecidableEq, Repr

def word (bytes : Bytes) : Except String String := do
  ensure (bytes.length ≤ 32) "storage word exceeds 32 bytes"
  return "0x" ++ String.ofList ((encodeChars bytes).leftpad 64 '0')

abbrev SlotKey := String ×ₗ String
abbrev EffectKey := String ×ₗ ℕ ×ₗ LifecycleKind

def StorageValue.key (v : StorageValue) : SlotKey := toLex (v.address,v.slot)

def LifecycleEffect.key (e : LifecycleEffect) : EffectKey := toLex (e.address,toLex (e.ordinal,e.kind))

structure Collected where
  storage : SortedMap SlotKey StorageValue
  balances : SortedMap String BalanceValue
  nonces : SortedMap String NonceValue
  codes : SortedMap String CodeValue
  lifecycle : SortedMap EffectKey LifecycleEffect

def storageEntry (c : Collect.StorageChange) : Except String (SlotKey × StorageValue) := do
  let slot ← word c.key
  let value ← word c.newValue
  return (toLex (hex c.address,slot),⟨hex c.address,slot,value,c.origin.ordinal⟩)

def balanceEntry (c : Collect.BalanceChange) : String × BalanceValue :=
  (hex c.address,⟨hex c.address,c.newValue,c.origin.ordinal⟩)

def nonceEntry (c : Collect.NonceChange) : String × NonceValue :=
  (hex c.address,⟨hex c.address,c.newValue,c.origin.ordinal⟩)

def codeEntry (c : Collect.CodeChange) : Except String (String × CodeValue) := do
  ensure (c.newHash.length = 32 ∨ c.newHash.isEmpty ∧ c.newCode.isEmpty) "invalid code hash"
  return (hex c.address,⟨hex c.address,
    if c.newHash.isEmpty then emptyCodeHash else hex c.newHash,hex c.newCode,c.origin.ordinal⟩)

def nonceEffect (c : Collect.NonceChange) : Option LifecycleEffect :=
  if c.newValue < c.oldValue then some ⟨hex c.address,.nonceReset,c.origin.ordinal⟩ else none

def codeEffect (c : Collect.CodeChange) : Option LifecycleEffect :=
  if c.newCode.isEmpty then some ⟨hex c.address,.codeCleared,c.origin.ordinal⟩ else none

def selfdestructEffect (filter : Filter) (tx : Eth.TransactionTrace) (call : Eth.Call) :
    Except String (Option LifecycleEffect) := do
  let account ← executionAddress call tx.calls
  return if filter.matchesAccount account then some ⟨hex account,.selfdestruct,call.endOrdinal⟩
    else none

def transactionEffects (filter : Filter) (tx : Eth.TransactionTrace) :
    Except String (List LifecycleEffect) :=
  if tx.status = .succeeded then do
    let effects ← (selfdestructs tx).mapM (selfdestructEffect filter tx)
    return effects.reduceOption
  else .ok []

def addEffects (m : SortedMap EffectKey LifecycleEffect) (l : List LifecycleEffect) :
    SortedMap EffectKey LifecycleEffect := m.insertAll (l.map (fun e => (e.key,e)))

/-- The reset of a deleted account: earlier slots go, and each field becomes
zero unless the map has a later value. -/
def applyDeletion (s : Collected) (entry : Bytes × ℕ) : Collected :=
  let address := hex entry.1
  let ordinal := entry.2
  { lifecycle := addEffects s.lifecycle [⟨address,.storageReset,ordinal⟩]
    storage := s.storage.retain (fun k v => (ofLex k).1 ≠ address || ordinal < v.ordinal)
    balances := s.balances.keepGreatest (·.ordinal) address ⟨address,"0",ordinal⟩
    nonces := s.nonces.keepGreatest (·.ordinal) address ⟨address,0,ordinal⟩
    codes := s.codes.keepGreatest (·.ordinal) address ⟨address,emptyCodeHash,"0x",ordinal⟩ }

/-- The loops over the collected changes and the two lifecycle loops. -/
def collapse (filter : Filter) (block : Eth.Block) (seconds : ℕ) (changes : Collect.StateChanges) :
    Except String Collected := do
  let storage ← changes.storageChanges.mapM storageEntry
  let codes ← changes.codeChanges.mapM codeEntry
  let destructed ← block.transactionTraces.mapM (transactionEffects filter)
  let deleted ← deletions block seconds
  let s : Collected := {
    storage := SortedMap.empty.insertAll storage
    balances := SortedMap.empty.insertAll (changes.balanceChanges.map balanceEntry)
    nonces := SortedMap.empty.insertAll (changes.nonceChanges.map nonceEntry)
    codes := SortedMap.empty.insertAll codes
    lifecycle := addEffects SortedMap.empty (changes.nonceChanges.filterMap nonceEffect ++
      changes.codeChanges.filterMap codeEffect ++ destructed.flatten) }
  return (deleted.entries.filter (fun e => filter.matchesAccount e.1)).foldl applyDeletion s

def checkBlock (filter : Filter) (block : Eth.Block) :
    Except String (Eth.BlockHeader × Eth.Timestamp) := do
  ensure (filter.isEmpty = false) "map_block_state requires explicit selected accounts"
  ensure (block.detailLevel = Eth.detaillevelExtended) "account state requires Extended blocks"
  ensure (3 ≤ block.ver ∧ block.ver ≤ 5) "unsupported producer version (supported: 3..5)"
  let header ← context block.header "missing block header"
  ensure (block.hash.length = 32 ∧ header.parentHash.length = 32 ∧ header.stateRoot.length = 32)
    "missing or invalid block hash, parent hash or state root"
  ensure (header.number = block.number) "header/block number mismatch"
  let timestamp ← context header.timestamp "missing block timestamp"
  ensure (0 ≤ timestamp.seconds ∧ 0 ≤ timestamp.nanos ∧ timestamp.nanos < 1000000000)
    "invalid block timestamp"
  block.transactionTraces.forM (fun tx => do
    ensure (1 ≤ tx.statusCode ∧ tx.statusCode ≤ 3) "unknown transaction persistence status"
    ensure (tx.calls ≠ []) "Extended transaction missing calls")
  return (header,timestamp)

def project (params : String) (block : Eth.Block) : Except String BlockState := do
  let filter ← Filter.parse params
  let (header,timestamp) ← checkBlock filter block
  let changes ← Collect.collect params block
  let s ← collapse filter block (Collect.asU64 timestamp.seconds) changes
  return {
    number := block.number
    hash := hex block.hash
    parentHash := hex header.parentHash
    timestamp := Collect.asU64 timestamp.seconds
    stateRoot := hex header.stateRoot
    producerVersion := block.ver
    accounts := filter.canonical
    schemaVersion := 1
    storage := s.storage.values
    balances := s.balances.values
    nonces := s.nonces.values
    codes := s.codes.values
    lifecycle := s.lifecycle.values }

end EvmState.BlockProjection
