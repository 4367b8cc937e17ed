import EvmState.Collect
import EvmState.Lifecycle
import EvmState.Lib.Upsert

/-!
# The PostgreSQL sink

The collected changes of a block as upserts: one row for the block, one row
for each change in the event tables, and the last change by ordinal of each
key in the tables of current state. Hash maps are walked in an order that
the program does not choose.
-/

set_option autoImplicit false

namespace EvmState.DbOut
open EvmState.Hex EvmState.OrderedMap EvmState.Params EvmState.Upsert

inductive Table where
  | blocks
  | storageChanges
  | balanceChanges
  | nonceChanges
  | codeChanges
  | setCodeAuthorizations
  | storage
  | code
  | accounts
  deriving DecidableEq, Repr

/-- The columns of a primary key with their values. -/
abbrev Key := List (String ×ₗ String)

def key (columns : List (String × String)) : Key := columns.map toLex

abbrev DatabaseChanges := Table → Rows Key String
abbrev Database := Table → Stored Key String

def bytea (b : Bytes) : String := "\\x" ++ encode b

def word (b : Bytes) : String :=
  "0x" ++ String.join (List.replicate (32-b.length) "00") ++ encode b

def scopeName : Persist.Scope → String
  | .tx => "tx"
  | .txFailedPersistent => "tx_failed_persistent"
  | .tx7702 => "tx_7702"
  | .systemCall => "system_call"
  | .block => "block"
  | .unspecified => "unspecified"

def set (column value : String) : String × Write String := (column,.set value)

def setOrigin (o : Collect.Origin) : List (String × Write String) :=
  [set "scope" (scopeName o.scope),
    set "tx_hash" (if o.txHash.isEmpty then "" else hex o.txHash),
    set "tx_index" (toString o.txIndex),
    set "tx_status" (toString o.txStatus),
    set "call_index" (toString o.callIndex)]

def blockColumns (ch : Collect.StateChanges) : List (String × Write String) :=
  [set "block_hash" (hex ch.block.hash),
    set "parent_hash" (hex ch.block.parentHash),
    set "timestamp" (toString ch.block.timestamp),
    set "state_root" (hex ch.block.stateRoot),
    set "coinbase" (hex ch.block.coinbase),
    set "transaction_count" (toString ch.block.transactionCount),
    set "storage_changes" (toString ch.storageChanges.length),
    set "balance_changes" (toString ch.balanceChanges.length),
    set "nonce_changes" (toString ch.nonceChanges.length),
    set "code_changes" (toString ch.codeChanges.length)]

section Events
variable (block : Collect.BlockInfo)

def eventKey (o : Collect.Origin) : Key :=
  key [("block_num",toString block.number),("ordinal",toString o.ordinal)]

def eventBlock : List (String × Write String) :=
  [set "block_hash" (hex block.hash), set "timestamp" (toString block.timestamp)]

def storageColumns (c : Collect.StorageChange) : List (String × Write String) :=
  [set "address" (hex c.address), set "slot" (word c.key), set "old_value" (word c.oldValue),
    set "new_value" (word c.newValue)] ++ eventBlock block ++ setOrigin c.origin

def balanceColumns (c : Collect.BalanceChange) : List (String × Write String) :=
  [set "address" (hex c.address), set "old_value" c.oldValue, set "new_value" c.newValue,
    set "reason" (toString c.reason)] ++ eventBlock block ++ setOrigin c.origin

def nonceColumns (c : Collect.NonceChange) : List (String × Write String) :=
  [set "address" (hex c.address), set "old_value" (toString c.oldValue),
    set "new_value" (toString c.newValue)] ++ eventBlock block ++ setOrigin c.origin

def codeColumns (c : Collect.CodeChange) : List (String × Write String) :=
  [set "address" (hex c.address), set "old_hash" (hex c.oldHash), set "new_hash" (hex c.newHash)] ++
    eventBlock block ++ setOrigin c.origin

def authorizationKey (a : Collect.SetCodeAuthorization) : Key :=
  key [("block_num",toString block.number),("tx_hash",hex a.txHash),("auth_index",toString a.index)]

def authorizationColumns (a : Collect.SetCodeAuthorization) : List (String × Write String) :=
  eventBlock block ++
  [set "tx_index" (toString a.txIndex), set "tx_status" (toString a.txStatus),
    set "authority" (hex a.authority), set "delegate" (hex a.delegate),
    set "nonce" (toString a.nonce), set "discarded" (toString a.discarded)]

end Events

/-- The later of two values: the new one unless the old one has a greater ordinal. -/
def later {α : Type} (old : Option (ℕ × α)) (ordinal : ℕ) (value : α) : Option (ℕ × α) :=
  if old.all (fun e => e.1 ≤ ordinal) then some (ordinal,value) else old

abbrev StorageItem := (Bytes ×ₗ Bytes) × (ℕ × Bytes)

/-- Keyed by the bytes as they were delivered. -/
def storeLast (m : SortedMap (Bytes ×ₗ Bytes) (ℕ × Bytes)) (c : Collect.StorageChange) :
    SortedMap (Bytes ×ₗ Bytes) (ℕ × Bytes) :=
  let k := toLex (c.address,c.key)
  (later (m.get? k) c.origin.ordinal c.newValue).elim m (m.insert k)

def lastStorage (ch : Collect.StateChanges) : SortedMap (Bytes ×ₗ Bytes) (ℕ × Bytes) :=
  ch.storageChanges.foldl storeLast .empty

structure Acc where
  balance : Option (ℕ × String)
  nonce : Option (ℕ × ℕ)
  code : Option (ℕ × Bytes)
  deriving DecidableEq, Repr

def Acc.default : Acc := ⟨none,none,none⟩

abbrev AccountItem := Bytes × Acc

def accountAt (m : SortedMap Bytes Acc) (a : Bytes) : Acc := (m.get? a).getD .default

def balanceLast (m : SortedMap Bytes Acc) (c : Collect.BalanceChange) : SortedMap Bytes Acc :=
  let a := accountAt m c.address
  m.insert c.address { a with balance := later a.balance c.origin.ordinal c.newValue }

def nonceLast (m : SortedMap Bytes Acc) (c : Collect.NonceChange) : SortedMap Bytes Acc :=
  let a := accountAt m c.address
  m.insert c.address { a with nonce := later a.nonce c.origin.ordinal c.newValue }

def codeLast (m : SortedMap Bytes Acc) (c : Collect.CodeChange) : SortedMap Bytes Acc :=
  let a := accountAt m c.address
  m.insert c.address { a with code := later a.code c.origin.ordinal c.newHash }

def lastAccounts (ch : Collect.StateChanges) : SortedMap Bytes Acc :=
  ch.codeChanges.foldl codeLast (ch.nonceChanges.foldl nonceLast
    (ch.balanceChanges.foldl balanceLast .empty))

def storageKey (address slot : Bytes) : Key := key [("address",hex address),("slot",word slot)]

def storageStatement (number : ℕ) (e : StorageItem) : Statement Key String where
  key := storageKey (ofLex e.1).1 (ofLex e.1).2
  sets := [set "value" (word e.2.2), set "block_num" (toString number), set "ordinal" (toString e.2.1)]

def accountKey (address : Bytes) : Key := key [("address",hex address)]

def fieldColumns {α : Type} (column : String) (number : ℕ) (text : α → String)
    (field : Option (ℕ × α)) : List (String × Write String) :=
  field.elim [] (fun v => [set column (text v.2), set (column ++ "_block_num") (toString number)])

def accountStatement (number : ℕ) (e : AccountItem) : Statement Key String where
  key := accountKey e.1
  sets := set "block_num" (toString number) ::
    (fieldColumns "balance" number id e.2.balance ++ fieldColumns "nonce" number toString e.2.nonce ++
      e.2.code.elim [] (fun v => [set "code_hash" (hex v.2), set "code_block_num" (toString number)]))

def codeKey (hash : Bytes) : Key := key [("code_hash",hash |> hex)]

/-- Bytecode is deduplicated by its hash; empty bytecode has no row. -/
def codeStatement (number : ℕ) (c : Collect.CodeChange) : Option (Statement Key String) :=
  if c.newCode.isEmpty then none
  else some ⟨codeKey c.newHash,[set "code" (bytea c.newCode),
    set "size" (toString c.newCode.length),("first_block_num",.setIfNull (toString number))]⟩

/-- The orders in which one call walks its two hash maps. -/
structure HashOrder where
  storage : List StorageItem → List StorageItem
  accounts : List AccountItem → List AccountItem
  storage_perm : ∀ l, (storage l).Perm l
  accounts_perm : ∀ l, (accounts l).Perm l

def statements (order : HashOrder) (ch : Collect.StateChanges) : Table → List (Statement Key String)
  | .blocks => [⟨key [("block_num",toString ch.block.number)],blockColumns ch⟩]
  | .storageChanges => ch.storageChanges.map
      (fun c => ⟨eventKey ch.block c.origin,storageColumns ch.block c⟩)
  | .balanceChanges => ch.balanceChanges.map
      (fun c => ⟨eventKey ch.block c.origin,balanceColumns ch.block c⟩)
  | .nonceChanges => ch.nonceChanges.map
      (fun c => ⟨eventKey ch.block c.origin,nonceColumns ch.block c⟩)
  | .codeChanges => ch.codeChanges.map
      (fun c => ⟨eventKey ch.block c.origin,codeColumns ch.block c⟩)
  | .setCodeAuthorizations => ch.setCodeAuthorizations.map
      (fun a => ⟨authorizationKey ch.block a,authorizationColumns ch.block a⟩)
  | .storage => (order.storage (lastStorage ch).entries).map (storageStatement ch.block.number)
  | .code => ch.codeChanges.filterMap (codeStatement ch.block.number)
  | .accounts => (order.accounts (lastAccounts ch).entries).map (accountStatement ch.block.number)

def project (order : HashOrder) (ch : Collect.StateChanges) : DatabaseChanges :=
  fun table => gather (statements order ch table)

def dbOut (order : HashOrder) (params : String) (block : Eth.Block) :
    Except String DatabaseChanges := do
  let changes ← Collect.collect params block
  return project order changes

/-- The database after the changes of some blocks. -/
def load (d : Database) (ts : List DatabaseChanges) : Database :=
  fun table => run (d table) (ts.map (· table))

def Database.empty : Database := fun _ => .empty

end EvmState.DbOut
