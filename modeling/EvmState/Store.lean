import EvmState.BlockProjection
import EvmState.Lib.Json

/-!
# Stored tables

The tables of a source database and of the checkpoint database. A table with
replacement holds at most one row a key, as a final read sees it. The replay
tables have no replacement and are plain lists of rows.
-/

set_option autoImplicit false

namespace EvmState.Store
open EvmState.OrderedMap EvmState.BlockProjection

def zero : String := "0x0000000000000000000000000000000000000000000000000000000000000000"

/-- Positions of changes in a source: block number, then ordinal. -/
abbrev Position := ℕ ×ₗ ℕ

abbrev Fields := SortedMap String (SortedMap String Json)

structure Header where
  number : ℕ
  hash : String
  parentHash : String
  stateRoot : String
  timestamp : ℕ
  deriving DecidableEq

/-- The manifest of a compacted generation, also the content of the pointer. -/
structure Prefix where
  formatVersion : ℕ
  status : String
  binding : Json
  generation : String
  startBlock : ℕ
  header : Header
  accounts : List String
  fields : Fields
  stateSha256 : String
  nonzeroSlots : ℕ
  deriving DecidableEq

structure BootstrapRow where
  generation : String
  address : String
  slot : String
  value : String
  deriving DecidableEq

structure GenerationRow where
  generation : String
  manifest : Prefix
  deriving DecidableEq

structure Marker where
  number : ℕ
  hash : String
  timestamp : ℕ
  deriving DecidableEq

abbrev stateBlockKey (b : BlockState) : ℕ ×ₗ String := toLex (b.number,b.hash)

abbrev markerKey (m : Marker) : ℕ ×ₗ String := toLex (m.number,m.hash)

structure SourceDb where
  stateBlocks : Table stateBlockKey
  markers : Table markerKey
  bootstrapStorage : List BootstrapRow
  bootstrapGenerations : List GenerationRow
  deriving DecidableEq

structure StorageRow where
  snapshotId : String
  address : String
  slot : String
  value : String
  deriving DecidableEq, Repr

structure AccountRow where
  snapshotId : String
  address : String
  «exists» : Bool
  nonce : ℕ
  balance : String
  codeHash : String
  code : String
  storageRoot : String
  nonzeroSlots : ℕ
  deriving DecidableEq, Repr

/-- A ready checkpoint, with the text of its manifest. -/
structure CheckpointRow where
  snapshotId : String
  blockNumber : ℕ
  blockHash : String
  createdAt : ℕ
  manifest : String
  deriving DecidableEq

abbrev storageKey (r : StorageRow) : String ×ₗ String ×ₗ String :=
  toLex (r.snapshotId,toLex (r.address,r.slot))

abbrev accountKey (r : AccountRow) : String ×ₗ String := toLex (r.snapshotId,r.address)

structure CheckpointDb where
  storage : Table storageKey
  accounts : Table accountKey
  checkpoints : Table CheckpointRow.snapshotId
  deriving DecidableEq

def CheckpointDb.empty : CheckpointDb := ⟨.empty,.empty,.empty⟩

/-- A verified source. `bootstrap` and `deltaStart` name its compacted
prefix, `parentHash` the base checkpoint that its first block continues. -/
structure Source where
  database : String
  accounts : List String
  startBlock : ℕ
  stateDirectory : String
  bootstrap : Option Prefix
  deltaStart : Option ℕ
  parentHash : Option String
  deriving DecidableEq

structure Base where
  snapshotId : String
  number : ℕ
  hash : String
  accounts : List String
  deriving DecidableEq

structure Target where
  number : ℕ
  hash : String
  stateRoot : String
  deriving DecidableEq

end EvmState.Store
