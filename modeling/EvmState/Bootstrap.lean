import EvmState.Interval
import EvmState.Lib.Crash
import EvmState.Lib.Text

/-!
# Compacted replay prefixes

A source may fold its early raw rows into a private generation: the nonzero
slots and the account fields up to a block, with a manifest and a pointer
file that names it. Compaction writes the generation and its manifest, then
renames the pointer, and only then drops raw partitions that end before the
block and the other generations.
-/

set_option autoImplicit false

namespace EvmState.Bootstrap
open EvmState.Hex EvmState.Fallible EvmState.OrderedMap EvmState.BlockProjection EvmState.Store
open EvmState.Queries EvmState.Encoding EvmState.Interval EvmState.Crash

/-- The hash, the JSON parser and the database's calendar functions. -/
structure Platform where
  sha256 : String → String
  fromSlice : Bytes → Option Json
  toDate : ℕ → ℕ
  toYYYYMM : ℕ → ℕ

def parseManifest (fromSlice : Bytes → Option Json) (r : CheckpointRow) : Except String Json :=
  context (fromSlice (Text.utf8 r.manifest)) "expected value"

structure BlockRef where
  number : ℕ
  hash : String
  deriving DecidableEq, Repr

structure Run where
  binding : Json
  database : String
  startBlock : ℕ
  accounts : List String
  stateDirectory : String
  deriving DecidableEq

/-- A source database with the local files of its run and the checkpoints
that its run serves. -/
structure SourceWorld where
  run : Run
  db : SourceDb
  pointer : Option Prefix
  cursor : Option BlockRef
  progress : Option BlockRef
  checkpoints : CheckpointDb
  deriving DecidableEq

def objectId (id : String) : Except String Unit :=
  ensure (id.length = 32 ∧ id.toList.all (fun c => IsLowerDigit c))
    "expected a 32-character checkpoint or pin ID"

def one {α : Type} (rows : List α) : Except String α :=
  match rows with
  | [] => .error "expected one result row, got none"
  | [row] => .ok row
  | _ => .error "expected one result row, got multiple"

theorem one_ok {α : Type} {rows : List α} {row : α} : one rows = .ok row ↔ rows = [row] := by
  rcases rows with _ | ⟨a,_ | ⟨b,l⟩⟩ <;> simp [one]

section Digest
variable (platform : Platform)

structure Measured where
  stateSha256 : String
  nonzeroSlots : ℕ
  deriving DecidableEq

def rowKey (r : BootstrapRow) : String ×ₗ String := toLex (r.address,r.slot)

def generationRows (db : SourceDb) (generation : String) : List BootstrapRow :=
  db.bootstrapStorage.filter (fun r => r.generation = generation)

def fieldsJson (fields : Fields) : Json :=
  .obj (fields.entries.map (fun e => (e.1,Json.ofMap e.2)))

structure Digesting where
  text : String
  previous : Option (String ×ₗ String)
  count : ℕ

def digestRow (accounts : List String) (s : Digesting) (r : BootstrapRow) :
    Except String Digesting := do
  ensure (r.address ∈ accounts ∧ s.previous.all (· < rowKey r))
    "bootstrap storage has unexpected accounts or duplicate keys"
  let _ ← fixed 32 r.slot
  let value ← fixed 32 r.value
  ensure (value.any (· ≠ 0)) "bootstrap contains a noncanonical zero slot"
  return ⟨s.text ++ r.address ++ r.slot ++ r.value,some (rowKey r),s.count+1⟩

def digest (rows : List BootstrapRow) (generation : String) (fields : Fields)
    (accounts : List String) : Except String Measured := do
  ensure (fields.keys.all (· ∈ accounts)) "bootstrap has account fields outside its filter"
  objectId generation
  let s ← (rows.insertionSort (fun a b => rowKey a ≤ rowKey b)).foldlM (digestRow accounts)
    ⟨(fieldsJson fields).canonicalJson,none,0⟩
  return ⟨platform.sha256 s.text,s.count⟩

/-- The prefix that the pointer file names, checked against the run, the
stored manifest and the stored rows. -/
def loadPrefix (w : SourceWorld) : Except String (Option Prefix) :=
  match w.pointer with
  | none => .ok none
  | some value => do
    ensure (value.formatVersion = 1 ∧ value.status = "unverified-bootstrap" ∧
        value.binding = w.run.binding ∧ value.startBlock = w.run.startBlock ∧
        value.accounts = w.run.accounts)
      "bootstrap prefix belongs to another source or is corrupt"
    objectId value.generation
    let stored ← one (w.db.bootstrapGenerations.filter (fun g => g.generation = value.generation))
    ensure (stored.manifest = value) "bootstrap pointer and stored manifest differ"
    ensure (value.startBlock ≤ value.header.number) "bootstrap prefix range is invalid"
    let measured ← digest platform (generationRows w.db value.generation) value.generation
      value.fields value.accounts
    ensure (measured = ⟨value.stateSha256,value.nonzeroSlots⟩)
      "bootstrap generation checksum or count differs"
    return some value

def selectPrefix (w : SourceWorld) (source : Source) : Except String Source := do
  let source := { source with bootstrap := none, deltaStart := none }
  let loaded ← loadPrefix platform w
  match loaded with
  | none => return source
  | some p =>
    if source.startBlock ≤ p.header.number then do
      ensure (source.startBlock = p.startBlock)
        "requested range begins inside a compacted bootstrap prefix"
      return { source with bootstrap := some p, deltaStart := some (p.header.number+1) }
    else return source

end Digest

/-- A text without its leading hexadecimal prefixes. -/
def trimHex : List Char → List Char
  | '0' :: 'x' :: l => trimHex l
  | l => l

/-- The position of a cursor is accepted when the database has its complete
block. -/
def validate (w : SourceWorld) (position : BlockRef) : Except String Unit := do
  ensure (w.run.startBlock ≤ position.number) "native cursor precedes its run's start"
  let rows := w.db.stateBlocks.rows.filter (fun b => b.number = position.number)
  let markers := w.db.markers.rows.filter (fun m => m.number = position.number)
  let sound := rows.all (fun b => b.hash = position.hash &&
    b.accounts = joinAccounts w.run.accounts && b.schemaVersion = 1 && 3 ≤ b.producerVersion &&
    b.producerVersion ≤ 5)
  let marked := markers.all (fun m => "0x" ++ String.ofList (trimHex m.hash.toList) = position.hash)
  ensure (rows.length = 1 ∧ sound ∧ markers.length = 1 ∧ marked)
    "native cursor does not match its complete block data and marker"

def loadProgress (w : SourceWorld) : Except String BlockRef := do
  let position ← context w.progress "durable progress is missing; restore matching run metadata"
  validate w position
  return position

/-- Durable progress moves to the native cursor, never back. -/
def saveProgress (w : SourceWorld) : Except String BlockRef := do
  let position ← context w.cursor "invalid cursor length"
  validate w position
  match w.progress with
  | none => return position
  | some _ => do
    let previous ← loadProgress w
    ensure (previous.number ≤ position.number) "native cursor regressed behind durable progress"
    return position

def progress (w : SourceWorld) : Except String BlockRef := do
  let position ← loadProgress w
  ensure (w.cursor = some position)
    "native cursor differs from durable progress; recover or finish the run before cleanup"
  return position

/-- The partitions whose last block is before the bound, in order. -/
def partitionsBefore {ρ : Type} (rows : List ρ) (partition number : ρ → ℕ) (before : ℕ) : List ℕ :=
  ((rows.map partition).eraseDups).filter (fun id =>
    rows.all (fun r => partition r ≠ id || number r < before))

section Compaction
variable (platform : Platform)

def stateBlocksPartition (b : BlockState) : ℕ := platform.toDate b.timestamp

def markersPartition (m : Marker) : ℕ := platform.toYYYYMM m.timestamp

def dropStateBlocks (id : ℕ) (w : SourceWorld) : SourceWorld :=
  { w with db := { w.db with
      stateBlocks := w.db.stateBlocks.select (fun b => stateBlocksPartition platform b ≠ id) } }

def dropMarkers (id : ℕ) (w : SourceWorld) : SourceWorld :=
  { w with db := { w.db with
      markers := w.db.markers.select (fun m => markersPartition platform m ≠ id) } }

def dropManifest (generation : String) (w : SourceWorld) : SourceWorld :=
  { w with db := { w.db with bootstrapGenerations :=
      w.db.bootstrapGenerations.filter (fun g => g.generation ≠ generation) } }

def dropStorage (generation : String) (w : SourceWorld) : SourceWorld :=
  { w with db := { w.db with bootstrapStorage :=
      w.db.bootstrapStorage.filter (fun r => r.generation ≠ generation) } }

def oldGenerations {ρ : Type} (rows : List ρ) (generation : ρ → String) (keep : String) :
    List String := ((rows.map generation).eraseDups).filter (· ≠ keep)

def dropOldGenerations (keep : String) : Prog SourceWorld Unit := do
  let old ← query (fun w => .ok (oldGenerations w.db.bootstrapGenerations (·.generation) keep))
  old.forM (fun g => do
    check (objectId g)
    perform (dropManifest g))
  let old ← query (fun w => .ok (oldGenerations w.db.bootstrapStorage (·.generation) keep))
  old.forM (fun g => do
    check (objectId g)
    perform (dropStorage g))

def cleanup (p : Prefix) : Prog SourceWorld Unit := do
  let plan ← query (fun w => .ok
    (partitionsBefore w.db.stateBlocks.rows (stateBlocksPartition platform) (·.number) p.header.number,
      partitionsBefore w.db.markers.rows (markersPartition platform) (·.number) p.header.number))
  plan.1.forM (fun id => perform (dropStateBlocks platform id))
  plan.2.forM (fun id => perform (dropMarkers platform id))
  dropOldGenerations p.generation

def requireInitial (w : SourceWorld) : Except String Unit := do
  let accounts ← accountSet w.run.accounts
  w.checkpoints.checkpoints.rows.forM (fun row => do
    let manifest ← parseManifest platform.fromSlice row
    let selected ← canonicalAccounts (manifest.index "accounts")
    ensure (selected.all (· ∉ accounts))
      "accounts already have a checkpoint; use checkpoint continuation and source retention")

def headerAt (number : ℕ) (w : SourceWorld) : Except String Header := do
  let row ← one (w.db.stateBlocks.rows.filter (fun b => b.number = number))
  return ⟨row.number,row.hash,row.parentHash,row.stateRoot,row.timestamp⟩

def runSource (run : Run) : Source where
  database := run.database
  accounts := run.accounts
  startBlock := run.startBlock
  stateDirectory := run.stateDirectory
  bootstrap := none
  deltaStart := none
  parentHash := none

def candidateRows (w : SourceWorld) (source : Source) (generation : String) (last : ℕ) :
    Except String (List BootstrapRow) := do
  let union ← unionStorage (fun _ => w.db) w.checkpoints [source] none last
  return (finalStorage union).entries.map
    (fun e => ⟨generation,(ofLex e.1).1,(ofLex e.1).2,e.2⟩)

def insertStorage (rows : List BootstrapRow) (w : SourceWorld) : SourceWorld :=
  { w with db := { w.db with bootstrapStorage := w.db.bootstrapStorage++rows } }

def insertManifest (row : GenerationRow) (w : SourceWorld) : SourceWorld :=
  { w with db := { w.db with bootstrapGenerations := w.db.bootstrapGenerations++[row] } }

def renamePointer (record : Prefix) (w : SourceWorld) : SourceWorld := { w with pointer := some record }

def recordOf (run : Run) (generation : String) (header : Header) (fields : Fields)
    (measured : Measured) : Prefix where
  formatVersion := 1
  status := "unverified-bootstrap"
  binding := run.binding
  generation := generation
  startBlock := run.startBlock
  header := header
  accounts := run.accounts
  fields := fields
  stateSha256 := measured.stateSha256
  nonzeroSlots := measured.nonzeroSlots

/-- A new generation for the range up to `header`, committed by the pointer,
and then the cleanup that the committed pointer allows. -/
def compactTo (generation : String) (source : Source) (header : Header) :
    Prog SourceWorld Prefix := do
  next
  dropOldGenerations ((source.bootstrap.map (·.generation)).getD "")
  next
  let rows ← query (fun w => candidateRows w source generation header.number)
  perform (insertStorage rows)
  let fields ← query (fun w => observedFields (fun _ => w.db) w.checkpoints [source] none
    header.number)
  let measured ← query (fun w => digest platform (generationRows w.db generation) generation fields
    w.run.accounts)
  next
  let run ← query (fun w => .ok w.run)
  let record := recordOf run generation header fields measured
  perform (insertManifest ⟨generation,record⟩)
  next
  perform (renamePointer record)
  let loaded ← query (loadPrefix platform)
  let _ ← check (context loaded "bootstrap pointer disappeared")
  cleanup platform record
  let _ ← query progress
  return record

/-- The run up to the choice of what to do. -/
def prepare (endBlock : Option ℕ) : Prog SourceWorld (Source × Header) := do
  next
  query (requireInitial platform)
  let run ← query (fun w => .ok w.run)
  let tip ← query progress
  let last := endBlock.getD tip.number
  check (ensure (run.startBlock ≤ last ∧ last ≤ tip.number)
    "bootstrap end must be within durable native progress")
  let header ← query (headerAt last)
  let source ← query (fun w => selectPrefix platform w (runSource w.run))
  let _ ← query (fun w => validateInterval w.db source ⟨header.number,header.hash,header.stateRoot⟩)
  return (source,header)

def compactLocked (generation : String) (endBlock : Option ℕ) : Prog SourceWorld Prefix := do
  let (source,header) ← prepare platform endBlock
  match source.bootstrap.filter (fun p => p.header.number = header.number) with
  | some previous => do
    cleanup platform previous
    let _ ← query progress
    return previous
  | none => compactTo platform generation source header

end Compaction
end EvmState.Bootstrap
