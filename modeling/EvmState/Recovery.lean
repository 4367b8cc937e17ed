import EvmState.Control
import EvmState.Cursor
import EvmState.Paths
import EvmState.PrettyJson

/-!
# Recovery of a renamed host

A run and its checkpoint controller name the host that made them. When the
host was renamed, its operator confirms the machine, and each of the two
directories gets a sidecar that ties its record to the machine. Everything
that the two sides hold is checked before the first sidecar is written.
-/

set_option autoImplicit false

namespace EvmState.Recovery
open EvmState.Hex EvmState.Text EvmState.Fallible EvmState.Crash EvmState.FileTree
open EvmState.Encoding (string uint)
open EvmState.Bootstrap (one objectId digestRow rowKey Digesting trimHex)
open EvmState.Json (canonicalJson)
open EvmState.PrettyJson (metadataText)

/-- The libraries, and the links between the directories. -/
structure System where
  sha256 : Bytes → String
  fromSlice : Bytes → Option Json
  cipher : Cursor.Cipher
  tree : Tree
  currentDir : List Part

structure Client where
  database : String
  url : String
  controlHome : Target

structure RunRow where
  runId : String
  identity : String

structure ControlRow where
  controlId : String
  binding : String

structure StateBlock where
  number : ℕ
  hash : String
  accounts : String
  schemaVersion : ℕ
  producerVersion : ℕ

structure Marker where
  number : ℕ
  hash : String

structure Generation where
  generation : String
  manifest : String

/-- The tables of one database, with the rows that a final query sees. -/
structure Tables where
  run : List RunRow
  control : List ControlRow
  stateBlocks : List StateBlock
  markers : List Marker
  generations : List Generation
  storage : List Store.BootstrapRow

/-- The contents of the files by their places, and the databases by their
names. -/
structure World where
  files : Place → Option Bytes
  databases : List (String × String)
  tables : String → Tables

def World.put (w : World) (place : Place) (bytes : Bytes) : World :=
  { w with files := Function.update w.files place (some bytes) }

structure Computer where
  system : String
  value : String

/-- The persistent identifier as the system gives it, in one spelling. -/
def Computer.normal (c : Computer) : List Char := (Params.trim c.value.toList).map Char.toLower

def Computer.text (c : Computer) : String := c.system ++ ":" ++ String.ofList c.normal

def isDashed (l : List Char) : Bool :=
  l.length = 36 && l.zipIdx.all (fun e =>
    if e.2 ∈ [8,13,18,23] then e.1 = '-' else decide (IsLowerDigit e.1))

def fromOsValue (sys : System) (c : Computer) : Except String String := do
  let valid :=
    if c.system = "Linux" then c.normal.length = 32 && c.normal.all (fun d => decide (IsLowerDigit d))
    else if c.system = "Darwin" then isDashed c.normal
    else false
  ensure (valid ∧ c.normal.any (fun d => d ≠ '0' && d ≠ '-'))
    "persistent local machine identity is unavailable"
  return "machine-sha256:" ++ sys.sha256 (utf8 c.text)

def isMachineId (host : String) : Bool := "machine-sha256:".toList.isPrefixOf host.toList

section Source
variable (sys : System)

def locate (directory : Place) : Except String Place :=
  Paths.resolve sys.tree sys.currentDir ⟨true,plain directory⟩

def directoryText (directory : Place) : String := "/" ++ "/".intercalate directory

def find (w : World) (directory : Place) (name : List Name) : Except String (Option Bytes) := do
  let place ← locate sys directory
  return w.files (place++name)

def readFile (w : World) (directory : Place) (name : List Name) : Except String Bytes := do
  let found ← find sys w directory name
  context found "No such file or directory"

def readText (w : World) (directory : Place) (name : List Name) : Except String String := do
  let bytes ← readFile sys w directory name
  context (ofUtf8 bytes) "stream did not contain valid UTF-8"

def fromSlice (bytes : Bytes) : Except String Json := context (sys.fromSlice bytes) "invalid JSON"

def fromStr (text : String) : Except String Json := fromSlice sys (utf8 text)

def readJson (w : World) (directory : Place) (name : List Name) : Except String Json := do
  let bytes ← readFile sys w directory name
  fromSlice sys bytes

def trimmed (text : String) : String := String.ofList (Params.trim text.toList)

def sidecar : Name := "host-rebinding.json"

def recoveryRecordFor (record : Json) (directory : Place) (machine : String) :
    Except String Json := do
  let host ← string record "host"
  let place ← locate sys directory
  return Json.ofPairs [("format_version",.num "1"),("original_host",.str host),
    ("record_sha256",.str (sys.sha256 (utf8 (canonicalJson record)))),
    ("directory",.str (directoryText place)),("machine_id",.str machine)]

/-- A sidecar that cannot be read belongs to no record. -/
def matchesFor (w : World) (record : Json) (directory : Place) (machine hostname : String) :
    Except String Bool :=
  match ((record.get? "host").bind Json.asStr).filter (· ≠ "") with
  | none => .ok false
  | some expected =>
    if isMachineId expected then .ok (expected = machine)
    else
      match (find sys w directory [sidecar]).toOption.join with
      | some bytes => do
        let recovery ← recoveryRecordFor sys record directory machine
        return (fromSlice sys bytes).toOption = some recovery
      | none => .ok (expected = hostname)

def binding (run : Json) : Except String Json := do
  let identity ← context (run.get? "identity") "missing native run identity"
  let runId ← string run "run_id"
  let databaseUuid ← string run "database_uuid"
  return Json.ofPairs [("format_version",.num "1"),("run_id",.str runId),
    ("database_uuid",.str databaseUuid),
    ("identity_sha256",.str (sys.sha256 (utf8 (canonicalJson identity))))]

def validate (db : Tables) (run : Json) (token : String) : Except String Cursor.Position := do
  let position ← Cursor.decode sys.cipher token
  let identity := run.index "identity"
  let start ← uint (identity.index "start_block")
  ensure (start ≤ position.block.number) "native cursor precedes its run's start"
  let rows := db.stateBlocks.filter (·.number = position.block.number)
  let markers := db.markers.filter (·.number = position.block.number)
  let listed ← context (identity.index "accounts").asArray "missing native account filter"
  let names ← listed.mapM (fun v => context v.asStr "invalid native account filter")
  let sound := rows.all (fun r => r.hash = position.block.hash && r.accounts = ",".intercalate names &&
    r.schemaVersion = 1 && 3 ≤ r.producerVersion && r.producerVersion ≤ 5)
  let marked := markers.all (fun m =>
    "0x" ++ String.ofList (trimHex m.hash.toList) = position.block.hash)
  ensure (rows.length = 1 ∧ sound ∧ markers.length = 1 ∧ marked)
    "native cursor does not match its complete block data and marker"
  return position

def blockJson (r : Cursor.BlockRef) : Json :=
  Json.ofPairs [("number",Json.ofNat r.number),("hash",.str r.hash)]

def positionJson (p : Cursor.Position) : Json :=
  Json.ofPairs [("block",blockJson p.block),("head",blockJson p.head),("lib",blockJson p.lib),
    ("step",Json.ofNat p.step)]

/-- Every field of one object is a field of another value. -/
def includes (expected record : Json) : Bool :=
  (expected.asObject.getD []).all (fun e => record.get? e.1 = some e.2)

def loadProgress (w : World) (db : Tables) (run : Json) (directory : Place) :
    Except String Json := do
  let found ← find sys w directory ["durable_progress.json"]
  let bytes ← context found "durable progress is missing; restore matching run metadata"
  let record ← fromSlice sys bytes
  let expected ← binding sys run
  ensure (includes expected record) "durable progress belongs to another native run"
  let cursor ← string record "cursor"
  let position ← validate sys db run cursor
  ensure (record.index "position" = positionJson position) "durable progress position is corrupt"
  return record

def digest (db : Tables) (generation : String) (fields accounts : Json) : Except String Json := do
  let listed ← context accounts.asArray "invalid bootstrap accounts"
  let names ← listed.mapM (fun v => context v.asStr "invalid account")
  let entries ← context fields.asObject "invalid bootstrap fields"
  ensure (entries.all (fun e => e.1 ∈ names)) "bootstrap has account fields outside its filter"
  objectId generation
  let rows := db.storage.filter (·.generation = generation)
  let s ← (rows.insertionSort (fun a b => rowKey a ≤ rowKey b)).foldlM (digestRow names)
    ⟨canonicalJson fields,none,0⟩
  return Json.ofPairs [("state_sha256",.str (sys.sha256 (utf8 s.text))),
    ("nonzero_slots",Json.ofNat s.count)]

def loadPrefix (w : World) (db : Tables) (directory : Place) (run : Json) :
    Except String (Option Json) := do
  let found ← find sys w directory ["bootstrap.json"]
  match found with
  | none => return none
  | some bytes => do
    let value ← fromSlice sys bytes
    ensure (value.index "format_version" = .num "1" ∧
        value.index "status" = .str "unverified-bootstrap")
      "bootstrap prefix belongs to another source or is corrupt"
    let expected ← binding sys run
    let identity := run.index "identity"
    ensure (value.index "binding" = expected ∧
        value.index "start_block" = identity.index "start_block" ∧
        value.index "accounts" = identity.index "accounts")
      "bootstrap prefix belongs to another source or is corrupt"
    let generation ← string value "generation"
    objectId generation
    let stored ← one (db.generations.filter (·.generation = generation))
    let manifest ← fromStr sys stored.manifest
    ensure (manifest = value) "bootstrap pointer and stored manifest differ"
    let number ← uint ((value.index "header").index "number")
    let start ← uint (value.index "start_block")
    ensure (start ≤ number) "bootstrap prefix range is invalid"
    let measured ← digest sys db generation (value.index "fields") (value.index "accounts")
    ensure (includes measured value) "bootstrap generation checksum or count differs"
    return some value

end Source

/-- The call: its client, the directory of the run, the host that the operator
names, and the machine where it runs. -/
structure Call where
  client : Client
  path : Target
  previousHost : String
  computer : Computer

structure Opening where
  directory : Place
  run : Json
  checkpoints : String
  checkpointUuid : String
  controlDir : Place

structure Verified where
  binding : Json
  native : Cursor.Position
  bootstrap : Option Json

structure Entry where
  record : Json
  directory : Place
  recovery : Json

def World.uuid (w : World) (database : String) : Except String String := do
  let row ← one (w.databases.filter (·.1 = database))
  return row.2

section Rebind
variable (sys : System) (call : Call)

def opening (w : World) : Except String Opening := do
  ensure (call.previousHost ≠ "" ∧ isMachineId call.previousHost = false)
    "recovery requires the exact legacy hostname"
  let directory ← Paths.resolve sys.tree sys.currentDir call.path
  let run ← readJson sys w directory ["run.json"]
  let checkpoints ← string (run.index "identity") "checkpoint_database"
  Queries.identifier checkpoints
  let id ← w.uuid checkpoints
  ensure (Control.IsUuid id) "checkpoint coordination requires an Atomic ClickHouse database"
  let home ← Paths.resolve sys.tree sys.currentDir call.client.controlHome
  return ⟨directory,run,checkpoints,id,home++[id]⟩

def lockNames : List Name := ["bootstrap_replay.lock","run.lock","source_readers.lock",
  "initialize.lock","writer.lock","readers.lock"]

def locks (o : Opening) : List (Place × Name) :=
  [(o.directory,"bootstrap_replay.lock"),(o.directory,"run.lock"),
    (o.directory,"source_readers.lock"),(o.controlDir,"initialize.lock"),
    (o.controlDir,"writer.lock"),(o.controlDir,"readers.lock")]

def World.create (w : World) (place : Place) : World :=
  if (w.files place).isSome then w else w.put place []

/-- The file of a lock is made when it is missing. Another process may hold it. -/
def fileLock (lock : Place × Name) : Prog World Unit := do
  let place ← query (fun _ => locate sys lock.1)
  perform (fun w => w.create (place++[lock.2]))
  next

def checkNative (w : World) (o : Opening) : Except String Unit := do
  let again ← readJson sys w o.directory ["run.json"]
  ensure (again = o.run) "run changed during host recovery"
  let owner ← one (w.tables call.client.database).run
  let uuid ← w.uuid call.client.database
  let identity := o.run.index "identity"
  ensure (o.run.index "phase" = .str "prepared" ∧ identity.index "format_version" = .num "3" ∧
      identity.index "host" = .str call.previousHost ∧
      identity.index "state_directory" = .str (directoryText o.directory) ∧
      identity.index "database" = .str call.client.database ∧
      identity.index "http_url" = .str call.client.url ∧
      o.run.index "database_uuid" = .str uuid ∧ o.run.index "run_id" = .str owner.runId)
    "legacy native ownership does not match"
  let owned ← fromStr sys owner.identity
  ensure (owned = identity) "legacy native ownership does not match"

def schemaFile (database : String) : List Name := ["meta",database ++ "_schema_hash.txt"]

def checkFrozen (w : World) (o : Opening) : Except String Unit := do
  let package ← readFile sys w o.directory ["package.spkg"]
  let expected ← string (o.run.index "identity") "package_sha256"
  ensure (sys.sha256 package = expected) "frozen package or schema differs"
  let schema ← readText sys w o.directory (schemaFile call.client.database)
  let expected ← string o.run "schema_hash"
  ensure (trimmed schema = expected) "frozen package or schema differs"

def checkControl (w : World) (o : Opening) : Except String Json := do
  let binding ← readJson sys w o.controlDir ["binding.json"]
  let owner ← one (w.tables o.checkpoints).control
  ensure (binding.index "host" = .str call.previousHost ∧
      binding.index "database_uuid" = .str o.checkpointUuid ∧
      binding.index "directory" = .str (directoryText o.controlDir) ∧
      binding.index "control_id" = .str owner.controlId)
    "legacy checkpoint ownership does not match"
  let owned ← fromStr sys owner.binding
  ensure (owned = binding) "legacy checkpoint ownership does not match"
  let initialized ← readText sys w o.controlDir ["initialized"]
  let id ← string binding "control_id"
  ensure (initialized = id) "legacy checkpoint ownership does not match"
  return binding

def checkCursor (w : World) (o : Opening) : Except String Cursor.Position := do
  let db := w.tables call.client.database
  let progress ← loadProgress sys w db o.run o.directory
  let token ← readText sys w o.directory ["cursor.txt"]
  let native ← validate sys db o.run (trimmed token)
  let durable ← uint (((progress.index "position").index "block").index "number")
  ensure (durable ≤ native.block.number) "native cursor regressed behind durable progress"
  return native

/-- The checks of both sides under the locks. -/
def verify (o : Opening) (w : World) : Except String Verified := do
  checkNative sys call w o
  checkFrozen sys call w o
  let binding ← checkControl sys call w o
  let native ← checkCursor sys call w o
  let bootstrap ← loadPrefix sys w (w.tables call.client.database) o.directory o.run
  return ⟨binding,native,bootstrap⟩

def expectedRecords (o : Opening) (v : Verified) : Except String (List Entry) := do
  let machine ← fromOsValue sys call.computer
  let source ← recoveryRecordFor sys (o.run.index "identity") o.directory machine
  let control ← recoveryRecordFor sys v.binding o.controlDir machine
  return [⟨o.run.index "identity",o.directory,source⟩,⟨v.binding,o.controlDir,control⟩]

/-- A sidecar that is there already has to be the expected one. -/
def agrees (entry : Entry) (w : World) : Except String Unit := do
  let found ← find sys w entry.directory [sidecar]
  match found with
  | none => return ()
  | some bytes => do
    let actual ← fromSlice sys bytes
    ensure (actual = entry.recovery) "existing host recovery belongs to different state or machine"

/-- A scratch file is linked to a name that is not taken, and the directory is
synced. -/
def atomicJson (place : Place) (value : Json) : Prog World Unit := do
  next
  query (fun w => ensure ((w.files place).isNone) "File exists")
  perform (fun w => w.put place (utf8 (metadataText value)))
  next

def attest (entry : Entry) : Prog World Unit := do
  let place ← query (fun _ => locate sys entry.directory)
  let found ← query (fun w => .ok (w.files (place++[sidecar])).isSome)
  if found then return ()
  else atomicJson (place++[sidecar]) entry.recovery

def report (o : Opening) (v : Verified) : Json :=
  Json.ofPairs [("run_id",o.run.index "run_id"),("rebound",.bool true),
    ("cursor_block",blockJson v.native.block),
    ("prefix_block",(v.bootstrap.map (fun p => p.index "header")).getD .null),
    ("qualification",.str
      "Operator-confirmed original machine; original identities and state preserved.")]

def rebind : Prog World Json := do
  let o ← query (opening sys call)
  (locks o).forM (fileLock sys)
  let v ← query (verify sys call o)
  let entries ← query (fun _ => expectedRecords sys call o v)
  entries.forM (fun entry => query (agrees sys entry))
  entries.forM (attest sys)
  return report o v

/-- What the checks found: all of them passed, and no sidecar disagrees. -/
structure Ready (w : World) (o : Opening) (v : Verified) (entries : List Entry) : Prop where
  opened : opening sys call w = .ok o
  verified : verify sys call o w = .ok v
  expected : expectedRecords sys call o v = .ok entries
  agreed : ∀ e ∈ entries, agrees sys e w = .ok ()

/-- Names that a call may add to a directory. -/
def Ephemeral (place : Place) : Prop := ∃ n ∈ sidecar::lockNames, place.getLast? = some n

/-- No row changes, no file changes or goes away, and only lock files and
sidecars are added. -/
structure Unchanged (v w : World) : Prop where
  databases : w.databases = v.databases
  tables : w.tables = v.tables
  kept : ∀ place bytes, v.files place = some bytes → w.files place = some bytes
  added : ∀ place, w.files place ≠ v.files place → Ephemeral place

def left (w : World) (script : List (Option String)) : World := ends (rebind sys call) ⟨w,script⟩

def Attested (entry : Entry) (w : World) : Prop :=
  ∃ bytes, find sys w entry.directory [sidecar] = .ok (some bytes) ∧
    fromSlice sys bytes = .ok entry.recovery

/-- A record is accepted on the machine of the call whatever its name, and on
no other one. -/
def Bound (entry : Entry) (w : World) : Prop := ∀ hostname,
  (∀ id, fromOsValue sys call.computer = .ok id →
    matchesFor sys w entry.record entry.directory id hostname = .ok true) ∧
  ∀ other id, fromOsValue sys other = .ok id → other.text ≠ call.computer.text →
    matchesFor sys w entry.record entry.directory id hostname = .ok false

structure AllOrNothing (w : World) : Prop where
  unchanged : ∀ script, Unchanged w (left sys call w script)
  checked : ∀ script place, place.getLast? = some sidecar →
    (left sys call w script).files place ≠ w.files place →
      ∃ o v entries, Ready sys call w o v entries
  resumed : ∀ o v entries, Ready sys call w o v entries → ∀ scripts : List (List (Option String)),
    ∃ u, Runs (rebind sys call) (scripts.foldl (left sys call) w) (report o v) u ∧
      ∀ e ∈ entries, Attested sys e u
  bound : ∀ script result u rest, rebind sys call ⟨w,script⟩ = .ok result ⟨u,rest⟩ →
    ∃ o v entries, Ready sys call w o v entries ∧ ∀ e ∈ entries, Bound sys call e u

/-- Records that share a directory have one sidecar. -/
def Apart (entries : List Entry) : Prop := ∀ e ∈ entries, ∀ f ∈ entries,
  locate sys e.directory = locate sys f.directory → e.recovery = f.recovery

end Rebind
end EvmState.Recovery
