import EvmState.Bootstrap
import EvmState.Files
import EvmState.Host
import EvmState.Lib.Restart

/-!
# Preparation of a native run

A run is an identity file in the state directory, a frozen package, a database
with an ownership table, and what the external setup command leaves. Each
call looks at what earlier calls left, completes it and checks it. A call may
die between any two steps.
-/

set_option autoImplicit false

namespace EvmState.Prepare
open EvmState.Hex EvmState.Params EvmState.Fallible EvmState.Encoding EvmState.Queries
open EvmState.Crash EvmState.Restart EvmState.Bootstrap EvmState.Files

structure Module where
  name : String
  outputType : String
  hash : String

structure Info where
  network : String
  modules : List Module

structure Identity where
  formatVersion : ℕ
  database : String
  httpUrl : String
  checkpointDatabase : String
  stateDirectory : String
  host : String
  nativeTarget : String
  endpoint : String
  accounts : List String
  startBlock : ℕ
  module : String
  moduleHash : String
  packageSha256 : String
  network : String
  schemaVersion : ℕ
  finalBlocksOnly : Bool
  deriving DecidableEq

structure RunRecord where
  runId : String
  identity : Identity
  phase : String
  databaseUuid : Option String
  schemaHash : Option String
  deriving DecidableEq

structure OwnerRow where
  runId : String
  identity : Identity
  deriving DecidableEq

/-- What the external setup command works on: the native tables of the
database and the schema file in the state directory. -/
structure Native where
  tables : List String
  schemaFile : Option String
  deriving DecidableEq

/-- The external setup command. Every whole run of it, also one after a run
that died, ends with both native tables and the schema file. -/
structure NativeSetup where
  run : Native → Native
  interrupted : Native → Native
  tables : ∀ n, "state_blocks" ∈ (run n).tables ∧ "_blocks_" ∈ (run n).tables
  schema : ∀ n, (run n).schemaFile ≠ none

structure Database where
  uuid : String
  owner : Option (List OwnerRow)
  deriving DecidableEq

/-- The database and the state directory. `scratch` counts the scratch files
that dead calls left in the directory. -/
structure PrepareWorld where
  run : Option RunRecord
  package : Option Bytes
  scratch : ℕ
  metadata : Bool
  database : Option Database
  native : Native
  deriving DecidableEq

def ownerRows (w : PrepareWorld) : Option (List OwnerRow) := w.database.bind (·.owner)

/-- The options and the outcomes of the checks that read only them: the
connection target, the package and its inspection. -/
structure NativeOptions where
  database : String
  httpUrl : String
  endpoint : String
  accounts : Json
  startBlock : ℕ
  directory : String
  checkpointDatabase : Option String
  target : Except String String
  package : Bytes
  info : Except String Info

def moduleName : String := "map_block_state"

def NativeOptions.checkpoint (options : NativeOptions) : String :=
  options.checkpointDatabase.getD options.database

section Identity
variable (sha256 : Bytes → String) (options : NativeOptions)

def identityFor (host : String) : Except String Identity := do
  let target ← options.target
  let selected ← canonicalAccounts options.accounts
  let info ← options.info
  let module ← context (info.modules.find? (·.name = moduleName))
    "native block-state module is missing"
  ensure (info.network = "bsc" ∧ module.outputType = "proto:evm.state.v1.BlockState")
    "expected the BSC native block-state package"
  identifier options.checkpoint
  return ⟨3,options.database,options.httpUrl,options.checkpoint,options.directory,host,target,
    options.endpoint,selected,options.startBlock,moduleName,module.hash,sha256 options.package,"bsc",
    1,true⟩

/-- Changed local intent is rejected before the external command is called. -/
def checkPrevious (previous : Identity) : Except String Unit := do
  let selected ← canonicalAccounts options.accounts
  ensure (previous.database = options.database ∧ previous.httpUrl = options.httpUrl ∧
    previous.endpoint = options.endpoint ∧ previous.startBlock = options.startBlock ∧
    previous.stateDirectory = options.directory ∧ previous.accounts = selected ∧
    previous.checkpointDatabase = options.checkpoint)
    "run identity changed; use a new isolated database and state directory"

end Identity

/-- Where a call can die. -/
inductive Point
  | capacity
  | lock
  | previous
  | info
  | host
  | databases
  | record
  | tables
  | entries
  | runFile (part : Part)
  | frozen
  | packageFile (part : Part)
  | createDatabase
  | uuid
  | ownerTable
  | createOwner
  | insertOwner
  | owner
  | metadata
  | setup
  | settings
  | sync
  | preparedFile (part : Part)
  | schema
  deriving DecidableEq

/-- The identifiers that the call and the database would choose, and where
the call dies. -/
structure Call where
  newId : String
  newUuid : String
  faults : Point → Option String

/-- The installation: its machine, its recovery file as the identities that
it was made for, the options of all calls, and the external command. -/
structure Site where
  sha256 : Bytes → String
  machine : Host.Machine
  rebinding : Option (Identity → Bool)
  setup : NativeSetup
  options : NativeOptions
  valid : ∃ identity, identityFor sha256 options machine.id = .ok identity

def Site.hostMatches (site : Site) (record : Identity) : Bool :=
  site.machine.matchesFor record.host (site.rebinding.map (· record))

def trimmed (text : String) : String := String.ofList (trim text.toList)

section Prepare
variable (site : Site) (call : Call)

def identity : Prog PrepareWorld Identity := do
  arrive call.faults .info
  arrive call.faults .host
  let previous ← read (fun w => .ok (w.run.map (·.identity)))
  let host := (previous.filter site.hostMatches).elim site.machine.id (·.host)
  check (identityFor site.sha256 site.options host)

def insertScratch (w : PrepareWorld) : PrepareWorld := { w with scratch := w.scratch+1 }

def removeScratch (w : PrepareWorld) : PrepareWorld := { w with scratch := w.scratch-1 }

def writeRecord (point : Part → Point) (overwrite : Bool) (record : RunRecord) :
    Prog PrepareWorld Unit :=
  atomicWrite call.faults point insertScratch (fun w : PrepareWorld => { w with run := some record })
    removeScratch (fun w => !overwrite && w.run.isSome)

def checkTables (found : Bool) : Prog PrepareWorld Unit :=
  if found then do
    arrive call.faults .tables
    read (fun w => ensure (ownerRows w = none ∧ w.native.tables = [])
      "database already contains tables without this run's local identity")
  else return ()

/-- The record of the run: the one that is there, or a new one in an empty
database and an empty directory. -/
def claimRecord (identity : Identity) (found : Bool) : Prog PrepareWorld RunRecord := do
  arrive call.faults .record
  let previous ← read (fun w => .ok w.run)
  match previous with
  | some record => do
    check (ensure (record.phase = "preparing" ∨ record.phase = "prepared") "invalid native run phase")
    check (ensure (record.identity = identity)
      "run identity changed; use a new isolated database and state directory")
    check (ensure (record.phase ≠ "prepared" ∨ found)
      "run database is missing; restore matching database and cursor metadata")
    return record
  | none => do
    checkTables call found
    arrive call.faults .entries
    read (fun w => ensure (w.scratch = 0 ∧ w.package = none ∧ w.metadata = false)
      "state directory is not empty and has no run identity")
    let record : RunRecord := ⟨call.newId,identity,"preparing",none,none⟩
    writeRecord call .runFile false record
    return record

def freezePackage (record : RunRecord) : Prog PrepareWorld Unit := do
  arrive call.faults .frozen
  let frozen ← read (fun w => .ok w.package)
  match frozen with
  | some bytes => do
    check (ensure (site.sha256 bytes = record.identity.packageSha256)
      "frozen run package was changed")
  | none => do
    check (ensure (record.phase ≠ "prepared") "frozen run package is missing")
    atomicWrite call.faults .packageFile insertScratch
      (fun w : PrepareWorld => { w with package := some site.options.package }) removeScratch
      (fun w => w.package.isSome)

def createDatabase : Prog PrepareWorld Unit := do
  arrive call.faults .createDatabase
  write (fun w => { w with database := some (w.database.getD ⟨call.newUuid,none⟩) })

def checkUuid (record : RunRecord) (w : PrepareWorld) : Except String String := do
  let db ← context w.database "expected one result row, got none"
  ensure (record.databaseUuid.all (· = db.uuid))
    "database was replaced; restore matching database and run metadata"
  return db.uuid

def setOwner (rows : List OwnerRow) (w : PrepareWorld) : PrepareWorld :=
  { w with database := w.database.map (fun db => { db with owner := some rows }) }

/-- A database without the owner table gets it, and then its row. -/
def claimOwner (record : RunRecord) : Prog PrepareWorld Unit := do
  arrive call.faults .ownerTable
  let found ← read (fun w => .ok (ownerRows w).isSome)
  if found then return ()
  else do
    check (ensure (record.phase ≠ "prepared") "database run identity is missing")
    arrive call.faults .createOwner
    write (setOwner [])
    arrive call.faults .insertOwner
    write (setOwner [⟨record.runId,record.identity⟩])

def checkOwner (record : RunRecord) (w : PrepareWorld) : Except String Unit := do
  let rows ← context (ownerRows w) "ClickHouse query failed"
  let owner ← one rows
  ensure (owner.runId = record.runId ∧ owner.identity = record.identity)
    "database belongs to a different native run"

/-- The external command. When the process dies the command may have done a
part of its work. -/
def runSetup : Prog PrepareWorld Unit :=
  match call.faults .setup with
  | some e => do
    write (fun w => { w with native := site.setup.interrupted w.native })
    throw e
  | none => write (fun w => { w with native := site.setup.run w.native })

/-- The external setup, and the prepared record. -/
def finishRun (record : RunRecord) (uuid : String) : Prog PrepareWorld RunRecord := do
  if record.phase = "preparing" then do
    arrive call.faults .metadata
    write (fun w : PrepareWorld => { w with metadata := true })
    runSetup site call
    arrive call.faults .settings
    read (fun w => ensure (["state_blocks","_blocks_"].all (· ∈ w.native.tables))
      "ClickHouse query failed")
    arrive call.faults .sync
    let schema ← read (fun w => context w.native.schemaFile "No such file or directory")
    let prepared : RunRecord :=
      { record with phase := "prepared", databaseUuid := some uuid, schemaHash := some (trimmed schema) }
    writeRecord call .preparedFile true prepared
    return prepared
  else return record

def checkSchema (record : RunRecord) (w : PrepareWorld) : Except String Unit :=
  ensure (w.native.schemaFile.map trimmed = record.schemaHash ∧ w.native.schemaFile.isSome)
    "native schema metadata is missing or changed"

def prepare : Prog PrepareWorld RunRecord := do
  arrive call.faults .capacity
  arrive call.faults .lock
  arrive call.faults .previous
  read (fun w => w.run.elim (.ok ()) (fun r => checkPrevious site.options r.identity))
  let identity ← identity site call
  arrive call.faults .databases
  let found ← read (fun w => .ok w.database.isSome)
  let record ← claimRecord call identity found
  freezePackage site call record
  createDatabase call
  arrive call.faults .uuid
  let uuid ← read (checkUuid record)
  claimOwner call record
  arrive call.faults .owner
  read (checkOwner record)
  let record ← finishRun site call record uuid
  arrive call.faults .schema
  read (checkSchema record)
  return record

end Prepare

def Call.Uninterrupted (c : Call) : Prop := ∀ p, c.faults p = none

/-- An empty state directory, and a database without tables or none. -/
structure Pristine (w : PrepareWorld) : Prop where
  run : w.run = none
  package : w.package = none
  scratch : w.scratch = 0
  metadata : w.metadata = false
  owner : ownerRows w = none
  tables : w.native.tables = []

section Claim
variable (site : Site) (start : PrepareWorld)

abbrev left (calls : List Call) : PrepareWorld := reached (prepare site) start calls

/-- After every part of the calls an uninterrupted one succeeds, the identity
file and the owner row agree, and the run is the one first made durable. -/
def Survives (calls : List Call) : Prop :=
  ∀ earlier later, calls = earlier++later → ∀ c : Call, c.Uninterrupted →
    ∃ record s, prepare site c ⟨left site start earlier,[]⟩ = .ok record s ∧
      s.state.run = some record ∧ ownerRows s.state = some [⟨record.runId,record.identity⟩] ∧
      ∀ first rest, earlier = first++rest → ∀ r, (left site start first).run = some r →
        record.runId = r.runId

end Claim

/-! The points that a call visits when it lives. -/

def tablesPoints (w : PrepareWorld) : List Point := if w.database = none then [] else [.tables]

def recordPoints (w : PrepareWorld) : List Point :=
  .record :: if w.run = none then tablesPoints w ++ .entries::writePoints .runFile else []

def freezePoints (w : PrepareWorld) : List Point :=
  .frozen :: if w.package = none then writePoints .packageFile else []

def ownerPoints (w : PrepareWorld) : List Point :=
  .ownerTable :: if ownerRows w = none then [.createOwner,.insertOwner] else []

def isPrepared (w : PrepareWorld) : Bool := w.run.any (·.phase = "prepared")

def finishPoints (w : PrepareWorld) : List Point :=
  if isPrepared w then []
  else .metadata::.setup::.settings::.sync::writePoints .preparedFile

def points (w : PrepareWorld) : List Point :=
  .capacity::.lock::.previous::.info::.host::.databases::recordPoints w ++ freezePoints w ++
    .createDatabase::.uuid::ownerPoints w ++ .owner::finishPoints w ++ [.schema]

/-- The call dies between writing the scratch file of a missing identity file
and linking it, or between creating the owner table and inserting its row. -/
def Torn (w : PrepareWorld) (call : Call) : Prop :=
  firstFault call.faults (points w) = some (.runFile .publish) ∨
    firstFault call.faults (points w) = some .insertOwner

end EvmState.Prepare
