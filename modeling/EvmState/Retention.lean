import EvmState.AccountLists
import EvmState.Publication
import EvmState.Lib.Newest

/-!
# Retention

A plan keeps the newest checkpoints, for each account the newest one that
selects it, and every pinned one; a prune removes the partitions of all other
snapshots. It drops the row that makes a snapshot ready before the rows that
the snapshot holds.
-/

set_option autoImplicit false

namespace EvmState.Retention
open EvmState.Hex EvmState.Fallible EvmState.OrderedMap EvmState.Store EvmState.Encoding
open EvmState.Params EvmState.Bootstrap EvmState.Crash EvmState.Reader EvmState.Publication EvmState.Newest

def asSet (l : List String) : List String := (SortedMap.empty.insertAll (l.map (fun a => (a,())))).keys

/-- The age of a publication: its block number, then its creation time. -/
def age (r : CheckpointRow) : ℕ ×ₗ ℕ := toLex (r.blockNumber,r.createdAt)

inductive TableName where
  | checkpoints
  | accounts
  | storage
  deriving DecidableEq, Repr

def tableNames : List TableName := [.checkpoints,.accounts,.storage]

def TableName.text : TableName → String
  | .checkpoints => "checkpoints"
  | .accounts => "checkpoint_accounts"
  | .storage => "checkpoint_storage"

/-- What a plan depends on besides the stored rows: how their texts are read,
the tables with their partition keys, and the order that rows of one age get. -/
structure Database where
  fromSlice : Bytes → Option Json
  tables : List (String × String)
  tie : CheckpointRow → ℕ

def requirePartitionedSchema (tables : List (String × String)) : Except String Unit := do
  let rows := tables.filter (fun e => e.1 ∈ tableNames.map TableName.text)
  ensure (rows.length = 3 ∧ rows.all (fun e => e.2 = "snapshot_id"))
    "checkpoint tables use an old prototype schema; export and import into a fresh database before retention"

section Plan
variable (database : Database)

def rank (r : CheckpointRow) : (ℕ ×ₗ ℕ) ×ₗ ℕ := toLex (age r,database.tie r)

/-- The ready rows, the newest first. -/
def newestFirst (db : CheckpointDb) : List CheckpointRow :=
  newest (rank database) db.checkpoints.rows

/-- The rows that the plan reads must be valid ready manifests. -/
def readyRecord (r : CheckpointRow) : Except String Json := do
  let value ← parseManifest database.fromSlice r
  objectId r.snapshotId
  ensure (value.index "snapshot_id" = .str r.snapshotId ∧ value.index "status" = .str "ready")
    "invalid ready manifest blocks retention"
  return value

end Plan

def selectedAccounts (record : Json) : Except String (List String) := do
  let accounts ← context (record.index "accounts").asArray "invalid checkpoint accounts"
  accounts.mapM (fun account => context account.asStr "invalid checkpoint account")

/-- An account that has a newer checkpoint keeps that one. -/
def keepFirst (id : String) (latest : SortedMap String String) (account : String) :
    SortedMap String String :=
  match latest.get? account with
  | some _ => latest
  | none => latest.insert account id

def addRecord (latest : SortedMap String String) (record : Json) :
    Except String (SortedMap String String) := do
  let accounts ← selectedAccounts record
  let id ← string record "snapshot_id"
  return accounts.foldl (keepFirst id) latest

def readPinAt (w : ReaderWorld) (stem : String) : Except String (ℕ × Json) := do
  let record ← readPin w stem
  let created ← uint (record.index "created_at")
  return (created,record)

def pinsUnlocked (w : ReaderWorld) : Except String (List Json) := do
  let pins ← w.pins.keys.mapM (readPinAt w)
  return (pins.insertionSort (fun a b => a.1 ≤ b.1)).map Prod.snd

def pinnedId (ready : List String) (pin : Json) : Except String String := do
  let id ← string pin "snapshot_id"
  ensure (id ∈ ready) "a pinned checkpoint is missing; retention stopped"
  return id

def partitionIds (db : CheckpointDb) : List String :=
  asSet (db.checkpoints.rows.map (·.snapshotId) ++ db.accounts.rows.map (·.snapshotId) ++
    db.storage.rows.map (·.snapshotId))

@[ext] structure Plan where
  keep : List String
  remove : List String
  unpublishedCandidates : List String
  pins : List (Json × Json)
  latestForAccount : SortedMap String String
  keepLatest : ℕ
  deriving DecidableEq

def planUnlocked (database : Database) (w : ReaderWorld) (keepLatest : ℕ) : Except String Plan := do
  ensure (1 ≤ keepLatest) "keep_latest must be at least one"
  requirePartitionedSchema database.tables
  let records ← (newestFirst database w.checkpoints).mapM (readyRecord database)
  let ready ← records.mapM (fun record => string record "snapshot_id")
  let newest ← (records.take keepLatest).mapM (fun record => string record "snapshot_id")
  let latest ← records.foldlM addRecord .empty
  let pins ← pinsUnlocked w
  let pinned ← pins.mapM (pinnedId ready)
  let keep := asSet (newest ++ latest.values ++ pinned)
  let partitions := partitionIds w.checkpoints
  partitions.forM objectId
  let remove := partitions.filter (· ∉ keep)
  return ⟨keep,remove,remove.filter (· ∉ ready),
    pins.map (fun pin => (pin.index "pin_id",pin.index "snapshot_id")),latest,keepLatest⟩

def dropPartition (id : String) : TableName → CheckpointDb → CheckpointDb
  | .checkpoints, db => { db with checkpoints := db.checkpoints.select (fun r => r.snapshotId ≠ id) }
  | .accounts, db => { db with accounts := db.accounts.select (fun r => r.snapshotId ≠ id) }
  | .storage, db => { db with storage := db.storage.select (fun r => r.snapshotId ≠ id) }

/-- The row that makes the snapshot ready goes first. -/
def removeSnapshot (id : String) : Prog ReaderWorld Unit :=
  tableNames.forM (fun table =>
    perform (fun w => { w with checkpoints := dropPartition id table w.checkpoints }))

def prune (database : Database) (keepLatest : ℕ) : Prog ReaderWorld Plan := do
  next
  let plan ← query (fun w => planUnlocked database w keepLatest)
  next
  plan.remove.forM removeSnapshot
  next
  return plan

section Records
variable (fromSlice : Bytes → Option Json)

def storedRecord (r : CheckpointRow) : Json := (fromSlice (Text.utf8 r.manifest)).getD .null

structure Readable (r : CheckpointRow) : Prop where
  parsed : fromSlice (Text.utf8 r.manifest) = some (storedRecord fromSlice r)
  id : objectId r.snapshotId = .ok ()
  named : (storedRecord fromSlice r).index "snapshot_id" = .str r.snapshotId
  ready : (storedRecord fromSlice r).index "status" = .str "ready"
  accounts : ∃ l : List String, (storedRecord fromSlice r).index "accounts" = .arr (l.map .str)

def selects (account : String) (r : CheckpointRow) : Bool :=
  ((storedRecord fromSlice r).index "accounts").asArray.any (fun l => .str account ∈ l)

end Records

@[simp] theorem mem_asSet {l : List String} {a : String} : a ∈ asSet l ↔ a ∈ l :=
  AccountLists.mem_keys_insertAll

section Reading
variable {fromSlice : Bytes → Option Json} {database : Database}

theorem storedRecord_eq {r : CheckpointRow} {record : Json}
    (h : fromSlice (Text.utf8 r.manifest) = some record) : storedRecord fromSlice r = record := by
  rw [storedRecord, h, Option.getD_some]

theorem readyRecord_ok {r : CheckpointRow} {record : Json} : readyRecord database r = .ok record ↔
    database.fromSlice (Text.utf8 r.manifest) = some record ∧ objectId r.snapshotId = .ok () ∧
      record.index "snapshot_id" = .str r.snapshotId ∧ record.index "status" = .str "ready" := by
  constructor
  · intro h
    obtain ⟨value,hvalue,h⟩ := bind_ok.mp h
    obtain ⟨_,hid,h⟩ := bind_ok.mp h
    obtain ⟨_,hready,h⟩ := bind_ok.mp h
    obtain rfl := pure_ok.mp h
    exact ⟨context_ok.mp hvalue,hid,ensure_ok.mp hready⟩
  · rintro ⟨hvalue,hid,hready⟩
    exact bind_ok.mpr ⟨record,context_ok.mpr hvalue,bind_ok.mpr ⟨(),hid,bind_ok.mpr ⟨(),
      ensure_ok.mpr hready,rfl⟩⟩⟩

theorem selectedAccounts_ok {record : Json} {l : List String} :
    selectedAccounts record = .ok l ↔ record.index "accounts" = .arr (l.map .str) := by
  have hstr : ∀ (items : List Json) (l : List String),
      items.mapM (fun account => context account.asStr "invalid checkpoint account") = .ok l ↔
        items = l.map .str := by
    intro items l
    rw [mapM_ok]
    constructor
    · intro h
      induction h with
      | nil => rfl
      | cons ha _ ih => rw [List.map_cons, ← ih, asStr_eq (context_ok.mp ha)]
    · rintro rfl
      exact List.forall₂_map_left_iff.mpr (List.forall₂_same.mpr (fun a _ => rfl))
  constructor
  · intro h
    obtain ⟨items,hitems,h⟩ := bind_ok.mp h
    have harr : record.index "accounts" = .arr items := by
      cases hj : record.index "accounts" with
      | arr items' =>
        rw [hj] at hitems
        exact congrArg Json.arr (Option.some.inj (context_ok.mp hitems))
      | _ =>
        rw [hj] at hitems
        cases context_ok.mp hitems
    rw [harr, (hstr items l).mp h]
  · intro h
    exact bind_ok.mpr ⟨l.map .str,by rw [h]; rfl,(hstr _ l).mpr rfl⟩

theorem selects_iff {r : CheckpointRow} {l : List String} {account : String}
    (h : (storedRecord fromSlice r).index "accounts" = .arr (l.map .str)) :
    selects fromSlice account r = true ↔ account ∈ l := by
  rw [selects, h]
  simp [Json.asArray]

theorem keepFirst_get? (id account a : String) (m : SortedMap String String) :
    (keepFirst id m account).get? a = (m.get? a).or (if a = account then some id else none) := by
  unfold keepFirst
  cases hm : m.get? account with
  | some v =>
    by_cases ha : a = account
    · subst ha
      simp [hm]
    · simp [ha]
  | none =>
    rw [SortedMap.get?_insert]
    by_cases ha : a = account
    · subst ha
      simp [hm]
    · simp [ha]

theorem keepFirsts_get? (id a : String) (l : List String) (m : SortedMap String String) :
    (l.foldl (keepFirst id) m).get? a = (m.get? a).or (if a ∈ l then some id else none) := by
  induction l generalizing m with
  | nil => simp
  | cons b l ih =>
    rw [List.foldl_cons, ih, keepFirst_get?]
    by_cases hb : a = b
    · subst hb
      cases m.get? a <;> simp
    · cases m.get? a <;> simp [hb]

theorem addRecords_ok {rows : List CheckpointRow} {m : SortedMap String String}
    (h : ∀ r ∈ rows, Readable fromSlice r) :
    ∃ m', (rows.map (storedRecord fromSlice)).foldlM addRecord m = .ok m' ∧
      ∀ a, m'.get? a = (m.get? a).or ((rows.find? (selects fromSlice a)).map (·.snapshotId)) := by
  induction rows generalizing m with
  | nil => exact ⟨m,rfl,by simp⟩
  | cons r rows ih =>
    obtain ⟨hr,hrows⟩ := List.forall_mem_cons.mp h
    obtain ⟨l,hl⟩ := hr.accounts
    obtain ⟨m',hm',hget⟩ := @ih (l.foldl (keepFirst r.snapshotId) m) hrows
    refine ⟨m',?_,fun a => ?_⟩
    · rw [List.map_cons, List.foldlM_cons]
      refine bind_ok.mpr ⟨l.foldl (keepFirst r.snapshotId) m,?_,hm'⟩
      exact bind_ok.mpr ⟨l,selectedAccounts_ok.mpr hl,bind_ok.mpr ⟨_,string_index hr.named,rfl⟩⟩
    · rw [hget, keepFirsts_get?, List.find?_cons]
      cases hs : selects fromSlice a r with
      | true => cases m.get? a <;> simp [(selects_iff hl).mp hs]
      | false =>
        have hn : a ∉ l := fun ha => by simp [(selects_iff hl).mpr ha] at hs
        cases m.get? a <;> simp [hn]

theorem addRecords_readable {rows : List CheckpointRow} {m m' : SortedMap String String}
    (h : (rows.map (storedRecord fromSlice)).foldlM addRecord m = .ok m') :
    ∀ r ∈ rows, ∃ l : List String, (storedRecord fromSlice r).index "accounts" = .arr (l.map .str) := by
  induction rows generalizing m with
  | nil => simp
  | cons r rows ih =>
    rw [List.map_cons, List.foldlM_cons] at h
    obtain ⟨m'',hr,h⟩ := bind_ok.mp h
    obtain ⟨l,hl,-⟩ := bind_ok.mp hr
    exact List.forall_mem_cons.mpr ⟨⟨l,selectedAccounts_ok.mp hl⟩,ih h⟩

end Reading

structure Planned (database : Database) (w : ReaderWorld) (keepLatest : ℕ) (plan : Plan)
    (pins : List Json) (pinned : List String) : Prop where
  positive : 1 ≤ keepLatest
  schema : requirePartitionedSchema database.tables = .ok ()
  readable : ∀ r ∈ w.checkpoints.checkpoints.rows, Readable database.fromSlice r
  listing : pinsUnlocked w = .ok pins
  naming : List.Forall₂ (fun pin id => string pin "snapshot_id" = .ok id ∧
    id ∈ w.checkpoints.checkpoints.rows.map (·.snapshotId)) pins pinned
  partitions : ∀ id ∈ partitionIds w.checkpoints, objectId id = .ok ()
  latest : ∀ a, plan.latestForAccount.get? a =
    ((newestFirst database w.checkpoints).find? (selects database.fromSlice a)).map (·.snapshotId)
  keep : plan.keep = asSet (((newestFirst database w.checkpoints).take keepLatest).map (·.snapshotId) ++
    plan.latestForAccount.values ++ pinned)
  remove : plan.remove = (partitionIds w.checkpoints).filter (· ∉ plan.keep)
  unpublished : plan.unpublishedCandidates =
    plan.remove.filter (· ∉ (newestFirst database w.checkpoints).map (·.snapshotId))
  listed : plan.pins = pins.map (fun pin => (pin.index "pin_id",pin.index "snapshot_id"))
  count : plan.keepLatest = keepLatest

theorem records_named {fromSlice : Bytes → Option Json} {rows : List CheckpointRow}
    (h : ∀ r ∈ rows, Readable fromSlice r) :
    (rows.map (storedRecord fromSlice)).mapM (fun record => string record "snapshot_id") =
      .ok (rows.map (·.snapshotId)) := by
  refine mapM_ok.mpr (List.forall₂_map_left_iff.mpr (List.forall₂_map_right_iff.mpr ?_))
  exact List.forall₂_same.mpr (fun r hr => string_index (h r hr).named)

theorem pinnedId_ok {ready : List String} {pin : Json} {id : String} :
    pinnedId ready pin = .ok id ↔ string pin "snapshot_id" = .ok id ∧ id ∈ ready := by
  constructor
  · intro h
    obtain ⟨id',hid,h⟩ := bind_ok.mp h
    obtain ⟨_,hmem,h⟩ := bind_ok.mp h
    obtain rfl := pure_ok.mp h
    exact ⟨hid,ensure_ok.mp hmem⟩
  · rintro ⟨hid,hmem⟩
    exact bind_ok.mpr ⟨id,hid,bind_ok.mpr ⟨(),ensure_ok.mpr hmem,rfl⟩⟩

theorem planUnlocked_ok {database : Database} {w : ReaderWorld} {keepLatest : ℕ} {plan : Plan} :
    planUnlocked database w keepLatest = .ok plan ↔
      ∃ pins pinned, Planned database w keepLatest plan pins pinned := by
  have hmem : ∀ id, id ∈ (newestFirst database w.checkpoints).map (·.snapshotId) ↔
      id ∈ w.checkpoints.checkpoints.rows.map (·.snapshotId) := fun id =>
    (newest_perm.map _).mem_iff
  constructor
  · intro h
    obtain ⟨_,hpositive,h⟩ := bind_ok.mp h
    obtain ⟨_,hschema,h⟩ := bind_ok.mp h
    obtain ⟨records,hrecords,h⟩ := bind_ok.mp h
    obtain ⟨ready,hready,h⟩ := bind_ok.mp h
    obtain ⟨newest,hnewest,h⟩ := bind_ok.mp h
    obtain ⟨latest,hlatest,h⟩ := bind_ok.mp h
    obtain ⟨pins,hpins,h⟩ := bind_ok.mp h
    obtain ⟨pinned,hpinned,h⟩ := bind_ok.mp h
    obtain ⟨_,hpartitions,h⟩ := bind_ok.mp h
    obtain rfl := pure_ok.mp h
    obtain rfl : records = (newestFirst database w.checkpoints).map (storedRecord database.fromSlice) :=
      mapM_eq_map hrecords (fun r record hr => (storedRecord_eq (readyRecord_ok.mp hr).1).symm)
    have hall : ∀ r ∈ newestFirst database w.checkpoints, Readable database.fromSlice r := by
      intro r hr
      obtain ⟨record,-,hrecord⟩ := (Timeline.exists_related (mapM_ok.mp hrecords)).1 r hr
      obtain ⟨hparsed,hid,hnamed,hstatus⟩ := readyRecord_ok.mp hrecord
      obtain rfl := storedRecord_eq hparsed
      exact ⟨hparsed,hid,hnamed,hstatus,addRecords_readable hlatest r hr⟩
    have htake : ∀ r ∈ (newestFirst database w.checkpoints).take keepLatest,
        Readable database.fromSlice r := fun r hr => hall r (List.mem_of_mem_take hr)
    obtain rfl := Except.ok.inj (hready.symm.trans (records_named hall))
    rw [← List.map_take, records_named htake] at hnewest
    obtain rfl := Except.ok.inj hnewest
    obtain ⟨latest',hlatest',hget⟩ := addRecords_ok (m := .empty) hall
    obtain rfl := Except.ok.inj (hlatest.symm.trans hlatest')
    refine ⟨pins,pinned,ensure_ok.mp hpositive,hschema,fun r hr => hall r (mem_newest.mpr hr),hpins,?_,
      forM_ok.mp hpartitions,fun a => by rw [hget]; simp,rfl,rfl,rfl,rfl,rfl⟩
    exact (mapM_ok.mp hpinned).imp (fun pin id h => ⟨(pinnedId_ok.mp h).1,
      (hmem id).mp (pinnedId_ok.mp h).2⟩)
  · rintro ⟨pins,pinned,h⟩
    have hall : ∀ r ∈ newestFirst database w.checkpoints, Readable database.fromSlice r :=
      fun r hr => h.readable r (mem_newest.mp hr)
    have htake : ∀ r ∈ (newestFirst database w.checkpoints).take keepLatest,
        Readable database.fromSlice r := fun r hr => hall r (List.mem_of_mem_take hr)
    obtain ⟨latest,hlatest,hget⟩ := addRecords_ok (m := .empty) hall
    obtain rfl : latest = plan.latestForAccount := SortedMap.ext (fun a => by
      rw [hget, h.latest]
      simp)
    refine bind_ok.mpr ⟨(),ensure_ok.mpr h.positive,bind_ok.mpr ⟨(),h.schema,bind_ok.mpr
      ⟨(newestFirst database w.checkpoints).map (storedRecord database.fromSlice),?_,bind_ok.mpr
      ⟨_,records_named hall,bind_ok.mpr ⟨_,by rw [← List.map_take]; exact records_named htake,
      bind_ok.mpr ⟨_,hlatest,bind_ok.mpr ⟨pins,h.listing,bind_ok.mpr ⟨pinned,mapM_ok.mpr
      (h.naming.imp (fun pin id hp => pinnedId_ok.mpr ⟨hp.1,(hmem id).mpr hp.2⟩)),bind_ok.mpr
      ⟨(),forM_ok.mpr h.partitions,pure_ok.mpr ?_⟩⟩⟩⟩⟩⟩⟩⟩⟩
    · refine mapM_ok.mpr (List.forall₂_map_right_iff.mpr (List.forall₂_same.mpr (fun r hr => ?_)))
      exact readyRecord_ok.mpr ⟨(hall r hr).parsed,(hall r hr).id,(hall r hr).named,(hall r hr).ready⟩
    · have hremove : (partitionIds w.checkpoints).filter (· ∉ asSet
          (((newestFirst database w.checkpoints).take keepLatest).map (·.snapshotId) ++
            plan.latestForAccount.values ++ pinned)) = plan.remove := by rw [h.remove, h.keep]
      refine Plan.ext h.keep.symm hremove ?_ h.listed.symm rfl h.count.symm
      rw [hremove, h.unpublished]

structure Left where
  checkpoints : String → Bool
  accounts : String → Bool
  storage : String → Bool

def Left.db (l : Left) (db : CheckpointDb) : CheckpointDb where
  storage := db.storage.select (fun r => l.storage r.snapshotId)
  accounts := db.accounts.select (fun r => l.accounts r.snapshotId)
  checkpoints := db.checkpoints.select (fun r => l.checkpoints r.snapshotId)

def Left.world (l : Left) (w : ReaderWorld) : ReaderWorld := { w with checkpoints := l.db w.checkpoints }

def Left.only (p : String → Bool) : Left := ⟨p,p,p⟩

def Left.drop (l : Left) (id : String) : TableName → Left
  | .checkpoints => { l with checkpoints := fun x => l.checkpoints x && x ≠ id }
  | .accounts => { l with accounts := fun x => l.accounts x && x ≠ id }
  | .storage => { l with storage := fun x => l.storage x && x ≠ id }

/-- Whatever is still ready has its rows, and what is to be kept is there. -/
structure Left.Keeps (l : Left) (keep : List String) : Prop where
  accounts : ∀ id, l.checkpoints id = true → l.accounts id = true
  storage : ∀ id, l.accounts id = true → l.storage id = true
  kept : ∀ id ∈ keep, l.checkpoints id = true

section Left
variable {l : Left} {w : ReaderWorld} {keep : List String} {id : String}

theorem select_select {ρ κ : Type} [LinearOrder κ] {key : ρ → κ} (t : Table key) (p q : ρ → Bool) :
    (t.select p).select q = t.select (fun r => p r && q r) := by
  ext r
  simp [and_assoc]

theorem select_congr {ρ κ : Type} [LinearOrder κ] {key : ρ → κ} {t : Table key} {p q : ρ → Bool}
    (h : ∀ r ∈ t.rows, p r = q r) : t.select p = t.select q := by
  ext r
  simp only [Table.mem_select]
  constructor
  · rintro ⟨hr,hp⟩
    exact ⟨hr,h r hr ▸ hp⟩
  · rintro ⟨hr,hq⟩
    exact ⟨hr,(h r hr).symm ▸ hq⟩

theorem select_all {ρ κ : Type} [LinearOrder κ] {key : ρ → κ} {t : Table key} {p : ρ → Bool}
    (h : ∀ r ∈ t.rows, p r = true) : t.select p = t := by
  ext r
  rw [Table.mem_select]
  exact ⟨fun hr => hr.1,fun hr => ⟨hr,h r hr⟩⟩

theorem drop_world (l : Left) (w : ReaderWorld) (id : String) (table : TableName) :
    { l.world w with checkpoints := dropPartition id table (l.world w).checkpoints } =
      (l.drop id table).world w := by
  cases table <;> simp only [Left.world, Left.db, Left.drop, dropPartition, select_select]

theorem mem_partitionIds {db : CheckpointDb} : id ∈ partitionIds db ↔
    (∃ r ∈ db.checkpoints.rows, r.snapshotId = id) ∨ (∃ r ∈ db.accounts.rows, r.snapshotId = id) ∨
      ∃ r ∈ db.storage.rows, r.snapshotId = id := by
  simp [partitionIds]

theorem world_congr {l' : Left} (h : ∀ id ∈ partitionIds w.checkpoints,
    l.checkpoints id = l'.checkpoints id ∧ l.accounts id = l'.accounts id ∧
      l.storage id = l'.storage id) : l.world w = l'.world w := by
  have hdb : l.db w.checkpoints = l'.db w.checkpoints := by
    unfold Left.db
    rw [select_congr (t := w.checkpoints.storage) (fun r hr =>
        (h _ (mem_partitionIds.mpr (.inr (.inr ⟨r,hr,rfl⟩)))).2.2),
      select_congr (t := w.checkpoints.accounts) (fun r hr =>
        (h _ (mem_partitionIds.mpr (.inr (.inl ⟨r,hr,rfl⟩)))).2.1),
      select_congr (t := w.checkpoints.checkpoints) (fun r hr =>
        (h _ (mem_partitionIds.mpr (.inl ⟨r,hr,rfl⟩))).1)]
  rw [Left.world, Left.world, hdb]

theorem only_world (p : String → Bool) (h : ∀ id ∈ partitionIds w.checkpoints, p id = true) :
    (Left.only p).world w = w := by
  have hdb : (Left.only p).db w.checkpoints = w.checkpoints := by
    simp only [Left.db, Left.only]
    rw [select_all (t := w.checkpoints.storage) (fun r hr =>
        h _ (mem_partitionIds.mpr (.inr (.inr ⟨r,hr,rfl⟩)))),
      select_all (t := w.checkpoints.accounts) (fun r hr =>
        h _ (mem_partitionIds.mpr (.inr (.inl ⟨r,hr,rfl⟩)))),
      select_all (t := w.checkpoints.checkpoints) (fun r hr =>
        h _ (mem_partitionIds.mpr (.inl ⟨r,hr,rfl⟩)))]
  rw [Left.world, hdb]

theorem left_partitions (hid : id ∈ partitionIds (l.world w).checkpoints) :
    id ∈ partitionIds w.checkpoints := by
  rcases mem_partitionIds.mp hid with ⟨r,hr,he⟩ | ⟨r,hr,he⟩ | ⟨r,hr,he⟩
  · exact mem_partitionIds.mpr (.inl ⟨r,(Table.mem_select.mp hr).1,he⟩)
  · exact mem_partitionIds.mpr (.inr (.inl ⟨r,(Table.mem_select.mp hr).1,he⟩))
  · exact mem_partitionIds.mpr (.inr (.inr ⟨r,(Table.mem_select.mp hr).1,he⟩))

theorem only_partitions {p : String → Bool} :
    id ∈ partitionIds ((Left.only p).world w).checkpoints ↔
      id ∈ partitionIds w.checkpoints ∧ p id = true := by
  constructor
  · intro hid
    refine ⟨left_partitions hid,?_⟩
    rcases mem_partitionIds.mp hid with ⟨r,hr,rfl⟩ | ⟨r,hr,rfl⟩ | ⟨r,hr,rfl⟩
    · exact (Table.mem_select.mp hr).2
    · exact (Table.mem_select.mp hr).2
    · exact (Table.mem_select.mp hr).2
  · rintro ⟨hid,hp⟩
    rcases mem_partitionIds.mp hid with ⟨r,hr,rfl⟩ | ⟨r,hr,rfl⟩ | ⟨r,hr,rfl⟩
    · exact mem_partitionIds.mpr (.inl ⟨r,Table.mem_select.mpr ⟨hr,hp⟩,rfl⟩)
    · exact mem_partitionIds.mpr (.inr (.inl ⟨r,Table.mem_select.mpr ⟨hr,hp⟩,rfl⟩))
    · exact mem_partitionIds.mpr (.inr (.inr ⟨r,Table.mem_select.mpr ⟨hr,hp⟩,rfl⟩))

theorem select_db (l l' : Left) (db : CheckpointDb) : l'.db (l.db db) =
    Left.db ⟨fun id => l.checkpoints id && l'.checkpoints id,
      fun id => l.accounts id && l'.accounts id,fun id => l.storage id && l'.storage id⟩ db := by
  simp only [Left.db, select_select]

theorem only_keeps : (Left.only (fun id => id ∈ keep)).Keeps keep :=
  ⟨fun _ h => h,fun _ h => h,fun _ h => decide_eq_true h⟩

theorem all_keeps : (Left.only (fun _ => true)).Keeps keep := ⟨fun _ h => h,fun _ h => h,fun _ _ => rfl⟩

theorem keeps_again {l' : Left} (h : l.Keeps keep) (h' : l'.Keeps keep) :
    ∃ both : Left, both.Keeps keep ∧ l'.world (l.world w) = both.world w := by
  refine ⟨_,⟨fun id hc => ?_,fun id ha => ?_,fun id hk => ?_⟩,
    congrArg (fun db => { w with checkpoints := db }) (select_db l l' w.checkpoints)⟩
  · obtain ⟨hc,hc'⟩ := Bool.and_eq_true_iff.mp hc
    exact Bool.and_eq_true_iff.mpr ⟨h.accounts id hc,h'.accounts id hc'⟩
  · obtain ⟨ha,ha'⟩ := Bool.and_eq_true_iff.mp ha
    exact Bool.and_eq_true_iff.mpr ⟨h.storage id ha,h'.storage id ha'⟩
  · exact Bool.and_eq_true_iff.mpr ⟨h.kept id hk,h'.kept id hk⟩

theorem only_left (h : l.Keeps keep) : (Left.only (fun id => id ∈ keep)).world (l.world w) =
    (Left.only (fun id => id ∈ keep)).world w := by
  have hand : ∀ q : String → Bool, (∀ id, l.checkpoints id = true → q id = true) →
      ∀ id, (q id && decide (id ∈ keep)) = decide (id ∈ keep) := by
    intro q hq id
    by_cases hk : id ∈ keep
    · simp [hk, hq id (h.kept id hk)]
    · simp [hk]
  simp only [Left.world, Left.db, Left.only, select_select, hand _ (fun _ h => h),
    hand _ h.accounts, hand _ (fun id hc => h.storage id (h.accounts id hc))]

/-- Dropping a snapshot's partitions in the order of the tables keeps this at
each step. -/
theorem removeSnapshot_triple (hid : id ∉ keep) (hl : l.Keeps keep) :
    Triple (fun t => t = l.world w) (removeSnapshot id)
      (fun _ t => ∃ l' : Left, l'.Keeps keep ∧ t = l'.world w ∧ l'.storage id = false ∧
        ∀ x, l.storage x = false → l'.storage x = false)
      (fun t => ∃ l' : Left, l'.Keeps keep ∧ t = l'.world w) := by
  have h1 : (l.drop id .checkpoints).Keeps keep := by
    refine ⟨fun x hx => hl.accounts x (Bool.and_eq_true_iff.mp hx).1,hl.storage,fun x hx => ?_⟩
    exact Bool.and_eq_true_iff.mpr ⟨hl.kept x hx,decide_eq_true (fun he => hid (he ▸ hx))⟩
  have h2 : ((l.drop id .checkpoints).drop id .accounts).Keeps keep := by
    refine ⟨fun x hx => ?_,fun x hx => hl.storage x (Bool.and_eq_true_iff.mp hx).1,h1.kept⟩
    exact Bool.and_eq_true_iff.mpr ⟨h1.accounts x hx,(Bool.and_eq_true_iff.mp hx).2⟩
  have h3 : (((l.drop id .checkpoints).drop id .accounts).drop id .storage).Keeps keep := by
    refine ⟨h2.accounts,fun x hx => ?_,h2.kept⟩
    exact Bool.and_eq_true_iff.mpr ⟨h2.storage x hx,(Bool.and_eq_true_iff.mp hx).2⟩
  refine triple_perform_then (fun t ht => ⟨l,hl,ht⟩) (fun t ht => ?_)
  rw [ht, drop_world]
  refine triple_perform_then (fun t ht => ⟨_,h1,ht⟩) (fun t ht => ?_)
  rw [ht, drop_world]
  refine triple_perform_then (fun t ht => ⟨_,h2,ht⟩) (fun t ht => triple_pure () (fun t' ht' => ?_))
  rw [ht, drop_world] at ht'
  exact ⟨_,h3,ht',by simp [Left.drop],fun x hx => by simp [Left.drop, hx]⟩

theorem removeSnapshots_triple {ids : List String} (hids : ∀ id ∈ ids, id ∉ keep)
    (hl : l.Keeps keep) : Triple (fun t => t = l.world w) (ids.forM removeSnapshot)
      (fun _ t => ∃ l' : Left, l'.Keeps keep ∧ t = l'.world w ∧
        (∀ id ∈ ids, l'.storage id = false) ∧ ∀ x, l.storage x = false → l'.storage x = false)
      (fun t => ∃ l' : Left, l'.Keeps keep ∧ t = l'.world w) := by
  induction ids generalizing l with
  | nil => exact triple_pure () (fun t ht => ⟨l,hl,ht,by simp,fun _ h => h⟩)
  | cons id ids ih =>
    obtain ⟨hid,hids⟩ := List.forall_mem_cons.mp hids
    refine triple_bind (removeSnapshot_triple hid hl) (fun _ => triple_from (fun s hs => ?_))
    obtain ⟨l1,h1,rfl,hgone,hmono⟩ := hs
    refine (ih hids h1).weaken (fun _ h => h) ?_ (fun _ h => h)
    rintro _ t ⟨l2,h2,ht,hall,hmore⟩
    exact ⟨l2,h2,ht,List.forall_mem_cons.mpr ⟨hmore id hgone,hall⟩,fun x hx => hmore x (hmono x hx)⟩

end Left

section Prune
variable {database : Database} {w : ReaderWorld} {keepLatest : ℕ} {plan : Plan} {l : Left}

theorem Planned.mem_remove {pins : List Json} {pinned : List String}
    (h : Planned database w keepLatest plan pins pinned) {id : String} :
    id ∈ plan.remove ↔ id ∈ partitionIds w.checkpoints ∧ id ∉ plan.keep := by
  rw [h.remove, List.mem_filter, decide_eq_true_eq]

/-- A prune that returns leaves exactly what its plan keeps; one that stops
leaves at least that. -/
theorem prune_triple (database : Database) (w : ReaderWorld) (keepLatest : ℕ) :
    Triple (fun t => t = w) (prune database keepLatest)
      (fun plan t => planUnlocked database w keepLatest = .ok plan ∧
        t = (Left.only (fun id => id ∈ plan.keep)).world w)
      (fun t => t = w ∨ ∃ (plan : Plan) (l : Left), planUnlocked database w keepLatest = .ok plan ∧
        l.Keeps plan.keep ∧ t = l.world w) := by
  refine triple_next_then (fun t ht => .inl ht) (triple_query_then (fun t ht => .inl ht)
    (fun s plan hs hplan => triple_next_then (fun t ht => .inl (ht.trans hs)) ?_))
  obtain rfl := hs
  obtain ⟨pins,pinned,h⟩ := planUnlocked_ok.mp hplan
  have hids : ∀ id ∈ plan.remove, id ∉ plan.keep := fun id hid => (h.mem_remove.mp hid).2
  have hstart : ∀ t : ReaderWorld, t = s → t = (Left.only (fun _ => true)).world s := by
    rintro t rfl
    exact (only_world _ (fun _ _ => rfl)).symm
  refine triple_bind ((removeSnapshots_triple hids all_keeps).weaken hstart (fun _ _ h => h) ?_)
    (fun _ => triple_next_then ?_ (triple_pure plan ?_))
  · rintro t ⟨l,hl,ht⟩
    exact .inr ⟨plan,l,hplan,hl,ht⟩
  · rintro t ⟨l,hl,ht,-⟩
    exact .inr ⟨plan,l,hplan,hl,ht⟩
  · rintro t ⟨l,hl,ht,hgone,-⟩
    refine ⟨hplan,ht.trans (world_congr (fun id hid => ?_))⟩
    by_cases hk : id ∈ plan.keep
    · have hc := hl.kept id hk
      simp [Left.only, hk, hc, hl.accounts id hc, hl.storage id (hl.accounts id hc)]
    · have hs : l.storage id = false := hgone id (h.mem_remove.mpr ⟨hid,hk⟩)
      have ha : l.accounts id = false := Bool.eq_false_iff.mpr (fun ha =>
        absurd (hl.storage id ha) (by simp [hs]))
      have hc : l.checkpoints id = false := Bool.eq_false_iff.mpr (fun hc =>
        absurd (hl.accounts id hc) (by simp [ha]))
      simp [Left.only, hk, hs, ha, hc]

theorem prune_left (h : planUnlocked database w keepLatest = .ok plan) (script : List (Option String)) :
    ∃ l : Left, l.Keeps plan.keep ∧ ends (prune database keepLatest) ⟨w,script⟩ = l.world w := by
  refine Triple.ends (C := fun t => ∃ l : Left, l.Keeps plan.keep ∧ t = l.world w)
    ((prune_triple database w keepLatest).weaken (fun _ h => h) ?_ ?_) rfl
  · rintro plan' t ⟨hplan,ht⟩
    obtain rfl := Except.ok.inj (h.symm.trans hplan)
    exact ⟨_,only_keeps,ht⟩
  · rintro t (ht | ⟨plan',l,hplan,hl,ht⟩)
    · exact ⟨_,all_keeps,ht.trans (only_world _ (fun _ _ => rfl)).symm⟩
    · obtain rfl := Except.ok.inj (h.symm.trans hplan)
      exact ⟨l,hl,ht⟩

theorem prune_unplanned (h : ∀ plan, planUnlocked database w keepLatest ≠ .ok plan)
    (script : List (Option String)) : ends (prune database keepLatest) ⟨w,script⟩ = w := by
  refine Triple.ends (C := fun t => t = w)
    ((prune_triple database w keepLatest).weaken (fun _ h => h) ?_ ?_) rfl
  · rintro plan t ⟨hplan,-⟩
    exact absurd hplan (h plan)
  · rintro t (ht | ⟨plan,l,hplan,-⟩)
    · exact ht
    · exact absurd hplan (h plan)

theorem pinsUnlocked_mem {pins : List Json} (h : pinsUnlocked w = .ok pins) {stem : String}
    {record : Json} (hp : w.pins.get? stem = some record) : record ∈ pins := by
  obtain ⟨found,hfound,h⟩ := bind_ok.mp h
  obtain rfl := pure_ok.mp h
  obtain ⟨e,he,hread⟩ := (Timeline.exists_related (mapM_ok.mp hfound)).1 stem
    (SortedMap.mem_keys.mpr ⟨record,hp⟩)
  obtain ⟨record',hpin,hread⟩ := bind_ok.mp hread
  obtain ⟨created,-,hread⟩ := bind_ok.mp hread
  obtain rfl := pure_ok.mp hread
  obtain ⟨_,-,hpin⟩ := bind_ok.mp hpin
  obtain ⟨found',hget,hpin⟩ := bind_ok.mp hpin
  obtain ⟨_,-,hpin⟩ := bind_ok.mp hpin
  obtain ⟨_,-,hpin⟩ := bind_ok.mp hpin
  obtain ⟨_,-,hpin⟩ := bind_ok.mp hpin
  obtain rfl := pure_ok.mp hpin
  obtain rfl := Option.some.inj (hp.symm.trans (context_ok.mp hget))
  exact List.mem_map.mpr ⟨_,(List.mem_insertionSort _).mpr he,rfl⟩

theorem age_le {a b : CheckpointRow} (h : rank database a ≤ rank database b) : age a ≤ age b := by
  rcases Prod.Lex.toLex_le_toLex.mp h with hlt | ⟨he,-⟩
  · exact hlt.le
  · exact he.le

theorem rank_count {rows : List CheckpointRow} {r : CheckpointRow} :
    (rows.filter (fun b => rank database r ≤ rank database b)).length ≤
      (rows.filter (fun b => age r ≤ age b)).length :=
  (List.monotone_filter_right rows (fun _ hb => decide_eq_true
    (age_le (of_decide_eq_true hb)))).length_le

def Pinned (w : ReaderWorld) (id : String) : Prop :=
  ∃ stem record, w.pins.get? stem = some record ∧ record.index "snapshot_id" = .str id

section Planned
variable {pins : List Json} {pinned : List String} (h : Planned database w keepLatest plan pins pinned)
include h

theorem Planned.mem_keep {id : String} : id ∈ plan.keep ↔
    id ∈ ((newestFirst database w.checkpoints).take keepLatest).map (·.snapshotId) ∨
      (∃ a, ((newestFirst database w.checkpoints).find?
        (selects database.fromSlice a)).map (·.snapshotId) = some id) ∨
      id ∈ pinned := by
  rw [h.keep, mem_asSet, List.mem_append, List.mem_append, SortedMap.mem_values, or_assoc]
  simp only [h.latest]

theorem Planned.keeps_pinned {id : String} (hp : Pinned w id) : id ∈ plan.keep := by
  obtain ⟨stem,record,hget,hid⟩ := hp
  obtain ⟨id',hmem,hname,-⟩ := (Timeline.exists_related h.naming).1 _ (pinsUnlocked_mem h.listing hget)
  obtain rfl := Except.ok.inj ((string_index hid).symm.trans hname)
  exact h.mem_keep.mpr (.inr (.inr hmem))

theorem Planned.keeps_newest {r : CheckpointRow} (hr : r ∈ w.checkpoints.checkpoints.rows)
    (hk : (w.checkpoints.checkpoints.rows.filter (fun b => age r ≤ age b)).length ≤ keepLatest) :
    r.snapshotId ∈ plan.keep :=
  h.mem_keep.mpr (.inl (List.mem_map_of_mem (mem_take_newest hr (rank_count.trans hk))))

theorem Planned.keep_ready {id : String} (hk : id ∈ plan.keep) :
    ∃ r ∈ w.checkpoints.checkpoints.rows, r.snapshotId = id := by
  rcases h.mem_keep.mp hk with hk | ⟨a,hk⟩ | hk
  · obtain ⟨r,hr,rfl⟩ := List.mem_map.mp hk
    exact ⟨r,mem_newest.mp (List.mem_of_mem_take hr),rfl⟩
  · obtain ⟨r,hr,rfl⟩ := Option.map_eq_some_iff.mp hk
    exact ⟨r,mem_newest.mp (List.mem_of_find?_eq_some hr),rfl⟩
  · obtain ⟨_,-,-,hid⟩ := (Timeline.exists_related h.naming).2 id hk
    exact List.mem_map.mp hid

/-- For each account that a ready row selects, the plan keeps one that
selects it and is as new. -/
theorem Planned.keeps_account {account : String} {r : CheckpointRow}
    (hr : r ∈ w.checkpoints.checkpoints.rows) (hs : selects database.fromSlice account r = true) :
    ∃ r' ∈ w.checkpoints.checkpoints.rows, r'.snapshotId ∈ plan.keep ∧
      selects database.fromSlice account r' = true ∧ age r ≤ age r' := by
  obtain ⟨r',hfind⟩ := find?_some_of_mem (rank database) hr hs
  refine ⟨r',mem_newest.mp (List.mem_of_find?_eq_some hfind),?_,List.find?_some hfind,
    age_le (find?_newest hfind hr hs)⟩
  exact h.mem_keep.mpr (.inr (.inl ⟨account,by rw [newestFirst, hfind]; rfl⟩))

/-- What is left of a database has the same newest rows, so that planning
again keeps the same snapshots. -/
theorem Planned.again (hl : l.Keeps plan.keep) : ∃ plan',
    Planned database (l.world w) keepLatest plan' pins pinned ∧ plan'.keep = plan.keep ∧
      plan'.latestForAccount = plan.latestForAccount ∧ plan'.pins = plan.pins := by
  have hrows : newestFirst database (l.world w).checkpoints =
      (newestFirst database w.checkpoints).filter (fun r => l.checkpoints r.snapshotId) :=
    (newest_filter _ _).symm
  have htake : (newestFirst database (l.world w).checkpoints).take keepLatest =
      (newestFirst database w.checkpoints).take keepLatest := by
    rw [hrows]
    refine take_filter (fun r hr => hl.kept _ ?_)
    exact h.mem_keep.mpr (.inl (List.mem_map_of_mem hr))
  have hfind : ∀ a, (newestFirst database (l.world w).checkpoints).find? (selects database.fromSlice a) =
      (newestFirst database w.checkpoints).find? (selects database.fromSlice a) := by
    intro a
    rw [hrows]
    refine find?_filter (fun r hr => hl.kept _ ?_)
    exact h.mem_keep.mpr (.inr (.inl ⟨a,by rw [hr]; rfl⟩))
  let remove := (partitionIds (l.world w).checkpoints).filter (· ∉ plan.keep)
  refine ⟨⟨plan.keep,remove,remove.filter (· ∉ (newestFirst database (l.world w).checkpoints).map
    (·.snapshotId)),plan.pins,plan.latestForAccount,keepLatest⟩,⟨h.positive,h.schema,
    fun r hr => h.readable r (Table.mem_select.mp hr).1,
    h.listing,?_,fun id hid => h.partitions id (left_partitions hid),fun a => by rw [h.latest, hfind],
    by rw [htake]; exact h.keep,rfl,rfl,h.listed,rfl⟩,rfl,rfl,rfl⟩
  refine (List.forall₂_iff_zip.mpr ⟨h.naming.length_eq,fun {pin id} hm => ?_⟩)
  obtain ⟨hname,hid⟩ := (List.forall₂_iff_zip.mp h.naming).2 hm
  obtain ⟨r,hr,rfl⟩ := List.mem_map.mp hid
  refine ⟨hname,List.mem_map.mpr ⟨r,Table.mem_select.mpr ⟨hr,hl.kept _ ?_⟩,rfl⟩⟩
  exact h.mem_keep.mpr (.inr (.inr (List.of_mem_zip hm).2))

end Planned

theorem left_rows (hl : l.Keeps plan.keep) {r : CheckpointRow}
    (hr : r ∈ (l.world w).checkpoints.checkpoints.rows) :
    r ∈ w.checkpoints.checkpoints.rows ∧
      accountsOf (l.world w).checkpoints r.snapshotId = accountsOf w.checkpoints r.snapshotId ∧
      storageOf (l.world w).checkpoints r.snapshotId = storageOf w.checkpoints r.snapshotId := by
  obtain ⟨hr,hc⟩ := Table.mem_select.mp hr
  have hsame : ∀ {ρ : Type} (rows : List ρ) (id : ρ → String) (p : String → Bool),
      p r.snapshotId = true → (rows.filter (fun x => p (id x))).filter
        (fun x => id x = r.snapshotId) = rows.filter (fun x => id x = r.snapshotId) := by
    intro ρ rows id p hp
    rw [List.filter_filter]
    refine List.filter_congr (fun x _ => ?_)
    by_cases hx : id x = r.snapshotId <;> simp [hx, hp]
  exact ⟨hr,hsame _ _ _ (hl.accounts _ hc),hsame _ _ _ (hl.storage _ (hl.accounts _ hc))⟩

/-- What a prune keeps wherever it stops: the checkpoints that are still ready
have all their rows, and the pinned ones, the newest ones, for each account one
as new as any that selects it and whatever cannot be read are still ready. -/
structure Pruned (fromSlice : Bytes → Option Json) (keepLatest : ℕ) (w t : ReaderWorld) : Prop where
  controlId : t.controlId = w.controlId
  pins : t.pins = w.pins
  partitions : ∀ id ∈ partitionIds t.checkpoints, id ∈ partitionIds w.checkpoints
  rows : ∀ r ∈ t.checkpoints.checkpoints.rows, r ∈ w.checkpoints.checkpoints.rows ∧
    accountsOf t.checkpoints r.snapshotId = accountsOf w.checkpoints r.snapshotId ∧
    storageOf t.checkpoints r.snapshotId = storageOf w.checkpoints r.snapshotId
  pinned : ∀ r ∈ w.checkpoints.checkpoints.rows, Pinned w r.snapshotId →
    r ∈ t.checkpoints.checkpoints.rows
  newest : ∀ r ∈ w.checkpoints.checkpoints.rows,
    (w.checkpoints.checkpoints.rows.filter (fun b => age r ≤ age b)).length ≤ keepLatest →
      r ∈ t.checkpoints.checkpoints.rows
  account : ∀ account, ∀ r ∈ w.checkpoints.checkpoints.rows, selects fromSlice account r = true →
    ∃ r' ∈ t.checkpoints.checkpoints.rows, selects fromSlice account r' = true ∧ age r ≤ age r'
  unread : ∀ r ∈ w.checkpoints.checkpoints.rows, ¬Readable fromSlice r →
    r ∈ t.checkpoints.checkpoints.rows

theorem left_pruned (h : planUnlocked database w keepLatest = .ok plan) (hl : l.Keeps plan.keep) :
    Pruned database.fromSlice keepLatest w (l.world w) := by
  obtain ⟨pins,pinned,h⟩ := planUnlocked_ok.mp h
  have hleft : ∀ r ∈ w.checkpoints.checkpoints.rows, r.snapshotId ∈ plan.keep →
      r ∈ (l.world w).checkpoints.checkpoints.rows := fun r hr hk =>
    Table.mem_select.mpr ⟨hr,hl.kept _ hk⟩
  refine ⟨rfl,rfl,fun _ hid => left_partitions hid,fun r hr => left_rows hl hr,
    fun r hr hp => hleft r hr (h.keeps_pinned hp),fun r hr hk => hleft r hr (h.keeps_newest hr hk),
    fun account r hr hs => ?_,fun r hr hn => absurd (h.readable r hr) hn⟩
  obtain ⟨r',hr',hk,hs',hage⟩ := h.keeps_account hr hs
  exact ⟨r',hleft r' hr' hk,hs',hage⟩

theorem pruned_self (fromSlice : Bytes → Option Json) (keepLatest : ℕ) (w : ReaderWorld) :
    Pruned fromSlice keepLatest w w :=
  ⟨rfl,rfl,fun _ h => h,fun _ hr => ⟨hr,rfl,rfl⟩,fun _ hr _ => hr,fun _ hr _ => hr,
    fun _ r hr hs => ⟨r,hr,hs,le_rfl⟩,fun _ hr _ => hr⟩

theorem prune_pruned (database : Database) (w : ReaderWorld) (keepLatest : ℕ)
    (script : List (Option String)) :
    Pruned database.fromSlice keepLatest w (ends (prune database keepLatest) ⟨w,script⟩) := by
  by_cases hplan : ∃ plan, planUnlocked database w keepLatest = .ok plan
  · obtain ⟨plan,hplan⟩ := hplan
    obtain ⟨l,hl,ht⟩ := prune_left hplan script
    exact ht ▸ left_pruned hplan hl
  · rw [prune_unplanned (fun plan hp => hplan ⟨plan,hp⟩) script]
    exact pruned_self database.fromSlice keepLatest w

def prunes (database : Database) (keepLatest : ℕ) (w : ReaderWorld)
    (scripts : List (List (Option String))) : ReaderWorld :=
  scripts.foldl (fun w script => ends (prune database keepLatest) ⟨w,script⟩) w

theorem replan (h : planUnlocked database w keepLatest = .ok plan) (hl : l.Keeps plan.keep) :
    ∃ plan', planUnlocked database (l.world w) keepLatest = .ok plan' ∧ plan'.keep = plan.keep ∧
      plan'.latestForAccount = plan.latestForAccount ∧ plan'.pins = plan.pins := by
  obtain ⟨pins,pinned,hp⟩ := planUnlocked_ok.mp h
  obtain ⟨plan',hp',hsame⟩ := hp.again hl
  exact ⟨plan',planUnlocked_ok.mpr ⟨pins,pinned,hp'⟩,hsame⟩

theorem prunes_left (h : planUnlocked database w keepLatest = .ok plan)
    (scripts : List (List (Option String))) :
    ∃ l : Left, l.Keeps plan.keep ∧ prunes database keepLatest w scripts = l.world w := by
  induction scripts generalizing w plan with
  | nil => exact ⟨_,all_keeps,(only_world _ (fun _ _ => rfl)).symm⟩
  | cons script scripts ih =>
    obtain ⟨l,hl,hone⟩ := prune_left h script
    obtain ⟨plan',hplan',hkeep,-⟩ := replan h hl
    obtain ⟨l',hl',hrest⟩ := ih hplan'
    obtain ⟨both,hboth,hworld⟩ := keeps_again hl (hkeep ▸ hl')
    refine ⟨both,hboth,?_⟩
    rw [prunes, List.foldl_cons, hone, ← prunes, hrest, hworld]

theorem removeSnapshots_runs (ids : List String) (w : ReaderWorld) :
    ∃ t, Runs (ids.forM removeSnapshot) w () t := by
  induction ids generalizing w with
  | nil => exact ⟨w,rfl⟩
  | cons id ids ih =>
    obtain ⟨s,hs⟩ : ∃ s, Runs (removeSnapshot id) w () s :=
      ⟨_,runs_perform (runs_perform (runs_perform (runs_pure () _)))⟩
    obtain ⟨t,ht⟩ := ih s
    exact ⟨t,runs_bind hs ht⟩

theorem prune_runs (h : planUnlocked database w keepLatest = .ok plan) :
    Runs (prune database keepLatest) w plan ((Left.only (fun id => id ∈ plan.keep)).world w) := by
  obtain ⟨t,ht⟩ := removeSnapshots_runs plan.remove w
  have hruns : Runs (prune database keepLatest) w plan t :=
    runs_next (runs_query h (runs_next (runs_bind ht (runs_next (runs_pure plan t)))))
  obtain ⟨-,hw⟩ := (prune_triple database w keepLatest).ok (h := ⟨w,[]⟩) rfl hruns
  exact hw ▸ hruns

theorem prune_ends (h : planUnlocked database w keepLatest = .ok plan) :
    ends (prune database keepLatest) ⟨w,[]⟩ = (Left.only (fun id => id ∈ plan.keep)).world w := by
  rw [ends, prune_runs h]

/-- However often a prune was interrupted, nothing that it has to keep is gone,
planning again keeps the same snapshots, the next prune that returns ends where
one without interruptions would have ended, and after it there is nothing left
to remove. -/
theorem prune_resumes (database : Database) (w : ReaderWorld) (keepLatest : ℕ)
    (scripts : List (List (Option String))) :
    let t := prunes database keepLatest w scripts
    let done := ends (prune database keepLatest) ⟨w,[]⟩
    Pruned database.fromSlice keepLatest w t ∧ (∀ plan, planUnlocked database w keepLatest = .ok plan →
      returns (prune database keepLatest) ⟨t,[]⟩ = true ∧
      (∃ plan', planUnlocked database t keepLatest = .ok plan' ∧ plan'.keep = plan.keep ∧
        plan'.latestForAccount = plan.latestForAccount ∧ plan'.pins = plan.pins) ∧
      ∀ id, id ∈ partitionIds done.checkpoints ↔
        id ∈ partitionIds w.checkpoints ∧ id ∈ plan.keep) ∧
      (∀ script, returns (prune database keepLatest) ⟨t,script⟩ = true →
        ends (prune database keepLatest) ⟨t,script⟩ = done) ∧
      ∀ plan, planUnlocked database done keepLatest = .ok plan → plan.remove = [] := by
  intro t done
  by_cases hplan : ∃ plan, planUnlocked database w keepLatest = .ok plan
  · obtain ⟨plan,hplan⟩ := hplan
    obtain ⟨l,hl,ht⟩ := prunes_left hplan scripts
    obtain ⟨plan',hplan',hsame⟩ := replan hplan hl
    have hdone : done = (Left.only (fun id => id ∈ plan.keep)).world w := prune_ends hplan
    have hids : ∀ id, id ∈ partitionIds done.checkpoints ↔
        id ∈ partitionIds w.checkpoints ∧ id ∈ plan.keep := by
      intro id
      rw [hdone, only_partitions, decide_eq_true_eq]
    rw [show t = l.world w from ht]
    refine ⟨left_pruned hplan hl,fun plan₁ hplan₁ => ?_,fun script hr => ?_,fun plan₁ hplan₁ => ?_⟩
    · obtain rfl := Except.ok.inj (hplan.symm.trans hplan₁)
      refine ⟨?_,⟨plan',hplan',hsame⟩,hids⟩
      rw [returns, prune_runs hplan']
    · obtain ⟨out,hout,hw⟩ := (Triple.outcome (h := ⟨l.world w,script⟩)
        (prune_triple database (l.world w) keepLatest) rfl).1 hr
      obtain rfl := Except.ok.inj (hplan'.symm.trans hout)
      rw [hw, hsame.1, only_left hl, hdone]
    · obtain ⟨pins,pinned,h₁⟩ := planUnlocked_ok.mp hplan₁
      obtain ⟨plan₂,hplan₂,hkeep,-⟩ := replan hplan only_keeps
      rw [hdone] at hplan₁
      obtain rfl := Except.ok.inj (hplan₂.symm.trans hplan₁)
      refine List.eq_nil_iff_forall_not_mem.mpr (fun id hid => ?_)
      obtain ⟨hpart,hnot⟩ := h₁.mem_remove.mp hid
      exact hnot (hkeep ▸ ((hids id).mp hpart).2)
  · have hno : ∀ plan, planUnlocked database w keepLatest ≠ .ok plan := fun plan hp => hplan ⟨plan,hp⟩
    have hstay : ∀ scripts, prunes database keepLatest w scripts = w := by
      intro scripts
      induction scripts with
      | nil => rfl
      | cons script scripts ih => rw [prunes, List.foldl_cons, prune_unplanned hno, ← prunes, ih]
    rw [show t = w from hstay scripts, show done = w from prune_unplanned hno []]
    exact ⟨pruned_self database.fromSlice keepLatest w,fun plan hp => absurd hp (hno plan),
      fun script _ => prune_unplanned hno script,fun plan hp => absurd hp (hno plan)⟩

end Prune

end EvmState.Retention
