import EvmState.Importer
import EvmState.Retention

/-!
# Publishers, readers and retention over one store

One publisher at a time builds or imports a checkpoint, any number of readers
pin, unpin and read beside it, and retention runs only when it is alone. Each
of them can stop between any two of its steps. Whatever the order of their
steps, a ready checkpoint keeps the rows that it was published with, a pinned
one stays, and every account keeps a checkpoint as new as any that was ever
published for it.
-/

set_option autoImplicit false

namespace EvmState.Sharing
open EvmState.Hex EvmState.Fallible EvmState.OrderedMap EvmState.Store EvmState.Encoding EvmState.Params
open EvmState.Bootstrap EvmState.Crash EvmState.Reader EvmState.Proof EvmState.Build
open EvmState.Publication EvmState.Portable EvmState.Importer EvmState.Retention EvmState.Checksum

/-- What a publisher runs. -/
inductive Attempt where
  | build (worlds : String → SourceWorld) (bundle : Json) (sources : List Source)
      (baseId : Option String)
  | restore (manifest : Except String Opened) (first second : Disk) (expectedHash : Option String)

/-- A publisher, with the database as it found it and its new identifier. -/
structure Publishing where
  start : CheckpointDb
  snapshotId : String
  attempt : Attempt
  createdAt : ℕ
  budgetBytes : ℕ

inductive Task where
  | idle
  | pinning (pinId : String) (record : Json)
  | unpinning (pinId : String)

structure Reading where
  since : CheckpointDb
  task : Task

structure Published where
  row : CheckpointRow
  accounts : List AccountRow
  storage : List StorageRow

structure System where
  world : ReaderWorld
  publisher : Option Publishing
  readers : List Reading
  published : List Published

def System.db (s : System) : CheckpointDb := s.world.checkpoints

def System.setDb (s : System) (db : CheckpointDb) : System :=
  { s with world := { s.world with checkpoints := db } }

def System.setPins (s : System) (pins : SortedMap String Json) : System :=
  { s with world := { s.world with pins := pins } }

/-- What is published under an identifier: its ready row with the rows that are
stored for it. -/
def publishedAs (db : CheckpointDb) (snapshotId : String) : List Published :=
  (db.checkpoints.rows.filter (fun r => r.snapshotId = snapshotId)).map
    (fun r => ⟨r,accountsOf db snapshotId,storageOf db snapshotId⟩)

def newPin (fromSlice : Bytes → Option Json) (w : ReaderWorld) (snapshotId purpose pinId : String)
    (createdAt : ℕ) : Except String Json := do
  let ready ← manifest fromSlice w.checkpoints snapshotId
  return .ofPairs [("pin_id",.str pinId),("snapshot_id",.str snapshotId),
    ("control_id",.str w.controlId),("created_at",.ofNat createdAt),("purpose",.str purpose),
    ("header",ready.index "header")]

section Steps
variable (tables : Tables) (codec : Codec) (alloy : Alloy) (platform : Platform)
  (describe : Source → Json)

def Publishing.stop (p : Publishing) (script : List (Option String)) : CheckpointDb :=
  match p.attempt with
  | .build worlds bundle sources baseId =>
    ends (buildUnlocked platform alloy worlds describe bundle sources baseId p.snapshotId p.createdAt
      p.budgetBytes) ⟨p.start,script⟩
  | .restore manifest first second expectedHash =>
    ends (importCheckpoint tables codec alloy platform manifest first second expectedHash
      p.snapshotId p.createdAt p.budgetBytes) ⟨p.start,script⟩

/-- One step of one party. A publisher excludes other publishers and
retention, a reader excludes retention. -/
inductive Step : System → System → Prop
  | publisherEnters {s : System} (p : Publishing) : s.publisher = none → p.start = s.db →
      objectId p.snapshotId = .ok () → Unused s.db p.snapshotId →
      Step s { s with publisher := some p }
  | publisherWrites {s : System} (p : Publishing) (script : List (Option String)) :
      s.publisher = some p →
      publishedAs (p.stop tables codec alloy platform describe script) p.snapshotId = [] →
      Step s (s.setDb (p.stop tables codec alloy platform describe script))
  -- the ready row is stored, whether or not the publisher learns of it
  | publisherPublishes {s : System} (p : Publishing) (script : List (Option String)) :
      s.publisher = some p →
      publishedAs (p.stop tables codec alloy platform describe script) p.snapshotId ≠ [] →
      Step s { s.setDb (p.stop tables codec alloy platform describe script) with
        publisher := none
        published := publishedAs (p.stop tables codec alloy platform describe script) p.snapshotId ++
          s.published }
  | publisherLeaves {s : System} : Step s { s with publisher := none }
  | readerEnters {s : System} : Step s { s with readers := ⟨s.db,.idle⟩::s.readers }
  | readerChecks {s : System} (before after : List Reading) (since : CheckpointDb)
      (snapshotId purpose pinId : String) (createdAt : ℕ) (record : Json) :
      s.readers = before++⟨since,.idle⟩::after → objectId pinId = .ok () → createdAt < 2^64 →
      newPin platform.fromSlice s.world snapshotId purpose pinId createdAt = .ok record →
      Step s { s with readers := before++⟨since,.pinning pinId record⟩::after }
  | readerPins {s : System} (before after : List Reading) (since : CheckpointDb) (pinId : String)
      (record : Json) : s.readers = before++⟨since,.pinning pinId record⟩::after →
      s.world.pins.get? pinId = none →
      Step s { s.setPins (s.world.pins.insert pinId record) with
        readers := before++⟨since,.idle⟩::after }
  | readerFinds {s : System} (before after : List Reading) (since : CheckpointDb) (pinId : String)
      (record : Json) : s.readers = before++⟨since,.idle⟩::after →
      readPin s.world pinId = .ok record →
      Step s { s with readers := before++⟨since,.unpinning pinId⟩::after }
  | readerUnpins {s : System} (before after : List Reading) (since : CheckpointDb) (pinId : String) :
      s.readers = before++⟨since,.unpinning pinId⟩::after →
      Step s { s.setPins (s.world.pins.retain (fun p _ => p ≠ pinId)) with
        readers := before++⟨since,.idle⟩::after }
  | readerLeaves {s : System} (before after : List Reading) (r : Reading) :
      s.readers = before++r::after → Step s { s with readers := before++after }
  | retention {s : System} (database : Database) (keepLatest : ℕ) (script : List (Option String)) :
      s.publisher = none → s.readers = [] → database.fromSlice = platform.fromSlice →
      Step s { s with world := ends (prune database keepLatest) ⟨s.world,script⟩ }

/-- The states that any interleaving reaches from an empty store. -/
inductive Reachable : System → Prop
  | start (controlId : String) : Reachable ⟨⟨controlId,.empty,.empty⟩,none,[],[]⟩
  | step {s t : System} : Reachable s → Step tables codec alloy platform describe s t → Reachable t

end Steps

structure Stable (db t : CheckpointDb) : Prop where
  checkpoints : ∀ r ∈ db.checkpoints.rows, r ∈ t.checkpoints.rows
  accounts : ∀ r ∈ db.checkpoints.rows, accountsOf t r.snapshotId = accountsOf db r.snapshotId
  storage : ∀ r ∈ db.checkpoints.rows, storageOf t r.snapshotId = storageOf db r.snapshotId

theorem Stable.refl (db : CheckpointDb) : Stable db db := ⟨fun _ h => h,fun _ _ => rfl,fun _ _ => rfl⟩

theorem Stable.trans {a b c : CheckpointDb} (h : Stable a b) (h' : Stable b c) : Stable a c :=
  ⟨fun r hr => h'.checkpoints r (h.checkpoints r hr),
    fun r hr => (h'.accounts r (h.checkpoints r hr)).trans (h.accounts r hr),
    fun r hr => (h'.storage r (h.checkpoints r hr)).trans (h.storage r hr)⟩

section Kept
variable {snapshotId other : String} {start db t : CheckpointDb}

theorem kept_accountsOf (h : Kept snapshotId db t) (hne : other ≠ snapshotId) :
    accountsOf t other = accountsOf db other := by
  have hselect : t.accounts.select (fun r => r.snapshotId = other) =
      db.accounts.select (fun r => r.snapshotId = other) := by
    ext r
    simp only [Table.mem_select, decide_eq_true_eq]
    constructor
    · rintro ⟨hr,rfl⟩
      exact ⟨(h.accounts r hne).mp hr,rfl⟩
    · rintro ⟨hr,rfl⟩
      exact ⟨(h.accounts r hne).mpr hr,rfl⟩
  exact congrArg Table.rows hselect

theorem kept_storageOf (h : Kept snapshotId db t) (hne : other ≠ snapshotId) :
    storageOf t other = storageOf db other := by
  have hselect : t.storage.select (fun r => r.snapshotId = other) =
      db.storage.select (fun r => r.snapshotId = other) := by
    ext r
    simp only [Table.mem_select, decide_eq_true_eq]
    constructor
    · rintro ⟨hr,rfl⟩
      exact ⟨(h.storage r hne).mp hr,rfl⟩
    · rintro ⟨hr,rfl⟩
      exact ⟨(h.storage r hne).mpr hr,rfl⟩
  exact congrArg Table.rows hselect

/-- Two states of one publication differ only under its identifier. -/
theorem publication_stable (hn : Unused start snapshotId) (hdb : Unpublished snapshotId start db)
    (ht : Kept snapshotId start t) : Stable db t := by
  have hkept := unpublished_kept hdb
  have hne : ∀ r ∈ db.checkpoints.rows, r.snapshotId ≠ snapshotId := fun r hr =>
    hn.checkpoints r (hdb.checkpoints ▸ hr)
  refine ⟨fun r hr => ?_,fun r hr => ?_,fun r hr => ?_⟩
  · exact (ht.checkpoints r (hne r hr)).mpr ((hkept.checkpoints r (hne r hr)).mp hr)
  · rw [kept_accountsOf ht (hne r hr), kept_accountsOf hkept (hne r hr)]
  · rw [kept_storageOf ht (hne r hr), kept_storageOf hkept (hne r hr)]

theorem kept_partitions (h : Kept snapshotId db t) {id : String} (hid : id ∈ partitionIds t) :
    id = snapshotId ∨ id ∈ partitionIds db := by
  by_cases he : id = snapshotId
  · exact .inl he
  · refine .inr (mem_partitionIds.mpr ?_)
    rcases mem_partitionIds.mp hid with ⟨r,hr,rfl⟩ | ⟨r,hr,rfl⟩ | ⟨r,hr,rfl⟩
    · exact .inl ⟨r,(h.checkpoints r he).mp hr,rfl⟩
    · exact .inr (.inl ⟨r,(h.accounts r he).mp hr,rfl⟩)
    · exact .inr (.inr ⟨r,(h.storage r he).mp hr,rfl⟩)

end Kept

/-- A pin file that retention can read and that names a ready checkpoint. -/
structure Pin (w : ReaderWorld) (pinId : String) (record : Json) : Prop where
  id : objectId pinId = .ok ()
  named : record.index "pin_id" = .str pinId
  owner : record.index "control_id" = .str w.controlId
  created : ∃ n, uint (record.index "created_at") = .ok n
  target : ∃ r ∈ w.checkpoints.checkpoints.rows, record.index "snapshot_id" = .str r.snapshotId ∧
    objectId r.snapshotId = .ok ()

theorem Pin.read {w : ReaderWorld} {pinId : String} {record : Json} (h : Pin w pinId record)
    (hp : w.pins.get? pinId = some record) : readPin w pinId = .ok record := by
  obtain ⟨r,-,hname,hid⟩ := h.target
  exact bind_ok.mpr ⟨(),h.id,bind_ok.mpr ⟨record,context_ok.mpr hp,bind_ok.mpr ⟨(),
    ensure_ok.mpr ⟨h.named,h.owner⟩,bind_ok.mpr ⟨_,string_index hname,bind_ok.mpr ⟨(),hid,rfl⟩⟩⟩⟩⟩

section Safe
variable {tables : Tables} {codec : Codec} {alloy : Alloy} {platform : Platform}
  {describe : Source → Json}

/-- A publication: its manifest is the text of a record that certifies what it
stored. -/
structure Genuine (alloy : Alloy) (platform : Platform) (e : Published) : Prop where
  id : objectId e.row.snapshotId = .ok ()
  record : ∃ record, e.row.manifest = record.canonicalJson ∧
    record.index "snapshot_id" = .str e.row.snapshotId ∧ record.index "status" = .str "ready" ∧
    Certified platform alloy record e.accounts e.storage

structure Safe (alloy : Alloy) (platform : Platform) (s : System) : Prop where
  partitions : ∀ id ∈ partitionIds s.db, objectId id = .ok ()
  ready : ∀ r ∈ s.db.checkpoints.rows, ∃ e ∈ s.published, e.row = r ∧
    e.accounts = accountsOf s.db r.snapshotId ∧ e.storage = storageOf s.db r.snapshotId
  genuine : ∀ e ∈ s.published, Genuine alloy platform e
  pins : ∀ pinId record, s.world.pins.get? pinId = some record → Pin s.world pinId record
  newest : ∀ e ∈ s.published, ∀ account, selects platform.fromSlice account e.row = true →
    ∃ r ∈ s.db.checkpoints.rows, selects platform.fromSlice account r = true ∧ age e.row ≤ age r
  unread : ∀ e ∈ s.published, ¬Readable platform.fromSlice e.row → e.row ∈ s.db.checkpoints.rows
  publisher : ∀ p, s.publisher = some p → objectId p.snapshotId = .ok () ∧
    Unused p.start p.snapshotId ∧ Unpublished p.snapshotId p.start s.db
  readers : ∀ r ∈ s.readers, Stable r.since s.db
  pinning : ∀ r ∈ s.readers, ∀ pinId record, r.task = .pinning pinId record →
    Pin s.world pinId record

/-- Wherever a publisher stops, it has published nothing or a certified
checkpoint. -/
theorem publishing_stop {p : Publishing} (hn : Unused p.start p.snapshotId)
    (script : List (Option String)) :
    Unpublished p.snapshotId p.start (p.stop tables codec alloy platform describe script) ∨
      ∃ row record, Publishes platform alloy p.snapshotId p.start
        (p.stop tables codec alloy platform describe script) row record := by
  unfold Publishing.stop
  cases p.attempt with
  | build worlds bundle sources baseId =>
    refine Triple.ends (C := fun t => Unpublished p.snapshotId p.start t ∨ ∃ row record,
      Publishes platform alloy p.snapshotId p.start t row record)
      ((buildUnlocked_triple p.start).weaken (fun _ h => h) ?_ ?_) rfl
    · rintro out t ⟨x,⟨hx,rfl⟩,-⟩
      exact .inr ⟨_,_,(completed_publishes hx hn).1⟩
    · rintro t (h | ⟨x,hx,rfl⟩)
      · exact .inl h
      · exact .inr ⟨_,_,(completed_publishes hx hn).1⟩
  | restore manifest first second expectedHash =>
    refine Triple.ends (C := fun t => Unpublished p.snapshotId p.start t ∨ ∃ row record,
      Publishes platform alloy p.snapshotId p.start t row record)
      ((importCheckpoint_triple manifest first second expectedHash p.createdAt p.budgetBytes).weaken
        (fun _ h => h) ?_ ?_) rfl
    · rintro out t ⟨layout,⟨u,row,hu,hi,rfl⟩,-⟩
      exact .inr ⟨row,_,imported_publishes hu hi⟩
    · rintro t (h | ⟨layout,u,row,hu,hi,rfl⟩)
      · exact .inl h
      · exact .inr ⟨row,_,imported_publishes hu hi⟩

theorem mem_publishedAs {db : CheckpointDb} {snapshotId : String} {e : Published} :
    e ∈ publishedAs db snapshotId ↔ (e.row ∈ db.checkpoints.rows ∧ e.row.snapshotId = snapshotId) ∧
      e.accounts = accountsOf db snapshotId ∧ e.storage = storageOf db snapshotId := by
  unfold publishedAs
  rw [List.mem_map]
  constructor
  · rintro ⟨r,hr,rfl⟩
    obtain ⟨hr,hid⟩ := List.mem_filter.mp hr
    exact ⟨⟨hr,of_decide_eq_true hid⟩,rfl,rfl⟩
  · rintro ⟨⟨hr,hid⟩,ha,hs⟩
    exact ⟨e.row,List.mem_filter.mpr ⟨hr,decide_eq_true hid⟩,by rw [← ha, ← hs]⟩

theorem publishes_rows {p : Publishing} {t : CheckpointDb} {row : CheckpointRow} {record : Json}
    (h : Publishes platform alloy p.snapshotId p.start t row record) {r : CheckpointRow} :
    r ∈ t.checkpoints.rows ↔ r = row ∨ (r ∈ p.start.checkpoints.rows ∧ r.snapshotId ≠ p.snapshotId) := by
  rw [h.added, Table.mem_upsert, h.id]

theorem publishedAs_nil {p : Publishing} (hn : Unused p.start p.snapshotId) {t : CheckpointDb}
    (h : Unpublished p.snapshotId p.start t) : publishedAs t p.snapshotId = [] := by
  refine List.map_eq_nil_iff.mpr (List.filter_eq_nil_iff.mpr (fun r hr hid => ?_))
  exact hn.checkpoints r (h.checkpoints ▸ hr) (of_decide_eq_true hid)

theorem publishedAs_ne {p : Publishing} {t : CheckpointDb} {row : CheckpointRow} {record : Json}
    (h : Publishes platform alloy p.snapshotId p.start t row record) :
    publishedAs t p.snapshotId ≠ [] := by
  refine List.ne_nil_of_mem (a := ⟨row,accountsOf t p.snapshotId,storageOf t p.snapshotId⟩)
    (mem_publishedAs.mpr ⟨⟨(publishes_rows h).mpr (.inl rfl),h.id⟩,rfl,rfl⟩)

section Step
variable {s : System} (hs : Safe alloy platform s)
include hs

theorem Safe.stable {t : CheckpointDb} (h : Stable s.db t) :
    (∀ r ∈ s.readers, Stable r.since t) ∧
    (∀ pinId record, Pin s.world pinId record → Pin { s.world with checkpoints := t } pinId record) ∧
    (∀ e ∈ s.published, ∀ account, selects platform.fromSlice account e.row = true →
      ∃ r ∈ t.checkpoints.rows, selects platform.fromSlice account r = true ∧ age e.row ≤ age r) ∧
    ∀ e ∈ s.published, ¬Readable platform.fromSlice e.row → e.row ∈ t.checkpoints.rows := by
  refine ⟨fun r hr => (hs.readers r hr).trans h,fun pinId record hp => ?_,fun e he account ha => ?_,
    fun e he hn => h.checkpoints _ (hs.unread e he hn)⟩
  · obtain ⟨r,hr,hname,hid⟩ := hp.target
    exact ⟨hp.id,hp.named,hp.owner,hp.created,r,h.checkpoints r hr,hname,hid⟩
  · obtain ⟨r,hr,hsel,hage⟩ := hs.newest e he account ha
    exact ⟨r,h.checkpoints r hr,hsel,hage⟩

theorem safe_enters {p : Publishing} (hstart : p.start = s.db) (hid : objectId p.snapshotId = .ok ())
    (hn : Unused s.db p.snapshotId) : Safe alloy platform { s with publisher := some p } := by
  refine { hs with publisher := fun q hq => ?_ }
  obtain rfl := Option.some.inj hq
  refine ⟨hid,hstart ▸ hn,?_⟩
  rw [hstart]
  exact ⟨rfl,fun _ _ => Iff.rfl,fun _ _ => Iff.rfl⟩

theorem publisher_partitions {p : Publishing} (hp : s.publisher = some p) {t : CheckpointDb}
    (ht : Kept p.snapshotId p.start t) : ∀ id ∈ partitionIds t, objectId id = .ok () := by
  obtain ⟨hid,hn,hu⟩ := hs.publisher p hp
  intro id h
  rcases kept_partitions ht h with rfl | h
  · exact hid
  · have hkept : Kept p.snapshotId s.db p.start := by
      have hk := unpublished_kept hu
      exact ⟨fun r hr => (hk.storage r hr).symm,fun r hr => (hk.accounts r hr).symm,
        fun r hr => (hk.checkpoints r hr).symm⟩
    rcases kept_partitions hkept h with rfl | h
    · exact hid
    · exact hs.partitions id h

/-- A publisher on its way changes nothing that anyone reads. -/
theorem safe_writes {p : Publishing} (hp : s.publisher = some p) {t : CheckpointDb}
    (ht : Unpublished p.snapshotId p.start t) : Safe alloy platform (s.setDb t) := by
  obtain ⟨hid,hn,hu⟩ := hs.publisher p hp
  have hstable : Stable s.db t := publication_stable hn hu (unpublished_kept ht)
  obtain ⟨hreaders,hpins,hnewest,hunread⟩ := hs.stable hstable
  refine ⟨publisher_partitions hs hp (unpublished_kept ht),fun r hr => ?_,hs.genuine,
    fun pinId record h => hpins _ _ (hs.pins _ _ h),hnewest,hunread,fun q hq => ?_,hreaders,
    fun r hr pinId record h => hpins _ _ (hs.pinning r hr _ _ h)⟩
  · have hr' : r ∈ s.db.checkpoints.rows := by
      rw [hu.checkpoints, ← ht.checkpoints]
      exact hr
    obtain ⟨e,he,hrow,ha,hst⟩ := hs.ready r hr'
    exact ⟨e,he,hrow,ha.trans (hstable.accounts r hr').symm,hst.trans (hstable.storage r hr').symm⟩
  · obtain rfl := Option.some.inj (hp.symm.trans hq)
    exact ⟨hid,hn,ht⟩

/-- A publication adds one certified checkpoint. -/
theorem safe_publishes {p : Publishing} (hp : s.publisher = some p) {t : CheckpointDb}
    {row : CheckpointRow} {record : Json}
    (h : Publishes platform alloy p.snapshotId p.start t row record) :
    Safe alloy platform { s.setDb t with
      publisher := none, published := publishedAs t p.snapshotId ++ s.published } := by
  obtain ⟨hid,hn,hu⟩ := hs.publisher p hp
  have hstable : Stable s.db t := publication_stable hn hu h.kept
  obtain ⟨hreaders,hpins,hnewest,hunread⟩ := hs.stable hstable
  have hrow : row ∈ t.checkpoints.rows := (publishes_rows h).mpr (.inl rfl)
  have hnew : ∀ e ∈ publishedAs t p.snapshotId, e.row = row ∧
      e.accounts = accountsOf t p.snapshotId ∧ e.storage = storageOf t p.snapshotId := by
    intro e he
    obtain ⟨⟨hr,hre⟩,ha,hst⟩ := mem_publishedAs.mp he
    refine ⟨?_,ha,hst⟩
    rcases (publishes_rows h).mp hr with hr | ⟨-,hne⟩
    · exact hr
    · exact absurd hre hne
  refine ⟨publisher_partitions hs hp h.kept,fun r hr => ?_,fun e he => ?_,
    fun pinId record h => hpins _ _ (hs.pins _ _ h),fun e he account hsel => ?_,fun e he hn => ?_,
    (fun q hq => by cases hq),hreaders,fun r hr pinId record h => hpins _ _ (hs.pinning r hr _ _ h)⟩
  · rcases (publishes_rows h).mp hr with rfl | ⟨hr',-⟩
    · refine ⟨⟨r,accountsOf t p.snapshotId,storageOf t p.snapshotId⟩,List.mem_append.mpr (.inl
        (mem_publishedAs.mpr ⟨⟨hrow,h.id⟩,rfl,rfl⟩)),rfl,?_,?_⟩
      · exact congrArg (accountsOf t) h.id.symm
      · exact congrArg (storageOf t) h.id.symm
    · have hr'' : r ∈ s.db.checkpoints.rows := by rwa [hu.checkpoints]
      obtain ⟨e,he,hre,ha,hst⟩ := hs.ready r hr''
      exact ⟨e,List.mem_append.mpr (.inr he),hre,ha.trans (hstable.accounts r hr'').symm,
        hst.trans (hstable.storage r hr'').symm⟩
  · rcases List.mem_append.mp he with he | he
    · obtain ⟨hre,ha,hst⟩ := hnew e he
      refine ⟨?_,record,?_,?_,h.ready,?_⟩
      · rw [hre, h.id]
        exact hid
      · rw [hre]
        exact h.manifest
      · rw [hre, h.id]
        exact h.named
      · rw [ha, hst]
        exact h.certified
    · exact hs.genuine e he
  · rcases List.mem_append.mp he with he | he
    · obtain ⟨hre,-,-⟩ := hnew e he
      exact ⟨row,hrow,hre ▸ hsel,hre ▸ le_rfl⟩
    · exact hnewest e he account hsel
  · rcases List.mem_append.mp he with he | he
    · obtain ⟨hre,-,-⟩ := hnew e he
      exact hre ▸ hrow
    · exact hunread e he hn

/-- Retention is alone, so that only ready rows, their publications and the
pins are at stake. -/
theorem safe_retention {keepLatest : ℕ} {w : ReaderWorld} (hp : s.publisher = none)
    (hr : s.readers = []) (h : Pruned platform.fromSlice keepLatest s.world w) :
    Safe alloy platform { s with world := w } := by
  refine ⟨fun id hid => hs.partitions id (h.partitions id hid),fun r hmem => ?_,hs.genuine,
    fun pinId record hget => ?_,fun e he account hsel => ?_,
    fun e he hn => h.unread _ (hs.unread e he hn) hn,fun p hq => ?_,fun r hmem => ?_,fun r hmem => ?_⟩
  · obtain ⟨hmem,ha,hst⟩ := h.rows r hmem
    obtain ⟨e,he,hrow,hae,hse⟩ := hs.ready r hmem
    exact ⟨e,he,hrow,hae.trans ha.symm,hse.trans hst.symm⟩
  · have hget' : s.world.pins.get? pinId = some record := h.pins ▸ hget
    have hpin := hs.pins pinId record hget'
    obtain ⟨r,hmem,hname,hid⟩ := hpin.target
    exact ⟨hpin.id,hpin.named,h.controlId ▸ hpin.owner,hpin.created,r,
      h.pinned r hmem ⟨pinId,record,hget',hname⟩,hname,hid⟩
  · obtain ⟨r,hmem,hsel',hage⟩ := hs.newest e he account hsel
    obtain ⟨r',hmem',hsel'',hage'⟩ := h.account account r hmem hsel'
    exact ⟨r',hmem',hsel'',hage.trans hage'⟩
  · rw [show s.publisher = some p from hq] at hp
    cases hp
  · rw [show s.readers = [] from hr] at hmem
    cases hmem
  · rw [show s.readers = [] from hr] at hmem
    cases hmem

omit hs in
theorem newPin_ok {fromSlice : Bytes → Option Json} {w : ReaderWorld}
    {snapshotId purpose pinId : String} {createdAt : ℕ} {record : Json}
    (hid : objectId pinId = .ok ()) (hc : createdAt < 2^64)
    (h : newPin fromSlice w snapshotId purpose pinId createdAt = .ok record) : Pin w pinId record := by
  obtain ⟨ready,hready,h⟩ := bind_ok.mp h
  obtain rfl := pure_ok.mp h
  obtain ⟨_,hobject,hready⟩ := bind_ok.mp hready
  obtain ⟨row,hrow,-⟩ := bind_ok.mp hready
  have hfound : row ∈ w.checkpoints.checkpoints.rows.filter (fun r => r.snapshotId = snapshotId) := by
    rw [one_ok.mp hrow]
    exact List.mem_singleton_self row
  obtain ⟨hmem,he⟩ := List.mem_filter.mp hfound
  obtain rfl : row.snapshotId = snapshotId := of_decide_eq_true he
  refine ⟨hid,(Json.index_ofPairs (by simp) _).trans (by simp [lookup]),
    (Json.index_ofPairs (by simp) _).trans (by simp [lookup]),⟨createdAt,?_⟩,row,hmem,
    (Json.index_ofPairs (by simp) _).trans (by simp [lookup]),hobject⟩
  rw [Json.index_ofPairs (by simp)]
  exact context_ok.mpr (Json.uint_ofNat hc)

omit hs in
theorem Pin.setPins {w : ReaderWorld} {pinId : String} {record : Json} (h : Pin w pinId record)
    (pins : SortedMap String Json) : Pin { w with pins := pins } pinId record :=
  ⟨h.id,h.named,h.owner,h.created,h.target⟩

theorem safe_readers {readers : List Reading} (h : ∀ r ∈ readers, Stable r.since s.db ∧
    ∀ pinId record, r.task = .pinning pinId record → Pin s.world pinId record) :
    Safe alloy platform { s with readers := readers } :=
  { hs with readers := fun r hr => (h r hr).1, pinning := fun r hr => (h r hr).2 }

theorem safe_pins {pins : SortedMap String Json}
    (h : ∀ pinId record, pins.get? pinId = some record → Pin s.world pinId record) :
    Safe alloy platform (s.setPins pins) :=
  { hs with
    pins := fun pinId record hp => (h pinId record hp).setPins pins
    pinning := fun r hr pinId record ht => (hs.pinning r hr pinId record ht).setPins pins }

theorem safe_task {before after : List Reading} {since : CheckpointDb} {task next : Task}
    (hr : s.readers = before++⟨since,task⟩::after)
    (h : ∀ pinId record, next = .pinning pinId record → Pin s.world pinId record) :
    Safe alloy platform { s with readers := before++⟨since,next⟩::after } := by
  refine safe_readers hs (fun r hmem => ?_)
  have hold : ∀ r ∈ before++⟨since,task⟩::after, Stable r.since s.db ∧
      ∀ pinId record, r.task = .pinning pinId record → Pin s.world pinId record := fun r hmem =>
    ⟨hs.readers r (hr ▸ hmem),hs.pinning r (hr ▸ hmem)⟩
  rcases List.mem_append.mp hmem with hmem | hmem
  · exact hold r (List.mem_append.mpr (.inl hmem))
  · rcases List.mem_cons.mp hmem with rfl | hmem
    · exact ⟨(hold ⟨since,task⟩ (by simp)).1,h⟩
    · exact hold r (by simp [hmem])

/-- Each step of each party keeps the store safe. -/
theorem safe_step {t : System} (h : Step tables codec alloy platform describe s t) :
    Safe alloy platform t := by
  cases h with
  | publisherEnters p hnone hstart hid hn => exact safe_enters hs hstart hid hn
  | publisherWrites p script hp hnone =>
    rcases publishing_stop (hs.publisher p hp).2.1 script with hu | ⟨row,record,hrow⟩
    · exact safe_writes hs hp hu
    · exact absurd hnone (publishedAs_ne hrow)
  | publisherPublishes p script hp hsome =>
    rcases publishing_stop (hs.publisher p hp).2.1 script with hu | ⟨row,record,hrow⟩
    · exact absurd (publishedAs_nil (hs.publisher p hp).2.1 hu) hsome
    · exact safe_publishes hs hp hrow
  | publisherLeaves => exact { hs with publisher := fun p hp => by cases hp }
  | readerEnters =>
    refine safe_readers hs (List.forall_mem_cons.mpr ⟨⟨Stable.refl _,fun _ _ ht => by cases ht⟩,?_⟩)
    exact fun r hr => ⟨hs.readers r hr,hs.pinning r hr⟩
  | readerChecks before after since snapshotId purpose pinId createdAt record hr hid hc hnew =>
    refine safe_task hs hr (fun pinId' record' ht => ?_)
    obtain ⟨rfl,rfl⟩ := Task.pinning.inj ht
    exact newPin_ok hid hc hnew
  | readerPins before after since pinId record hr hfree =>
    have hpin : Pin s.world pinId record :=
      hs.pinning ⟨since,.pinning pinId record⟩ (by rw [hr]; simp) pinId record rfl
    refine safe_task (s := s.setPins _) (safe_pins hs (fun pinId' record' hp => ?_)) hr
      (fun _ _ ht => by cases ht)
    rw [SortedMap.get?_insert] at hp
    split_ifs at hp with he
    · obtain rfl := Option.some.inj hp
      exact he ▸ hpin
    · exact hs.pins pinId' record' hp
  | readerFinds before after since pinId record hr hfound =>
    exact safe_task hs hr (fun _ _ ht => by cases ht)
  | readerUnpins before after since pinId hr =>
    refine safe_task (s := s.setPins _) (safe_pins hs (fun pinId' record' hp => ?_)) hr
      (fun _ _ ht => by cases ht)
    rw [SortedMap.get?_retain] at hp
    exact hs.pins pinId' record' (Option.filter_eq_some_iff.mp hp).1
  | readerLeaves before after r hr =>
    refine safe_readers hs (fun r' hmem => ?_)
    have hmem' : r' ∈ s.readers := by
      rw [hr]
      rcases List.mem_append.mp hmem with hmem | hmem
      · exact List.mem_append.mpr (.inl hmem)
      · exact List.mem_append.mpr (.inr (List.mem_cons_of_mem _ hmem))
    exact ⟨hs.readers r' hmem',hs.pinning r' hmem'⟩
  | retention database keepLatest script hp hr hread =>
    exact safe_retention hs hp hr (hread ▸ prune_pruned database _ _ script)

end Step

theorem reachable_safe {s : System} (h : Reachable tables codec alloy platform describe s) :
    Safe alloy platform s := by
  induction h with
  | start controlId =>
    refine ⟨fun id hid => ?_,fun r hr => ?_,fun e he => ?_,fun _ _ h => ?_,fun e he => ?_,
      fun e he => ?_,fun p hp => ?_,fun r hr => ?_,fun r hr => ?_⟩
    · rcases mem_partitionIds.mp hid with ⟨r,hr,-⟩ | ⟨r,hr,-⟩ | ⟨r,hr,-⟩ <;> cases hr
    · cases hr
    · cases he
    · cases h
    · cases he
    · cases he
    · cases hp
    · cases hr
    · cases hr
  | step _ hstep ih => exact safe_step ih hstep

theorem Safe.listing {s : System} (hs : Safe alloy platform s) :
    ∃ pins pinned, pinsUnlocked s.world = .ok pins ∧
      List.Forall₂ (fun pin id => string pin "snapshot_id" = .ok id ∧
        id ∈ s.db.checkpoints.rows.map (·.snapshotId)) pins pinned := by
  have hread : ∀ stem record, s.world.pins.get? stem = some record →
      ∃ n, readPinAt s.world stem = .ok (n,record) := by
    intro stem record hp
    have hpin := hs.pins stem record hp
    obtain ⟨n,hn⟩ := hpin.created
    exact ⟨n,bind_ok.mpr ⟨record,hpin.read hp,bind_ok.mpr ⟨n,hn,rfl⟩⟩⟩
  obtain ⟨found,hfound⟩ := mapM_succeeds.mpr (show ∀ stem ∈ s.world.pins.keys,
      ∃ e, readPinAt s.world stem = .ok e from fun stem hstem => by
    obtain ⟨record,hp⟩ := SortedMap.mem_keys.mp hstem
    obtain ⟨n,hn⟩ := hread stem record hp
    exact ⟨(n,record),hn⟩)
  have hpins : pinsUnlocked s.world = .ok ((found.insertionSort (fun a b => a.1 ≤ b.1)).map Prod.snd) :=
    bind_ok.mpr ⟨found,hfound,rfl⟩
  have htarget : ∀ pin ∈ (found.insertionSort (fun a b => a.1 ≤ b.1)).map Prod.snd,
      ∃ id, pinnedId (s.db.checkpoints.rows.map (·.snapshotId)) pin = .ok id := by
    intro pin hpin
    obtain ⟨e,he,rfl⟩ := List.mem_map.mp hpin
    obtain ⟨stem,hstem,hone⟩ := (Timeline.exists_related (mapM_ok.mp hfound)).2 e
      ((List.mem_insertionSort _).mp he)
    obtain ⟨record,hp⟩ := SortedMap.mem_keys.mp hstem
    obtain ⟨n,hn⟩ := hread stem record hp
    obtain rfl := Except.ok.inj (hone.symm.trans hn)
    obtain ⟨r,hr,hname,-⟩ := (hs.pins stem record hp).target
    exact ⟨r.snapshotId,pinnedId_ok.mpr ⟨string_index hname,List.mem_map_of_mem hr⟩⟩
  obtain ⟨pinned,hpinned⟩ := mapM_succeeds.mpr htarget
  exact ⟨_,pinned,hpins,(mapM_ok.mp hpinned).imp (fun _ _ h => pinnedId_ok.mp h)⟩

/-- Nothing but the schema and the manifests can keep retention from planning. -/
theorem Safe.plans {s : System} (hs : Safe alloy platform s) {database : Database} {keepLatest : ℕ}
    (hk : 1 ≤ keepLatest) (hschema : requirePartitionedSchema database.tables = .ok ())
    (hreadable : ∀ r ∈ s.db.checkpoints.rows, Readable database.fromSlice r) :
    ∃ plan, planUnlocked database s.world keepLatest = .ok plan := by
  obtain ⟨pins,pinned,hpins,hpinned⟩ := hs.listing
  obtain ⟨latest,-,hget⟩ := @addRecords_ok database.fromSlice
    (newestFirst database s.world.checkpoints) .empty
    (fun r hr => hreadable r (Newest.mem_newest.mp hr))
  let keep := asSet (((newestFirst database s.world.checkpoints).take keepLatest).map (·.snapshotId) ++
    latest.values ++ pinned)
  let remove := (partitionIds s.world.checkpoints).filter (· ∉ keep)
  refine ⟨⟨keep,remove,remove.filter
    (· ∉ (newestFirst database s.world.checkpoints).map (·.snapshotId)),
    pins.map (fun pin => (pin.index "pin_id",pin.index "snapshot_id")),latest,keepLatest⟩,
    planUnlocked_ok.mpr ⟨pins,pinned,hk,hschema,hreadable,hpins,hpinned,hs.partitions,fun a => ?_,rfl,
      rfl,rfl,rfl,rfl⟩⟩
  rw [hget, SortedMap.get?_empty, Option.none_or]

/-- As long as manifests are read with the accounts that they were written
with, every published account has a ready checkpoint as new. -/
theorem Safe.covered {s : System} (hs : Safe alloy platform s)
    (hread : ∀ e ∈ s.published, ∀ record, platform.fromSlice (Text.utf8 e.row.manifest) = some record →
      record.index "accounts" = .arr ((e.accounts.map (·.address)).map .str))
    {e : Published} (he : e ∈ s.published) {account : String}
    (ha : account ∈ e.accounts.map (·.address)) :
    ∃ e' ∈ s.published, e'.row ∈ s.db.checkpoints.rows ∧ account ∈ e'.accounts.map (·.address) ∧
      age e.row ≤ age e'.row := by
  by_cases hr : Readable platform.fromSlice e.row
  · have hsel := (selects_iff (hread e he _ hr.parsed)).mpr ha
    obtain ⟨r,hmem,hsel,hage⟩ := hs.newest e he account hsel
    obtain ⟨e',he',rfl,-⟩ := hs.ready r hmem
    refine ⟨e',he',hmem,?_,hage⟩
    cases hparsed : platform.fromSlice (Text.utf8 e'.row.manifest) with
    | none =>
      rw [selects, storedRecord, hparsed] at hsel
      cases hsel
    | some record =>
      exact (selects_iff (storedRecord_eq hparsed ▸ hread e' he' record hparsed)).mp hsel
  · exact ⟨e,he,hs.unread e he hr,ha,le_rfl⟩

end Safe

/-!
## A sample run

A build into an empty store, and a reader that pins what it published.
-/

section Sample
open EvmState.Rpc

def sampleTables : Tables where
  storage row := do
    let id ← string row "snapshot_id"
    let account ← string row "address"
    let slot ← string row "slot"
    let value ← string row "value"
    return ⟨id,account,slot,value⟩
  accounts row := do
    let id ← string row "snapshot_id"
    let account ← string row "address"
    let nonce ← uint (row.index "nonce")
    let balance ← string row "balance"
    let codeHash ← string row "code_hash"
    let code ← string row "code"
    let storageRoot ← string row "storage_root"
    let slots ← uint (row.index "nonzero_slots")
    return ⟨id,account,row.index "exists" = .bool true,nonce,balance,codeHash,code,storageRoot,slots⟩
  storage_snapshot row r id h hid := by
    obtain ⟨id',hid',h⟩ := bind_ok.mp h
    obtain ⟨_,-,h⟩ := bind_ok.mp h
    obtain ⟨_,-,h⟩ := bind_ok.mp h
    obtain ⟨_,-,h⟩ := bind_ok.mp h
    obtain rfl := pure_ok.mp h
    exact Except.ok.inj (hid'.symm.trans (string_ok hid))
  accounts_snapshot row r id h hid := by
    obtain ⟨id',hid',h⟩ := bind_ok.mp h
    obtain ⟨_,-,h⟩ := bind_ok.mp h
    obtain ⟨_,-,h⟩ := bind_ok.mp h
    obtain ⟨_,-,h⟩ := bind_ok.mp h
    obtain ⟨_,-,h⟩ := bind_ok.mp h
    obtain ⟨_,-,h⟩ := bind_ok.mp h
    obtain ⟨_,-,h⟩ := bind_ok.mp h
    obtain ⟨_,-,h⟩ := bind_ok.mp h
    obtain rfl := pure_ok.mp h
    exact Except.ok.inj (hid'.symm.trans (string_ok hid))

def sampleCodec : Codec := ⟨hex,id,fun bytes => ⟨bytes,none⟩⟩

def sampleId : String := "0123456789abcdef0123456789abcdef"

def samplePublishing : Publishing :=
  ⟨.empty,sampleId,.build (fun _ => sampleWorld) sampleBundle [sampleSource] none,1,1⟩

def sampleManifest : Json :=
  sampleTrace.record samplePlatform (fun _ => .null) sampleBundle none sampleId 1 1

def samplePublished : CheckpointDb := sampleTrace.after sampleId sampleManifest 1 .empty

def samplePin : Json :=
  .ofPairs [("pin_id",.str sampleId),("snapshot_id",.str sampleId),("control_id",.str "control"),
    ("created_at",.ofNat 2),("purpose",.str "read"),("header",sampleManifest.index "header")]

def sampleShared : System :=
  ⟨⟨"control",SortedMap.empty.insert sampleId samplePin,samplePublished⟩,none,[⟨samplePublished,.idle⟩],
    publishedAs samplePublished sampleId⟩

theorem sample_built : Completed samplePlatform sampleChain (fun _ => sampleWorld) sampleBundle
    [sampleSource] none sampleId .empty sampleTrace :=
  { sample_completed with
    observed := by decide +kernel
    verified := .cons { sampleAccount_complete with slots := by decide +kernel } .nil
    counted := by decide +kernel }

theorem sampleId_object : objectId sampleId = .ok () := by decide +kernel

theorem sampleProof_simple (d : ℕ) : Json.Simple (d+2) (sampleProof "0x3") := by
  refine Json.simple_ofPairs (by simp only [List.map_cons, List.map_nil]; decide)
    (fun e he => ?_)
  simp only [List.mem_cons, List.not_mem_nil, or_false] at he
  rcases he with rfl | rfl | rfl | rfl | rfl | rfl
  · exact Json.simple_str _ _
  · exact Json.simple_str _ _
  · exact Json.simple_str _ _
  · exact Json.simple_str _ _
  · exact Json.simple_str _ _
  · exact Json.simple_arr (by simp [Json.simple_str])

theorem sampleSummary_simple (d : ℕ) : Json.Simple (d+1) sampleSummary := by
  refine Json.simple_ofPairs (by decide) (fun e he => ?_)
  simp only [sampleSummaryFields, List.mem_cons, List.not_mem_nil, or_false] at he
  rcases he with rfl | rfl | rfl | rfl | rfl
  · exact Json.simple_ofNat _ _
  · exact Json.simple_str _ _
  · exact Json.simple_str _ _
  · exact Json.simple_str _ _
  · exact Json.simple_ofNat _ _

theorem sampleBundle_simple (d : ℕ) : Json.Simple (d+5) sampleBundle := by
  have hfields : Json.ofPairs [("code",.str sampleCode),("proof",sampleProof "0x3")] =
      .obj [("code",.str sampleCode),("proof",sampleProof "0x3")] := by
    have hlt : ¬"proof" < "code" := by decide
    simp [Json.ofPairs, SortedMap.insertAll, SortedMap.insert, SortedMap.empty, put, hlt]
  have haccount : Json.Simple (d+3) (.obj [("code",.str sampleCode),("proof",sampleProof "0x3")]) := by
    rw [← hfields]
    exact Json.simple_ofPairs (by decide) (by simp [Json.simple_str, sampleProof_simple])
  have haccounts : Json.Simple (d+4) (.ofPairs [(sampleAddress,
      .obj [("code",.str sampleCode),("proof",sampleProof "0x3")])]) :=
    Json.simple_ofPairs (by decide) (by simpa using haccount)
  refine Json.simple_ofPairs (by decide) (fun e he => ?_)
  simp only [sampleBundleFields, List.mem_cons, List.not_mem_nil, or_false] at he
  rcases he with rfl | rfl | rfl | rfl | rfl | rfl
  · exact Json.simple_ofNat _ _
  · exact Json.simple_ofNat _ _
  · exact sampleSummary_simple _
  · exact Json.simple_str _ _
  · exact Json.simple_str _ _
  · exact haccounts

theorem sampleManifest_read :
    PrettyJson.readBytes (Text.utf8 sampleManifest.canonicalJson) = some sampleManifest := by
  have hbundle : Json.Simple (124+2) sampleBundle := sampleBundle_simple 121
  have hrecord : Json.Simple (124+3) sampleManifest := by
    unfold sampleManifest
    exact record_simple sample_built.accounts hbundle (fun _ _ => Json.simple_null _)
  exact PrettyJson.readBytes_readsBack.compact hrecord

theorem runs_stop {σ α : Type} {p : Prog σ α} {s t : σ} {a : α} (h : Runs p s a t) :
    returns p ⟨s,[]⟩ = true ∧ ends p ⟨s,[]⟩ = t := by
  rw [returns, ends, h]
  exact ⟨rfl,rfl⟩

theorem sample_runs : Runs (buildUnlocked samplePlatform sampleChain (fun _ => sampleWorld)
    (fun _ => .null) sampleBundle [sampleSource] none sampleId 1 1) .empty
    ⟨sampleManifest,(sampleTrace.building sampleId).digested⟩ samplePublished := by
  have hslots : (sampleTrace.building sampleId).totalSlots < 2^64 := by decide +kernel
  unfold samplePublished sampleManifest
  exact buildUnlocked_runs sample_built hslots

theorem sample_stop : samplePublishing.stop sampleTables sampleCodec sampleChain samplePlatform
    (fun _ => .null) [] = samplePublished := by
  unfold Publishing.stop samplePublishing
  exact (runs_stop sample_runs).2

theorem sample_manifest : manifest PrettyJson.readBytes samplePublished sampleId = .ok sampleManifest := by
  have hnamed : sampleManifest.index "snapshot_id" = .str sampleId :=
    (Json.index_ofPairs (by simp) _).trans (by simp [lookup])
  have hready : sampleManifest.index "status" = .str "ready" :=
    (Json.index_ofPairs (by simp) _).trans (by simp [lookup])
  have hrows : samplePublished.checkpoints.rows =
      [sampleTrace.checkpoint sampleId sampleManifest 1] := rfl
  have hone : one (samplePublished.checkpoints.rows.filter (fun r => r.snapshotId = sampleId)) =
      .ok (sampleTrace.checkpoint sampleId sampleManifest 1) := by
    rw [hrows]
    exact one_ok.mpr (List.filter_cons_of_pos (decide_eq_true rfl))
  exact bind_ok.mpr ⟨(),sampleId_object,bind_ok.mpr ⟨_,hone,bind_ok.mpr ⟨_,
    context_ok.mpr sampleManifest_read,bind_ok.mpr ⟨(),ensure_ok.mpr ⟨hnamed,hready⟩,rfl⟩⟩⟩⟩

theorem sample_reachable : Reachable sampleTables sampleCodec sampleChain samplePlatform
    (fun _ => .null) sampleShared := by
  have hunused : Unused CheckpointDb.empty sampleId := ⟨by decide,by decide,by decide⟩
  have h0 : Reachable sampleTables sampleCodec sampleChain samplePlatform (fun _ => .null) _ :=
    .start "control"
  have h1 := h0.step (.publisherEnters samplePublishing rfl rfl sampleId_object hunused)
  have hpublished : publishedAs (samplePublishing.stop sampleTables sampleCodec sampleChain
      samplePlatform (fun _ => .null) []) sampleId ≠ [] := by
    rw [sample_stop]
    exact List.cons_ne_nil _ _
  have h2 := h1.step (.publisherPublishes samplePublishing [] rfl hpublished)
  rw [sample_stop] at h2
  have h3 := h2.step .readerEnters
  have h4 := h3.step (.readerChecks [] [] samplePublished sampleId "read" sampleId 2 samplePin rfl
    sampleId_object (by norm_num) (bind_ok.mpr ⟨_,sample_manifest,rfl⟩))
  have h5 := h4.step (.readerPins [] [] samplePublished sampleId samplePin rfl rfl)
  exact h5

end Sample

/-- In every state that an interleaving of publishers, readers and retention
reaches, each ready checkpoint has the rows that were certified when it was
published, each pin can be read and names a ready checkpoint, each account has
a ready checkpoint as new as any that was ever published for it, and what a
reader found ready stays as it was while the reader is there. Which accounts a
checkpoint selects is what its manifest is read as; one that cannot be read
stays. -/
theorem store_safe (tables : Tables) (codec : Codec) (alloy : Alloy) (platform : Platform)
    (describe : Source → Json) (s : System)
    (h : Reachable tables codec alloy platform describe s) :
    (∀ r ∈ s.db.checkpoints.rows, ∃ e ∈ s.published, e.row = r ∧
      e.accounts = accountsOf s.db r.snapshotId ∧ e.storage = storageOf s.db r.snapshotId ∧
      ∃ record, r.manifest = record.canonicalJson ∧
        Certified platform alloy record e.accounts e.storage) ∧
    (∀ pinId record, s.world.pins.get? pinId = some record → readPin s.world pinId = .ok record ∧
      ∃ r ∈ s.db.checkpoints.rows, record.index "snapshot_id" = .str r.snapshotId) ∧
    (∀ e ∈ s.published, ∀ account, selects platform.fromSlice account e.row = true →
      ∃ r ∈ s.db.checkpoints.rows, selects platform.fromSlice account r = true ∧ age e.row ≤ age r) ∧
    (∀ e ∈ s.published, ¬Readable platform.fromSlice e.row → e.row ∈ s.db.checkpoints.rows) ∧
    ((∀ e ∈ s.published, ∀ record, platform.fromSlice (Text.utf8 e.row.manifest) = some record →
        record.index "accounts" = .arr ((e.accounts.map (·.address)).map .str)) →
      ∀ e ∈ s.published, ∀ account ∈ e.accounts.map (·.address), ∃ e' ∈ s.published,
        e'.row ∈ s.db.checkpoints.rows ∧ account ∈ e'.accounts.map (·.address) ∧
          age e.row ≤ age e'.row) ∧
    ∀ reader ∈ s.readers, Stable reader.since s.db := by
  have hs := reachable_safe h
  refine ⟨fun r hr => ?_,fun pinId record hp => ?_,hs.newest,hs.unread,
    fun hread e he account ha => hs.covered hread he ha,hs.readers⟩
  · obtain ⟨e,he,rfl,ha,hst⟩ := hs.ready r hr
    obtain ⟨record,hmanifest,-,-,hcert⟩ := (hs.genuine e he).record
    exact ⟨e,he,rfl,ha,hst,record,hmanifest,hcert⟩
  · obtain ⟨r,hr,hname,-⟩ := (hs.pins pinId record hp).target
    exact ⟨(hs.pins pinId record hp).read hp,r,hr,hname⟩

theorem store_safe_sample : readPin sampleShared.world sampleId = .ok samplePin ∧
    ∃ e ∈ sampleShared.published, ∃ record, e.row.manifest = record.canonicalJson ∧
      Certified samplePlatform Rpc.sampleChain record e.accounts e.storage := by
  obtain ⟨hready,hpins,-⟩ := store_safe sampleTables sampleCodec Rpc.sampleChain samplePlatform
    (fun _ => .null) sampleShared sample_reachable
  obtain ⟨e,he,hrow,-,-,record,hmanifest,hcert⟩ := hready (sampleTrace.checkpoint sampleId
    sampleManifest 1) (List.mem_singleton_self _)
  exact ⟨(hpins sampleId samplePin rfl).1,e,he,record,hrow ▸ hmanifest,hcert⟩

/-- In every state that an interleaving reaches retention can plan unless a
table is not partitioned or a ready manifest cannot be read, and a prune that
plans and meets no failing step returns and leaves no partition without its
ready checkpoint. -/
theorem retention_unblocked (tables : Tables) (codec : Codec) (alloy : Alloy) (platform : Platform)
    (describe : Source → Json) (s : System) (database : Database) (keepLatest : ℕ)
    (h : Reachable tables codec alloy platform describe s) :
    let t := ends (prune database keepLatest) ⟨s.world,[]⟩
    ((∃ plan, planUnlocked database s.world keepLatest = .ok plan) ↔ 1 ≤ keepLatest ∧
      requirePartitionedSchema database.tables = .ok () ∧
      ∀ r ∈ s.db.checkpoints.rows, Readable database.fromSlice r) ∧
    ∀ plan, planUnlocked database s.world keepLatest = .ok plan →
      returns (prune database keepLatest) ⟨s.world,[]⟩ = true ∧
      ∀ id ∈ partitionIds t.checkpoints, ∃ r ∈ t.checkpoints.checkpoints.rows, r.snapshotId = id := by
  intro t
  refine ⟨⟨?_,?_⟩,fun plan hplan => ⟨by rw [returns, prune_runs hplan],fun id hid => ?_⟩⟩
  · rintro ⟨plan,hplan⟩
    obtain ⟨pins,pinned,hp⟩ := planUnlocked_ok.mp hplan
    exact ⟨hp.positive,hp.schema,hp.readable⟩
  · rintro ⟨hk,hschema,hreadable⟩
    exact (reachable_safe h).plans hk hschema hreadable
  · obtain ⟨pins,pinned,hp⟩ := planUnlocked_ok.mp hplan
    rw [show t = _ from prune_ends hplan] at hid ⊢
    have hkeep := of_decide_eq_true (only_partitions.mp hid).2
    obtain ⟨r,hr,rfl⟩ := hp.keep_ready hkeep
    exact ⟨r,Table.mem_select.mpr ⟨hr,decide_eq_true hkeep⟩,rfl⟩

def sampleDatabase : Database where
  fromSlice := PrettyJson.readBytes
  tables := [("checkpoint_accounts","snapshot_id"),("checkpoint_storage","snapshot_id"),
    ("checkpoints","snapshot_id")]
  tie _ := 0

theorem sample_readable : ∀ r ∈ sampleShared.db.checkpoints.rows,
    Readable sampleDatabase.fromSlice r := by
  intro r hr
  obtain rfl := List.mem_singleton.mp (show r ∈ [sampleTrace.checkpoint sampleId sampleManifest 1]
    from hr)
  have hfield : ∀ name, sampleManifest.index name = _ := fun name => Json.index_ofPairs (by simp) name
  have hparsed : sampleDatabase.fromSlice (Text.utf8 (sampleTrace.checkpoint sampleId sampleManifest
      1).manifest) = some sampleManifest := by
    dsimp only [sampleDatabase, Trace.checkpoint]
    exact sampleManifest_read
  have hrecord := storedRecord_eq hparsed
  refine ⟨?_,sampleId_object,?_,?_,sampleTrace.accounts,?_⟩
  · rw [hrecord]
    exact hparsed
  · rw [hrecord, hfield]
    simp [lookup, Trace.checkpoint]
  · rw [hrecord, hfield]
    simp [lookup]
  · rw [hrecord]
    exact record_accounts sampleTrace

theorem retention_unblocked_sample :
    returns (prune sampleDatabase 1) ⟨sampleShared.world,[]⟩ = true := by
  obtain ⟨hplans,hreturns⟩ := retention_unblocked sampleTables sampleCodec Rpc.sampleChain
    samplePlatform (fun _ => .null) sampleShared sampleDatabase 1 sample_reachable
  obtain ⟨plan,hplan⟩ := hplans.mpr ⟨le_rfl,by decide,sample_readable⟩
  exact (hreturns plan hplan).1

end EvmState.Sharing
