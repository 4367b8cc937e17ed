import EvmState.Portable

/-!
# Importing a portable checkpoint

An import verifies the files, stores their rows under a new snapshot, verifies
the rows that are really stored and publishes last. The files are opened anew
for the insertions, so that only the second verification is about what was
stored.
-/

set_option autoImplicit false

namespace EvmState.Importer
open EvmState.Hex EvmState.Fallible EvmState.OrderedMap EvmState.Store EvmState.Encoding
open EvmState.Params EvmState.Bootstrap EvmState.Proof EvmState.Header EvmState.Build EvmState.Crash
open EvmState.Publication EvmState.Portable

/-- How the database reads the rows of an insertion: the snapshot from its
field, and the other columns in any way. -/
structure Tables where
  storage : Json → Except String StorageRow
  accounts : Json → Except String AccountRow
  storage_snapshot : ∀ row r id, storage row = .ok r → row.get? "snapshot_id" = some (.str id) →
    r.snapshotId = id
  accounts_snapshot : ∀ row r id, accounts row = .ok r → row.get? "snapshot_id" = some (.str id) →
    r.snapshotId = id

section Stored
variable (alloy : Alloy) (platform : Platform)

def verifyStoredRow (db : CheckpointDb) (snapshotId : String) (record : Json) (s : Verifying)
    (row : AccountRow) : Except String Verifying := do
  let metadata := accountJson row
  let proven ← proveRow alloy record row.address metadata
    "restored metadata differs from its proven account"
  let slots := storedSlots db snapshotId row.address
  let count ← completeRow alloy proven (slots.map .ok) metadata
    "restored storage count differs from account metadata"
  ensure (s.total+count < 2^64) "restored slot count overflow"
  return s.add row.address slots metadata count

def verifyStored (db : CheckpointDb) (snapshotId : String) (record : Json) : Except String Unit := do
  let accounts := accountsOf db snapshotId
  ensure (.arr (accounts.map (fun r => .str r.address)) = record.index "accounts")
    "restored account coverage differs from the checkpoint"
  let s ← accounts.foldlM (verifyStoredRow alloy db snapshotId record) ⟨"",0⟩
  ensure ((storageOf db snapshotId).length = s.total ∧
    some s.total = (record.index "nonzero_slots").asU64 ∧
    record.index "state_sha256" = .str (platform.sha256 s.digested))
    "restored checkpoint contains missing, unexpected or altered state"

end Stored

section Insert
variable {ρ : Type} (read : Json → Except String ρ) (store : List ρ → CheckpointDb → CheckpointDb)

/-- One request. The database reads all of its rows or takes none. -/
def insertBody (rows : List Json) : Prog CheckpointDb Unit := do
  let rows ← check (rows.mapM read)
  perform (store rows)

/-- Rows go out in batches. An error among them stops before its own batch. -/
def insert (batch : ℕ) : List Json → List (Except String Json) → Prog CheckpointDb Unit
  | pending, [] => if pending = [] then return () else insertBody read store pending
  | _, .error e::_ => check (.error e)
  | pending, .ok row::rows =>
    if (pending++[row]).length = batch then do
      insertBody read store (pending++[row])
      insert batch [] rows
    else insert batch (pending++[row]) rows

end Insert

def storeStorage (rows : List StorageRow) (db : CheckpointDb) : CheckpointDb :=
  { db with storage := db.storage.insertRows rows }

def storeAccounts (rows : List AccountRow) (db : CheckpointDb) : CheckpointDb :=
  { db with accounts := db.accounts.insertRows rows }

def named (snapshotId : String) (row : Json) : Json := row.set "snapshot_id" (.str snapshotId)

section Import
variable (tables : Tables) (codec : Codec) (alloy : Alloy) (platform : Platform)

def insertPage (disk : Disk) (snapshotId : String) (page : ℕ × Json) : Prog CheckpointDb Unit := do
  let rows ← check (pageRows codec disk page.1 page.2)
  insert tables.storage storeStorage 10000 []
    ((rows.rows platform.fromSlice).map (Except.map (named snapshotId)))
  next
  next

def restoredAccount (snapshotId : String) (row : Json) : Except String Json := do
  validateAccountFields row
  let nonce ← exactNonce (row.index "nonce")
  return named snapshotId (row.set "nonce" (.ofNat nonce))

def restoredRecord (layout : Json) (snapshotId : String) (createdAt budgetBytes : ℕ) : Json :=
  let record := layout.index "checkpoint"
  (((((named snapshotId record).set "base_snapshot" .null).set "sources" (.arr [])).set "created_at"
    (.ofNat createdAt)).set "retained_budget_bytes" (.ofNat budgetBytes)).set "imported_from"
    (.ofPairs [("snapshot_id",record.index "snapshot_id"),("sources",record.index "sources"),
      ("manifest_content_sha256",.str (platform.sha256 layout.canonicalJson))])

/-- The row that makes the snapshot ready, with its manifest as text. -/
def publishedRow (restored : Json) (snapshotId : String) (createdAt : ℕ) :
    Except String CheckpointRow := do
  let number ← uint ((restored.index "header").index "number")
  let hash ← string (restored.index "header") "hash"
  return ⟨snapshotId,number,hash,createdAt,restored.canonicalJson⟩

def importCheckpoint (manifest : Except String Opened) (first second : Disk)
    (expectedHash : Option String) (snapshotId : String) (createdAt budgetBytes : ℕ) :
    Prog CheckpointDb Json := do
  let layout ← check (readJson platform.fromSlice manifest)
  next
  let _ ← check (verifyLayout codec alloy platform first layout expectedHash)
  let record := layout.index "checkpoint"
  next
  next
  let pages ← check (context (layout.index "storage_pages").asArray "invalid storage pages")
  (pages.zipIdx.map Prod.swap).forM (insertPage tables codec platform second snapshotId)
  let name ← check (checkFile codec (second .checkAccounts) (layout.index "account_file"))
  let accounts ← check (readJson platform.fromSlice (second .readAccounts name))
  let accounts ← check (context accounts.asArray "invalid restored account fields")
  insert tables.accounts storeAccounts 1000 [] (accounts.map (restoredAccount snapshotId))
  query (fun db => verifyStored alloy platform db snapshotId record)
  next
  let restored := restoredRecord platform layout snapshotId createdAt budgetBytes
  next
  let row ← check (publishedRow restored snapshotId createdAt)
  perform (fun db => { db with checkpoints := db.checkpoints.upsert row })
  -- the acknowledgement of the insertion may be lost
  next
  return restored

end Import
section Sound
variable {alloy : Alloy} {platform : Platform} {db : CheckpointDb} {snapshotId : String} {record : Json}

theorem proveRow_ok {account : String} {metadata : Json} {message : String} {a : Account}
    (h : proveRow alloy record account metadata message = .ok a) :
    (∃ text, string (record.index "header") "state_root" = .ok text ∧
      verifyAccount alloy text account ((((record.index "proof_bundle").index "accounts").index
        account).index "proof") = .ok a) ∧
    metadata.index "exists" = .bool a.exists ∧
    (∃ text, string metadata "storage_root" = .ok text ∧ fixed 32 text = .ok a.storageRoot) ∧
    metadata.index "code" =
      (((record.index "proof_bundle").index "accounts").index account).index "code" := by
  obtain ⟨root,hroot,h⟩ := bind_ok.mp h
  obtain ⟨a',hproven,h⟩ := bind_ok.mp h
  obtain ⟨_,hsame,h⟩ := bind_ok.mp h
  obtain rfl := pure_ok.mp h
  obtain ⟨_,he,hsame⟩ := bind_ok.mp hsame
  obtain ⟨text,ht,hsame⟩ := bind_ok.mp hsame
  obtain ⟨root',hf,hsame⟩ := bind_ok.mp hsame
  obtain ⟨rfl,hcode⟩ := ensure_ok.mp hsame
  exact ⟨⟨root,hroot,hproven⟩,ensure_ok.mp he,⟨text,ht,hf⟩,hcode⟩

theorem completeRow_ok {a : Account} {slots : List (Except String (String × String))}
    {metadata : Json} {message : String} {count : ℕ}
    (h : completeRow alloy a slots metadata message = .ok count) :
    ∃ code pairs, string metadata "code" = .ok code ∧ Matches alloy a code metadata ∧
      slots = pairs.map .ok ∧ count = pairs.length ∧ Hashes alloy pairs a.storageRoot ∧
      (metadata.index "nonzero_slots").asU64 = some count := by
  obtain ⟨code,hcode,h⟩ := bind_ok.mp h
  obtain ⟨n,hn,h⟩ := bind_ok.mp h
  obtain ⟨_,he,h⟩ := bind_ok.mp h
  obtain rfl := pure_ok.mp h
  obtain ⟨hm,pairs,hpairs,hcount,hhashes⟩ := verifyComplete_ok hn
  exact ⟨code,pairs,hcode,hm,hpairs,hcount,hhashes,(ensure_ok.mp he).symm⟩

theorem accountJson_field (r : AccountRow) (name : String) : (accountJson r).get? name =
    lookup name [("address",.str r.address),("exists",.bool r.exists),("nonce",.ofNat r.nonce),
      ("balance",.str r.balance),("storage_root",.str r.storageRoot),("code_hash",.str r.codeHash),
      ("code",.str r.code),("nonzero_slots",.ofNat r.nonzeroSlots)] :=
  Json.get?_ofPairs (by simp) name

theorem asU64_eq {n m : ℕ} (h : (Json.ofNat n).asU64 = some m) : n = m := by
  rw [Json.ofNat, Json.asU64, Json.decimal_toString] at h
  exact (Option.filter_eq_some_iff.mp h).1 |> Option.some.inj

theorem asU64_num {j : Json} {n : ℕ} (h : j.asU64 = some n) :
    ∃ text, j = .num text ∧ Json.decimal text = some n := by
  cases j with
  | num text => exact ⟨text,rfl,(Option.filter_eq_some_iff.mp h).1⟩
  | _ => cases h

theorem verifyStoredRow_ok {row : AccountRow} {s s' : Verifying}
    (hc : ∃ b : Bytes, b.length = 20 ∧ row.address = hex b)
    (h : verifyStoredRow alloy db snapshotId record s row = .ok s') :
    (∃ a, Proven alloy record row (storedSlots db snapshotId row.address) a) ∧
      s' = s.add row.address (storedSlots db snapshotId row.address) (accountJson row)
        (storedSlots db snapshotId row.address).length := by
  obtain ⟨a,hprove,h⟩ := bind_ok.mp h
  obtain ⟨count,hcount,h⟩ := bind_ok.mp h
  obtain ⟨_,-,h⟩ := bind_ok.mp h
  obtain rfl := pure_ok.mp h
  obtain ⟨⟨text,htext,hproven⟩,he,⟨root,hroot,hstorage⟩,-⟩ := proveRow_ok hprove
  obtain ⟨code,pairs,hcode,hm,hpairs,rfl,hhashes,hslots⟩ := completeRow_ok hcount
  obtain rfl : storedSlots db snapshotId row.address = pairs :=
    List.map_injective_iff.mpr (fun _ _ h => Except.ok.inj h) hpairs
  obtain ⟨bytes,nodes,hbytes,hnodes,hname,hopens⟩ := verifyAccount_ok hproven
  have hfield := accountJson_field row
  have haddress : row.address = a.address := by
    obtain ⟨b,hb,hrow⟩ := hc
    rw [hrow, address_hex hb] at hname
    rw [hrow, Except.ok.inj hname]
  have hexists : row.exists = a.exists := by
    rw [Json.index, hfield] at he
    exact Json.bool.inj (by simpa [lookup] using he)
  have hnonce : row.nonce = a.nonce := by
    have := hm.nonce
    rw [hfield] at this
    exact asU64_eq (by simpa [lookup] using this)
  have hbalance : row.balance = toString a.balance := by
    obtain ⟨text,ht,hexact,hd,-⟩ := hm.balance
    have := get?_of_string ht
    rw [hfield] at this
    obtain rfl : row.balance = text := by simpa [lookup] using this
    exact Json.decimal_exact hd (hexact.imp_right And.left)
  have hhash : fixed 32 row.codeHash = .ok a.codeHash := by
    obtain ⟨text,ht,hf⟩ := hm.codeHash
    have := get?_of_string ht
    rw [hfield] at this
    obtain rfl : row.codeHash = text := by simpa [lookup] using this
    exact hf
  have hroot' : fixed 32 row.storageRoot = .ok a.storageRoot := by
    have := get?_of_string hroot
    rw [hfield] at this
    obtain rfl : row.storageRoot = root := by simpa [lookup] using this
    exact hstorage
  have hcode' : row.code = code := by
    have := get?_of_string hcode
    rw [hfield] at this
    simpa [lookup] using this
  have hcount' : row.nonzeroSlots = (storedSlots db snapshotId row.address).length := by
    rw [Json.index, hfield] at hslots
    exact asU64_eq (by simpa [lookup] using hslots)
  exact ⟨⟨a,⟨⟨text,bytes,nodes,htext,hbytes,hnodes,hopens⟩,haddress,hexists,hnonce,hbalance,hhash,
    hroot',hcode' ▸ hm.code,hhashes,hcount'⟩⟩,rfl⟩

theorem verifyStoredRows_ok {rows : List AccountRow} {s s' : Verifying}
    (hc : ∀ r ∈ rows, ∃ b : Bytes, b.length = 20 ∧ r.address = hex b)
    (h : rows.foldlM (verifyStoredRow alloy db snapshotId record) s = .ok s') :
    (∀ r ∈ rows, ∃ a, Proven alloy record r (storedSlots db snapshotId r.address) a) ∧
      s'.digested = s.digested ++ String.join (rows.map (fun r =>
        String.join ((storedSlots db snapshotId r.address).map (rowText r.address)) ++
          (accountJson r).canonicalJson)) ∧
      s'.total = s.total+(rows.map (fun r => (storedSlots db snapshotId r.address).length)).sum := by
  induction rows generalizing s with
  | nil =>
    obtain rfl := pure_ok.mp h
    exact ⟨by simp,by simp,rfl⟩
  | cons r rows ih =>
    obtain ⟨hr,hc⟩ := List.forall_mem_cons.mp hc
    obtain ⟨s'',hrow,h⟩ := bind_ok.mp h
    obtain ⟨hproven,rfl⟩ := verifyStoredRow_ok hr hrow
    obtain ⟨hrest,hdigest,htotal⟩ := ih hc h
    refine ⟨List.forall_mem_cons.mpr ⟨hproven,hrest⟩,?_,?_⟩
    · rw [hdigest, List.map_cons, String.join_cons]
      simp only [Verifying.add, String.append_assoc]
    · rw [htotal, List.map_cons, List.sum_cons, Verifying.add, Nat.add_assoc]

theorem accountsOf_nodup (db : CheckpointDb) (snapshotId : String) :
    ((accountsOf db snapshotId).map (·.address)).Nodup := by
  have hsorted := db.accounts.sorted.filter (fun r => decide (r.snapshotId = snapshotId))
  refine List.pairwise_map.mpr (hsorted.imp_of_mem (fun {a b} ha hb hlt he => ?_))
  have hid : a.snapshotId = b.snapshotId :=
    (of_decide_eq_true (List.mem_filter.mp ha).2).trans
      (of_decide_eq_true (List.mem_filter.mp hb).2).symm
  have hkey : accountKey a = accountKey b := by rw [accountKey, accountKey, hid, he]
  exact absurd (hkey ▸ hlt) (lt_irrefl _)

/-- The second verification certifies the rows that are really stored. -/
theorem verifyStored_ok
    (hc : ∀ r ∈ accountsOf db snapshotId, ∃ b : Bytes, b.length = 20 ∧ r.address = hex b)
    (h : verifyStored alloy platform db snapshotId record = .ok ()) :
    Certified platform alloy record (accountsOf db snapshotId) (storageOf db snapshotId) := by
  obtain ⟨_,hcoverage,h⟩ := bind_ok.mp h
  obtain ⟨s,hs,h⟩ := bind_ok.mp h
  obtain ⟨hcount,htotal,hchecksum⟩ := ensure_ok.mp h
  obtain ⟨hproven,hdigest,hsum⟩ := verifyStoredRows_ok hc hs
  have hslots : ∀ account, slotsOf (storageOf db snapshotId) account =
      storedSlots db snapshotId account := slotsOf_storageOf db snapshotId
  refine ⟨(ensure_ok.mp hcoverage).symm,fun r hr => ?_,?_,?_,?_⟩
  · rw [hslots]
    exact hproven r hr
  · refine counted_rows (accountsOf_nodup db snapshotId) ?_
    rw [hcount, hsum, Nat.zero_add, List.map_map]
    refine congrArg List.sum (List.map_congr_left (fun r _ => ?_))
    rw [storedSlots_length]
    rfl
  · rw [hcount]
    exact asU64_num htotal.symm
  · rw [hchecksum, hdigest, String.empty_append, digestOf]
    simp only [hslots]
    rfl

end Sound

section Steps
variable {ρ : Type} {read : Json → Except String ρ} {store : List ρ → CheckpointDb → CheckpointDb}
  {K : CheckpointDb → Prop} {G : Json → Prop}

theorem insertBody_triple {rows : List Json}
    (hstep : ∀ typed db, rows.mapM read = .ok typed → K db → K (store typed db)) :
    Triple K (insertBody read store rows) (fun _ => K) K :=
  triple_check_then (fun _ h => h) (fun typed ht =>
    triple_perform (fun db hk => hstep typed db ht hk) (fun _ h => h))

theorem insert_triple {batch : ℕ}
    (hstep : ∀ (rows : List Json) typed db, (∀ r ∈ rows, G r) → rows.mapM read = .ok typed → K db →
      K (store typed db)) {rows : List (Except String Json)} {pending : List Json}
    (hp : ∀ r ∈ pending, G r) (hr : ∀ r, .ok r ∈ rows → G r) :
    Triple K (insert read store batch pending rows) (fun _ => K) K := by
  induction rows generalizing pending with
  | nil =>
    unfold insert
    split_ifs
    · exact triple_pure () (fun _ h => h)
    · exact insertBody_triple (fun typed db => hstep pending typed db hp)
  | cons row rows ih =>
    have hrest : ∀ r, .ok r ∈ rows → G r := fun r h => hr r (List.mem_cons_of_mem _ h)
    cases row with
    | error e => exact triple_check (fun _ _ _ h => by cases h) (fun _ h => h)
    | ok row =>
      have hp' : ∀ r ∈ pending++[row], G r := by
        intro r h
        rcases List.mem_append.mp h with h | h
        · exact hp r h
        · obtain rfl := List.mem_singleton.mp h
          exact hr r (by simp)
      unfold insert
      split_ifs
      · exact triple_bind (insertBody_triple (fun typed db => hstep _ typed db hp'))
          (fun _ => ih (by simp) hrest)
      · exact ih hp' hrest

end Steps

section Gate
variable {tables : Tables} {codec : Codec} {alloy : Alloy} {platform : Platform}
  {db : CheckpointDb} {snapshotId : String}

/-- A row that is sent under the snapshot. -/
def Names (snapshotId : String) (row : Json) : Prop := row.get? "snapshot_id" = some (.str snapshotId)

theorem named_names {row : Json} (h : row.asObject.isSome) : Names snapshotId (named snapshotId row) := by
  cases row with
  | obj fields => exact (Json.get?_set _ _).trans (if_pos rfl)
  | _ => cases h

theorem storage_unpublished {rows : List Json} {typed : List StorageRow} {t : CheckpointDb}
    (hr : ∀ r ∈ rows, Names snapshotId r) (ht : rows.mapM tables.storage = .ok typed)
    (h : Unpublished snapshotId db t) : Unpublished snapshotId db (storeStorage typed t) := by
  refine ⟨h.checkpoints,fun r hid => Iff.trans ?_ (h.storage r hid),h.accounts⟩
  refine mem_insertRows_other (fun q hq he => hid ?_)
  obtain ⟨row,hrow,hread⟩ := (Timeline.exists_related (mapM_ok.mp ht)).2 q hq
  rw [(Prod.mk.inj (toLex.injective he)).1]
  exact tables.storage_snapshot row q snapshotId hread (hr row hrow)

theorem accounts_unpublished {rows : List Json} {typed : List AccountRow} {t : CheckpointDb}
    (hr : ∀ r ∈ rows, Names snapshotId r) (ht : rows.mapM tables.accounts = .ok typed)
    (h : Unpublished snapshotId db t) : Unpublished snapshotId db (storeAccounts typed t) := by
  refine ⟨h.checkpoints,h.storage,fun r hid => Iff.trans ?_ (h.accounts r hid)⟩
  refine mem_insertRows_other (fun q hq he => hid ?_)
  obtain ⟨row,hrow,hread⟩ := (Timeline.exists_related (mapM_ok.mp ht)).2 q hq
  rw [(Prod.mk.inj (toLex.injective he)).1]
  exact tables.accounts_snapshot row q snapshotId hread (hr row hrow)

theorem insertPage_triple (disk : Disk) (page : ℕ × Json) :
    Triple (Unpublished snapshotId db) (insertPage tables codec platform disk snapshotId page)
      (fun _ => Unpublished snapshotId db) (Unpublished snapshotId db) := by
  refine triple_check_then (fun _ h => h) (fun rows _ => ?_)
  refine triple_bind (insert_triple (G := Names snapshotId)
    (fun _ _ _ hr ht hk => storage_unpublished hr ht hk) (by simp) (fun r hr => ?_))
    (fun _ => triple_next_then (fun _ h => h) (triple_next (fun _ h => h)))
  obtain ⟨row,hrow,hmap⟩ := List.mem_map.mp hr
  obtain ⟨row',rfl,rfl⟩ : ∃ row', row = .ok row' ∧ named snapshotId row' = r := by
    cases row with
    | error e => cases hmap
    | ok row' => exact ⟨row',rfl,Except.ok.inj hmap⟩
  refine named_names ?_
  have hfields := collect_fields hrow
  unfold hasRowFields at hfields
  exact Option.isSome_of_any hfields

theorem restoredAccount_names {row r : Json} (h : restoredAccount snapshotId row = .ok r) :
    Names snapshotId r := by
  obtain ⟨_,hv,h⟩ := bind_ok.mp h
  obtain ⟨_,-,h⟩ := bind_ok.mp h
  obtain rfl := pure_ok.mp h
  obtain ⟨fields,hf,-⟩ := bind_ok.mp hv
  refine named_names ?_
  cases row with
  | obj fields => rfl
  | _ => cases context_ok.mp hf

/-- What an import has found out about its files and the rows that it stored
before it publishes. -/
structure Imported (codec : Codec) (alloy : Alloy) (platform : Platform) (manifest : Except String Opened)
    (first : Disk) (expectedHash : Option String) (snapshotId : String) (createdAt budgetBytes : ℕ)
    (u : CheckpointDb) (layout : Json) (row : CheckpointRow) : Prop where
  read : readJson platform.fromSlice manifest = .ok layout
  verified : ∃ report, verifyLayout codec alloy platform first layout expectedHash = .ok report
  stored : verifyStored alloy platform u snapshotId (layout.index "checkpoint") = .ok ()
  published : publishedRow (restoredRecord platform layout snapshotId createdAt budgetBytes) snapshotId
    createdAt = .ok row

def Restored (codec : Codec) (alloy : Alloy) (platform : Platform) (manifest : Except String Opened)
    (first : Disk) (expectedHash : Option String) (snapshotId : String) (createdAt budgetBytes : ℕ)
    (db t : CheckpointDb) (layout : Json) : Prop :=
  ∃ u row, Unpublished snapshotId db u ∧
    Imported codec alloy platform manifest first expectedHash snapshotId createdAt budgetBytes u
      layout row ∧ t = { u with checkpoints := db.checkpoints.upsert row }

theorem importCheckpoint_triple (manifest : Except String Opened) (first second : Disk)
    (expectedHash : Option String) (createdAt budgetBytes : ℕ) :
    Triple (fun t => t = db) (importCheckpoint tables codec alloy platform manifest first second
        expectedHash snapshotId createdAt budgetBytes)
      (fun out t => ∃ layout, Restored codec alloy platform manifest first expectedHash snapshotId
          createdAt budgetBytes db t layout ∧
        out = restoredRecord platform layout snapshotId createdAt budgetBytes)
      (fun t => Unpublished snapshotId db t ∨ ∃ layout, Restored codec alloy platform manifest first
        expectedHash snapshotId createdAt budgetBytes db t layout) := by
  let C : CheckpointDb → Prop := fun t => Unpublished snapshotId db t ∨ ∃ layout, Restored codec alloy
    platform manifest first expectedHash snapshotId createdAt budgetBytes db t layout
  have hstay : ∀ t : CheckpointDb, Unpublished snapshotId db t → C t := fun _ h => .inl h
  have hsame : ∀ t : CheckpointDb, t = db → Unpublished snapshotId db t := by
    rintro t rfl
    exact ⟨rfl,fun _ _ => Iff.rfl,fun _ _ => Iff.rfl⟩
  have hkeep : ∀ t : CheckpointDb, t = db → C t := fun t ht => .inl (hsame t ht)
  refine triple_check_then hkeep (fun layout hlayout => triple_next_then hkeep
    (triple_check_then hkeep (fun report hreport => triple_next_then hkeep (triple_next_then hkeep
    (triple_check_then hkeep (fun pages _ => ?_))))))
  refine triple_bind (M := fun _ => Unpublished snapshotId db)
    ((triple_forM (fun page _ => insertPage_triple second page)).weaken hsame (fun _ _ h => h) hstay)
    (fun _ => ?_)
  refine triple_check_then hstay (fun name _ => triple_check_then hstay (fun value _ =>
    triple_check_then hstay (fun accounts _ => ?_)))
  refine triple_bind ((insert_triple (G := Names snapshotId) (fun _ _ _ hr ht hk =>
    accounts_unpublished hr ht hk) (by simp) (fun r hr => ?_)).weaken (fun _ h => h) (fun _ _ h => h)
    hstay) (fun _ => ?_)
  · obtain ⟨row,-,hrow⟩ := List.mem_map.mp hr
    exact restoredAccount_names hrow
  refine triple_query_then hstay (fun u _ hu hstored => ?_)
  have hu' : ∀ t : CheckpointDb, t = u → C t := by
    rintro t rfl
    exact .inl hu
  refine triple_next_then hu' (triple_next_then hu' (triple_check_then hu' (fun row hrow => ?_)))
  refine triple_perform_then hu' (fun t ht => ?_)
  have hrestored : ∀ s, s = { t with checkpoints := t.checkpoints.upsert row } →
      Restored codec alloy platform manifest first expectedHash snapshotId createdAt budgetBytes db s
        layout := by
    rintro s rfl
    subst ht
    exact ⟨t,row,hu,⟨hlayout,⟨report,hreport⟩,hstored,hrow⟩,by rw [hu.checkpoints]⟩
  exact triple_next_then (fun s hs => .inr ⟨layout,hrestored s hs⟩)
    (triple_pure _ (fun s hs => ⟨layout,hrestored s hs,rfl⟩))

theorem index_set_ne {j v : Json} {k name : String} (h : name ≠ k) :
    (j.set k v).index name = j.index name := by
  cases j with
  | obj fields => rw [Json.index, Json.get?_set, if_neg h, ← Json.index]
  | _ => rfl

theorem restored_field (layout : Json) (createdAt budgetBytes : ℕ) {name : String}
    (h : name ∉ ["snapshot_id","base_snapshot","sources","created_at","retained_budget_bytes",
      "imported_from"]) : (restoredRecord platform layout snapshotId createdAt budgetBytes).index name =
        (layout.index "checkpoint").index name := by
  simp only [List.mem_cons, List.not_mem_nil, or_false, not_or] at h
  obtain ⟨h1,h2,h3,h4,h5,h6⟩ := h
  rw [restoredRecord, index_set_ne h6, index_set_ne h5, index_set_ne h4, index_set_ne h3,
    index_set_ne h2, named, index_set_ne h1]

theorem certified_congr {m m' : Json} {accounts : List AccountRow} {storage : List StorageRow}
    (h : ∀ name ∈ ["accounts","header","proof_bundle","nonzero_slots","state_sha256"],
      m'.index name = m.index name) (hc : Certified platform alloy m accounts storage) :
    Certified platform alloy m' accounts storage := by
  simp only [List.forall_mem_cons] at h
  obtain ⟨ha,hh,hb,hn,hs,-⟩ := h
  refine ⟨ha.trans hc.coverage,fun r hr => ?_,hc.complete,hn ▸ hc.total,hs.trans hc.checksum⟩
  obtain ⟨a,hp⟩ := hc.proven r hr
  obtain ⟨text,root,nodes,ht,hr,hnodes,ho⟩ := hp.opens
  exact ⟨a,{ hp with opens := ⟨text,root,nodes,by rw [hh]; exact ht,hr,by rw [hb]; exact hnodes,ho⟩ }⟩

theorem verifyLayout_ok {disk : Disk} {layout report : Json} {expectedHash : Option String}
    (h : verifyLayout codec alloy platform disk layout expectedHash = .ok report) :
    (∃ text encoded, string ((layout.index "checkpoint").index "proof_bundle") "header_rlp" = .ok text ∧
      unhex text = .ok encoded ∧ Encodes alloy encoded ((layout.index "checkpoint").index "header") ∧
      ∀ e ∈ expectedHash, fixed 32 e = .ok (alloy.keccak256 encoded)) ∧
    ∃ selected, Canonical selected ∧
      (layout.index "checkpoint").index "accounts" = .arr (selected.map .str) := by
  obtain ⟨_,-,h⟩ := bind_ok.mp h
  obtain ⟨text,htext,h⟩ := bind_ok.mp h
  obtain ⟨digest,hdigest,h⟩ := bind_ok.mp h
  obtain ⟨selected,hselected,-⟩ := bind_ok.mp h
  obtain ⟨encoded,hu,rfl,hencodes,hexpected⟩ := verifyHeader_ok.mp hdigest
  obtain ⟨l,hl,hselected⟩ := bind_ok.mp hselected
  obtain ⟨_,hsame,hselected⟩ := bind_ok.mp hselected
  obtain ⟨_,-,hselected⟩ := bind_ok.mp hselected
  obtain ⟨_,-,hselected⟩ := bind_ok.mp hselected
  obtain rfl := pure_ok.mp hselected
  exact ⟨⟨text,encoded,mapError_ok.mp htext,hu,hencodes,hexpected⟩,l,canonicalAccounts_canonical hl,
    (ensure_ok.mp hsame).symm⟩

theorem verifyLayout_ready {disk : Disk} {layout report : Json} {expectedHash : Option String}
    (h : verifyLayout codec alloy platform disk layout expectedHash = .ok report) :
    (layout.index "checkpoint").index "status" = .str "ready" := by
  obtain ⟨_,hsnapshot,-⟩ := bind_ok.mp h
  obtain ⟨_,-,hsnapshot⟩ := bind_ok.mp hsnapshot
  obtain ⟨_,hready,-⟩ := bind_ok.mp hsnapshot
  exact (ensure_ok.mp hready).1

theorem restored_named {layout : Json} {createdAt budgetBytes : ℕ}
    (h : (layout.index "checkpoint").index "status" = .str "ready") :
    (restoredRecord platform layout snapshotId createdAt budgetBytes).index "snapshot_id" =
      .str snapshotId := by
  rw [restoredRecord, index_set_ne (by decide), index_set_ne (by decide), index_set_ne (by decide),
    index_set_ne (by decide), index_set_ne (by decide), Json.index, named_names, Option.getD_some]
  cases hj : layout.index "checkpoint" with
  | obj fields => rfl
  | _ =>
    rw [hj] at h
    cases h

theorem publishedRow_eq {restored : Json} {createdAt : ℕ} {row : CheckpointRow}
    (h : publishedRow restored snapshotId createdAt = .ok row) :
    row.snapshotId = snapshotId ∧ row.manifest = restored.canonicalJson := by
  obtain ⟨_,-,h⟩ := bind_ok.mp h
  obtain ⟨_,-,h⟩ := bind_ok.mp h
  obtain rfl := pure_ok.mp h
  exact ⟨rfl,rfl⟩

/-- What an import found out is what it published. -/
theorem imported_publishes {manifest : Except String Opened} {first : Disk}
    {expectedHash : Option String} {createdAt budgetBytes : ℕ} {u : CheckpointDb} {layout : Json}
    {row : CheckpointRow} (hu : Unpublished snapshotId db u)
    (hi : Imported codec alloy platform manifest first expectedHash snapshotId createdAt budgetBytes u
      layout row) :
    Publishes platform alloy snapshotId db { u with checkpoints := db.checkpoints.upsert row } row
      (restoredRecord platform layout snapshotId createdAt budgetBytes) := by
  obtain ⟨hid,hmanifest⟩ := publishedRow_eq hi.published
  have hkept := unpublished_kept hu
  obtain ⟨report,hreport⟩ := hi.verified
  obtain ⟨-,selected,hcanon,haccounts⟩ := verifyLayout_ok hreport
  have hready := verifyLayout_ready hreport
  have hcert : Certified platform alloy (layout.index "checkpoint") (accountsOf u snapshotId)
      (storageOf u snapshotId) := by
    refine verifyStored_ok (fun r hr => ?_) hi.stored
    obtain ⟨_,hcoverage,-⟩ := bind_ok.mp hi.stored
    have hlist := Json.arr.inj ((ensure_ok.mp hcoverage).trans haccounts)
    have hmem : Json.str r.address ∈ selected.map Json.str :=
      hlist ▸ List.mem_map.mpr ⟨r,hr,rfl⟩
    obtain ⟨a,ha,he⟩ := List.mem_map.mp hmem
    obtain rfl := Json.str.inj he
    exact hcanon.address _ ha
  refine ⟨⟨hkept.storage,hkept.accounts,fun r hne => ?_⟩,rfl,hid,hmanifest,restored_named hready,?_,?_⟩
  · show r ∈ (db.checkpoints.upsert row).rows ↔ _
    rw [Table.mem_upsert, hid]
    constructor
    · rintro (rfl | ⟨h,-⟩)
      · exact absurd hid hne
      · exact h
    · exact fun h => .inr ⟨h,hne⟩
  · rw [restored_field layout createdAt budgetBytes (by decide)]
    exact hready
  · refine certified_congr (fun name hname => restored_field layout createdAt budgetBytes ?_) hcert
    simp only [List.mem_cons, List.not_mem_nil, or_false] at hname
    rcases hname with rfl | rfl | rfl | rfl | rfl <;> decide

/-- From a database an import has published certified rows under a header
whose encoding the export carries. -/
def Adopted (platform : Platform) (alloy : Alloy) (expectedHash : Option String)
    (snapshotId : String) (db t : CheckpointDb) : Prop :=
  ∃ row record, Publishes platform alloy snapshotId db t row record ∧
    ∃ text encoded, string (record.index "proof_bundle") "header_rlp" = .ok text ∧
      unhex text = .ok encoded ∧ Encodes alloy encoded (record.index "header") ∧
      ∀ e ∈ expectedHash, fixed 32 e = .ok (alloy.keccak256 encoded)

theorem restored_adopted {manifest : Except String Opened} {first : Disk}
    {expectedHash : Option String} {createdAt budgetBytes : ℕ} {t : CheckpointDb} {layout : Json}
    (h : Restored codec alloy platform manifest first expectedHash snapshotId createdAt budgetBytes db
      t layout) : Adopted platform alloy expectedHash snapshotId db t := by
  obtain ⟨u,row,hu,hi,rfl⟩ := h
  obtain ⟨report,hreport⟩ := hi.verified
  obtain ⟨⟨text,encoded,htext,hencoded,hencodes,hexpected⟩,-⟩ := verifyLayout_ok hreport
  refine ⟨row,_,imported_publishes hu hi,text,encoded,?_,hencoded,?_,hexpected⟩
  · rw [restored_field layout createdAt budgetBytes (by decide)]
    exact htext
  · rw [restored_field layout createdAt budgetBytes (by decide)]
    exact hencodes

/-- Whatever its files hold at each opening, an import that returns has
published rows that are certified where they are stored, under the header
whose encoding the export carries. One that stops has published nothing, or
just this when only the last acknowledgement was lost. -/
theorem import_certified (tables : Tables) (codec : Codec) (alloy : Alloy) (platform : Platform)
    (manifest : Except String Opened) (first second : Disk) (expectedHash : Option String)
    (snapshotId : String) (createdAt budgetBytes : ℕ) (db : CheckpointDb)
    (script : List (Option String)) :
    let p := importCheckpoint tables codec alloy platform manifest first second expectedHash
      snapshotId createdAt budgetBytes
    let t := ends p ⟨db,script⟩
    Kept snapshotId db t ∧
      (t.checkpoints = db.checkpoints ∨ Adopted platform alloy expectedHash snapshotId db t) ∧
      (returns p ⟨db,script⟩ = true → Adopted platform alloy expectedHash snapshotId db t) := by
  intro p t
  have htriple : Triple (fun t => t = db) p _ _ := importCheckpoint_triple manifest first second
    expectedHash createdAt budgetBytes
  obtain ⟨hok,herror⟩ := Triple.outcome (h := ⟨db,script⟩) htriple rfl
  have hadopted : returns p ⟨db,script⟩ = true →
      Adopted platform alloy expectedHash snapshotId db t := by
    intro hr
    obtain ⟨_,layout,hrestored,-⟩ := hok hr
    exact restored_adopted hrestored
  have hkept : Adopted platform alloy expectedHash snapshotId db t → Kept snapshotId db t := by
    rintro ⟨row,record,hrow,-⟩
    exact hrow.kept
  cases hr : returns p ⟨db,script⟩ with
  | true => exact ⟨hkept (hadopted hr),.inr (hadopted hr),fun _ => hadopted hr⟩
  | false =>
    rcases herror hr with h | ⟨layout,h⟩
    · exact ⟨unpublished_kept h,.inl h.checkpoints,fun h => by cases h⟩
    · have h := restored_adopted h
      exact ⟨hkept h,.inr h,fun _ => h⟩

end Gate
end EvmState.Importer
