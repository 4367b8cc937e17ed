import EvmState.Incremental
import EvmState.PrettyJson
import EvmState.Reader
import EvmState.Rpc

/-!
# Building a checkpoint

A build verifies its bundle, picks and checks its sources, and stores the
candidate's storage rows. It then proves each selected account against the
rows that are really there, counts them, stores the account rows and publishes
the manifest last. The checksum hashes, for each account in turn, its storage
rows and its metadata row, one after another without separators.
-/

set_option autoImplicit false

namespace EvmState.Build
open EvmState.Hex EvmState.Fallible EvmState.OrderedMap EvmState.Store EvmState.Encoding
open EvmState.Params EvmState.Queries EvmState.Crash EvmState.Bootstrap EvmState.Preflight
open EvmState.Incremental EvmState.Proof EvmState.Header EvmState.Text

/-- What a checksum covers of one account: the proven account, its code and
its storage rows as they are stored. -/
structure Section where
  proven : Account
  code : String
  count : ℕ
  slots : List (String × String)

/-- The metadata row, without the snapshot that it is stored under. -/
def Section.json (s : Section) : Json :=
  (s.proven.json.set "code" (.str s.code)).set "nonzero_slots" (.ofNat s.count)

def Section.row (s : Section) (snapshotId : String) : AccountRow where
  snapshotId := snapshotId
  address := s.proven.address
  «exists» := s.proven.exists
  nonce := s.proven.nonce
  balance := toString s.proven.balance
  codeHash := hex s.proven.codeHash
  code := s.code
  storageRoot := hex s.proven.storageRoot
  nonzeroSlots := s.count

def Section.digested (account : String) (s : Section) : String :=
  String.join (s.slots.map (fun e => account ++ e.1 ++ e.2)) ++ s.json.canonicalJson

/-- The record of a publication, and the text that its checksum hashes. -/
structure Published where
  record : Json
  digested : String

def encodedHeader (bundle : Json) : Option String :=
  (bundle.index "header_rlp").asStr.filter (· ≠ "")

section Bundle
variable (alloy : Alloy)

/-- A header without its encoding is only the word of a provider. -/
def checkEncoding (bundle : Json) : Except String Unit :=
  match encodedHeader bundle with
  | some encoded => do
    let _ ← verifyHeader alloy encoded (bundle.index "header") none
    return ()
  | none => ensure (bundle.index "header_trust" ≠ .str "operator-pinned-hash")
      "a pinned block hash requires its encoded header"

def checkBundle (bundle : Json) : Except String Target := do
  ensure (bundle.index "format_version" = .ofNat 1 ∧ bundle.index "chain_id" = .ofNat 56)
    "v0.1 qualification requires a BSC proof bundle"
  let target ← uint ((bundle.index "header").index "number")
  let hash ← string (bundle.index "header") "hash"
  let _ ← fixed 32 hash
  let root ← string (bundle.index "header") "state_root"
  let _ ← fixed 32 root
  ensure (bundle.index "header_trust" = .str "provider-finalized-header" ∨
    bundle.index "header_trust" = .str "operator-pinned-hash") "unrecognized header trust source"
  checkEncoding alloy bundle
  return ⟨target,hash,root⟩

theorem encodedHeader_some {bundle : Json} {text : String} :
    encodedHeader bundle = some text ↔ string bundle "header_rlp" = .ok text ∧ text ≠ "" := by
  rw [encodedHeader, Option.filter_eq_some_iff, decide_eq_true_eq, string, context_ok, Json.index]
  cases bundle.get? "header_rlp" <;> rfl

theorem checkEncoding_some {bundle : Json} {text : String} (h : checkEncoding alloy bundle = .ok ())
    (ht : encodedHeader bundle = some text) :
    ∃ digest, verifyHeader alloy text (bundle.index "header") none = .ok digest := by
  rw [checkEncoding, ht] at h
  obtain ⟨digest,hdigest,-⟩ := bind_ok.mp h
  exact ⟨digest,hdigest⟩

theorem checkBundle_ok {bundle : Json} {target : Target} (h : checkBundle alloy bundle = .ok target) :
    bundle.index "format_version" = .ofNat 1 ∧ bundle.index "chain_id" = .ofNat 56 ∧
    (bundle.index "header_trust" = .str "provider-finalized-header" ∨
      bundle.index "header_trust" = .str "operator-pinned-hash") ∧
    checkEncoding alloy bundle = .ok () := by
  obtain ⟨_,hformat,h⟩ := bind_ok.mp h
  obtain ⟨_,-,h⟩ := bind_ok.mp h
  obtain ⟨_,-,h⟩ := bind_ok.mp h
  obtain ⟨_,-,h⟩ := bind_ok.mp h
  obtain ⟨_,-,h⟩ := bind_ok.mp h
  obtain ⟨_,-,h⟩ := bind_ok.mp h
  obtain ⟨_,htrust,h⟩ := bind_ok.mp h
  obtain ⟨_,hencoding,-⟩ := bind_ok.mp h
  obtain ⟨hversion,hchain⟩ := ensure_ok.mp hformat
  exact ⟨hversion,hchain,ensure_ok.mp htrust,hencoding⟩

end Bundle

def readBase (fromSlice : Bytes → Option Json) (db : CheckpointDb) (id : String) :
    Except String Base := do
  let published ← Reader.manifest fromSlice db id
  let accounts ← canonicalAccounts (published.index "accounts")
  let number ← uint ((published.index "header").index "number")
  let hash ← string (published.index "header") "hash"
  return ⟨id,number,hash,accounts⟩

def storedSlots (db : CheckpointDb) (snapshotId account : String) : List (String × String) :=
  (db.storage.rows.filter (fun r => r.snapshotId = snapshotId && r.address = account)).map
    (fun r => (r.slot,r.value))

/-- The proven fields, overlaid by those that the streams or the base show. -/
def metadataOf (observed : Fields) (account : String) (proven : Account) : Json :=
  match observed.get? account with
  | some fields => proven.json.extend fields.entries
  | none => proven.json

structure Building where
  digested : String
  rows : List AccountRow
  verification : List (String × Json)
  totalSlots : ℕ

def verified (count : ℕ) : Json :=
  .ofPairs [("nonzero_slots",.ofNat count),("account_proof",.str "verified"),
    ("storage_root",.str "verified")]

def Building.add (snapshotId : String) (s : Building) (account : String) (x : Section) : Building where
  digested := s.digested ++ x.digested account
  rows := s.rows++[x.row snapshotId]
  verification := s.verification++[(account,verified x.count)]
  totalSlots := s.totalSlots+x.count

section Run
variable (platform : Platform) (alloy : Alloy) (worlds : String → SourceWorld)
  (describe : Source → Json)

/-- One account. The steps that cost capacity or budget may each refuse. -/
def buildAccount (bundle : Json) (snapshotId : String) (observed : Fields) (s : Building)
    (account : String) : Prog CheckpointDb Building := do
  let evidence := (bundle.index "accounts").index account
  let root ← check (string (bundle.index "header") "state_root")
  let proven ← check (verifyAccount alloy root account (evidence.index "proof"))
  let metadata := metadataOf observed account proven
  let code ← check (context ((metadata.get? "code").getD (evidence.index "code")).asStr
    "invalid account bytecode")
  let slots ← query (fun db => .ok (storedSlots db snapshotId account))
  next
  let count ← check (verifyComplete alloy proven (slots.map .ok) code metadata)
  next
  check (ensure (s.totalSlots+count < 2^64) "checkpoint slot count overflow")
  next
  next
  return s.add snapshotId account ⟨proven,code,count,slots⟩

def buildAccounts (bundle : Json) (snapshotId : String) (observed : Fields) :
    Building → List String → Prog CheckpointDb Building
  | s, [] => return s
  | s, account::accounts => do
    let s ← buildAccount alloy bundle snapshotId observed s account
    buildAccounts bundle snapshotId observed s accounts

def storeCandidate (snapshotId : String) (sources : List Source) (base : Option Base) (last : ℕ) :
    Prog CheckpointDb Unit := do
  let union ← query (fun db => unionStorage (fun d => (worlds d).db) db sources base last)
  perform (fun db =>
    { db with storage := db.storage.insertRows (storageRows snapshotId (finalStorage union)) })

def recordOf (bundle : Json) (snapshotId : String) (accounts : List String)
    (baseId : Option String) (sources : List Source) (s : Building) (createdAt budgetBytes : ℕ) :
    Json :=
  .ofPairs [("format_version",.ofNat 1),("snapshot_id",.str snapshotId),("status",.str "ready"),
    ("chain_id",bundle.index "chain_id"),("header",bundle.index "header"),
    ("header_trust",bundle.index "header_trust"),("accounts",.arr (accounts.map .str)),
    ("base_snapshot",baseId.elim .null .str),("sources",.arr (sources.map describe)),
    ("verification",.ofPairs s.verification),("state_sha256",.str (platform.sha256 s.digested)),
    ("proof_bundle",bundle),("created_at",.ofNat createdAt),
    ("retained_budget_bytes",.ofNat budgetBytes),("account_count",.ofNat accounts.length),
    ("nonzero_slots",.ofNat s.totalSlots)]

/-- The account rows, the injected observation between them and the manifest,
and the manifest, whose insertion may fail after it took effect. -/
def publish (record : Json) (row : CheckpointRow) (rows : List AccountRow) :
    Prog CheckpointDb Json := do
  perform (fun db => { db with accounts := db.accounts.insertRows rows })
  next
  next
  next
  perform (fun db => { db with checkpoints := db.checkpoints.upsert row })
  next
  return record

def buildUnlocked (bundle : Json) (sources : List Source) (baseId : Option String)
    (snapshotId : String) (createdAt budgetBytes : ℕ) : Prog CheckpointDb Published := do
  let target ← check (checkBundle alloy bundle)
  let accounts ← check (canonicalAccounts (bundle.index "accounts"))
  let base ← query (fun db => baseId.mapM (readBase platform.fromSlice db))
  next
  let sources ← check (preflight platform worlds base accounts target sources)
  next
  next
  storeCandidate worlds snapshotId sources base target.number
  let observed ← query (fun db =>
    observedFields (fun d => (worlds d).db) db sources base target.number)
  next
  let s ← buildAccounts alloy bundle snapshotId observed ⟨"",[],[],0⟩ accounts
  let stored ← query (fun db =>
    .ok (db.storage.rows.filter (fun r => r.snapshotId = snapshotId)).length)
  check (ensure (stored = s.totalSlots)
    "checkpoint contains unverified or unexpected storage accounts")
  check (ensure (observed.keys.all (· ∈ accounts))
    "stream contains account metadata outside its declared filter")
  let record := recordOf platform describe bundle snapshotId accounts baseId sources s createdAt
    budgetBytes
  let record ← publish record
    ⟨snapshotId,target.number,target.hash,createdAt,record.canonicalJson⟩ s.rows
  return ⟨record,s.digested⟩

end Run

/-- An account whose rows in a state a build verified. -/
structure Verified (alloy : Alloy) (bundle : Json) (snapshotId : String) (observed : Fields)
    (db : CheckpointDb) (account : String) (x : Section) : Prop where
  proven : ∃ root, string (bundle.index "header") "state_root" = .ok root ∧
    verifyAccount alloy root account (((bundle.index "accounts").index account).index "proof") =
      .ok x.proven
  code : (((metadataOf observed account x.proven).get? "code").getD
    (((bundle.index "accounts").index account).index "code")).asStr = some x.code
  slots : x.slots = storedSlots db snapshotId account
  complete : verifyComplete alloy x.proven (x.slots.map .ok) x.code
    (metadataOf observed account x.proven) = .ok x.count

def Building.addAll (snapshotId : String) (s : Building) (accounts : List String)
    (xs : List Section) : Building :=
  (accounts.zip xs).foldl (fun s e => s.add snapshotId e.1 e.2) s

section Runs
variable {platform : Platform} {alloy : Alloy} {worlds : String → SourceWorld}
  {describe : Source → Json} {bundle : Json} {snapshotId : String} {observed : Fields}

theorem buildAccount_triple (db : CheckpointDb) (s : Building) (account : String) :
    Triple (fun t => t = db) (buildAccount alloy bundle snapshotId observed s account)
      (fun r t => t = db ∧ ∃ x, Verified alloy bundle snapshotId observed db account x ∧
        r = s.add snapshotId account x) (fun t => t = db) := by
  have hstay : ∀ t : CheckpointDb, t = db → t = db := fun _ h => h
  refine triple_check_then hstay (fun root hroot => triple_check_then hstay (fun proven hproven =>
    triple_check_then hstay (fun code hcode => triple_query_then hstay (fun t slots ht hslots => ?_))))
  obtain rfl := ht
  obtain rfl := Except.ok.inj hslots
  refine triple_next_then hstay (triple_check_then hstay (fun count hcount =>
    triple_next_then hstay (triple_check_then hstay (fun _ _ => triple_next_then hstay
      (triple_next_then hstay (triple_pure _ (fun t ht => ⟨ht,_,?_,rfl⟩)))))))
  exact ⟨⟨root,hroot,hproven⟩,context_ok.mp hcode,rfl,hcount⟩

theorem buildAccounts_triple (db : CheckpointDb) (accounts : List String) (s : Building) :
    Triple (fun t => t = db) (buildAccounts alloy bundle snapshotId observed s accounts)
      (fun r t => t = db ∧ ∃ xs,
        List.Forall₂ (Verified alloy bundle snapshotId observed db) accounts xs ∧
        r = s.addAll snapshotId accounts xs) (fun t => t = db) := by
  induction accounts generalizing s with
  | nil => exact triple_pure _ (fun t ht => ⟨ht,[],.nil,rfl⟩)
  | cons account accounts ih =>
    refine triple_bind (buildAccount_triple db s account) (fun r h hr => ?_)
    obtain ⟨ht,x,hx,rfl⟩ := hr
    have hrest : Triple (fun t => t = db)
        (buildAccounts alloy bundle snapshotId observed (s.add snapshotId account x) accounts)
        (fun r t => t = db ∧ ∃ xs,
          List.Forall₂ (Verified alloy bundle snapshotId observed db) (account::accounts) xs ∧
          r = s.addAll snapshotId (account::accounts) xs) (fun t => t = db) := by
      refine (ih _).weaken (fun _ h => h) ?_ (fun _ h => h)
      rintro r t ⟨ht,xs,hxs,rfl⟩
      exact ⟨ht,x::xs,.cons hx hxs,rfl⟩
    exact hrest h ht

end Runs

def candidate (snapshotId : String) (union : List UnionRow) (db : CheckpointDb) : CheckpointDb :=
  { db with storage := db.storage.insertRows (storageRows snapshotId (finalStorage union)) }

structure Trace where
  target : Target
  accounts : List String
  base : Option Base
  sources : List Source
  union : List UnionRow
  observed : Fields
  sections : List Section

def Trace.building (x : Trace) (snapshotId : String) : Building :=
  Building.addAll snapshotId ⟨"",[],[],0⟩ x.accounts x.sections

/-- What a build that returns has found out about its inputs and a state. -/
structure Completed (platform : Platform) (alloy : Alloy) (worlds : String → SourceWorld)
    (bundle : Json) (sources : List Source) (baseId : Option String) (snapshotId : String)
    (db : CheckpointDb) (x : Trace) : Prop where
  checkedBundle : checkBundle alloy bundle = .ok x.target
  accounts : canonicalAccounts (bundle.index "accounts") = .ok x.accounts
  base : baseId.mapM (readBase platform.fromSlice db) = .ok x.base
  sources : preflight platform worlds x.base x.accounts x.target sources = .ok x.sources
  union : unionStorage (fun d => (worlds d).db) db x.sources x.base x.target.number = .ok x.union
  observed : observedFields (fun d => (worlds d).db) (candidate snapshotId x.union db) x.sources
    x.base x.target.number = .ok x.observed
  verified : List.Forall₂ (Verified alloy bundle snapshotId x.observed
    (candidate snapshotId x.union db)) x.accounts x.sections
  counted : ((candidate snapshotId x.union db).storage.rows.filter
    (fun r => r.snapshotId = snapshotId)).length = (x.building snapshotId).totalSlots
  declared : ∀ a ∈ x.observed.keys, a ∈ x.accounts

def Trace.checkpoint (x : Trace) (snapshotId : String) (record : Json) (createdAt : ℕ) :
    CheckpointRow := ⟨snapshotId,x.target.number,x.target.hash,createdAt,record.canonicalJson⟩

def Trace.after (x : Trace) (snapshotId : String) (record : Json) (createdAt : ℕ)
    (db : CheckpointDb) : CheckpointDb where
  storage := (candidate snapshotId x.union db).storage
  accounts := db.accounts.insertRows (x.building snapshotId).rows
  checkpoints := db.checkpoints.upsert (x.checkpoint snapshotId record createdAt)

/-- No checkpoint is published, and the rows of other snapshots are kept. -/
structure Unpublished (snapshotId : String) (db t : CheckpointDb) : Prop where
  checkpoints : t.checkpoints = db.checkpoints
  storage : ∀ r : StorageRow, r.snapshotId ≠ snapshotId → (r ∈ t.storage.rows ↔ r ∈ db.storage.rows)
  accounts : ∀ r : AccountRow, r.snapshotId ≠ snapshotId →
    (r ∈ t.accounts.rows ↔ r ∈ db.accounts.rows)

theorem mem_insertRows_other {ρ κ : Type*} [LinearOrder κ] {key : ρ → κ} {t : Table key}
    {rs : List ρ} {s : ρ} (h : ∀ r ∈ rs, key s ≠ key r) :
    s ∈ (t.insertRows rs).rows ↔ s ∈ t.rows := by
  have hout : ∀ r ∈ rs, ∀ a, key a = key r → decide (key a = key s) = false :=
    fun r hr a ha => decide_eq_false (fun hs => h r hr (hs ▸ ha))
  have hsel := congrArg Table.rows (t.select_insertRows hout)
  have hmem : ∀ u : Table key, s ∈ u.rows ↔ s ∈ (u.select (fun a => key a = key s)).rows := by
    simp
  rw [hmem, hsel, ← hmem]

theorem unpublished_candidate (snapshotId : String) (union : List UnionRow) (db : CheckpointDb) :
    Unpublished snapshotId db (candidate snapshotId union db) := by
  refine ⟨rfl,fun r hr => mem_insertRows_other (fun q hq he => hr ?_),fun _ _ => Iff.rfl⟩
  obtain ⟨e,-,rfl⟩ := List.mem_map.mp hq
  exact (Prod.mk.inj (toLex.injective he)).1

theorem addAll_cons (snapshotId : String) (s : Building) (a : String) (accounts : List String)
    (x : Section) (xs : List Section) : s.addAll snapshotId (a::accounts) (x::xs) =
      (s.add snapshotId a x).addAll snapshotId accounts xs := rfl

theorem addAll_rows (snapshotId : String) (accounts : List String) (xs : List Section)
    (s : Building) : (s.addAll snapshotId accounts xs).rows =
      s.rows++((accounts.zip xs).map (fun e => e.2.row snapshotId)) := by
  induction accounts generalizing s xs with
  | nil => simp [Building.addAll]
  | cons a accounts ih =>
    cases xs with
    | nil => simp [Building.addAll]
    | cons x xs =>
      rw [addAll_cons, ih xs (s.add snapshotId a x), Building.add, List.append_assoc]
      rfl

theorem addAll_digested (snapshotId : String) (accounts : List String) (xs : List Section) (s : Building) :
    (s.addAll snapshotId accounts xs).digested =
      s.digested ++ String.join ((accounts.zip xs).map (fun e => e.2.digested e.1)) := by
  induction accounts generalizing s xs with
  | nil => simp [Building.addAll]
  | cons a accounts ih =>
    cases xs with
    | nil => simp [Building.addAll]
    | cons y xs =>
      rw [addAll_cons, ih xs (s.add snapshotId a y), Building.add]
      simp [String.append_assoc]

theorem addAll_slots (snapshotId : String) (accounts : List String) (xs : List Section) (s : Building) :
    (s.addAll snapshotId accounts xs).totalSlots =
      s.totalSlots+((accounts.zip xs).map (fun e => e.2.count)).sum := by
  induction accounts generalizing s xs with
  | nil => simp [Building.addAll]
  | cons a accounts ih =>
    cases xs with
    | nil => simp [Building.addAll]
    | cons y xs =>
      rw [addAll_cons, ih xs (s.add snapshotId a y), Building.add]
      simp [Nat.add_assoc]

theorem unpublished_accounts {snapshotId : String} {db t : CheckpointDb} {accounts : List String}
    {xs : List Section} (h : Unpublished snapshotId db t) :
    Unpublished snapshotId db { t with
      accounts := t.accounts.insertRows (Building.addAll snapshotId ⟨"",[],[],0⟩ accounts xs).rows } := by
  refine ⟨h.checkpoints,h.storage,fun r hr => Iff.trans ?_ (h.accounts r hr)⟩
  refine mem_insertRows_other (fun q hq he => hr ?_)
  rw [addAll_rows] at hq
  obtain ⟨e,-,rfl⟩ := List.mem_map.mp hq
  exact (Prod.mk.inj (toLex.injective he)).1

section Whole
variable {platform : Platform} {alloy : Alloy} {worlds : String → SourceWorld}
  {describe : Source → Json} {bundle : Json} {sources : List Source} {baseId : Option String}
  {snapshotId : String} {createdAt budgetBytes : ℕ}

def Trace.record (x : Trace) (platform : Platform) (describe : Source → Json) (bundle : Json)
    (baseId : Option String) (snapshotId : String) (createdAt budgetBytes : ℕ) : Json :=
  recordOf platform describe bundle snapshotId x.accounts baseId x.sources (x.building snapshotId)
    createdAt budgetBytes

def Built (platform : Platform) (alloy : Alloy) (worlds : String → SourceWorld)
    (describe : Source → Json) (bundle : Json) (sources : List Source) (baseId : Option String)
    (snapshotId : String) (createdAt budgetBytes : ℕ) (db t : CheckpointDb) (x : Trace) : Prop :=
  Completed platform alloy worlds bundle sources baseId snapshotId db x ∧ t = x.after snapshotId
    (x.record platform describe bundle baseId snapshotId createdAt budgetBytes) createdAt db

theorem buildUnlocked_triple (db : CheckpointDb) :
    Triple (fun t => t = db) (buildUnlocked platform alloy worlds describe bundle sources baseId
        snapshotId createdAt budgetBytes)
      (fun out t => ∃ x, Built platform alloy worlds describe bundle sources baseId snapshotId
          createdAt budgetBytes db t x ∧
        out = ⟨x.record platform describe bundle baseId snapshotId createdAt budgetBytes,
          (x.building snapshotId).digested⟩)
      (fun t => Unpublished snapshotId db t ∨ ∃ x, Built platform alloy worlds describe bundle sources
        baseId snapshotId createdAt budgetBytes db t x) := by
  let C : CheckpointDb → Prop := fun t => Unpublished snapshotId db t ∨ ∃ x, Built platform alloy
    worlds describe bundle sources baseId snapshotId createdAt budgetBytes db t x
  have hkeep : ∀ t : CheckpointDb, t = db → C t := by
    rintro t rfl
    exact .inl ⟨rfl,fun _ _ => Iff.rfl,fun _ _ => Iff.rfl⟩
  refine triple_check_then hkeep (fun target htarget => triple_check_then hkeep (fun accounts hacc =>
    triple_query_then hkeep (fun t base ht hbase => ?_)))
  obtain rfl := ht
  refine triple_next_then hkeep (triple_check_then hkeep (fun checked hchecked =>
    triple_next_then hkeep (triple_next_then hkeep ?_)))
  have hstore : Triple (fun s => s = t) (storeCandidate worlds snapshotId checked base target.number)
      (fun _ s => ∃ union, unionStorage (fun d => (worlds d).db) t checked base target.number =
        .ok union ∧ s = candidate snapshotId union t) C := by
    refine triple_query_then hkeep (fun s union hs hu => ?_)
    subst hs
    exact triple_perform (fun q hq => ⟨union,hu,hq ▸ rfl⟩) hkeep
  refine triple_bind hstore (fun _ => triple_from (fun s hs => ?_))
  obtain ⟨union,hunion,rfl⟩ := hs
  have hcand : ∀ s, s = candidate snapshotId union t → C s := by
    rintro s rfl
    exact .inl (unpublished_candidate snapshotId union t)
  refine triple_query_then hcand (fun s observed hs hobserved => triple_next_then (hs ▸ hcand) ?_)
  subst hs
  refine triple_bind ((buildAccounts_triple (candidate snapshotId union t) accounts ⟨"",[],[],0⟩).weaken
    (fun _ h => h) (fun _ _ h => h) hcand) (fun r => triple_from (fun s hs => ?_))
  obtain ⟨rfl,xs,hverified,rfl⟩ := hs
  refine triple_query_then hcand (fun s stored hs hstored => ?_)
  subst hs
  obtain rfl := Except.ok.inj hstored
  refine triple_check_then hcand (fun _ hcount => triple_check_then hcand (fun _ hdeclared => ?_))
  let x : Trace := ⟨target,accounts,base,checked,union,observed,xs⟩
  have hx : Completed platform alloy worlds bundle sources baseId snapshotId t x :=
    ⟨htarget,hacc,hbase,hchecked,hunion,hobserved,hverified,ensure_ok.mp hcount,
      by simpa using ensure_ok.mp hdeclared⟩
  have haccounts : ∀ s, s = { candidate snapshotId union t with
      accounts := t.accounts.insertRows (x.building snapshotId).rows } → C s := by
    rintro s rfl
    exact .inl (unpublished_accounts (unpublished_candidate snapshotId union t))
  have hbuilt : ∀ s, s = x.after snapshotId (x.record platform describe bundle baseId snapshotId
      createdAt budgetBytes) createdAt t → Built platform alloy worlds describe bundle sources baseId
        snapshotId createdAt budgetBytes t s x := fun s hs => ⟨hx,hs⟩
  refine triple_bind (M := fun out s => s = x.after snapshotId (x.record platform describe bundle baseId
        snapshotId createdAt budgetBytes) createdAt t ∧
      out = x.record platform describe bundle baseId snapshotId createdAt budgetBytes) ?_
    (fun out => triple_pure _ (fun s hs => ⟨x,hbuilt s hs.1,by rw [hs.2]; rfl⟩))
  refine triple_perform_then hcand (fun s hs => ?_)
  subst hs
  refine triple_next_then haccounts (triple_next_then haccounts (triple_next_then haccounts
    (triple_perform_then haccounts (fun s hs => ?_))))
  -- the acknowledgement of the last insertion may be lost
  subst hs
  exact triple_next_then (fun s hs => .inr ⟨x,hbuilt s hs⟩) (triple_pure _ (fun s hs => ⟨hs,rfl⟩))

theorem buildAccount_runs {db : CheckpointDb} {observed : Fields} {s : Building} {account : String}
    {y : Section} (h : Verified alloy bundle snapshotId observed db account y)
    (hs : s.totalSlots+y.count < 2^64) :
    Runs (buildAccount alloy bundle snapshotId observed s account) db (s.add snapshotId account y)
      db := by
  obtain ⟨root,hroot,hproven⟩ := h.proven
  have hslots := h.slots
  have hcode := h.code
  have hcomplete := h.complete
  obtain ⟨proven,code,count,slots⟩ := y
  refine runs_check hroot (runs_check hproven (runs_check (context_ok.mpr hcode) ?_))
  refine runs_query (a := slots) (congrArg _ hslots.symm) (runs_next (runs_check hcomplete ?_))
  exact runs_next (runs_ensure hs (runs_next (runs_next (runs_pure _ _))))

theorem buildAccounts_runs {db : CheckpointDb} {observed : Fields} {accounts : List String}
    {xs : List Section} {s : Building}
    (h : List.Forall₂ (Verified alloy bundle snapshotId observed db) accounts xs)
    (hs : (s.addAll snapshotId accounts xs).totalSlots < 2^64) :
    Runs (buildAccounts alloy bundle snapshotId observed s accounts) db
      (s.addAll snapshotId accounts xs) db := by
  induction h generalizing s with
  | nil => exact runs_pure _ _
  | @cons account y accounts xs hy _ ih =>
    rw [addAll_cons] at hs ⊢
    have hle : s.totalSlots+y.count < 2^64 := by
      rw [addAll_slots] at hs
      exact lt_of_le_of_lt (Nat.le_add_right _ _) hs
    exact runs_bind (buildAccount_runs hy hle) (ih hs)

/-- A build that finds all this out and meets no failing step publishes. -/
theorem buildUnlocked_runs {db : CheckpointDb} {x : Trace}
    (h : Completed platform alloy worlds bundle sources baseId snapshotId db x)
    (hs : (x.building snapshotId).totalSlots < 2^64) :
    Runs (buildUnlocked platform alloy worlds describe bundle sources baseId snapshotId createdAt
        budgetBytes) db
      ⟨x.record platform describe bundle baseId snapshotId createdAt budgetBytes,
        (x.building snapshotId).digested⟩
      (x.after snapshotId (x.record platform describe bundle baseId snapshotId createdAt budgetBytes)
        createdAt db) := by
  refine runs_check h.checkedBundle (runs_check h.accounts (runs_query h.base (runs_next
    (runs_check h.sources (runs_next (runs_next ?_))))))
  have hstore : Runs (storeCandidate worlds snapshotId x.sources x.base x.target.number) db ()
      (candidate snapshotId x.union db) := runs_query h.union rfl
  refine runs_bind hstore (runs_query h.observed (runs_next
    (runs_bind (buildAccounts_runs h.verified hs) ?_)))
  refine runs_query rfl (runs_ensure h.counted (runs_ensure ?_ ?_))
  · simpa using h.declared
  · refine runs_bind (runs_perform (runs_next (runs_next (runs_next (runs_perform (runs_next
      (runs_pure _ _))))))) ?_
    exact runs_pure _ _

section Rows
variable {db : CheckpointDb} {x : Trace}

theorem canonicalAccounts_canonical {values : Json} {accounts : List String}
    (h : canonicalAccounts values = .ok accounts) : Canonical accounts := by
  obtain ⟨texts,-,h⟩ := bind_ok.mp h
  exact accountSet_canonical h

/-- What holds of an account and its section by the build's checks. -/
structure Shaped (account : String) (x : Section) : Prop where
  address : account = x.proven.address
  account : ∃ b, fixed 20 account = .ok b
  slots : ∀ e ∈ x.slots, (∃ b, fixed 32 e.1 = .ok b) ∧ ∃ b, fixed 32 e.2 = .ok b
  count : x.count = x.slots.length

theorem leaf_words {slot value : String} {row : Bytes × Bytes} (h : leaf alloy slot value = .ok row) :
    (∃ b, fixed 32 slot = .ok b) ∧ ∃ b, fixed 32 value = .ok b := by
  obtain ⟨key,hkey,h⟩ := bind_ok.mp h
  obtain ⟨word,hword,-⟩ := bind_ok.mp h
  exact ⟨⟨key,hkey⟩,word,hword⟩

theorem verified_shaped {observed : Fields} {account : String} {y : Section}
    (h : Verified alloy bundle snapshotId observed db account y)
    (hc : ∃ b : Bytes, b.length = 20 ∧ account = hex b) : Shaped account y := by
  obtain ⟨root,-,hproven⟩ := h.proven
  obtain ⟨_,_,-,-,hname,-⟩ := verifyAccount_ok hproven
  obtain ⟨b,hb,rfl⟩ := hc
  obtain ⟨-,pairs,hpairs,hcount,hhashes⟩ := verifyComplete_ok h.complete
  obtain rfl : y.slots = pairs :=
    List.map_injective_iff.mpr (fun _ _ h => Except.ok.inj h) hpairs
  refine ⟨Except.ok.inj ((address_hex hb).symm.trans hname),⟨b,fixed_hex hb⟩,fun e he => ?_,hcount⟩
  obtain ⟨leaves,hleaves,-,-⟩ := hhashes.leaves
  obtain ⟨row,-,hrow⟩ := (Timeline.exists_related (mapM_ok.mp hleaves)).1 e he
  exact leaf_words hrow

theorem completed_shaped
    (h : Completed platform alloy worlds bundle sources baseId snapshotId db x) :
    List.Forall₂ Shaped x.accounts x.sections := by
  have hcanon := canonicalAccounts_canonical h.accounts
  obtain ⟨hlen,hverified⟩ := List.forall₂_iff_zip.mp h.verified
  exact List.forall₂_iff_zip.mpr ⟨hlen,fun hmem =>
    verified_shaped (hverified hmem) (hcanon.address _ (List.of_mem_zip hmem).1)⟩

theorem filter_account {a : String} {accounts : List String} (h : a ∉ accounts)
    (rows : List StorageRow) : (rows.filter (fun r => r.address ∈ a::accounts)).length =
      (rows.filter (fun r => r.address = a)).length+
        (rows.filter (fun r => r.address ∈ accounts)).length := by
  induction rows with
  | nil => rfl
  | cons r rows ih =>
    simp only [List.mem_cons] at ih ⊢
    by_cases ha : r.address = a
    · have hout : r.address ∉ accounts := ha ▸ h
      rw [List.filter_cons_of_pos (by simp [ha]), List.filter_cons_of_pos (by simp [ha]),
        List.filter_cons_of_neg (by simpa using hout), List.length_cons, List.length_cons, ih]
      omega
    · by_cases hin : r.address ∈ accounts
      · rw [List.filter_cons_of_pos (by simp [hin]), List.filter_cons_of_neg (by simp [ha]),
          List.filter_cons_of_pos (by simp [hin]), List.length_cons, List.length_cons, ih]
        omega
      · rw [List.filter_cons_of_neg (by simp [ha, hin]), List.filter_cons_of_neg (by simp [ha]),
          List.filter_cons_of_neg (by simp [hin]), ih]

theorem counted_rows {rows : List StorageRow} {accounts : List String} (hn : accounts.Nodup)
    (h : rows.length = (accounts.map (fun a => (rows.filter (fun r => r.address = a)).length)).sum) :
    ∀ r ∈ rows, r.address ∈ accounts := by
  have hsum : (accounts.map (fun a => (rows.filter (fun r => r.address = a)).length)).sum =
      (rows.filter (fun r => r.address ∈ accounts)).length := by
    clear h
    induction accounts with
    | nil => simp
    | cons a accounts ih =>
      obtain ⟨ha,hn⟩ := List.nodup_cons.mp hn
      rw [List.map_cons, List.sum_cons, ih hn, filter_account ha]
  rw [hsum, eq_comm, List.length_filter_eq_length_iff] at h
  simpa using h

theorem storedSlots_length (t : CheckpointDb) (account : String) :
    (storedSlots t snapshotId account).length =
      ((t.storage.rows.filter (fun r => r.snapshotId = snapshotId)).filter
        (fun r => r.address = account)).length := by
  rw [storedSlots, List.length_map, List.filter_filter]
  simp only [Bool.and_comm]

theorem mem_storedSlots {t : CheckpointDb} {account : String} {e : String × String} :
    e ∈ storedSlots t snapshotId account ↔
      (⟨snapshotId,account,e.1,e.2⟩ : StorageRow) ∈ t.storage.rows := by
  simp only [storedSlots, List.mem_map, List.mem_filter, Bool.and_eq_true, decide_eq_true_eq]
  constructor
  · rintro ⟨r,⟨hr,rfl,rfl⟩,rfl⟩
    exact hr
  · exact fun h => ⟨_,⟨h,rfl,rfl⟩,rfl⟩

theorem completed_accounts
    (h : Completed platform alloy worlds bundle sources baseId snapshotId db x) :
    ∀ r ∈ (candidate snapshotId x.union db).storage.rows, r.snapshotId = snapshotId →
      r.address ∈ x.accounts := by
  have hcanon := canonicalAccounts_canonical h.accounts
  have hnodup : x.accounts.Nodup := hcanon.sorted.imp (fun h => h.ne)
  obtain ⟨hlen,hverified⟩ := List.forall₂_iff_zip.mp h.verified
  obtain ⟨-,hshaped⟩ := List.forall₂_iff_zip.mp (completed_shaped h)
  intro r hr hid
  have hin : r ∈ (candidate snapshotId x.union db).storage.rows.filter
      (fun r => r.snapshotId = snapshotId) := List.mem_filter.mpr ⟨hr,decide_eq_true hid⟩
  refine counted_rows hnodup ?_ r hin
  rw [h.counted, Trace.building, addAll_slots, Nat.zero_add]
  have hcounts : ∀ e ∈ x.accounts.zip x.sections, e.2.count =
      (((candidate snapshotId x.union db).storage.rows.filter
        (fun r => r.snapshotId = snapshotId)).filter (fun r => r.address = e.1)).length := by
    intro e he
    rw [(hshaped he).count, (hverified he).slots, storedSlots_length]
  rw [List.map_congr_left hcounts]
  conv_rhs => rw [← @List.map_fst_zip _ _ x.accounts x.sections hlen.le]
  rw [List.map_map]
  rfl

theorem completed_storage
    (h : Completed platform alloy worlds bundle sources baseId snapshotId db x) (r : StorageRow) :
    { r with snapshotId := snapshotId } ∈ (candidate snapshotId x.union db).storage.rows ↔
      ∃ e ∈ x.accounts.zip x.sections, e.1 = r.address ∧ (r.slot,r.value) ∈ e.2.slots := by
  obtain ⟨hlen,hverified⟩ := List.forall₂_iff_zip.mp h.verified
  constructor
  · intro hr
    have ha := completed_accounts h _ hr rfl
    rw [← @List.map_fst_zip _ _ x.accounts x.sections hlen.le] at ha
    obtain ⟨e,he,ha⟩ := List.mem_map.mp ha
    refine ⟨e,he,ha,?_⟩
    rw [(hverified he).slots, ha, mem_storedSlots]
    exact hr
  · rintro ⟨⟨a,y⟩,he,rfl,hslot⟩
    rw [(hverified he).slots, mem_storedSlots] at hslot
    exact hslot

theorem mem_insertRows_key {ρ κ : Type*} [LinearOrder κ] {key : ρ → κ} {t : Table key}
    {rs : List ρ} (hd : rs.Pairwise (fun a b => key a ≠ key b)) {s : ρ}
    (hk : ∃ r ∈ rs, key s = key r) : s ∈ (t.insertRows rs).rows ↔ s ∈ rs := by
  induction rs generalizing t with
  | nil => simp at hk
  | cons r rs ih =>
    obtain ⟨hr,hd⟩ := List.pairwise_cons.mp hd
    rw [Table.insertRows, List.foldl_cons, ← Table.insertRows, List.mem_cons]
    by_cases hrest : ∃ q ∈ rs, key s = key q
    · have hne : s ≠ r := by
        rintro rfl
        obtain ⟨q,hq,he⟩ := hrest
        exact hr q hq he
      rw [ih hd hrest, or_iff_right hne]
    · have hout : ∀ q ∈ rs, key s ≠ key q := fun q hq he => hrest ⟨q,hq,he⟩
      have hkey : key s = key r := by
        obtain ⟨q,hq,he⟩ := hk
        rcases List.mem_cons.mp hq with rfl | hq
        · exact he
        · exact absurd he (hout q hq)
      have hnot : s ∉ rs := fun hs => hout s hs rfl
      rw [mem_insertRows_other hout, Table.mem_upsert, or_iff_left hnot]
      simp [hkey]

theorem completed_rows
    (h : Completed platform alloy worlds bundle sources baseId snapshotId db x) (r : AccountRow)
    (hr : r.address ∈ x.accounts) : { r with snapshotId := snapshotId } ∈
        (db.accounts.insertRows (x.building snapshotId).rows).rows ↔
      ∃ e ∈ x.accounts.zip x.sections, { r with snapshotId := snapshotId } = e.2.row snapshotId := by
  have hcanon := canonicalAccounts_canonical h.accounts
  obtain ⟨hlen,hshaped⟩ := List.forall₂_iff_zip.mp (completed_shaped h)
  have hkey : ∀ e ∈ x.accounts.zip x.sections, accountKey (e.2.row snapshotId) =
      toLex (snapshotId,e.1) := by
    intro e he
    rw [(hshaped he).address]
    rfl
  have hdistinct : (x.accounts.zip x.sections).Pairwise (fun a b => a.1 ≠ b.1) := by
    have hsorted := hcanon.sorted
    rw [← @List.map_fst_zip _ _ x.accounts x.sections hlen.le] at hsorted
    exact (List.pairwise_map.mp hsorted).imp (fun h => h.ne)
  rw [Trace.building, addAll_rows, List.nil_append, mem_insertRows_key]
  · simp [eq_comm]
  · refine List.pairwise_map.mpr (hdistinct.imp_of_mem (fun ha hb hne he => hne ?_))
    rw [hkey _ ha, hkey _ hb] at he
    exact (Prod.mk.inj (toLex.injective he)).2
  · rw [← @List.map_fst_zip _ _ x.accounts x.sections hlen.le] at hr
    obtain ⟨e,he,ha⟩ := List.mem_map.mp hr
    exact ⟨_,List.mem_map.mpr ⟨e,he,rfl⟩,(by rw [hkey e he, ha])⟩

end Rows

end Whole

/-!
## A sample build

A run of one block over one account with two slots, proven by the sample
proof.
-/

section Sample
open EvmState.Rpc

def sampleBlock : BlockProjection.BlockState where
  number := 8
  hash := hex sampleHash
  parentHash := hex (List.replicate 32 0)
  timestamp := 11
  stateRoot := hex sampleStateRoot
  producerVersion := 5
  accounts := sampleAddress
  schemaVersion := 1
  storage := sampleSlots.zipIdx.map (fun e => ⟨sampleAddress,e.1.1,e.1.2,e.2+1⟩)
  balances := [⟨sampleAddress,toString (2^200),3⟩]
  nonces := [⟨sampleAddress,3,4⟩]
  codes := [⟨sampleAddress,hex sampleCodeHash,sampleCode,5⟩]
  lifecycle := []

def sampleWorld : SourceWorld where
  run := ⟨.null,"native",8,[sampleAddress],"state"⟩
  db := ⟨Table.empty.upsert sampleBlock,Table.empty.upsert ⟨8,hex sampleHash,11⟩,[],[]⟩
  pointer := none
  cursor := some ⟨8,hex sampleHash⟩
  progress := some ⟨8,hex sampleHash⟩
  checkpoints := .empty

def sampleSource : Source := ⟨"native",[sampleAddress],8,"state",none,none,none⟩

def sampleBundleFields : List (String × Json) :=
  [("format_version",.ofNat 1),("chain_id",.ofNat 56),("header",sampleSummary),
    ("header_rlp",.str (hex sampleEncoded)),("header_trust",.str "provider-finalized-header"),
    ("accounts",.obj [(sampleAddress,.obj [("code",.str sampleCode),("proof",sampleProof "0x3")])])]

def sampleBundle : Json := .ofPairs sampleBundleFields

theorem sampleBundle_field (name : String) :
    sampleBundle.index name = (lookup name sampleBundleFields).getD .null :=
  Json.index_ofPairs (List.pairwise_map.mp (show (sampleBundleFields.map Prod.fst).Nodup by
    decide +kernel)) name

def samplePlatform : Platform := ⟨id,PrettyJson.readBytes,id,id⟩

def sampleTrace : Trace where
  target := ⟨8,hex sampleHash,hex sampleStateRoot⟩
  accounts := [sampleAddress]
  base := none
  sources := [sampleSource]
  union := (unionStorage (fun _ => sampleWorld.db) .empty [sampleSource] none 8).toOption.getD []
  observed := (observedFields (fun _ => sampleWorld.db) .empty [sampleSource] none 8).toOption.getD
    .empty
  sections := [⟨sampleAccount,sampleCode,2,sampleSlots⟩]

theorem sampleHeader_string {name text : String}
    (h : lookup name sampleSummaryFields = some (.str text)) :
    string (sampleBundle.index "header") name = .ok text := by
  rw [sampleBundle_field]
  exact string_ok ((sampleSummary_field name).trans h)

theorem sampleHash_lower : lower (hex sampleHash) = hex sampleHash := by decide +kernel

theorem sampleRoot_lower : lower (hex sampleStateRoot) = hex sampleStateRoot := by decide +kernel

theorem sampleBundle_checked : checkBundle sampleChain sampleBundle = .ok sampleTrace.target := by
  have hnumber : uint ((sampleBundle.index "header").index "number") = .ok 8 := by
    rw [sampleBundle_field]
    exact context_ok.mpr (by
      show Json.uint (sampleSummary.index "number") = some 8
      rw [Json.index, sampleSummary_field]
      exact Json.uint_ofNat (by decide))
  have hencoded : encodedHeader sampleBundle = some (hex sampleEncoded) := by
    have hne : hex sampleEncoded ≠ "" := fun h => by simpa [hex] using congrArg String.toList h
    rw [encodedHeader, sampleBundle_field]
    exact (Option.filter_some).trans (if_pos (decide_eq_true hne))
  have hheader : verifyHeader sampleChain (hex sampleEncoded) (sampleBundle.index "header") none =
      .ok (sampleChain.keccak256 sampleEncoded) := by
    rw [sampleBundle_field]
    exact verifyHeader_ok.mpr ⟨_,unhex_hex _,rfl,sampleSummary_encodes,fun _ h => by cases h⟩
  have hcheck : checkEncoding sampleChain sampleBundle = .ok () := by
    rw [checkEncoding, hencoded]
    exact bind_ok.mpr ⟨_,hheader,rfl⟩
  refine bind_ok.mpr ⟨(),ensure_ok.mpr ?_,bind_ok.mpr ⟨8,hnumber,bind_ok.mpr ⟨hex sampleHash,
    sampleHash_lower ▸ sampleHeader_string rfl,bind_ok.mpr ⟨_,fixed_hex (by decide +kernel),
    bind_ok.mpr ⟨hex sampleStateRoot,sampleRoot_lower ▸ sampleHeader_string rfl,
    bind_ok.mpr ⟨_,fixed_hex (by decide +kernel),bind_ok.mpr ⟨(),ensure_ok.mpr ?_,
    bind_ok.mpr ⟨(),hcheck,rfl⟩⟩⟩⟩⟩⟩⟩⟩
  · rw [sampleBundle_field, sampleBundle_field]
    exact ⟨rfl,rfl⟩
  · rw [sampleBundle_field]
    exact .inl rfl

theorem sampleSources_accepted : preflight samplePlatform (fun _ => sampleWorld) none [sampleAddress]
    sampleTrace.target [sampleSource] = .ok [sampleSource] := by
  have haccept : acceptSources (fun _ => sampleWorld) none sampleTrace.target [] [sampleSource] =
      .ok ([sampleSource],[sampleAddress]) := by decide +kernel
  exact bind_ok.mpr ⟨(),ensure_ok.mpr (by simp),bind_ok.mpr ⟨[sampleSource],
    mapM_ok.mpr (.cons rfl .nil),bind_ok.mpr ⟨_,haccept,bind_ok.mpr ⟨(),
    ensure_ok.mpr (by simp),rfl⟩⟩⟩⟩

theorem sampleSlots_root : storageRoot sampleChain (sampleSlots.map .ok) = .ok (sampleStorageRoot,2) := by
  decide +kernel

theorem sampleMetadata_verified : verifyMetadata sampleChain sampleAccount sampleCode
    (metadataOf sampleTrace.observed sampleAddress sampleAccount) = .ok () := by
  decide +kernel

theorem sampleAccount_complete : Verified sampleChain sampleBundle "new" sampleTrace.observed
    (candidate "new" sampleTrace.union .empty) sampleAddress ⟨sampleAccount,sampleCode,2,sampleSlots⟩ where
  proven := by
    have hproof : ((sampleBundle.index "accounts").index sampleAddress).index "proof" =
        sampleProof "0x3" := by
      rw [sampleBundle_field]
      decide +kernel
    exact ⟨hex sampleStateRoot,sampleRoot_lower ▸ sampleHeader_string rfl,
      hproof ▸ sampleAccount_verified _ (by decide +kernel)⟩
  code := by
    rw [sampleBundle_field]
    decide +kernel
  slots := by decide +kernel
  complete := bind_ok.mpr ⟨(),sampleMetadata_verified,bind_ok.mpr ⟨_,sampleSlots_root,
    bind_ok.mpr ⟨(),ensure_ok.mpr rfl,rfl⟩⟩⟩

theorem sample_completed : Completed samplePlatform sampleChain (fun _ => sampleWorld) sampleBundle
    [sampleSource] none "new" .empty sampleTrace where
  checkedBundle := sampleBundle_checked
  accounts := by
    rw [sampleBundle_field]
    decide +kernel
  base := rfl
  sources := sampleSources_accepted
  union := by decide +kernel
  observed := by decide +kernel
  verified := .cons sampleAccount_complete .nil
  counted := by decide +kernel
  declared := by decide +kernel

end Sample
end EvmState.Build
