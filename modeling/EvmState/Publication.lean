import EvmState.Checksum

/-!
# What a published checkpoint holds

A manifest certifies the rows stored under its snapshot: each selected account
has one row, which its proof opens under the header's state root, its slots
are the leaves of its storage trie, no other account has a slot, and the
checksum is that of these rows. A build publishes certified rows or nothing,
wherever it stops.
-/

set_option autoImplicit false

namespace EvmState.Publication
open EvmState.Hex EvmState.Fallible EvmState.OrderedMap EvmState.Store EvmState.Encoding
open EvmState.Params EvmState.Queries EvmState.Crash EvmState.Bootstrap EvmState.Preflight
open EvmState.Incremental EvmState.Proof EvmState.Build EvmState.Checksum

def accountJson (r : AccountRow) : Json :=
  .ofPairs [("address",.str r.address),("exists",.bool r.exists),("nonce",.ofNat r.nonce),
    ("balance",.str r.balance),("storage_root",.str r.storageRoot),("code_hash",.str r.codeHash),
    ("code",.str r.code),("nonzero_slots",.ofNat r.nonzeroSlots)]

def accountsOf (db : CheckpointDb) (snapshotId : String) : List AccountRow :=
  db.accounts.rows.filter (fun r => r.snapshotId = snapshotId)

def storageOf (db : CheckpointDb) (snapshotId : String) : List StorageRow :=
  db.storage.rows.filter (fun r => r.snapshotId = snapshotId)

def slotsOf (storage : List StorageRow) (account : String) : List (String × String) :=
  (storage.filter (fun r => r.address = account)).map (fun r => (r.slot,r.value))

def digestOf (accounts : List AccountRow) (storage : List StorageRow) : String :=
  String.join (accounts.map (fun r =>
    String.join ((slotsOf storage r.address).map (fun e => r.address ++ e.1 ++ e.2)) ++
      (accountJson r).canonicalJson))

/-- The stored row is that of an account that the manifest's proof opens, and
the slots are the leaves of the account's storage trie. -/
structure Proven (alloy : Alloy) (manifest : Json) (r : AccountRow)
    (slots : List (String × String)) (a : Account) : Prop where
  opens : ∃ text root nodes, string (manifest.index "header") "state_root" = .ok text ∧
    fixed 32 text = .ok root ∧
    proofNodes ((((manifest.index "proof_bundle").index "accounts").index r.address).index "proof") =
      .ok nodes ∧ Opens alloy root nodes a
  address : r.address = a.address
  «exists» : r.exists = a.exists
  nonce : r.nonce = a.nonce
  balance : r.balance = toString a.balance
  codeHash : fixed 32 r.codeHash = .ok a.codeHash
  storageRoot : fixed 32 r.storageRoot = .ok a.storageRoot
  code : ∃ bytes, unhex r.code = .ok bytes ∧ alloy.keccak256 bytes = a.codeHash
  storage : Hashes alloy slots a.storageRoot
  count : r.nonzeroSlots = slots.length

structure Certified (platform : Platform) (alloy : Alloy) (manifest : Json)
    (accounts : List AccountRow) (storage : List StorageRow) : Prop where
  coverage : manifest.index "accounts" = .arr (accounts.map (fun r => .str r.address))
  proven : ∀ r ∈ accounts, ∃ a, Proven alloy manifest r (slotsOf storage r.address) a
  complete : ∀ r ∈ storage, r.address ∈ accounts.map (·.address)
  total : ∃ text, manifest.index "nonzero_slots" = .num text ∧ Json.decimal text = some storage.length
  checksum : manifest.index "state_sha256" = .str (platform.sha256 (digestOf accounts storage))

structure Agrees (r : AccountRow) (fields : SortedMap String Json) : Prop where
  nonce : ∀ v, fields.get? "nonce" = some v → v.asU64 = some r.nonce
  balance : ∀ v, fields.get? "balance" = some v → v = .str r.balance
  codeHash : ∀ v, fields.get? "code_hash" = some v →
    ∃ text, v = .str text ∧ fixed 32 text = fixed 32 r.codeHash
  code : ∀ v, fields.get? "code" = some v → v = .str r.code

structure Unused (db : CheckpointDb) (snapshotId : String) : Prop where
  storage : ∀ r ∈ db.storage.rows, r.snapshotId ≠ snapshotId
  accounts : ∀ r ∈ db.accounts.rows, r.snapshotId ≠ snapshotId
  checkpoints : ∀ r ∈ db.checkpoints.rows, r.snapshotId ≠ snapshotId

theorem row_json (x : Section) (snapshotId : String) : accountJson (x.row snapshotId) = x.json := rfl

theorem slotsOf_storageOf (db : CheckpointDb) (snapshotId account : String) :
    slotsOf (storageOf db snapshotId) account = storedSlots db snapshotId account := by
  rw [slotsOf, storageOf, storedSlots, List.filter_filter]
  simp only [Bool.and_comm]

section Rows
variable {platform : Platform} {alloy : Alloy} {worlds : String → SourceWorld}
  {describe : Source → Json} {bundle : Json} {sources : List Source} {baseId : Option String}
  {snapshotId : String} {createdAt budgetBytes : ℕ} {db : CheckpointDb} {x : Trace}

theorem completed_accountsOf
    (h : Completed platform alloy worlds bundle sources baseId snapshotId db x)
    (hn : Unused db snapshotId) (record : Json) :
    accountsOf (x.after snapshotId record createdAt db) snapshotId =
      x.sections.map (·.row snapshotId) := by
  obtain ⟨hlen,hshaped⟩ := List.forall₂_iff_zip.mp (completed_shaped h)
  have hrows : (x.building snapshotId).rows = x.sections.map (·.row snapshotId) := by
    rw [Trace.building, addAll_rows, List.nil_append]
    conv_rhs => rw [← @List.map_snd_zip _ _ x.accounts x.sections hlen.ge]
    rw [List.map_map]
    rfl
  have hsorted : (x.sections.map (·.row snapshotId)).Pairwise
      (fun a b => accountKey a < accountKey b) := by
    have hacc := (canonicalAccounts_canonical h.accounts).sorted
    rw [← @List.map_fst_zip _ _ x.accounts x.sections hlen.le] at hacc
    rw [← @List.map_snd_zip _ _ x.accounts x.sections hlen.ge, List.map_map]
    refine List.pairwise_map.mpr ((List.pairwise_map.mp hacc).imp_of_mem (fun ha hb hlt => ?_))
    rw [(hshaped ha).address, (hshaped hb).address] at hlt
    exact Prod.Lex.toLex_lt_toLex.mpr (.inr ⟨rfl,hlt⟩)
  let s : Table accountKey := ⟨x.sections.map (·.row snapshotId),hsorted⟩
  have hs : (db.accounts.insertRows (x.building snapshotId).rows).select
      (fun r => r.snapshotId = snapshotId) = s := by
    ext r
    have hdistinct : (x.building snapshotId).rows.Pairwise (fun a b => accountKey a ≠ accountKey b) :=
      hrows ▸ hsorted.imp (fun h => h.ne)
    have hnew : ∀ r ∈ (x.building snapshotId).rows, ∀ a ∈ db.accounts.rows,
        accountKey r ≠ accountKey a := by
      intro r hr a ha he
      rw [hrows] at hr
      obtain ⟨y,-,rfl⟩ := List.mem_map.mp hr
      exact hn.accounts a ha (Prod.mk.inj (toLex.injective he)).1.symm
    rw [Table.mem_select, Table.mem_insertRows hdistinct hnew, hrows]
    constructor
    · rintro ⟨hr | hr,hid⟩
      · exact absurd (of_decide_eq_true hid) (hn.accounts r hr)
      · exact hr
    · intro hr
      obtain ⟨y,-,rfl⟩ := List.mem_map.mp hr
      exact ⟨.inr hr,decide_eq_true rfl⟩
  exact congrArg Table.rows hs

theorem asStr_eq {v : Json} {text : String} (h : v.asStr = some text) : v = .str text := by
  cases v <;> cases h
  rfl

theorem get?_of_string {value : Json} {field text : String} (h : string value field = .ok text) :
    value.get? field = some (.str text) := by
  obtain ⟨v,hv,ht⟩ := Option.bind_eq_some_iff.mp (context_ok.mp h)
  rw [hv, asStr_eq ht]

theorem string_index {value : Json} {field text : String} (h : value.index field = .str text) :
    string value field = .ok text := by
  refine string_ok ?_
  rw [Json.index] at h
  cases hv : value.get? field with
  | none =>
    rw [hv] at h
    cases h
  | some v =>
    rw [hv] at h
    exact congrArg some h

theorem matches_agrees {a : Account} {code : String} {fields : SortedMap String Json}
    {evidence : Json} (h : Matches alloy a code (a.json.extend fields.entries))
    (hcode : (((a.json.extend fields.entries).get? "code").getD evidence).asStr = some code)
    {r : AccountRow} (hn : r.nonce = a.nonce) (hb : r.balance = toString a.balance)
    (hh : fixed 32 r.codeHash = .ok a.codeHash) (hc : r.code = code) : Agrees r fields := by
  have hfield : ∀ name v, fields.get? name = some v →
      (a.json.extend fields.entries).get? name = some v := by
    intro name v hv
    rw [Account.json, Json.ofPairs, Json.get?_extend fields.entries_distinct]
    rw [show lookup name fields.entries = some v from hv]
    rfl
  refine ⟨fun v hv => ?_,fun v hv => ?_,fun v hv => ?_,fun v hv => ?_⟩
  · have hm := h.nonce
    rw [hfield _ v hv] at hm
    rw [hn]
    exact hm
  · obtain ⟨text,ht,he,hd,-⟩ := h.balance
    have hv' := get?_of_string ht
    rw [hfield _ v hv] at hv'
    rw [hb, Option.some.inj hv', Json.decimal_exact hd (he.imp_right And.left)]
  · obtain ⟨text,ht,hf⟩ := h.codeHash
    have hv' := get?_of_string ht
    rw [hfield _ v hv] at hv'
    exact ⟨text,Option.some.inj hv',hf.trans hh.symm⟩
  · rw [hfield _ v hv] at hcode
    rw [hc]
    exact asStr_eq hcode

theorem verifyAccount_words {stateRoot selected : String} {proof : Json} {a : Account}
    (h : verifyAccount alloy stateRoot selected proof = .ok a) :
    a.storageRoot.length = 32 ∧ a.codeHash.length = 32 := by
  obtain ⟨_,_,_,-,-,-,hr,-⟩ := verifyAccount_iff.mp h
  obtain ⟨_,-,hs⟩ := hr.storageRoot
  obtain ⟨_,-,hc⟩ := hr.codeHash
  exact ⟨(fixed_ok.mp hs).2,(fixed_ok.mp hc).2⟩

theorem verified_proven {observed : Fields} {account : String} {y : Section} {record : Json}
    (h : Verified alloy bundle snapshotId observed db account y) (hs : Shaped account y)
    (hheader : record.index "header" = bundle.index "header")
    (hbundle : record.index "proof_bundle" = bundle) :
    Proven alloy record (y.row snapshotId) y.slots y.proven ∧
      ∀ fields, observed.get? account = some fields → Agrees (y.row snapshotId) fields := by
  obtain ⟨text,htext,hproven⟩ := h.proven
  obtain ⟨root,nodes,hroot,hnodes,-,hopens⟩ := verifyAccount_ok hproven
  obtain ⟨hstorage,hhash⟩ := verifyAccount_words hproven
  obtain ⟨hm,pairs,hpairs,-,hhashes⟩ := verifyComplete_ok h.complete
  obtain rfl : y.slots = pairs :=
    List.map_injective_iff.mpr (fun _ _ h => Except.ok.inj h) hpairs
  have hcode := fixed_hex hhash
  constructor
  · refine ⟨⟨text,root,nodes,hheader ▸ htext,hroot,?_,hopens⟩,rfl,rfl,rfl,rfl,hcode,
      fixed_hex hstorage,hm.code,hhashes,hs.count⟩
    show proofNodes (((record.index "proof_bundle").index "accounts").index y.proven.address
      |>.index "proof") = .ok nodes
    rw [hbundle, ← hs.address]
    exact hnodes
  · intro fields hf
    have hmeta : metadataOf observed account y.proven = y.proven.json.extend fields.entries := by
      rw [metadataOf, hf]
    have hc := h.code
    rw [hmeta] at hm hc
    exact matches_agrees hm hc rfl rfl hcode rfl

theorem digestOf_sections {snapshotId : String} {xs : List Section} {storage : List StorageRow}
    (h : ∀ y ∈ xs, slotsOf storage y.proven.address = y.slots) :
    digestOf (xs.map (·.row snapshotId)) storage =
      String.join (xs.map (fun y => y.digested y.proven.address)) := by
  rw [digestOf, List.map_map]
  refine congrArg String.join (List.map_congr_left (fun y hy => ?_))
  rw [Function.comp_apply, row_json, Section.digested, ← h y hy]
  rfl

theorem shaped_accounts {accounts : List String} {xs : List Section}
    (h : List.Forall₂ Shaped accounts xs) : accounts = xs.map (·.proven.address) := by
  induction h with
  | nil => rfl
  | cons hy _ ih => rw [List.map_cons, ← hy.address, ← ih]

theorem completed_sections
    (h : Completed platform alloy worlds bundle sources baseId snapshotId db x) :
    ∀ y ∈ x.sections, Verified alloy bundle snapshotId x.observed (candidate snapshotId x.union db)
      y.proven.address y ∧ Shaped y.proven.address y := by
  intro y hy
  obtain ⟨hlen,hverified⟩ := List.forall₂_iff_zip.mp h.verified
  obtain ⟨-,hzip⟩ := List.forall₂_iff_zip.mp (completed_shaped h)
  rw [← @List.map_snd_zip _ _ x.accounts x.sections hlen.ge] at hy
  obtain ⟨⟨a,y⟩,hmem,rfl⟩ := List.mem_map.mp hy
  have hs := hzip hmem
  obtain rfl : a = y.proven.address := hs.address
  exact ⟨hverified hmem,hs⟩

/-- What a completed build stores is certified by the record it publishes. -/
theorem completed_certified
    (h : Completed platform alloy worlds bundle sources baseId snapshotId db x)
    (hn : Unused db snapshotId) :
    let record := x.record platform describe bundle baseId snapshotId createdAt budgetBytes
    let t := x.after snapshotId record createdAt db
    Certified platform alloy record (accountsOf t snapshotId) (storageOf t snapshotId) ∧
      ∀ r ∈ accountsOf t snapshotId, ∀ fields, x.observed.get? r.address = some fields →
        Agrees r fields := by
  intro record t
  have hfield : ∀ name, record.index name = _ := fun name => Json.index_ofPairs (by simp) name
  have hheader : record.index "header" = bundle.index "header" := by
    rw [hfield]
    simp [lookup]
  have hbundle : record.index "proof_bundle" = bundle := by
    rw [hfield]
    simp [lookup]
  have hshaped := completed_shaped h
  have haccounts := shaped_accounts hshaped
  have hrows : accountsOf t snapshotId = x.sections.map (·.row snapshotId) :=
    completed_accountsOf h hn record
  have hsections := completed_sections h
  have hslots : ∀ y ∈ x.sections, slotsOf (storageOf t snapshotId) y.proven.address = y.slots := by
    intro y hy
    rw [slotsOf_storageOf, (hsections y hy).1.slots]
    rfl
  refine ⟨⟨?_,?_,?_,?_,?_⟩,?_⟩
  · rw [hrows, List.map_map]
    exact (record_accounts x).trans (by rw [haccounts, List.map_map]; rfl)
  · intro r hr
    rw [hrows] at hr
    obtain ⟨y,hy,rfl⟩ := List.mem_map.mp hr
    refine ⟨y.proven,?_⟩
    show Proven alloy record (y.row snapshotId)
      (slotsOf (storageOf t snapshotId) y.proven.address) y.proven
    rw [hslots y hy]
    exact (verified_proven (hsections y hy).1 (hsections y hy).2 hheader hbundle).1
  · intro r hr
    obtain ⟨hr,hid⟩ := List.mem_filter.mp hr
    have ha := completed_accounts h r hr (of_decide_eq_true hid)
    rw [hrows, List.map_map]
    rwa [haccounts] at ha
  · refine ⟨_,(hfield _).trans ?_,Json.decimal_toString _⟩
    show Json.ofNat (x.building snapshotId).totalSlots = _
    rw [← h.counted]
    rfl
  · rw [hrows, digestOf_sections hslots]
    refine (record_checksum x).trans ?_
    rw [Trace.building, addAll_digested, String.empty_append, haccounts]
    refine congrArg (fun l => Json.str (platform.sha256 (String.join l))) ?_
    induction x.sections with
    | nil => rfl
    | cons y xs ih => exact congrArg₂ List.cons rfl ih
  · intro r hr fields hf
    rw [hrows] at hr
    obtain ⟨y,hy,rfl⟩ := List.mem_map.mp hr
    exact (verified_proven (hsections y hy).1 (hsections y hy).2 hheader hbundle).2 fields hf

/-- The rows of every other snapshot are as they were. -/
structure Kept (snapshotId : String) (db t : CheckpointDb) : Prop where
  storage : ∀ r : StorageRow, r.snapshotId ≠ snapshotId → (r ∈ t.storage.rows ↔ r ∈ db.storage.rows)
  accounts : ∀ r : AccountRow, r.snapshotId ≠ snapshotId →
    (r ∈ t.accounts.rows ↔ r ∈ db.accounts.rows)
  checkpoints : ∀ r : CheckpointRow, r.snapshotId ≠ snapshotId →
    (r ∈ t.checkpoints.rows ↔ r ∈ db.checkpoints.rows)

theorem unpublished_kept {db t : CheckpointDb} (h : Unpublished snapshotId db t) :
    Kept snapshotId db t :=
  ⟨h.storage,h.accounts,fun _ _ => by rw [h.checkpoints]⟩

theorem after_kept (x : Trace) (record : Json) : Kept snapshotId db
    (x.after snapshotId record createdAt db) := by
  have hu := @unpublished_accounts snapshotId db _ x.accounts x.sections
    (unpublished_candidate snapshotId x.union db)
  refine ⟨hu.storage,hu.accounts,fun r hr => ?_⟩
  show r ∈ (db.checkpoints.upsert _).rows ↔ _
  rw [Table.mem_upsert]
  constructor
  · rintro (rfl | ⟨h,-⟩)
    · exact absurd rfl hr
    · exact h
  · exact fun h => .inr ⟨h,hr⟩

theorem Triple.outcome {σ α : Type} {P : σ → Prop} {p : Prog σ α} {Q : α → σ → Prop} {C : σ → Prop}
    (ht : Triple P p Q C) {h : Host σ} (hp : P h.state) :
    (returns p h = true → ∃ a, Q a (ends p h)) ∧ (returns p h = false → C (ends p h)) := by
  have := ht h hp
  unfold returns ends
  cases hr : p h with
  | ok a h' => exact ⟨fun _ => ⟨a,by simpa [hr] using this⟩,by simp⟩
  | error e h' => exact ⟨by simp,fun _ => by simpa [hr] using this⟩

/-- From a database a run published a row with certified rows under its
identifier, and changed nothing else. -/
structure Publishes (platform : Platform) (alloy : Alloy) (snapshotId : String) (db t : CheckpointDb)
    (row : CheckpointRow) (record : Json) : Prop where
  kept : Kept snapshotId db t
  added : t.checkpoints = db.checkpoints.upsert row
  id : row.snapshotId = snapshotId
  manifest : row.manifest = record.canonicalJson
  named : record.index "snapshot_id" = .str snapshotId
  ready : record.index "status" = .str "ready"
  certified : Certified platform alloy record (accountsOf t snapshotId) (storageOf t snapshotId)

theorem completed_publishes
    (h : Completed platform alloy worlds bundle sources baseId snapshotId db x)
    (hn : Unused db snapshotId) :
    let record := x.record platform describe bundle baseId snapshotId createdAt budgetBytes
    Publishes platform alloy snapshotId db (x.after snapshotId record createdAt db)
        (x.checkpoint snapshotId record createdAt) record ∧
      record.index "proof_bundle" = bundle := by
  intro record
  have hfield : ∀ name, record.index name = _ := fun name => Json.index_ofPairs (by simp) name
  exact ⟨⟨after_kept x _,rfl,rfl,rfl,(hfield _).trans (by simp [lookup]),
    (hfield _).trans (by simp [lookup]),(completed_certified h hn).1⟩,
    (hfield _).trans (by simp [lookup])⟩

theorem verification_simple (d : ℕ) (accounts : List String) (xs : List Section) (s : Building)
    (ha : ∀ a ∈ accounts, Json.PlainKey a)
    (hs : ∀ e ∈ s.verification, Json.PlainKey e.1 ∧ Json.Simple (d+1) e.2) :
    ∀ e ∈ (s.addAll snapshotId accounts xs).verification,
      Json.PlainKey e.1 ∧ Json.Simple (d+1) e.2 := by
  have hverified : ∀ n, Json.Simple (d+1) (verified n) := by
    intro n
    refine Json.simple_ofPairs (by simp only [List.map_cons, List.map_nil]; decide)
      (fun e he => ?_)
    simp only [List.mem_cons, List.not_mem_nil, or_false] at he
    rcases he with rfl | rfl | rfl
    · exact Json.simple_ofNat _ _
    · exact Json.simple_str _ _
    · exact Json.simple_str _ _
  induction accounts generalizing s xs with
  | nil => simpa [Building.addAll] using hs
  | cons a accounts ih =>
    cases xs with
    | nil => simpa [Building.addAll] using hs
    | cons y xs =>
      obtain ⟨ha,haccounts⟩ := List.forall_mem_cons.mp ha
      rw [addAll_cons]
      refine ih xs _ haccounts (fun e he => ?_)
      rcases List.mem_append.mp he with he | he
      · exact hs e he
      · obtain rfl := List.mem_singleton.mp he
        exact ⟨ha,hverified y.count⟩

theorem hex_plainKey (b : Bytes) : Json.PlainKey (hex b) := by
  simp [Json.PlainKey, hex]

/-- A record is one level deeper than its bundle. -/
theorem record_simple {d : ℕ} (hx : canonicalAccounts (bundle.index "accounts") = .ok x.accounts)
    (hb : Json.Simple (d+2) bundle) (hd : ∀ s ∈ x.sources, Json.Simple (d+1) (describe s)) :
    Json.Simple (d+3)
      (x.record platform describe bundle baseId snapshotId createdAt budgetBytes) := by
  have hplain : ∀ a ∈ x.accounts, Json.PlainKey a := by
    intro a ha
    obtain ⟨b,-,rfl⟩ := (canonicalAccounts_canonical hx).address a ha
    exact hex_plainKey b
  have hverified : ∀ e ∈ (x.building snapshotId).verification,
      Json.PlainKey e.1 ∧ Json.Simple (d+1) e.2 :=
    verification_simple d x.accounts x.sections _ hplain (by simp)
  refine Json.simple_ofPairs (by simp only [List.map_cons, List.map_nil]; decide)
    (fun e he => ?_)
  simp only [List.mem_cons, List.not_mem_nil, or_false] at he
  rcases he with rfl | rfl | rfl | rfl | rfl | rfl | rfl | rfl | rfl | rfl | rfl | rfl | rfl | rfl |
    rfl | rfl
  · exact Json.simple_ofNat _ _
  · exact Json.simple_str _ _
  · exact Json.simple_str _ _
  · exact hb.index _
  · exact hb.index _
  · exact hb.index _
  · refine Json.simple_arr (fun a ha => ?_)
    obtain ⟨text,-,rfl⟩ := List.mem_map.mp ha
    exact Json.simple_str _ _
  · cases baseId with
    | none => exact Json.simple_null _
    | some id => exact Json.simple_str _ _
  · refine Json.simple_arr (fun a ha => ?_)
    obtain ⟨s,hs,rfl⟩ := List.mem_map.mp ha
    exact hd s hs
  · refine Json.simple_ofPairs (fun k hk => ?_) (fun e he => (hverified e he).2)
    obtain ⟨e,he,rfl⟩ := List.mem_map.mp hk
    exact (hverified e he).1
  · exact Json.simple_str _ _
  · exact hb
  · exact Json.simple_ofNat _ _
  · exact Json.simple_ofNat _ _
  · exact Json.simple_ofNat _ _
  · exact Json.simple_ofNat _ _

def Proved (platform : Platform) (alloy : Alloy) (worlds : String → SourceWorld) (bundle : Json)
    (sources : List Source) (baseId : Option String) (snapshotId : String) (db t : CheckpointDb) :
    Prop :=
  ∃ x row record, Completed platform alloy worlds bundle sources baseId snapshotId db x ∧
    Publishes platform alloy snapshotId db t row record ∧ record.index "proof_bundle" = bundle ∧
    (∀ a ∈ x.observed.keys, a ∈ (accountsOf t snapshotId).map (·.address)) ∧
    ∀ r ∈ accountsOf t snapshotId, ∀ fields, x.observed.get? r.address = some fields →
      Agrees r fields

theorem built_proved {t : CheckpointDb}
    (h : Built platform alloy worlds describe bundle sources baseId snapshotId createdAt budgetBytes
      db t x) (hn : Unused db snapshotId) :
    Proved platform alloy worlds bundle sources baseId snapshotId db t := by
  obtain ⟨hx,rfl⟩ := h
  obtain ⟨hrow,hbundle⟩ := @completed_publishes platform alloy worlds describe bundle sources
    baseId snapshotId createdAt budgetBytes db x hx hn
  obtain ⟨-,hagrees⟩ := @completed_certified platform alloy worlds describe bundle sources
    baseId snapshotId createdAt budgetBytes db x hx hn
  refine ⟨x,_,_,hx,hrow,hbundle,fun a ha => ?_,hagrees⟩
  rw [completed_accountsOf hx hn, List.map_map]
  have hdeclared := hx.declared a ha
  rwa [shaped_accounts (completed_shaped hx)] at hdeclared

/-- A build that returns has published exactly what it proved. One that stops
has published nothing, or all of it when only the last acknowledgement was
lost; the rows of other snapshots are kept in any case. -/
theorem build_certified (platform : Platform) (alloy : Alloy) (worlds : String → SourceWorld)
    (describe : Source → Json) (bundle : Json) (sources : List Source) (baseId : Option String)
    (snapshotId : String) (createdAt budgetBytes : ℕ) (db : CheckpointDb)
    (script : List (Option String)) (hn : Unused db snapshotId) :
    let p := buildUnlocked platform alloy worlds describe bundle sources baseId snapshotId createdAt
      budgetBytes
    let t := ends p ⟨db,script⟩
    Kept snapshotId db t ∧
      (t.checkpoints = db.checkpoints ∨
        Proved platform alloy worlds bundle sources baseId snapshotId db t) ∧
      (returns p ⟨db,script⟩ = true →
        Proved platform alloy worlds bundle sources baseId snapshotId db t) := by
  intro p t
  have htriple : Triple (fun t => t = db) p _ _ := buildUnlocked_triple db
  obtain ⟨hok,herror⟩ := Triple.outcome (h := ⟨db,script⟩) htriple rfl
  have hproved : returns p ⟨db,script⟩ = true →
      Proved platform alloy worlds bundle sources baseId snapshotId db t := by
    intro hr
    obtain ⟨_,x,hx,-⟩ := hok hr
    exact built_proved hx hn
  have hkept : Proved platform alloy worlds bundle sources baseId snapshotId db t →
      Kept snapshotId db t := by
    rintro ⟨x,row,record,-,hrow,-⟩
    exact hrow.kept
  cases hr : returns p ⟨db,script⟩ with
  | true => exact ⟨hkept (hproved hr),.inr (hproved hr),fun _ => hproved hr⟩
  | false =>
    rcases herror hr with h | ⟨x,hx⟩
    · exact ⟨unpublished_kept h,.inl h.checkpoints,fun h => by cases h⟩
    · have h := built_proved hx hn
      exact ⟨hkept h,.inr h,fun _ => h⟩

def sampleBuild : Prog CheckpointDb Published :=
  buildUnlocked samplePlatform Rpc.sampleChain (fun _ => sampleWorld) (fun _ => .null) sampleBundle
    [sampleSource] none "new" 1 1

theorem build_certified_sample : ∃ row record, Publishes samplePlatform Rpc.sampleChain "new" .empty
    (ends sampleBuild ⟨.empty,[]⟩) row record := by
  have hslots : (sampleTrace.building "new").totalSlots < 2^64 := by decide +kernel
  have hruns : Runs sampleBuild .empty _ _ := buildUnlocked_runs sample_completed hslots
  have hreturns : returns sampleBuild ⟨.empty,[]⟩ = true := by
    rw [returns, hruns]
  obtain ⟨-,-,hpublished⟩ := build_certified samplePlatform Rpc.sampleChain (fun _ => sampleWorld)
    (fun _ => .null) sampleBundle [sampleSource] none "new" 1 1 .empty [] ⟨by decide,by decide,by decide⟩
  obtain ⟨_,row,record,-,hrow,-⟩ := hpublished hreturns
  exact ⟨row,record,hrow⟩

end Rows
end EvmState.Publication
