import EvmState.AccountLists
import EvmState.Exportable
import EvmState.Sharing

/-!
# Which published checkpoints can be moved

A build proves an account from the fields that its sources show and stores the
code under the text that it was shown, an import proves the row as it stands
beside the bundle. So a built checkpoint can be moved exactly when its bundle
names the accounts and the codes in the texts that are stored. What an import
has published can always be moved on.
-/

set_option autoImplicit false

namespace EvmState.Portability
open EvmState.Hex EvmState.Fallible EvmState.OrderedMap EvmState.Store EvmState.Encoding
open EvmState.Params EvmState.Bootstrap EvmState.Preflight EvmState.Incremental EvmState.Proof
open EvmState.Header EvmState.Build EvmState.Crash EvmState.Reader EvmState.Publication
open EvmState.Portable EvmState.Importer EvmState.Export EvmState.RoundTrip EvmState.Transfer
open EvmState.Exportable EvmState.Checksum EvmState.PrettyJson

section Rows
variable {platform : Platform} {alloy : Alloy} {db : CheckpointDb} {snapshotId : String} {record : Json}

def Passes (alloy : Alloy) (db : CheckpointDb) (snapshotId : String) (record : Json) (r : AccountRow) :
    Prop :=
  ∃ a, proveRow alloy record r.address (accountJson r)
      "restored metadata differs from its proven account" = .ok a ∧
    completeRow alloy a ((storedSlots db snapshotId r.address).map .ok) (accountJson r)
      "restored storage count differs from account metadata" =
        .ok (storedSlots db snapshotId r.address).length

theorem passes_rows {rows : List AccountRow} {s : Verifying}
    (h : ∀ r ∈ rows, Passes alloy db snapshotId record r)
    (hb : s.total+(rows.map (fun r => (storedSlots db snapshotId r.address).length)).sum < 2^64) :
    ∃ s', rows.foldlM (verifyStoredRow alloy db snapshotId record) s = .ok s' := by
  induction rows generalizing s with
  | nil => exact ⟨s,rfl⟩
  | cons r rows ih =>
    obtain ⟨⟨a,hproven,hcount⟩,h⟩ := List.forall_mem_cons.mp h
    rw [List.map_cons, List.sum_cons, ← Nat.add_assoc] at hb
    have hone : verifyStoredRow alloy db snapshotId record s r = .ok (s.add r.address
        (storedSlots db snapshotId r.address) (accountJson r)
        (storedSlots db snapshotId r.address).length) :=
      bind_ok.mpr ⟨a,hproven,bind_ok.mpr ⟨_,hcount,bind_ok.mpr ⟨(),ensure_ok.mpr (by omega),rfl⟩⟩⟩
    obtain ⟨s',hs'⟩ := @ih (s.add r.address (storedSlots db snapshotId r.address) (accountJson r)
      (storedSlots db snapshotId r.address).length) h hb
    exact ⟨s',bind_ok.mpr ⟨_,hone,hs'⟩⟩

/-- A certificate whose rows pass one by one passes as a whole. -/
theorem passes_stored
    (hcert : Certified platform alloy record (accountsOf db snapshotId) (storageOf db snapshotId))
    (hc : ∀ r ∈ accountsOf db snapshotId, ∃ b : Bytes, b.length = 20 ∧ r.address = hex b)
    (hb : (storageOf db snapshotId).length < 2^64)
    (h : ∀ r ∈ accountsOf db snapshotId, Passes alloy db snapshotId record r) :
    verifyStored alloy platform db snapshotId record = .ok () := by
  have hslots : ∀ account, slotsOf (storageOf db snapshotId) account =
      storedSlots db snapshotId account := slotsOf_storageOf db snapshotId
  have hlength : (storageOf db snapshotId).length =
      ((accountsOf db snapshotId).map (fun r => (storedSlots db snapshotId r.address).length)).sum := by
    rw [rows_counted (accountsOf_nodup db snapshotId) hcert.complete, List.map_map]
    refine congrArg List.sum (List.map_congr_left (fun r _ => ?_))
    rw [storedSlots_length]
    rfl
  obtain ⟨s,hs⟩ := passes_rows (s := ⟨"",0⟩) h (by rw [Nat.zero_add, ← hlength]; exact hb)
  obtain ⟨-,hdigest,htotal⟩ := verifyStoredRows_ok hc hs
  rw [Nat.zero_add, ← hlength] at htotal
  obtain ⟨text,hnum,hdec⟩ := hcert.total
  refine bind_ok.mpr ⟨(),ensure_ok.mpr hcert.coverage.symm,bind_ok.mpr ⟨s,hs,ensure_ok.mpr
    ⟨htotal.symm,?_,?_⟩⟩⟩
  · rw [hnum, htotal]
    exact (Option.filter_eq_some_iff.mpr ⟨hdec,decide_eq_true hb⟩).symm
  · rw [hcert.checksum, hdigest, String.empty_append, digestOf]
    simp only [hslots]
    rfl

theorem stored_code {s s' : Verifying} {r : AccountRow}
    (h : verifyStoredRow alloy db snapshotId record s r = .ok s') :
    (((record.index "proof_bundle").index "accounts").index r.address).index "code" = .str r.code := by
  obtain ⟨a,hproven,-⟩ := bind_ok.mp h
  obtain ⟨-,-,-,hcode⟩ := proveRow_ok hproven
  rw [← hcode, Json.index, accountJson_field]
  simp [lookup]

end Rows

section Bound
variable {platform : Platform} {alloy : Alloy} {worlds : String → SourceWorld}
  {describe : Source → Json} {bundle : Json} {sources : List Source} {baseId : Option String}
  {snapshotId : String} {createdAt budgetBytes : ℕ} {observed : Fields}

theorem triple_fact {σ α : Type} {c : Prop} {p : Prog σ α} {Q : α → σ → Prop} {C : σ → Prop}
    (hf : c → Triple (fun _ => True) p Q C) : Triple (fun _ => c) p Q C := fun h hc => hf hc h trivial

theorem buildAccounts_bounded {accounts : List String} {s : Building} (hs : s.totalSlots < 2^64) :
    Triple (fun _ : CheckpointDb => True) (buildAccounts alloy bundle snapshotId observed s accounts)
      (fun r _ => r.totalSlots < 2^64) (fun _ => True) := by
  induction accounts generalizing s with
  | nil => exact triple_pure s (fun _ _ => hs)
  | cons account accounts ih =>
    have hany : ∀ t : CheckpointDb, True → True := fun _ _ => trivial
    have hone : Triple (fun _ : CheckpointDb => True)
        (buildAccount alloy bundle snapshotId observed s account)
        (fun r _ => r.totalSlots < 2^64) (fun _ => True) := by
      refine triple_check_then hany (fun _ _ => triple_check_then hany (fun _ _ => triple_check_then hany
        (fun _ _ => triple_bind (triple_trivial _ _) (fun _ => triple_next_then hany
        (triple_check_then hany (fun count _ => triple_next_then hany (triple_check_then hany
        (fun _ hsum => triple_next_then hany (triple_next_then hany (triple_pure _ (fun _ _ => ?_)))))))))))
      exact ensure_ok.mp hsum
    exact triple_bind hone (fun r h hr => ih hr h trivial)

theorem publish_record (record : Json) (row : CheckpointRow) (rows : List AccountRow) :
    Triple (fun _ => True) (publish record row rows) (fun out _ => out = record) (fun _ => True) :=
  triple_bind (triple_trivial _ _) (fun _ => triple_bind (triple_trivial _ _) (fun _ =>
    triple_bind (triple_trivial _ _) (fun _ => triple_bind (triple_trivial _ _) (fun _ =>
    triple_bind (triple_trivial _ _) (fun _ => triple_bind (triple_trivial _ _) (fun _ =>
    triple_pure _ (fun _ _ => rfl)))))))

theorem buildUnlocked_bounded : Triple (fun _ => True) (buildUnlocked platform alloy worlds describe
      bundle sources baseId snapshotId createdAt budgetBytes)
    (fun out _ => ∃ n < 2^64, out.record.index "nonzero_slots" = .ofNat n) (fun _ => True) := by
  refine triple_bind (triple_trivial _ _) (fun _ => triple_bind (triple_trivial _ _) (fun accounts =>
    triple_bind (triple_trivial _ _) (fun _ => triple_bind (triple_trivial _ _) (fun _ =>
    triple_bind (triple_trivial _ _) (fun sources => triple_bind (triple_trivial _ _) (fun _ =>
    triple_bind (triple_trivial _ _) (fun _ => triple_bind (triple_trivial _ _) (fun _ =>
    triple_bind (triple_trivial _ _) (fun _ => triple_bind (triple_trivial _ _) (fun _ =>
    triple_bind (buildAccounts_bounded (by norm_num)) (fun s => triple_fact (fun hs =>
    triple_bind (triple_trivial _ _) (fun _ => triple_bind (triple_trivial _ _) (fun _ =>
    triple_bind (triple_trivial _ _) (fun _ => triple_bind (publish_record _ _ _) (fun record =>
    triple_pure _ (fun _ hr => ⟨s.totalSlots,hs,?_⟩)))))))))))))))))
  show record.index "nonzero_slots" = _
  rw [hr, Build.recordOf, Json.index_ofPairs (by simp)]
  simp [lookup]

end Bound

section Built
variable {platform : Platform} {alloy : Alloy} {worlds : String → SourceWorld}
  {describe : Source → Json} {bundle : Json} {sources : List Source} {baseId : Option String}
  {snapshotId : String} {createdAt budgetBytes : ℕ} {db t : CheckpointDb} {x : Trace}

/-- A published row is the only one under its identifier, and its manifest is
what its text is read as. -/
theorem publishes_manifest {row : CheckpointRow} {record : Json}
    (h : Publishes platform alloy snapshotId db t row record) (hid : objectId snapshotId = .ok ())
    (hread : platform.fromSlice (Text.utf8 record.canonicalJson) = some record) :
    manifest platform.fromSlice t snapshotId = .ok record := by
  have hrows : t.checkpoints.rows.filter (fun r => r.snapshotId = snapshotId) = [row] := by
    let one : Table CheckpointRow.snapshotId := ⟨[row],List.pairwise_singleton _ _⟩
    have hselect : t.checkpoints.select (fun r => r.snapshotId = snapshotId) = one := by
      ext r
      rw [Table.mem_select, h.added, Table.mem_upsert]
      constructor
      · rintro ⟨rfl | ⟨-,hne⟩,hr⟩
        · exact List.mem_singleton_self _
        · exact absurd ((of_decide_eq_true hr).trans h.id.symm) hne
      · intro hr
        obtain rfl := List.mem_singleton.mp hr
        exact ⟨.inl rfl,decide_eq_true h.id⟩
    exact congrArg Table.rows hselect
  refine bind_ok.mpr ⟨(),hid,bind_ok.mpr ⟨row,one_ok.mpr hrows,bind_ok.mpr ⟨record,context_ok.mpr ?_,
    bind_ok.mpr ⟨(),ensure_ok.mpr ⟨h.named,h.ready⟩,rfl⟩⟩⟩⟩
  rw [h.manifest]
  exact hread

/-- What a bundle must share with the rows that it proved. -/
structure Spelled (bundle : Json) (rows : List AccountRow) : Prop where
  encoded : encodedHeader bundle ≠ none
  accounts : (bundle.index "accounts").asObject.map (List.map Prod.fst) =
    some (rows.map (·.address))
  code : ∀ r ∈ rows, ((bundle.index "accounts").index r.address).index "code" = .str r.code

/-- A proven section passes as a row, if its code stands in the bundle. -/
theorem section_passes {observed : Fields} {account : String} {y : Section} {record : Json}
    (h : Verified alloy bundle snapshotId observed t account y) (hs : Shaped account y)
    (hheader : record.index "header" = bundle.index "header")
    (hbundle : record.index "proof_bundle" = bundle) (hcount : y.count < 2^64)
    (hcode : ((bundle.index "accounts").index account).index "code" = .str y.code) :
    Passes alloy t snapshotId record (y.row snapshotId) := by
  obtain ⟨text,htext,hproven⟩ := h.proven
  obtain ⟨hstorage,hhash⟩ := verifyAccount_words hproven
  obtain ⟨_,hmeta,hcomplete⟩ := bind_ok.mp h.complete
  have hm := verifyMetadata_ok.mp hmeta
  have hfield := accountJson_field (y.row snapshotId)
  have hindex : ∀ name, (accountJson (y.row snapshotId)).index name = _ := fun name => by
    rw [Json.index, hfield]
  have hstring : ∀ name text, (accountJson (y.row snapshotId)).index name = .str text →
      string (accountJson (y.row snapshotId)) name = .ok text := fun _ _ => string_index
  have hname : account = y.proven.address := hs.address
  have hnonce : y.proven.nonce < 2^64 := by
    obtain ⟨v,-,hv⟩ := Option.bind_eq_some_iff.mp hm.nonce
    obtain ⟨text,rfl,-⟩ := asU64_num hv
    exact of_decide_eq_true (Option.filter_eq_some_iff.mp hv).2
  obtain ⟨_,-,-,-,hbalance⟩ := hm.balance
  have hmatches : Matches alloy y.proven y.code (accountJson (y.row snapshotId)) := by
    refine ⟨?_,⟨toString y.proven.balance,?_,exact_toString _,Json.decimal_toString _,hbalance⟩,
      ⟨hex y.proven.codeHash,?_,fixed_hex hhash⟩,hm.code⟩
    · rw [hfield]
      simp only [lookup, String.reduceEq, if_false, if_true, Option.bind_some]
      exact Json.asU64_ofNat hnonce
    · exact hstring _ _ ((hindex _).trans (by simp [lookup, Section.row]))
    · exact hstring _ _ ((hindex _).trans (by simp [lookup, Section.row]))
  have hslots : storedSlots t snapshotId (y.row snapshotId).address = y.slots := by
    rw [h.slots, hname]
    rfl
  refine ⟨y.proven,bind_ok.mpr ⟨text,hheader ▸ htext,bind_ok.mpr ⟨y.proven,?_,bind_ok.mpr ⟨(),
    bind_ok.mpr ⟨(),ensure_ok.mpr ?_,bind_ok.mpr ⟨hex y.proven.storageRoot,?_,bind_ok.mpr
    ⟨y.proven.storageRoot,fixed_hex hstorage,ensure_ok.mpr ⟨rfl,?_⟩⟩⟩⟩,rfl⟩⟩⟩,?_⟩
  · show verifyAccount alloy text y.proven.address (((record.index "proof_bundle").index
      "accounts").index y.proven.address |>.index "proof") = .ok y.proven
    rw [hbundle, ← hname]
    exact hproven
  · exact (hindex _).trans (by simp [lookup, Section.row])
  · exact hstring _ _ ((hindex _).trans (by simp [lookup, Section.row]))
  · show _ = (((record.index "proof_bundle").index "accounts").index y.proven.address).index "code"
    rw [hbundle, ← hname, hcode]
    exact (hindex _).trans (by simp [lookup, Section.row])
  · rw [hslots]
    refine bind_ok.mpr ⟨y.code,hstring _ _ ((hindex _).trans (by simp [lookup, Section.row])),
      bind_ok.mpr ⟨y.count,bind_ok.mpr ⟨(),verifyMetadata_ok.mpr hmatches,hcomplete⟩,bind_ok.mpr ⟨(),
      ensure_ok.mpr ?_,?_⟩⟩⟩
    · rw [hindex]
      simp only [lookup, String.reduceEq, if_false, if_true, Option.getD_some]
      exact (Json.asU64_ofNat hcount).symm
    · rw [hs.count]
      rfl

theorem completed_checked (h : Completed platform alloy worlds bundle sources baseId snapshotId db x)
    (hid : objectId snapshotId = .ok ()) :
    checkManifest (x.record platform describe bundle baseId snapshotId createdAt budgetBytes) = .ok () := by
  have hfield : ∀ name, (x.record platform describe bundle baseId snapshotId createdAt
      budgetBytes).index name = _ := fun name => Json.index_ofPairs (by simp) name
  have hlayout : ∀ name, (Json.ofPairs [("format",.str format),("status",.str "ready"),
      ("checkpoint",x.record platform describe bundle baseId snapshotId createdAt
        budgetBytes)]).index name = _ := fun name => Json.index_ofPairs (by simp) name
  obtain ⟨hversion,hchain,htrust,-⟩ := checkBundle_ok alloy h.checkedBundle
  have hrecord := (hlayout "checkpoint").trans (by simp [lookup] : _ = x.record platform describe
    bundle baseId snapshotId createdAt budgetBytes)
  have hbundle : (x.record platform describe bundle baseId snapshotId createdAt budgetBytes).index
      "proof_bundle" = bundle := (hfield _).trans (by simp [lookup])
  unfold checkManifest checkSnapshot
  rw [hrecord]
  dsimp only
  rw [hbundle]
  refine bind_ok.mpr ⟨(),ensure_ok.mpr ⟨(hlayout _).trans (by simp [lookup]),(hlayout _).trans
    (by simp [lookup])⟩,bind_ok.mpr ⟨(),ensure_ok.mpr ⟨(hfield _).trans (by simp [lookup]),
    (hfield _).trans (by simp [lookup]),(hfield _).trans (by simp [lookup, hchain])⟩,bind_ok.mpr
    ⟨snapshotId,string_index ((hfield _).trans (by simp [lookup])),bind_ok.mpr ⟨(),hid,bind_ok.mpr
    ⟨(),ensure_ok.mpr ⟨hchain,hversion,?_⟩,ensure_ok.mpr ⟨htrust.symm,?_⟩⟩⟩⟩⟩⟩
  · exact ((hfield _).trans (by simp [lookup])).symm
  · exact ((hfield _).trans (by simp [lookup])).symm

/-- A checkpoint that can be moved spells its accounts and codes as its bundle does. -/
theorem movable_spelled {record : Json} {accounts : List String}
    (hm : Movable alloy platform t snapshotId record accounts)
    (hnames : (accountsOf t snapshotId).map (·.address) = accounts) :
    Spelled (record.index "proof_bundle") (accountsOf t snapshotId) := by
  refine ⟨?_,?_,?_⟩
  · obtain ⟨text,digest,htext,hdigest⟩ := hm.header
    have hne : text ≠ "" := by
      rintro rfl
      obtain ⟨encoded,hu,-⟩ := verifyHeader_ok.mp hdigest
      cases hu
    rw [encodedHeader_some.mpr ⟨htext,hne⟩]
    simp
  · obtain ⟨l,-,hcoverage⟩ := bind_ok.mp hm.coverage
    obtain ⟨_,-,hcoverage⟩ := bind_ok.mp hcoverage
    obtain ⟨proofs,hproofs,hcoverage⟩ := bind_ok.mp hcoverage
    obtain ⟨_,hsame,hcoverage⟩ := bind_ok.mp hcoverage
    obtain rfl := pure_ok.mp hcoverage
    rw [context_ok.mp hproofs, hnames]
    exact congrArg some (ensure_ok.mp hsame).symm
  · intro r hr
    obtain ⟨-,-,s,hs,-⟩ := hm.rows
    obtain ⟨u,v,hrow⟩ := foldlM_each hs r hr
    exact stored_code hrow

section Completed
variable (h : Completed platform alloy worlds bundle sources baseId snapshotId db x)
  (hn : Unused db snapshotId)
include h

theorem completed_header (hs : encodedHeader bundle ≠ none) :
    ∃ text digest, string bundle "header_rlp" = .ok text ∧
      verifyHeader alloy text (bundle.index "header") none = .ok digest := by
  obtain ⟨text,htext⟩ := Option.ne_none_iff_exists'.mp hs
  obtain ⟨-,-,-,hencoding⟩ := checkBundle_ok alloy h.checkedBundle
  obtain ⟨digest,hdigest⟩ := checkEncoding_some alloy hencoding htext
  exact ⟨text,digest,(encodedHeader_some.mp htext).1,hdigest⟩

include hn

theorem completed_names (record : Json) :
    (accountsOf (x.after snapshotId record createdAt db) snapshotId).map (·.address) = x.accounts := by
  rw [@completed_accountsOf platform alloy worlds bundle sources baseId snapshotId createdAt db x h hn
    record, List.map_map]
  exact (shaped_accounts (completed_shaped h)).symm

theorem completed_passes {record : Json} (hheader : record.index "header" = bundle.index "header")
    (hbundle : record.index "proof_bundle" = bundle)
    (hbound : (storageOf (x.after snapshotId record createdAt db) snapshotId).length < 2^64)
    (hs : Spelled bundle (accountsOf (x.after snapshotId record createdAt db) snapshotId)) :
    ∀ r ∈ accountsOf (x.after snapshotId record createdAt db) snapshotId,
      Passes alloy (x.after snapshotId record createdAt db) snapshotId record r := by
  intro r hr
  have hcode := hs.code r hr
  rw [@completed_accountsOf platform alloy worlds bundle sources baseId snapshotId createdAt db x h hn
    record] at hr
  obtain ⟨y,hy,rfl⟩ := List.mem_map.mp hr
  obtain ⟨hverified,hshaped⟩ := completed_sections h y hy
  have hcount : y.count < 2^64 := by
    rw [hshaped.count, hverified.slots, storedSlots_length]
    exact (List.length_filter_le _ _).trans_lt hbound
  have hpasses : Passes alloy (candidate snapshotId x.union db) snapshotId record (y.row snapshotId) :=
    section_passes hverified hshaped hheader hbundle hcount hcode
  exact hpasses

theorem spelled_movable (hid : objectId snapshotId = .ok ())
    (hread : platform.fromSlice (Text.utf8 (x.record platform describe bundle baseId snapshotId createdAt
      budgetBytes).canonicalJson) = some (x.record platform describe bundle baseId snapshotId createdAt
        budgetBytes))
    (hslots : (x.building snapshotId).totalSlots < 2^64) (haccounts : x.accounts.length < 2^64)
    (hs : Spelled bundle (accountsOf (x.after snapshotId (x.record platform describe bundle baseId
      snapshotId createdAt budgetBytes) createdAt db) snapshotId)) :
    Movable alloy platform (x.after snapshotId (x.record platform describe bundle baseId snapshotId
      createdAt budgetBytes) createdAt db) snapshotId
      (x.record platform describe bundle baseId snapshotId createdAt budgetBytes) x.accounts := by
  have hfield : ∀ name, (x.record platform describe bundle baseId snapshotId createdAt
      budgetBytes).index name = _ := fun name => Json.index_ofPairs (by simp) name
  have hheader : (x.record platform describe bundle baseId snapshotId createdAt budgetBytes).index
      "header" = bundle.index "header" := (hfield _).trans (by simp [lookup])
  have hbundle : (x.record platform describe bundle baseId snapshotId createdAt budgetBytes).index
      "proof_bundle" = bundle := (hfield _).trans (by simp [lookup])
  have hlisted : (x.record platform describe bundle baseId snapshotId createdAt budgetBytes).index
      "accounts" = .arr (x.accounts.map .str) := record_accounts x
  have hcanon := canonicalAccounts_canonical h.accounts
  have hnames := @completed_names platform alloy worlds bundle sources baseId snapshotId createdAt db x
    h hn (x.record platform describe bundle baseId snapshotId createdAt budgetBytes)
  have hcert := (@completed_certified platform alloy worlds describe bundle sources baseId snapshotId
    createdAt budgetBytes db x h hn).1
  have hrow := (@completed_publishes platform alloy worlds describe bundle sources baseId snapshotId
    createdAt budgetBytes db x h hn).1
  have hbound : (storageOf (x.after snapshotId (x.record platform describe bundle baseId snapshotId
      createdAt budgetBytes) createdAt db) snapshotId).length < 2^64 := h.counted.trans_lt hslots
  refine ⟨publishes_manifest hrow hid hread,completed_checked h hid,?_,?_,?_,?_⟩
  · rw [hbundle, hheader]
    exact completed_header h hs.encoded
  · have hproofs := hs.accounts
    rw [hnames] at hproofs
    obtain ⟨proofs,hobject,hkeys⟩ := Option.map_eq_some_iff.mp hproofs
    refine bind_ok.mpr ⟨x.accounts,?_,bind_ok.mpr ⟨(),ensure_ok.mpr hlisted.symm,bind_ok.mpr ⟨proofs,
      context_ok.mpr ?_,bind_ok.mpr ⟨(),ensure_ok.mpr hkeys.symm,rfl⟩⟩⟩⟩
    · rw [hlisted]
      exact AccountLists.native_list hcanon
    · rw [hbundle]
      exact hobject
  · rw [(hfield "account_count").trans (by simp [lookup] : _ = Json.ofNat x.accounts.length)]
    exact Json.asU64_ofNat haccounts
  · refine passes_stored hcert (fun r hr => ?_) hbound
      (completed_passes h hn hheader hbundle hbound hs)
    exact hcanon.address _ (hnames ▸ List.mem_map.mpr ⟨r,hr,rfl⟩)

/-- A built checkpoint can be moved exactly when its bundle is spelled as its
rows are. -/
theorem completed_movable (hid : objectId snapshotId = .ok ())
    (hread : platform.fromSlice (Text.utf8 (x.record platform describe bundle baseId snapshotId createdAt
      budgetBytes).canonicalJson) = some (x.record platform describe bundle baseId snapshotId createdAt
        budgetBytes))
    (hslots : (x.building snapshotId).totalSlots < 2^64) (haccounts : x.accounts.length < 2^64) :
    Movable alloy platform (x.after snapshotId (x.record platform describe bundle baseId snapshotId
        createdAt budgetBytes) createdAt db) snapshotId
        (x.record platform describe bundle baseId snapshotId createdAt budgetBytes) x.accounts ↔
      Spelled bundle (accountsOf (x.after snapshotId (x.record platform describe bundle baseId snapshotId
        createdAt budgetBytes) createdAt db) snapshotId) := by
  refine ⟨fun hm => ?_,spelled_movable h hn hid hread hslots haccounts⟩
  have hbundle : (x.record platform describe bundle baseId snapshotId createdAt budgetBytes).index
      "proof_bundle" = bundle := (Json.index_ofPairs (by simp) _).trans (by simp [lookup])
  have hspelled := movable_spelled hm (completed_names h hn _)
  rwa [hbundle] at hspelled

end Completed

theorem length_utf8 (l : List Char) : l.length ≤ (Text.utf8 (String.ofList l)).length := by
  rw [Text.utf8_length, Text.utf8ByteSize_ofList]
  induction l with
  | nil => exact Nat.zero_le _
  | cons c l ih =>
    have hc := Char.utf8Size_pos c
    rw [List.length_cons, List.map_cons, List.sum_cons]
    omega

theorem prettyItems_length (string : String → List Char) (depth : ℕ) (l : List Json) :
    l.length ≤ (PrettyJson.prettyItems string depth l).length := by
  induction l with
  | nil => exact Nat.zero_le _
  | cons a l ih =>
    rw [PrettyJson.prettyItems_cons]
    simp only [List.length_append, PrettyJson.line, List.length_cons]
    split_ifs with hl
    · rw [hl]
      exact Nat.le_add_right_of_le (by simp)
    · rw [List.length_cons]
      omega

theorem metadata_items {l : List Json} (h : Json.Stored (.arr l)) :
    l.length ≤ (metadataBytes (.arr l)).length := by
  have htext := PrettyJson.asciiJson_pretty 0 (.arr l) h.regular
  rw [metadataBytes, PrettyJson.metadataText, htext]
  refine le_trans ?_ (length_utf8 _)
  rw [List.length_append]
  cases l with
  | nil => exact Nat.zero_le _
  | cons a l =>
    have hitems := prettyItems_length Json.quote (0+1) (a::l)
    rw [PrettyJson.pretty_arr _ _ (by simp)]
    simp only [List.length_cons, List.length_append] at hitems ⊢
    omega

/-- Within the format's limits a checkpoint that a build has published is
exported if and only if its bundle carries the encoded header and spells the
accounts and codes as they are stored. The record is a level deeper than the
bundle, and what is read of it again must not be too deep. -/
theorem build_exports (platform : Platform) (alloy : Alloy) (worlds : String → SourceWorld)
    (describe : Source → Json) (bundle : Json) (sources : List Source) (baseId : Option String)
    (snapshotId : String) (createdAt budgetBytes : ℕ) (db : CheckpointDb)
    (script : List (Option String)) (hb : ReadsBack platform.fromSlice)
    (hbundle : Json.Simple 126 bundle) (hdescribe : ∀ s, Json.Simple 125 (describe s))
    (hn : Unused db snapshotId) (hid : objectId snapshotId = .ok ()) :
    let p := buildUnlocked platform alloy worlds describe bundle sources baseId snapshotId createdAt
      budgetBytes
    let t := ends p ⟨db,script⟩
    returns p ⟨db,script⟩ = true → ∃ snapshot selected,
      manifest platform.fromSlice t snapshotId = .ok snapshot ∧
      snapshot.index "accounts" = .arr (selected.map .str) ∧
      ∀ (codec : Codec) (directory : String) (pageSize : ℕ),
        (∀ b, codec.decompress (codec.compress b) = ⟨b,none⟩) →
        Fits codec t snapshotId pageSize snapshot selected →
        ((∃ e, exportCheckpoint codec alloy platform directory t snapshotId pageSize = .ok e) ↔
          Spelled bundle (accountsOf t snapshotId)) := by
  intro p t hr
  have htriple : Triple (fun t => t = db) p _ _ := Triple.and (buildUnlocked_triple db)
    (buildUnlocked_bounded.weaken (fun _ _ => trivial) (fun _ _ h => h) (fun _ h => h))
  obtain ⟨hok,-⟩ := Triple.outcome (h := ⟨db,script⟩) htriple rfl
  obtain ⟨out,⟨x,⟨hx,ht⟩,rfl⟩,n,hn',hcount⟩ := hok hr
  have hfield : ∀ name, (x.record platform describe bundle baseId snapshotId createdAt
      budgetBytes).index name = _ := fun name => Json.index_ofPairs (by simp) name
  have hslots : (x.building snapshotId).totalSlots < 2^64 := by
    have hsame : Json.ofNat (x.building snapshotId).totalSlots = .ofNat n :=
      ((hfield "nonzero_slots").trans (by simp [lookup])).symm.trans hcount
    exact Json.ofNat_injective hsame ▸ hn'
  have hrow := (@completed_publishes platform alloy worlds describe bundle sources baseId snapshotId
    createdAt budgetBytes db x hx hn).1
  have hsimple : Json.Simple 127 (x.record platform describe bundle baseId snapshotId createdAt
      budgetBytes) := record_simple (d := 124) hx.accounts hbundle (fun s _ => hdescribe s)
  have hread := hb.compact hsimple
  have hready := publishes_manifest hrow hid hread
  obtain ⟨hcoverage,-,hcomplete,-,-⟩ := (@completed_certified platform alloy worlds describe bundle
    sources baseId snapshotId createdAt budgetBytes db x hx hn).1
  have hlisted := @record_accounts platform describe bundle baseId snapshotId createdAt budgetBytes x
  have hnames := List.map_injective_iff.mpr (fun _ _ h => Json.str.inj h) ((List.map_map ..).trans
    (Json.arr.inj (hcoverage.symm.trans hlisted)))
  rw [show t = _ from ht]
  refine ⟨_,x.accounts,hready,hlisted,fun codec directory pageSize hc hf => ?_⟩
  have haccounts : x.accounts.length < 2^64 := by
    have hitems := metadata_items (accounts_simple 125 _ _).stored |>.trans hf.accounts
    rw [List.length_map, ← List.length_map (f := (·.address)), hnames] at hitems
    exact lt_of_le_of_lt hitems (by decide)
  rw [← completed_movable hx hn hid hread hslots haccounts]
  constructor
  · rintro ⟨e,he⟩
    exact exported_movable hb hc hready hlisted (fun r hr => hnames ▸ hcomplete r hr) he
  · intro hm
    obtain ⟨report,he⟩ := hm.exports hb hc hf
    exact ⟨_,he⟩

theorem build_exports_sample : ∃ snapshot selected,
    manifest readBytes Sharing.samplePublished Sharing.sampleId = .ok snapshot ∧
    snapshot.index "accounts" = .arr (selected.map .str) ∧
    ∀ (codec : Codec) (directory : String) (pageSize : ℕ),
      (∀ b, codec.decompress (codec.compress b) = ⟨b,none⟩) →
      Fits codec Sharing.samplePublished Sharing.sampleId pageSize snapshot selected →
      ((∃ e, exportCheckpoint codec Rpc.sampleChain samplePlatform directory Sharing.samplePublished
        Sharing.sampleId pageSize = .ok e) ↔
          Spelled sampleBundle (accountsOf Sharing.samplePublished Sharing.sampleId)) := by
  obtain ⟨hreturns,hends⟩ := Sharing.runs_stop Sharing.sample_runs
  have hexports := build_exports samplePlatform Rpc.sampleChain (fun _ => sampleWorld) (fun _ => .null)
    sampleBundle [sampleSource] none Sharing.sampleId 1 1 .empty [] readBytes_readsBack
    (Sharing.sampleBundle_simple 121) (fun _ => Json.simple_null _)
    ⟨by decide,by decide,by decide⟩ Sharing.sampleId_object hreturns
  rwa [hends] at hexports

end Built

section Imported
variable {tables : Tables} {codec : Codec} {alloy : Alloy} {platform : Platform}
  {db : CheckpointDb} {snapshotId : String}

theorem verifyStored_congr {m m' : Json}
    (h : ∀ name ∈ ["accounts","header","proof_bundle","nonzero_slots","state_sha256"],
      m'.index name = m.index name) :
    verifyStored alloy platform db snapshotId m' = verifyStored alloy platform db snapshotId m := by
  simp only [List.forall_mem_cons] at h
  obtain ⟨ha,hh,hb,hn,hs,-⟩ := h
  have hrow : verifyStoredRow alloy db snapshotId m' = verifyStoredRow alloy db snapshotId m := by
    funext s r
    unfold verifyStoredRow proveRow
    rw [hh, hb]
  unfold verifyStored
  rw [hrow, ha, hn, hs]

theorem checkCoverage_congr {m m' : Json} (ha : m'.index "accounts" = m.index "accounts")
    (hb : m'.index "proof_bundle" = m.index "proof_bundle") : checkCoverage m' = checkCoverage m := by
  unfold checkCoverage
  rw [ha, hb]

theorem imported_movable {manifest : Except String Opened} {first : Disk} {expectedHash : Option String}
    {createdAt budgetBytes : ℕ} {u : CheckpointDb} {layout : Json} {row : CheckpointRow}
    (hu : Unpublished snapshotId db u)
    (hi : Imported codec alloy platform manifest first expectedHash snapshotId createdAt budgetBytes u
      layout row) (hid : objectId snapshotId = .ok ())
    (hread : platform.fromSlice (Text.utf8 (restoredRecord platform layout snapshotId createdAt
      budgetBytes).canonicalJson) = some (restoredRecord platform layout snapshotId createdAt
        budgetBytes)) :
    ∃ selected, Movable alloy platform { u with checkpoints := db.checkpoints.upsert row } snapshotId
      (restoredRecord platform layout snapshotId createdAt budgetBytes) selected := by
  have hpublishes := imported_publishes hu hi
  obtain ⟨report,hreport⟩ := hi.verified
  obtain ⟨⟨text,encoded,htext,hencoded,hencodes,-⟩,-⟩ := verifyLayout_ok hreport
  obtain ⟨selected,accounts,pages,s,ht⟩ := verifyLayout_traced hreport
  have hsame : ∀ name ∉ ["snapshot_id","base_snapshot","sources","created_at","retained_budget_bytes",
      "imported_from"], (restoredRecord platform layout snapshotId createdAt budgetBytes).index name =
        (layout.index "checkpoint").index name :=
    fun name hn => restored_field layout createdAt budgetBytes hn
  have hheader := hsame "header" (by decide)
  have hbundle := hsame "proof_bundle" (by decide)
  have haccounts := hsame "accounts" (by decide)
  refine ⟨selected,publishes_manifest hpublishes hid hread,?_,⟨text,_,?_,verifyHeader_ok.mpr
    ⟨encoded,hencoded,rfl,?_,fun e he => by cases he⟩⟩,
    (checkCoverage_congr haccounts hbundle).trans ht.coverage,?_,?_⟩
  · obtain ⟨_,hchecked,-⟩ := bind_ok.mp hreport
    obtain ⟨_,-,hchecked⟩ := bind_ok.mp hchecked
    obtain ⟨_,hready,hchecked⟩ := bind_ok.mp hchecked
    obtain ⟨_,-,hchecked⟩ := bind_ok.mp hchecked
    obtain ⟨_,-,hchecked⟩ := bind_ok.mp hchecked
    have hlayout : ∀ name, (Json.ofPairs [("format",.str format),("status",.str "ready"),
        ("checkpoint",restoredRecord platform layout snapshotId createdAt budgetBytes)]).index name =
          _ := fun name => Json.index_ofPairs (by simp) name
    have hrecord := (hlayout "checkpoint").trans (by simp [lookup] : _ = restoredRecord platform layout
      snapshotId createdAt budgetBytes)
    unfold checkManifest checkSnapshot
    rw [hrecord]
    dsimp only
    rw [hbundle, hheader, hsame "header_trust" (by decide), hsame "status" (by decide),
      hsame "format_version" (by decide), hsame "chain_id" (by decide)]
    exact bind_ok.mpr ⟨(),ensure_ok.mpr ⟨(hlayout _).trans (by simp [lookup]),(hlayout _).trans
      (by simp [lookup])⟩,bind_ok.mpr ⟨(),hready,bind_ok.mpr ⟨snapshotId,string_index hpublishes.named,
      bind_ok.mpr ⟨(),hid,hchecked⟩⟩⟩⟩
  · rw [hbundle]
    exact htext
  · rw [hheader]
    exact hencodes
  · rw [hsame "account_count" (by decide)]
    obtain ⟨_,-,hread⟩ := bind_ok.mp ht.read
    obtain ⟨_,-,hread⟩ := bind_ok.mp hread
    obtain ⟨_,-,hread⟩ := bind_ok.mp hread
    obtain ⟨names,hnames,hread⟩ := bind_ok.mp hread
    obtain ⟨_,hselected,hread⟩ := bind_ok.mp hread
    obtain ⟨_,hcount,hread⟩ := bind_ok.mp hread
    obtain rfl := pure_ok.mp hread
    rw [← ensure_ok.mp hcount, ← ensure_ok.mp hselected, (mapM_ok.mp hnames).length_eq]
  · refine (verifyStored_congr (fun name hname => hsame name ?_)).trans hi.stored
    simp only [List.mem_cons, List.not_mem_nil, or_false] at hname
    rcases hname with rfl | rfl | rfl | rfl | rfl <;> decide

/-- A checkpoint that an import has published can be exported again, as long
as its record is read back, and every export that keeps to the format's limits
returns. -/
theorem import_exports (tables : Tables) (codec : Codec) (alloy : Alloy) (platform : Platform)
    (opened : Except String Opened) (first second : Disk) (expectedHash : Option String)
    (snapshotId : String) (createdAt budgetBytes : ℕ) (db : CheckpointDb)
    (script : List (Option String)) (hb : ReadsBack platform.fromSlice)
    (hid : objectId snapshotId = .ok ()) :
    let p := importCheckpoint tables codec alloy platform opened first second expectedHash snapshotId
      createdAt budgetBytes
    let t := ends p ⟨db,script⟩
    returns p ⟨db,script⟩ = true → ∃ row record, Publishes platform alloy snapshotId db t row record ∧
      (Json.Simple 127 record → ∃ selected, ∀ (codec : Codec) (directory : String) (pageSize : ℕ),
        (∀ b, codec.decompress (codec.compress b) = ⟨b,none⟩) →
        Fits codec t snapshotId pageSize record selected →
        ∃ e, exportCheckpoint codec alloy platform directory t snapshotId pageSize = .ok e) := by
  intro p t hr
  have htriple : Triple (fun t => t = db) p _ _ := importCheckpoint_triple opened first second
    expectedHash createdAt budgetBytes
  obtain ⟨hok,-⟩ := Triple.outcome (h := ⟨db,script⟩) htriple rfl
  obtain ⟨out,layout,⟨u,row,hu,hi,ht⟩,-⟩ := hok hr
  rw [show t = _ from ht]
  refine ⟨row,_,imported_publishes hu hi,fun hsimple => ?_⟩
  obtain ⟨selected,hm⟩ := imported_movable hu hi hid (hb.compact hsimple)
  refine ⟨selected,fun codec directory pageSize hc hf => ?_⟩
  obtain ⟨report,he⟩ := hm.exports hb hc hf
  exact ⟨_,he⟩

end Imported

end EvmState.Portability
