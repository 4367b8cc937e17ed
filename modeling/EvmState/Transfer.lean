import EvmState.RoundTrip

/-!
# A transfer keeps a checkpoint

An export that returns has written files from which both the verification
and an import read what it exported. Rows are inserted in batches and page by
page, and in the end those of all pages are stored.
-/

set_option autoImplicit false

namespace EvmState.Transfer
open EvmState.Hex EvmState.Fallible EvmState.OrderedMap EvmState.Store EvmState.Encoding
open EvmState.Params EvmState.Bootstrap EvmState.Proof EvmState.Header EvmState.Build EvmState.Crash
open EvmState.Text EvmState.PrettyJson EvmState.Reader EvmState.Publication
open EvmState.Portable EvmState.Importer EvmState.Export EvmState.RoundTrip

section Insert
variable {ρ α : Type} {read : Json → Except String ρ} {store : List ρ → CheckpointDb → CheckpointDb}
  {send : α → Json} {kept : α → ρ}

/-- Storing rows at once or one after another is the same. -/
structure Appends (store : List ρ → CheckpointDb → CheckpointDb) : Prop where
  nil : ∀ db, store [] db = db
  append : ∀ xs ys db, store (xs++ys) db = store ys (store xs db)

theorem storeStorage_appends : Appends storeStorage where
  nil _ := rfl
  append xs ys db := by
    rw [storeStorage, Table.insertRows, List.foldl_append]
    rfl

theorem storeAccounts_appends : Appends storeAccounts where
  nil _ := rfl
  append xs ys db := by
    rw [storeAccounts, Table.insertRows, List.foldl_append]
    rfl

theorem insertBody_runs {rows : List α} (hread : ∀ a ∈ rows, read (send a) = .ok (kept a))
    (db : CheckpointDb) :
    Runs (insertBody read store (rows.map send)) db () (store (rows.map kept) db) := by
  have hrows : (rows.map send).mapM read = .ok (rows.map kept) := by
    refine mapM_ok.mpr (List.forall₂_map_left_iff.mpr (List.forall₂_map_right_iff.mpr ?_))
    exact List.forall₂_same.mpr hread
  exact runs_check hrows rfl

theorem insert_runs {batch : ℕ} (hs : Appends store) {pending rows : List α}
    (hread : ∀ a ∈ pending++rows, read (send a) = .ok (kept a)) (db : CheckpointDb) :
    Runs (insert read store batch (pending.map send) (rows.map (fun a => .ok (send a)))) db ()
      (store ((pending++rows).map kept) db) := by
  induction rows generalizing pending db with
  | nil =>
    rw [List.append_nil] at hread ⊢
    rw [List.map_nil]
    unfold Importer.insert
    split_ifs with hp
    · obtain rfl := List.map_eq_nil_iff.mp hp
      rw [List.map_nil, hs.nil]
      exact runs_pure () db
    · exact insertBody_runs hread db
  | cons a rows ih =>
    have hsplit : pending++a::rows = (pending++[a])++rows := by
      rw [List.append_assoc, List.singleton_append]
    have hsend : pending.map send++[send a] = (pending++[a]).map send := by
      rw [List.map_append, List.map_singleton]
    rw [hsplit] at hread ⊢
    rw [List.map_cons]
    unfold Importer.insert
    rw [hsend]
    split_ifs
    · have hkept : ((pending++[a])++rows).map kept = (pending++[a]).map kept++rows.map kept :=
        List.map_append
      rw [hkept, hs.append]
      refine runs_bind (insertBody_runs (fun b hb => hread b (List.mem_append_left _ hb)) db) ?_
      exact @ih [] (fun b hb => hread b (List.mem_append_right _ hb)) _
    · exact ih hread db

theorem insert_all {batch : ℕ} (hs : Appends store) {rows : List α}
    (hread : ∀ a ∈ rows, read (send a) = .ok (kept a)) (db : CheckpointDb) :
    Runs (insert read store batch [] (rows.map (fun a => .ok (send a)))) db ()
      (store (rows.map kept) db) := @insert_runs _ _ _ _ _ _ batch hs [] rows hread db

theorem runs_each {σ β γ : Type} {p : β → γ} {l : List β} {f : γ → Prog σ Unit} {g : β → σ → σ}
    (h : ∀ b ∈ l, ∀ s, Runs (f (p b)) s () (g b s)) (s : σ) :
    Runs ((l.map p).forM f) s () (l.foldl (fun s b => g b s) s) := by
  induction l generalizing s with
  | nil => exact runs_pure () s
  | cons b l ih =>
    obtain ⟨hb,hl⟩ := List.forall_mem_cons.mp h
    exact runs_bind (hb s) (ih hl (g b s))

theorem store_each {β : Type} (hs : Appends store) {rows : β → List ρ} {l : List β}
    (db : CheckpointDb) :
    l.foldl (fun db b => store (rows b) db) db = store (l.flatMap rows) db := by
  induction l generalizing db with
  | nil => exact (hs.nil db).symm
  | cons b l ih => rw [List.foldl_cons, ih, List.flatMap_cons, hs.append]

end Insert

section Agree
variable {codec : Codec} {alloy : Alloy} {platform : Platform} {d d' : Disk}

def Agree (d d' : Disk) : Prop := ∀ o name, isFileName name = true → d o name = d' o name

theorem bind_congr_ok {α β : Type} {x : Except String α} {f g : α → Except String β}
    (h : ∀ a, x = .ok a → f a = g a) : x >>= f = x >>= g := by
  cases x with
  | error e => rfl
  | ok a => exact h a rfl

theorem checkFile_congr (h : Agree d d') (o : Opening) (item : Json) :
    checkFile codec (d o) item = checkFile codec (d' o) item :=
  bind_congr_ok (fun name _ => bind_congr_ok (fun _ hn => by rw [h o name (ensure_ok.mp hn)]))

theorem checkFile_named {opened : String → Except String Opened} {item : Json} {name : String}
    (h : checkFile codec opened item = .ok name) : isFileName name = true := by
  obtain ⟨name',-,h⟩ := bind_ok.mp h
  obtain ⟨_,hn,h⟩ := bind_ok.mp h
  obtain ⟨_,-,h⟩ := bind_ok.mp h
  obtain ⟨_,-,h⟩ := bind_ok.mp h
  obtain ⟨_,-,h⟩ := bind_ok.mp h
  obtain ⟨_,-,h⟩ := bind_ok.mp h
  obtain rfl := pure_ok.mp h
  exact ensure_ok.mp hn

theorem pageRows_congr (h : Agree d d') (index : ℕ) (item : Json) :
    pageRows codec d index item = pageRows codec d' index item := by
  unfold pageRows
  rw [checkFile_congr h]
  refine bind_congr_ok (fun name hname => bind_congr_ok (fun _ _ => bind_congr_ok (fun _ _ => ?_)))
  rw [h _ name (checkFile_named hname)]

theorem verifyRow_congr (h : Agree d d') :
    verifyRow codec alloy platform d = verifyRow codec alloy platform d' := by
  have hflat : flatRows codec platform.fromSlice d = flatRows codec platform.fromSlice d' := by
    funext pages
    simp only [flatRows, pageRows_congr h]
  funext snapshot pages s row
  rw [verifyRow, verifyRow, hflat]

theorem readAccounts_congr (h : Agree d d') (layout : Json) (selected : List String) :
    readAccounts codec platform d layout selected = readAccounts codec platform d' layout selected := by
  unfold readAccounts
  rw [checkFile_congr h]
  exact bind_congr_ok (fun name hname => by rw [h _ name (checkFile_named hname)])

theorem verifyLayout_congr (h : Agree d d') (layout : Json) (expectedHash : Option String) :
    verifyLayout codec alloy platform d layout expectedHash =
      verifyLayout codec alloy platform d' layout expectedHash := by
  unfold verifyLayout
  simp only [verifyRow_congr h, readAccounts_congr h]

end Agree

section Layout
variable {codec : Codec} {alloy : Alloy} {platform : Platform} {d : Disk} {layout : Json}

structure Traced (codec : Codec) (alloy : Alloy) (platform : Platform) (d : Disk) (layout : Json)
    (selected : List String) (accounts pages : List Json) (s : Verifying) : Prop where
  coverage : checkCoverage (layout.index "checkpoint") = .ok selected
  read : readAccounts codec platform d layout selected = .ok accounts
  stored : layout.index "storage_pages" = .arr pages
  rows : accounts.foldlM (verifyRow codec alloy platform d (layout.index "checkpoint")
    (pages.zipIdx.map Prod.swap)) ⟨"",0⟩ = .ok s
  total : some s.total = ((layout.index "checkpoint").index "nonzero_slots").asU64
  checksum : (layout.index "checkpoint").index "state_sha256" = .str (platform.sha256 s.digested)

theorem asArray_ok {j : Json} {l : List Json} (h : j.asArray = some l) : j = .arr l := by
  cases j with
  | arr => exact congrArg Json.arr (Option.some.inj h)
  | _ => cases h

theorem verifyLayout_traced {report : Json} {expectedHash : Option String}
    (h : verifyLayout codec alloy platform d layout expectedHash = .ok report) :
    ∃ selected accounts pages s, Traced codec alloy platform d layout selected accounts pages s := by
  obtain ⟨_,-,h⟩ := bind_ok.mp h
  obtain ⟨_,-,h⟩ := bind_ok.mp h
  obtain ⟨_,-,h⟩ := bind_ok.mp h
  obtain ⟨selected,hselected,h⟩ := bind_ok.mp h
  obtain ⟨accounts,haccounts,h⟩ := bind_ok.mp h
  obtain ⟨pages,hpages,h⟩ := bind_ok.mp h
  obtain ⟨_,-,h⟩ := bind_ok.mp h
  obtain ⟨s,hs,h⟩ := bind_ok.mp h
  obtain ⟨_,hsame,-⟩ := bind_ok.mp h
  obtain ⟨htotal,hchecksum⟩ := ensure_ok.mp hsame
  exact ⟨selected,accounts,pages,s,⟨hselected,haccounts,asArray_ok (context_ok.mp hpages),hs,htotal,
    hchecksum⟩⟩

theorem verifyLayout_expected {report : Json} {expectedHash : Option String}
    (he : ∀ e ∈ expectedHash, string ((layout.index "checkpoint").index "header") "hash" = .ok e)
    (h : verifyLayout codec alloy platform d layout none = .ok report) :
    verifyLayout codec alloy platform d layout expectedHash = .ok report := by
  obtain ⟨_,hsnapshot,h⟩ := bind_ok.mp h
  obtain ⟨text,htext,h⟩ := bind_ok.mp h
  obtain ⟨digest,hdigest,h⟩ := bind_ok.mp h
  refine bind_ok.mpr ⟨_,hsnapshot,bind_ok.mpr ⟨text,htext,bind_ok.mpr ⟨digest,?_,h⟩⟩⟩
  obtain ⟨encoded,hu,rfl,hencodes,-⟩ := verifyHeader_ok.mp hdigest
  refine verifyHeader_ok.mpr ⟨encoded,hu,rfl,hencodes,fun e hmem => ?_⟩
  obtain ⟨hash,hhash,hfixed⟩ := hencodes.hash
  obtain rfl := Except.ok.inj (hhash.symm.trans (he e hmem))
  exact hfixed

end Layout

section Shipped
variable {codec : Codec} {alloy : Alloy} {platform : Platform} {db : CheckpointDb}
  {snapshotId directory : String} {pageSize : ℕ} {e : Exported} {snapshot : Json}
  {selected : List String} {chunks : List Chunk}

def accountBytes (db : CheckpointDb) (snapshotId : String) : Bytes :=
  metadataBytes (.arr ((accountsOf db snapshotId).map exportedJson))

def pageItems (codec : Codec) (chunks : List Chunk) : List Json :=
  chunks.zipIdx.map (fun e => pageItem codec e.2 e.1.1 e.1.2)

/-- The files of an export, in terms of the checkpoint. -/
structure Shipped (codec : Codec) (alloy : Alloy) (platform : Platform) (db : CheckpointDb)
    (snapshotId directory : String) (e : Exported) (snapshot : Json) (selected : List String)
    (chunks : List Chunk) : Prop where
  ready : manifest platform.fromSlice db snapshotId = .ok snapshot
  fits : ∀ r ∈ accountsOf db snapshotId, r.nonce < 2^64 ∧ r.nonzeroSlots < 2^64
  coverage : checkCoverage snapshot = .ok selected
  layout : e.layout = layoutJson codec snapshot (accountBytes db snapshotId) (pageItems codec chunks)
  holds : Holds codec (accountBytes db snapshotId) ⟨e.files,pageItems codec chunks⟩ chunks
  top : e.files.get? "manifest.json" = some (metadataBytes e.layout)
  owned : ∀ c ∈ chunks, c.1 ∈ selected
  flat : chunks.flatMap Prod.snd = selected.flatMap (accountRows db snapshotId)
  own : ∀ account, (chunks.filter (fun c => c.1 = account)).flatMap Prod.snd =
    (selected.filter (· = account)).flatMap (accountRows db snapshotId)
  verified : ∃ report, verifyLayout codec alloy platform (disk e.files) e.layout none = .ok report ∧
    e.report = ((report.set "directory" (.str directory)).set "pages" (.ofNat chunks.length)).set
      "bytes" (.ofNat (e.files.values.map List.length).sum)

theorem layoutJson_index (snapshot : Json) (accounts : Bytes) (pages : List Json) (name : String) :
    (layoutJson codec snapshot accounts pages).index name =
      (lookup name [("format",.str format),("status",.str "ready"),("checkpoint",snapshot),
        ("account_file",.ofPairs [("file",.str "accounts.json"),("bytes",.ofNat accounts.length),
          ("sha256",.str (codec.sha256 accounts))]),
        ("storage_pages",.arr pages)]).getD .null := Json.index_ofPairs (by simp) name

theorem layout_checkpoint (snapshot : Json) (accounts : Bytes) (pages : List Json) :
    (layoutJson codec snapshot accounts pages).index "checkpoint" = snapshot :=
  (layoutJson_index _ _ _ _).trans (by simp [lookup])

theorem coverage_ok {snapshot : Json} (h : checkCoverage snapshot = .ok selected) :
    Canonical selected ∧ snapshot.index "accounts" = .arr (selected.map .str) := by
  obtain ⟨l,hl,h⟩ := bind_ok.mp h
  obtain ⟨_,hsame,h⟩ := bind_ok.mp h
  obtain ⟨_,-,h⟩ := bind_ok.mp h
  obtain ⟨_,-,h⟩ := bind_ok.mp h
  obtain rfl := pure_ok.mp h
  exact ⟨canonicalAccounts_canonical hl,(ensure_ok.mp hsame).symm⟩

theorem manifest_agrees (files : Files) (bytes : Bytes) :
    Agree (disk files) (disk (files.insert "manifest.json" bytes)) := by
  intro o name hn
  have hne : name ≠ "manifest.json" := by
    rintro rfl
    revert hn
    decide
  show opened files name = opened (files.insert "manifest.json" bytes) name
  rw [opened, opened, SortedMap.get?_insert, if_neg hne]

theorem exportCheckpoint_ok
    (h : exportCheckpoint codec alloy platform directory db snapshotId pageSize = .ok e) :
    ∃ snapshot selected chunks,
      Shipped codec alloy platform db snapshotId directory e snapshot selected chunks := by
  obtain ⟨_,-,h⟩ := bind_ok.mp h
  obtain ⟨snapshot,hready,h⟩ := bind_ok.mp h
  obtain ⟨_,-,h⟩ := bind_ok.mp h
  obtain ⟨accounts,haccounts,h⟩ := bind_ok.mp h
  obtain ⟨files,hfiles,h⟩ := bind_ok.mp h
  obtain ⟨listed,hlisted,h⟩ := bind_ok.mp h
  obtain ⟨s,hs,h⟩ := bind_ok.mp h
  obtain ⟨report,hreport,h⟩ := bind_ok.mp h
  obtain ⟨files',hfiles',h⟩ := bind_ok.mp h
  obtain ⟨_,-,h⟩ := bind_ok.mp h
  obtain rfl := pure_ok.mp h
  have hrows := mapM_ok.mp haccounts
  obtain rfl : accounts = (accountsOf db snapshotId).map exportedJson := by
    refine (List.forall₂_eq_eq_eq ▸ ?_ : (accountsOf db snapshotId).map exportedJson = accounts).symm
    exact List.forall₂_map_left_iff.mpr (hrows.imp (fun _ _ h => (exportedAccount_ok.mp h).2.2.symm))
  have hfits : ∀ r ∈ accountsOf db snapshotId, r.nonce < 2^64 ∧ r.nonzeroSlots < 2^64 := by
    intro r hr
    obtain ⟨row,-,hrow⟩ := (Timeline.exists_related hrows).1 r hr
    exact ⟨(exportedAccount_ok.mp hrow).1,(exportedAccount_ok.mp hrow).2.1⟩
  obtain ⟨selected,_,_,_,htraced⟩ := verifyLayout_traced hreport
  have hcoverage : checkCoverage snapshot = .ok selected := by
    have := htraced.coverage
    rwa [layout_checkpoint] at this
  obtain ⟨-,haccounts⟩ := coverage_ok hcoverage
  obtain rfl : listed = selected.map Json.str := by
    have := asArray_ok (context_ok.mp hlisted)
    exact Json.arr.inj (this.symm.trans haccounts)
  have hfirst : Holds codec (accountBytes db snapshotId) ⟨files,[]⟩ [] := by
    obtain ⟨-,rfl⟩ := createNew_ok hfiles
    exact ⟨rfl,by simp,(SortedMap.get?_insert _ _ _ _).trans (if_pos rfl)⟩
  obtain ⟨chunks,hholds,howned,hflat,hown⟩ := exportAccounts_holds hfirst hs
  rw [List.nil_append] at hholds
  have hpages : s.pages = pageItems codec chunks := hholds.pages
  have htop : files' = s.files.insert "manifest.json" _ := (createNew_ok hfiles').2
  have hlength : s.pages.length = chunks.length := by
    rw [hpages, pageItems, List.length_map, List.length_zipIdx]
  refine ⟨snapshot,selected,chunks,hready,hfits,hcoverage,?_,⟨rfl,fun e he => ?_,?_⟩,?_,howned,hflat,
    hown,report,?_,?_⟩
  · rw [← hpages]
    rfl
  · exact createNew_kept hfiles' (hholds.files e he)
  · exact createNew_kept hfiles' hholds.accounts
  · rw [htop]
    exact (SortedMap.get?_insert _ _ _ _).trans (if_pos rfl)
  · rw [htop, ← verifyLayout_congr (manifest_agrees _ _)]
    exact hreport
  · rw [← hlength]

theorem readJson_metadata {fromSlice : Bytes → Option Json} (hb : ReadsBack fromSlice) {value : Json}
    (h : Json.Simple 127 value) (hsize : (metadataBytes value).length ≤ maxJsonBytes) :
    readJson fromSlice (.ok ⟨(metadataBytes value).length,metadataBytes value⟩) = .ok value := by
  have htake : (metadataBytes value).take (maxJsonBytes+1) = metadataBytes value :=
    List.take_of_length_le (Nat.le_succ_of_le hsize)
  refine bind_ok.mpr ⟨_,rfl,bind_ok.mpr ⟨(),ensure_ok.mpr hsize,bind_ok.mpr ⟨(),ensure_ok.mpr ?_,
    context_ok.mpr ?_⟩⟩⟩
  · rw [htake]
    exact hsize
  · rw [htake]
    exact hb.metadata h

theorem readJson_size {fromSlice : Bytes → Option Json} {file : Opened} {value : Json}
    (h : readJson fromSlice (.ok file) = .ok value) : file.size ≤ maxJsonBytes := by
  obtain ⟨_,hfile,h⟩ := bind_ok.mp h
  obtain rfl := Except.ok.inj hfile
  obtain ⟨_,hsize,-⟩ := bind_ok.mp h
  exact ensure_ok.mp hsize

theorem opened_ok {files : Files} {name : String} {bytes : Bytes} (h : files.get? name = some bytes) :
    opened files name = .ok ⟨bytes.length,bytes⟩ :=
  bind_ok.mpr ⟨bytes,context_ok.mpr h,rfl⟩

theorem accounts_simple (d : ℕ) (db : CheckpointDb) (snapshotId : String) :
    Json.Simple (d+2) (.arr ((accountsOf db snapshotId).map exportedJson)) := by
  refine Json.simple_arr (fun a ha => ?_)
  obtain ⟨r,-,rfl⟩ := List.mem_map.mp ha
  exact exportedJson_simple d r

theorem Shipped.readAccounts (hb : ReadsBack platform.fromSlice)
    (h : Shipped codec alloy platform db snapshotId directory e snapshot selected chunks)
    {accounts : List Json} (hr : Portable.readAccounts codec platform (disk e.files) e.layout selected =
      .ok accounts) :
    accounts = (accountsOf db snapshotId).map exportedJson ∧
      (accountsOf db snapshotId).map (·.address) = selected ∧
      ∃ name, checkFile codec (disk e.files .checkAccounts) (e.layout.index "account_file") = .ok name ∧
        readJson platform.fromSlice (disk e.files .readAccounts name) = .ok (.arr accounts) := by
  obtain ⟨name,hname,hr⟩ := bind_ok.mp hr
  obtain ⟨value,hvalue,hr⟩ := bind_ok.mp hr
  obtain ⟨listed,hlisted,hr⟩ := bind_ok.mp hr
  obtain ⟨names,hnames,hr⟩ := bind_ok.mp hr
  obtain ⟨_,hsame,hr⟩ := bind_ok.mp hr
  obtain ⟨_,-,hr⟩ := bind_ok.mp hr
  obtain rfl := pure_ok.mp hr
  have hfile : (e.layout.index "account_file").index "file" = .str "accounts.json" := by
    rw [h.layout, layoutJson_index]
    simp only [lookup, String.reduceEq, if_false, if_true, Option.getD_some]
    exact (Json.index_ofPairs (by simp) _).trans (by simp [lookup])
  obtain rfl := checkFile_name hname hfile
  have hopened : disk e.files .readAccounts "accounts.json" = .ok ⟨_,_⟩ := opened_ok h.holds.accounts
  have hread := hvalue
  rw [hopened] at hread
  obtain rfl := Except.ok.inj ((readJson_metadata hb (accounts_simple 125 db snapshotId)
    (readJson_size hread)).symm.trans hread)
  obtain rfl := Option.some.inj (context_ok.mp hlisted)
  refine ⟨rfl,?_,_,hname,hvalue⟩
  have haddresses : ((accountsOf db snapshotId).map exportedJson).mapM (fun row => string row "address") =
      .ok ((accountsOf db snapshotId).map (·.address)) :=
    mapM_ok.mpr (List.forall₂_map_left_iff.mpr (List.forall₂_map_right_iff.mpr
      (List.forall₂_same.mpr (fun r _ => exportedJson_address r))))
  exact (Except.ok.inj (haddresses.symm.trans hnames)).trans (ensure_ok.mp hsame)

def ownPages (codec : Codec) (chunks : List Chunk) (account : String) : List (ℕ × Json) :=
  ((pageItems codec chunks).zipIdx.map Prod.swap).filter (fun e => e.2.index "address" = .str account)

theorem ownPages_eq (account : String) : ownPages codec chunks account =
    (chunks.zipIdx.filter (fun e => e.1.1 = account)).map (pageOf codec) := by
  rw [ownPages, pageItems, layout_pages, List.filter_map]
  congr 2
  funext e
  have haddress : (pageOf codec e).2.index "address" = .str e.1.1 :=
    (pageItem_index _ _ _ _).trans (by simp [lookup])
  simp [haddress]

theorem ownPages_rows (account : String) :
    (chunks.zipIdx.filter (fun e => e.1.1 = account)).flatMap (fun e => e.1.2) =
      (chunks.filter (fun c => c.1 = account)).flatMap Prod.snd := by
  have hfirst : chunks.filter (fun c => c.1 = account) =
      (chunks.zipIdx.filter (fun e => e.1.1 = account)).map Prod.fst := by
    conv_lhs => rw [← List.zipIdx_map_fst 0 chunks, List.filter_map]
    rfl
  rw [hfirst, List.flatMap_map]

theorem filter_one {l : List String} {a : String} (hn : l.Nodup) (ha : a ∈ l) :
    l.filter (· = a) = [a] := by
  rw [List.filter_eq, List.count_eq_one_of_mem hn ha]
  rfl

/-- The pages of an account that were read deliver its stored slots, and each
of them can be opened. -/
theorem Shipped.read (hb : ReadsBack platform.fromSlice)
    (h : Shipped codec alloy platform db snapshotId directory e snapshot selected chunks)
    (hc : ∀ b, codec.decompress (codec.compress b) = ⟨b,none⟩) {account : String}
    (ha : account ∈ selected) {slots : List (String × String)}
    (hs : orderedSlots none (flatRows codec platform.fromSlice (disk e.files)
      (ownPages codec chunks account)) = slots.map .ok) :
    slots = storedSlots db snapshotId account ∧ ∀ c ∈ chunks.zipIdx, c.1.1 = account →
      ∃ r, pageRows codec (disk e.files) (pageOf codec c).1 (pageOf codec c).2 = .ok r ∧
        r.rows platform.fromSlice = c.1.2.map .ok := by
  obtain ⟨read,hread,hpairs⟩ := orderedSlots_ok hs
  have hmem : ∀ c ∈ chunks.zipIdx.filter (fun e => e.1.1 = account), c ∈ chunks.zipIdx ∧
      c.1.1 = account := fun c hc =>
    ⟨(List.mem_filter.mp hc).1,of_decide_eq_true (List.mem_filter.mp hc).2⟩
  have hrows : (chunks.zipIdx.filter (fun e => e.1.1 = account)).flatMap (fun e => e.1.2) =
      accountRows db snapshotId account := by
    rw [ownPages_rows, h.own, filter_one (coverage_ok h.coverage).1.sorted.nodup ha,
      List.flatMap_singleton]
  have hstored : ∀ c ∈ chunks.zipIdx.filter (fun e => e.1.1 = account), ∀ row ∈ c.1.2,
      Json.Simple 127 row := by
    intro c hc row hrow
    have hmem : row ∈ accountRows db snapshotId account :=
      hrows ▸ List.mem_flatMap.mpr ⟨c,hc,hrow⟩
    obtain ⟨pair,-,rfl⟩ := List.mem_map.mp hmem
    exact rowJson_simple 126 account pair
  rw [ownPages_eq] at hread
  obtain ⟨hflat,hopen⟩ := flatRows_read hb hc (fun c hc => h.holds.files c (hmem c hc).1) hstored
    (fun error he => by
      rw [hread] at he
      obtain ⟨_,-,he⟩ := List.mem_map.mp he
      cases he)
  refine ⟨?_,fun c hc hca => hopen c (List.mem_filter.mpr ⟨hc,decide_eq_true hca⟩)⟩
  rw [hrows] at hflat
  obtain rfl : accountRows db snapshotId account = read :=
    List.map_injective_iff.mpr (fun _ _ h => Except.ok.inj h) (hflat.symm.trans hread)
  refine (List.forall₂_eq_eq_eq ▸ ?_ : storedSlots db snapshotId account = slots).symm
  refine (List.forall₂_map_left_iff.mp hpairs).imp (fun e pair hp => ?_)
  have hfield : ∀ name, (rowJson account e).index name =
      (lookup name [("address",.str account),("slot",.str e.1),("value",.str e.2)]).getD .null :=
    Json.index_ofPairs (by simp)
  have hslot : string (rowJson account e) "slot" = .ok e.1 :=
    string_index ((hfield "slot").trans (by simp [lookup]))
  have hvalue : string (rowJson account e) "value" = .ok e.2 :=
    string_index ((hfield "value").trans (by simp [lookup]))
  exact Prod.ext (Except.ok.inj (hslot.symm.trans hp.1)) (Except.ok.inj (hvalue.symm.trans hp.2))

end Shipped

section Rows
variable {codec : Codec} {alloy : Alloy} {platform : Platform} {d : Disk} {snapshot : Json}
  {pages : List (ℕ × Json)} {u : CheckpointDb} {newId : String} {rows : List AccountRow} {s s' : Verifying}

theorem verifyRows_read (hn : ∀ r ∈ rows, r.nonce < 2^64)
    (hc : ∀ r ∈ rows, address r.address = .ok r.address)
    (h : (rows.map exportedJson).foldlM (verifyRow codec alloy platform d snapshot pages) s = .ok s') :
    ∀ r ∈ rows, ∃ slots : List (String × String), orderedSlots none (flatRows codec platform.fromSlice d
      (pages.filter (fun e => e.2.index "address" = .str r.address))) = slots.map .ok := by
  induction rows generalizing s with
  | nil => simp
  | cons r rows ih =>
    obtain ⟨hnr,hn⟩ := List.forall_mem_cons.mp hn
    obtain ⟨hcr,hc⟩ := List.forall_mem_cons.mp hc
    obtain ⟨s1,hrow,h⟩ := bind_ok.mp h
    obtain ⟨slots,hverified⟩ := verifyRow_ok hnr hcr hrow
    exact List.forall_mem_cons.mpr ⟨⟨slots,hverified.read⟩,ih hn hc h⟩

theorem verifyRows_moved (hn : ∀ r ∈ rows, r.nonce < 2^64)
    (hc : ∀ r ∈ rows, address r.address = .ok r.address)
    (hs : ∀ r ∈ rows, ∀ slots, orderedSlots none (flatRows codec platform.fromSlice d
      (pages.filter (fun e => e.2.index "address" = .str r.address))) = slots.map .ok →
        storedSlots u newId r.address = slots)
    (h : (rows.map exportedJson).foldlM (verifyRow codec alloy platform d snapshot pages) s = .ok s') :
    (rows.map (moved newId)).foldlM (verifyStoredRow alloy u newId snapshot) s = .ok s' ∧
      s'.total = s.total+(rows.map (fun r => (storedSlots u newId r.address).length)).sum := by
  induction rows generalizing s with
  | nil =>
    obtain rfl := pure_ok.mp h
    exact ⟨rfl,rfl⟩
  | cons r rows ih =>
    obtain ⟨hnr,hn⟩ := List.forall_mem_cons.mp hn
    obtain ⟨hcr,hc⟩ := List.forall_mem_cons.mp hc
    obtain ⟨hsr,hs⟩ := List.forall_mem_cons.mp hs
    obtain ⟨s1,hrow,h⟩ := bind_ok.mp h
    obtain ⟨slots,hverified⟩ := verifyRow_ok hnr hcr hrow
    have hslots := hsr slots hverified.read
    obtain ⟨hrest,htotal⟩ := ih hn hc hs h
    refine ⟨bind_ok.mpr ⟨s1,verifyStoredRow_moved hverified hslots,hrest⟩,?_⟩
    rw [htotal, hverified.after, List.map_cons, List.sum_cons, hslots, Verifying.add, Nat.add_assoc]

end Rows

section Import
variable {tables : Tables} {codec : Codec} {alloy : Alloy} {platform : Platform}
  {db target : CheckpointDb} {snapshotId newId directory : String} {pageSize : ℕ} {e : Exported}
  {snapshot : Json} {selected : List String} {chunks : List Chunk}

/-- The database reads the rows that it is sent under the new snapshot. -/
structure Reads (tables : Tables) (db : CheckpointDb) (snapshotId newId : String) : Prop where
  storage : ∀ r ∈ storageOf db snapshotId,
    tables.storage (named newId (rowJson r.address (r.slot,r.value))) = .ok (movedSlot newId r)
  accounts : ∀ r ∈ accountsOf db snapshotId, r.nonce < 2^64 → r.nonzeroSlots < 2^64 →
    tables.accounts (named newId (accountJson r)) = .ok (moved newId r)

def columnText (row : Json) (name : String) : String := (row.index name).asStr.getD ""

def storedRow (newId : String) (row : Json) : StorageRow :=
  ⟨newId,columnText row "address",columnText row "slot",columnText row "value"⟩

theorem storedRow_rowJson (account : String) (p : String × String) :
    storedRow newId (rowJson account p) = ⟨newId,account,p.1,p.2⟩ := by
  have hfield : ∀ name, (rowJson account p).index name =
      (lookup name [("address",.str account),("slot",.str p.1),("value",.str p.2)]).getD .null :=
    Json.index_ofPairs (by simp)
  have ha : (rowJson account p).index "address" = .str account :=
    (hfield "address").trans (by simp [lookup])
  have hs : (rowJson account p).index "slot" = .str p.1 := (hfield "slot").trans (by simp [lookup])
  have hv : (rowJson account p).index "value" = .str p.2 := (hfield "value").trans (by simp [lookup])
  rw [storedRow, columnText, columnText, columnText, ha, hs, hv]
  rfl

theorem Reads.row (h : Reads tables db snapshotId newId) {account : String} {row : Json}
    (hr : row ∈ accountRows db snapshotId account) :
    tables.storage (named newId row) = .ok (storedRow newId row) := by
  obtain ⟨p,hp,rfl⟩ := List.mem_map.mp hr
  have hmem : (⟨snapshotId,account,p.1,p.2⟩ : StorageRow) ∈ storageOf db snapshotId :=
    List.mem_filter.mpr ⟨mem_storedSlots.mp hp,decide_eq_true rfl⟩
  rw [storedRow_rowJson]
  exact h.storage _ hmem

theorem insertPage_runs (hr : Reads tables db snapshotId newId) {d : Disk} {page : ℕ × Json}
    {rows : List Json} (hrows : ∀ row ∈ rows, ∃ account, row ∈ accountRows db snapshotId account)
    (hopen : ∃ r, pageRows codec d page.1 page.2 = .ok r ∧
      r.rows platform.fromSlice = rows.map .ok) (t : CheckpointDb) :
    Runs (insertPage tables codec platform d newId page) t ()
      (storeStorage (rows.map (storedRow newId)) t) := by
  obtain ⟨r,hr',hread⟩ := hopen
  refine runs_check hr' ?_
  have hsent : (r.rows platform.fromSlice).map (Except.map (named newId)) =
      rows.map (fun row => .ok (named newId row)) := by
    rw [hread, List.map_map]
    rfl
  rw [hsent]
  refine runs_bind (insert_all storeStorage_appends (fun row hrow => ?_) t)
    (runs_next (runs_next (runs_pure () _)))
  obtain ⟨account,ha⟩ := hrows row hrow
  exact hr.row ha

theorem Shipped.stored (h : Shipped codec alloy platform db snapshotId directory e snapshot selected
    chunks) : chunks.zipIdx.flatMap (fun c => c.1.2.map (storedRow newId)) =
      movedRows db snapshotId newId selected := by
  have hfirst : chunks.zipIdx.flatMap (fun c => c.1.2.map (storedRow newId)) =
      chunks.flatMap (fun c => c.2.map (storedRow newId)) := by
    conv_rhs => rw [← List.zipIdx_map_fst 0 chunks, List.flatMap_map]
  rw [hfirst, ← List.map_flatMap, h.flat, List.map_flatMap, movedRows]
  refine List.flatMap_congr (fun a _ => ?_)
  rw [accountRows, List.map_map]
  exact List.map_congr_left (fun p _ => storedRow_rowJson a p)

theorem restoredAccount_exported {r : AccountRow} (hn : r.nonce < 2^64) :
    restoredAccount newId (exportedJson r) = .ok (named newId (accountJson r)) := by
  have hfield : (exportedJson r).index "nonce" = .str (toString r.nonce) :=
    (exportedJson_index r _).trans (by simp [accountFields, lookup])
  refine bind_ok.mpr ⟨(),exportedJson_valid r,bind_ok.mpr ⟨r.nonce,?_,?_⟩⟩
  · rw [hfield]
    exact exactNonce_toString hn
  · rw [exportedJson_metadata]
    rfl

theorem restored_unpublished (rows : List AccountRow) :
    Unpublished newId target (restoredDb target db snapshotId newId rows) := by
  refine ⟨rfl,fun r hid => mem_insertRows_other (fun q hq he => hid ?_),
    fun r hid => mem_insertRows_other (fun q hq he => hid ?_)⟩
  · rw [(Prod.mk.inj (toLex.injective he)).1]
    exact (mem_movedRows.mp hq).1
  · obtain ⟨a,-,rfl⟩ := List.mem_map.mp hq
    exact (Prod.mk.inj (toLex.injective he)).1

/-- Every page opens, and the rows of the accounts verify wherever they are
stored without others. -/
theorem Shipped.reverified (hb : ReadsBack platform.fromSlice)
    (h : Shipped codec alloy platform db snapshotId directory e snapshot selected chunks)
    (hc : ∀ b, codec.decompress (codec.compress b) = ⟨b,none⟩) {u : CheckpointDb}
    (hmoved : accountsOf u newId = (accountsOf db snapshotId).map (moved newId))
    (hslots : ∀ r ∈ accountsOf db snapshotId,
      storedSlots u newId r.address = storedSlots db snapshotId r.address)
    (hforeign : ∀ r ∈ storageOf u newId, r.address ∈ (accountsOf db snapshotId).map (·.address))
    {accounts pages : List Json} {s : Verifying}
    (ht : Traced codec alloy platform (disk e.files) e.layout selected accounts pages s) :
    verifyStored alloy platform u newId snapshot = .ok () ∧
      ∀ c ∈ chunks.zipIdx, ∃ r, pageRows codec (disk e.files) (pageOf codec c).1 (pageOf codec c).2 =
        .ok r ∧ r.rows platform.fromSlice = c.1.2.map .ok := by
  obtain ⟨hcanon,hlisted⟩ := coverage_ok h.coverage
  obtain ⟨rfl,haddresses,-⟩ := h.readAccounts hb ht.read
  have hpages : pages = pageItems codec chunks := by
    have hstored := ht.stored
    rw [h.layout, layoutJson_index] at hstored
    exact (Json.arr.inj (Eq.trans (by simp [lookup]) hstored)).symm
  have hrows := ht.rows
  rw [hpages, h.layout, layout_checkpoint] at hrows
  have hin : ∀ r ∈ accountsOf db snapshotId, r.address ∈ selected := fun r hr =>
    haddresses ▸ List.mem_map.mpr ⟨r,hr,rfl⟩
  have hname : ∀ r ∈ accountsOf db snapshotId, address r.address = .ok r.address := by
    intro r hr
    obtain ⟨b,hb,hrow⟩ := hcanon.address _ (hin r hr)
    rw [hrow]
    exact address_hex hb
  have hfits : ∀ r ∈ accountsOf db snapshotId, r.nonce < 2^64 := fun r hr => (h.fits r hr).1
  have hsorted : ((accountsOf db snapshotId).map (·.address)).Pairwise (· < ·) :=
    haddresses ▸ hcanon.sorted
  obtain ⟨hstored,htotal⟩ := verifyRows_moved hfits hname (fun r hr slots hs =>
    (hslots r hr).trans (h.read hb hc (hin r hr) hs).1.symm) hrows
  refine ⟨bind_ok.mpr ⟨(),ensure_ok.mpr ?_,bind_ok.mpr ⟨s,?_,ensure_ok.mpr ⟨?_,?_,?_⟩⟩⟩,fun c hc' => ?_⟩
  · rw [hmoved, hlisted, ← haddresses, List.map_map, List.map_map]
    rfl
  · rw [hmoved]
    exact hstored
  · rw [rows_counted hsorted.nodup hforeign, htotal, Nat.zero_add, List.map_map]
    refine congrArg List.sum (List.map_congr_left (fun r hr => ?_))
    rw [storedSlots_length]
    rfl
  · have := ht.total
    rwa [h.layout, layout_checkpoint] at this
  · have := ht.checksum
    rwa [h.layout, layout_checkpoint] at this
  · have hown : c.1.1 ∈ selected := h.owned c.1 (List.fst_mem_of_mem_zipIdx hc')
    obtain ⟨r,hr,ha⟩ := List.mem_map.mp (haddresses ▸ hown)
    obtain ⟨slots,hs⟩ := verifyRows_read hfits hname hrows r hr
    exact (h.read hb hc (hin r hr) hs).2 c hc' ha.symm

theorem layout_simple {d : ℕ} (h : Shipped codec alloy platform db snapshotId directory e snapshot
    selected chunks) (hs : Json.Simple (d+2) snapshot) : Json.Simple (d+3) e.layout := by
  have hslot : ∀ c ∈ chunks, ∀ row ∈ c.2, Json.Simple d (slotOf (some row)) := by
    intro c hc row hrow
    have hmem : row ∈ selected.flatMap (accountRows db snapshotId) :=
      h.flat ▸ List.mem_flatMap.mpr ⟨c,hc,hrow⟩
    obtain ⟨a,-,hrow⟩ := List.mem_flatMap.mp hmem
    obtain ⟨p,-,rfl⟩ := List.mem_map.mp hrow
    have hfield : (rowJson a p).index "slot" = .str p.1 :=
      (Json.index_ofPairs (by simp) _).trans (by simp [lookup])
    show Json.Simple d ((rowJson a p).index "slot")
    rw [hfield]
    exact Json.simple_str _ _
  have hends : ∀ c ∈ chunks, ∀ row : Option Json, (∀ r ∈ row, r ∈ c.2) → Json.Simple d (slotOf row) := by
    intro c hc row hr
    cases row with
    | none => exact Json.simple_null _
    | some row => exact hslot c hc row (hr row rfl)
  have hitem : ∀ c ∈ chunks.zipIdx, Json.Simple (d+1) (pageItem codec c.2 c.1.1 c.1.2) := by
    intro c hc
    have hmem : c.1 ∈ chunks := List.fst_mem_of_mem_zipIdx hc
    refine Json.simple_ofPairs (by simp only [List.map_cons, List.map_nil]; decide)
        (fun f hf => ?_)
    simp only [List.mem_cons, List.not_mem_nil, or_false] at hf
    rcases hf with rfl | rfl | rfl | rfl | rfl | rfl | rfl
    · exact Json.simple_str _ _
    · exact Json.simple_str _ _
    · exact Json.simple_ofNat _ _
    · exact Json.simple_ofNat _ _
    · exact Json.simple_str _ _
    · exact hends c.1 hmem _ (fun r hr => List.mem_of_mem_head? hr)
    · exact hends c.1 hmem _ (fun r hr => List.mem_of_getLast? hr)
  rw [h.layout]
  refine Json.simple_ofPairs (by simp only [List.map_cons, List.map_nil]; decide)
        (fun f hf => ?_)
  simp only [List.mem_cons, List.not_mem_nil, or_false] at hf
  rcases hf with rfl | rfl | rfl | rfl | rfl
  · exact Json.simple_str _ _
  · exact Json.simple_str _ _
  · exact hs
  · refine Json.simple_ofPairs (by simp only [List.map_cons, List.map_nil]; decide)
        (fun f hf => ?_)
    simp only [List.mem_cons, List.not_mem_nil, or_false] at hf
    rcases hf with rfl | rfl | rfl
    · exact Json.simple_str _ _
    · exact Json.simple_ofNat _ _
    · exact Json.simple_str _ _
  · refine Json.simple_arr (fun a ha => ?_)
    obtain ⟨c,hc,rfl⟩ := List.mem_map.mp ha
    exact hitem c hc

theorem publishedRow_ok {d : Disk} {layout report : Json} {expectedHash : Option String}
    (createdAt budgetBytes : ℕ)
    (h : verifyLayout codec alloy platform d layout expectedHash = .ok report) :
    ∃ row, publishedRow (restoredRecord platform layout newId createdAt budgetBytes) newId createdAt =
      .ok row := by
  obtain ⟨⟨_,encoded,-,-,hencodes,-⟩,-⟩ := verifyLayout_ok h
  have hheader : (restoredRecord platform layout newId createdAt budgetBytes).index "header" =
      (layout.index "checkpoint").index "header" := restored_field layout createdAt budgetBytes (by decide)
  obtain ⟨hash,hhash,-⟩ := hencodes.hash
  obtain ⟨fields,-,-,-,⟨n,hn,-⟩,-⟩ := hencodes.fields
  refine ⟨_,bind_ok.mpr ⟨n,?_,bind_ok.mpr ⟨hash,?_,rfl⟩⟩⟩
  · rw [hheader]
    refine context_ok.mpr ?_
    rw [Json.uint, hn]
  · rw [hheader]
    exact hhash

/-- What an import leaves of a checkpoint of another database. -/
structure Transferred (platform : Platform) (alloy : Alloy) (db : CheckpointDb) (snapshotId : String)
    (target : CheckpointDb) (newId : String) (t : CheckpointDb) (row : CheckpointRow) (record : Json) :
    Prop where
  publishes : Publishes platform alloy newId target t row record
  accounts : accountsOf t newId = (accountsOf db snapshotId).map (moved newId)
  slots : ∀ r ∈ accountsOf db snapshotId,
    storedSlots t newId r.address = storedSlots db snapshotId r.address
  complete : ∀ r ∈ storageOf t newId, ∃ a ∈ accountsOf db snapshotId, a.address = r.address
  manifest : ∃ snapshot, manifest platform.fromSlice db snapshotId = .ok snapshot ∧
    ∀ name ∉ ["snapshot_id","base_snapshot","sources","created_at","retained_budget_bytes",
      "imported_from"], record.index name = snapshot.index name

theorem Shipped.imports (h : Shipped codec alloy platform db snapshotId directory e snapshot selected
    chunks) (hr : Reads tables db snapshotId newId) {manifest : Except String Opened}
    {expectedHash : Option String} {createdAt budgetBytes : ℕ} {report : Json} {name : String}
    {row : CheckpointRow} (hread : readJson platform.fromSlice manifest = .ok e.layout)
    (hverified : verifyLayout codec alloy platform (disk e.files) e.layout expectedHash = .ok report)
    (hopen : ∀ c ∈ chunks.zipIdx, ∃ r, pageRows codec (disk e.files) (pageOf codec c).1
      (pageOf codec c).2 = .ok r ∧ r.rows platform.fromSlice = c.1.2.map .ok)
    (haddresses : (accountsOf db snapshotId).map (·.address) = selected)
    (hname : checkFile codec (disk e.files .checkAccounts) (e.layout.index "account_file") = .ok name)
    (haccounts : readJson platform.fromSlice (disk e.files .readAccounts name) =
      .ok (.arr ((accountsOf db snapshotId).map exportedJson)))
    (hsecond : verifyStored alloy platform
      (restoredDb target db snapshotId newId (accountsOf db snapshotId)) newId
      (e.layout.index "checkpoint") = .ok ())
    (hrow : publishedRow (restoredRecord platform e.layout newId createdAt budgetBytes) newId createdAt =
      .ok row) :
    Runs (importCheckpoint tables codec alloy platform manifest (disk e.files) (disk e.files)
        expectedHash newId createdAt budgetBytes) target
      (restoredRecord platform e.layout newId createdAt budgetBytes)
      { restoredDb target db snapshotId newId (accountsOf db snapshotId) with
        checkpoints := target.checkpoints.upsert row } := by
  have hpages : (e.layout.index "storage_pages").asArray = some (pageItems codec chunks) := by
    rw [h.layout, layoutJson_index]
    simp [lookup, Json.asArray]
  have hinsert : Runs (((pageItems codec chunks).zipIdx.map Prod.swap).forM
      (insertPage tables codec platform (disk e.files) newId)) target ()
      (storeStorage (movedRows db snapshotId newId selected) target) := by
    rw [pageItems, layout_pages, ← h.stored, ← store_each storeStorage_appends]
    refine runs_each (fun c hc t => insertPage_runs hr (fun row hrow => ?_) (hopen c hc) t) target
    have hmem : row ∈ selected.flatMap (accountRows db snapshotId) :=
      h.flat ▸ List.mem_flatMap.mpr ⟨c.1,List.fst_mem_of_mem_zipIdx hc,hrow⟩
    obtain ⟨a,-,ha⟩ := List.mem_flatMap.mp hmem
    exact ⟨a,ha⟩
  have hrows : ((accountsOf db snapshotId).map exportedJson).map (restoredAccount newId) =
      (accountsOf db snapshotId).map (fun r => .ok (named newId (accountJson r))) := by
    rw [List.map_map]
    exact List.map_congr_left (fun r hr' => restoredAccount_exported (h.fits r hr').1)
  have hlast : Runs (Importer.insert tables.accounts storeAccounts 1000 []
      (((accountsOf db snapshotId).map exportedJson).map (restoredAccount newId)))
      (storeStorage (movedRows db snapshotId newId selected) target) ()
      (restoredDb target db snapshotId newId (accountsOf db snapshotId)) := by
    rw [hrows, restoredDb, haddresses]
    exact insert_all storeAccounts_appends (fun r hr' =>
      hr.accounts r hr' (h.fits r hr').1 (h.fits r hr').2) _
  exact runs_check hread (runs_next (runs_check hverified (runs_next (runs_next
    (runs_check (context_ok.mpr hpages) (runs_bind hinsert (runs_check hname (runs_check haccounts
    (runs_check rfl (runs_bind hlast (runs_query hsecond (runs_next (runs_next (runs_check hrow
    (runs_perform (runs_next (runs_pure _ _)))))))))))))))))

/-- An export that returns is verified again from its files, and imported into
any database under an unused identifier it leaves the same accounts with the
same slots, whatever the sizes of its pages and batches. -/
theorem export_import (tables : Tables) (codec : Codec) (alloy : Alloy) (platform : Platform)
    (hb : ReadsBack platform.fromSlice) (hc : ∀ b, codec.decompress (codec.compress b) = ⟨b,none⟩)
    (directory snapshotId newId : String) (pageSize createdAt budgetBytes : ℕ)
    (db target : CheckpointDb) (e : Exported) (expectedHash : Option String)
    (he : exportCheckpoint codec alloy platform directory db snapshotId pageSize = .ok e)
    (hm : ∀ snapshot, manifest platform.fromSlice db snapshotId = .ok snapshot →
      Json.Simple 126 snapshot)
    (hsize : (metadataBytes e.layout).length ≤ maxJsonBytes)
    (hh : ∀ h ∈ expectedHash,
      string ((e.layout.index "checkpoint").index "header") "hash" = .ok h)
    (hu : Unused target newId) (hr : Reads tables db snapshotId newId) :
    (∃ report, verifyExport codec alloy platform (disk e.files) (opened e.files "manifest.json")
        expectedHash = .ok report ∧
      ∀ name ∉ ["directory","pages","bytes"], e.report.index name = report.index name) ∧
    ∃ row record t, Runs (importCheckpoint tables codec alloy platform
        (opened e.files "manifest.json") (disk e.files) (disk e.files) expectedHash newId createdAt
        budgetBytes) target record t ∧
      Transferred platform alloy db snapshotId target newId t row record := by
  obtain ⟨snapshot,selected,chunks,h⟩ := exportCheckpoint_ok he
  have hread : readJson platform.fromSlice (opened e.files "manifest.json") = .ok e.layout := by
    rw [opened_ok h.top]
    exact readJson_metadata hb (layout_simple h (hm snapshot h.ready)) hsize
  obtain ⟨report,hreport,hfields⟩ := h.verified
  have hverified := verifyLayout_expected hh hreport
  refine ⟨⟨report,bind_ok.mpr ⟨_,hread,hverified⟩,fun name hn => ?_⟩,?_⟩
  · simp only [List.mem_cons, List.not_mem_nil, or_false, not_or] at hn
    rw [hfields, index_set_ne hn.2.2, index_set_ne hn.2.1, index_set_ne hn.1]
  obtain ⟨selected',accounts,pages,s,ht⟩ := verifyLayout_traced hreport
  obtain rfl : selected = selected' := by
    have := ht.coverage
    rw [h.layout, layout_checkpoint] at this
    exact Except.ok.inj (h.coverage.symm.trans this)
  obtain ⟨rfl,haddresses,name,hname,haccounts⟩ := h.readAccounts hb ht.read
  have hsorted : ((accountsOf db snapshotId).map (·.address)).Pairwise (· < ·) :=
    haddresses ▸ (coverage_ok h.coverage).1.sorted
  have hmoved := @restored_accounts target db snapshotId newId _ hsorted hu
  have hslots : ∀ r ∈ accountsOf db snapshotId, storedSlots
      (restoredDb target db snapshotId newId (accountsOf db snapshotId)) newId r.address =
        storedSlots db snapshotId r.address := fun r hr =>
    restored_slots hsorted.nodup hu (List.mem_map.mpr ⟨r,hr,rfl⟩)
  obtain ⟨hsecond,hopen⟩ := h.reverified hb hc hmoved hslots (restored_foreign hsorted.nodup hu) ht
  obtain ⟨row,hrow⟩ := @publishedRow_ok codec alloy platform newId _ _ _ _ createdAt budgetBytes
    hverified
  have hcheckpoint : e.layout.index "checkpoint" = snapshot := by
    rw [h.layout, layout_checkpoint]
  have hunpublished := @restored_unpublished db target snapshotId newId (accountsOf db snapshotId)
  have himported : Imported codec alloy platform (opened e.files "manifest.json") (disk e.files)
      expectedHash newId createdAt budgetBytes
      (restoredDb target db snapshotId newId (accountsOf db snapshotId)) e.layout row :=
    ⟨hread,⟨report,hverified⟩,hcheckpoint ▸ hsecond,hrow⟩
  refine ⟨row,_,_,?_,imported_publishes hunpublished himported,?_,?_,?_,snapshot,h.ready,?_⟩
  · exact h.imports hr hread hverified hopen haddresses hname haccounts (hcheckpoint ▸ hsecond) hrow
  · exact hmoved
  · exact hslots
  · intro r hr'
    exact List.mem_map.mp (restored_foreign hsorted.nodup hu r hr')
  · intro name hn
    rw [restored_field e.layout createdAt budgetBytes hn, hcheckpoint]

end Import
end EvmState.Transfer
