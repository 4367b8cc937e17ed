import EvmState.Build

/-!
# The state checksum

The checksum of a checkpoint hashes, for each account in turn, its storage
rows and its metadata row; that of a compacted generation its fields and then
its storage rows. Nothing separates the pieces, and still the text says what
they are: a storage row has a fixed length and starts with a digit, a metadata
row starts with a brace and says itself where it ends.
-/

set_option autoImplicit false

namespace EvmState.Checksum
open EvmState.Hex EvmState.Fallible EvmState.OrderedMap EvmState.Store EvmState.Encoding
open EvmState.Params EvmState.Crash EvmState.Bootstrap EvmState.Proof EvmState.Text EvmState.Build

inductive Piece where
  | storage (account slot value : String)
  | metadata (value : Json)

def Piece.text : Piece → List Char
  | .storage account slot value => (account ++ slot ++ value).toList
  | .metadata value => value.compact

def Piece.Valid : Piece → Prop
  | .storage account slot value => (∃ b, fixed 20 account = .ok b) ∧ (∃ b, fixed 32 slot = .ok b) ∧
      ∃ b, fixed 32 value = .ok b
  | .metadata value => value.Regular ∧ ∃ fields, value = .obj fields

theorem word_shape {n : ℕ} {text : String} (h : ∃ b, fixed n text = .ok b) :
    text.toList.length = 2*n+2 ∧ ∃ l, text.toList = '0' :: l := by
  obtain ⟨b,hb⟩ := h
  obtain ⟨hu,hlen⟩ := fixed_ok.mp hb
  obtain ⟨raw,hraw,hd⟩ := unhex_text hu
  have := decodeChars_length hd
  rw [hraw]
  exact ⟨by simp only [List.length_cons]; omega,_,rfl⟩

theorem text_append {s s' : String} {l m : List Char} (hlen : s.toList.length = s'.toList.length)
    (h : s.toList ++ l = s'.toList ++ m) : s = s' ∧ l = m := by
  obtain ⟨hs,hl⟩ := List.append_inj h hlen
  exact ⟨String.toList_injective hs,hl⟩

theorem pieces_split : Splits Piece.text Piece.Valid := by
  intro a b l m ha hb h
  cases a with
  | storage account slot value =>
    obtain ⟨ha,hk,hv⟩ := ha
    cases b with
    | storage account' slot' value' =>
      obtain ⟨ha',hk',hv'⟩ := hb
      simp only [Piece.text, String.toList_append, List.append_assoc] at h
      obtain ⟨rfl,hslot⟩ := text_append ((word_shape ha).1.trans (word_shape ha').1.symm) h
      obtain ⟨rfl,hvalue⟩ := text_append ((word_shape hk).1.trans (word_shape hk').1.symm) hslot
      obtain ⟨rfl,hrest⟩ := text_append ((word_shape hv).1.trans (word_shape hv').1.symm) hvalue
      exact ⟨rfl,hrest⟩
    | metadata value' =>
      obtain ⟨-,fields,rfl⟩ := hb
      obtain ⟨l',hl'⟩ := (word_shape ha).2
      simp [Piece.text, Json.compact, hl'] at h
  | metadata value =>
    obtain ⟨hr,fields,rfl⟩ := ha
    cases b with
    | storage account' slot' value' =>
      obtain ⟨l',hl'⟩ := (word_shape hb.1).2
      simp [Piece.text, Json.compact, hl'] at h
    | metadata value' =>
      obtain ⟨hr',fields',rfl⟩ := hb
      obtain ⟨he,hl⟩ := Json.compact_append_injective hr hr' (fun _ h => by cases h)
        (fun _ h => by cases h) h
      exact ⟨congrArg Piece.metadata he,hl⟩

theorem piece_nonempty (a : Piece) (h : a.Valid) : a.text ≠ [] := by
  cases a with
  | storage account slot value =>
    obtain ⟨l,hl⟩ := (word_shape h.1).2
    simp [Piece.text, hl]
  | metadata value =>
    obtain ⟨-,fields,rfl⟩ := h
    simp [Piece.text, Json.compact]

theorem pieces_injective {l m : List Piece} (hl : ∀ a ∈ l, a.Valid) (hm : ∀ a ∈ m, a.Valid)
    (h : l.flatMap Piece.text = m.flatMap Piece.text) : l = m :=
  pieces_split.flatMap_injective piece_nonempty hl hm h

def storagePieces (account : String) (slots : List (String × String)) : List Piece :=
  slots.map (fun e => .storage account e.1 e.2)

def sectionPieces (account : String) (x : Section) : List Piece :=
  storagePieces account x.slots++[.metadata x.json]

theorem storagePieces_text (account : String) (slots : List (String × String)) :
    (String.join (slots.map (fun e => account ++ e.1 ++ e.2))).toList =
      (storagePieces account slots).flatMap Piece.text := by
  induction slots with
  | nil => rfl
  | cons e slots ih =>
    rw [List.map_cons, String.join_cons, String.toList_append, ih]
    rfl

theorem digested_text (accounts : List String) (xs : List Section) :
    (String.join ((accounts.zip xs).map (fun e => e.2.digested e.1))).toList =
      ((accounts.zip xs).flatMap (fun e => sectionPieces e.1 e.2)).flatMap Piece.text := by
  induction accounts.zip xs with
  | nil => rfl
  | cons e l ih =>
    rw [List.map_cons, String.join_cons, String.toList_append, ih, Section.digested,
      String.toList_append, storagePieces_text, List.flatMap_cons, List.flatMap_append,
      sectionPieces, List.flatMap_append]
    simp [Piece.text, Json.canonicalJson]

theorem section_field (x : Section) (name : String) : x.json.get? name =
    if name = "nonzero_slots" then some (.ofNat x.count)
    else if name = "code" then some (.str x.code) else x.proven.json.get? name := by
  show ((Json.obj _).set "nonzero_slots" (.ofNat x.count)).get? name = _
  rw [Json.get?_set]
  congr 1
  exact Json.get?_set _ _

theorem account_field (a : Account) (name : String) : a.json.get? name =
    lookup name [("address",.str a.address),("exists",.bool a.exists),("nonce",.ofNat a.nonce),
      ("balance",.str (toString a.balance)),("storage_root",.str (hex a.storageRoot)),
      ("code_hash",.str (hex a.codeHash))] := Json.get?_ofPairs (by simp) name

theorem section_json {x y : Section} (h : x.json = y.json) :
    x.proven = y.proven ∧ x.code = y.code ∧ x.count = y.count := by
  have hfield : ∀ name, x.json.get? name = y.json.get? name := fun name => by rw [h]
  simp only [section_field, account_field] at hfield
  have haddress : x.proven.address = y.proven.address := by simpa [lookup] using hfield "address"
  have hexists : x.proven.exists = y.proven.exists := by simpa [lookup] using hfield "exists"
  have hnonce : Json.ofNat x.proven.nonce = .ofNat y.proven.nonce := by
    simpa [lookup] using hfield "nonce"
  have hbalance : x.proven.balance = y.proven.balance := by simpa [lookup] using hfield "balance"
  have hroot : hex x.proven.storageRoot = hex y.proven.storageRoot := by
    simpa [lookup] using hfield "storage_root"
  have hhash : hex x.proven.codeHash = hex y.proven.codeHash := by
    simpa [lookup] using hfield "code_hash"
  have hcode : x.code = y.code := by simpa using hfield "code"
  have hcount : Json.ofNat x.count = .ofNat y.count := by simpa using hfield "nonzero_slots"
  obtain ⟨⟨_,_,_,_,_,_⟩,_,_,_⟩ := x
  obtain ⟨⟨_,_,_,_,_,_⟩,_,_,_⟩ := y
  simp only [Account.mk.injEq]
  exact ⟨⟨haddress,hexists,Json.ofNat_injective hnonce,hbalance,hex_injective hroot,
    hex_injective hhash⟩,hcode,Json.ofNat_injective hcount⟩

theorem section_regular (x : Section) : x.json.Regular ∧ ∃ fields, x.json = .obj fields := by
  refine ⟨Json.regular_set (Json.regular_set (Json.regular_ofPairs ?_) trivial)
    (Json.regular_ofNat _),_,rfl⟩
  intro e he
  simp only [List.mem_cons, List.not_mem_nil, or_false] at he
  rcases he with rfl | rfl | rfl | rfl | rfl | rfl
  · trivial
  · trivial
  · exact Json.regular_ofNat _
  · trivial
  · trivial
  · trivial

theorem shaped_pieces {account : String} {x : Section} (h : Shaped account x) :
    ∀ a ∈ sectionPieces account x, a.Valid := by
  intro a ha
  rcases List.mem_append.mp ha with ha | ha
  · obtain ⟨e,he,rfl⟩ := List.mem_map.mp ha
    exact ⟨h.account,h.slots e he⟩
  · obtain rfl := List.mem_singleton.mp ha
    exact section_regular x

theorem storagePieces_split {a b : String} {j i : Json} {p q : List Piece} :
    ∀ {l m : List (String × String)},
      storagePieces a l++.metadata j::p = storagePieces b m++.metadata i::q →
        storagePieces a l = storagePieces b m ∧ j = i ∧ p = q
  | [], [], h => by
    obtain ⟨hj,hp⟩ := List.cons.inj h
    exact ⟨rfl,Piece.metadata.inj hj,hp⟩
  | [], e::m, h => by cases (List.cons.inj h).1
  | e::l, [], h => by cases (List.cons.inj h).1
  | e::l, d::m, h => by
    obtain ⟨he,hrest⟩ := List.cons.inj h
    obtain ⟨hl,hj,hp⟩ := storagePieces_split hrest
    exact ⟨congrArg₂ List.cons he hl,hj,hp⟩

theorem storagePieces_injective (a : String) {l m : List (String × String)}
    (h : storagePieces a l = storagePieces a m) : l = m := by
  refine List.map_injective_iff.mpr (fun e d he => ?_) h
  obtain ⟨-,hslot,hvalue⟩ := Piece.storage.inj he
  exact Prod.ext hslot hvalue

theorem sections_injective {l m : List (String × Section)} (hl : ∀ e ∈ l, Shaped e.1 e.2)
    (hm : ∀ e ∈ m, Shaped e.1 e.2)
    (h : l.flatMap (fun e => sectionPieces e.1 e.2) = m.flatMap (fun e => sectionPieces e.1 e.2)) :
    l = m := by
  induction l generalizing m with
  | nil =>
    cases m with
    | nil => rfl
    | cons d m => simp [sectionPieces] at h
  | cons e l ih =>
    cases m with
    | nil => simp [sectionPieces] at h
    | cons d m =>
      simp only [List.flatMap_cons, sectionPieces, List.append_assoc, List.singleton_append] at h
      obtain ⟨hslots,hjson,hrest⟩ := storagePieces_split h
      obtain ⟨hproven,hcode,hcount⟩ := section_json hjson
      have haddress : e.1 = d.1 := by
        rw [(hl e (by simp)).address, (hm d (by simp)).address, hproven]
      rw [haddress] at hslots
      have hslots := storagePieces_injective _ hslots
      obtain ⟨a,⟨_,_,_,_⟩⟩ := e
      obtain ⟨b,⟨_,_,_,_⟩⟩ := d
      rw [ih (fun x hx => hl x (by simp [hx])) (fun x hx => hm x (by simp [hx])) hrest]
      simp_all

def ordered (rows : List BootstrapRow) : List BootstrapRow :=
  rows.insertionSort (fun a b => rowKey a ≤ rowKey b)

def rowText (r : BootstrapRow) : String := r.address ++ r.slot ++ r.value

def rowPiece (r : BootstrapRow) : Piece := .storage r.address r.slot r.value

/-- The text that the digest of a generation hashes. -/
def preimage (rows : List BootstrapRow) (fields : Fields) : String :=
  (fieldsJson fields).canonicalJson ++ String.join ((ordered rows).map rowText)

theorem digestRows_ok {accounts : List String} {rows : List BootstrapRow} {s t : Digesting}
    (h : rows.foldlM (digestRow accounts) s = .ok t) :
    t.text = s.text ++ String.join (rows.map rowText) ∧ ∀ r ∈ rows, r.address ∈ accounts ∧
      (∃ b, fixed 32 r.slot = .ok b) ∧ ∃ b, fixed 32 r.value = .ok b := by
  induction rows generalizing s with
  | nil =>
    obtain rfl := pure_ok.mp h
    simp
  | cons r rows ih =>
    obtain ⟨u,hu,hrest⟩ := bind_ok.mp h
    obtain ⟨_,hin,hu⟩ := bind_ok.mp hu
    obtain ⟨slot,hslot,hu⟩ := bind_ok.mp hu
    obtain ⟨value,hvalue,hu⟩ := bind_ok.mp hu
    obtain ⟨_,-,hu⟩ := bind_ok.mp hu
    obtain rfl := pure_ok.mp hu
    obtain ⟨htext,hrows⟩ := ih hrest
    refine ⟨?_,fun q hq => ?_⟩
    · rw [htext, List.map_cons, String.join_cons, rowText]
      simp [String.append_assoc]
    · rcases List.mem_cons.mp hq with rfl | hq
      · exact ⟨(ensure_ok.mp hin).1,⟨slot,hslot⟩,value,hvalue⟩
      · exact hrows q hq

theorem digest_ok {platform : Platform} {rows : List BootstrapRow} {generation : String}
    {fields : Fields} {accounts : List String} {m : Measured}
    (h : digest platform rows generation fields accounts = .ok m) :
    m.stateSha256 = platform.sha256 (preimage rows fields) ∧ ∀ r ∈ ordered rows,
      r.address ∈ accounts ∧ (∃ b, fixed 32 r.slot = .ok b) ∧ ∃ b, fixed 32 r.value = .ok b := by
  obtain ⟨_,-,h⟩ := bind_ok.mp h
  obtain ⟨_,-,h⟩ := bind_ok.mp h
  obtain ⟨t,ht,h⟩ := bind_ok.mp h
  obtain rfl := pure_ok.mp h
  obtain ⟨htext,hrows⟩ := digestRows_ok ht
  exact ⟨congrArg platform.sha256 htext,hrows⟩

theorem preimage_text (rows : List BootstrapRow) (fields : Fields) : (preimage rows fields).toList =
    (.metadata (fieldsJson fields)::(ordered rows).map rowPiece).flatMap Piece.text := by
  have hrows : ∀ l : List BootstrapRow, (String.join (l.map rowText)).toList =
      (l.map rowPiece).flatMap Piece.text := by
    intro l
    induction l with
    | nil => rfl
    | cons r l ih =>
      rw [List.map_cons, String.join_cons, String.toList_append, ih]
      rfl
  rw [preimage, String.toList_append, hrows, List.flatMap_cons]
  simp [Piece.text, Json.canonicalJson]

theorem fieldsJson_injective {fields fields' : Fields} (h : fieldsJson fields = fieldsJson fields') :
    fields = fields' := by
  have hentry : Function.Injective (fun e : String × SortedMap String Json => (e.1,Json.ofMap e.2)) := by
    intro e d he
    obtain ⟨hk,hm⟩ := Prod.mk.inj he
    obtain ⟨k,⟨l,hl⟩⟩ := e
    obtain ⟨j,⟨m,hm'⟩⟩ := d
    obtain rfl : l = m := Json.obj.inj hm
    obtain rfl : k = j := hk
    rfl
  cases fields
  cases fields'
  congr 1
  exact List.map_injective_iff.mpr hentry (Json.obj.inj h)

def Piece.entry : Piece → BlockProjection.SlotKey × String
  | .storage account slot value => (toLex (account,slot),value)
  | .metadata _ => (toLex ("",""),"")

theorem rowPiece_entries {l m : List BootstrapRow} (h : l.map rowPiece = m.map rowPiece) :
    l.map Compaction.rowEntry = m.map Compaction.rowEntry := by
  have hentry := congrArg (List.map Piece.entry) h
  rw [List.map_map, List.map_map] at hentry
  exact hentry

/-- Equal preimages are those of equal fields and equal rows. -/
theorem preimage_injective {rows rows' : List BootstrapRow} {fields fields' : Fields}
    (hrows : ∀ r ∈ ordered rows, (rowPiece r).Valid) (hrows' : ∀ r ∈ ordered rows', (rowPiece r).Valid)
    (hfields : (fieldsJson fields).Regular) (hfields' : (fieldsJson fields').Regular)
    (h : preimage rows fields = preimage rows' fields') : fields = fields' ∧
      (ordered rows).map Compaction.rowEntry = (ordered rows').map Compaction.rowEntry := by
  have hvalid : ∀ {fields : Fields} {l : List BootstrapRow}, (fieldsJson fields).Regular →
      (∀ r ∈ l, (rowPiece r).Valid) →
      ∀ a ∈ Piece.metadata (fieldsJson fields)::l.map rowPiece, a.Valid := by
    intro fields l hf hl a ha
    rcases List.mem_cons.mp ha with rfl | ha
    · exact ⟨hf,_,rfl⟩
    · obtain ⟨r,hr,rfl⟩ := List.mem_map.mp ha
      exact hl r hr
  have htext := congrArg String.toList h
  rw [preimage_text, preimage_text] at htext
  have hpieces := pieces_injective (hvalid hfields hrows) (hvalid hfields' hrows') htext
  obtain ⟨hjson,hentries⟩ := List.cons.inj hpieces
  exact ⟨fieldsJson_injective (Piece.metadata.inj hjson),rowPiece_entries hentries⟩

/-- Two published checkpoints with the same accounts, metadata rows and
storage rows, under snapshots of their own. -/
structure SameState (snapshotId snapshotId' : String) (out out' : Published)
    (db db' : CheckpointDb) : Prop where
  accounts : ∃ accounts : List String, out.record.index "accounts" = .arr (accounts.map .str) ∧
    out'.record.index "accounts" = .arr (accounts.map .str) ∧
    ∀ r : AccountRow, r.address ∈ accounts →
      ({ r with snapshotId := snapshotId } ∈ db.accounts.rows ↔
        { r with snapshotId := snapshotId' } ∈ db'.accounts.rows)
  storage : ∀ r : StorageRow, { r with snapshotId := snapshotId } ∈ db.storage.rows ↔
    { r with snapshotId := snapshotId' } ∈ db'.storage.rows

theorem record_accounts {platform : Platform} {describe : Source → Json} {bundle : Json}
    {baseId : Option String} {snapshotId : String} {createdAt budgetBytes : ℕ} (x : Trace) :
    (x.record platform describe bundle baseId snapshotId createdAt budgetBytes).index "accounts" =
      .arr (x.accounts.map .str) := by
  rw [Trace.record, Build.recordOf, Json.index_ofPairs (by simp)]
  simp [lookup]

theorem record_checksum {platform : Platform} {describe : Source → Json} {bundle : Json}
    {baseId : Option String} {snapshotId : String} {createdAt budgetBytes : ℕ} (x : Trace) :
    (x.record platform describe bundle baseId snapshotId createdAt budgetBytes).index "state_sha256" =
      .str (platform.sha256 (x.building snapshotId).digested) := by
  rw [Trace.record, Build.recordOf, Json.index_ofPairs (by simp)]
  simp [lookup]

theorem row_snapshot {r : AccountRow} {x : Section} {snapshotId snapshotId' : String} :
    { r with snapshotId := snapshotId } = x.row snapshotId ↔
      { r with snapshotId := snapshotId' } = x.row snapshotId' := by
  simp [Section.row]

section Published
variable {platform platform' : Platform} {alloy alloy' : Alloy}
  {worlds worlds' : String → SourceWorld} {describe describe' : Source → Json}
  {bundle bundle' : Json} {sources sources' : List Source} {baseId baseId' : Option String}
  {snapshotId snapshotId' : String} {createdAt createdAt' budgetBytes budgetBytes' : ℕ}
  {h t h' t' : Host CheckpointDb} {out out' : Published}

theorem published_checksum
    (hrun : buildUnlocked platform alloy worlds describe bundle sources baseId snapshotId createdAt
      budgetBytes h = .ok out t) :
    out.record.index "state_sha256" = .str (platform.sha256 out.digested) := by
  obtain ⟨x,-,rfl⟩ := (buildUnlocked_triple h.state).ok rfl hrun
  exact record_checksum x

theorem published_same
    (hrun : buildUnlocked platform alloy worlds describe bundle sources baseId snapshotId createdAt
      budgetBytes h = .ok out t)
    (hrun' : buildUnlocked platform' alloy' worlds' describe' bundle' sources' baseId' snapshotId'
      createdAt' budgetBytes' h' = .ok out' t')
    (hdigest : out.digested = out'.digested) :
    SameState snapshotId snapshotId' out out' t.state t'.state := by
  obtain ⟨x,⟨hx,ht⟩,rfl⟩ := (buildUnlocked_triple h.state).ok rfl hrun
  obtain ⟨y,⟨hy,ht'⟩,rfl⟩ := (buildUnlocked_triple h'.state).ok rfl hrun'
  obtain ⟨hlen,hshaped⟩ := List.forall₂_iff_zip.mp (completed_shaped hx)
  obtain ⟨hlen',hshaped'⟩ := List.forall₂_iff_zip.mp (completed_shaped hy)
  have htext := congrArg String.toList hdigest
  simp only [Trace.building, addAll_digested, String.empty_append] at htext
  rw [digested_text, digested_text] at htext
  have hvalid : ∀ {l : List (String × Section)}, (∀ e ∈ l, Shaped e.1 e.2) →
      ∀ a ∈ l.flatMap (fun e => sectionPieces e.1 e.2), a.Valid := by
    intro l hl a ha
    obtain ⟨e,he,ha⟩ := List.mem_flatMap.mp ha
    exact shaped_pieces (hl e he) a ha
  have hpieces := pieces_injective (hvalid (fun _ he => hshaped he)) (hvalid (fun _ he => hshaped' he))
    htext
  have hsections := sections_injective (fun _ he => hshaped he) (fun _ he => hshaped' he) hpieces
  have haccounts : x.accounts = y.accounts := by
    rw [← @List.map_fst_zip _ _ x.accounts x.sections hlen.le, hsections,
      @List.map_fst_zip _ _ y.accounts y.sections hlen'.le]
  refine ⟨⟨x.accounts,record_accounts x,haccounts ▸ record_accounts y,fun r hr => ?_⟩,fun r => ?_⟩
  · rw [ht, ht', Trace.after, Trace.after, completed_rows hx r hr,
      completed_rows hy r (haccounts ▸ hr), hsections]
    exact exists_congr (fun e => and_congr_right (fun _ => row_snapshot))
  · rw [ht, ht', Trace.after, Trace.after, completed_storage hx, completed_storage hy, hsections]

end Published

/-- The texts that the checksums hash determine what they cover. What a
generation's digest covers is its fields and its rows; the list of accounts
that it checks them against is no part of its text. -/
theorem checksum_determines :
    (∀ (platform platform' : Platform) (alloy alloy' : Alloy) (worlds worlds' : String → SourceWorld)
      (describe describe' : Source → Json) (bundle bundle' : Json) (sources sources' : List Source)
      (baseId baseId' : Option String) (snapshotId snapshotId' : String)
      (createdAt createdAt' budgetBytes budgetBytes' : ℕ) (h t h' t' : Host CheckpointDb)
      (out out' : Published),
      buildUnlocked platform alloy worlds describe bundle sources baseId snapshotId createdAt
        budgetBytes h = .ok out t →
      buildUnlocked platform' alloy' worlds' describe' bundle' sources' baseId' snapshotId' createdAt'
        budgetBytes' h' = .ok out' t' →
      out.record.index "state_sha256" = .str (platform.sha256 out.digested) ∧
      out'.record.index "state_sha256" = .str (platform'.sha256 out'.digested) ∧
      (out.digested = out'.digested →
        SameState snapshotId snapshotId' out out' t.state t'.state)) ∧
    ∀ (platform platform' : Platform) (rows rows' : List BootstrapRow)
      (generation generation' : String) (fields fields' : Fields) (accounts accounts' : List String)
      (m m' : Measured),
      digest platform rows generation fields accounts = .ok m →
      digest platform' rows' generation' fields' accounts' = .ok m' →
      (∀ a ∈ accounts++accounts', ∃ b, fixed 20 a = .ok b) →
      (fieldsJson fields).Regular → (fieldsJson fields').Regular →
      m.stateSha256 = platform.sha256 (preimage rows fields) ∧
      m'.stateSha256 = platform'.sha256 (preimage rows' fields') ∧
      (preimage rows fields = preimage rows' fields' → fields = fields' ∧
        (ordered rows).map Compaction.rowEntry = (ordered rows').map Compaction.rowEntry) := by
  refine ⟨fun _ _ _ _ _ _ _ _ _ _ _ _ _ _ _ _ _ _ _ _ _ _ _ _ _ _ hrun hrun' =>
    ⟨published_checksum hrun,published_checksum hrun',published_same hrun hrun'⟩,?_⟩
  intro platform platform' rows rows' generation generation' fields fields' accounts accounts' m m'
    hm hm' hwords hfields hfields'
  obtain ⟨hsum,hrows⟩ := digest_ok hm
  obtain ⟨hsum',hrows'⟩ := digest_ok hm'
  refine ⟨hsum,hsum',fun htext => ?_⟩
  refine preimage_injective (fun r hr => ?_) (fun r hr => ?_) hfields hfields' htext
  · obtain ⟨ha,hslot,hvalue⟩ := hrows r hr
    exact ⟨hwords _ (List.mem_append_left _ ha),hslot,hvalue⟩
  · obtain ⟨ha,hslot,hvalue⟩ := hrows' r hr
    exact ⟨hwords _ (List.mem_append_right _ ha),hslot,hvalue⟩

/-- Two replays over different accounts, of which none has any state yet, have
one digest. -/
theorem digest_hides_accounts : ¬∀ (platform : Platform) (rows : List BootstrapRow)
    (generation : String) (fields : Fields) (accounts accounts' : List String) (m m' : Measured),
    digest platform rows generation fields accounts = .ok m →
    digest platform rows generation fields accounts' = .ok m' → accounts = accounts' := by
  intro h
  have hrun : ∀ account, digest samplePlatform [] "00000000000000000000000000000000" .empty [account] =
      .ok ⟨"\x7b\x7d",0⟩ := fun _ => rfl
  have := h samplePlatform [] "00000000000000000000000000000000" .empty [sampleAddress]
    [hex (List.replicate 20 0x22)] _ _ (hrun _) (hrun _)
  revert this
  decide +kernel

/-- The sample, built twice. -/
theorem checksum_determines_sample : ∃ out t out' t',
    Runs (buildUnlocked samplePlatform Rpc.sampleChain (fun _ => sampleWorld) (fun _ => .null)
      sampleBundle [sampleSource] none "new" 1 1) .empty out t ∧
    Runs (buildUnlocked samplePlatform Rpc.sampleChain (fun _ => sampleWorld) (fun _ => .null)
      sampleBundle [sampleSource] none "new" 2 3) .empty out' t' ∧
    SameState "new" "new" out out' t t' := by
  have hslots : (sampleTrace.building "new").totalSlots < 2^64 := by decide +kernel
  refine ⟨_,_,_,_,buildUnlocked_runs sample_completed hslots,buildUnlocked_runs sample_completed hslots,
    ?_⟩
  exact (checksum_determines.1 _ _ _ _ _ _ _ _ _ _ _ _ _ _ _ _ _ _ _ _ _ _ _ _ _ _
    (buildUnlocked_runs sample_completed hslots) (buildUnlocked_runs sample_completed hslots)).2.2 rfl

end EvmState.Checksum
