import EvmState.Importer

/-!
# Writing a portable checkpoint

An export writes the account rows, then the storage rows of each account in
pages, verifies the files that it wrote and writes their manifest last. A page
is read back row by row as it was written.
-/

set_option autoImplicit false

namespace EvmState.Export
open EvmState.Hex EvmState.Fallible EvmState.OrderedMap EvmState.Store EvmState.Encoding
open EvmState.Params EvmState.Bootstrap EvmState.Proof EvmState.Build EvmState.Text EvmState.Lines
open EvmState.TextLines EvmState.PrettyJson EvmState.Reader EvmState.Publication
open EvmState.Portable EvmState.Importer

abbrev Files := SortedMap String Bytes

def opened (files : Files) (name : String) : Except String Opened := do
  let bytes ← context (files.get? name) "No such file or directory"
  return ⟨bytes.length,bytes⟩

/-- Every opening finds the files as they are. -/
def disk (files : Files) : Disk := fun _ => opened files

def createNew (files : Files) (name : String) (bytes : Bytes) : Except String Files := do
  ensure (files.get? name = none) "File exists"
  return files.insert name bytes

def metadataBytes (value : Json) : Bytes := utf8 (metadataText value)

/-- An account row with its nonce as text. -/
def exportedAccount (r : AccountRow) : Except String Json := do
  let metadata := accountJson r
  let nonce ← uint (metadata.index "nonce")
  let metadata := metadata.set "nonce" (.str (toString nonce))
  let slots ← uint (metadata.index "nonzero_slots")
  return metadata.set "nonzero_slots" (.ofNat slots)

def rowJson (account : String) (e : String × String) : Json :=
  .ofPairs [("address",.str account),("slot",.str e.1),("value",.str e.2)]

structure Exporting where
  files : Files
  pages : List Json

structure Exported where
  files : Files
  layout : Json
  report : Json

section Write
variable (codec : Codec)

def pageBytes (rows : List Json) : Bytes := codec.compress (lines (rows.map Json.canonicalJson))

def slotOf (row : Option Json) : Json := (row.map (·.index "slot")).getD .null

def pageItem (index : ℕ) (account : String) (rows : List Json) : Json :=
  .ofPairs [("file",.str (pageName index)),("address",.str account),("rows",.ofNat rows.length),
    ("bytes",.ofNat (pageBytes codec rows).length),("sha256",.str (codec.sha256 (pageBytes codec rows))),
    ("first_slot",slotOf rows.head?),("last_slot",slotOf rows.getLast?)]

def writePage (s : Exporting) (account : String) (rows : List Json) : Except String Exporting := do
  ensure (s.pages.length < 1000000 ∧ rows ≠ []) "invalid export page index or empty page"
  let files ← createNew s.files (pageName s.pages.length) (pageBytes codec rows)
  return ⟨files,s.pages++[pageItem codec s.pages.length account rows]⟩

/-- The rows of an account, a page as soon as one is full. -/
def writePages (pageSize : ℕ) (account : String) :
    Exporting → List Json → List Json → Except String Exporting
  | s, pending, [] => if pending = [] then return s else writePage codec s account pending
  | s, pending, row::rows =>
    if (pending++[row]).length = pageSize then do
      let s ← writePage codec s account (pending++[row])
      writePages pageSize account s [] rows
    else writePages pageSize account s (pending++[row]) rows

def exportAccount (db : CheckpointDb) (snapshotId : String) (pageSize : ℕ) (s : Exporting)
    (account : Json) : Except String Exporting := do
  let account ← context account.asStr "invalid checkpoint account"
  writePages codec pageSize account s [] ((storedSlots db snapshotId account).map (rowJson account))

def layoutJson (snapshot : Json) (accounts : Bytes) (pages : List Json) : Json :=
  .ofPairs [("format",.str format),("status",.str "ready"),("checkpoint",snapshot),
    ("account_file",.ofPairs [("file",.str "accounts.json"),("bytes",.ofNat accounts.length),
      ("sha256",.str (codec.sha256 accounts))]),
    ("storage_pages",.arr pages)]

variable (alloy : Alloy) (platform : Platform)

def exportCheckpoint (directory : String) (db : CheckpointDb) (snapshotId : String) (pageSize : ℕ) :
    Except String Exported := do
  ensure (1 ≤ pageSize ∧ pageSize ≤ 10000) "export page_size must be between 1 and 10000"
  let snapshot ← manifest platform.fromSlice db snapshotId
  let _ ← (string (snapshot.index "proof_bundle") "header_rlp").mapError
    (fun _ => "portable exports require the encoded block header")
  let accounts ← (accountsOf db snapshotId).mapM exportedAccount
  let text := metadataBytes (.arr accounts)
  let files ← createNew .empty "accounts.json" text
  let listed ← context (snapshot.index "accounts").asArray "invalid checkpoint accounts"
  let s ← listed.foldlM (exportAccount codec db snapshotId pageSize) ⟨files,[]⟩
  let layout := layoutJson codec snapshot text s.pages
  let report ← verifyLayout codec alloy platform (disk s.files) layout none
  let files ← createNew s.files "manifest.json" (metadataBytes layout)
  let total := (files.values.map List.length).sum
  ensure (total < 2^64) "export byte count overflow"
  return ⟨files,layout,((report.set "directory" (.str directory)).set "pages"
    (.ofNat s.pages.length)).set "bytes" (.ofNat total)⟩

def verifyExport (disk : Disk) (manifest : Except String Opened) (expectedHash : Option String) :
    Except String Json := do
  let layout ← readJson platform.fromSlice manifest
  verifyLayout codec alloy platform disk layout expectedHash

end Write

theorem lines_length (texts : List String) : texts.length ≤ (lines texts).length := by
  induction texts with
  | nil => exact Nat.zero_le _
  | cons t ts ih =>
    rw [lines_cons, List.length_append, List.length_cons, List.length_cons]
    omega

section Lines
variable {fromSlice : Bytes → Option Json}

theorem fromSlice_line (hb : ReadsBack fromSlice) {row : Json} (h : Json.Simple 127 row) :
    fromSlice (utf8 row.canonicalJson ++ [newline]) = some row := by
  rw [← utf8_newline, ← utf8_append]
  exact hb.line h

theorem canonical_line {row : Json} (h : Json.Stored row) : '\n' ∉ row.canonicalJson.toList := by
  rw [Json.canonicalJson, String.toList_ofList]
  exact Json.compact_line row h.regular

theorem readNext_none {r : PageRows} (hf : r.reader.fault = none)
    (h : r.readNext fromSlice = .ok none) :
    r.reader.items = [] := by
  obtain ⟨⟨bytes,reader⟩,hline,h⟩ := bind_ok.mp h
  dsimp only at h
  split_ifs at h with hb
  · have hup : (upTo newline 1025 r.reader.items).1 = [] := by
      rw [readUntil, hf] at hline
      rw [(Prod.mk.inj (Except.ok.inj hline)).1, hb]
    exact upTo_nil (by norm_num) hup
  · obtain ⟨_,-,h⟩ := bind_ok.mp h
    obtain ⟨_,-,h⟩ := bind_ok.mp h
    obtain ⟨_,-,h⟩ := bind_ok.mp h
    obtain ⟨_,-,h⟩ := bind_ok.mp h
    obtain ⟨_,-,h⟩ := bind_ok.mp h
    obtain ⟨_,-,h⟩ := bind_ok.mp h
    obtain ⟨_,-,h⟩ := bind_ok.mp h
    obtain ⟨_,-,h⟩ := bind_ok.mp h
    obtain ⟨_,-,h⟩ := bind_ok.mp h
    cases pure_ok.mp h

theorem collect_lines (hb : ReadsBack fromSlice) {n : ℕ} {r : PageRows} {rows : List Json}
    (hs : ∀ row ∈ rows, Json.Simple 127 row)
    (hr : r.reader = ⟨lines (rows.map Json.canonicalJson),none⟩) (hn : rows.length < n) :
    (∃ e, .error e ∈ r.collect fromSlice n) ∨ r.collect fromSlice n = rows.map .ok := by
  induction rows generalizing r n with
  | nil =>
    obtain ⟨n,rfl⟩ := Nat.exists_eq_succ_of_ne_zero (Nat.ne_of_gt hn)
    unfold PageRows.collect
    cases hnext : r.readNext fromSlice with
    | error e => exact .inl ⟨e,by simp⟩
    | ok next =>
      cases next with
      | none => exact .inr rfl
      | some next =>
        obtain ⟨bytes,_,_,hrow⟩ := readNext_some.mp hnext
        have hend := hrow.line
        rw [hr] at hend
        obtain ⟨rfl,-⟩ := Prod.mk.inj (Except.ok.inj (hend.symm.trans readUntil_end))
        exact absurd rfl hrow.whole.1
  | cons row rows ih =>
    obtain ⟨n,rfl⟩ := Nat.exists_eq_succ_of_ne_zero (Nat.ne_of_gt (Nat.zero_lt_of_lt hn))
    obtain ⟨hrow,hrows⟩ := List.forall_mem_cons.mp hs
    unfold PageRows.collect
    cases hnext : r.readNext fromSlice with
    | error e => exact .inl ⟨e,by simp⟩
    | ok next =>
      cases next with
      | none =>
        have hitems := readNext_none (by rw [hr]) hnext
        rw [hr, List.map_cons, lines_cons] at hitems
        simp at hitems
      | some next =>
        obtain ⟨row',r'⟩ := next
        obtain ⟨bytes,_,_,hread⟩ := readNext_some.mp hnext
        have hline := hread.line
        rw [hr, List.map_cons] at hline
        have hfits : (utf8 row.canonicalJson).length < 1025 := by
          by_contra hlong
          exact readUntil_long (canonical_line hrow.stored) (not_lt.mp hlong) hline hread.whole.2.2
        rw [readUntil_text (canonical_line hrow.stored) hfits] at hline
        obtain ⟨rfl,hrest⟩ := Prod.mk.inj (Except.ok.inj hline)
        obtain rfl := Option.some.inj ((fromSlice_line hb hrow).symm.trans hread.parsed)
        rcases ih hrows hrest.symm (Nat.lt_of_succ_lt_succ hn) with ⟨e,he⟩ | he
        · exact .inl ⟨e,List.mem_cons_of_mem _ he⟩
        · exact .inr (congrArg (Except.ok row :: ·) he)

end Lines

abbrev Chunk := String × List Json

section Written
variable {codec : Codec} {accounts : Bytes}

/-- The pages that were written, in order. -/
structure Holds (codec : Codec) (accounts : Bytes) (s : Exporting) (chunks : List Chunk) : Prop where
  pages : s.pages = chunks.zipIdx.map (fun e => pageItem codec e.2 e.1.1 e.1.2)
  files : ∀ e ∈ chunks.zipIdx, s.files.get? (pageName e.2) = some (pageBytes codec e.1.2)
  accounts : s.files.get? "accounts.json" = some accounts

theorem createNew_ok {files files' : Files} {name : String} {bytes : Bytes}
    (h : createNew files name bytes = .ok files') :
    files.get? name = none ∧ files' = files.insert name bytes := by
  obtain ⟨_,hnew,h⟩ := bind_ok.mp h
  exact ⟨ensure_ok.mp hnew,(pure_ok.mp h).symm⟩

theorem createNew_kept {files files' : Files} {name other : String} {bytes found : Bytes}
    (h : createNew files name bytes = .ok files') (hf : files.get? other = some found) :
    files'.get? other = some found := by
  obtain ⟨hnew,rfl⟩ := createNew_ok h
  have hne : other ≠ name := by
    rintro rfl
    rw [hnew] at hf
    cases hf
  rw [SortedMap.get?_insert, if_neg hne, hf]

theorem writePage_holds {s s' : Exporting} {chunks : List Chunk} {account : String} {rows : List Json}
    (hs : Holds codec accounts s chunks) (h : writePage codec s account rows = .ok s') :
    Holds codec accounts s' (chunks++[(account,rows)]) := by
  obtain ⟨_,-,h⟩ := bind_ok.mp h
  obtain ⟨files,hfiles,h⟩ := bind_ok.mp h
  obtain rfl := pure_ok.mp h
  have hlen : s.pages.length = chunks.length := by
    rw [hs.pages, List.length_map, List.length_zipIdx]
  have hzip : (chunks++[(account,rows)]).zipIdx = chunks.zipIdx++[((account,rows),chunks.length)] := by
    rw [List.zipIdx_append, List.zipIdx_singleton, Nat.zero_add]
  refine ⟨?_,fun e he => ?_,createNew_kept hfiles hs.accounts⟩
  · rw [hzip, List.map_append, ← hs.pages, hlen]
    rfl
  · rw [hzip] at he
    rcases List.mem_append.mp he with he | he
    · exact createNew_kept hfiles (hs.files e he)
    · obtain rfl := List.mem_singleton.mp he
      obtain ⟨-,rfl⟩ := createNew_ok hfiles
      rw [← hlen, SortedMap.get?_insert, if_pos rfl]

theorem writePages_holds {pageSize : ℕ} {account : String} {s s' : Exporting} {chunks : List Chunk}
    {pending rows : List Json} (hs : Holds codec accounts s chunks)
    (h : writePages codec pageSize account s pending rows = .ok s') :
    ∃ more : List Chunk, Holds codec accounts s' (chunks++more) ∧ (∀ c ∈ more, c.1 = account) ∧
      more.flatMap Prod.snd = pending++rows := by
  induction rows generalizing s chunks pending with
  | nil =>
    unfold writePages at h
    split_ifs at h with hp
    · obtain rfl := pure_ok.mp h
      exact ⟨[],by rwa [List.append_nil],by simp,by simp [hp]⟩
    · exact ⟨[(account,pending)],writePage_holds hs h,by simp,by simp⟩
  | cons row rows ih =>
    unfold writePages at h
    split_ifs at h with hp
    · obtain ⟨s1,hone,h⟩ := bind_ok.mp h
      obtain ⟨more,hmore,hall,hflat⟩ := ih (writePage_holds hs hone) h
      refine ⟨(account,pending++[row])::more,?_,List.forall_mem_cons.mpr ⟨rfl,hall⟩,?_⟩
      · rwa [List.append_assoc, List.singleton_append] at hmore
      · rw [List.flatMap_cons, hflat, List.nil_append, List.append_assoc, List.singleton_append]
    · obtain ⟨more,hmore,hall,hflat⟩ := ih hs h
      exact ⟨more,hmore,hall,by rw [hflat, List.append_assoc, List.singleton_append]⟩

def accountRows (db : CheckpointDb) (snapshotId account : String) : List Json :=
  (storedSlots db snapshotId account).map (rowJson account)

theorem exportAccounts_holds {db : CheckpointDb} {snapshotId : String} {pageSize : ℕ}
    {listed : List String} {s s' : Exporting} {chunks : List Chunk} (hs : Holds codec accounts s chunks)
    (h : (listed.map Json.str).foldlM (exportAccount codec db snapshotId pageSize) s = .ok s') :
    ∃ more : List Chunk, Holds codec accounts s' (chunks++more) ∧ (∀ c ∈ more, c.1 ∈ listed) ∧
      more.flatMap Prod.snd = listed.flatMap (accountRows db snapshotId) ∧
      ∀ account, (more.filter (fun c => c.1 = account)).flatMap Prod.snd =
        (listed.filter (· = account)).flatMap (accountRows db snapshotId) := by
  induction listed generalizing s chunks with
  | nil =>
    obtain rfl := pure_ok.mp h
    exact ⟨[],by rwa [List.append_nil],by simp,rfl,fun _ => rfl⟩
  | cons a listed ih =>
    rw [List.map_cons, List.foldlM_cons] at h
    obtain ⟨s1,hone,h⟩ := bind_ok.mp h
    obtain ⟨account,haccount,hone⟩ := bind_ok.mp hone
    obtain rfl : a = account := Option.some.inj (context_ok.mp haccount)
    obtain ⟨first,hfirst,hall,hflat⟩ := writePages_holds hs hone
    obtain ⟨more,hmore,hin,hrows,hown⟩ := ih hfirst h
    refine ⟨first++more,by rwa [← List.append_assoc],fun c hc => ?_,?_,fun account => ?_⟩
    · rcases List.mem_append.mp hc with hc | hc
      · exact hall c hc ▸ List.mem_cons_self
      · exact List.mem_cons_of_mem _ (hin c hc)
    · rw [List.flatMap_append, hflat, hrows, List.nil_append, List.flatMap_cons]
      rfl
    · rw [List.filter_append, List.flatMap_append, hown, List.filter_cons]
      by_cases ha : a = account
      · rw [List.filter_eq_self.mpr (fun c hc => decide_eq_true ((hall c hc).trans ha)), hflat,
          if_pos (decide_eq_true ha), List.flatMap_cons, List.nil_append]
        rfl
      · rw [List.filter_eq_nil_iff.mpr (fun c hc => by simp [hall c hc, ha]), if_neg (by simp [ha])]
        rfl

end Written

section Read
variable {codec : Codec} {files : Files} {fromSlice : Bytes → Option Json}

def pageOf (codec : Codec) (e : Chunk × ℕ) : ℕ × Json := (e.2,pageItem codec e.2 e.1.1 e.1.2)

theorem pageItem_index (index : ℕ) (account : String) (rows : List Json) (name : String) :
    (pageItem codec index account rows).index name =
      (lookup name [("file",.str (pageName index)),("address",.str account),
        ("rows",Json.ofNat rows.length),("bytes",.ofNat (pageBytes codec rows).length),
        ("sha256",.str (codec.sha256 (pageBytes codec rows))),("first_slot",slotOf rows.head?),
        ("last_slot",slotOf rows.getLast?)]).getD .null := Json.index_ofPairs (by simp) name

theorem layout_pages (chunks : List Chunk) :
    ((chunks.zipIdx.map (fun e => pageItem codec e.2 e.1.1 e.1.2)).zipIdx.map Prod.swap) =
      chunks.zipIdx.map (pageOf codec) := by
  refine List.ext_getElem (by simp) (fun i h1 h2 => ?_)
  simp [pageOf]

theorem checkFile_name {opened : String → Except String Opened} {item : Json} {name text : String}
    (h : checkFile codec opened item = .ok name) (hf : item.index "file" = .str text) : name = text := by
  obtain ⟨name',hname,h⟩ := bind_ok.mp h
  obtain ⟨_,-,h⟩ := bind_ok.mp h
  obtain ⟨_,-,h⟩ := bind_ok.mp h
  obtain ⟨_,-,h⟩ := bind_ok.mp h
  obtain ⟨_,-,h⟩ := bind_ok.mp h
  obtain ⟨_,-,h⟩ := bind_ok.mp h
  obtain rfl := pure_ok.mp h
  exact Except.ok.inj (hname.symm.trans (string_index hf))

theorem pageRows_read (hb : ReadsBack fromSlice)
    (hc : ∀ b, codec.decompress (codec.compress b) = ⟨b,none⟩) {e : Chunk × ℕ}
    (hf : files.get? (pageName e.2) = some (pageBytes codec e.1.2))
    (hs : ∀ row ∈ e.1.2, Json.Simple 127 row) {r : PageRows}
    (h : pageRows codec (disk files) (pageOf codec e).1 (pageOf codec e).2 = .ok r) :
    (∃ error, .error error ∈ r.rows fromSlice) ∨ r.rows fromSlice = e.1.2.map .ok := by
  obtain ⟨name,hname,h⟩ := bind_ok.mp h
  obtain ⟨_,-,h⟩ := bind_ok.mp h
  obtain ⟨_,-,h⟩ := bind_ok.mp h
  obtain ⟨file,hfile,h⟩ := bind_ok.mp h
  obtain rfl := pure_ok.mp h
  obtain rfl : name = pageName e.2 :=
    checkFile_name hname ((pageItem_index _ _ _ _).trans (by simp [lookup]))
  obtain ⟨bytes,hbytes,hfile⟩ := bind_ok.mp hfile
  obtain rfl := pure_ok.mp hfile
  obtain rfl := Option.some.inj (hf.symm.trans (context_ok.mp hbytes))
  refine collect_lines hb hs (hc _) ?_
  rw [pageBytes, hc]
  have hlen := lines_length (e.1.2.map Json.canonicalJson)
  rw [List.length_map] at hlen
  exact Nat.lt_succ_of_le hlen

/-- Pages without an error deliver the rows that were written. -/
theorem flatRows_read (hb : ReadsBack fromSlice)
    (hc : ∀ b, codec.decompress (codec.compress b) = ⟨b,none⟩)
    {es : List (Chunk × ℕ)}
    (hf : ∀ e ∈ es, files.get? (pageName e.2) = some (pageBytes codec e.1.2))
    (hs : ∀ e ∈ es, ∀ row ∈ e.1.2, Json.Simple 127 row)
    (h : ∀ error, .error error ∉ flatRows codec fromSlice (disk files) (es.map (pageOf codec))) :
    flatRows codec fromSlice (disk files) (es.map (pageOf codec)) = (es.flatMap (fun e => e.1.2)).map .ok ∧
      ∀ e ∈ es, ∃ r, pageRows codec (disk files) (pageOf codec e).1 (pageOf codec e).2 = .ok r ∧
        r.rows fromSlice = e.1.2.map .ok := by
  induction es with
  | nil => exact ⟨rfl,by simp⟩
  | cons e es ih =>
    obtain ⟨hfe,hf⟩ := List.forall_mem_cons.mp hf
    obtain ⟨hse,hs⟩ := List.forall_mem_cons.mp hs
    rw [List.map_cons, flatRows, List.flatMap_cons, ← flatRows] at h ⊢
    obtain ⟨hrest,hopen⟩ := ih hf hs (fun error he => h error (List.mem_append.mpr (.inr he)))
    cases hp : pageRows codec (disk files) (pageOf codec e).1 (pageOf codec e).2 with
    | error error =>
      refine absurd (List.mem_append.mpr (.inl ?_)) (h error)
      rw [hp]
      exact List.mem_singleton_self _
    | ok r =>
      have hr : r.rows fromSlice = e.1.2.map .ok := by
        rcases pageRows_read hb hc hfe hse hp with ⟨error,he⟩ | hr
        · refine absurd (List.mem_append.mpr (.inl ?_)) (h error)
          rw [hp]
          exact he
        · exact hr
      refine ⟨?_,List.forall_mem_cons.mpr ⟨⟨r,hp,hr⟩,hopen⟩⟩
      rw [hrest, List.flatMap_cons, List.map_append]
      exact congrArg (· ++ _) hr

theorem orderedSlots_ok {previous : Option String} {rows : List (Except String Json)}
    {pairs : List (String × String)} (h : orderedSlots previous rows = pairs.map .ok) :
    ∃ read : List Json, rows = read.map .ok ∧ List.Forall₂ (fun row pair =>
      string row "slot" = .ok pair.1 ∧ string row "value" = .ok pair.2) read pairs := by
  induction rows generalizing previous pairs with
  | nil =>
    obtain rfl : pairs = [] := by
      cases pairs with
      | nil => rfl
      | cons => cases h
    exact ⟨[],rfl,.nil⟩
  | cons row rows ih =>
    cases row with
    | error e =>
      unfold orderedSlots at h
      cases pairs with
      | nil => cases h
      | cons => cases (List.cons.inj h).1
    | ok row =>
      unfold orderedSlots at h
      cases hn : nextSlot previous row with
      | error e =>
        rw [hn] at h
        cases pairs with
        | nil => cases h
        | cons => cases (List.cons.inj h).1
      | ok pair =>
        rw [hn] at h
        cases pairs with
        | nil => cases h
        | cons pair' pairs =>
          obtain ⟨hp,hrest⟩ := List.cons.inj h
          obtain rfl := Except.ok.inj hp
          obtain ⟨read,hread,hall⟩ := ih hrest
          obtain ⟨slot,hslot,hn⟩ := bind_ok.mp hn
          obtain ⟨value,hvalue,hn⟩ := bind_ok.mp hn
          obtain ⟨_,-,hn⟩ := bind_ok.mp hn
          obtain rfl := pure_ok.mp hn
          exact ⟨row::read,by rw [hread, List.map_cons],.cons ⟨hslot,hvalue⟩ hall⟩

end Read

end EvmState.Export
