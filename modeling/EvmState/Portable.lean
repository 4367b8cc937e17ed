import EvmState.Lib.TextLines
import EvmState.Publication

/-!
# Portable checkpoint files

An export is a directory: a file of account rows, pages of storage rows and a
manifest that names them with their sizes and checksums. Every file is opened
once to check it and again to read it, so the model gives each opening a
result of its own. The verification reads the pages line by line under the
format's limits and proves the accounts as a build does.
-/

set_option autoImplicit false

namespace EvmState.Portable
open EvmState.Hex EvmState.Fallible EvmState.OrderedMap EvmState.Store EvmState.Encoding
open EvmState.Params EvmState.Bootstrap EvmState.Proof EvmState.Header EvmState.Build
open EvmState.Lines EvmState.TextLines

structure Codec where
  sha256 : Bytes → String
  compress : Bytes → Bytes
  decompress : Bytes → Stream UInt8

/-- An opened file: the size in its metadata and the bytes that it delivers. -/
structure Opened where
  size : ℕ
  content : Bytes

inductive Opening where
  | checkAccounts
  | readAccounts
  | checkPage (index : ℕ)
  | readPage (index : ℕ)
  deriving DecidableEq, Repr

abbrev Disk := Opening → String → Except String Opened

def format : String := "evm-state-checkpoint-v1"

def accountFieldNames : List String :=
  ["address","exists","nonce","balance","code_hash","code","storage_root","nonzero_slots"]

def maxJsonBytes : ℕ := 64*1024*1024

def readJson (fromSlice : Bytes → Option Json) (opened : Except String Opened) :
    Except String Json := do
  let file ← opened
  ensure (file.size ≤ maxJsonBytes) "export metadata exceeds its size limit"
  let bytes := file.content.take (maxJsonBytes+1)
  ensure (bytes.length ≤ maxJsonBytes) "export metadata exceeds its size limit"
  context (fromSlice bytes) "invalid export metadata"

def pageName (index : ℕ) : String :=
  String.ofList ("storage-".toList ++ (Nat.toDigits 10 index).leftpad 6 '0' ++ ".jsonl.gz".toList)

def numbered (name : String) : Option (List Char) :=
  let l := name.toList
  if "storage-".toList.isPrefixOf l then
    let rest := l.drop 8
    if ".jsonl.gz".toList.isSuffixOf rest then some (rest.take (rest.length-9)) else none
  else none

def isFileName (name : String) : Bool :=
  name = "accounts.json" ||
    (numbered name).any (fun n => n.length = 6 && n.all Char.isDigit)

section Files
variable (codec : Codec) (fromSlice : Bytes → Option Json)

def checkFile (opened : String → Except String Opened) (item : Json) : Except String String := do
  let name ← string item "file"
  ensure (isFileName name) "invalid checkpoint export filename"
  let file ← opened name
  ensure (some file.size = (item.index "bytes").asU64) "export file size or checksum mismatch"
  let expected ← string item "sha256"
  ensure (codec.sha256 file.content = expected) "export file size or checksum mismatch"
  return name

structure PageRows where
  reader : Stream UInt8
  item : Json
  count : ℕ
  first : Option String
  last : Option String

/-- A row of a page has exactly these fields. -/
def hasRowFields (row : Json) : Bool :=
  row.asObject.any (fun fields => fields.length = 3 &&
    ["address","slot","value"].all (fun name => (row.get? name).isSome))

def PageRows.readNext (r : PageRows) : Except String (Option (Json × PageRows)) := do
  let (bytes,reader) ← readUntil newline 1025 r.reader
  if bytes = [] then
    ensure (some r.count = (r.item.index "rows").asU64 ∧
      r.first = (r.item.index "first_slot").asStr ∧ r.last = (r.item.index "last_slot").asStr)
      "export page count or boundary mismatch"
    return none
  else
    ensure (bytes.length ≤ 1024 ∧ bytes.getLast? = some newline)
      "oversized or truncated export storage row"
    let row ← context (fromSlice bytes) "expected value"
    ensure (hasRowFields row ∧ row.index "address" = r.item.index "address")
      "export row has unexpected fields or account"
    let slot ← string row "slot"
    let _ ← fixed 32 slot
    let value ← string row "value"
    let _ ← fixed 32 value
    ensure (r.last.all (· < slot)) "export page contains duplicate or unordered slots"
    ensure ((r.item.index "rows").asU64.any (r.count+1 ≤ ·))
      "export page exceeds its declared row count"
    return some (row,⟨reader,r.item,r.count+1,some (r.first.getD slot),some slot⟩)

/-- The rows up to the end of a page or its first error. Each row is longer
than nothing, so that a bound on the bytes is one on the rows. -/
def PageRows.collect : ℕ → PageRows → List (Except String Json)
  | 0, _ => []
  | n+1, r =>
    match r.readNext fromSlice with
    | .error e => [.error e]
    | .ok none => []
    | .ok (some (row,r)) => .ok row::collect n r

def PageRows.rows (r : PageRows) : List (Except String Json) :=
  r.collect fromSlice (r.reader.items.length+1)

def pageRows (disk : Disk) (index : ℕ) (item : Json) : Except String PageRows := do
  let name ← checkFile codec (disk (.checkPage index)) item
  let expected ← context (item.index "rows").asU64 "invalid export page row count"
  ensure (1 ≤ expected ∧ expected ≤ 10000) "invalid export page row count"
  let file ← disk (.readPage index) name
  return ⟨codec.decompress file.content,item,0,none,none⟩

/-- The rows of pages one after another. A page that cannot be opened is one
error among them. -/
def flatRows (disk : Disk) (pages : List (ℕ × Json)) : List (Except String Json) :=
  pages.flatMap (fun e => match pageRows codec disk e.1 e.2 with
    | .ok r => r.rows fromSlice
    | .error error => [.error error])

/-- A row's slot and value, in order after the row before it. -/
def nextSlot (previous : Option String) (row : Json) : Except String (String × String) := do
  let slot ← string row "slot"
  let value ← string row "value"
  ensure (previous.all (· < slot)) "duplicate or unordered slots across export pages"
  return (slot,value)

def orderedSlots : Option String → List (Except String Json) → List (Except String (String × String))
  | _, [] => []
  | previous, .error e::rows => .error e::orderedSlots previous rows
  | previous, .ok row::rows =>
    match nextSlot previous row with
    | .ok pair => .ok pair::orderedSlots (some pair.1) rows
    | .error e => .error e::orderedSlots previous rows

end Files

def validateAccountFields (metadata : Json) : Except String Unit := do
  let fields ← context metadata.asObject "invalid exported account metadata"
  ensure (fields.length = accountFieldNames.length ∧
    accountFieldNames.all (fun name => (metadata.get? name).isSome) ∧
    ((metadata.index "exists" = .bool true) ∨ metadata.index "exists" = .bool false))
    "invalid exported account metadata"

def exactNonce (value : Json) : Except String ℕ := do
  let text ← context value.asStr "export nonce must be exact decimal text"
  ensure (ExactDecimal text) "export nonce must be exact decimal text"
  context ((Json.decimal text).filter (· < 2^64)) "export nonce exceeds uint64"

/-- What a row shares with the account that its proof opens. -/
def sameAccountRow (metadata evidence : Json) (proven : Account) (message : String) :
    Except String Unit := do
  ensure (metadata.index "exists" = .bool proven.exists) message
  let text ← string metadata "storage_root"
  let root ← fixed 32 text
  ensure (root = proven.storageRoot ∧ metadata.index "code" = evidence.index "code") message

structure Verifying where
  digested : String
  total : ℕ

def rowText (account : String) (e : String × String) : String := account ++ e.1 ++ e.2

section Verify
variable (codec : Codec) (alloy : Alloy) (platform : Platform)

def proveRow (snapshot : Json) (account : String) (metadata : Json) (message : String) :
    Except String Account := do
  let evidence := ((snapshot.index "proof_bundle").index "accounts").index account
  let root ← string (snapshot.index "header") "state_root"
  let proven ← verifyAccount alloy root account (evidence.index "proof")
  sameAccountRow metadata evidence proven message
  return proven

/-- The row's own slots are complete, and as many as it says. -/
def completeRow (proven : Account) (slots : List (Except String (String × String)))
    (metadata : Json) (message : String) : Except String ℕ := do
  let code ← string metadata "code"
  let count ← verifyComplete alloy proven slots code metadata
  ensure (some count = (metadata.index "nonzero_slots").asU64) message
  return count

def Verifying.add (s : Verifying) (account : String) (slots : List (String × String))
    (metadata : Json) (count : ℕ) : Verifying where
  digested := s.digested ++ String.join (slots.map (rowText account)) ++ metadata.canonicalJson
  total := s.total+count

def delivered (slots : List (Except String (String × String))) : List (String × String) :=
  slots.filterMap Except.toOption

def verifyRow (disk : Disk) (snapshot : Json) (pages : List (ℕ × Json)) (s : Verifying) (row : Json) :
    Except String Verifying := do
  validateAccountFields row
  let nonce ← exactNonce (row.index "nonce")
  let metadata := row.set "nonce" (.ofNat nonce)
  let name ← string metadata "address"
  let account ← address name
  let proven ← proveRow alloy snapshot account metadata
    "exported metadata differs from its proven account"
  let own := pages.filter (fun e => e.2.index "address" = .str account)
  let slots := orderedSlots none (flatRows codec platform.fromSlice disk own)
  let count ← completeRow alloy proven slots metadata "exported account storage count mismatch"
  ensure (s.total+count < 2^64) "export slot count overflow"
  return s.add account (delivered slots) metadata count

/-- The pages stand in the order of their numbers and their accounts. -/
def checkPages (selected : List String) : String → List (ℕ × Json) → Except String Unit
  | _, [] => .ok ()
  | last, (i,item)::pages => do
    let account ← string item "address"
    ensure (item.index "file" = .str (pageName i) ∧ account ∈ selected ∧ last ≤ account)
      "export page sequence or account is invalid"
    checkPages selected account pages

def checkSnapshot (layout : Json) : Except String Unit := do
  let snapshot := layout.index "checkpoint"
  let bundle := snapshot.index "proof_bundle"
  ensure (layout.index "format" = .str format ∧ layout.index "status" = .str "ready")
    "unsupported or incomplete checkpoint export"
  ensure (snapshot.index "status" = .str "ready" ∧ snapshot.index "format_version" = .ofNat 1 ∧
    snapshot.index "chain_id" = .ofNat 56) "invalid BSC checkpoint manifest"
  let id ← string snapshot "snapshot_id"
  objectId id
  ensure (bundle.index "chain_id" = .ofNat 56 ∧ bundle.index "format_version" = .ofNat 1 ∧
    bundle.index "header" = snapshot.index "header") "checkpoint and proof bundle identities differ"
  ensure ((bundle.index "header_trust" = .str "operator-pinned-hash" ∨
    bundle.index "header_trust" = .str "provider-finalized-header") ∧
    bundle.index "header_trust" = snapshot.index "header_trust")
    "checkpoint header trust record is inconsistent"

def checkCoverage (snapshot : Json) : Except String (List String) := do
  let selected ← canonicalAccounts (snapshot.index "accounts")
  ensure (.arr (selected.map .str) = snapshot.index "accounts")
    "checkpoint account coverage differs from its proofs"
  let proofs ← context ((snapshot.index "proof_bundle").index "accounts").asObject
    "invalid account proofs"
  ensure (selected = proofs.map Prod.fst) "checkpoint account coverage differs from its proofs"
  return selected

def readAccounts (disk : Disk) (layout : Json) (selected : List String) :
    Except String (List Json) := do
  let name ← checkFile codec (disk .checkAccounts) (layout.index "account_file")
  let value ← readJson platform.fromSlice (disk .readAccounts name)
  let accounts ← context value.asArray "invalid exported accounts"
  let names ← accounts.mapM (fun row => string row "address")
  ensure (names = selected) "export account coverage is missing, duplicated or unordered"
  ensure (some accounts.length = ((layout.index "checkpoint").index "account_count").asU64)
    "export account count mismatch"
  return accounts

def report (snapshot : Json) (selected : List String) (total : ℕ) (checksum : String) : Json :=
  .ofPairs [("snapshot_id",snapshot.index "snapshot_id"),("header",snapshot.index "header"),
    ("header_trust",snapshot.index "header_trust"),("accounts",.arr (selected.map .str)),
    ("nonzero_slots",.ofNat total),("state_sha256",.str checksum),
    ("verification",.str "account proofs, complete storage, code and header hash verified")]

def verifyLayout (disk : Disk) (layout : Json) (expectedHash : Option String) : Except String Json := do
  let snapshot := layout.index "checkpoint"
  checkSnapshot layout
  let encoded ← (string (snapshot.index "proof_bundle") "header_rlp").mapError
    (fun _ => "portable exports require the encoded block header")
  let _ ← verifyHeader alloy encoded (snapshot.index "header") expectedHash
  let selected ← checkCoverage snapshot
  let accounts ← readAccounts codec platform disk layout selected
  let pages ← context (layout.index "storage_pages").asArray "invalid storage pages"
  let pages := pages.zipIdx.map Prod.swap
  checkPages selected "" pages
  let s ← accounts.foldlM (verifyRow codec alloy platform disk snapshot pages) ⟨"",0⟩
  let checksum := platform.sha256 s.digested
  ensure (some s.total = (snapshot.index "nonzero_slots").asU64 ∧
    snapshot.index "state_sha256" = .str checksum)
    "exported checkpoint count or state checksum mismatch"
  return report snapshot selected s.total checksum

end Verify
/-- A line that was read as the next row of a page. -/
structure NextRow (fromSlice : Bytes → Option Json) (r r' : PageRows) (row : Json) (bytes : Bytes)
    (slot value : String) : Prop where
  line : readUntil newline 1025 r.reader = .ok (bytes,r'.reader)
  whole : bytes ≠ [] ∧ bytes.length ≤ 1024 ∧ bytes.getLast? = some newline
  parsed : fromSlice bytes = some row
  fields : hasRowFields row = true ∧ row.index "address" = r.item.index "address"
  key : string row "slot" = .ok slot ∧ ∃ b, fixed 32 slot = .ok b
  word : string row "value" = .ok value ∧ ∃ b, fixed 32 value = .ok b
  ordered : r.last.all (fun last => decide (last < slot)) = true
  declared : (r.item.index "rows").asU64.any (fun n => decide (r.count+1 ≤ n)) = true
  after : r' = ⟨r'.reader,r.item,r.count+1,some (r.first.getD slot),some slot⟩

theorem readNext_some {fromSlice : Bytes → Option Json} {r r' : PageRows} {row : Json} :
    r.readNext fromSlice = .ok (some (row,r')) ↔
      ∃ bytes slot value, NextRow fromSlice r r' row bytes slot value := by
  constructor
  · intro h
    obtain ⟨⟨bytes,reader⟩,hline,h⟩ := bind_ok.mp h
    dsimp only at h
    split_ifs at h with hb
    · obtain ⟨_,-,h⟩ := bind_ok.mp h
      cases pure_ok.mp h
    · obtain ⟨_,hwhole,h⟩ := bind_ok.mp h
      obtain ⟨row',hrow,h⟩ := bind_ok.mp h
      obtain ⟨_,hfields,h⟩ := bind_ok.mp h
      obtain ⟨slot,hslot,h⟩ := bind_ok.mp h
      obtain ⟨key,hkey,h⟩ := bind_ok.mp h
      obtain ⟨value,hvalue,h⟩ := bind_ok.mp h
      obtain ⟨word,hword,h⟩ := bind_ok.mp h
      obtain ⟨_,hordered,h⟩ := bind_ok.mp h
      obtain ⟨_,hdeclared,h⟩ := bind_ok.mp h
      obtain ⟨rfl,rfl⟩ := Prod.mk.inj (Option.some.inj (pure_ok.mp h))
      exact ⟨bytes,slot,value,hline,⟨hb,ensure_ok.mp hwhole⟩,context_ok.mp hrow,ensure_ok.mp hfields,
        ⟨hslot,key,hkey⟩,⟨hvalue,word,hword⟩,ensure_ok.mp hordered,ensure_ok.mp hdeclared,rfl⟩
  · rintro ⟨bytes,slot,value,hline,⟨hb,hwhole⟩,hrow,hfields,⟨hslot,key,hkey⟩,⟨hvalue,word,hword⟩,
      hordered,hdeclared,hafter⟩
    refine bind_ok.mpr ⟨_,hline,?_⟩
    dsimp only
    rw [if_neg hb]
    refine bind_ok.mpr ⟨(),ensure_ok.mpr hwhole,bind_ok.mpr ⟨row,context_ok.mpr hrow,bind_ok.mpr ⟨(),
      ensure_ok.mpr hfields,bind_ok.mpr ⟨slot,hslot,bind_ok.mpr ⟨key,hkey,bind_ok.mpr ⟨value,hvalue,
      bind_ok.mpr ⟨word,hword,bind_ok.mpr ⟨(),ensure_ok.mpr hordered,bind_ok.mpr ⟨(),
      ensure_ok.mpr hdeclared,?_⟩⟩⟩⟩⟩⟩⟩⟩⟩
    rw [hafter]
    rfl

theorem collect_fields {fromSlice : Bytes → Option Json} {n : ℕ} {r : PageRows} {row : Json}
    (h : .ok row ∈ r.collect fromSlice n) :
    hasRowFields row = true := by
  induction n generalizing r with
  | zero => cases h
  | succ n ih =>
    unfold PageRows.collect at h
    split at h
    · simp at h
    · simp at h
    · rename_i row' r' hr
      obtain ⟨_,_,_,hnext⟩ := readNext_some.mp hr
      rcases List.mem_cons.mp h with he | h
      · exact Except.ok.inj he ▸ hnext.fields.1
      · exact ih h

end EvmState.Portable
