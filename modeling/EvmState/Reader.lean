import EvmState.Cursor
import EvmState.History
import EvmState.Lib.JsonText

/-!
# Pages of an account's storage

A reader pins a ready checkpoint and reads the slots of one of its accounts
page by page. Each page asks for one row more than it returns, and when that
row is there hands out a token of the last slot it returned, bound to the
checkpoint and the account.
-/

set_option autoImplicit false

namespace EvmState.Reader
open EvmState.Hex EvmState.Fallible EvmState.OrderedMap EvmState.Store EvmState.Encoding EvmState.Text
open EvmState.Params EvmState.Bootstrap

structure ReaderWorld where
  controlId : String
  pins : SortedMap String Json
  checkpoints : CheckpointDb

def manifest (fromSlice : Bytes → Option Json) (db : CheckpointDb) (snapshotId : String) :
    Except String Json := do
  objectId snapshotId
  let row ← one (db.checkpoints.rows.filter (fun r => r.snapshotId = snapshotId))
  let data ← parseManifest fromSlice row
  ensure (data.index "snapshot_id" = .str snapshotId ∧ data.index "status" = .str "ready")
    "checkpoint has no valid ready manifest"
  return data

def readPin (w : ReaderWorld) (pinId : String) : Except String Json := do
  objectId pinId
  let record ← context (w.pins.get? pinId) "No such file or directory"
  ensure (record.index "pin_id" = .str pinId ∧ record.index "control_id" = .str w.controlId)
    "pin belongs to another controller or is corrupt"
  let snapshotId ← string record "snapshot_id"
  objectId snapshotId
  return record

/-- The row of an account, with the header of its checkpoint. -/
structure Metadata where
  row : AccountRow
  header : Json
  deriving DecidableEq

def readAccount (fromSlice : Bytes → Option Json) (db : CheckpointDb)
    (snapshotId selected : String) : Except String Metadata := do
  let published ← manifest fromSlice db snapshotId
  let selected ← address selected
  let accounts ← context (published.index "accounts").asArray "invalid checkpoint accounts"
  ensure (.str selected ∈ accounts) "account is not ready in this checkpoint"
  let row ← one (db.accounts.rows.filter (fun r => r.snapshotId = snapshotId && r.address = selected))
  return ⟨row,published.index "header"⟩

def cursorJson (snapshotId account slot : String) : Json :=
  .obj [("address",.str account),("after_slot",.str slot),("snapshot_id",.str snapshotId),
    ("version",.ofNat 1)]

def encodeCursor (snapshotId account slot : String) : String :=
  String.ofList (Base64.encode (utf8 (Json.canonicalJson (cursorJson snapshotId account slot))))

structure Page where
  pinId : String
  snapshotId : String
  account : Metadata
  nonce : String
  storage : List (String × String)
  nextCursor : Option String
  deriving DecidableEq

def stored (db : CheckpointDb) (snapshotId account : String) : List (String × String) :=
  (db.storage.rows.filter (fun r => r.snapshotId = snapshotId && r.address = account)).map
    (fun r => (r.slot,r.value))

section Pages
variable (fromSlice : Bytes → Option Json)

def decodeCursor (token snapshotId account : String) : Except String String := do
  ensure (token.utf8ByteSize ≤ 1024) "oversized storage cursor"
  let bytes ← context (Base64.decode token.toList) "invalid storage cursor"
  let value ← context (fromSlice bytes) "expected value"
  ensure (value.index "version" = .ofNat 1 ∧ value.index "snapshot_id" = .str snapshotId ∧
    value.index "address" = .str account) "cursor belongs to another checkpoint or account"
  let slot ← string value "after_slot"
  let _ ← fixed 32 slot
  return slot

/-- The slot after which a page starts; an empty token is none. -/
def afterSlot (cursor : Option String) (snapshotId account : String) : Except String String :=
  match cursor.filter (· ≠ "") with
  | some token => decodeCursor fromSlice token snapshotId account
  | none => .ok ""

variable (w : ReaderWorld) (pinId selected : String)

def page (cursor : Option String) (limit : ℕ) : Except String Page := do
  ensure (1 ≤ limit ∧ limit ≤ 10000) "page limit must be between 1 and 10000"
  let selected ← address selected
  let pinned ← readPin w pinId
  let snapshotId ← string pinned "snapshot_id"
  let metadata ← readAccount fromSlice w.checkpoints snapshotId selected
  let after ← afterSlot fromSlice cursor snapshotId selected
  let rows := ((stored w.checkpoints snapshotId selected).filter (fun r => after < r.1)).take (limit+1)
  let last := (rows.take limit).getLast?
  let next := if limit < rows.length then last.map (fun r => encodeCursor snapshotId selected r.1)
    else none
  return ⟨pinId,snapshotId,metadata,toString metadata.row.nonce,rows.take limit,next⟩

/-- The pages from a cursor on, each with its own limit, up to the one that
hands out no cursor. -/
def follow : ℕ → (ℕ → ℕ) → Option String → Except String (List Page)
  | 0, _, _ => .error "unfinished"
  | n+1, limits, cursor => do
    let first ← page fromSlice w pinId selected cursor (limits 0)
    match first.nextCursor with
    | none => return [first]
    | some token => do
      let rest ← follow n (fun i => limits (i+1)) (some token)
      return first::rest

end Pages

/-- A text of letters and digits of a known length. -/
structure Plain (text : String) (n : ℕ) : Prop where
  length : text.toList.length = n
  alphanum : ∀ c ∈ text.toList, c.isAlphanum = true

theorem objectId_plain {id : String} (h : objectId id = .ok ()) : Plain id 32 := by
  obtain ⟨hl,hc⟩ := ensure_ok.mp h
  refine ⟨by rw [String.length_toList, hl],fun c hm => lower_alphanum ?_⟩
  exact of_decide_eq_true (List.all_eq_true.mp hc c hm)

theorem hex_plain {b : Bytes} (h : b.length = 20) : Plain (hex b) 42 := by
  have hlist : (hex b).toList = '0' :: 'x' :: encodeChars b := by
    simp [hex, encode]
  refine ⟨by rw [hlist]; simp [encodeChars_length, h],?_⟩
  rw [hlist]
  intro c hc
  rcases List.mem_cons.mp hc with rfl | hc
  · decide
  · rcases List.mem_cons.mp hc with rfl | hc
    · decide
    · exact lower_alphanum (encodeChars_lower hc)

theorem digitValue_alphanum {c : Char} {n : ℕ} (h : digitValue c = some n) : c.isAlphanum = true := by
  simp only [digitValue, Char.le_def, UInt32.le_iff_toNat_le] at h
  simp only [Char.isAlphanum, Char.isAlpha, Char.isUpper, Char.isLower, Char.isDigit,
    Bool.or_eq_true, Bool.and_eq_true, decide_eq_true_eq, UInt32.le_iff_toNat_le, ge_iff_le]
  have : 'f'.val.toNat = 102 := rfl
  have : 'F'.val.toNat = 70 := rfl
  have : 'z'.val.toNat = 122 := rfl
  have : 'Z'.val.toNat = 90 := rfl
  split_ifs at h <;> omega

theorem decodeChars_alphanum {cs : List Char} {b : Bytes} (h : decodeChars cs = some b) :
    ∀ c ∈ cs, c.isAlphanum = true := by
  induction cs using decodeChars.induct generalizing b with
  | case1 => simp
  | case2 => cases h
  | case3 c d cs ih =>
    obtain ⟨hi,lo,rest,hh,hl,hr,-⟩ := decodeChars_cons h
    exact List.forall_mem_cons.mpr ⟨digitValue_alphanum hh,
      List.forall_mem_cons.mpr ⟨digitValue_alphanum hl,ih hr⟩⟩

theorem fixed_plain {slot : String} {b : Bytes} (h : fixed 32 slot = .ok b) : Plain slot 66 := by
  obtain ⟨hu,hl⟩ := fixed_ok.mp h
  obtain ⟨raw,hraw,hd⟩ := unhex_text hu
  refine ⟨by rw [hraw]; simp [decodeChars_length hd, hl],?_⟩
  rw [hraw]
  exact List.forall_mem_cons.mpr ⟨by decide,List.forall_mem_cons.mpr ⟨by decide,
    decodeChars_alphanum hd⟩⟩

theorem escape_alphanum {c : Char} (h : c.isAlphanum = true) : Json.escape c = [c] := by
  have hrange : 48 ≤ c.toNat ∧ c.toNat < 123 ∧ c ≠ '"' ∧ c ≠ '\\' := by
    refine ⟨?_,?_,by rintro rfl; exact absurd h (by decide),by rintro rfl; exact absurd h (by decide)⟩
    all_goals
      simp only [Char.isAlphanum, Char.isAlpha, Char.isUpper, Char.isLower, Char.isDigit,
        Bool.or_eq_true, Bool.and_eq_true, decide_eq_true_eq, UInt32.le_iff_toNat_le,
        ge_iff_le] at h
      have : c.toNat = c.val.toNat := rfl
      have : 'A'.val.toNat = 65 := rfl
      have : 'Z'.val.toNat = 90 := rfl
      have : 'a'.val.toNat = 97 := rfl
      have : 'z'.val.toNat = 122 := rfl
      have : '0'.val.toNat = 48 := rfl
      have : '9'.val.toNat = 57 := rfl
      omega
  obtain ⟨hlo,hhi,hq,hb⟩ := hrange
  simp only [Json.escape]
  rw [if_neg hq, if_neg hb, if_neg (by omega), if_neg (by omega), if_neg (by omega),
    if_neg (by omega), if_neg (by omega), if_neg (by omega), if_pos (by omega)]

theorem quote_plain {text : String} {n : ℕ} (h : Plain text n) :
    Json.quote text = '"'::text.toList ++ ['"'] := by
  have hmap : text.toList.flatMap Json.escape = text.toList := by
    rw [List.flatMap_congr (g := fun c => [c]) (fun c hc => escape_alphanum (h.alphanum c hc))]
    simp
  rw [Json.quote, hmap]

theorem Plain.size {text : String} {n : ℕ} (h : Plain text n) : text.utf8ByteSize = n := by
  have := utf8ByteSize_ascii (fun c hc => alphanum_size (h.alphanum c hc))
  rwa [String.ofList_toList, h.length] at this

theorem cursorJson_text {snapshotId account slot : String} (hi : Plain snapshotId 32)
    (ha : Plain account 42) (hs : Plain slot 66) :
    Json.canonicalJson (cursorJson snapshotId account slot) =
      "\x7b\"address\":\"" ++ account ++ "\",\"after_slot\":\"" ++ slot ++ "\",\"snapshot_id\":\"" ++
        snapshotId ++ "\",\"version\":1\x7d" := by
  have hkeys : Json.quote "address" = "\"address\"".toList ∧
      Json.quote "after_slot" = "\"after_slot\"".toList ∧
      Json.quote "snapshot_id" = "\"snapshot_id\"".toList ∧
      Json.quote "version" = "\"version\"".toList := by decide
  have hone : Nat.toDigits 10 1 = ['1'] := by decide
  rw [← String.toList_inj, Json.canonicalJson, String.toList_ofList]
  simp only [cursorJson, Json.compact, Json.compactFields, Json.ofNat, hkeys, quote_plain hi,
    quote_plain ha, quote_plain hs]
  simp [hone]

theorem cursorJson_size {snapshotId account slot : String} (hi : Plain snapshotId 32)
    (ha : Plain account 42) (hs : Plain slot 66) :
    (utf8 (Json.canonicalJson (cursorJson snapshotId account slot))).length = 199 := by
  rw [utf8_length, cursorJson_text hi ha hs]
  simp only [String.utf8ByteSize_append, hi.size, ha.size, hs.size]
  decide

/-- The tokens that pages hand out are read back where their checkpoint and
account are expected, and only there. -/
theorem decodeCursor_encodeCursor {fromSlice : Bytes → Option Json}
    {snapshotId account slot id selected after : String} {bytes : Bytes}
    (hf : ∀ i a s, fromSlice (utf8 (Json.canonicalJson (cursorJson i a s))) = some (cursorJson i a s))
    (hi : Plain snapshotId 32) (ha : Plain account 42) (hs : fixed 32 slot = .ok bytes) :
    decodeCursor fromSlice (encodeCursor snapshotId account slot) id selected = .ok after ↔
      id = snapshotId ∧ selected = account ∧ after = slot := by
  have hsize : (encodeCursor snapshotId account slot).utf8ByteSize ≤ 1024 := by
    rw [encodeCursor, utf8ByteSize_ascii (fun _ => Base64.encode_ascii),
      Base64.encode_length, cursorJson_size hi ha (fixed_plain hs)]
    decide
  have hslot : string (cursorJson snapshotId account slot) "after_slot" = .ok slot := string_ok rfl
  have hversion : (cursorJson snapshotId account slot).index "version" = .ofNat 1 := rfl
  have hid : (cursorJson snapshotId account slot).index "snapshot_id" = .str snapshotId := rfl
  have haddress : (cursorJson snapshotId account slot).index "address" = .str account := rfl
  simp only [decodeCursor, bind_ok, ensure_ok, context_ok, pure_ok]
  constructor
  · rintro ⟨_,-,text,ht,value,hv,_,⟨-,hsnap,hacc⟩,found,hfound,_,-,rfl⟩
    rw [encodeCursor, String.toList_ofList, Base64.decode_encode] at ht
    obtain rfl := Option.some.inj ht
    obtain rfl := Option.some.inj ((hf _ _ _).symm.trans hv)
    rw [hslot] at hfound
    rw [hid] at hsnap
    rw [haddress] at hacc
    exact ⟨(Json.str.inj hsnap).symm,(Json.str.inj hacc).symm,(Except.ok.inj hfound).symm⟩
  · rintro ⟨rfl,rfl,rfl⟩
    refine ⟨(),hsize,_,?_,_,hf _ _ _,(),⟨hversion,hid,haddress⟩,_,hslot,bytes,hs,rfl⟩
    rw [encodeCursor, String.toList_ofList, Base64.decode_encode]

/-- A pin of a ready checkpoint that has the account. -/
structure Ready (fromSlice : Bytes → Option Json) (w : ReaderWorld)
    (pinId selected snapshotId account : String) (metadata : Metadata) : Prop where
  selects : address selected = .ok account
  pin : ∃ pinned, readPin w pinId = .ok pinned ∧ string pinned "snapshot_id" = .ok snapshotId
  readable : readAccount fromSlice w.checkpoints snapshotId account = .ok metadata

section Ready
variable {fromSlice : Bytes → Option Json} {w : ReaderWorld}
variable {pinId selected snapshotId account : String} {metadata : Metadata}

theorem Ready.unique (h : Ready fromSlice w pinId selected snapshotId account metadata) {id a : String}
    {m : Metadata} (h' : Ready fromSlice w pinId selected id a m) :
    id = snapshotId ∧ a = account ∧ m = metadata := by
  obtain ⟨pinned,hp,hs⟩ := h.pin
  obtain ⟨pinned',hp',hs'⟩ := h'.pin
  obtain rfl := Except.ok.inj (hp.symm.trans hp')
  obtain rfl := Except.ok.inj (hs.symm.trans hs')
  obtain rfl := Except.ok.inj (h.selects.symm.trans h'.selects)
  exact ⟨rfl,rfl,Except.ok.inj (h'.readable.symm.trans h.readable)⟩

theorem Ready.plain (h : Ready fromSlice w pinId selected snapshotId account metadata) :
    Plain snapshotId 32 ∧ Plain account 42 := by
  obtain ⟨pinned,hp,hs⟩ := h.pin
  obtain ⟨_,-,hp⟩ := bind_ok.mp hp
  obtain ⟨_,-,hp⟩ := bind_ok.mp hp
  obtain ⟨_,-,hp⟩ := bind_ok.mp hp
  obtain ⟨id,hid,hp⟩ := bind_ok.mp hp
  obtain ⟨_,hobj,hp⟩ := bind_ok.mp hp
  obtain rfl := pure_ok.mp hp
  obtain rfl := Except.ok.inj (hid.symm.trans hs)
  obtain ⟨b,-,hb,rfl⟩ := address_ok.mp h.selects
  exact ⟨objectId_plain hobj,hex_plain hb⟩

end Ready

section Follow
variable {fromSlice : Bytes → Option Json} {w : ReaderWorld}
variable {pinId selected snapshotId account : String} {metadata : Metadata}

def pageOf (pinId snapshotId account : String) (metadata : Metadata) (rows : List (String × String))
    (limit : ℕ) : Page :=
  ⟨pinId,snapshotId,metadata,toString metadata.row.nonce,rows.take limit,
    if limit < rows.length then
      (rows.take limit).getLast?.map (fun r => encodeCursor snapshotId account r.1) else none⟩

theorem page_ok {cursor : Option String} {limit : ℕ} {p : Page}
    (h : Ready fromSlice w pinId selected snapshotId account metadata) :
    page fromSlice w pinId selected cursor limit = .ok p ↔ (1 ≤ limit ∧ limit ≤ 10000) ∧
      ∃ after, afterSlot fromSlice cursor snapshotId account = .ok after ∧
        p = pageOf pinId snapshotId account metadata
          ((stored w.checkpoints snapshotId account).filter (fun r => after < r.1)) limit := by
  obtain ⟨pinned,hp,hs⟩ := h.pin
  have htake : ∀ rows : List (String × String), (rows.take (limit+1)).take limit = rows.take limit ∧
      (limit < (rows.take (limit+1)).length ↔ limit < rows.length) := by
    intro rows
    rw [List.take_take, List.length_take]
    exact ⟨by rw [min_eq_left (Nat.le_succ limit)],by omega⟩
  simp only [page, bind_ok, ensure_ok, pure_ok]
  constructor
  · rintro ⟨_,hl,a,ha,r,hr,id,hid,m,hm,after,haf,rfl⟩
    obtain rfl := Except.ok.inj (ha.symm.trans h.selects)
    obtain rfl := Except.ok.inj (hr.symm.trans hp)
    obtain rfl := Except.ok.inj (hid.symm.trans hs)
    have hm := Except.ok.inj (hm.symm.trans h.readable)
    subst hm
    exact ⟨hl,after,haf,by simp only [pageOf, (htake _).1, (htake _).2]⟩
  · rintro ⟨hl,after,haf,rfl⟩
    exact ⟨(),hl,account,h.selects,pinned,hp,snapshotId,hs,metadata,h.readable,after,haf,
      by simp only [pageOf, (htake _).1, (htake _).2]⟩

theorem stored_sorted (db : CheckpointDb) (snapshotId account : String) :
    (stored db snapshotId account).Pairwise (fun a b => a.1 < b.1) := by
  refine List.pairwise_map.mpr ((db.storage.sorted.filter _).imp_of_mem (fun {a b} ha hb h => ?_))
  have ha := (List.mem_filter.mp ha).2
  have hb := (List.mem_filter.mp hb).2
  simp only [Bool.and_eq_true, decide_eq_true_eq] at ha hb
  rw [Prod.Lex.toLex_lt_toLex, Prod.Lex.toLex_lt_toLex, ha.1, hb.1, ha.2, hb.2] at h
  simpa using h

theorem filter_after {rows : List (String × String)} (h : rows.Pairwise (fun a b => a.1 < b.1))
    {n : ℕ} {last : String × String} (hl : (rows.take n).getLast? = some last) :
    rows.filter (fun r => last.1 < r.1) = rows.drop n := by
  obtain ⟨front,hfront⟩ := List.getLast?_eq_some_iff.mp hl
  have hsplit : rows = (front++[last])++rows.drop n := by
    rw [← hfront, List.take_append_drop]
  rw [hsplit, List.pairwise_append] at h
  obtain ⟨hinit,-,hcross⟩ := h
  have hbefore : ∀ r ∈ front++[last], ¬last.1 < r.1 := by
    intro r hr
    rcases List.mem_append.mp hr with hr | hr
    · exact lt_asymm ((List.pairwise_append.mp hinit).2.2 r hr last (by simp))
    · obtain rfl := List.mem_singleton.mp hr
      exact lt_irrefl _
  conv_lhs => rw [hsplit]
  rw [List.filter_append, List.filter_eq_nil_iff.mpr (by simpa using hbefore), List.nil_append]
  exact List.filter_eq_self.mpr (fun r hr => decide_eq_true (hcross last (by simp) r hr))

theorem encodeCursor_ne_empty (snapshotId account slot : String) :
    encodeCursor snapshotId account slot ≠ "" := by
  intro h
  have hlen := congrArg String.toList h
  rw [encodeCursor, String.toList_ofList] at hlen
  have hnil := congrArg Base64.decode hlen
  rw [Base64.decode_encode] at hnil
  have htext : utf8 (Json.canonicalJson (cursorJson snapshotId account slot)) = utf8 "" :=
    Option.some.inj hnil
  have hempty := congrArg String.toList (utf8_injective htext)
  rw [Json.canonicalJson, String.toList_ofList, cursorJson, Json.compact] at hempty
  cases hempty

/-- What a page asks of the reader of JSON values: the tokens' own values. -/
def ReadsCursors (fromSlice : Bytes → Option Json) : Prop := ∀ snapshotId account slot,
  fromSlice (utf8 (Json.canonicalJson (cursorJson snapshotId account slot))) =
    some (cursorJson snapshotId account slot)

theorem afterSlot_token {slot id a after : String} {bytes : Bytes} (hf : ReadsCursors fromSlice)
    (h : Ready fromSlice w pinId selected snapshotId account metadata) (hs : fixed 32 slot = .ok bytes) :
    afterSlot fromSlice (some (encodeCursor snapshotId account slot)) id a = .ok after ↔
      id = snapshotId ∧ a = account ∧ after = slot := by
  rw [afterSlot, Option.filter_some, if_pos (by simpa using encodeCursor_ne_empty _ _ _)]
  exact decodeCursor_encodeCursor hf h.plain.1 h.plain.2 hs

theorem follow_last {n : ℕ} {limits : ℕ → ℕ} {cursor : Option String} {p : Page}
    (h : page fromSlice w pinId selected cursor (limits 0) = .ok p) (hn : p.nextCursor = none) :
    follow fromSlice w pinId selected (n+1) limits cursor = .ok [p] := by
  rw [follow]
  refine bind_ok.mpr ⟨p,h,?_⟩
  rw [hn]
  rfl

theorem follow_more {n : ℕ} {limits : ℕ → ℕ} {cursor : Option String} {p : Page} {token : String}
    {rest : List Page} (h : page fromSlice w pinId selected cursor (limits 0) = .ok p)
    (hn : p.nextCursor = some token)
    (hr : follow fromSlice w pinId selected n (fun i => limits (i+1)) (some token) = .ok rest) :
    follow fromSlice w pinId selected (n+1) limits cursor = .ok (p::rest) := by
  rw [follow]
  refine bind_ok.mpr ⟨p,h,?_⟩
  rw [hn]
  exact bind_ok.mpr ⟨rest,hr,rfl⟩

/-- From any cursor the pages end, and hold every row after it once. -/
theorem follow_exact (hf : ReadsCursors fromSlice)
    (h : Ready fromSlice w pinId selected snapshotId account metadata)
    (hs : ∀ r ∈ stored w.checkpoints snapshotId account, ∃ bytes, fixed 32 r.1 = .ok bytes)
    (n : ℕ) {limits : ℕ → ℕ} (hl : ∀ i, 1 ≤ limits i ∧ limits i ≤ 10000) {cursor : Option String}
    {after : String} (hc : afterSlot fromSlice cursor snapshotId account = .ok after)
    (hn : ((stored w.checkpoints snapshotId account).filter (fun r => after < r.1)).length ≤ n) :
    ∃ pages, follow fromSlice w pinId selected (n+1) limits cursor = .ok pages ∧
      pages.getLast?.map Page.nextCursor = some none ∧ pages.flatMap Page.storage =
        (stored w.checkpoints snapshotId account).filter (fun r => after < r.1) := by
  induction n generalizing limits cursor after with
  | zero =>
    have hpage : page fromSlice w pinId selected cursor (limits 0) =
        .ok (pageOf pinId snapshotId account metadata
          ((stored w.checkpoints snapshotId account).filter (fun r => after < r.1)) (limits 0)) :=
      (page_ok h).mpr ⟨hl 0,after,hc,rfl⟩
    rw [List.length_eq_zero_iff.mp (Nat.le_zero.mp hn)] at hpage ⊢
    exact ⟨_,follow_last hpage rfl,rfl,by simp [pageOf]⟩
  | succ n ih =>
    have hpage : page fromSlice w pinId selected cursor (limits 0) =
        .ok (pageOf pinId snapshotId account metadata
          ((stored w.checkpoints snapshotId account).filter (fun r => after < r.1)) (limits 0)) :=
      (page_ok h).mpr ⟨hl 0,after,hc,rfl⟩
    have hsorted := (stored_sorted w.checkpoints snapshotId account).filter (fun r => after < r.1)
    have hmem : ∀ r ∈ (stored w.checkpoints snapshotId account).filter (fun r => after < r.1),
        r ∈ stored w.checkpoints snapshotId account ∧ after < r.1 :=
      fun r hr => ⟨(List.mem_filter.mp hr).1,of_decide_eq_true (List.mem_filter.mp hr).2⟩
    have hafter : ∀ last : String × String, after < last.1 →
        (stored w.checkpoints snapshotId account).filter (fun r => last.1 < r.1) =
          ((stored w.checkpoints snapshotId account).filter (fun r => after < r.1)).filter
            (fun r => last.1 < r.1) := by
      intro last hlast
      rw [List.filter_filter]
      refine List.filter_congr (fun r _ => ?_)
      by_cases hr : last.1 < r.1
      · simp [hr, hlast.trans hr]
      · simp [hr]
    generalize (stored w.checkpoints snapshotId account).filter (fun r => after < r.1) = rows
      at hn hpage hsorted hmem hafter ⊢
    by_cases hmore : limits 0 < rows.length
    · have hlimit := (hl 0).1
      have hne : rows.take (limits 0) ≠ [] := by
        rw [← List.length_pos_iff, List.length_take]
        omega
      obtain ⟨last,hlast⟩ : ∃ last, (rows.take (limits 0)).getLast? = some last :=
        ⟨_,List.getLast?_eq_some_getLast hne⟩
      obtain ⟨hstored,hlt⟩ := hmem last (List.mem_of_mem_take (List.mem_of_getLast? hlast))
      obtain ⟨bytes,hbytes⟩ := hs last hstored
      have hnext : (pageOf pinId snapshotId account metadata rows (limits 0)).nextCursor =
          some (encodeCursor snapshotId account last.1) := by
        rw [pageOf, if_pos hmore, hlast]
        rfl
      have hrest := hafter last hlt
      rw [filter_after hsorted hlast] at hrest
      obtain ⟨rest,hfollow,hend,hstorage⟩ := @ih (fun i => limits (i+1)) (fun i => hl (i+1))
        (some (encodeCursor snapshotId account last.1)) last.1
        ((afterSlot_token hf h hbytes).mpr ⟨rfl,rfl,rfl⟩)
        (by rw [hrest, List.length_drop]; omega)
      refine ⟨_,follow_more hpage hnext hfollow,?_,?_⟩
      · obtain ⟨p,hp⟩ : ∃ p, rest.getLast? = some p := by
          cases hg : rest.getLast? with
          | none => rw [hg] at hend; cases hend
          | some p => exact ⟨p,rfl⟩
        rw [List.getLast?_cons, hp]
        rw [hp] at hend
        exact hend
      · rw [List.flatMap_cons, hstorage, hrest]
        exact List.take_append_drop _ _
    · refine ⟨_,follow_last hpage (by rw [pageOf, if_neg hmore]),?_,?_⟩
      · simp [pageOf, hmore]
      · simp [pageOf, List.take_of_length_le (not_lt.mp hmore)]

theorem nextCursor_token {cursor : Option String} {limit : ℕ} {p : Page} {token : String}
    (h : Ready fromSlice w pinId selected snapshotId account metadata)
    (hs : ∀ r ∈ stored w.checkpoints snapshotId account, ∃ bytes, fixed 32 r.1 = .ok bytes)
    (hp : page fromSlice w pinId selected cursor limit = .ok p) (ht : p.nextCursor = some token) :
    ∃ slot bytes, fixed 32 slot = .ok bytes ∧ token = encodeCursor snapshotId account slot := by
  obtain ⟨-,after,-,rfl⟩ := (page_ok h).mp hp
  simp only [pageOf] at ht
  split_ifs at ht
  obtain ⟨last,hlast,rfl⟩ := Option.map_eq_some_iff.mp ht
  have hmem := List.mem_of_mem_take (List.mem_of_getLast? hlast)
  obtain ⟨bytes,hb⟩ := hs last (List.mem_filter.mp hmem).1
  exact ⟨last.1,bytes,hb,rfl⟩

end Follow

/-- Pages are exact: whatever their limits they end and hold each stored row
once in ascending order, and their tokens are good for their own checkpoint
and account alone. -/
theorem pages_exact (fromSlice : Bytes → Option Json) (hf : ReadsCursors fromSlice)
    (w : ReaderWorld) (pinId selected snapshotId account : String) (metadata : Metadata)
    (h : Ready fromSlice w pinId selected snapshotId account metadata)
    (hs : ∀ r ∈ stored w.checkpoints snapshotId account, ∃ bytes, fixed 32 r.1 = .ok bytes) :
    (∀ limits : ℕ → ℕ, (∀ i, 1 ≤ limits i ∧ limits i ≤ 10000) →
      ∃ n pages, follow fromSlice w pinId selected n limits none = .ok pages ∧
        pages.getLast?.map Page.nextCursor = some none ∧
        pages.flatMap Page.storage = stored w.checkpoints snapshotId account) ∧
    (stored w.checkpoints snapshotId account).Pairwise (fun a b => a.1 < b.1) ∧
    (∀ cursor limit p token, page fromSlice w pinId selected cursor limit = .ok p →
      p.nextCursor = some token → ∀ w' pinId' selected' id a metadata',
      Ready fromSlice w' pinId' selected' id a metadata' → ∀ limit', 1 ≤ limit' ∧ limit' ≤ 10000 →
      ((∃ q, page fromSlice w' pinId' selected' (some token) limit' = .ok q) ↔
        id = snapshotId ∧ a = account)) := by
  refine ⟨fun limits hl => ?_,stored_sorted _ _ _,?_⟩
  · have hall : (stored w.checkpoints snapshotId account).filter (fun r => "" < r.1) =
        stored w.checkpoints snapshotId account := by
      refine List.filter_eq_self.mpr (fun r hr => decide_eq_true ?_)
      obtain ⟨bytes,hb⟩ := hs r hr
      obtain ⟨c,l,hc⟩ : ∃ c l, r.1.toList = c::l := by
        refine List.exists_cons_of_length_pos ?_
        rw [(fixed_plain hb).length]
        omega
      rw [String.lt_iff_toList_lt, hc]
      exact List.nil_lt_cons c l
    have hnone : afterSlot fromSlice none snapshotId account = .ok "" := rfl
    obtain ⟨pages,hp,he,hstorage⟩ := follow_exact hf h hs _ hl hnone le_rfl
    exact ⟨_,pages,hp,he,by rw [hstorage, hall]⟩
  · intro cursor limit p token hp ht w' pinId' selected' id a metadata' h' limit' hl
    obtain ⟨slot,bytes,hb,rfl⟩ := nextCursor_token h hs hp ht
    constructor
    · rintro ⟨q,hq⟩
      obtain ⟨-,after,ha,-⟩ := (page_ok h').mp hq
      obtain ⟨hi,hacc,-⟩ := (afterSlot_token hf h hb).mp ha
      exact ⟨hi,hacc⟩
    · rintro ⟨rfl,rfl⟩
      exact ⟨_,(page_ok h').mpr ⟨hl,slot,(afterSlot_token hf h hb).mpr ⟨rfl,rfl,rfl⟩,rfl⟩⟩

def sampleAccount : String := hex (List.replicate 20 17)

def sampleSlot (n : UInt8) : String := hex (n::List.replicate 31 0)

def samplePin : String := "00000000000000000000000000000000"

def sampleSnapshot : String := "11111111111111111111111111111111"

def sampleRow : AccountRow := ⟨sampleSnapshot,sampleAccount,true,7,"0","0x","0x","0x",2⟩

def sampleManifest : Json :=
  .obj [("accounts",.arr [.str sampleAccount]),("header",.obj [("number",.ofNat 100)]),
    ("snapshot_id",.str sampleSnapshot),("status",.str "ready")]

def sampleWorld : ReaderWorld where
  controlId := "c"
  pins := SortedMap.empty.insert samplePin (.obj [("control_id",.str "c"),("pin_id",.str samplePin),
    ("snapshot_id",.str sampleSnapshot)])
  checkpoints :=
    { storage := ⟨[⟨sampleSnapshot,sampleAccount,sampleSlot 1,"0x01"⟩,
        ⟨sampleSnapshot,sampleAccount,sampleSlot 2,"0x02"⟩],by decide +kernel⟩
      accounts := ⟨[sampleRow],List.pairwise_singleton _ _⟩
      checkpoints := ⟨[⟨sampleSnapshot,100,"0x",0,sampleManifest.canonicalJson⟩],
        List.pairwise_singleton _ _⟩ }

/-- A parser that reads compact texts alone. -/
def sampleParser (bytes : Bytes) : Option Json := (ofUtf8 bytes).bind Json.read

theorem sampleParser_canonicalJson {j : Json} (h : j.Regular) :
    sampleParser (utf8 j.canonicalJson) = some j := by
  rw [sampleParser, ofUtf8_utf8, Option.bind_some, Json.read_canonicalJson h]

theorem sampleReady : Ready sampleParser sampleWorld samplePin sampleAccount sampleSnapshot sampleAccount
    ⟨sampleRow,.obj [("number",.ofNat 100)]⟩ where
  selects := address_hex (by decide)
  pin := ⟨_,bind_ok.mpr ⟨(),by decide +kernel,bind_ok.mpr ⟨_,context_ok.mpr rfl,
    bind_ok.mpr ⟨(),ensure_ok.mpr ⟨rfl,rfl⟩,bind_ok.mpr ⟨sampleSnapshot,string_ok rfl,
    bind_ok.mpr ⟨(),by decide +kernel,rfl⟩⟩⟩⟩⟩,string_ok rfl⟩
  readable := by
    have hread : sampleParser (utf8 sampleManifest.canonicalJson) = some sampleManifest :=
      sampleParser_canonicalJson ⟨⟨trivial,trivial⟩,⟨Json.regular_ofNat 100,trivial⟩,trivial,
        trivial,trivial⟩
    have hmanifest : manifest sampleParser sampleWorld.checkpoints sampleSnapshot =
        .ok sampleManifest :=
      bind_ok.mpr ⟨(),by decide +kernel,
        bind_ok.mpr ⟨⟨sampleSnapshot,100,"0x",0,sampleManifest.canonicalJson⟩,rfl,
          bind_ok.mpr ⟨_,context_ok.mpr hread,bind_ok.mpr ⟨(),ensure_ok.mpr ⟨rfl,rfl⟩,rfl⟩⟩⟩⟩
    refine bind_ok.mpr ⟨_,hmanifest,bind_ok.mpr ⟨_,address_hex (by decide),bind_ok.mpr ⟨_,
      context_ok.mpr rfl,bind_ok.mpr ⟨(),ensure_ok.mpr (List.mem_singleton.mpr rfl),
      bind_ok.mpr ⟨sampleRow,?_,rfl⟩⟩⟩⟩⟩
    decide +kernel

theorem pages_exact_sample : ∃ n pages,
    follow sampleParser sampleWorld samplePin sampleAccount n (fun _ => 1) none = .ok pages ∧
    pages.getLast?.map Page.nextCursor = some none ∧
    pages.flatMap Page.storage = stored sampleWorld.checkpoints sampleSnapshot sampleAccount := by
  have hf : ReadsCursors sampleParser := fun _ _ _ =>
    sampleParser_canonicalJson ⟨trivial,trivial,trivial,Json.regular_ofNat 1,trivial⟩
  have hs : ∀ r ∈ stored sampleWorld.checkpoints sampleSnapshot sampleAccount,
      ∃ bytes, fixed 32 r.1 = .ok bytes := by
    intro r hr
    obtain ⟨row,hrow,rfl⟩ := List.mem_map.mp hr
    have hmem := (List.mem_filter.mp hrow).1
    simp only [sampleWorld, List.mem_cons, List.not_mem_nil, or_false] at hmem
    rcases hmem with rfl | rfl <;> exact ⟨_,fixed_hex (by simp)⟩
  exact (pages_exact sampleParser hf sampleWorld samplePin sampleAccount
    sampleSnapshot sampleAccount _ sampleReady hs).1 (fun _ => 1) (fun _ => ⟨le_rfl,by omega⟩)

end EvmState.Reader
