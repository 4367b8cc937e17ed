import EvmState.Lib.Base64
import EvmState.Encoding
import EvmState.Lib.Text

/-!
# Stream cursors

A token is the base64 of an enciphered payload. Three versions of the payload
name a block, the chain head and the last irreversible block, the first two
leaving out the reference that equals the block. The public cipher stands for
the library that implements it.
-/

set_option autoImplicit false

namespace EvmState.Cursor
open EvmState.Hex EvmState.Fallible EvmState.Text

/-- The cipher under the public key and nonce. -/
structure Cipher where
  encrypt : Bytes → Option Bytes
  decrypt : Bytes → Option Bytes

/-- The cipher adds a tag to what it enciphers and its two directions are
mutually inverse. -/
structure Cipher.Lawful (cipher : Cipher) : Prop where
  total : ∀ a, a.length < 2^32 → ∃ b, cipher.encrypt a = some b ∧ b.length = a.length+16
  inverse : ∀ a b, cipher.encrypt a = some b ↔ cipher.decrypt b = some a

structure BlockRef where
  number : ℕ
  hash : String
  deriving DecidableEq, Repr

structure Position where
  block : BlockRef
  head : BlockRef
  lib : BlockRef
  step : ℕ
  deriving DecidableEq, Repr

def isHexDigit (c : Char) : Bool := decide (IsLowerDigit c)

def segments (payload : String) : List String := (payload.toList.splitOn ':').map String.ofList

/-- The reference whose number is at an offset of the segments and whose hash
follows. -/
def reference (parts : List String) (offset : ℕ) : Except String BlockRef := do
  let number := parts.getD offset ""
  let hash := parts.getD (offset+1) ""
  ensure (number = "0" ∨ (number ≠ "" ∧ number.toList.head? ≠ some '0' ∧
    number.toList.all Char.isDigit)) "invalid BSC block number"
  ensure (hash.utf8ByteSize = 64 ∧ hash.toList.all isHexDigit) "invalid BSC block hash"
  let n ← context ((Json.decimal number).filter (· < 2^64)) "block number exceeds uint64"
  return ⟨n,"0x" ++ hash⟩

/-- The head, which the first version leaves out. -/
def headReference (parts : List String) (block : BlockRef) : Except String BlockRef :=
  if parts.getD 0 "" = "c1" then .ok block else reference parts 4

/-- The last irreversible block, which the second version leaves out. -/
def libReference (parts : List String) (block : BlockRef) : Except String BlockRef :=
  if parts.getD 0 "" = "c2" then .ok block
  else reference parts (if parts.getD 0 "" = "c1" then 4 else 6)

def parse (payload : String) : Except String Position := do
  let parts := segments payload
  let version := parts.getD 0 ""
  ensure ((version = "c1" ∨ version = "c2") ∧ parts.length = 6 ∨ version = "c3" ∧ parts.length = 8)
    "invalid cursor segments"
  let step := parts.getD 1 ""
  ensure (step = "1" ∨ step = "16" ∨ step = "17") "unsupported cursor step"
  let block ← reference parts 2
  let head ← headReference parts block
  let lib ← libReference parts block
  ensure (lib = block ∧ block.number ≤ head.number ∧ (head.number ≠ block.number ∨ head = block))
    "cursor is not on a finalized block"
  let n ← context ((Json.decimal step).filter (· < 2^8)) "invalid digit found in string"
  return ⟨block,head,lib,n⟩

section Tokens
variable (cipher : Cipher)

/-- A token's characters without the pads at its end. -/
def bare (token : String) : List Char := token.toList.rdropWhile (· = '=')

def isTokenChar (c : Char) : Bool := c.isAlphanum || c = '_' || c = '-'

def payload (token : String) : Except String String := do
  ensure (token ≠ "" ∧ token.utf8ByteSize ≤ 2048) "invalid cursor length"
  ensure (token.length-(bare token).length ≤ 2 ∧ bare token ≠ [] ∧ (bare token).all isTokenChar)
    "invalid cursor alphabet"
  let encoded ← context (Base64.decode token.toList) "invalid cursor base64"
  let payload ← context (cipher.decrypt encoded) "invalid cursor ciphertext"
  context (ofUtf8 payload) "invalid cursor text"

def decode (token : String) : Except String Position := do
  let payload ← payload cipher token
  parse payload

def encodePublic (payload : String) : Except String String := do
  let value ← context (cipher.encrypt (utf8 payload)) "cursor encoding failed"
  return String.ofList (Base64.encode value)

end Tokens

inductive Version where
  | c1
  | c2
  | c3
  deriving DecidableEq, Repr

def Version.text : Version → String
  | .c1 => "c1"
  | .c2 => "c2"
  | .c3 => "c3"

def BlockRef.fields (r : BlockRef) : List String :=
  [toString r.number,String.ofList (r.hash.toList.drop 2)]

/-- The references of a position that a version writes. -/
def Version.references (v : Version) (p : Position) : List String :=
  match v with
  | .c1 => p.lib.fields
  | .c2 => p.head.fields
  | .c3 => p.head.fields ++ p.lib.fields

def parts (v : Version) (p : Position) : List String :=
  v.text::toString p.step::(p.block.fields ++ v.references p)

def render (v : Version) (p : Position) : String :=
  String.ofList ([':'].intercalate ((parts v p).map String.toList))

structure BlockRef.Valid (r : BlockRef) : Prop where
  number : r.number < 2^64
  hash : ∃ digits, r.hash = "0x" ++ String.ofList digits ∧ digits.length = 64 ∧
    ∀ c ∈ digits, IsLowerDigit c

structure Position.Valid (p : Position) : Prop where
  step : p.step = 1 ∨ p.step = 16 ∨ p.step = 17
  block : p.block.Valid
  head : p.head.Valid
  final : p.lib = p.block
  order : p.block.number ≤ p.head.number
  same : p.head.number = p.block.number → p.head = p.block

theorem reference_ok {parts : List String} {offset : ℕ} {r : BlockRef} :
    reference parts offset = .ok r ↔
      r.Valid ∧ [parts.getD offset "",parts.getD (offset+1) ""] = r.fields := by
  generalize hnum : parts.getD offset "" = number
  generalize hhash : parts.getD (offset+1) "" = hash
  simp only [reference, hnum, hhash, bind_ok, ensure_ok, context_ok, pure_ok,
    Option.filter_eq_some_iff, decide_eq_true_eq]
  constructor
  · rintro ⟨_,hcan,_,⟨hsize,hhex⟩,n,⟨hdec,hlt⟩,rfl⟩
    have hlower : ∀ c ∈ hash.toList, IsLowerDigit c := by
      simpa only [isHexDigit, List.all_eq_true, decide_eq_true_eq] using hhex
    have hlen : hash.toList.length = 64 := by
      have := utf8ByteSize_ascii (fun c hc => Encoding.digit_size (hlower c hc))
      rw [String.ofList_toList, hsize] at this
      exact this.symm
    have htext : IsCanonical number.toList := by
      rcases hcan with rfl | ⟨hne,h0,hd⟩
      · exact .inl rfl
      · exact .inr ⟨by simpa using hne,h0,List.all_eq_true.mp hd⟩
    have hnumber := toString_of_canonical htext (by rwa [String.ofList_toList])
    refine ⟨⟨hlt,hash.toList,by rw [String.ofList_toList],hlen,hlower⟩,?_⟩
    rw [BlockRef.fields, ← String.toList_inj.mp hnumber]
    simp
  · rintro ⟨⟨hlt,digits,hd,hlen,hlower⟩,hfields⟩
    rw [BlockRef.fields, List.cons.injEq, List.cons.injEq] at hfields
    obtain ⟨rfl,rfl,-⟩ := hfields
    have hdrop : r.hash.toList.drop 2 = digits := by
      rw [hd]
      simp
    rw [hdrop]
    refine ⟨(),?_,(),⟨?_,?_⟩,r.number,⟨Json.decimal_toString _,hlt⟩,?_⟩
    · rcases canonical_toString r.number with h | ⟨hne,h0,hdig⟩
      · exact .inl (String.toList_inj.mp h)
      · exact .inr ⟨by simp,h0,List.all_eq_true.mpr hdig⟩
    · rw [utf8ByteSize_ascii (fun c hc => Encoding.digit_size (hlower c hc)), hlen]
    · simpa [isHexDigit] using hlower
    · rw [← hd]

/-- A version writes the references it cannot fill in. -/
def Version.Fits (v : Version) (p : Position) : Prop := v = .c1 → p.head = p.block

theorem step_text {text : String} {n : ℕ} (ht : text = "1" ∨ text = "16" ∨ text = "17")
    (h : Json.decimal text = some n) : text = toString n ∧ (n = 1 ∨ n = 16 ∨ n = 17) := by
  rcases ht with rfl | rfl | rfl <;> · cases h; decide

theorem six_segments {l : List String} (h : l.length = 6) : l = l.getD 0 ""::l.getD 1 ""::
    ([l.getD 2 "",l.getD (2+1) ""]++[l.getD 4 "",l.getD (4+1) ""]) := by
  rcases l with _ | ⟨a,_ | ⟨b,_ | ⟨c,_ | ⟨d,_ | ⟨e,_ | ⟨f,_ | ⟨g,l⟩⟩⟩⟩⟩⟩⟩ <;>
    simp only [List.length_nil, List.length_cons] at h <;> first | omega | rfl

theorem eight_segments {l : List String} (h : l.length = 8) : l = l.getD 0 ""::l.getD 1 ""::
    ([l.getD 2 "",l.getD (2+1) ""]++([l.getD 4 "",l.getD (4+1) ""]++
      [l.getD 6 "",l.getD (6+1) ""])) := by
  rcases l with _ | ⟨a,_ | ⟨b,_ | ⟨c,_ | ⟨d,_ | ⟨e,_ | ⟨f,_ | ⟨g,_ | ⟨i,_ | ⟨j,l⟩⟩⟩⟩⟩⟩⟩⟩⟩ <;>
    simp only [List.length_nil, List.length_cons] at h <;> first | omega | rfl

theorem parse_segments {payload : String} {p : Position} :
    parse payload = .ok p ↔ p.Valid ∧ ∃ v : Version, v.Fits p ∧ segments payload = parts v p := by
  generalize hseg : segments payload = segs
  constructor
  · intro h
    rw [parse, hseg] at h
    obtain ⟨_,hver,h⟩ := bind_ok.mp h
    obtain ⟨_,hstep,h⟩ := bind_ok.mp h
    obtain ⟨block,hblock,h⟩ := bind_ok.mp h
    obtain ⟨head,hhead,h⟩ := bind_ok.mp h
    obtain ⟨lib,hlib,h⟩ := bind_ok.mp h
    obtain ⟨_,hfinal,h⟩ := bind_ok.mp h
    obtain ⟨n,hn,h⟩ := bind_ok.mp h
    obtain rfl := pure_ok.mp h
    have hn := context_ok.mp hn
    obtain ⟨hdec,-⟩ := Option.filter_eq_some_iff.mp hn
    obtain ⟨hlb,hle,hsame⟩ := ensure_ok.mp hfinal
    obtain ⟨htext,hn⟩ := step_text (ensure_ok.mp hstep) hdec
    obtain ⟨hbv,hbf⟩ := reference_ok.mp hblock
    rcases ensure_ok.mp hver with ⟨hc | hc,hlen⟩ | ⟨hc,hlen⟩
    · rw [headReference, if_pos hc] at hhead
      obtain rfl := Except.ok.inj hhead
      rw [libReference, if_neg (by rw [hc]; decide), if_pos hc] at hlib
      obtain ⟨hlv,hlf⟩ := reference_ok.mp hlib
      refine ⟨⟨hn,hbv,hbv,hlb,hle,fun _ => rfl⟩,.c1,fun _ => rfl,?_⟩
      rw [parts, Version.references, ← hbf, ← hlf, ← htext, Version.text, ← hc]
      exact six_segments hlen
    · rw [libReference, if_pos hc] at hlib
      rw [headReference, if_neg (by rw [hc]; decide)] at hhead
      obtain ⟨hhv,hhf⟩ := reference_ok.mp hhead
      refine ⟨⟨hn,hbv,hhv,hlb,hle,fun he => hsame.resolve_left (not_not.mpr he)⟩,.c2,
        nofun,?_⟩
      rw [parts, Version.references, ← hbf, ← hhf, ← htext, Version.text, ← hc]
      exact six_segments hlen
    · rw [libReference, if_neg (by rw [hc]; decide), if_neg (by rw [hc]; decide)] at hlib
      rw [headReference, if_neg (by rw [hc]; decide)] at hhead
      obtain ⟨hhv,hhf⟩ := reference_ok.mp hhead
      obtain ⟨hlv,hlf⟩ := reference_ok.mp hlib
      refine ⟨⟨hn,hbv,hhv,hlb,hle,fun he => hsame.resolve_left (not_not.mpr he)⟩,.c3,
        nofun,?_⟩
      rw [parts, Version.references, ← hbf, ← hhf, ← hlf, ← htext, Version.text, ← hc]
      exact eight_segments hlen
  · rintro ⟨hv,v,hfits,rfl⟩
    have hstep : ∃ text, toString p.step = text ∧ (text = "1" ∨ text = "16" ∨ text = "17") := by
      rcases hv.step with h | h | h <;> rw [h] <;> exact ⟨_,rfl,by decide⟩
    obtain ⟨text,htext,hin⟩ := hstep
    have hdec : (Json.decimal text).filter (· < 2^8) = some p.step := by
      rw [← htext, Json.decimal_toString, Option.filter_some, if_pos]
      rcases hv.step with h | h | h <;> rw [h] <;> decide
    have hblock : reference (parts v p) 2 = .ok p.block := by
      exact reference_ok.mpr ⟨hv.block,by cases v <;> rfl⟩
    have hhead : headReference (parts v p) p.block = .ok p.head := by
      cases v with
      | c1 => rw [hfits rfl]; rfl
      | c2 => exact reference_ok.mpr ⟨hv.head,rfl⟩
      | c3 => exact reference_ok.mpr ⟨hv.head,rfl⟩
    have hlib : libReference (parts v p) p.block = .ok p.lib := by
      cases v with
      | c1 => exact reference_ok.mpr ⟨hv.final ▸ hv.block,rfl⟩
      | c2 => rw [hv.final]; rfl
      | c3 => exact reference_ok.mpr ⟨hv.final ▸ hv.block,rfl⟩
    rw [parse, hseg]
    refine bind_ok.mpr ⟨(),ensure_ok.mpr ?_,bind_ok.mpr ⟨(),ensure_ok.mpr ?_,
      bind_ok.mpr ⟨p.block,hblock,bind_ok.mpr ⟨p.head,hhead,bind_ok.mpr ⟨p.lib,hlib,
      bind_ok.mpr ⟨(),ensure_ok.mpr ⟨hv.final,hv.order,?_⟩,
      bind_ok.mpr ⟨p.step,context_ok.mpr ?_,rfl⟩⟩⟩⟩⟩⟩⟩
    · cases v with
      | c1 => exact .inl ⟨.inl rfl,rfl⟩
      | c2 => exact .inl ⟨.inr rfl,rfl⟩
      | c3 => exact .inr ⟨rfl,rfl⟩
    · show toString p.step = "1" ∨ toString p.step = "16" ∨ toString p.step = "17"
      rwa [htext]
    · by_cases hne : p.head.number = p.block.number
      · exact .inr (hv.same hne)
      · exact .inl hne
    · show (Json.decimal (toString p.step)).filter (· < 2^8) = some p.step
      rwa [htext]

def IsPart (text : String) : Prop := text.toList.length ≤ 64 ∧ ∀ c ∈ text.toList, c.isAlphanum = true

theorem toString_isPart {n : ℕ} (h : n < 2^64) : IsPart (toString n) := by
  have htext : (toString n).toList = Nat.toDigits 10 n := by
    simp
  refine ⟨?_,fun c hc => ?_⟩
  · rw [htext, Nat.length_toDigits_le_iff (by omega) (by omega)]
    omega
  · rw [htext] at hc
    exact digit_alphanum (Nat.isDigit_of_mem_toDigits (by omega) (by omega) hc)

theorem fields_isPart {r : BlockRef} (h : r.Valid) : ∀ text ∈ r.fields, IsPart text := by
  obtain ⟨digits,hd,hlen,hlower⟩ := h.hash
  have hdrop : r.hash.toList.drop 2 = digits := by
    rw [hd]
    simp
  simp only [BlockRef.fields, hdrop, List.mem_cons, List.not_mem_nil, or_false, forall_eq_or_imp,
    forall_eq]
  refine ⟨toString_isPart h.number,?_,?_⟩
  · rw [String.toList_ofList]
    exact hlen.le
  · rw [String.toList_ofList]
    exact fun c hc => lower_alphanum (hlower c hc)

theorem parts_isPart {v : Version} {p : Position} (h : p.Valid) :
    (parts v p).length ≤ 8 ∧ ∀ text ∈ parts v p, IsPart text := by
  have hversion : IsPart v.text := by
    cases v <;> simp [IsPart, Version.text]
  have hstep : p.step < 2^64 := by
    rcases h.step with h | h | h <;> rw [h] <;> norm_num
  have hlib : ∀ text ∈ p.lib.fields, IsPart text := fields_isPart (h.final ▸ h.block)
  have hrefs : ∀ text ∈ v.references p, IsPart text := by
    cases v with
    | c1 => exact hlib
    | c2 => exact fields_isPart h.head
    | c3 => exact List.forall_mem_append.mpr ⟨fields_isPart h.head,hlib⟩
  refine ⟨by cases v <;> simp [parts, Version.references, BlockRef.fields],?_⟩
  exact List.forall_mem_cons.mpr ⟨hversion,List.forall_mem_cons.mpr ⟨toString_isPart hstep,
    List.forall_mem_append.mpr ⟨fields_isPart h.block,hrefs⟩⟩⟩

theorem segments_render {v : Version} {p : Position} (h : p.Valid) :
    segments (render v p) = parts v p := by
  have hcolon : ∀ l ∈ (parts v p).map String.toList, ':' ∉ l := by
    rintro l hl hc
    obtain ⟨text,ht,rfl⟩ := List.mem_map.mp hl
    have := ((parts_isPart h).2 text ht).2 ':' hc
    exact absurd this (by decide)
  rw [segments, render, String.toList_ofList, List.splitOn_intercalate ':' hcolon (by simp [parts]),
    List.map_map]
  simp

theorem render_of_segments {payload : String} {v : Version} {p : Position}
    (h : segments payload = parts v p) : payload = render v p := by
  rw [render, ← h, segments, List.map_map]
  have hid : String.toList ∘ String.ofList = id := by
    funext l
    simp
  rw [hid, List.map_id, List.intercalate_splitOn, String.ofList_toList]

theorem parse_ok {payload : String} {p : Position} :
    parse payload = .ok p ↔ p.Valid ∧ ∃ v : Version, v.Fits p ∧ payload = render v p := by
  rw [parse_segments]
  constructor
  · rintro ⟨hv,v,hf,hs⟩
    exact ⟨hv,v,hf,render_of_segments hs⟩
  · rintro ⟨hv,v,hf,rfl⟩
    exact ⟨hv,v,hf,segments_render hv⟩

theorem intercalate_length {l : List (List Char)} {n : ℕ} (h : ∀ a ∈ l, a.length ≤ n) :
    ([':'].intercalate l).length ≤ l.length*(n+1) := by
  induction l with
  | nil => simp
  | cons a l ih =>
    have ha := h a List.mem_cons_self
    have hl := ih (fun b hb => h b (List.mem_cons_of_mem _ hb))
    cases l with
    | nil =>
      simp only [List.intercalate_singleton, List.length_cons, List.length_nil]
      omega
    | cons b l =>
      simp only [List.intercalate_cons_cons, List.length_append, List.length_cons,
        List.length_nil] at hl ⊢
      nlinarith

theorem mem_intercalate {l : List (List Char)} {c : Char} (h : c ∈ [':'].intercalate l) :
    c = ':' ∨ ∃ a ∈ l, c ∈ a := by
  induction l with
  | nil => cases h
  | cons a l ih =>
    cases l with
    | nil => exact .inr ⟨a,by simp,by simpa using h⟩
    | cons b l =>
      simp only [List.intercalate_cons_cons, List.mem_append, List.mem_singleton] at h
      rcases h with (h | h) | h
      · exact .inr ⟨a,by simp,h⟩
      · exact .inl h
      · exact (ih h).imp_right (fun ⟨d,hd,hc⟩ => ⟨d,List.mem_cons_of_mem _ hd,hc⟩)

theorem render_size {v : Version} {p : Position} (h : p.Valid) :
    (render v p).utf8ByteSize ≤ 520 := by
  obtain ⟨hlen,hparts⟩ := parts_isPart (v := v) h
  have hsize : ∀ c ∈ [':'].intercalate ((parts v p).map String.toList), c.utf8Size = 1 := by
    intro c hc
    rcases mem_intercalate hc with rfl | ⟨a,ha,hc⟩
    · decide
    · obtain ⟨text,ht,rfl⟩ := List.mem_map.mp ha
      exact alphanum_size ((hparts text ht).2 c hc)
  have hle := @intercalate_length ((parts v p).map String.toList) 64 (fun a ha => by
    obtain ⟨text,ht,rfl⟩ := List.mem_map.mp ha
    exact (hparts text ht).1)
  rw [render, utf8ByteSize_ascii hsize]
  rw [List.length_map] at hle
  omega

section Tokens
variable {cipher : Cipher}

theorem symbol_token : ∀ n < 64, isTokenChar (Base64.symbol n) = true ∧ Base64.symbol n ≠ '=' := by
  decide

theorem rdropWhile_replicate {l : List Char} (h : ∀ c ∈ l, c ≠ '=') (k : ℕ) :
    (l ++ List.replicate k '=').rdropWhile (· = '=') = l := by
  induction k with
  | zero =>
    rw [List.replicate_zero, List.append_nil, List.rdropWhile_eq_self_iff]
    intro hl
    simpa using h _ (List.getLast_mem hl)
  | succ k ih =>
    rw [List.replicate_succ', ← List.append_assoc, List.rdropWhile_concat_pos _ _ _ (by simp), ih]

theorem payload_encodePublic (hc : cipher.Lawful) {text : String} (h : text.utf8ByteSize ≤ 1500) :
    ∃ token, encodePublic cipher text = .ok token ∧ payload cipher token = .ok text := by
  obtain ⟨b,hb,hlen⟩ := hc.total (utf8 text) (by rw [utf8_length]; omega)
  rw [utf8_length] at hlen
  obtain ⟨l,k,hshape,hk,hsym,hne⟩ := Base64.encode_shape b
  have hchar : ∀ c ∈ l, isTokenChar c = true ∧ c ≠ '=' := by
    intro c hm
    obtain ⟨n,hn,rfl⟩ := hsym c hm
    exact symbol_token n hn
  have hbare : bare (String.ofList (Base64.encode b)) = l := by
    rw [bare, String.toList_ofList, hshape]
    exact rdropWhile_replicate (fun c hm => (hchar c hm).2) k
  have hl : l ≠ [] := hne (by rintro rfl; simp at hlen)
  refine ⟨String.ofList (Base64.encode b),bind_ok.mpr ⟨b,context_ok.mpr hb,rfl⟩,?_⟩
  refine bind_ok.mpr ⟨(),ensure_ok.mpr ⟨?_,?_⟩,bind_ok.mpr ⟨(),ensure_ok.mpr ⟨?_,?_,?_⟩,
    bind_ok.mpr ⟨b,context_ok.mpr ?_,bind_ok.mpr ⟨utf8 text,context_ok.mpr ((hc.inverse _ _).mp hb),
    context_ok.mpr (ofUtf8_utf8 text)⟩⟩⟩⟩
  · intro he
    have hnil := congrArg String.toList he
    rw [String.toList_ofList, hshape] at hnil
    exact hl (List.append_eq_nil_iff.mp hnil).1
  · rw [utf8ByteSize_ascii (fun _ => Base64.encode_ascii), Base64.encode_length]
    omega
  · rw [hbare, ← String.length_toList, String.toList_ofList, hshape, List.length_append,
      List.length_replicate]
    omega
  · rwa [hbare]
  · rw [hbare, List.all_eq_true]
    exact fun c hm => (hchar c hm).1
  · rw [String.toList_ofList]
    exact Base64.decode_encode b

theorem decode_ok {token : String} {p : Position} :
    decode cipher token = .ok p ↔ ∃ text, payload cipher token = .ok text ∧ parse text = .ok p :=
  bind_ok

/-- The payload of a token is what its text deciphers to. -/
theorem payload_ok {token text : String} (h : payload cipher token = .ok text) :
    ∃ encoded, Base64.decode token.toList = some encoded ∧
      cipher.decrypt encoded = some (utf8 text) := by
  obtain ⟨_,-,h⟩ := bind_ok.mp h
  obtain ⟨_,-,h⟩ := bind_ok.mp h
  obtain ⟨encoded,he,h⟩ := bind_ok.mp h
  obtain ⟨bytes,hb,h⟩ := bind_ok.mp h
  rw [utf8_of_ofUtf8 (context_ok.mp h)]
  exact ⟨encoded,context_ok.mp he,context_ok.mp hb⟩

end Tokens

/-- The cursor codec: every position is read back from its renderings, and a
token that is accepted holds the rendering of what it decodes to. -/
theorem cursor_codec (cipher : Cipher) (hc : cipher.Lawful) :
    (∀ p : Position, p.Valid → ∀ v : Version, v.Fits p →
      ∃ token, encodePublic cipher (render v p) = .ok token ∧ decode cipher token = .ok p) ∧
    (∀ token p, decode cipher token = .ok p → p.Valid ∧ ∃ (v : Version) (encoded : Bytes), v.Fits p ∧
      Base64.decode token.toList = some encoded ∧ cipher.decrypt encoded = some (utf8 (render v p)) ∧
      (segments (render v p)).getD 0 "" = v.text) ∧
    (∀ first second token token' p, payload cipher token = .ok first →
      payload cipher token' = .ok second → decode cipher token = .ok p →
      decode cipher token' = .ok p → (segments first).getD 0 "" = (segments second).getD 0 "" →
      first = second) := by
  refine ⟨fun p hp v hf => ?_,fun token p h => ?_,?_⟩
  · obtain ⟨token,he,hd⟩ := payload_encodePublic hc ((render_size (v := v) hp).trans (by omega))
    exact ⟨token,he,decode_ok.mpr ⟨_,hd,parse_ok.mpr ⟨hp,v,hf,rfl⟩⟩⟩
  · obtain ⟨text,ht,hparse⟩ := decode_ok.mp h
    obtain ⟨hp,v,hf,rfl⟩ := parse_ok.mp hparse
    obtain ⟨encoded,he,hd⟩ := payload_ok ht
    exact ⟨hp,v,encoded,hf,he,hd,by rw [segments_render hp]; rfl⟩
  · intro first second token token' p hfirst hsecond h h' hv
    obtain ⟨text,ht,hparse⟩ := decode_ok.mp h
    obtain ⟨text',ht',hparse'⟩ := decode_ok.mp h'
    obtain rfl := Except.ok.inj (ht.symm.trans hfirst)
    obtain rfl := Except.ok.inj (ht'.symm.trans hsecond)
    obtain ⟨hp,v,-,rfl⟩ := parse_ok.mp hparse
    obtain ⟨-,w,-,rfl⟩ := parse_ok.mp hparse'
    rw [segments_render hp, segments_render hp] at hv
    have htext : v.text = w.text := hv
    have hvw : v = w := by
      cases v <;> cases w <;> first | rfl | exact absurd htext (by decide)
    rw [hvw]

/-!
## A stream cipher

The bytes are combined with a key stream, under a tag of the message.
-/

def mix (key bytes : Bytes) : Bytes := bytes.zipIdx.map (fun e => e.1 ^^^ key.getD e.2 0)

theorem mix_mix (key bytes : Bytes) : mix key (mix key bytes) = bytes := by
  refine List.ext_getElem (by simp [mix]) (fun n h _ => ?_)
  simp [mix]

def stream (key : Bytes) (tag : Bytes → Bytes) : Cipher where
  encrypt a := some (tag a ++ mix key a)
  decrypt b := if tag (mix key (b.drop 16)) = b.take 16 then some (mix key (b.drop 16)) else none

theorem stream_lawful {key : Bytes} {tag : Bytes → Bytes} (h : ∀ a, (tag a).length = 16) :
    (stream key tag).Lawful := by
  refine ⟨fun a _ => ⟨_,rfl,?_⟩,fun a b => ?_⟩
  · rw [List.length_append, h, mix, List.length_map, List.length_zipIdx]
    omega
  · simp only [stream, Option.some.injEq]
    constructor
    · rintro rfl
      rw [List.drop_left' (h a), List.take_left' (h a), mix_mix, if_pos rfl]
    · intro hd
      split_ifs at hd with ht
      obtain rfl := Option.some.inj hd
      rw [ht, mix_mix, List.take_append_drop]

def sampleKey : Bytes :=
  [198,129,20,166,8,54,106,95,101,59,213,26,33,113,181,187,198,192,66,245,237,173,150,48,
   81,69,88,45,224,160,153,192,237,37,219,123,106,156,238,239,253,36,78,75,194,240,96,140,
   225,218,243,136,84,221,17,8,118,75,28,163,185,222,203,132,223,72,195,194,9,58,43,65,
   139,82,111,218,190,82,232,235,107,12,231,82,58,203,74,129,48,208,229,215,10,195,233,87,
   114,2,82,247,22,28,86,131,191,15,96,146,181,100,64,147,33,137,67,5,243,12,205,67,
   255,226,224,203,166,193,178,113,207,210,21,116,212,145,165,27,147,55,5,77,28,127]

/-- The tag of one payload; the others are not used. -/
def sampleTag (payload : Bytes) : Bytes :=
  if payload.take 12 = [99,49,58,49,58,49,48,48,58,48,48,48] then
    [18,179,109,162,142,179,192,145,156,46,190,111,158,149,167,146]
  else List.replicate 16 0

def sampleRef : BlockRef := ⟨100,"0x" ++ String.ofList (List.replicate 62 '0' ++ ['6','4'])⟩

theorem sampleRef_valid : sampleRef.Valid := ⟨by norm_num [sampleRef],_,rfl,by simp,by
  intro c hc
  rcases List.mem_append.mp hc with hc | hc
  · obtain rfl := List.eq_of_mem_replicate hc
    decide
  · simp only [List.mem_cons, List.not_mem_nil, or_false] at hc
    rcases hc with rfl | rfl <;> decide⟩

theorem sampleTag_length (payload : Bytes) : (sampleTag payload).length = 16 := by
  unfold sampleTag
  split_ifs
  · rfl
  · exact List.length_replicate

theorem cursor_codec_sample : ∃ token,
    encodePublic (stream sampleKey sampleTag) (render .c1 ⟨sampleRef,sampleRef,sampleRef,1⟩) =
      .ok token ∧
    decode (stream sampleKey sampleTag) token = .ok ⟨sampleRef,sampleRef,sampleRef,1⟩ :=
  (cursor_codec (stream sampleKey sampleTag) (stream_lawful sampleTag_length)).1
    ⟨sampleRef,sampleRef,sampleRef,1⟩
    ⟨.inl rfl,sampleRef_valid,sampleRef_valid,rfl,le_rfl,fun _ => rfl⟩ .c1 (fun _ => rfl)

end EvmState.Cursor
