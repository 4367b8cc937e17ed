import EvmState.Proof

/-!
# The encoded block header

A header is the RLP list of its fields in a fixed order. The optional fields
of later forks keep their positions; an omitted field before a present one is
empty. A summary repeats the parent hash, the state root, the number and the
timestamp, and is checked against the encoding.
-/

set_option autoImplicit false

namespace EvmState.Header
open EvmState.Hex EvmState.Fallible EvmState.Params EvmState.Encoding EvmState.Proof

/-- RPC name, fixed byte length and integer bit width of a field. -/
structure Field where
  name : String
  length : Option ℕ
  bits : Option ℕ
  deriving DecidableEq, Repr

def FIELDS : List Field :=
  [⟨"parentHash",some 32,none⟩,⟨"sha3Uncles",some 32,none⟩,⟨"miner",some 20,none⟩,
    ⟨"stateRoot",some 32,none⟩,⟨"transactionsRoot",some 32,none⟩,⟨"receiptsRoot",some 32,none⟩,
    ⟨"logsBloom",some 256,none⟩,⟨"difficulty",none,some 256⟩,⟨"number",none,some 64⟩,
    ⟨"gasLimit",none,some 64⟩,⟨"gasUsed",none,some 64⟩,⟨"timestamp",none,some 64⟩,
    ⟨"extraData",none,none⟩,⟨"mixHash",some 32,none⟩,⟨"nonce",some 8,none⟩,
    ⟨"baseFeePerGas",none,some 256⟩,⟨"withdrawalsRoot",some 32,none⟩,⟨"blobGasUsed",none,some 64⟩,
    ⟨"excessBlobGas",none,some 64⟩,⟨"parentBeaconBlockRoot",some 32,none⟩,
    ⟨"requestsHash",some 32,none⟩,⟨"balHash",some 32,none⟩,⟨"slotNumber",none,some 64⟩]

/-- The first fields are required, those from here on are optional. -/
def required : ℕ := 15

section Encode
variable (alloy : Alloy)

def lastField (header : Json) : ℕ :=
  ((FIELDS.zipIdx.filter (fun f => f.2 < required || header.index f.1.name ≠ .null)).map
    Prod.snd).max?.getD 0

def encodeField (header : Json) (f : Field × ℕ) : Except String Bytes :=
  if header.index f.1.name = .null then do
    ensure (required ≤ f.2) ("RPC header missing " ++ f.1.name)
    return Rlp.encode []
  else match f.1.bits with
    | some bits => do
      let text ← string header f.1.name
      let number ← quantity text bits
      return Rlp.encodeUint number
    | none => do
      let text ← string header f.1.name
      let bytes ← unhex text
      ensure (∀ n ∈ f.1.length, bytes.length = n) ("invalid header field length for " ++ f.1.name)
      return Rlp.encode bytes

def encodeRpcHeader (header : Json) : Except String String := do
  let fields ← (FIELDS.zipIdx.take (lastField header+1)).mapM (encodeField header)
  let encoded := rlpList fields
  let text ← string header "hash"
  let hash ← fixed 32 text
  ensure (alloy.keccak256 encoded = hash) "encoded RPC header does not match its block hash"
  return hex encoded

/-- The byte strings of a list payload, at most as many as there is room for. -/
def decodeFields : ℕ → Bytes → Except String (List Bytes)
  | _, [] => .ok []
  | room, payload => do
    let (field,rest) ← context (Rlp.decodeBytes payload false) "header field must be bytes"
    match room with
    | 0 => .error "unsupported header field count"
    | room+1 => do
      let fields ← decodeFields room rest
      return field::fields

def checkField (f : Field × ℕ) (value : Bytes) : Except String Unit := do
  ensure (∀ bits ∈ f.1.bits, value.head? ≠ some 0 ∧ value.length ≤ bits/8) "invalid header integer"
  ensure (∀ n ∈ f.1.length, value.length = n ∨ (required ≤ f.2 ∧ value = []))
    "invalid header field length"

/-- A condition of two parts: the second is evaluated when the first holds. -/
def both (a b : Except String Bool) : Except String Bool := do
  if ← a then b else return false

def summaryBytes (summary : Json) (name : String) (value : Option Bytes) : Except String Bool := do
  let text ← string summary name
  let bytes ← fixed 32 text
  return value = some bytes

def summaryNumber (summary : Json) (name : String) (value : Option Bytes) : Except String Bool := do
  let number ← context (summary.index name).asU64 ("invalid header " ++ name)
  return value.map Rlp.ofBytes = some number

def summaryMatches (fields : List Bytes) (summary : Json) : Except String Bool :=
  both (summaryBytes summary "parent_hash" fields[0]?)
    (both (summaryBytes summary "state_root" fields[3]?)
      (both (summaryNumber summary "number" fields[8]?)
        (summaryNumber summary "timestamp" fields[11]?)))

def headerFields (encoded : Bytes) : Except String (List Bytes) := do
  ensure (encoded.length ≤ 104448) "oversized block header"
  let (payload,rest) ← context (Rlp.decodeBytes encoded true) "invalid RLP block header"
  ensure (rest = []) "trailing bytes after RLP header"
  let fields ← decodeFields FIELDS.length payload
  ensure (required ≤ fields.length) "unsupported header field count"
  (FIELDS.zipIdx.zip fields).forM (fun e => checkField e.1 e.2)
  return fields

def expectHash (digest : Bytes) : Option String → Except String Unit
  | none => .ok ()
  | some expected => do
    let hash ← fixed 32 expected
    ensure (digest = hash) "encoded header differs from expected hash"

def verifyHeader (encodedHex : String) (summary : Json) (expectedHash : Option String) :
    Except String Bytes := do
  let encoded ← unhex encodedHex
  let fields ← headerFields encoded
  let digest := alloy.keccak256 encoded
  let text ← string summary "hash"
  let hash ← fixed 32 text
  ensure (digest = hash) "encoded header differs from checkpoint block hash"
  expectHash digest expectedHash
  let same ← summaryMatches fields summary
  ensure same "checkpoint metadata differs from encoded header"
  return digest

end Encode

section Sound
variable {alloy : Alloy}

/-- A summary whose fields are those of an encoding that hashes to its hash. -/
structure Encodes (alloy : Alloy) (encoded : Bytes) (summary : Json) : Prop where
  hash : ∃ text, string summary "hash" = .ok text ∧ fixed 32 text = .ok (alloy.keccak256 encoded)
  fields : ∃ fields, headerFields encoded = .ok fields ∧
    (∃ text parent, string summary "parent_hash" = .ok text ∧ fixed 32 text = .ok parent ∧
      fields[0]? = some parent) ∧
    (∃ text root, string summary "state_root" = .ok text ∧ fixed 32 text = .ok root ∧
      fields[3]? = some root) ∧
    (∃ n, (summary.index "number").asU64 = some n ∧ fields[8]?.map Rlp.ofBytes = some n) ∧
    (∃ n, (summary.index "timestamp").asU64 = some n ∧ fields[11]?.map Rlp.ofBytes = some n)

theorem both_ok {a b : Except String Bool} :
    both a b = .ok true ↔ a = .ok true ∧ b = .ok true := by
  cases a with
  | error e => simp [both, bind, Except.bind]
  | ok c => cases c <;> simp [both, bind, Except.bind, pure, Except.pure]

theorem summaryBytes_ok {summary : Json} {name : String} {value : Option Bytes} :
    summaryBytes summary name value = .ok true ↔
      ∃ text bytes, string summary name = .ok text ∧ fixed 32 text = .ok bytes ∧
        value = some bytes := by
  simp only [summaryBytes, bind_ok, pure_ok, decide_eq_true_eq]
  constructor
  · rintro ⟨text,ht,bytes,hb,hv⟩
    exact ⟨text,bytes,ht,hb,hv⟩
  · rintro ⟨text,bytes,ht,hb,hv⟩
    exact ⟨text,ht,bytes,hb,hv⟩

theorem summaryNumber_ok {summary : Json} {name : String} {value : Option Bytes} :
    summaryNumber summary name value = .ok true ↔
      ∃ n, (summary.index name).asU64 = some n ∧ value.map Rlp.ofBytes = some n := by
  simp only [summaryNumber, bind_ok, context_ok, pure_ok, decide_eq_true_eq]

theorem expectHash_ok {digest : Bytes} {expected : Option String} :
    expectHash digest expected = .ok () ↔ ∀ e ∈ expected, fixed 32 e = .ok digest := by
  cases expected with
  | none => simp [expectHash]
  | some e =>
    simp only [expectHash, bind_ok, ensure_ok, Option.mem_def, Option.some.injEq, forall_eq']
    constructor
    · rintro ⟨hash,hh,rfl⟩
      exact hh
    · intro h
      exact ⟨digest,h,rfl⟩

theorem verifyHeader_ok {text : String} {summary : Json} {expected : Option String}
    {digest : Bytes} :
    verifyHeader alloy text summary expected = .ok digest ↔
      ∃ encoded, unhex text = .ok encoded ∧ digest = alloy.keccak256 encoded ∧
        Encodes alloy encoded summary ∧ ∀ e ∈ expected, fixed 32 e = .ok digest := by
  simp only [verifyHeader, bind_ok, ensure_ok, pure_ok, summaryMatches]
  constructor
  · rintro ⟨encoded,hu,fields,hf,hash,hh,bytes,hb,_,rfl,_,he,same,hs,_,rfl,rfl⟩
    obtain ⟨hparent,hs⟩ := both_ok.mp hs
    obtain ⟨hroot,hs⟩ := both_ok.mp hs
    obtain ⟨hnumber,htime⟩ := both_ok.mp hs
    exact ⟨encoded,hu,rfl,⟨⟨hash,hh,hb⟩,fields,hf,summaryBytes_ok.mp hparent,
      summaryBytes_ok.mp hroot,summaryNumber_ok.mp hnumber,summaryNumber_ok.mp htime⟩,
      expectHash_ok.mp he⟩
  · rintro ⟨encoded,hu,rfl,⟨⟨hash,hh,hb⟩,fields,hf,hparent,hroot,hnumber,htime⟩,he⟩
    have hs := both_ok.mpr ⟨summaryBytes_ok.mpr hparent,both_ok.mpr ⟨summaryBytes_ok.mpr hroot,
      both_ok.mpr ⟨summaryNumber_ok.mpr hnumber,summaryNumber_ok.mpr htime⟩⟩⟩
    exact ⟨encoded,hu,fields,hf,hash,hh,_,hb,(),rfl,(),expectHash_ok.mpr he,true,hs,(),rfl,rfl⟩

end Sound
end EvmState.Header
