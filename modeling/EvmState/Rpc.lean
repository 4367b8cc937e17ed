import EvmState.Header

/-!
# Capturing proofs from an untrusted node

A capture asks a node for a finalized header, the proofs and the code of the
selected accounts at that block, and the header again. Each answer may be
anything. What ends up in the bundle has been checked against the header's
own hash and state root.
-/

set_option autoImplicit false

namespace EvmState.Rpc
open EvmState.Hex EvmState.Fallible EvmState.OrderedMap EvmState.Params EvmState.Encoding
open EvmState.Proof EvmState.Header

inductive Reply where
  | unreachable
  | status (code : ℕ)
  | malformed
  | body (response : Json)

def Reply.result (method : String) : Reply → Except String Json
  | .unreachable => .error ("RPC " ++ method ++ " transport failed")
  | .status code => .error ("RPC " ++ method ++ " failed (HTTP " ++ toString code ++ ")")
  | .malformed => .error "invalid RPC JSON response"
  | .body response => do
    ensure (response.get? "error" = none ∧ response.index "result" ≠ .null)
      ("RPC " ++ method ++ " returned an error or null result")
    return response.index "result"

/-- The replies that are still to come and the requests made so far. -/
structure Node where
  replies : List Reply
  requests : List (String × Json)

def call (node : Node) (method : String) (params : List Json) : Except String (Json × Node) := do
  let result ← (node.replies.headD .unreachable).result method
  return (result,⟨node.replies.tail,node.requests ++ [(method,.arr params)]⟩)

def hexQuantity (n : ℕ) : Json := .str ("0x" ++ String.ofList (Nat.toDigits 16 n))

section Capture
variable (alloy : Alloy)

def requestedHeader (node : Node) (finalized : Json) : Option ℕ → Except String (Json × Node)
  | some block => call node "eth_getBlockByNumber" [hexQuantity block,.bool false]
  | none => .ok (finalized,node)

def finalizedHeader (node : Node) (block : Option ℕ) : Except String (Json × Node) := do
  let (finalized,node) ← call node "eth_getBlockByNumber" [.str "finalized",.bool false]
  let (header,node) ← requestedHeader node finalized block
  let text ← string header "number"
  let number ← quantity text 64
  ensure (∀ requested ∈ block, requested = number)
    "RPC returned a different block number than requested"
  let text ← string finalized "number"
  let last ← quantity text 64
  ensure (number ≤ last) "checkpoint block is not finalized"
  let _ ← encodeRpcHeader alloy header
  return (header,node)

def checkExpected (header : Json) : Option String → Except String Unit
  | none => .ok ()
  | some hash => do
    let expected ← fixed 32 hash
    let text ← string header "hash"
    let actual ← fixed 32 text
    ensure (expected = actual) "RPC header differs from the expected block hash"

def summary (header : Json) (number : ℕ) : Except String Json := do
  let hash ← string header "hash"
  let parentHash ← string header "parentHash"
  let stateRoot ← string header "stateRoot"
  let text ← string header "timestamp"
  let timestamp ← quantity text 64
  return .ofPairs [("number",.ofNat number),("hash",.str (lower hash)),
    ("parent_hash",.str (lower parentHash)),("state_root",.str (lower stateRoot)),
    ("timestamp",.ofNat timestamp)]

def headerTrust (expectedHash : Option String) : String :=
  if expectedHash.isSome then "operator-pinned-hash" else "provider-finalized-header"

def assemble (chain : ℕ) (summary : Json) (expectedHash : Option String)
    (entries : List (String × Json)) (encoded : String) : Json :=
  .ofPairs [("format_version",.ofNat 1),("chain_id",.ofNat chain),("header",summary),
    ("header_trust",.str (headerTrust expectedHash)),("accounts",.ofPairs entries),
    ("header_rlp",.str encoded)]

def captureAccount (header : Json) (number : ℕ) (node : Node) (account : String) :
    Except String (Json × Node) := do
  let (proof,node) ← call node "eth_getProof" [.str account,.arr [],hexQuantity number]
  let stateRoot ← string header "stateRoot"
  let proven ← verifyAccount alloy stateRoot account proof
  let (code,node) ← call node "eth_getCode" [.str account,hexQuantity number]
  let code ← context code.asStr "invalid RPC bytecode"
  let bytes ← unhex code
  ensure (alloy.keccak256 bytes = proven.codeHash) "RPC bytecode differs from the proven code hash"
  return (.ofPairs [("proof",proof),("code",.str (lower code))],node)

def captureAccounts (header : Json) (number : ℕ) : Node → List String →
    Except String (List (String × Json) × Node)
  | node, [] => .ok ([],node)
  | node, account::accounts => do
    let (evidence,node) ← captureAccount alloy header number node account
    let (entries,node) ← captureAccounts header number node accounts
    return ((account,evidence)::entries,node)

def checkUnchanged (header : Json) (number : ℕ) (after : Json) : Except String Unit := do
  let text ← string after "number"
  let again ← quantity text 64
  ensure (again = number) "checkpoint header changed during proof capture"
  let hash ← string after "hash"
  let expected ← string header "hash"
  ensure (lower hash = lower expected) "checkpoint header changed during proof capture"

def selectedAccounts (accounts : List String) : Except String (List String) := do
  let accounts ← accounts.mapM address
  let selected := (SortedMap.empty.insertAll (accounts.map (fun a => (a,())))).keys
  ensure (selected ≠ []) "at least one account is required"
  return selected

def capture (node : Node) (accounts : List String) (block : Option ℕ)
    (expectedHash : Option String) : Except String (Json × Node) := do
  let accounts ← selectedAccounts accounts
  let (header,node) ← finalizedHeader alloy node block
  let text ← string header "number"
  let number ← quantity text 64
  checkExpected header expectedHash
  let (chain,node) ← call node "eth_chainId" []
  let chain ← context chain.asStr "invalid chain ID"
  let chain ← quantity chain 256
  let summary ← summary header number
  let encoded ← encodeRpcHeader alloy header
  let _ ← verifyHeader alloy encoded summary expectedHash
  let (entries,node) ← captureAccounts alloy header number node accounts
  let (after,node) ← call node "eth_getBlockByNumber" [hexQuantity number,.bool false]
  checkUnchanged header number after
  return (assemble chain summary expectedHash entries encoded,node)

end Capture

section Sound
variable {alloy : Alloy}

theorem verifyAccount_congr {root root' selected : String} {proof : Json}
    (h : fixed 32 root = fixed 32 root') :
    verifyAccount alloy root selected proof = verifyAccount alloy root' selected proof := by
  rw [verifyAccount, verifyAccount, h]

/-- The evidence of one account: a proof under the state root that the node
reported, and the code of the proven code hash. -/
structure Evidence (alloy : Alloy) (stateRoot account : String) (evidence : Json) : Prop where
  holds : ∃ (root : Bytes) (nodes : List Bytes) (proven : Account) (code : String) (bytes : Bytes),
    fixed 32 stateRoot = .ok root ∧ proofNodes (evidence.index "proof") = .ok nodes ∧
    verifyAccount alloy stateRoot account (evidence.index "proof") = .ok proven ∧
    proven.address = account ∧ Opens alloy root nodes proven ∧
    string evidence "code" = .ok code ∧ unhex code = .ok bytes ∧
    alloy.keccak256 bytes = proven.codeHash

theorem captureAccount_ok {header evidence : Json} {number : ℕ} {node node' : Node}
    {account stateRoot : String} (hr : string header "stateRoot" = .ok stateRoot)
    (ha : address account = .ok account)
    (h : captureAccount alloy header number node account = .ok (evidence,node')) :
    Evidence alloy (lower stateRoot) account evidence := by
  obtain ⟨⟨proof,_⟩,-,h⟩ := bind_ok.mp h
  obtain ⟨text,ht,h⟩ := bind_ok.mp h
  obtain rfl := Except.ok.inj (ht.symm.trans hr)
  obtain ⟨proven,hproven,h⟩ := bind_ok.mp h
  obtain ⟨⟨answer,_⟩,-,h⟩ := bind_ok.mp h
  obtain ⟨code,-,h⟩ := bind_ok.mp h
  obtain ⟨bytes,hbytes,h⟩ := bind_ok.mp h
  obtain ⟨_,hcode,h⟩ := bind_ok.mp h
  obtain ⟨rfl,-⟩ := Prod.mk.inj (pure_ok.mp h)
  obtain ⟨root,nodes,hroot,hnodes,hname,hopens⟩ := verifyAccount_ok hproven
  have hlower := fixed_lower hroot
  have hname := Except.ok.inj (hname.symm.trans ha)
  have hproof : (Json.ofPairs [("proof",proof),("code",.str (lower code))]).index "proof" = proof :=
    Json.index_ofPairs (by simp) _
  have htext : string (.ofPairs [("proof",proof),("code",.str (lower code))]) "code" =
      .ok (lower code) := by
    rw [string, Json.get?_ofPairs (by simp)]
    rfl
  refine ⟨root,nodes,proven,lower code,bytes,hlower,?_,?_,hname,hopens,htext,unhex_lower hbytes,
    ensure_ok.mp hcode⟩
  · rw [hproof]
    exact hnodes
  · rw [hproof, verifyAccount_congr (hlower.trans hroot.symm)]
    exact hproven

theorem captureAccounts_ok {header : Json} {number : ℕ} {node node' : Node} {stateRoot : String}
    {accounts : List String} {entries : List (String × Json)}
    (hr : string header "stateRoot" = .ok stateRoot)
    (ha : ∀ a ∈ accounts, address a = .ok a)
    (h : captureAccounts alloy header number node accounts = .ok (entries,node')) :
    entries.map Prod.fst = accounts ∧
      ∀ e ∈ entries, Evidence alloy (lower stateRoot) e.1 e.2 := by
  induction accounts generalizing node node' entries with
  | nil =>
    obtain ⟨rfl,-⟩ := Prod.mk.inj (Except.ok.inj h)
    simp
  | cons account accounts ih =>
    obtain ⟨⟨evidence,mid⟩,he,h⟩ := bind_ok.mp h
    obtain ⟨⟨rest,last⟩,hl,h⟩ := bind_ok.mp h
    obtain ⟨rfl,-⟩ := Prod.mk.inj (pure_ok.mp h)
    obtain ⟨hkeys,hall⟩ := ih (fun a hm => ha a (List.mem_cons_of_mem _ hm)) hl
    refine ⟨by rw [List.map_cons, hkeys],?_⟩
    intro e hm
    rcases List.mem_cons.mp hm with rfl | hm
    · exact captureAccount_ok hr (ha _ (by simp)) he
    · exact hall e hm

theorem selectedAccounts_ok {accounts selected : List String}
    (h : selectedAccounts accounts = .ok selected) : accountSet accounts = .ok selected := by
  obtain ⟨l,hl,h⟩ := bind_ok.mp h
  obtain ⟨_,hne,h⟩ := bind_ok.mp h
  obtain rfl := pure_ok.mp h
  exact bind_ok.mpr ⟨l,hl,bind_ok.mpr ⟨(),ensure_ok.mpr (ensure_ok.mp hne),rfl⟩⟩

theorem canonical_address {accounts : List String} (h : Canonical accounts) {a : String}
    (ha : a ∈ accounts) : address a = .ok a := by
  obtain ⟨b,hb,rfl⟩ := h.address a ha
  exact address_hex hb

/-- The first reply is a finalized block at or above the header. -/
structure Finalized (replies : List Reply) (number : ℕ) : Prop where
  reported : ∃ (reply : Reply) (rest : List Reply) (finalized : Json) (text : String) (last : ℕ),
    replies = reply::rest ∧ reply.result "eth_getBlockByNumber" = .ok finalized ∧
    string finalized "number" = .ok text ∧ quantity text 64 = .ok last ∧ number ≤ last

theorem call_ok {node node' : Node} {method : String} {params : List Json} {result : Json}
    (h : call node method params = .ok (result,node')) :
    ∃ reply rest, node.replies = reply::rest ∧ reply.result method = .ok result := by
  obtain ⟨r,hr,h⟩ := bind_ok.mp h
  obtain ⟨rfl,-⟩ := Prod.mk.inj (pure_ok.mp h)
  cases hl : node.replies with
  | nil => simp [hl, Reply.result] at hr
  | cons reply rest =>
    rw [hl] at hr
    exact ⟨reply,rest,rfl,hr⟩

theorem finalizedHeader_ok {node node' : Node} {block : Option ℕ} {header : Json}
    (h : finalizedHeader alloy node block = .ok (header,node')) :
    ∃ text number, string header "number" = .ok text ∧ quantity text 64 = .ok number ∧
      (∀ requested ∈ block, requested = number) ∧ Finalized node.replies number := by
  obtain ⟨⟨finalized,mid⟩,hfinalized,h⟩ := bind_ok.mp h
  obtain ⟨⟨found,last⟩,-,h⟩ := bind_ok.mp h
  obtain ⟨text,ht,h⟩ := bind_ok.mp h
  obtain ⟨number,hn,h⟩ := bind_ok.mp h
  obtain ⟨_,hrequested,h⟩ := bind_ok.mp h
  obtain ⟨limitText,hlimit,h⟩ := bind_ok.mp h
  obtain ⟨limit,hq,h⟩ := bind_ok.mp h
  obtain ⟨_,hle,h⟩ := bind_ok.mp h
  obtain ⟨_,-,h⟩ := bind_ok.mp h
  obtain ⟨rfl,-⟩ := Prod.mk.inj (pure_ok.mp h)
  obtain ⟨reply,rest,hreplies,hresult⟩ := call_ok hfinalized
  exact ⟨text,number,ht,hn,ensure_ok.mp hrequested,reply,rest,finalized,limitText,limit,hreplies,
    hresult,hlimit,hq,ensure_ok.mp hle⟩

theorem summary_ok {header s : Json} {number : ℕ} (h : summary header number = .ok s) :
    ∃ stateRoot, string header "stateRoot" = .ok stateRoot ∧
      s.index "number" = .ofNat number ∧ string s "state_root" = .ok (lower stateRoot) := by
  obtain ⟨hash,-,h⟩ := bind_ok.mp h
  obtain ⟨parent,-,h⟩ := bind_ok.mp h
  obtain ⟨root,hroot,h⟩ := bind_ok.mp h
  obtain ⟨text,-,h⟩ := bind_ok.mp h
  obtain ⟨time,-,h⟩ := bind_ok.mp h
  obtain rfl := pure_ok.mp h
  refine ⟨root,hroot,Json.index_ofPairs (by simp) _,?_⟩
  rw [string, Json.get?_ofPairs (by simp)]
  rfl

theorem encodeRpcHeader_hex {header : Json} {text : String}
    (h : encodeRpcHeader alloy header = .ok text) : ∃ encoded, text = hex encoded := by
  obtain ⟨fields,-,h⟩ := bind_ok.mp h
  obtain ⟨_,-,h⟩ := bind_ok.mp h
  obtain ⟨_,-,h⟩ := bind_ok.mp h
  obtain ⟨_,-,h⟩ := bind_ok.mp h
  exact ⟨_,(pure_ok.mp h).symm⟩

/-- What a captured bundle contains, for the selected accounts. -/
structure Captured (alloy : Alloy) (replies : List Reply) (selected : List String)
    (block : Option ℕ) (expected : Option String) (bundle : Json) : Prop where
  number : ∃ number, (bundle.index "header").index "number" = .ofNat number ∧
    (∀ requested ∈ block, requested = number) ∧ Finalized replies number
  header : ∃ encoded digest, string bundle "header_rlp" = .ok (hex encoded) ∧
    digest = alloy.keccak256 encoded ∧ Encodes alloy encoded (bundle.index "header") ∧
    (∀ pinned ∈ expected, fixed 32 pinned = .ok digest) ∧
    verifyHeader alloy (hex encoded) (bundle.index "header") expected = .ok digest
  accounts : ∃ stateRoot, string (bundle.index "header") "state_root" = .ok stateRoot ∧
    ∀ account ∈ selected, ∃ evidence,
      (bundle.index "accounts").get? account = some evidence ∧
      Evidence alloy stateRoot account evidence
  selected : ∀ account evidence, (bundle.index "accounts").get? account = some evidence →
    account ∈ selected

/-- A capture from any node, whatever it replies, holds only checked data. -/
theorem capture_sound {replies : List Reply} {requests : List (String × Json)} {node : Node}
    {accounts : List String} {block : Option ℕ} {expected : Option String} {bundle : Json}
    (h : capture alloy ⟨replies,requests⟩ accounts block expected = .ok (bundle,node)) :
    ∃ selected, accountSet accounts = .ok selected ∧
      Captured alloy replies selected block expected bundle := by
  obtain ⟨selected,hselected,h⟩ := bind_ok.mp h
  obtain ⟨⟨header,n1⟩,hfinalized,h⟩ := bind_ok.mp h
  obtain ⟨text,ht,h⟩ := bind_ok.mp h
  obtain ⟨number,hn,h⟩ := bind_ok.mp h
  obtain ⟨_,-,h⟩ := bind_ok.mp h
  obtain ⟨⟨_,n2⟩,-,h⟩ := bind_ok.mp h
  obtain ⟨_,-,h⟩ := bind_ok.mp h
  obtain ⟨chain,-,h⟩ := bind_ok.mp h
  obtain ⟨s,hs,h⟩ := bind_ok.mp h
  obtain ⟨rlp,hrlp,h⟩ := bind_ok.mp h
  obtain ⟨digest,hverify,h⟩ := bind_ok.mp h
  obtain ⟨⟨entries,n3⟩,hentries,h⟩ := bind_ok.mp h
  obtain ⟨⟨_,n4⟩,-,h⟩ := bind_ok.mp h
  obtain ⟨_,-,h⟩ := bind_ok.mp h
  obtain ⟨rfl,-⟩ := Prod.mk.inj (pure_ok.mp h)
  have hset := selectedAccounts_ok hselected
  refine ⟨selected,hset,?_⟩
  obtain ⟨t,m,ht',hm,hrequested,hlast⟩ := finalizedHeader_ok hfinalized
  obtain rfl := Except.ok.inj (ht.symm.trans ht')
  obtain rfl := Except.ok.inj (hn.symm.trans hm)
  obtain ⟨stateRoot,hroot,hnumber,hlower⟩ := summary_ok hs
  obtain ⟨encoded,rfl⟩ := encodeRpcHeader_hex hrlp
  obtain ⟨e,he,hdigest,hencodes,hpinned⟩ := verifyHeader_ok.mp hverify
  obtain rfl := Except.ok.inj ((unhex_hex encoded).symm.trans he)
  have hheader : (assemble chain s expected entries (hex encoded)).index "header" = s :=
    Json.index_ofPairs (by simp) _
  have haccounts : (assemble chain s expected entries (hex encoded)).index "accounts" =
      .ofPairs entries := Json.index_ofPairs (by simp) _
  have htext : string (assemble chain s expected entries (hex encoded)) "header_rlp" =
      .ok (hex encoded) := by
    rw [string, assemble, Json.get?_ofPairs (by simp)]
    rfl
  obtain ⟨hkeys,hall⟩ := captureAccounts_ok hroot
    (fun a ha => canonical_address (accountSet_canonical hset) ha) hentries
  have hsorted : Sorted entries := by
    have := (accountSet_canonical hset).sorted
    rw [← hkeys] at this
    exact List.pairwise_map.mp this
  have hread : ∀ k, (Json.ofPairs entries).get? k = lookup k entries :=
    Json.get?_ofPairs (hsorted.imp (fun h => ne_of_lt h))
  refine ⟨⟨number,?_,hrequested,hlast⟩,⟨encoded,digest,htext,hdigest,?_,hpinned,?_⟩,
    ⟨lower stateRoot,?_,fun account ha => ?_⟩,fun account evidence he => ?_⟩
  · rw [hheader]
    exact hnumber
  · rw [hheader]
    exact hencodes
  · rw [hheader]
    exact hverify
  · rw [hheader]
    exact hlower
  · rw [← hkeys] at ha
    obtain ⟨entry,hentry,rfl⟩ := List.mem_map.mp ha
    refine ⟨entry.2,?_,hall entry hentry⟩
    rw [haccounts, hread]
    exact lookup_of_mem hsorted hentry
  · rw [haccounts, hread] at he
    rw [← hkeys]
    exact List.mem_map.mpr ⟨_,mem_of_lookup he,rfl⟩

end Sound

def sampleHash : Bytes :=
  sampleBytes "a12b2a0575a74d519fccd94b8af7242c2c7ab748624272b444a0355804fdf704"

def sampleHeaderFields : List (String × Json) :=
  [("parentHash",.str (hex (List.replicate 32 0))),("sha3Uncles",.str (hex (List.replicate 32 1))),
    ("miner",.str (hex (List.replicate 20 2))),("stateRoot",.str (hex sampleStateRoot)),
    ("transactionsRoot",.str (hex (List.replicate 32 4))),
    ("receiptsRoot",.str (hex (List.replicate 32 5))),("logsBloom",.str (hex (List.replicate 256 6))),
    ("difficulty",.str "0x7"),("number",.str "0x8"),("gasLimit",.str "0x9"),("gasUsed",.str "0xa"),
    ("timestamp",.str "0xb"),("extraData",.str (hex (List.replicate 8 12))),
    ("mixHash",.str (hex (List.replicate 32 13))),("nonce",.str (hex (List.replicate 8 14))),
    ("hash",.str (hex sampleHash))]

def sampleHeader : Json := .ofPairs sampleHeaderFields

def sampleValues : List Bytes :=
  [List.replicate 32 0,List.replicate 32 1,List.replicate 20 2,sampleStateRoot,List.replicate 32 4,
    List.replicate 32 5,List.replicate 256 6,Rlp.toBytes 7,Rlp.toBytes 8,Rlp.toBytes 9,Rlp.toBytes 10,
    Rlp.toBytes 11,List.replicate 8 12,
    List.replicate 32 13,List.replicate 8 14]

def sampleEncoded : Bytes := rlpList (sampleValues.map Rlp.encode)

def sampleChain : Alloy := sampleAlloy [(sampleEncoded,sampleHash)]

theorem sampleHeader_field (name : String) :
    sampleHeader.get? name = lookup name sampleHeaderFields :=
  Json.get?_ofPairs (List.pairwise_map.mp (show (sampleHeaderFields.map Prod.fst).Nodup by
    decide +kernel)) name

theorem sampleHeader_text {name text : String}
    (h : lookup name sampleHeaderFields = some (.str text)) : string sampleHeader name = .ok text :=
  string_ok ((sampleHeader_field name).trans h)

theorem encodeField_hex {f : Field × ℕ} {b : Bytes}
    (h : lookup f.1.name sampleHeaderFields = some (.str (hex b))) (hb : f.1.bits = none)
    (hl : ∀ n ∈ f.1.length, b.length = n) : encodeField sampleHeader f = .ok (Rlp.encode b) := by
  have hnull : sampleHeader.index f.1.name ≠ .null := by
    rw [Json.index, sampleHeader_field, h]
    simp
  rw [encodeField, if_neg hnull, hb]
  exact bind_ok.mpr ⟨_,sampleHeader_text h,bind_ok.mpr ⟨b,unhex_hex b,bind_ok.mpr
    ⟨(),ensure_ok.mpr hl,rfl⟩⟩⟩

theorem encodeField_quantity {f : Field × ℕ} {text : String} {bits n : ℕ}
    (h : lookup f.1.name sampleHeaderFields = some (.str text)) (hb : f.1.bits = some bits)
    (hn : quantity text bits = .ok n) : encodeField sampleHeader f = .ok (Rlp.encodeUint n) := by
  have hnull : sampleHeader.index f.1.name ≠ .null := by
    rw [Json.index, sampleHeader_field, h]
    simp
  rw [encodeField, if_neg hnull, hb]
  exact bind_ok.mpr ⟨_,sampleHeader_text h,bind_ok.mpr ⟨n,hn,rfl⟩⟩

theorem sampleLength (n : ℕ) (x : UInt8) : ∀ k ∈ some n, (List.replicate n x).length = k := by
  rintro k hk
  rw [List.length_replicate]
  exact Option.some.inj hk

theorem sampleFields_encoded :
    (FIELDS.zipIdx.take (lastField sampleHeader+1)).mapM (encodeField sampleHeader) =
      .ok (sampleValues.map Rlp.encode) := by
  rw [show lastField sampleHeader = 14 by decide +kernel, mapM_ok]
  exact .cons (encodeField_hex rfl rfl (sampleLength _ _)) <|
    .cons (encodeField_hex rfl rfl (sampleLength _ _)) <|
    .cons (encodeField_hex rfl rfl (sampleLength _ _)) <|
    .cons (encodeField_hex rfl rfl (by decide +kernel)) <|
    .cons (encodeField_hex rfl rfl (sampleLength _ _)) <|
    .cons (encodeField_hex rfl rfl (sampleLength _ _)) <|
    .cons (encodeField_hex rfl rfl (sampleLength _ _)) <|
    .cons (encodeField_quantity rfl rfl (by decide +kernel)) <|
    .cons (encodeField_quantity rfl rfl (by decide +kernel)) <|
    .cons (encodeField_quantity rfl rfl (by decide +kernel)) <|
    .cons (encodeField_quantity rfl rfl (by decide +kernel)) <|
    .cons (encodeField_quantity rfl rfl (by decide +kernel)) <|
    .cons (encodeField_hex rfl rfl (by simp)) <|
    .cons (encodeField_hex rfl rfl (sampleLength _ _)) <|
    .cons (encodeField_hex rfl rfl (sampleLength _ _)) .nil

theorem sampleHeader_encoded : encodeRpcHeader sampleChain sampleHeader = .ok (hex sampleEncoded) :=
  bind_ok.mpr ⟨_,sampleFields_encoded,bind_ok.mpr ⟨_,sampleHeader_text rfl,bind_ok.mpr ⟨sampleHash,
    fixed_hex (by decide +kernel),bind_ok.mpr ⟨(),ensure_ok.mpr (by decide +kernel),rfl⟩⟩⟩⟩

def sampleSummaryFields : List (String × Json) :=
  [("number",.ofNat 8),("hash",.str (lower (hex sampleHash))),
    ("parent_hash",.str (lower (hex (List.replicate 32 0)))),
    ("state_root",.str (lower (hex sampleStateRoot))),("timestamp",.ofNat 11)]

def sampleSummary : Json := .ofPairs sampleSummaryFields

theorem sampleSummary_field (name : String) :
    sampleSummary.get? name = lookup name sampleSummaryFields :=
  Json.get?_ofPairs (List.pairwise_map.mp (show (sampleSummaryFields.map Prod.fst).Nodup by
    decide +kernel)) name

theorem sampleSummary_ok : summary sampleHeader 8 = .ok sampleSummary :=
  bind_ok.mpr ⟨_,sampleHeader_text rfl,bind_ok.mpr ⟨_,sampleHeader_text rfl,bind_ok.mpr ⟨_,
    sampleHeader_text rfl,bind_ok.mpr ⟨_,sampleHeader_text rfl,
    bind_ok.mpr ⟨11,by decide +kernel,rfl⟩⟩⟩⟩⟩

theorem sampleSummary_encodes : Encodes sampleChain sampleEncoded sampleSummary where
  hash := ⟨_,string_ok (sampleSummary_field _),
    (fixed_lower (fixed_hex (by decide +kernel))).trans (congrArg _ (by decide +kernel))⟩
  fields := by
    have hindex : ∀ name n, lookup name sampleSummaryFields = some (Json.ofNat n) → n < 2^64 →
        (sampleSummary.index name).asU64 = some n := by
      intro name n h hn
      rw [Json.index, sampleSummary_field, h]
      exact Json.asU64_ofNat hn
    exact ⟨sampleValues,by decide +kernel,
      ⟨_,_,string_ok (sampleSummary_field _),fixed_lower (fixed_hex (sampleLength 32 0 _ rfl)),rfl⟩,
      ⟨_,_,string_ok (sampleSummary_field _),fixed_lower (fixed_hex (by decide +kernel)),rfl⟩,
      ⟨8,hindex _ _ rfl (by decide),rfl⟩,⟨11,hindex _ _ rfl (by decide),rfl⟩⟩

def reply (result : Json) : Reply :=
  .body (.ofPairs [("id",.ofNat 1),("jsonrpc",.str "2.0"),("result",result)])

theorem call_reply {result : Json} (h : result ≠ .null) (rest : List Reply)
    (requests : List (String × Json)) (method : String) (params : List Json) :
    call ⟨reply result::rest,requests⟩ method params =
      .ok (result,⟨rest,requests ++ [(method,.arr params)]⟩) := by
  have hread : ∀ name, (Json.ofPairs [("id",.ofNat 1),("jsonrpc",.str "2.0"),
      ("result",result)]).get? name = lookup name [("id",.ofNat 1),("jsonrpc",.str "2.0"),
      ("result",result)] := Json.get?_ofPairs (by simp)
  have hresult : (reply result).result method = .ok result := by
    simp only [reply, Reply.result, Json.index, hread]
    exact bind_ok.mpr ⟨(),ensure_ok.mpr ⟨rfl,h⟩,rfl⟩
  exact bind_ok.mpr ⟨_,hresult,rfl⟩

/-- A finalized block at the requested number, its chain, the proof and the
code of the account, and the block again. -/
def sampleReplies : List Reply :=
  [reply sampleHeader,reply sampleHeader,reply (.str "0x38"),reply (sampleProof "0x3"),
    reply (.str sampleCode),reply sampleHeader]

theorem sampleHeader_ok (requests : List (String × Json)) (rest : List Reply) : ∃ more,
    finalizedHeader sampleChain ⟨reply sampleHeader::reply sampleHeader::rest,requests⟩ (some 8) =
      .ok (sampleHeader,⟨rest,more⟩) := by
  have hnull : sampleHeader ≠ .null := by simp [sampleHeader, Json.ofPairs]
  have hnumber : quantity "0x8" 64 = .ok 8 := by decide +kernel
  exact ⟨_,bind_ok.mpr ⟨_,call_reply hnull _ _ _ _,bind_ok.mpr ⟨_,call_reply hnull _ _ _ _,
    bind_ok.mpr ⟨_,sampleHeader_text rfl,bind_ok.mpr ⟨8,hnumber,bind_ok.mpr ⟨(),
      ensure_ok.mpr (by simp),bind_ok.mpr ⟨_,sampleHeader_text rfl,bind_ok.mpr ⟨8,hnumber,
      bind_ok.mpr ⟨(),ensure_ok.mpr (le_refl 8),bind_ok.mpr ⟨_,sampleHeader_encoded,rfl⟩⟩⟩⟩⟩⟩⟩⟩⟩⟩

theorem sampleEvidence_ok (requests : List (String × Json)) (rest : List Reply) : ∃ evidence more,
    captureAccount sampleChain sampleHeader 8
      ⟨reply (sampleProof "0x3")::reply (.str sampleCode)::rest,requests⟩ sampleAddress =
      .ok (evidence,⟨rest,more⟩) := by
  have hproof : sampleProof "0x3" ≠ .null := by simp [sampleProof, Json.ofPairs]
  have hcode : sampleKeccak [(sampleEncoded,sampleHash)] (sampleBytes "60006000") =
      sampleCodeHash := by decide +kernel
  exact ⟨_,_,bind_ok.mpr ⟨_,call_reply hproof _ _ _ _,bind_ok.mpr ⟨_,sampleHeader_text rfl,
    bind_ok.mpr ⟨_,sampleAccount_verified _ (by decide +kernel),
    bind_ok.mpr ⟨_,call_reply (by simp) _ _ _ _,bind_ok.mpr ⟨_,rfl,
    bind_ok.mpr ⟨sampleBytes "60006000",by decide +kernel,
    bind_ok.mpr ⟨(),ensure_ok.mpr hcode,rfl⟩⟩⟩⟩⟩⟩⟩⟩

theorem sampleCapture_ok : ∃ bundle node, capture sampleChain ⟨sampleReplies,[]⟩ [sampleAddress]
    (some 8) (some (hex sampleHash)) = .ok (bundle,node) := by
  have hhash : fixed 32 (hex sampleHash) = .ok sampleHash := fixed_hex (by decide +kernel)
  have hdigest : sampleChain.keccak256 sampleEncoded = sampleHash := by decide +kernel
  have hnull : sampleHeader ≠ .null := by simp [sampleHeader, Json.ofPairs]
  have hnumber : quantity "0x8" 64 = .ok 8 := by decide +kernel
  obtain ⟨r1,hfinalized⟩ := sampleHeader_ok [] (sampleReplies.drop 2)
  have hverify : verifyHeader sampleChain (hex sampleEncoded) sampleSummary
      (some (hex sampleHash)) = .ok sampleHash := by
    refine verifyHeader_ok.mpr ⟨sampleEncoded,unhex_hex _,hdigest.symm,sampleSummary_encodes,?_⟩
    rintro e he
    obtain rfl := Option.some.inj he
    exact hhash
  obtain ⟨evidence,r3,hevidence⟩ := sampleEvidence_ok (r1 ++ [("eth_chainId",.arr [])])
    [reply sampleHeader]
  have hentries : captureAccounts sampleChain sampleHeader 8
      ⟨sampleReplies.drop 3,r1 ++ [("eth_chainId",.arr [])]⟩ [sampleAddress] =
      .ok ([(sampleAddress,evidence)],⟨[reply sampleHeader],r3⟩) :=
    bind_ok.mpr ⟨_,hevidence,bind_ok.mpr ⟨_,rfl,rfl⟩⟩
  have hafter : checkUnchanged sampleHeader 8 sampleHeader = .ok () :=
    bind_ok.mpr ⟨_,sampleHeader_text rfl,bind_ok.mpr ⟨8,hnumber,bind_ok.mpr ⟨(),
      ensure_ok.mpr rfl,bind_ok.mpr ⟨_,sampleHeader_text rfl,bind_ok.mpr ⟨_,sampleHeader_text rfl,
      ensure_ok.mpr rfl⟩⟩⟩⟩⟩
  exact ⟨_,_,bind_ok.mpr ⟨[sampleAddress],by decide +kernel,bind_ok.mpr ⟨_,hfinalized,
    bind_ok.mpr ⟨_,sampleHeader_text rfl,bind_ok.mpr ⟨8,hnumber,bind_ok.mpr ⟨(),
    bind_ok.mpr ⟨_,hhash,bind_ok.mpr ⟨_,sampleHeader_text rfl,bind_ok.mpr ⟨_,hhash,
      ensure_ok.mpr rfl⟩⟩⟩,
    bind_ok.mpr ⟨_,call_reply (by simp) _ _ _ _,bind_ok.mpr ⟨"0x38",rfl,
    bind_ok.mpr ⟨56,by decide +kernel,bind_ok.mpr ⟨_,sampleSummary_ok,
    bind_ok.mpr ⟨_,sampleHeader_encoded,bind_ok.mpr ⟨_,hverify,bind_ok.mpr ⟨_,hentries,
    bind_ok.mpr ⟨_,call_reply hnull _ _ _ _,bind_ok.mpr ⟨(),hafter,rfl⟩⟩⟩⟩⟩⟩⟩⟩⟩⟩⟩⟩⟩⟩⟩

theorem capture_sound_sample : ∃ bundle node selected,
    capture sampleChain ⟨sampleReplies,[]⟩ [sampleAddress] (some 8) (some (hex sampleHash)) =
      .ok (bundle,node) ∧ accountSet [sampleAddress] = .ok selected ∧
    Captured sampleChain sampleReplies selected (some 8) (some (hex sampleHash)) bundle := by
  obtain ⟨bundle,node,h⟩ := sampleCapture_ok
  obtain ⟨selected,hs,hc⟩ := capture_sound h
  exact ⟨bundle,node,selected,h,hs,hc⟩

end EvmState.Rpc
