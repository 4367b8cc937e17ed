import EvmState.Encoding
import EvmState.Lib.Rlp

/-!
# Account and storage proofs

An account proof opens the state trie at the hash of an address. The fields
that a node reports count only as the encoding that the proof opens. The
storage of an account is complete when the trie of all its slots has the
proven root. The hash and the trie library are parameters.
-/

set_option autoImplicit false

namespace EvmState.Proof
open EvmState.Hex EvmState.Fallible EvmState.OrderedMap EvmState.Params EvmState.Encoding

/-- The hash function and the trie library. A proof opens a key under a root
to an expected value or to absence; the root of a trie is that of its leaves
in key order. -/
structure Alloy where
  keccak256 : Bytes → Bytes
  keccak256_length : ∀ b, (keccak256 b).length = 32
  verifyProof (root key : Bytes) (expected : Option Bytes) (nodes : List Bytes) : Bool
  hashBuilder : List (Bytes × Bytes) → Bytes

def emptyRootHash : Bytes :=
  (decodeChars "56e81f171bcc55a6ff8345e692c0f86e5b48e01b996cadc001622fb5e363b421".toList).getD []

def hexNumber (digits : List Char) : ℕ := digits.foldl (fun n c => 16*n+(digitValue c).getD 0) 0

def quantity (value : String) (bits : ℕ) : Except String ℕ :=
  match value.toList with
  | '0' :: 'x' :: raw => do
    ensure (raw ≠ [] ∧ raw.all (fun c => (digitValue c).isSome)) "invalid JSON-RPC quantity"
    let number := hexNumber raw
    ensure (number < 2^256) "quantity exceeds uint256"
    ensure (number < 2^bits) ("quantity exceeds uint" ++ toString bits)
    return number
  | _ => .error "expected JSON-RPC hex quantity"

def rlpList (encodedItems : List Bytes) : Bytes :=
  Rlp.header true (encodedItems.map List.length).sum ++ encodedItems.flatten

structure Account where
  address : String
  «exists» : Bool
  nonce : ℕ
  balance : ℕ
  storageRoot : Bytes
  codeHash : Bytes
  deriving DecidableEq, Repr

def Account.json (a : Account) : Json :=
  .ofPairs [("address",.str a.address),("exists",.bool a.exists),("nonce",.ofNat a.nonce),
    ("balance",.str (toString a.balance)),("storage_root",.str (hex a.storageRoot)),
    ("code_hash",.str (hex a.codeHash))]

def encodeAccount (nonce balance : ℕ) (storageRoot codeHash : Bytes) : Bytes :=
  rlpList [Rlp.encodeUint nonce,Rlp.encodeUint balance,Rlp.encode storageRoot,Rlp.encode codeHash]

/-- The exact decimal texts: no sign and no leading zero. -/
def ExactDecimal (text : String) : Prop :=
  text = "0" ∨ (text.toList.head? ≠ some '0' ∧ text ≠ "" ∧ text.toList.all Char.isDigit)

instance (text : String) : Decidable (ExactDecimal text) := by unfold ExactDecimal; infer_instance

section Verify
variable (alloy : Alloy)

def proofNodes (proof : Json) : Except String (List Bytes) := do
  let nodes ← context ((proof.get? "accountProof").bind Json.asArray) "missing account proof"
  nodes.mapM (fun node => do
    let text ← context node.asStr "invalid account proof node"
    unhex text)

def sameAccount (proof : Json) (selected : String) : Except String Unit :=
  match proof.get? "address" with
  | none => .ok ()
  | some actual => do
    let text ← context actual.asStr "invalid proof address"
    let actual ← address text
    ensure (actual = selected) "proof is for a different account"

def Empty (nonce balance : ℕ) (storageRoot codeHash : Bytes) : Prop :=
  nonce = 0 ∧ balance = 0 ∧ storageRoot = emptyRootHash ∧ codeHash = alloy.keccak256 []

instance (nonce balance : ℕ) (storageRoot codeHash : Bytes) :
    Decidable (Empty alloy nonce balance storageRoot codeHash) := by unfold Empty; infer_instance

def provenExists (root key : Bytes) (nodes : List Bytes) (nonce balance : ℕ)
    (storageRoot codeHash : Bytes) : Except String Bool :=
  if alloy.verifyProof root key (some (encodeAccount nonce balance storageRoot codeHash)) nodes then
    .ok true
  else do
    ensure (alloy.verifyProof root key none nodes) "invalid or incomplete account proof"
    ensure (Empty alloy nonce balance storageRoot codeHash)
      "RPC account metadata does not match proven absence"
    return false

def verifyAccount (stateRoot selected : String) (proof : Json) : Except String Account := do
  let root ← fixed 32 stateRoot
  let selected ← address selected
  sameAccount proof selected
  let nonce ← string proof "nonce"
  let nonce ← quantity nonce 64
  let balance ← string proof "balance"
  let balance ← quantity balance 256
  let storageRoot ← string proof "storageHash"
  let storageRoot ← fixed 32 storageRoot
  let codeHash ← string proof "codeHash"
  let codeHash ← fixed 32 codeHash
  let nodes ← proofNodes proof
  let key ← fixed 20 selected
  let «exists» ← provenExists alloy root (alloy.keccak256 key) nodes nonce balance storageRoot
    codeHash
  return ⟨selected,«exists»,nonce,balance,storageRoot,codeHash⟩

def verifyMetadata (account : Account) (code : String) (metadata : Json) : Except String Unit := do
  let nonce ← context ((metadata.get? "nonce").bind Json.asU64) "nonce must be an exact uint64"
  let balance ← string metadata "balance"
  ensure (ExactDecimal balance) "balance must be an exact decimal string"
  ensure (nonce = account.nonce) "account nonce/balance mismatch"
  let balance ← context ((Json.decimal balance).filter (· < 2^256)) "number exceeds uint256"
  ensure (balance = account.balance) "account nonce/balance mismatch"
  let codeHash ← string metadata "code_hash"
  let codeHash ← fixed 32 codeHash
  ensure (codeHash = account.codeHash) "account code hash mismatch"
  let bytes ← unhex code
  ensure (alloy.keccak256 bytes = account.codeHash) "bytecode does not match proven code hash"

end Verify

/-- A single-use sort of hashed slots. -/
structure StorageSort where
  storage : SortedMap Bytes Bytes
  count : ℕ
  failed : Bool

section Storage
variable (alloy : Alloy)

def StorageSort.new : StorageSort := ⟨.empty,0,false⟩

def leaf (slot value : String) : Except String (Bytes × Bytes) := do
  let key ← fixed 32 slot
  let value ← fixed 32 value
  ensure (Rlp.ofBytes value ≠ 0) "complete-storage input must contain nonzero slots only"
  return (alloy.keccak256 key,Rlp.encodeUint (Rlp.ofBytes value))

def StorageSort.stage (s : StorageSort) (slot value : String) : Except String (Bytes × Bytes) := do
  let row ← leaf alloy slot value
  ensure (s.storage.get? row.1 = none) "duplicate nonzero storage slot"
  return row

/-- A failed insertion leaves the workspace failed for good. -/
def StorageSort.insert (s : StorageSort) (slot value : String) : Except String Unit × StorageSort :=
  if s.failed then (.error "storage sorting workspace has failed",s)
  else match s.stage alloy slot value with
    | .ok row => (.ok (),⟨s.storage.insert row.1 row.2,s.count+1,false⟩)
    | .error e => (.error e,{ s with failed := true })

def StorageSort.finish (s : StorageSort) : Except String (Bytes × ℕ) := do
  ensure (s.failed = false) "storage sorting workspace has failed"
  let leaves := s.storage.entries
  ensure (∀ e ∈ leaves, e.1.length = 32) "invalid staged storage key"
  ensure (leaves.Pairwise (fun d e => d.1 < e.1)) "unordered or duplicate staged storage key"
  ensure (leaves.length = s.count) "staged storage count changed"
  return (alloy.hashBuilder leaves,leaves.length)

/-- The slots arrive one by one and any of them may be an error instead. -/
def StorageSort.load : StorageSort → List (Except String (String × String)) →
    Except String StorageSort
  | s, [] => .ok s
  | s, pair::slots => do
    let (slot,value) ← pair
    match s.insert alloy slot value with
    | (.ok _,s) => load s slots
    | (.error e,_) => .error e

def storageRoot (slots : List (Except String (String × String))) : Except String (Bytes × ℕ) := do
  let database ← StorageSort.new.load alloy slots
  database.finish alloy

def verifyComplete (account : Account) (slots : List (Except String (String × String)))
    (code : String) (metadata : Json) : Except String ℕ := do
  verifyMetadata alloy account code metadata
  let (root,count) ← storageRoot alloy slots
  ensure (root = account.storageRoot)
    "storage root mismatch: incomplete, stale or incorrect account storage"
  return count

end Storage

section Sound
variable {alloy : Alloy}

/-- The nodes prove an account, or its absence, under a state root. -/
structure Opens (alloy : Alloy) (root : Bytes) (nodes : List Bytes) (a : Account) : Prop where
  opened : ∃ key : Bytes, key.length = 20 ∧ a.address = hex key ∧
    if a.exists then alloy.verifyProof root (alloy.keccak256 key)
      (some (encodeAccount a.nonce a.balance a.storageRoot a.codeHash)) nodes
    else alloy.verifyProof root (alloy.keccak256 key) none nodes
  empty : a.exists = false → Empty alloy a.nonce a.balance a.storageRoot a.codeHash
  nonce : a.nonce < 2^64
  balance : a.balance < 2^256

theorem quantity_lt {value : String} {bits n : ℕ} (h : quantity value bits = .ok n) :
    n < 2^bits := by
  unfold quantity at h
  split at h
  · obtain ⟨_,-,h⟩ := bind_ok.mp h
    obtain ⟨_,-,h⟩ := bind_ok.mp h
    obtain ⟨_,hb,h⟩ := bind_ok.mp h
    obtain rfl := pure_ok.mp h
    exact ensure_ok.mp hb
  · cases h

theorem provenExists_ok {root key storageRoot codeHash : Bytes} {nodes : List Bytes}
    {nonce balance : ℕ} {found : Bool}
    (h : provenExists alloy root key nodes nonce balance storageRoot codeHash = .ok found) :
    (if found then alloy.verifyProof root key
        (some (encodeAccount nonce balance storageRoot codeHash)) nodes
      else alloy.verifyProof root key none nodes) ∧
      (found = false → Empty alloy nonce balance storageRoot codeHash) := by
  unfold provenExists at h
  split at h
  · rename_i hv
    obtain rfl := Except.ok.inj h
    exact ⟨hv,by simp⟩
  · obtain ⟨_,hn,h⟩ := bind_ok.mp h
    obtain ⟨_,he,h⟩ := bind_ok.mp h
    obtain rfl := pure_ok.mp h
    exact ⟨ensure_ok.mp hn,fun _ => ensure_ok.mp he⟩

structure Reports (proof : Json) (a : Account) (nodes : List Bytes) : Prop where
  address : sameAccount proof a.address = .ok ()
  nonce : ∃ text, string proof "nonce" = .ok text ∧ quantity text 64 = .ok a.nonce
  balance : ∃ text, string proof "balance" = .ok text ∧ quantity text 256 = .ok a.balance
  storageRoot : ∃ text, string proof "storageHash" = .ok text ∧ fixed 32 text = .ok a.storageRoot
  codeHash : ∃ text, string proof "codeHash" = .ok text ∧ fixed 32 text = .ok a.codeHash
  nodes : proofNodes proof = .ok nodes

theorem verifyAccount_iff {stateRoot selected : String} {proof : Json} {a : Account} :
    verifyAccount alloy stateRoot selected proof = .ok a ↔
      ∃ root nodes key, fixed 32 stateRoot = .ok root ∧ address selected = .ok a.address ∧
        fixed 20 a.address = .ok key ∧ Reports proof a nodes ∧
        provenExists alloy root (alloy.keccak256 key) nodes a.nonce a.balance a.storageRoot
          a.codeHash = .ok a.exists := by
  simp only [verifyAccount, bind_ok, pure_ok]
  constructor
  · rintro ⟨root,hroot,name,hname,_,hsame,nonce,hn,n,hq,balance,hb,v,hv,storage,hs,sr,hsr,code,hc,
      ch,hch,nodes,hnodes,key,hkey,found,hfound,rfl⟩
    exact ⟨root,nodes,key,hroot,hname,hkey,⟨hsame,⟨nonce,hn,hq⟩,⟨balance,hb,hv⟩,⟨storage,hs,hsr⟩,
      ⟨code,hc,hch⟩,hnodes⟩,hfound⟩
  · rintro ⟨root,nodes,key,hroot,hname,hkey,⟨hsame,⟨nonce,hn,hq⟩,⟨balance,hb,hv⟩,⟨storage,hs,hsr⟩,
      ⟨code,hc,hch⟩,hnodes⟩,hfound⟩
    exact ⟨root,hroot,_,hname,(),hsame,nonce,hn,_,hq,balance,hb,_,hv,storage,hs,_,hsr,code,hc,
      _,hch,nodes,hnodes,key,hkey,_,hfound,rfl⟩

/-- An accepted proof opens exactly the account that is returned. -/
theorem verifyAccount_ok {stateRoot selected : String} {proof : Json} {a : Account}
    (h : verifyAccount alloy stateRoot selected proof = .ok a) :
    ∃ root nodes, fixed 32 stateRoot = .ok root ∧ proofNodes proof = .ok nodes ∧
      address selected = .ok a.address ∧ Opens alloy root nodes a := by
  obtain ⟨root,nodes,key,hroot,hname,hkey,hr,hfound⟩ := verifyAccount_iff.mp h
  obtain ⟨b,-,hb,hhex⟩ := address_ok.mp hname
  obtain ⟨hu,hlen⟩ := fixed_ok.mp hkey
  rw [hhex] at hu
  obtain rfl := Except.ok.inj ((unhex_hex b).symm.trans hu)
  obtain ⟨hopen,hempty⟩ := provenExists_ok hfound
  obtain ⟨_,-,hn⟩ := hr.nonce
  obtain ⟨_,-,hv⟩ := hr.balance
  exact ⟨root,nodes,hroot,hr.nodes,hname,⟨b,hlen,hhex,hopen⟩,hempty,quantity_lt hn,quantity_lt hv⟩

structure Matches (alloy : Alloy) (a : Account) (code : String) (metadata : Json) : Prop where
  nonce : (metadata.get? "nonce").bind Json.asU64 = some a.nonce
  balance : ∃ text, string metadata "balance" = .ok text ∧ ExactDecimal text ∧
    Json.decimal text = some a.balance ∧ a.balance < 2^256
  codeHash : ∃ text, string metadata "code_hash" = .ok text ∧ fixed 32 text = .ok a.codeHash
  code : ∃ bytes, unhex code = .ok bytes ∧ alloy.keccak256 bytes = a.codeHash

theorem verifyMetadata_ok {a : Account} {code : String} {metadata : Json} :
    verifyMetadata alloy a code metadata = .ok () ↔ Matches alloy a code metadata := by
  simp only [verifyMetadata, bind_ok, ensure_ok, context_ok, Option.filter_eq_some_iff,
    decide_eq_true_eq]
  constructor
  · rintro ⟨_,hn,text,ht,_,he,_,rfl,_,⟨hd,hlt⟩,_,rfl,hash,hh,_,hf,_,rfl,bytes,hb,hc⟩
    exact ⟨hn,⟨text,ht,he,hd,hlt⟩,⟨hash,hh,hf⟩,⟨bytes,hb,hc⟩⟩
  · rintro ⟨hn,⟨text,ht,he,hd,hlt⟩,⟨hash,hh,hf⟩,⟨bytes,hb,hc⟩⟩
    exact ⟨_,hn,text,ht,(),he,(),rfl,_,⟨hd,hlt⟩,(),rfl,hash,hh,_,hf,(),rfl,bytes,hb,hc⟩

/-- The slots are the leaves of a trie with the given root, each key once. -/
structure Hashes (alloy : Alloy) (slots : List (String × String)) (root : Bytes) : Prop where
  leaves : ∃ leaves, slots.mapM (fun e => leaf alloy e.1 e.2) = .ok leaves ∧
    leaves.Pairwise (fun d e => d.1 ≠ e.1) ∧
    alloy.hashBuilder (SortedMap.empty.insertAll leaves).entries = root

theorem stage_ok {s : StorageSort} {slot value : String} {row : Bytes × Bytes} :
    s.stage alloy slot value = .ok row ↔
      leaf alloy slot value = .ok row ∧ s.storage.get? row.1 = none := by
  simp only [StorageSort.stage, bind_ok, ensure_ok, pure_ok]
  constructor
  · rintro ⟨r,hl,_,hn,rfl⟩
    exact ⟨hl,hn⟩
  · rintro ⟨hl,hn⟩
    exact ⟨row,hl,(),hn,rfl⟩

/-- A workspace that never failed holds the leaves of what it was given. -/
theorem load_ok {s t : StorageSort} {slots : List (Except String (String × String))}
    (h : s.load alloy slots = .ok t) (hs : s.failed = false) :
    ∃ (pairs : List (String × String)) (leaves : List (Bytes × Bytes)), slots = pairs.map .ok ∧
      pairs.mapM (fun e => leaf alloy e.1 e.2) = .ok leaves ∧
      leaves.Pairwise (fun d e => d.1 ≠ e.1) ∧ (∀ e ∈ leaves, s.storage.get? e.1 = none) ∧
      t = ⟨s.storage.insertAll leaves,s.count+pairs.length,false⟩ := by
  induction slots generalizing s with
  | nil =>
    obtain rfl := Except.ok.inj h
    refine ⟨[],[],rfl,rfl,.nil,by simp,?_⟩
    cases s
    exact congrArg _ hs
  | cons pair slots ih =>
    rw [StorageSort.load] at h
    obtain ⟨⟨slot,value⟩,rfl,hrest⟩ := bind_ok.mp h
    have hinsert : s.insert alloy slot value = match s.stage alloy slot value with
        | .ok row => (.ok (),⟨s.storage.insert row.1 row.2,s.count+1,false⟩)
        | .error e => (.error e,{ s with failed := true }) := by
      rw [StorageSort.insert, hs]
      rfl
    dsimp only at hrest
    rw [hinsert] at hrest
    cases hstage : s.stage alloy slot value with
    | error e =>
      rw [hstage] at hrest
      cases hrest
    | ok row =>
      rw [hstage] at hrest
      obtain ⟨hleaf,hnew⟩ := stage_ok.mp hstage
      obtain ⟨pairs,leaves,rfl,hleaves,hdistinct,hfresh,rfl⟩ := ih hrest rfl
      have hapart : ∀ e ∈ leaves, row.1 ≠ e.1 := by
        intro e he heq
        have := hfresh e he
        rw [← heq, SortedMap.get?_insert, if_pos rfl] at this
        cases this
      refine ⟨(slot,value)::pairs,row::leaves,rfl,?_,List.pairwise_cons.mpr ⟨hapart,hdistinct⟩,
        ?_,?_⟩
      · rw [mapM_ok] at hleaves ⊢
        exact .cons hleaf hleaves
      · intro e he
        rcases List.mem_cons.mp he with rfl | he
        · exact hnew
        · have := hfresh e he
          rwa [SortedMap.get?_insert, if_neg (Ne.symm (hapart e he))] at this
      · simp only [SortedMap.insertAll, List.foldl_cons, List.length_cons, StorageSort.mk.injEq,
          true_and, and_true]
        omega

theorem storageRoot_ok {slots : List (Except String (String × String))} {root : Bytes} {count : ℕ}
    (h : storageRoot alloy slots = .ok (root,count)) :
    ∃ pairs : List (String × String), slots = pairs.map .ok ∧ count = pairs.length ∧
      Hashes alloy pairs root := by
  obtain ⟨t,ht,h⟩ := bind_ok.mp h
  obtain ⟨pairs,leaves,rfl,hleaves,hdistinct,-,rfl⟩ := load_ok ht rfl
  obtain ⟨_,-,h⟩ := bind_ok.mp h
  obtain ⟨_,-,h⟩ := bind_ok.mp h
  obtain ⟨_,-,h⟩ := bind_ok.mp h
  obtain ⟨_,hcount,h⟩ := bind_ok.mp h
  obtain ⟨rfl,rfl⟩ := Prod.mk.inj (pure_ok.mp h)
  refine ⟨pairs,rfl,?_,⟨leaves,hleaves,hdistinct,rfl⟩⟩
  rw [ensure_ok.mp hcount]
  exact Nat.zero_add _

theorem verifyComplete_ok {a : Account} {slots : List (Except String (String × String))}
    {code : String} {metadata : Json} {count : ℕ}
    (h : verifyComplete alloy a slots code metadata = .ok count) :
    Matches alloy a code metadata ∧ ∃ pairs : List (String × String),
      slots = pairs.map .ok ∧ count = pairs.length ∧
      Hashes alloy pairs a.storageRoot := by
  obtain ⟨_,hm,h⟩ := bind_ok.mp h
  obtain ⟨⟨root,n⟩,hr,h⟩ := bind_ok.mp h
  obtain ⟨_,he,h⟩ := bind_ok.mp h
  obtain rfl := pure_ok.mp h
  obtain rfl := ensure_ok.mp he
  exact ⟨verifyMetadata_ok.mp hm,storageRoot_ok hr⟩

end Sound

/-!
## A sample account

One account is the only leaf of its state trie, and two slots are set.
-/

def sampleBytes (digits : String) : Bytes := (decodeChars digits.toList).getD []

def sampleAddress : String := "0x1111111111111111111111111111111111111111"

def sampleCode : String := "0x60006000"

def sampleStateRoot : Bytes :=
  sampleBytes "3accb87d9441427051a17fb699c95802115579abd9116abf8f5274c78effabe1"

def sampleStorageRoot : Bytes :=
  sampleBytes "a02bfdb4c090e97d418fc091c4ed76f00d84487dfa687e09335d05e040844cc0"

def sampleCodeHash : Bytes :=
  sampleBytes "5e3ce470a8506d55e59815db7232a08774174ae0c7fdb2fbc81a49e4e242b0d6"

def sampleKey : Bytes := sampleBytes "e2c07404b8c1df4c46226425cac68c28d27a766bbddce62309f36724839b22c0"

def sampleAccount : Account := ⟨sampleAddress,true,3,2^200,sampleStorageRoot,sampleCodeHash⟩

/-- The trie node of a leaf at the root, for a whole key. -/
def rootLeaf (key value : Bytes) : Bytes := rlpList [Rlp.encode (0x20::key),Rlp.encode value]

def sampleNode : Bytes :=
  rootLeaf sampleKey (encodeAccount 3 (2^200) sampleStorageRoot sampleCodeHash)

def sampleSlots : List (String × String) :=
  [(hex (List.replicate 32 0),hex (List.replicate 31 0 ++ [10])),
    (hex (List.replicate 31 0 ++ [7]),hex (0x80::List.replicate 31 0))]

def sampleLeaves : List (Bytes × Bytes) :=
  [(sampleBytes "290decd9548b62a8d60345a988386fc84ba6bc95484008f6362f93160ef3e563",[10]),
    (sampleBytes "a66cc928b5edb82af9bd49922954155ab7b0942694bea4ce44661d9a8736c688",
      0xa0::0x80::List.replicate 31 0)]

def sampleHashes : List (Bytes × Bytes) :=
  [(List.replicate 20 0x11,sampleKey),(sampleNode,sampleStateRoot),
    (sampleBytes "60006000",sampleCodeHash)]

def sampleSlotHash : Equiv.Perm Bytes :=
  Equiv.swap (List.replicate 32 0) ((sampleLeaves.map Prod.fst).headD []) *
    Equiv.swap (List.replicate 31 0 ++ [7]) ((sampleLeaves.map Prod.fst).getLastD [])

def sampleKeccak (hashes : List (Bytes × Bytes)) (input : Bytes) : Bytes :=
  let found := (sampleHashes ++ hashes).find? (fun e => e.1 == input)
  if input.length = 32 then sampleSlotHash input
  else (((found.map Prod.snd).getD []) ++ List.replicate 32 0).take 32

theorem swap_length {a b c : Bytes} (ha : a.length = 32) (hb : b.length = 32)
    (hc : c.length = 32) : (Equiv.swap a b c).length = 32 := by
  rw [Equiv.swap_apply_def]
  split_ifs <;> assumption

theorem sampleKeccak_length (hashes : List (Bytes × Bytes)) (input : Bytes) :
    (sampleKeccak hashes input).length = 32 := by
  rw [sampleKeccak]
  split_ifs with h
  · exact swap_length (by decide +kernel) (by decide +kernel)
      (swap_length (by decide +kernel) (by decide +kernel) h)
  · simp

def sampleAlloy (hashes : List (Bytes × Bytes)) : Alloy where
  keccak256 := sampleKeccak hashes
  keccak256_length := sampleKeccak_length hashes
  verifyProof root key expected nodes :=
    match expected with
    | some value => root == sampleStateRoot && nodes == [sampleNode] &&
        sampleNode == rootLeaf key value
    | none => false
  hashBuilder leaves := if leaves = sampleLeaves then sampleStorageRoot else []

def sampleProof (nonce : String) : Json :=
  .ofPairs [("address",.str sampleAddress),("nonce",.str nonce),
    ("balance",.str ("0x1" ++ String.ofList (List.replicate 50 '0'))),
    ("storageHash",.str (hex sampleStorageRoot)),("codeHash",.str (hex sampleCodeHash)),
    ("accountProof",.arr [.str (hex sampleNode)])]

theorem sampleProof_field (nonce name : String) : (sampleProof nonce).get? name = lookup name
    [("address",.str sampleAddress),("nonce",.str nonce),
      ("balance",.str ("0x1" ++ String.ofList (List.replicate 50 '0'))),
      ("storageHash",.str (hex sampleStorageRoot)),("codeHash",.str (hex sampleCodeHash)),
      ("accountProof",.arr [.str (hex sampleNode)])] :=
  Json.get?_ofPairs (by simp) name

theorem sampleProof_reports {nonce : String} (h : quantity nonce 64 = .ok 3) :
    Reports (sampleProof nonce) sampleAccount [sampleNode] where
  address := by
    rw [sameAccount, sampleProof_field]
    exact bind_ok.mpr ⟨_,rfl,bind_ok.mpr ⟨sampleAddress,by decide +kernel,by simp [sampleAccount]⟩⟩
  nonce := ⟨nonce,string_ok (sampleProof_field _ _),h⟩
  balance := ⟨_,string_ok (sampleProof_field _ _),by decide +kernel⟩
  storageRoot := ⟨_,string_ok (sampleProof_field _ _),fixed_hex (by decide +kernel)⟩
  codeHash := ⟨_,string_ok (sampleProof_field _ _),fixed_hex (by decide +kernel)⟩
  nodes := by
    rw [proofNodes, sampleProof_field]
    exact bind_ok.mpr ⟨[.str (hex sampleNode)],rfl,
      mapM_ok.mpr (.cons (bind_ok.mpr ⟨_,rfl,unhex_hex sampleNode⟩) .nil)⟩

theorem sampleAccount_verified (hashes : List (Bytes × Bytes)) {nonce : String}
    (h : quantity nonce 64 = .ok 3) : verifyAccount (sampleAlloy hashes) (hex sampleStateRoot)
      sampleAddress (sampleProof nonce) = .ok sampleAccount := by
  have hkey : sampleKeccak hashes (List.replicate 20 0x11) = sampleKey := by
    rw [sampleKeccak, List.find?_append]
    rfl
  have hfound : provenExists (sampleAlloy hashes) sampleStateRoot sampleKey [sampleNode] 3 (2^200)
      sampleStorageRoot sampleCodeHash = .ok true := by
    have hopen : (sampleAlloy []).verifyProof sampleStateRoot sampleKey
        (some (encodeAccount 3 (2^200) sampleStorageRoot sampleCodeHash)) [sampleNode] = true := by
      decide +kernel
    exact if_pos hopen
  refine verifyAccount_iff.mpr ⟨sampleStateRoot,[sampleNode],List.replicate 20 0x11,
    fixed_hex (by decide +kernel),by decide +kernel,by decide +kernel,sampleProof_reports h,?_⟩
  exact (congrArg (fun k => provenExists (sampleAlloy hashes) sampleStateRoot k [sampleNode] 3
    (2^200) sampleStorageRoot sampleCodeHash) hkey).trans hfound

theorem rlpList_flatten {a b : List Bytes} (ha : a.flatten.length < 2^64)
    (hb : b.flatten.length < 2^64) (h : rlpList a = rlpList b) : a.flatten = b.flatten := by
  have hdecode : ∀ l : List Bytes, l.flatten.length < 2^64 →
      Rlp.decodeBytes (rlpList l) true = some (l.flatten,[]) := by
    intro l hl
    rw [rlpList, ← List.length_flatten]
    have hd : Rlp.decodeBytes (Rlp.header true l.flatten.length ++ (l.flatten ++ [])) true =
        some (l.flatten,[]) := Rlp.decode_header true hl (by simp)
    rwa [List.append_nil] at hd
  have hd := hdecode a ha
  rw [h, hdecode b hb] at hd
  exact (Prod.mk.inj (Option.some.inj hd)).1.symm

/-- The encoding of an account determines its fields. -/
theorem encodeAccount_injective {n m v w : ℕ} {s t c d : Bytes} (hn : n < 2^64) (hm : m < 2^64)
    (hv : v < 2^256) (hw : w < 2^256) (hs : s.length = 32) (ht : t.length = 32)
    (hc : c.length = 32) (hd : d.length = 32)
    (h : encodeAccount n v s c = encodeAccount m w t d) : n = m ∧ v = w ∧ s = t ∧ c = d := by
  have hn8 : (Rlp.toBytes n).length ≤ 8 := Rlp.toBytes_length.mpr (by norm_num; omega)
  have hm8 : (Rlp.toBytes m).length ≤ 8 := Rlp.toBytes_length.mpr (by norm_num; omega)
  have hv32 : (Rlp.toBytes v).length ≤ 32 := Rlp.toBytes_length.mpr (by norm_num; omega)
  have hw32 : (Rlp.toBytes w).length ≤ 32 := Rlp.toBytes_length.mpr (by norm_num; omega)
  have hsize : ∀ (a b e f : Bytes), a.length ≤ 8 → b.length ≤ 32 → e.length = 32 →
      f.length = 32 → [Rlp.encode a,Rlp.encode b,Rlp.encode e,Rlp.encode f].flatten.length < 2^64 := by
    intro a b e f ha hb he hf
    have h1 : (Rlp.encode a).length ≤ a.length+9 := Rlp.encode_length (by omega)
    have h2 : (Rlp.encode b).length ≤ b.length+9 := Rlp.encode_length (by omega)
    have h3 : (Rlp.encode e).length ≤ e.length+9 := Rlp.encode_length (by omega)
    have h4 : (Rlp.encode f).length ≤ f.length+9 := Rlp.encode_length (by omega)
    simp only [List.flatten_cons, List.flatten_nil, List.append_nil, List.length_append]
    omega
  have hf := rlpList_flatten (hsize _ _ _ _ hn8 hv32 hs hc) (hsize _ _ _ _ hm8 hw32 ht hd) h
  simp only [List.flatten_cons] at hf
  obtain ⟨hnm,hf⟩ := Rlp.encode_append_injective (by omega) (by omega) hf
  obtain ⟨hvw,hf⟩ := Rlp.encode_append_injective (by omega) (by omega) hf
  obtain ⟨hst,hf⟩ := Rlp.encode_append_injective (by omega) (by omega) hf
  obtain ⟨hcd,-⟩ := Rlp.encode_append_injective (by omega) (by omega) hf
  exact ⟨Rlp.toBytes_injective hnm,Rlp.toBytes_injective hvw,hst,hcd⟩

/-- The trie library never opens one key under one root to two values, or to
a value and to absence. -/
def Unambiguous (alloy : Alloy) : Prop :=
  ∀ root key expected nodes expected' nodes', alloy.verifyProof root key expected nodes →
    alloy.verifyProof root key expected' nodes' → expected = expected'

section Unambiguous
variable {alloy : Alloy} {stateRoot selected : String} {proof other : Json} {a b : Account}

theorem reports_length {nodes : List Bytes} (h : Reports proof a nodes) :
    a.storageRoot.length = 32 ∧ a.codeHash.length = 32 := by
  obtain ⟨_,-,hs⟩ := h.storageRoot
  obtain ⟨_,-,hc⟩ := h.codeHash
  exact ⟨(fixed_ok.mp hs).2,(fixed_ok.mp hc).2⟩

theorem account_unambiguous (hu : Unambiguous alloy)
    (ha : verifyAccount alloy stateRoot selected proof = .ok a)
    (hb : verifyAccount alloy stateRoot selected other = .ok b) :
    a = b ∧ (a.exists = false → a.nonce = 0 ∧ a.balance = 0 ∧ a.storageRoot = emptyRootHash ∧
      a.codeHash = alloy.keccak256 []) := by
  obtain ⟨root,nodes,hroot,-,hname,hopen⟩ := verifyAccount_ok ha
  obtain ⟨root',nodes',hroot',-,hname',hopen'⟩ := verifyAccount_ok hb
  obtain rfl := Except.ok.inj (hroot.symm.trans hroot')
  have haddress := Except.ok.inj (hname.symm.trans hname')
  refine ⟨?_,hopen.empty⟩
  obtain ⟨_,_,_,-,-,-,hr,-⟩ := verifyAccount_iff.mp ha
  obtain ⟨_,_,_,-,-,-,hr',-⟩ := verifyAccount_iff.mp hb
  obtain ⟨hs,hc⟩ := reports_length hr
  obtain ⟨hs',hc'⟩ := reports_length hr'
  obtain ⟨key,-,hkey,hproof⟩ := hopen.opened
  obtain ⟨key',-,hkey',hproof'⟩ := hopen'.opened
  obtain rfl := hex_injective (hkey.symm.trans (haddress.trans hkey'))
  -- the two proofs agree on presence, and then on what they open
  cases hfound : a.exists with
  | true =>
    rw [hfound, if_pos rfl] at hproof
    cases hfound' : b.exists with
    | true =>
      rw [hfound', if_pos rfl] at hproof'
      have hvalue := Option.some.inj (hu _ _ _ _ _ _ hproof hproof')
      obtain ⟨hn,hv,hst,hco⟩ := encodeAccount_injective hopen.nonce hopen'.nonce hopen.balance
        hopen'.balance hs hs' hc hc' hvalue
      cases a
      cases b
      simp_all
    | false =>
      rw [hfound'] at hproof'
      exact absurd (hu _ _ _ _ _ _ hproof hproof') (by simp)
  | false =>
    rw [hfound] at hproof
    cases hfound' : b.exists with
    | true =>
      rw [hfound', if_pos rfl] at hproof'
      exact absurd (hu _ _ _ _ _ _ hproof hproof') (by simp)
    | false =>
      obtain ⟨hn,hv,hst,hco⟩ := hopen.empty hfound
      obtain ⟨hn',hv',hst',hco'⟩ := hopen'.empty hfound'
      cases a
      cases b
      simp_all

end Unambiguous

theorem sampleAlloy_unambiguous : Unambiguous (sampleAlloy []) := by
  intro root key expected nodes expected' nodes' h h'
  have hsize : ∀ l : List Bytes, rlpList l = sampleNode → l.flatten.length < 2^64 := by
    intro l hl
    have hlen := congrArg List.length hl
    rw [show sampleNode.length = 134 by decide +kernel, rlpList, List.length_append] at hlen
    omega
  cases expected with
  | none => cases h
  | some value =>
    cases expected' with
    | none => cases h'
    | some value' =>
      simp only [sampleAlloy, Bool.and_eq_true, beq_iff_eq] at h h'
      have hv : rlpList [Rlp.encode (0x20::key),Rlp.encode value] = sampleNode := h.2.symm
      have hv' : rlpList [Rlp.encode (0x20::key),Rlp.encode value'] = sampleNode := h'.2.symm
      have hl := hsize _ hv
      have hl' := hsize _ hv'
      have hf := rlpList_flatten hl hl' (hv.trans hv'.symm)
      simp only [List.flatten_cons, List.flatten_nil, List.append_nil, List.length_append]
        at hf hl hl'
      have hle := Rlp.length_le_encode value
      have hle' := Rlp.length_le_encode value'
      have heq := List.append_cancel_left hf
      exact congrArg some (Rlp.encode_injective (by omega) (by omega) heq)

theorem account_unambiguous_sample : Unambiguous (sampleAlloy []) ∧
    ∃ a b, verifyAccount (sampleAlloy []) (hex sampleStateRoot) sampleAddress
        (sampleProof "0x3") = .ok a ∧
      verifyAccount (sampleAlloy []) (hex sampleStateRoot) sampleAddress
        (sampleProof "0x03") = .ok b ∧ a = b := by
  have ha := sampleAccount_verified [] (show quantity "0x3" 64 = .ok 3 by decide +kernel)
  have hb := sampleAccount_verified [] (show quantity "0x03" 64 = .ok 3 by decide +kernel)
  exact ⟨sampleAlloy_unambiguous,_,_,ha,hb,
    (account_unambiguous sampleAlloy_unambiguous ha hb).1⟩

end EvmState.Proof
