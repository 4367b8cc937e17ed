import EvmState.Persist
import EvmState.Params

/-!
# Collected state changes

The shared core of the mappers: the persisted records of a block that pass
the account filter, each kind sorted by its block-global execution ordinal.
-/

set_option autoImplicit false

namespace EvmState.Collect
open EvmState.Hex EvmState.Fallible EvmState.Persist EvmState.Params

structure Origin where
  ordinal : ℕ
  scope : Scope
  txHash : Bytes
  txIndex : ℕ
  txStatus : ℤ
  callIndex : ℕ
  deriving DecidableEq, Repr

def origin (ord : ℕ) (ctx : Ctx) : Origin :=
  ⟨ord,ctx.scope,ctx.txHash,ctx.txIndex,ctx.txStatus,ctx.callIndex⟩

structure BlockInfo where
  number : ℕ
  hash : Bytes
  parentHash : Bytes
  timestamp : ℕ
  stateRoot : Bytes
  coinbase : Bytes
  transactionCount : ℕ
  deriving DecidableEq, Repr

structure StorageChange where
  address : Bytes
  key : Bytes
  oldValue : Bytes
  newValue : Bytes
  origin : Origin
  deriving DecidableEq, Repr

structure BalanceChange where
  address : Bytes
  oldValue : String
  newValue : String
  reason : ℤ
  origin : Origin
  deriving DecidableEq, Repr

structure NonceChange where
  address : Bytes
  oldValue : ℕ
  newValue : ℕ
  origin : Origin
  deriving DecidableEq, Repr

structure CodeChange where
  address : Bytes
  oldHash : Bytes
  newHash : Bytes
  newCode : Bytes
  origin : Origin
  deriving DecidableEq, Repr

structure SetCodeAuthorization where
  txHash : Bytes
  txIndex : ℕ
  index : ℕ
  authority : Bytes
  delegate : Bytes
  nonce : ℕ
  discarded : Bool
  txStatus : ℤ
  deriving DecidableEq, Repr

structure StateChanges where
  block : BlockInfo
  storageChanges : List StorageChange
  balanceChanges : List BalanceChange
  nonceChanges : List NonceChange
  codeChanges : List CodeChange
  setCodeAuthorizations : List SetCodeAuthorization
  deriving DecidableEq, Repr

def bigEndian (bs : Bytes) : ℕ := bs.foldl (fun n b => 256*n+b.toNat) 0

def balanceValue (v : Option Bytes) : ℕ := bigEndian (v.getD [])

def bigintDec (v : Option Bytes) : String :=
  match v with
  | some b => if b.isEmpty then "0" else toString (bigEndian b)
  | none => "0"

theorem bigintDec_value (v : Option Bytes) : bigintDec v = toString (balanceValue v) := by
  cases v with
  | none => rfl
  | some b => cases b <;> rfl

section Collector
variable (filter : Filter)

def storage : Record → Option StorageChange
  | .storage c ctx => if filter.matchesAccount c.address then
      some ⟨c.address,c.key,c.oldValue,c.newValue,origin c.ordinal ctx⟩ else none
  | _ => none

def balance : Record → Option BalanceChange
  | .balance c ctx => if filter.matchesAccount c.address then
      some ⟨c.address,bigintDec c.oldValue,bigintDec c.newValue,c.reasonCode,origin c.ordinal ctx⟩
      else none
  | _ => none

def nonce : Record → Option NonceChange
  | .nonce c ctx => if filter.matchesAccount c.address then
      some ⟨c.address,c.oldValue,c.newValue,origin c.ordinal ctx⟩ else none
  | _ => none

def code : Record → Option CodeChange
  | .code c ctx => if filter.matchesAccount c.address then
      some ⟨c.address,c.oldHash,c.newHash,c.newCode,origin c.ordinal ctx⟩ else none
  | _ => none

def authorization (trx : Eth.TransactionTrace) (a : Eth.SetCodeAuthorization × ℕ) :
    Option SetCodeAuthorization :=
  let authority := a.1.authority.getD []
  if filter.matchesAccount authority || filter.matchesAccount a.1.address then
    some ⟨trx.hash,trx.index,a.2,authority,a.1.address,a.1.nonce,a.1.discarded,trx.statusCode⟩
  else none

def setCodeAuthorizations (block : Eth.Block) : List SetCodeAuthorization :=
  (block.transactionTraces.filter (fun trx => trx.type = .trxTypeSetCode)).flatMap
    (fun trx => trx.setCodeAuthorizations.zipIdx.filterMap (authorization filter trx))

end Collector

/-- The cast from a signed to an unsigned 64-bit integer. -/
def asU64 (n : ℤ) : ℕ := (n % 2^64).toNat

def blockInfo (block : Eth.Block) : BlockInfo where
  number := block.number
  hash := block.hash
  parentHash := (block.header.map (·.parentHash)).getD []
  timestamp := ((block.header.bind (·.timestamp)).map (fun t => asU64 t.seconds)).getD 0
  stateRoot := (block.header.map (·.stateRoot)).getD []
  coinbase := (block.header.map (·.coinbase)).getD []
  transactionCount := block.transactionTraces.length

def sortByOrdinal {α : Type} (ord : α → ℕ) (l : List α) : List α :=
  l.insertionSort (fun a b => ord a ≤ ord b)

def collect (params : String) (block : Eth.Block) : Except String StateChanges := do
  let filter ← Filter.parse params
  let records ← collectBlock block
  return {
    block := blockInfo block
    storageChanges := sortByOrdinal (·.origin.ordinal) (records.filterMap (storage filter))
    balanceChanges := sortByOrdinal (·.origin.ordinal) (records.filterMap (balance filter))
    nonceChanges := sortByOrdinal (·.origin.ordinal) (records.filterMap (nonce filter))
    codeChanges := sortByOrdinal (·.origin.ordinal) (records.filterMap (code filter))
    setCodeAuthorizations := setCodeAuthorizations filter block }

theorem mem_sortByOrdinal {α : Type} {ord : α → ℕ} {l : List α} {a : α} :
    a ∈ sortByOrdinal ord l ↔ a ∈ l := (List.perm_insertionSort _ l).mem_iff

theorem sortByOrdinal_ordered {α : Type} (ord : α → ℕ) (l : List α) :
    (sortByOrdinal ord l).Pairwise (fun a b => ord a ≤ ord b) := by
  have : Std.Total (fun a b : α => ord a ≤ ord b) := ⟨fun a b => le_total _ _⟩
  have : IsTrans α (fun a b : α => ord a ≤ ord b) := ⟨fun _ _ _ => le_trans⟩
  exact List.pairwise_insertionSort _ l

theorem filter_orderedInsert {α : Type} {ord : α → ℕ} (p : α → Bool) (a : α) {l : List α}
    (h : l.Pairwise (fun a b => ord a ≤ ord b)) :
    (l.orderedInsert (fun a b => ord a ≤ ord b) a).filter p =
      if p a then (l.filter p).orderedInsert (fun a b => ord a ≤ ord b) a else l.filter p := by
  induction l with
  | nil => by_cases ha : p a <;> simp [ha]
  | cons b l ih =>
    obtain ⟨hb,hl⟩ := List.pairwise_cons.mp h
    rw [List.orderedInsert_cons]
    by_cases hab : ord a ≤ ord b
    · -- every later element is at least b, so a stays in front after filtering
      have hfront : (l.filter p).orderedInsert (fun a b => ord a ≤ ord b) a = a::l.filter p := by
        cases hf : l.filter p with
        | nil => rfl
        | cons c m =>
          have hc : c ∈ l := (List.mem_filter.mp (hf ▸ List.mem_cons_self)).1
          exact List.orderedInsert_cons_of_le _ _ (hab.trans (hb c hc))
      by_cases ha : p a <;> by_cases hpb : p b <;> simp [hab, ha, hpb, hfront]
    · rw [if_neg hab, List.filter_cons, ih hl]
      by_cases ha : p a <;> by_cases hpb : p b <;> simp [hab, ha, hpb]

/-- The sort is stable: it does not see the elements that a filter drops. -/
theorem sortByOrdinal_filter {α : Type} (ord : α → ℕ) (p : α → Bool) (l : List α) :
    (sortByOrdinal ord l).filter p = sortByOrdinal ord (l.filter p) := by
  induction l with
  | nil => rfl
  | cons a l ih =>
    change ((sortByOrdinal ord l).orderedInsert (fun a b => ord a ≤ ord b) a).filter p = _
    rw [filter_orderedInsert p a (sortByOrdinal_ordered ord l), ih, List.filter_cons]
    by_cases ha : p a
    · rw [if_pos ha, if_pos ha]
      rfl
    · rw [if_neg ha, if_neg ha]

end EvmState.Collect
