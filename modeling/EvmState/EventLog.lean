import EvmState.SinksAgree
import EvmState.Lib.Log

/-!
# The PostgreSQL state and its event log

The rows of a sequence of blocks with ascending numbers, loaded block by
block. The event tables hold one row for each persisted change, the tables
of current state show the last change of each key, and a load that starts
again anywhere ends where the first one ended.
-/

set_option autoImplicit false

namespace EvmState.EventLog
open EvmState.Hex EvmState.OrderedMap EvmState.Params EvmState.Upsert EvmState.Log
open EvmState.Reference EvmState.DbOut EvmState.DbOutRows

structure Visit (params : String) where
  block : Eth.Block
  changes : Collect.StateChanges
  collected : Collect.collect params block = .ok changes
  order : HashOrder

variable {params : String}

def Visit.rows (v : Visit params) : DatabaseChanges := DbOut.project v.order v.changes

theorem Visit.info (v : Visit params) : v.changes.block = Collect.blockInfo v.block :=
  collect_block v.collected

theorem Visit.number (v : Visit params) : v.changes.block.number = v.block.number :=
  congrArg Collect.BlockInfo.number v.info

def loaded (visits : List (Visit params)) : Database := load .empty (visits.map Visit.rows)

theorem loaded_table (visits : List (Visit params)) (table : Table) :
    loaded visits table = run .empty (visits.map (fun v => v.rows table)) := by
  rw [loaded, load, List.map_map]
  rfl

structure Delivered (visits : List (Visit params)) : Prop where
  increasing : visits.Pairwise (fun v w => v.block.number < w.block.number)
  ordinals : ∀ v ∈ visits, OrdinalsDiffer v.changes
  words : ∀ v ∈ visits, ∀ c ∈ v.changes.storageChanges, c.key.length = 32

def stored (s : Statement Key String) : Row String := writeColumns .empty (columnsOf s)

/-- One row for each entry of a log, each under a key of its own. -/
structure Holds {ι : Type} (d : Stored Key String) (l : List ι) (rowKey : ι → Key)
    (row : ι → Row String) : Prop where
  rows : ∀ k r, d.get? k = some r ↔ ∃ e ∈ l, rowKey e = k ∧ row e = r
  distinct : l.Pairwise (fun e f => rowKey e ≠ rowKey f)

section Logs
variable (visits : List (Visit params))

def storageLog : List (Visit params × Collect.StorageChange) := entries (·.changes.storageChanges) visits
def balanceLog : List (Visit params × Collect.BalanceChange) := entries (·.changes.balanceChanges) visits
def nonceLog : List (Visit params × Collect.NonceChange) := entries (·.changes.nonceChanges) visits
def codeLog : List (Visit params × Collect.CodeChange) := entries (·.changes.codeChanges) visits

def authorizationLog : List (Visit params × Collect.SetCodeAuthorization) :=
  entries (·.changes.setCodeAuthorizations) visits

end Logs

def position {γ : Type} (origin : γ → Collect.Origin) (e : Visit params × γ) : ℕ ×ₗ ℕ :=
  toLex (e.1.block.number,(origin e.2).ordinal)

/-!
## What the tables say

The rows are stated in the columns of the schema. A word of 32 bytes is its
own padding.
-/

def rowOf (cells : List (String × String)) : Row String := SortedMap.empty.insertAll cells

def positionKey {γ : Type} (origin : γ → Collect.Origin) (e : Visit params × γ) : Key :=
  key [("block_num",toString e.1.block.number),("ordinal",toString (origin e.2).ordinal)]

/-- The cells of an event that do not depend on its kind. -/
def originCells (block : Eth.Block) (o : Collect.Origin) : List (String × String) :=
  [("block_hash",hex block.hash),("timestamp",toString (timestamp block)),
    ("scope",scopeName o.scope),("tx_hash",if o.txHash.isEmpty then "" else hex o.txHash),
    ("tx_index",toString o.txIndex),("tx_status",toString o.txStatus),
    ("call_index",toString o.callIndex)]

def storageEvent (e : Visit params × Collect.StorageChange) : Row String :=
  rowOf ([("address",hex e.2.address),("slot",hex (pad e.2.key)),
    ("old_value",hex (pad e.2.oldValue)),("new_value",hex (pad e.2.newValue))] ++
    originCells e.1.block e.2.origin)

def balanceEvent (e : Visit params × Collect.BalanceChange) : Row String :=
  rowOf ([("address",hex e.2.address),("old_value",e.2.oldValue),("new_value",e.2.newValue),
    ("reason",toString e.2.reason)] ++ originCells e.1.block e.2.origin)

def nonceEvent (e : Visit params × Collect.NonceChange) : Row String :=
  rowOf ([("address",hex e.2.address),("old_value",toString e.2.oldValue),
    ("new_value",toString e.2.newValue)] ++ originCells e.1.block e.2.origin)

def codeEvent (e : Visit params × Collect.CodeChange) : Row String :=
  rowOf ([("address",hex e.2.address),("old_hash",hex e.2.oldHash),("new_hash",hex e.2.newHash)] ++
    originCells e.1.block e.2.origin)

def entryKey (e : Visit params × Collect.SetCodeAuthorization) : Key :=
  key [("block_num",toString e.1.block.number),("tx_hash",hex e.2.txHash),
    ("auth_index",toString e.2.index)]

def authorizationEvent (e : Visit params × Collect.SetCodeAuthorization) : Row String :=
  rowOf [("block_hash",hex e.1.block.hash),("timestamp",toString (timestamp e.1.block)),
    ("tx_index",toString e.2.txIndex),("tx_status",toString e.2.txStatus),
    ("authority",hex e.2.authority),("delegate",hex e.2.delegate),("nonce",toString e.2.nonce),
    ("discarded",toString e.2.discarded)]

def slotKey (c : Collect.StorageChange) : Key :=
  key [("address",hex c.address),("slot",hex (pad c.key))]

def addressKey (a : Bytes) : Key := key [("address",hex a)]

/-- The value, block number and ordinal of a change. -/
def currentRow (e : Visit params × Collect.StorageChange) : Row String :=
  rowOf [("value",hex (pad e.2.newValue)),("block_num",toString e.1.block.number),
    ("ordinal",toString e.2.origin.ordinal)]

/-- The transactions of a block that carry authorizations differ in their hashes. -/
def HashesDiffer (block : Eth.Block) : Prop :=
  ((block.transactionTraces.filter (fun trx => trx.type = .trxTypeSetCode)).map (·.hash)).Nodup

structure LogState (visits : List (Visit params)) (d : Database) : Prop where
  storageChanges : Holds (d .storageChanges) (storageLog visits) (positionKey (·.origin)) storageEvent
  balanceChanges : Holds (d .balanceChanges) (balanceLog visits) (positionKey (·.origin)) balanceEvent
  nonceChanges : Holds (d .nonceChanges) (nonceLog visits) (positionKey (·.origin)) nonceEvent
  codeChanges : Holds (d .codeChanges) (codeLog visits) (positionKey (·.origin)) codeEvent
  authorization : ∀ k, (d .setCodeAuthorizations).get? k =
    (((authorizationLog visits).filter (fun e => entryKey e = k)).getLast?).map authorizationEvent
  authorizations : (∀ v ∈ visits, HashesDiffer v.block) →
    Holds (d .setCodeAuthorizations) (authorizationLog visits) entryKey authorizationEvent
  storage : ∀ k, Shows (position (·.origin)) (fun e => slotKey e.2 = k) (storageLog visits)
    ((d .storage).get? k) currentRow
  accounts : ∀ k, ((d .accounts).get? k).isSome → ∃ a, k = addressKey a
  balance : ∀ a, Shows (position (·.origin)) (fun e => e.2.address = a) (balanceLog visits)
    (cell (d .accounts) (addressKey a) "balance") (fun e => e.2.newValue)
  balanceBlock : ∀ a, Shows (position (·.origin)) (fun e => e.2.address = a) (balanceLog visits)
    (cell (d .accounts) (addressKey a) "balance_block_num") (fun e => toString e.1.block.number)
  nonce : ∀ a, Shows (position (·.origin)) (fun e => e.2.address = a) (nonceLog visits)
    (cell (d .accounts) (addressKey a) "nonce") (fun e => toString e.2.newValue)
  nonceBlock : ∀ a, Shows (position (·.origin)) (fun e => e.2.address = a) (nonceLog visits)
    (cell (d .accounts) (addressKey a) "nonce_block_num") (fun e => toString e.1.block.number)
  codeHash : ∀ a, Shows (position (·.origin)) (fun e => e.2.address = a) (codeLog visits)
    (cell (d .accounts) (addressKey a) "code_hash") (fun e => hex e.2.newHash)
  codeBlock : ∀ a, Shows (position (·.origin)) (fun e => e.2.address = a) (codeLog visits)
    (cell (d .accounts) (addressKey a) "code_block_num") (fun e => toString e.1.block.number)

theorem stored_sets (k : Key) (cells : List (String × String)) :
    stored ⟨k,cells.map (fun c => set c.1 c.2)⟩ = rowOf cells := by
  have hlast : ∀ j, SortedMap.lastOf j (cells.map (fun c => set c.1 c.2)) =
      (SortedMap.lastOf j cells).map Write.set :=
    fun j => SortedMap.lastOf_map Function.injective_id (fun _ v => Write.set v) j cells
  ext j : 1
  rw [stored, writeColumns, SortedMap.get?_mergeWith, get?_columnsOf, hlast, rowOf,
    SortedMap.get?_insertAll_last]
  cases SortedMap.lastOf j cells <;> rfl

section Ascending
variable {visits : List (Visit params)}

theorem ascending {γ : Type} {origin : γ → Collect.Origin} {l : List γ}
    (hle : l.Pairwise (fun a b => (origin a).ordinal ≤ (origin b).ordinal))
    (hne : l.Pairwise (fun a b => (origin a).ordinal ≠ (origin b).ordinal)) :
    l.Pairwise (fun a b => (origin a).ordinal < (origin b).ordinal) :=
  hle.imp₂ (fun _ _ hle hne => lt_of_le_of_ne hle hne) hne

theorem log_ascending {γ : Type} {f : Collect.StateChanges → List γ} {origin : γ → Collect.Origin}
    (h : Delivered visits)
    (hle : ∀ ch, Sorted ch → (f ch).Pairwise (fun a b => (origin a).ordinal ≤ (origin b).ordinal))
    (hne : ∀ ch, OrdinalsDiffer ch →
      (f ch).Pairwise (fun a b => (origin a).ordinal ≠ (origin b).ordinal)) :
    (entries (fun v : Visit params => f v.changes) visits).Pairwise
      (fun d e => position origin d < position origin e) :=
  entries_ascending h.increasing (fun v hv =>
    ascending (hle _ (collect_sorted v.collected)) (hne _ (h.ordinals v hv)))

theorem positionKey_position {γ : Type} {origin : γ → Collect.Origin} {d e : Visit params × γ}
    (h : positionKey origin d = positionKey origin e) : position origin d = position origin e := by
  obtain ⟨hn,ho⟩ := List.cons.inj h
  have hn := Json.toString_nat_injective (Prod.mk.inj (toLex_inj.mp hn)).2
  have ho := Json.toString_nat_injective (Prod.mk.inj (toLex_inj.mp (List.cons.inj ho).1)).2
  rw [position, position, hn, ho]

/-- A table whose statements have keys of their own holds one row for each. -/
theorem holds_rows {γ : Type} {f : Collect.StateChanges → List γ} {rowKey : Visit params × γ → Key}
    {row : Visit params × γ → Row String} (statement : Visit params × γ → Statement Key String)
    {table : Table} (hdistinct : (entries (fun v : Visit params => f v.changes) visits).Pairwise
      (fun d e => rowKey d ≠ rowKey e))
    (hkey : ∀ e, (statement e).key = rowKey e) (hrow : ∀ e, stored (statement e) = row e)
    (hrows : ∀ v : Visit params, v.rows table = gather ((f v.changes).map (fun c => statement (v,c)))) :
    Holds (loaded visits table) (entries (fun v : Visit params => f v.changes) visits) rowKey row := by
  have hflat : (visits.map (fun v => (f v.changes).map (fun c => statement (v,c)))).flatten =
      (entries (fun v : Visit params => f v.changes) visits).map statement := by
    rw [entries, List.map_flatMap, List.flatMap]
    simp only [List.map_map]
    rfl
  refine ⟨fun k r => ?_,hdistinct⟩
  have hload : loaded visits table =
      run .empty ((visits.map (fun v => (f v.changes).map (fun c => statement (v,c)))).map gather) := by
    rw [loaded, load, List.map_map, List.map_map]
    exact congrArg (run _) (List.map_congr_left (fun v _ => hrows v))
  have hkeys : ((entries (fun v : Visit params => f v.changes) visits).map statement).Pairwise
      (fun s t => s.key ≠ t.key) :=
    List.pairwise_map.mpr (hdistinct.imp (fun {d e} h => by rwa [hkey, hkey]))
  rw [hload, run_distinct (by rw [hflat]; exact hkeys), hflat]
  constructor
  · rintro ⟨s,hs,hk,hr⟩
    obtain ⟨e,he,rfl⟩ := List.mem_map.mp hs
    exact ⟨e,he,(hkey e).symm.trans hk,(hrow e).symm.trans hr⟩
  · rintro ⟨e,he,hk,hr⟩
    exact ⟨_,List.mem_map_of_mem he,(hkey e).trans hk,(hrow e).trans hr⟩

theorem holds_events {γ : Type} {f : Collect.StateChanges → List γ} {origin : γ → Collect.Origin}
    {row : Visit params × γ → Row String} (sets : Visit params × γ → List (String × Write String))
    {table : Table} (hasc : (entries (fun v : Visit params => f v.changes) visits).Pairwise
      (fun d e => position origin d < position origin e))
    (hrow : ∀ e k, stored ⟨k,sets e⟩ = row e)
    (hrows : ∀ v : Visit params, v.rows table =
      gather ((f v.changes).map (fun c => ⟨eventKey v.changes.block (origin c),sets (v,c)⟩))) :
    Holds (loaded visits table) (entries (fun v : Visit params => f v.changes) visits)
      (positionKey origin) row := by
  refine holds_rows (fun e => ⟨eventKey e.1.changes.block (origin e.2),sets e⟩)
    (hasc.imp (fun {d e} h hk => h.ne (positionKey_position hk))) (fun e => ?_)
    (fun e => hrow e _) hrows
  rw [eventKey, e.1.number]
  rfl

theorem shows_column {γ : Type} {f : Collect.StateChanges → List γ} {origin : γ → Collect.Origin}
    (address : γ → Bytes) (text : Visit params × γ → String) {column : String}
    (hasc : (entries (fun v : Visit params => f v.changes) visits).Pairwise
      (fun d e => position origin d < position origin e))
    (a : Bytes) (hcolumn : ∀ v : Visit params, written (v.rows .accounts) (accountKey a) column =
      (((f v.changes).filter (fun c => address c = a)).getLast?).map (fun c => .set (text (v,c)))) :
    Shows (position origin) (fun e => address e.2 = a)
      (entries (fun v : Visit params => f v.changes) visits)
      (cell (loaded visits .accounts) (accountKey a) column) text := by
  refine shows_last hasc ?_
  rw [loaded, load, List.map_map, cell_run _ (fun v : Visit params =>
    (((f v.changes).filter (fun c => address c = a)).getLast?).map (fun c => text (v,c)))]
  · rw [getLast?_batches (fun v : Visit params => f v.changes) (fun e => decide (address e.2 = a)) text]
    exact Option.or_none
  · intro v _
    rw [Option.map_map]
    exact hcolumn v

theorem oneSpelling_of_words {ch : Collect.StateChanges}
    (h : ∀ c ∈ ch.storageChanges, c.key.length = 32) : OneSpelling ch := by
  intro c hc d hd _ hp
  rwa [pad_length (h c hc), pad_length (h d hd)] at hp

theorem slotKey_eq (c : Collect.StorageChange) : slotKey c = storageKey c.address c.key := by
  rw [slotKey, storageKey, word_pad]

def storageRow (e : Visit params × Collect.StorageChange) : Statement Key String :=
  storageStatement e.1.block.number (storageItem e.2)

theorem visit_storage {v : Visit params} (hone : OneSpelling v.changes) (k : Key) :
    (v.rows .storage).get? k =
      ((v.changes.storageChanges.filter (fun c => slotKey c = k)).getLast?).map
        (fun c => columnsOf (storageRow (v,c))) := by
  have hrow := fun k c => storage_row (collect_sorted v.collected) hone v.order (k := k) (c := c)
  cases hlast : (v.changes.storageChanges.filter (fun c => slotKey c = k)).getLast? with
  | none =>
    have hnil := List.filter_eq_nil_iff.mp (List.getLast?_eq_none_iff.mp hlast)
    rw [Option.map_none, Option.eq_none_iff_forall_ne_some]
    intro c hc
    obtain ⟨a,j,x,hx,rfl,-⟩ := (hrow k c).mp hc
    obtain ⟨d,hd,hde⟩ := List.mem_map.mp (SortedMap.mem_of_lastOf hx)
    obtain ⟨rfl,rfl⟩ := Prod.mk.inj (toLex_inj.mp (Prod.mk.inj hde).1)
    exact hnil d hd (decide_eq_true rfl)
  | some c =>
    obtain ⟨-,hck⟩ := List.mem_filter.mp (List.mem_of_getLast? hlast)
    have hck : slotKey c = k := of_decide_eq_true hck
    refine (hrow k _).mpr ⟨c.address,pad c.key,(storageItem c).2,?_,hck.symm,?_⟩
    · refine (SortedMap.lastOf_items (fun d => (storageItem d).2)
        (p := fun d => slotKey d = k) (fun d _ => ?_)).trans (by rw [hlast]; rfl)
      rw [decide_eq_true_eq, ← hck, slotKey_eq, slotKey_eq, storageKey_inj, toLex_inj, Prod.mk.injEq]
    · rw [Visit.number]
      rfl

theorem stored_storageRow (e : Visit params × Collect.StorageChange) :
    stored (storageRow e) = currentRow e := by
  rw [currentRow, ← word_pad]
  exact stored_sets _ [("value",word e.2.newValue),("block_num",toString e.1.block.number),
    ("ordinal",toString e.2.origin.ordinal)]

theorem storageRow_overwrites (e : Visit params × Collect.StorageChange) :
    Overwrites ["value","block_num","ordinal"] (columnsOf (storageRow e)) := by
  refine columnsOf_overwrites (s := storageRow e) (fun w hw => ?_)
  simp only [storageRow, storageStatement, DbOut.set, List.mem_cons, List.not_mem_nil, or_false] at hw
  rcases hw with rfl | rfl | rfl <;> exact ⟨_,rfl⟩

/-- A table whose rows are always written whole shows the last entry of each key. -/
theorem last_row {γ : Type} {f : Collect.StateChanges → List γ} (rowKey : Visit params × γ → Key)
    {row : Visit params × γ → Row String} {names : List String} {table : Table}
    (statement : Visit params × γ → Statement Key String)
    (hover : ∀ e, Overwrites names (columnsOf (statement e))) (hrow : ∀ e, stored (statement e) = row e)
    {k : Key} (hget : ∀ v ∈ visits, (v.rows table).get? k =
      (((f v.changes).filter (fun c => rowKey (v,c) = k)).getLast?).map
        (fun c => columnsOf (statement (v,c)))) :
    (loaded visits table).get? k =
      (((entries (fun v : Visit params => f v.changes) visits).filter
        (fun e => rowKey e = k)).getLast?).map row := by
  have hall : ∀ t ∈ visits.map (fun v => v.rows table), ∀ c, t.get? k = some c →
      Overwrites names c := by
    intro t ht c hc
    obtain ⟨v,hv,rfl⟩ := List.mem_map.mp ht
    rw [hget v hv] at hc
    obtain ⟨d,-,rfl⟩ := Option.map_eq_some_iff.mp hc
    exact hover (v,d)
  rw [loaded_table, row_run _ hall, List.filterMap_map]
  have hrows : visits.filterMap ((fun t => t.get? k) ∘ fun v => v.rows table) =
      visits.filterMap (fun v => (((f v.changes).filter (fun c => rowKey (v,c) = k)).getLast?).map
        (fun c => columnsOf (statement (v,c)))) :=
    List.filterMap_congr hget
  rw [hrows, getLast?_batches (fun v : Visit params => f v.changes) (fun e => decide (rowKey e = k))
    (fun e => columnsOf (statement e)), Option.map_map]
  exact congrArg (fun g => Option.map g _) (funext hrow)

theorem shows_storage (h : Delivered visits) (k : Key) :
    Shows (position (·.origin)) (fun e => slotKey e.2 = k) (storageLog visits)
      ((loaded visits .storage).get? k) currentRow :=
  shows_last (log_ascending h (fun _ hs => hs.storage) (fun _ hd => hd.storage))
    (last_row (fun e => slotKey e.2) storageRow storageRow_overwrites stored_storageRow
      (fun v hv => visit_storage (oneSpelling_of_words (h.words v hv)) k))

theorem stored_storageEvent (e : Visit params × Collect.StorageChange) (k : Key) :
    stored ⟨k,storageColumns e.1.changes.block e.2⟩ = storageEvent e := by
  have hsets : storageColumns e.1.changes.block e.2 = ([("address",hex e.2.address),
      ("slot",hex (pad e.2.key)),("old_value",hex (pad e.2.oldValue)),
      ("new_value",hex (pad e.2.newValue))] ++ originCells e.1.block e.2.origin).map
        (fun c => set c.1 c.2) := by
    rw [e.1.info, ← word_pad, ← word_pad, ← word_pad]
    rfl
  rw [hsets]
  exact stored_sets _ _

theorem stored_balanceEvent (e : Visit params × Collect.BalanceChange) (k : Key) :
    stored ⟨k,balanceColumns e.1.changes.block e.2⟩ = balanceEvent e := by
  rw [e.1.info]
  exact stored_sets _ ([("address",hex e.2.address),("old_value",e.2.oldValue),
    ("new_value",e.2.newValue),("reason",toString e.2.reason)] ++ originCells e.1.block e.2.origin)

theorem stored_nonceEvent (e : Visit params × Collect.NonceChange) (k : Key) :
    stored ⟨k,nonceColumns e.1.changes.block e.2⟩ = nonceEvent e := by
  rw [e.1.info]
  exact stored_sets _ ([("address",hex e.2.address),("old_value",toString e.2.oldValue),
    ("new_value",toString e.2.newValue)] ++ originCells e.1.block e.2.origin)

theorem stored_codeEvent (e : Visit params × Collect.CodeChange) (k : Key) :
    stored ⟨k,codeColumns e.1.changes.block e.2⟩ = codeEvent e := by
  rw [e.1.info]
  exact stored_sets _ ([("address",hex e.2.address),("old_hash",hex e.2.oldHash),
    ("new_hash",hex e.2.newHash)] ++ originCells e.1.block e.2.origin)

def authorizationStatement (e : Visit params × Collect.SetCodeAuthorization) : Statement Key String :=
  ⟨authorizationKey e.1.changes.block e.2,authorizationColumns e.1.changes.block e.2⟩

theorem authorization_key (e : Visit params × Collect.SetCodeAuthorization) :
    (authorizationStatement e).key = entryKey e := by
  rw [authorizationStatement, authorizationKey, e.1.number]
  rfl

theorem stored_authorization (e : Visit params × Collect.SetCodeAuthorization) :
    stored (authorizationStatement e) = authorizationEvent e := by
  rw [authorizationStatement, e.1.info]
  exact stored_sets _ [("block_hash",hex e.1.block.hash),("timestamp",toString (timestamp e.1.block)),
    ("tx_index",toString e.2.txIndex),("tx_status",toString e.2.txStatus),
    ("authority",hex e.2.authority),("delegate",hex e.2.delegate),("nonce",toString e.2.nonce),
    ("discarded",toString e.2.discarded)]

def authorizationNames : List String :=
  ["block_hash","timestamp","tx_index","tx_status","authority","delegate","nonce","discarded"]

theorem authorization_overwrites (e : Visit params × Collect.SetCodeAuthorization) :
    Overwrites authorizationNames (columnsOf (authorizationStatement e)) := by
  refine columnsOf_overwrites (s := authorizationStatement e) (fun w hw => ?_)
  simp only [authorizationStatement, authorizationColumns, eventBlock, DbOut.set, List.cons_append,
    List.nil_append, List.mem_cons, List.not_mem_nil, or_false] at hw
  rcases hw with rfl | rfl | rfl | rfl | rfl | rfl | rfl | rfl <;> exact ⟨_,rfl⟩

theorem last_authorization (k : Key) : (loaded visits .setCodeAuthorizations).get? k =
    (((authorizationLog visits).filter (fun e => entryKey e = k)).getLast?).map authorizationEvent := by
  refine last_row entryKey authorizationStatement authorization_overwrites stored_authorization
    (fun v _ => ?_)
  have hnames : ∀ s ∈ v.changes.setCodeAuthorizations.map (fun a => authorizationStatement (v,a)),
      s.sets.map Prod.fst = authorizationNames := by
    intro s hs
    obtain ⟨a,-,rfl⟩ := List.mem_map.mp hs
    rfl
  have hrows : v.rows .setCodeAuthorizations =
      gather (v.changes.setCodeAuthorizations.map (fun a => authorizationStatement (v,a))) := rfl
  rw [hrows, gather_uniform hnames, List.filter_map, List.getLast?_map, Option.map_map]
  simp only [Function.comp_def, authorization_key]

/-- The authorizations of a block have a hash and an index of their own when
the transactions differ in their hashes. -/
theorem authorizations_differ {filter : Filter} {block : Eth.Block} (h : HashesDiffer block) :
    (Collect.setCodeAuthorizations filter block).Pairwise
      (fun a b => (a.txHash,a.index) ≠ (b.txHash,b.index)) := by
  rw [Collect.setCodeAuthorizations, List.pairwise_flatMap]
  have hmade : ∀ {trx : Eth.TransactionTrace} {a : Collect.SetCodeAuthorization},
      a ∈ trx.setCodeAuthorizations.zipIdx.filterMap (Collect.authorization filter trx) →
      a.txHash = trx.hash := by
    intro trx a ha
    obtain ⟨e,-,he⟩ := List.mem_filterMap.mp ha
    simp only [Collect.authorization, Option.ite_none_right_eq_some, Option.some.injEq] at he
    rw [← he.2]
  constructor
  · intro trx _
    have hindex : trx.setCodeAuthorizations.zipIdx.Pairwise (fun d e => d.2 < e.2) := by
      rw [← List.pairwise_map, List.zipIdx_map_snd]
      exact List.pairwise_lt_range'
    refine List.pairwise_filterMap.mpr (hindex.imp (fun {d e} hlt a ha b hb hab => ?_))
    simp only [Collect.authorization, Option.ite_none_right_eq_some, Option.some.injEq] at ha hb
    rw [← ha.2, ← hb.2] at hab
    exact hlt.ne (Prod.mk.inj hab).2
  · refine (List.pairwise_map.mp h).imp (fun {d e} hne a ha b hb hab => hne ?_)
    rw [← hmade ha, ← hmade hb]
    exact (Prod.mk.inj hab).1

theorem authorizations_distinct (h : Delivered visits)
    (hd : ∀ v ∈ visits, HashesDiffer v.block) :
    (authorizationLog visits).Pairwise (fun d e => entryKey d ≠ entryKey e) := by
  have hparts : ∀ d e : Visit params × Collect.SetCodeAuthorization, entryKey d = entryKey e →
      d.1.block.number = e.1.block.number ∧ (d.2.txHash,d.2.index) = (e.2.txHash,e.2.index) := by
    intro d e hk
    obtain ⟨hnumber,hk⟩ := List.cons.inj hk
    obtain ⟨hhash,hk⟩ := List.cons.inj hk
    have hnumber := Json.toString_nat_injective (Prod.mk.inj (toLex_inj.mp hnumber)).2
    have hindex := Json.toString_nat_injective (Prod.mk.inj (toLex_inj.mp (List.cons.inj hk).1)).2
    exact ⟨hnumber,Prod.ext (hex_injective (Prod.mk.inj (toLex_inj.mp hhash)).2) hindex⟩
  rw [authorizationLog, entries, List.pairwise_flatMap]
  constructor
  · intro v hv
    obtain ⟨filter,-,hch⟩ := Fallible.bind_ok.mp v.collected
    obtain ⟨records,-,hch⟩ := Fallible.bind_ok.mp hch
    have hmade : v.changes.setCodeAuthorizations = Collect.setCodeAuthorizations filter v.block := by
      rw [← Fallible.pure_ok.mp hch]
    rw [List.pairwise_map, hmade]
    exact (authorizations_differ (hd v hv)).imp (fun {a b} hne hk => hne (hparts _ _ hk).2)
  · refine h.increasing.imp (fun {v w} hlt d hdm e hem hk => ?_)
    obtain ⟨a,-,rfl⟩ := List.mem_map.mp hdm
    obtain ⟨b,-,rfl⟩ := List.mem_map.mp hem
    exact hlt.ne (hparts _ _ hk).1

theorem visit_column {γ α : Type} {v : Visit params} {column : String} {l : List γ} (address : γ → Bytes)
    (item : γ → ℕ × α) {text : ℕ × α → String} {a : Bytes}
    (h : written (v.rows .accounts) (accountKey a) column =
      (SortedMap.lastOf a (l.map (fun c => (address c,item c)))).map (fun x => .set (text x))) :
    written (v.rows .accounts) (accountKey a) column =
      ((l.filter (fun c => address c = a)).getLast?).map (fun c => .set (text (item c))) := by
  rw [h, SortedMap.lastOf_items item (p := fun c => address c = a) (fun c _ => decide_eq_true_iff),
    Option.map_map]
  rfl

section Columns
variable (v : Visit params) (a : Bytes)

theorem visit_balance (text : ℕ × String → String) {column : String}
    (hcolumn : ∀ e, SortedMap.lastOf column (accountStatement v.changes.block.number (a,e)).sets =
      e.balance.map (fun x => .set (text x))) :
    written (v.rows .accounts) (accountKey a) column =
      ((v.changes.balanceChanges.filter (fun c => c.address = a)).getLast?).map
        (fun c => .set (text (balanceItem c).2)) :=
  visit_column (·.address) (fun c => (balanceItem c).2)
    (accounts_field v.order rfl hcolumn (lastAccounts_balance (collect_sorted v.collected) a))

theorem visit_nonce (text : ℕ × ℕ → String) {column : String}
    (hcolumn : ∀ e, SortedMap.lastOf column (accountStatement v.changes.block.number (a,e)).sets =
      e.nonce.map (fun x => .set (text x))) :
    written (v.rows .accounts) (accountKey a) column =
      ((v.changes.nonceChanges.filter (fun c => c.address = a)).getLast?).map
        (fun c => .set (text (nonceItem c).2)) :=
  visit_column (·.address) (fun c => (nonceItem c).2)
    (accounts_field v.order rfl hcolumn (lastAccounts_nonce (collect_sorted v.collected) a))

theorem visit_code (text : ℕ × Bytes → String) {column : String}
    (hcolumn : ∀ e, SortedMap.lastOf column (accountStatement v.changes.block.number (a,e)).sets =
      e.code.map (fun x => .set (text x))) :
    written (v.rows .accounts) (accountKey a) column =
      ((v.changes.codeChanges.filter (fun c => c.address = a)).getLast?).map
        (fun c => .set (text (codeItem c).2)) :=
  visit_column (·.address) (fun c => (codeItem c).2)
    (accounts_field v.order rfl hcolumn (lastAccounts_code (collect_sorted v.collected) a))

end Columns

theorem loaded_present (table : Table) (k : Key) : ((loaded visits table).get? k).isSome ↔
    ∃ v ∈ visits, ((v.rows table).get? k).isSome := by
  rw [loaded_table, stored_run]
  simp

theorem logState (h : Delivered visits) : LogState visits (loaded visits) where
  storageChanges := holds_events (fun e => storageColumns e.1.changes.block e.2)
    (log_ascending h (fun _ hs => hs.storage) (fun _ hd => hd.storage)) stored_storageEvent (fun _ => rfl)
  balanceChanges := holds_events (fun e => balanceColumns e.1.changes.block e.2)
    (log_ascending h (fun _ hs => hs.balance) (fun _ hd => hd.balance)) stored_balanceEvent (fun _ => rfl)
  nonceChanges := holds_events (fun e => nonceColumns e.1.changes.block e.2)
    (log_ascending h (fun _ hs => hs.nonce) (fun _ hd => hd.nonce)) stored_nonceEvent (fun _ => rfl)
  codeChanges := holds_events (fun e => codeColumns e.1.changes.block e.2)
    (log_ascending h (fun _ hs => hs.code) (fun _ hd => hd.code)) stored_codeEvent (fun _ => rfl)
  authorization := last_authorization
  authorizations hd := holds_rows authorizationStatement (authorizations_distinct h hd)
    authorization_key stored_authorization (fun _ => rfl)
  storage := shows_storage h
  accounts k hk := by
    obtain ⟨v,-,hk⟩ := (loaded_present _ _).mp hk
    obtain ⟨c,hc⟩ := Option.isSome_iff_exists.mp hk
    exact accounts_keys v.order hc
  balance a := shows_column (·.address) _
    (log_ascending h (fun _ hs => hs.balance) (fun _ hd => hd.balance)) a
    (fun v => visit_balance v a _ (balance_column _ a))
  balanceBlock a := shows_column (·.address) _
    (log_ascending h (fun _ hs => hs.balance) (fun _ hd => hd.balance)) a
    (fun v => visit_balance v a (fun _ => toString v.block.number)
      (fun e => (balance_block_column _ a e).trans (by rw [v.number])))
  nonce a := shows_column (·.address) _
    (log_ascending h (fun _ hs => hs.nonce) (fun _ hd => hd.nonce)) a
    (fun v => visit_nonce v a _ (nonce_column _ a))
  nonceBlock a := shows_column (·.address) _
    (log_ascending h (fun _ hs => hs.nonce) (fun _ hd => hd.nonce)) a
    (fun v => visit_nonce v a (fun _ => toString v.block.number)
      (fun e => (nonce_block_column _ a e).trans (by rw [v.number])))
  codeHash a := shows_column (·.address) _
    (log_ascending h (fun _ hs => hs.code) (fun _ hd => hd.code)) a
    (fun v => visit_code v a _ (code_column _ a))
  codeBlock a := shows_column (·.address) _
    (log_ascending h (fun _ hs => hs.code) (fun _ hd => hd.code)) a
    (fun v => visit_code v a (fun _ => toString v.block.number)
      (fun e => (code_block_column _ a e).trans (by rw [v.number])))

/-- The rows of a block do not depend on how its hash maps are walked. -/
theorem rows_deterministic {v w : Visit params} (hone : OneSpelling v.changes)
    (hblock : v.block = w.block) : v.rows = w.rows := by
  have hchanges : v.changes = w.changes :=
    Except.ok.inj (v.collected.symm.trans (hblock ▸ w.collected))
  funext table
  rw [Visit.rows, Visit.rows, ← hchanges, DbOut.project, DbOut.project]
  cases table with
  | storage =>
    exact gather_perm (storage_distinct (collect_sorted v.collected) hone v.order)
      (((v.order.storage_perm _).trans (w.order.storage_perm _).symm).map _)
  | accounts =>
    exact gather_perm (accounts_distinct v.order)
      (((v.order.accounts_perm _).trans (w.order.accounts_perm _).symm).map _)
  | _ => rfl

theorem rows_again {again : List (Visit params)} (hone : ∀ v ∈ visits, OneSpelling v.changes)
    (h : again.map Visit.block = visits.map Visit.block) :
    again.map Visit.rows = visits.map Visit.rows := by
  induction visits generalizing again with
  | nil => simpa using h
  | cons v visits ih =>
    cases again with
    | nil => simp at h
    | cons w again =>
      obtain ⟨hw,h⟩ := List.cons.inj h
      rw [List.map_cons, List.map_cons, rows_deterministic (hone v (by simp)) hw.symm,
        ih (fun u hu => hone u (by simp [hu])) h]

end Ascending

/-- The tables of current state show the last event of each key, and every
block from any place on may be loaded once more without a change. -/
theorem state_is_log {visits : List (Visit params)} (h : Delivered visits) :
    LogState visits (loaded visits) ∧
      ∀ (k : ℕ) (again : List (Visit params)),
        again.map Visit.block = (visits.drop k).map Visit.block →
        load (loaded visits) (again.map Visit.rows) = loaded visits := by
  refine ⟨logState h,fun k again hagain => ?_⟩
  have hrows : again.map Visit.rows = (visits.drop k).map Visit.rows := rows_again
    (fun v hv => oneSpelling_of_words (h.words v (List.mem_of_mem_drop hv))) hagain
  funext table
  rw [hrows, load, loaded, load, List.map_drop, List.map_drop]
  exact run_resume _ k _

section Sample
open Replay

def sampleKey : Bytes := List.replicate 32 1

def wordBlock (number : ℕ) (value : UInt8) : Eth.Block :=
  sampleBlock number [sampleTransaction 9 { sampleCall with storageChanges :=
    [⟨sampleAccount,sampleKey,[],List.replicate 32 value,3⟩] }]

def wordChanges (number : ℕ) (value : UInt8) : Collect.StateChanges where
  block := Collect.blockInfo (wordBlock number value)
  storageChanges := [⟨sampleAccount,sampleKey,[],List.replicate 32 value,SinksAgree.sampleOrigin 3⟩]
  balanceChanges := []
  nonceChanges := []
  codeChanges := []
  setCodeAuthorizations := []

def sampleVisits : List (Visit sampleParams) :=
  [⟨wordBlock 100 7,wordChanges 100 7,by decide +kernel,⟨id,id,List.Perm.refl,List.Perm.refl⟩⟩,
    ⟨wordBlock 101 9,wordChanges 101 9,by decide +kernel,⟨id,id,List.Perm.refl,List.Perm.refl⟩⟩]

theorem sampleVisits_delivered : Delivered sampleVisits where
  increasing := by simp [sampleVisits, wordBlock, sampleBlock]
  ordinals v hv := by
    simp only [sampleVisits, List.mem_cons, List.not_mem_nil, or_false] at hv
    rcases hv with rfl | rfl <;> exact ⟨by simp [wordChanges],.nil,.nil,.nil⟩
  words v hv c hc := by
    simp only [sampleVisits, List.mem_cons, List.not_mem_nil, or_false] at hv
    rcases hv with rfl | rfl <;> simp only [wordChanges, List.mem_singleton] at hc <;> subst hc <;> rfl

theorem state_is_log_sample : LogState sampleVisits (loaded sampleVisits) ∧
    ∀ (k : ℕ) (again : List (Visit sampleParams)),
      again.map Visit.block = (sampleVisits.drop k).map Visit.block →
      load (loaded sampleVisits) (again.map Visit.rows) = loaded sampleVisits :=
  state_is_log sampleVisits_delivered

end Sample
end EvmState.EventLog
