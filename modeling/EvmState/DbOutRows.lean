import EvmState.DbOut
import EvmState.Reference
import EvmState.Lib.Json

/-!
# What the PostgreSQL sink writes for one block

The collected changes are in ordinal order, so that both hash maps hold the
last change of each of their keys, whatever the ordinals are compared with.
The order in which the maps are walked shows only where two keys of the
storage map are one 32-byte slot.
-/

set_option autoImplicit false

namespace EvmState.DbOutRows
open EvmState.Hex EvmState.OrderedMap EvmState.Params EvmState.Upsert EvmState.DbOut EvmState.Reference

theorem join_zeros (n : ℕ) :
    String.join (List.replicate n "00") = String.ofList (List.replicate (2*n) '0') := by
  induction n with
  | zero => rfl
  | succ n ih =>
    rw [List.replicate_succ, String.join_cons, ih, show 2*(n+1) = 2*n+1+1 by omega,
      List.replicate_succ, List.replicate_succ]
    exact String.toList_injective (by simp)

theorem word_pad (b : Bytes) : word b = hex (pad b) := by
  simp only [word, join_zeros, hex, encode, pad, List.leftpad, encodeChars_append,
    encodeChars_replicate_zero]
  exact String.toList_injective (by simp)

theorem pad_length {b : Bytes} (h : b.length = 32) : pad b = b := by
  simp [pad, List.leftpad, h]

structure Sorted (ch : Collect.StateChanges) : Prop where
  storage : ch.storageChanges.Pairwise (fun a b => a.origin.ordinal ≤ b.origin.ordinal)
  balance : ch.balanceChanges.Pairwise (fun a b => a.origin.ordinal ≤ b.origin.ordinal)
  nonce : ch.nonceChanges.Pairwise (fun a b => a.origin.ordinal ≤ b.origin.ordinal)
  code : ch.codeChanges.Pairwise (fun a b => a.origin.ordinal ≤ b.origin.ordinal)

structure OrdinalsDiffer (ch : Collect.StateChanges) : Prop where
  storage : ch.storageChanges.Pairwise (fun a b => a.origin.ordinal ≠ b.origin.ordinal)
  balance : ch.balanceChanges.Pairwise (fun a b => a.origin.ordinal ≠ b.origin.ordinal)
  nonce : ch.nonceChanges.Pairwise (fun a b => a.origin.ordinal ≠ b.origin.ordinal)
  code : ch.codeChanges.Pairwise (fun a b => a.origin.ordinal ≠ b.origin.ordinal)

theorem collect_sorted {params : String} {block : Eth.Block} {ch : Collect.StateChanges}
    (h : Collect.collect params block = .ok ch) : Sorted ch := by
  obtain ⟨filter,-,h⟩ := Fallible.bind_ok.mp h
  obtain ⟨records,-,h⟩ := Fallible.bind_ok.mp h
  obtain rfl := Fallible.pure_ok.mp h
  exact ⟨Collect.sortByOrdinal_ordered _ _,Collect.sortByOrdinal_ordered _ _,
    Collect.sortByOrdinal_ordered _ _,Collect.sortByOrdinal_ordered _ _⟩

theorem collect_block {params : String} {block : Eth.Block} {ch : Collect.StateChanges}
    (h : Collect.collect params block = .ok ch) : ch.block = Collect.blockInfo block := by
  obtain ⟨filter,-,h⟩ := Fallible.bind_ok.mp h
  obtain ⟨records,-,h⟩ := Fallible.bind_ok.mp h
  obtain rfl := Fallible.pure_ok.mp h
  rfl

theorem later_of_le {α : Type} {old : Option (ℕ × α)} {o : ℕ} (v : α)
    (h : ∀ e, old = some e → e.1 ≤ o) : later old o v = some (o,v) := by
  rw [later, if_pos]
  cases old with
  | none => rfl
  | some e => simpa using h e rfl

def storageItem (c : Collect.StorageChange) : StorageItem :=
  (toLex (c.address,c.key),c.origin.ordinal,c.newValue)

theorem storeLast_fold {l : List Collect.StorageChange}
    (hl : l.Pairwise (fun a b => a.origin.ordinal ≤ b.origin.ordinal))
    {m : SortedMap (Bytes ×ₗ Bytes) (ℕ × Bytes)}
    (hm : ∀ k e, m.get? k = some e → ∀ c ∈ l, e.1 ≤ c.origin.ordinal) :
    l.foldl storeLast m = m.insertAll (l.map storageItem) := by
  induction l generalizing m with
  | nil => rfl
  | cons c l ih =>
    obtain ⟨hc,hl⟩ := List.pairwise_cons.mp hl
    have hstep : storeLast m c = m.insert (storageItem c).1 (storageItem c).2 := by
      rw [storeLast, later_of_le c.newValue (fun e he => hm _ e he c (by simp))]
      rfl
    rw [List.foldl_cons, hstep, ih hl]
    · rfl
    · intro k e he d hd
      rw [SortedMap.get?_insert] at he
      split at he
      · cases he
        exact hc d hd
      · exact hm k e he d (by simp [hd])

theorem lastStorage_eq {ch : Collect.StateChanges} (h : Sorted ch) :
    lastStorage ch = SortedMap.empty.insertAll (ch.storageChanges.map storageItem) :=
  storeLast_fold h.storage (by simp)

section Fields
variable {γ α : Type} (step : SortedMap Bytes Acc → γ → SortedMap Bytes Acc)
  (field : Acc → Option (ℕ × α)) (address : γ → Bytes) (item : γ → ℕ × α)

theorem field_fold
    (hstep : ∀ m c a, field (accountAt (step m c) a) =
      if a = address c then later (field (accountAt m a)) (item c).1 (item c).2
      else field (accountAt m a))
    {l : List γ} (hl : l.Pairwise (fun a b => (item a).1 ≤ (item b).1))
    (m : SortedMap Bytes Acc)
    (hm : ∀ a v, field (accountAt m a) = some v → ∀ c ∈ l, v.1 ≤ (item c).1) (a : Bytes) :
    field (accountAt (l.foldl step m) a) =
      (SortedMap.lastOf a (l.map (fun c => (address c,item c)))).or (field (accountAt m a)) := by
  induction l generalizing m with
  | nil => rfl
  | cons c l ih =>
    obtain ⟨hc,hl⟩ := List.pairwise_cons.mp hl
    have hone : ∀ b, field (accountAt (step m c) b) =
        if b = address c then some (item c) else field (accountAt m b) := by
      intro b
      rw [hstep, later_of_le (item c).2 (fun e he => hm b e he c (by simp))]
    rw [List.foldl_cons, ih hl, hone, List.map_cons, SortedMap.lastOf_cons]
    · by_cases ha : a = address c
      · subst ha
        cases SortedMap.lastOf (address c) (l.map (fun c => (address c,item c))) <;> simp
      · cases SortedMap.lastOf a (l.map (fun c => (address c,item c))) <;> simp [ha, Ne.symm ha]
    · intro b v hv d hd
      rw [hone] at hv
      split at hv
      · cases hv
        exact hc d hd
      · exact hm b v hv d (by simp [hd])

theorem field_kept (hstep : ∀ m c a, field (accountAt (step m c) a) = field (accountAt m a))
    (l : List γ) (m : SortedMap Bytes Acc) (a : Bytes) :
    field (accountAt (l.foldl step m) a) = field (accountAt m a) := by
  induction l generalizing m with
  | nil => rfl
  | cons c l ih => rw [List.foldl_cons, ih, hstep]

end Fields

def balanceItem (c : Collect.BalanceChange) : Bytes × (ℕ × String) :=
  (c.address,c.origin.ordinal,c.newValue)

def nonceItem (c : Collect.NonceChange) : Bytes × (ℕ × ℕ) := (c.address,c.origin.ordinal,c.newValue)

def codeItem (c : Collect.CodeChange) : Bytes × (ℕ × Bytes) := (c.address,c.origin.ordinal,c.newHash)

theorem accountAt_insert (m : SortedMap Bytes Acc) (b a : Bytes) (e : Acc) :
    accountAt (m.insert b e) a = if a = b then e else accountAt m a := by
  rw [accountAt, SortedMap.get?_insert]
  split <;> rfl

theorem accountAt_empty (a : Bytes) : accountAt .empty a = Acc.default := rfl

section Accounts
variable {ch : Collect.StateChanges} (h : Sorted ch) (a : Bytes)
include h

theorem lastAccounts_balance : (accountAt (lastAccounts ch) a).balance =
    SortedMap.lastOf a (ch.balanceChanges.map balanceItem) := by
  have hcode := field_kept codeLast Acc.balance
    (fun m c a => by rw [codeLast, accountAt_insert]; split <;> simp [*]) ch.codeChanges
  have hnonce := field_kept nonceLast Acc.balance
    (fun m c a => by rw [nonceLast, accountAt_insert]; split <;> simp [*]) ch.nonceChanges
  rw [lastAccounts, hcode, hnonce]
  have hfold := field_fold balanceLast Acc.balance
    (fun c => c.address) (fun c => (c.origin.ordinal,c.newValue))
    (fun m c a => by rw [balanceLast, accountAt_insert]; split <;> simp [*])
    h.balance .empty (by simp [accountAt_empty, Acc.default]) a
  rw [hfold]
  exact Option.or_none

theorem lastAccounts_nonce : (accountAt (lastAccounts ch) a).nonce =
    SortedMap.lastOf a (ch.nonceChanges.map nonceItem) := by
  have hcode := field_kept codeLast Acc.nonce
    (fun m c a => by rw [codeLast, accountAt_insert]; split <;> simp [*]) ch.codeChanges
  have hbalance := field_kept balanceLast Acc.nonce
    (fun m c a => by rw [balanceLast, accountAt_insert]; split <;> simp [*]) ch.balanceChanges .empty
  rw [lastAccounts, hcode]
  have hfold := field_fold nonceLast Acc.nonce
    (fun c => c.address) (fun c => (c.origin.ordinal,c.newValue))
    (fun m c a => by rw [nonceLast, accountAt_insert]; split <;> simp [*])
    h.nonce (ch.balanceChanges.foldl balanceLast .empty)
    (by simp [hbalance, accountAt_empty, Acc.default]) a
  rw [hfold, hbalance]
  exact Option.or_none

theorem lastAccounts_code : (accountAt (lastAccounts ch) a).code =
    SortedMap.lastOf a (ch.codeChanges.map codeItem) := by
  have hnonce := field_kept nonceLast Acc.code
    (fun m c a => by rw [nonceLast, accountAt_insert]; split <;> simp [*]) ch.nonceChanges
  have hbalance := field_kept balanceLast Acc.code
    (fun m c a => by rw [balanceLast, accountAt_insert]; split <;> simp [*]) ch.balanceChanges .empty
  rw [lastAccounts]
  have hfold := field_fold codeLast Acc.code
    (fun c => c.address) (fun c => (c.origin.ordinal,c.newHash))
    (fun m c a => by rw [codeLast, accountAt_insert]; split <;> simp [*])
    h.code (ch.nonceChanges.foldl nonceLast (ch.balanceChanges.foldl balanceLast .empty))
    (by simp [hnonce, hbalance, accountAt_empty, Acc.default]) a
  rw [hfold, hnonce, hbalance]
  exact Option.or_none

end Accounts

theorem accountKey_injective : Function.Injective accountKey := by
  intro a b h
  have h := (List.cons.inj h).1
  exact hex_injective (Prod.mk.inj (toLex_inj.mp h)).2

theorem mem_order {order : HashOrder} {m : SortedMap Bytes Acc} {e : AccountItem} :
    e ∈ order.accounts m.entries ↔ m.get? e.1 = some e.2 := by
  rw [(order.accounts_perm m.entries).mem_iff, SortedMap.mem_entries]

section Rows
variable {ch : Collect.StateChanges} (order : HashOrder)

theorem accounts_distinct : (statements order ch .accounts).Pairwise (fun s t => s.key ≠ t.key) := by
  have hentries : (order.accounts (lastAccounts ch).entries).Pairwise (fun a b => a.1 ≠ b.1) :=
    ((order.accounts_perm _).pairwise_iff (fun h => h.symm)).mpr (SortedMap.entries_distinct _)
  exact List.pairwise_map.mpr (hentries.imp (fun h hk => h (accountKey_injective hk)))

theorem accounts_row (a : Bytes) : (project order ch .accounts).get? (accountKey a) =
    ((lastAccounts ch).get? a).map (fun e => columnsOf (accountStatement ch.block.number (a,e))) := by
  ext c
  rw [project, gather_distinct (accounts_distinct order), Option.map_eq_some_iff]
  constructor
  · rintro ⟨s,hs,hk,hc⟩
    obtain ⟨e,he,rfl⟩ := List.mem_map.mp hs
    obtain rfl := accountKey_injective hk
    exact ⟨e.2,mem_order.mp he,hc⟩
  · rintro ⟨e,he,hc⟩
    exact ⟨_,List.mem_map_of_mem (mem_order.mpr (show (lastAccounts ch).get? (a,e).1 = _ from he)),
      rfl,hc⟩

theorem accounts_keys {k : Key} {c : Columns String}
    (h : (project order ch .accounts).get? k = some c) : ∃ a, k = accountKey a := by
  rw [project, gather_distinct (accounts_distinct order)] at h
  obtain ⟨s,hs,rfl,-⟩ := h
  obtain ⟨e,-,rfl⟩ := List.mem_map.mp hs
  exact ⟨e.1,rfl⟩

theorem accounts_written (a : Bytes) (j : String) : written (project order ch .accounts) (accountKey a) j =
    ((lastAccounts ch).get? a).bind
      (fun e => SortedMap.lastOf j (accountStatement ch.block.number (a,e)).sets) := by
  rw [written, accounts_row]
  cases (lastAccounts ch).get? a with
  | none => rfl
  | some e =>
    rw [Option.map_some, Option.bind_some, Option.bind_some, get?_columnsOf]

end Rows

section Columns
variable (n : ℕ) (a : Bytes) (e : Acc)

theorem balance_column : SortedMap.lastOf "balance" (accountStatement n (a,e)).sets =
    e.balance.map (fun v => .set v.2) := by
  obtain ⟨b,m,c⟩ := e
  cases b <;> cases m <;> cases c <;> rfl

theorem balance_block_column : SortedMap.lastOf "balance_block_num" (accountStatement n (a,e)).sets =
    e.balance.map (fun _ => .set (toString n)) := by
  obtain ⟨b,m,c⟩ := e
  cases b <;> cases m <;> cases c <;> rfl

theorem nonce_column : SortedMap.lastOf "nonce" (accountStatement n (a,e)).sets =
    e.nonce.map (fun v => .set (toString v.2)) := by
  obtain ⟨b,m,c⟩ := e
  cases b <;> cases m <;> cases c <;> rfl

theorem nonce_block_column : SortedMap.lastOf "nonce_block_num" (accountStatement n (a,e)).sets =
    e.nonce.map (fun _ => .set (toString n)) := by
  obtain ⟨b,m,c⟩ := e
  cases b <;> cases m <;> cases c <;> rfl

theorem code_column : SortedMap.lastOf "code_hash" (accountStatement n (a,e)).sets =
    e.code.map (fun v => .set (hex v.2)) := by
  obtain ⟨b,m,c⟩ := e
  cases b <;> cases m <;> cases c <;> rfl

theorem code_block_column : SortedMap.lastOf "code_block_num" (accountStatement n (a,e)).sets =
    e.code.map (fun _ => .set (toString n)) := by
  obtain ⟨b,m,c⟩ := e
  cases b <;> cases m <;> cases c <;> rfl

end Columns

theorem accounts_field {α : Type} {ch : Collect.StateChanges} (order : HashOrder) {a : Bytes}
    {field : Acc → Option (ℕ × α)} {last : Option (ℕ × α)} {j : String} {text : ℕ × α → String}
    (hdefault : field Acc.default = none)
    (hcolumn : ∀ e, SortedMap.lastOf j (accountStatement ch.block.number (a,e)).sets =
      (field e).map (fun v => .set (text v)))
    (hlast : field (accountAt (lastAccounts ch) a) = last) :
    written (project order ch .accounts) (accountKey a) j = last.map (fun v => .set (text v)) := by
  rw [accounts_written, ← hlast, accountAt]
  cases (lastAccounts ch).get? a with
  | none =>
    rw [Option.getD_none, hdefault]
    rfl
  | some e => exact hcolumn e

/-- No slot of an account is named by two different byte strings. -/
def OneSpelling (ch : Collect.StateChanges) : Prop :=
  ∀ c ∈ ch.storageChanges, ∀ d ∈ ch.storageChanges,
    c.address = d.address → pad c.key = pad d.key → c.key = d.key

def slotItem (c : Collect.StorageChange) : (Bytes ×ₗ Bytes) × (ℕ × Bytes) :=
  (toLex (c.address,pad c.key),c.origin.ordinal,c.newValue)

theorem storageKey_inj {a b k j : Bytes} :
    storageKey a k = storageKey b j ↔ a = b ∧ pad k = pad j := by
  constructor
  · intro h
    obtain ⟨ha,hk⟩ := List.cons.inj h
    have ha := (Prod.mk.inj (toLex_inj.mp ha)).2
    have hk := (Prod.mk.inj (toLex_inj.mp (List.cons.inj hk).1)).2
    rw [word_pad, word_pad] at hk
    exact ⟨hex_injective ha,hex_injective hk⟩
  · rintro ⟨rfl,h⟩
    rw [storageKey, storageKey, word_pad, word_pad, h]

section Storage
variable {ch : Collect.StateChanges}

theorem mem_storage_order {order : HashOrder} {e : StorageItem} :
    e ∈ order.storage (lastStorage ch).entries ↔ (lastStorage ch).get? e.1 = some e.2 := by
  rw [(order.storage_perm _).mem_iff, SortedMap.mem_entries]

theorem lastStorage_mem (h : Sorted ch) {e : StorageItem}
    (hv : (lastStorage ch).get? e.1 = some e.2) : ∃ c ∈ ch.storageChanges, storageItem c = e := by
  rw [lastStorage_eq h, SortedMap.get?_insertAll_last, SortedMap.get?_empty, Option.or_none] at hv
  exact List.mem_map.mp (SortedMap.mem_of_lastOf hv)

theorem storage_distinct (h : Sorted ch) (hone : OneSpelling ch) (order : HashOrder) :
    (statements order ch .storage).Pairwise (fun s t => s.key ≠ t.key) := by
  have hentries : (order.storage (lastStorage ch).entries).Pairwise (fun a b => a.1 ≠ b.1) :=
    ((order.storage_perm _).pairwise_iff (fun h => h.symm)).mpr (SortedMap.entries_distinct _)
  refine List.pairwise_map.mpr (hentries.imp_of_mem (fun {e d} he hd hne hk => hne ?_))
  obtain ⟨c,hc,rfl⟩ := lastStorage_mem h (mem_storage_order.mp he)
  obtain ⟨b,hb,rfl⟩ := lastStorage_mem h (mem_storage_order.mp hd)
  obtain ⟨ha,hk⟩ := storageKey_inj.mp hk
  have ha : c.address = b.address := ha
  rw [storageItem, storageItem, ha, hone c hc b hb ha hk]

/-- The last change of a slot, whatever bytes name it. -/
theorem lastStorage_slot (h : Sorted ch) (hone : OneSpelling ch) {c : Collect.StorageChange}
    (hc : c ∈ ch.storageChanges) : (lastStorage ch).get? (toLex (c.address,c.key)) =
      SortedMap.lastOf (toLex (c.address,pad c.key)) (ch.storageChanges.map slotItem) := by
  rw [lastStorage_eq h, SortedMap.get?_insertAll_last, SortedMap.get?_empty, Option.or_none]
  refine SortedMap.lastOf_congr (fun d hd => ?_) (fun _ _ => rfl)
  simp only [storageItem, slotItem, toLex_inj, Prod.mk.injEq]
  exact and_congr_right (fun ha => ⟨fun hk => congrArg pad hk,hone d hd c hc ha⟩)

theorem storage_row (h : Sorted ch) (hone : OneSpelling ch) (order : HashOrder) {k : Key}
    {c : Columns String} : (project order ch .storage).get? k = some c ↔ ∃ a j v,
      SortedMap.lastOf (toLex (a,j)) (ch.storageChanges.map slotItem) = some v ∧
      k = key [("address",hex a),("slot",hex j)] ∧
      c = columnsOf (storageStatement ch.block.number (toLex (a,j),v)) := by
  rw [project, gather_distinct (storage_distinct h hone order)]
  constructor
  · rintro ⟨s,hs,rfl,rfl⟩
    obtain ⟨e,he,rfl⟩ := List.mem_map.mp hs
    obtain ⟨b,hb,rfl⟩ := lastStorage_mem h (mem_storage_order.mp he)
    have hlast := mem_storage_order.mp he
    rw [show (storageItem b).1 = toLex (b.address,b.key) from rfl, lastStorage_slot h hone hb] at hlast
    refine ⟨b.address,pad b.key,_,hlast,?_,rfl⟩
    rw [← word_pad]
    rfl
  · rintro ⟨a,j,v,hv,rfl,rfl⟩
    obtain ⟨b,hb,hbe⟩ := List.mem_map.mp (SortedMap.mem_of_lastOf hv)
    obtain ⟨hk,-⟩ := Prod.mk.inj hbe
    obtain ⟨rfl,rfl⟩ := Prod.mk.inj (toLex_inj.mp hk)
    rw [← lastStorage_slot h hone hb] at hv
    refine ⟨_,List.mem_map_of_mem (mem_storage_order.mpr
      (show (lastStorage ch).get? (toLex (b.address,b.key),v).1 = _ from hv)),?_,rfl⟩
    change storageKey b.address b.key = _
    rw [storageKey, word_pad]

end Storage
end EvmState.DbOutRows
