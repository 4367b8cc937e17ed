import EvmState.Queries
import EvmState.Reference

/-!
# What a projected block says

The maps that the projection fills, as facts about the events of the block:
every kept value is an event, and an event that was not kept is followed by
a later one of its key or by a deletion of its account.
-/

set_option autoImplicit false

namespace EvmState.BlockRows
open EvmState.Hex EvmState.Fallible EvmState.OrderedMap EvmState.Params EvmState.BlockProjection
open EvmState.Reference EvmState.Timeline EvmState.Queries

theorem word_ok {b : Bytes} {s : String} : word b = .ok s ↔ b.length ≤ 32 ∧ s = hex (pad b) := by
  have htext : b.length ≤ 32 →
      (encodeChars b).leftpad 64 '0' = encodeChars (pad b) := by
    intro h
    rw [pad, List.leftpad, List.leftpad, encodeChars_append, encodeChars_replicate_zero,
      encodeChars_length, show 64-2*b.length = 2*(32-b.length) by omega]
  constructor
  · intro h
    obtain ⟨_,hl,h⟩ := bind_ok.mp h
    have hl := ensure_ok.mp hl
    rw [htext hl] at h
    exact ⟨hl,(pure_ok.mp h).symm⟩
  · rintro ⟨hl,rfl⟩
    refine bind_ok.mpr ⟨(),ensure_ok.mpr hl,?_⟩
    rw [htext hl]
    rfl

theorem emptyCodeHash_text : emptyCodeHash = hex emptyHash := by decide

theorem mapM_pairwise {α β : Type} {f : α → Except String β} {g : α → ℕ} {h : β → ℕ} {l : List α}
    {m : List β} (hm : l.mapM f = .ok m) (hf : ∀ a b, f a = .ok b → h b = g a)
    (hl : l.Pairwise (fun a b => g a ≤ g b)) : m.Pairwise (fun a b => h a ≤ h b) := by
  have hmap : m.map h = l.map g := by
    have hr := mapM_ok.mp hm
    clear hm hl
    induction hr with
    | nil => rfl
    | cons hab _ ih => simp [hf _ _ hab, ih]
  rw [← List.pairwise_map (f := h) (R := (· ≤ ·)), hmap]
  exact List.pairwise_map.mpr hl

section Block
variable {params : String} {block : Eth.Block} {filter : Filter}

theorem collect_ok {changes : Collect.StateChanges} (hf : Filter.parse params = .ok filter)
    (h : Collect.collect params block = .ok changes) :
    ∃ records, Persist.collectBlock block = .ok records ∧
      changes.storageChanges = Collect.sortByOrdinal (·.origin.ordinal)
        (records.filterMap (Collect.storage filter)) ∧
      changes.balanceChanges = Collect.sortByOrdinal (·.origin.ordinal)
        (records.filterMap (Collect.balance filter)) ∧
      changes.nonceChanges = Collect.sortByOrdinal (·.origin.ordinal)
        (records.filterMap (Collect.nonce filter)) ∧
      changes.codeChanges = Collect.sortByOrdinal (·.origin.ordinal)
        (records.filterMap (Collect.code filter)) := by
  obtain ⟨f,hf',h⟩ := bind_ok.mp h
  obtain rfl : filter = f := Except.ok.inj (hf.symm.trans hf')
  obtain ⟨records,hr,h⟩ := bind_ok.mp h
  obtain rfl := pure_ok.mp h
  exact ⟨records,hr,rfl,rfl,rfl,rfl⟩

theorem mem_events {records : List Persist.Record} {e : ℕ × Effect} :
    e ∈ events filter records block ↔ e ∈ occurrences records block ∧
      filter.matchesAccount e.2.account = true := by
  rw [events, Collect.mem_sortByOrdinal, List.mem_filter]

theorem record_event {records : List Persist.Record} {r : Persist.Record} (hr : r ∈ records)
    (hm : filter.matchesAccount (effectOf r).2.account = true) :
    effectOf r ∈ events filter records block :=
  mem_events.mpr ⟨List.mem_append_left _ (List.mem_map_of_mem hr),hm⟩

theorem event_record {records : List Persist.Record} {e : ℕ × Effect}
    (h : e ∈ events filter records block) (hk : e.2.kind ≠ .delete) :
    ∃ r ∈ records, effectOf r = e ∧ filter.matchesAccount e.2.account = true := by
  obtain ⟨ho,hm⟩ := mem_events.mp h
  rcases List.mem_append.mp ho with ho | ho
  · obtain ⟨r,hr,he⟩ := List.mem_map.mp ho
    exact ⟨r,hr,he,hm⟩
  · obtain ⟨d,-,rfl⟩ := List.mem_map.mp ho
    exact absurd rfl hk

theorem delete_event {records : List Persist.Record} {o : ℕ} {a : Bytes} :
    (o,.delete a) ∈ events filter records block ↔
      (a,o) ∈ Lifecycle.deletionEvents block (timestamp block) ∧ filter.matchesAccount a = true := by
  rw [mem_events]
  refine and_congr_left (fun _ => ⟨fun h => ?_,fun h => ?_⟩)
  · rcases List.mem_append.mp h with h | h
    · obtain ⟨r,-,he⟩ := List.mem_map.mp h
      exact absurd (by rw [he]; rfl) (record_not_delete r)
    · obtain ⟨⟨b,p⟩,hd,he⟩ := List.mem_map.mp h
      cases he
      exact hd
  · exact List.mem_append_right _ (List.mem_map.mpr ⟨(a,o),h,rfl⟩)

theorem storage_record {records : List Persist.Record} {c : Collect.StorageChange} :
    c ∈ records.filterMap (Collect.storage filter) ↔ ∃ s ctx, .storage s ctx ∈ records ∧
      filter.matchesAccount s.address = true ∧
      c = ⟨s.address,s.key,s.oldValue,s.newValue,Collect.origin s.ordinal ctx⟩ := by
  rw [List.mem_filterMap]
  constructor
  · rintro ⟨r,hr,hc⟩
    cases r with
    | storage s ctx =>
      simp only [Collect.storage, Option.ite_none_right_eq_some, Option.some.injEq] at hc
      exact ⟨s,ctx,hr,hc.1,hc.2.symm⟩
    | _ => simp [Collect.storage] at hc
  · rintro ⟨s,ctx,hr,hm,rfl⟩
    exact ⟨_,hr,by simp [Collect.storage, hm]⟩

theorem balance_record {records : List Persist.Record} {c : Collect.BalanceChange} :
    c ∈ records.filterMap (Collect.balance filter) ↔ ∃ s ctx, .balance s ctx ∈ records ∧
      filter.matchesAccount s.address = true ∧
      c = ⟨s.address,Collect.bigintDec s.oldValue,Collect.bigintDec s.newValue,s.reasonCode,
        Collect.origin s.ordinal ctx⟩ := by
  rw [List.mem_filterMap]
  constructor
  · rintro ⟨r,hr,hc⟩
    cases r with
    | balance s ctx =>
      simp only [Collect.balance, Option.ite_none_right_eq_some, Option.some.injEq] at hc
      exact ⟨s,ctx,hr,hc.1,hc.2.symm⟩
    | _ => simp [Collect.balance] at hc
  · rintro ⟨s,ctx,hr,hm,rfl⟩
    exact ⟨_,hr,by simp [Collect.balance, hm]⟩

theorem nonce_record {records : List Persist.Record} {c : Collect.NonceChange} :
    c ∈ records.filterMap (Collect.nonce filter) ↔ ∃ s ctx, .nonce s ctx ∈ records ∧
      filter.matchesAccount s.address = true ∧
      c = ⟨s.address,s.oldValue,s.newValue,Collect.origin s.ordinal ctx⟩ := by
  rw [List.mem_filterMap]
  constructor
  · rintro ⟨r,hr,hc⟩
    cases r with
    | nonce s ctx =>
      simp only [Collect.nonce, Option.ite_none_right_eq_some, Option.some.injEq] at hc
      exact ⟨s,ctx,hr,hc.1,hc.2.symm⟩
    | _ => simp [Collect.nonce] at hc
  · rintro ⟨s,ctx,hr,hm,rfl⟩
    exact ⟨_,hr,by simp [Collect.nonce, hm]⟩

theorem code_record {records : List Persist.Record} {c : Collect.CodeChange} :
    c ∈ records.filterMap (Collect.code filter) ↔ ∃ s ctx, .code s ctx ∈ records ∧
      filter.matchesAccount s.address = true ∧
      c = ⟨s.address,s.oldHash,s.newHash,s.newCode,Collect.origin s.ordinal ctx⟩ := by
  rw [List.mem_filterMap]
  constructor
  · rintro ⟨r,hr,hc⟩
    cases r with
    | code s ctx =>
      simp only [Collect.code, Option.ite_none_right_eq_some, Option.some.injEq] at hc
      exact ⟨s,ctx,hr,hc.1,hc.2.symm⟩
    | _ => simp [Collect.code] at hc
  · rintro ⟨s,ctx,hr,hm,rfl⟩
    exact ⟨_,hr,by simp [Collect.code, hm]⟩

def slotName (a k : Bytes) : SlotKey := toLex (hex a,hex k)

def slotValue (o : ℕ) (a k v : Bytes) : StorageValue := ⟨hex a,hex k,hex v,o⟩

theorem storageEntry_ok {c : Collect.StorageChange} {e : SlotKey × StorageValue} :
    storageEntry c = .ok e ↔ c.key.length ≤ 32 ∧ c.newValue.length ≤ 32 ∧
      e = (slotName c.address (pad c.key),
        slotValue c.origin.ordinal c.address (pad c.key) (pad c.newValue)) := by
  constructor
  · intro h
    obtain ⟨k,hk,h⟩ := bind_ok.mp h
    obtain ⟨v,hv,h⟩ := bind_ok.mp h
    obtain ⟨hkl,rfl⟩ := word_ok.mp hk
    obtain ⟨hvl,rfl⟩ := word_ok.mp hv
    exact ⟨hkl,hvl,(pure_ok.mp h).symm⟩
  · rintro ⟨hk,hv,rfl⟩
    exact bind_ok.mpr ⟨_,word_ok.mpr ⟨hk,rfl⟩,bind_ok.mpr ⟨_,word_ok.mpr ⟨hv,rfl⟩,rfl⟩⟩

section Entries
variable {records : List Persist.Record}

theorem storage_entries {changes : List Collect.StorageChange}
    {entries : List (SlotKey × StorageValue)}
    (hc : changes = Collect.sortByOrdinal (·.origin.ordinal)
      (records.filterMap (Collect.storage filter)))
    (he : changes.mapM storageEntry = .ok entries) {k : SlotKey} {v : StorageValue} :
    (k,v) ∈ entries ↔ ∃ o a j x, (o,.storage a j x) ∈ events filter records block ∧
      k = slotName a j ∧ v = slotValue o a j x := by
  obtain ⟨hfrom,hto⟩ := exists_related (mapM_ok.mp he)
  constructor
  · intro hkv
    obtain ⟨c,hcm,hce⟩ := hto _ hkv
    rw [hc, Collect.mem_sortByOrdinal] at hcm
    obtain ⟨s,ctx,hr,hm,rfl⟩ := storage_record.mp hcm
    obtain ⟨-,-,hke⟩ := storageEntry_ok.mp hce
    obtain ⟨rfl,rfl⟩ := Prod.mk.inj hke
    exact ⟨s.ordinal,s.address,pad s.key,pad s.newValue,record_event hr hm,rfl,rfl⟩
  · rintro ⟨o,a,j,x,hx,rfl,rfl⟩
    obtain ⟨r,hr,hre,hm⟩ := event_record hx (by simp [Effect.kind])
    cases r with
    | storage s ctx =>
      cases hre
      have hin : _ ∈ changes :=
        hc ▸ Collect.mem_sortByOrdinal.mpr (storage_record.mpr ⟨s,ctx,hr,hm,rfl⟩)
      obtain ⟨e,hee,hce⟩ := hfrom _ hin
      obtain ⟨-,-,rfl⟩ := storageEntry_ok.mp hce
      exact hee
    | _ => cases hre

/-- One group of account fields: which effects write it, the row value of a
write, and what a query reads of that row value. -/
structure Group (V ν β : Type) where
  written : Effect → Option (Bytes × V)
  empty : V
  entry : ℕ → Bytes → V → ν
  address : ν → String
  ordinal : ν → ℕ
  value : ν → β
  text : V → β
  address_entry : ∀ o a x, address (entry o a x) = hex a
  ordinal_entry : ∀ o a x, ordinal (entry o a x) = o
  value_entry : ∀ o a x, value (entry o a x) = text x
  not_delete : ∀ e w, written e = some w → e.kind ≠ .delete

def Group.changes {V ν β : Type} (g : Group V ν β) : Effect → Option (Change Bytes Unit V) :=
  fieldView g.written g.empty

/-- The list holds exactly the row values of the written effects. -/
def Group.Lists {V ν β : Type} (g : Group V ν β) (l : List (String × ν)) (es : List (ℕ × Effect)) :
    Prop :=
  ∀ k v, (k,v) ∈ l ↔ ∃ o e a x, (o,e) ∈ es ∧ g.written e = some (a,x) ∧ k = hex a ∧
    v = g.entry o a x

def balances : Group ℕ BalanceValue String where
  written := writtenBalance
  empty := 0
  entry o a x := ⟨hex a,toString x,o⟩
  address := (·.address)
  ordinal := (·.ordinal)
  value := (·.value)
  text := toString
  address_entry _ _ _ := rfl
  ordinal_entry _ _ _ := rfl
  value_entry _ _ _ := rfl
  not_delete e w h := by simp [writtenBalance_kind e w h]

def nonces : Group ℕ NonceValue ℕ where
  written := writtenNonce
  empty := 0
  entry o a x := ⟨hex a,x,o⟩
  address := (·.address)
  ordinal := (·.ordinal)
  value := (·.value)
  text := id
  address_entry _ _ _ := rfl
  ordinal_entry _ _ _ := rfl
  value_entry _ _ _ := rfl
  not_delete e w h := by simp [writtenNonce_kind e w h]

def codes : Group (Bytes × Bytes) CodeValue (String × String) where
  written := writtenCode
  empty := (emptyHash,[])
  entry o a x := ⟨hex a,hex x.1,hex x.2,o⟩
  address := (·.address)
  ordinal := (·.ordinal)
  value := fun v => (v.hash,v.code)
  text := fun x => (hex x.1,hex x.2)
  address_entry _ _ _ := rfl
  ordinal_entry _ _ _ := rfl
  value_entry _ _ _ := rfl
  not_delete e w h := by simp [writtenCode_kind e w h]

theorem balanceEntry_record (s : Eth.BalanceChange) (ctx : Persist.Ctx) :
    balanceEntry ⟨s.address,Collect.bigintDec s.oldValue,Collect.bigintDec s.newValue,s.reasonCode,
        Collect.origin s.ordinal ctx⟩ =
      (hex s.address,balances.entry s.ordinal s.address (Collect.balanceValue s.newValue)) := by
  simp only [balanceEntry, Collect.bigintDec_value s.newValue, balances, Collect.origin]

theorem balance_lists : balances.Lists
    ((Collect.sortByOrdinal (·.origin.ordinal) (records.filterMap (Collect.balance filter))).map
      balanceEntry) (events filter records block) := by
  intro k v
  simp only [List.mem_map, Collect.mem_sortByOrdinal]
  constructor
  · rintro ⟨c,hc,he⟩
    obtain ⟨s,ctx,hr,hm,rfl⟩ := balance_record.mp hc
    rw [balanceEntry_record] at he
    obtain ⟨rfl,rfl⟩ := Prod.mk.inj he
    exact ⟨_,_,s.address,_,record_event hr hm,rfl,rfl,rfl⟩
  · rintro ⟨o,e,a,x,he,hw,rfl,rfl⟩
    obtain ⟨r,hr,hre,hm⟩ := event_record he (balances.not_delete _ _ hw)
    cases r with
    | balance s ctx =>
      cases hre
      cases hw
      exact ⟨_,balance_record.mpr ⟨s,ctx,hr,hm,rfl⟩,balanceEntry_record s ctx⟩
    | _ => cases hre; cases hw

theorem nonce_lists : nonces.Lists
    ((Collect.sortByOrdinal (·.origin.ordinal) (records.filterMap (Collect.nonce filter))).map
      nonceEntry) (events filter records block) := by
  intro k v
  simp only [List.mem_map, Collect.mem_sortByOrdinal]
  constructor
  · rintro ⟨c,hc,he⟩
    obtain ⟨s,ctx,hr,hm,rfl⟩ := nonce_record.mp hc
    obtain ⟨rfl,rfl⟩ := Prod.mk.inj he
    exact ⟨_,_,s.address,_,record_event hr hm,rfl,rfl,rfl⟩
  · rintro ⟨o,e,a,x,he,hw,rfl,rfl⟩
    obtain ⟨r,hr,hre,hm⟩ := event_record he (nonces.not_delete _ _ hw)
    cases r with
    | nonce s ctx =>
      cases hre
      cases hw
      exact ⟨_,nonce_record.mpr ⟨s,ctx,hr,hm,rfl⟩,rfl⟩
    | _ => cases hre; cases hw

theorem codeEntry_ok {c : Collect.CodeChange} {e : String × CodeValue} (h : codeEntry c = .ok e) :
    e = (hex c.address,codes.entry c.origin.ordinal c.address
      (if c.newHash.isEmpty then emptyHash else c.newHash,c.newCode)) := by
  obtain ⟨_,-,h⟩ := bind_ok.mp h
  obtain rfl := pure_ok.mp h
  by_cases hh : c.newHash.isEmpty <;> simp [codes, hh, emptyCodeHash_text]

theorem code_lists {changes : List Collect.CodeChange} {entries : List (String × CodeValue)}
    (hc : changes = Collect.sortByOrdinal (·.origin.ordinal)
      (records.filterMap (Collect.code filter)))
    (he : changes.mapM codeEntry = .ok entries) :
    codes.Lists entries (events filter records block) := by
  obtain ⟨hfrom,hto⟩ := exists_related (mapM_ok.mp he)
  intro k v
  constructor
  · intro hkv
    obtain ⟨c,hcm,hce⟩ := hto _ hkv
    rw [hc, Collect.mem_sortByOrdinal] at hcm
    obtain ⟨s,ctx,hr,hm,rfl⟩ := code_record.mp hcm
    obtain ⟨rfl,rfl⟩ := Prod.mk.inj (codeEntry_ok hce)
    exact ⟨_,_,s.address,_,record_event hr hm,rfl,rfl,rfl⟩
  · rintro ⟨o,e,a,x,hev,hw,rfl,rfl⟩
    obtain ⟨r,hr,hre,hm⟩ := event_record hev (codes.not_delete _ _ hw)
    cases r with
    | code s ctx =>
      cases hre
      cases hw
      have hin : _ ∈ changes :=
        hc ▸ Collect.mem_sortByOrdinal.mpr (code_record.mpr ⟨s,ctx,hr,hm,rfl⟩)
      obtain ⟨d,hd,hce⟩ := hfrom _ hin
      obtain rfl := codeEntry_ok hce
      exact hd
    | _ => cases hre; cases hw

/-- One deletion for each deleted account, its last. -/
structure LastDeletions (ds : List (Bytes × ℕ)) (es : List (ℕ × Effect)) : Prop where
  sound : ∀ d ∈ ds, (d.2,.delete d.1) ∈ es
  complete : ∀ o a, (o,.delete a) ∈ es → ∃ p, (a,p) ∈ ds ∧ o ≤ p

theorem last_deletions {deleted : SortedMap Bytes ℕ}
    (h : Lifecycle.deletions block (timestamp block) = .ok deleted) :
    LastDeletions (deleted.entries.filter (fun e => filter.matchesAccount e.1))
      (events filter records block) := by
  have hg := Lifecycle.deletions_greatest h
  constructor
  · rintro ⟨a,o⟩ hd
    obtain ⟨hm,hf⟩ := List.mem_filter.mp hd
    exact delete_event.mpr ⟨(hg a).1 o (SortedMap.mem_entries.mp hm),hf⟩
  · intro o a ho
    obtain ⟨hd,hf⟩ := delete_event.mp ho
    obtain ⟨p,hp,hle⟩ := (hg a).2 o hd
    exact ⟨p,List.mem_filter.mpr ⟨SortedMap.mem_entries.mpr hp,hf⟩,hle⟩

end Entries
end Block

/-- The values that the deletions offer to one field map. -/
def Group.zeros {V ν β : Type} (g : Group V ν β) (ds : List (Bytes × ℕ)) : List (String × ν) :=
  ds.map (fun d => (hex d.1,g.entry d.2 d.1 g.empty))

def keepZeros {V ν β : Type} (g : Group V ν β) (m : SortedMap String ν) (d : Bytes × ℕ) :
    SortedMap String ν := m.keepGreatest g.ordinal (hex d.1) (g.entry d.2 d.1 g.empty)

theorem keepZeros_tops {V ν β : Type} (g : Group V ν β) {m : SortedMap String ν}
    {l : List (String × ν)} (h : m.Tops g.ordinal l) (ds : List (Bytes × ℕ)) :
    (ds.foldl (keepZeros g) m).Tops g.ordinal (l++g.zeros ds) := by
  induction ds generalizing m l with
  | nil => simpa [Group.zeros] using h
  | cons d ds ih => simpa [Group.zeros, keepZeros] using ih (SortedMap.tops_keepGreatest h (hex d.1) _)

theorem applyDeletion_eq (s : Collected) (d : Bytes × ℕ) :
    applyDeletion s d = {
      lifecycle := addEffects s.lifecycle [⟨hex d.1,.storageReset,d.2⟩]
      storage := s.storage.retain (fun k v => (ofLex k).1 ≠ hex d.1 || d.2 < v.ordinal)
      balances := keepZeros balances s.balances d
      nonces := keepZeros nonces s.nonces d
      codes := keepZeros codes s.codes d } := by
  simp only [applyDeletion, keepZeros, codes, nonces, balances, emptyCodeHash_text]
  rfl

theorem deletions_foldl (ds : List (Bytes × ℕ)) (s : Collected) :
    ds.foldl applyDeletion s = {
      lifecycle := addEffects s.lifecycle (ds.map (fun d => ⟨hex d.1,.storageReset,d.2⟩))
      storage := s.storage.retain
        (fun k v => ds.all (fun d => (ofLex k).1 ≠ hex d.1 || d.2 < v.ordinal))
      balances := ds.foldl (keepZeros balances) s.balances
      nonces := ds.foldl (keepZeros nonces) s.nonces
      codes := ds.foldl (keepZeros codes) s.codes } := by
  induction ds generalizing s with
  | nil => simp [addEffects, SortedMap.insertAll, SortedMap.retain]
  | cons d ds ih =>
    rw [List.foldl_cons, ih, applyDeletion_eq]
    simp only [addEffects, SortedMap.insertAll, List.map_cons, List.map_nil, List.foldl_cons,
      List.foldl_nil, SortedMap.retain, List.filter_filter, List.all_cons, Bool.and_comm]

/-!
## The row as a history

The history that a query reads off the row of a block keeps, of all that
happened, the last write of each key and the last wipe of each account.
-/

/-- The values are those of a map that the listed entries and the deletions
fill. -/
def Group.Fills {V ν β : Type} (g : Group V ν β) (values : List ν) (ds : List (Bytes × ℕ))
    (es : List (ℕ × Effect)) : Prop :=
  ∃ m : SortedMap String ν, ∃ l, m.Tops g.ordinal (l++g.zeros ds) ∧ g.Lists l es ∧ values = m.values

/-- How the row of a block in which `es` happened is made. -/
structure Made (row : BlockState) (es : List (ℕ × Effect)) (ds : List (Bytes × ℕ)) : Prop where
  deletions : LastDeletions ds es
  storage : ∃ m : SortedMap SlotKey StorageValue, ∃ l, m.Tops StorageValue.ordinal l ∧
    (∀ k v, (k,v) ∈ l ↔ ∃ o a j x, (o,.storage a j x) ∈ es ∧ k = slotName a j ∧
      v = slotValue o a j x) ∧
    row.storage = (m.retain
      (fun k v => ds.all (fun d => (ofLex k).1 ≠ hex d.1 || d.2 < v.ordinal))).values
  balances : balances.Fills row.balances ds es
  nonces : nonces.Fills row.nonces ds es
  codes : codes.Fills row.codes ds es
  resets : ∀ o a, ⟨a,.storageReset,o⟩ ∈ row.lifecycle ↔ ∃ d ∈ ds, hex d.1 = a ∧ d.2 = o

theorem Group.collapses {V ν β : Type} (g : Group V ν β) {values : List ν}
    {ds : List (Bytes × ℕ)} {es : List (ℕ × Effect)} (hf : g.Fills values ds es)
    (hd : LastDeletions ds es) :
    Collapses ⟨fun o a _ y => ∃ v ∈ values, g.address v = a ∧ g.ordinal v = o ∧ g.value v = y,
      fun _ _ => False⟩ (image hex id g.text (ofList (view g.changes es))) := by
  obtain ⟨m,l,ht,hl,rfl⟩ := hf
  -- a value of the map is the entry of a write that the view shows
  have hmem : ∀ k v, m.get? k = some v → ∃ o a x, (o,.write a () x) ∈ view g.changes es ∧
      k = hex a ∧ v = g.entry o a x := by
    intro k v hv
    rcases List.mem_append.mp ((ht k).1 v hv) with h | h
    · obtain ⟨o,e,a,x,he,hw,rfl,rfl⟩ := (hl k v).mp h
      refine ⟨o,a,x,mem_view.mpr ⟨e,he,?_⟩,rfl,rfl⟩
      have hk := g.not_delete _ _ hw
      cases e with
      | delete b => exact absurd rfl hk
      | _ => simp [Group.changes, fieldView, hw]
    · obtain ⟨d,hdm,he⟩ := List.mem_map.mp h
      obtain ⟨rfl,rfl⟩ := Prod.mk.inj he
      exact ⟨d.2,d.1,g.empty,mem_view.mpr ⟨_,hd.sound d hdm,rfl⟩,rfl,rfl⟩
  -- and every write that the view shows is offered to the map
  have hoffer : ∀ o a x, (o,.write a () x) ∈ view g.changes es →
      ∃ v, (hex a,v) ∈ l++g.zeros ds ∧ o ≤ g.ordinal v := by
    intro o a x hx
    obtain ⟨e,he,hv⟩ := mem_view.mp hx
    rcases fieldView_some hv with ⟨b,rfl,hb⟩ | ⟨-,w,hw,hb⟩
    · obtain ⟨rfl,-,rfl⟩ : a = b ∧ () = () ∧ x = g.empty := by simpa using hb
      obtain ⟨p,hp,hle⟩ := hd.complete o a he
      exact ⟨_,List.mem_append_right _ (List.mem_map.mpr ⟨(a,p),hp,rfl⟩),by rwa [g.ordinal_entry]⟩
    · obtain ⟨rfl,-,rfl⟩ : a = w.1 ∧ () = () ∧ x = w.2 := by simpa using hb
      exact ⟨_,List.mem_append_left _ ((hl _ _).mpr ⟨o,e,w.1,w.2,he,hw,rfl,rfl⟩),
        (g.ordinal_entry _ _ _).ge⟩
  refine ⟨?_,?_,?_,?_⟩
  · rintro o a ⟨⟩ y ⟨v,hv,rfl,rfl,rfl⟩
    obtain ⟨k,hk⟩ := SortedMap.mem_values.mp hv
    obtain ⟨o,a,x,hx,-,rfl⟩ := hmem k v hk
    exact ⟨a,(),x,(g.address_entry _ _ _).symm,rfl,(g.value_entry _ _ _).symm,
      by rwa [g.ordinal_entry]⟩
  · exact fun _ _ h => h.elim
  · rintro o _ _ _ ⟨a,_,x,rfl,rfl,rfl,hx⟩
    obtain ⟨v,hv,hle⟩ := hoffer o a x hx
    obtain ⟨u,hu,hvu⟩ := (ht (hex a)).2 v hv
    obtain ⟨p,b,y,-,hb,rfl⟩ := hmem _ u hu
    exact Or.inl ⟨g.ordinal (g.entry p b y),_,hle.trans hvu,_,SortedMap.mem_values.mpr ⟨_,hu⟩,
      by rw [g.address_entry, hb],rfl,rfl⟩
  · rintro o _ ⟨a,rfl,ha⟩
    obtain ⟨e,-,hv⟩ := mem_view.mp ha
    rcases fieldView_some hv with ⟨b,-,hb⟩ | ⟨-,w,-,hb⟩ <;> cases hb

/-- The kept storage values: the last writes of their keys that no deletion
follows. -/
theorem mem_storage {row : BlockState} {es : List (ℕ × Effect)} {ds : List (Bytes × ℕ)}
    {m : SortedMap SlotKey StorageValue} {l : List (SlotKey × StorageValue)}
    (ht : m.Tops StorageValue.ordinal l)
    (hl : ∀ k v, (k,v) ∈ l ↔ ∃ o a j x, (o,.storage a j x) ∈ es ∧ k = slotName a j ∧
      v = slotValue o a j x)
    (hs : row.storage = (m.retain
      (fun k v => ds.all (fun d => (ofLex k).1 ≠ hex d.1 || d.2 < v.ordinal))).values)
    (v : StorageValue) :
    v ∈ row.storage ↔ ∃ o a j x, m.get? (slotName a j) = some v ∧ v = slotValue o a j x ∧
      (o,.storage a j x) ∈ es ∧ ∀ d ∈ ds, hex a = hex d.1 → d.2 < o := by
  rw [hs, SortedMap.mem_values]
  constructor
  · rintro ⟨k,hk⟩
    rw [SortedMap.get?_retain, Option.filter_eq_some_iff] at hk
    obtain ⟨o,a,j,x,he,rfl,rfl⟩ := (hl k v).mp ((ht k).1 v hk.1)
    refine ⟨o,a,j,x,hk.1,rfl,he,fun d hdm ha => ?_⟩
    have := List.all_eq_true.mp hk.2 d hdm
    simpa [slotName, slotValue, ha] using this
  · rintro ⟨o,a,j,x,hk,rfl,-,hall⟩
    refine ⟨slotName a j,?_⟩
    rw [SortedMap.get?_retain, Option.filter_eq_some_iff]
    refine ⟨hk,List.all_eq_true.mpr (fun d hdm => ?_)⟩
    by_cases ha : hex a = hex d.1
    · simp [slotName, slotValue, ha, hall d hdm ha]
    · simp [slotName, ha]

theorem storage_collapses {row : BlockState} {es : List (ℕ × Effect)} {ds : List (Bytes × ℕ)}
    (hmade : Made row es ds) :
    Collapses (blockStorage row) (image hex hex hex (ofList (view storageView es))) := by
  obtain ⟨m,l,ht,hl,hs⟩ := hmade.storage
  have hd := hmade.deletions
  have hr := hmade.resets
  have hkept := mem_storage ht hl hs
  refine ⟨?_,?_,?_,?_⟩
  · intro o a k v hv
    obtain ⟨p,b,j,x,-,he,hx,-⟩ := (hkept _).mp hv
    obtain ⟨rfl,rfl,rfl,rfl⟩ : a = hex b ∧ k = hex j ∧ v = hex x ∧ o = p := by
      simpa [slotValue] using he
    exact ⟨b,j,x,rfl,rfl,rfl,mem_view.mpr ⟨_,hx,rfl⟩⟩
  · intro o a ha
    obtain ⟨d,hdm,rfl,rfl⟩ := (hr o a).mp ha
    exact ⟨d.1,rfl,mem_view.mpr ⟨_,hd.sound d hdm,rfl⟩⟩
  · rintro o _ _ _ ⟨a,j,x,rfl,rfl,rfl,hx⟩
    obtain ⟨e,he,hv⟩ := mem_view.mp hx
    cases e with
    | storage b k y =>
      cases hv
      obtain ⟨u,hu,hle⟩ := (ht _).2 _ ((hl _ _).mpr ⟨o,a,j,x,he,rfl,rfl⟩)
      obtain ⟨p,b,k,z,hz,hk,rfl⟩ := (hl _ u).mp ((ht _).1 u hu)
      obtain ⟨ha,hj⟩ : hex a = hex b ∧ hex j = hex k := by simpa [slotName] using hk
      by_cases hall : ∀ d ∈ ds, hex b = hex d.1 → d.2 < p
      · refine Or.inl ⟨p,hex z,hle,?_⟩
        rw [ha, hj]
        exact (hkept _).mpr ⟨p,b,k,z,hk ▸ hu,rfl,hz,hall⟩
      · -- a deletion at or after the kept value removed it
        simp only [not_forall, not_lt] at hall
        obtain ⟨d,hdm,hbd,hpd⟩ := hall
        exact Or.inr ⟨d.2,hle.trans hpd,(hr _ _).mpr ⟨d,hdm,(ha.trans hbd).symm,rfl⟩⟩
    | _ => simp [storageView] at hv
  · rintro o _ ⟨a,rfl,ha⟩
    obtain ⟨e,he,hv⟩ := mem_view.mp ha
    cases e with
    | delete b =>
      cases hv
      obtain ⟨p,hp,hle⟩ := hd.complete o a he
      exact ⟨p,hle,(hr _ _).mpr ⟨(a,p),hp,rfl,rfl⟩⟩
    | _ => simp [storageView] at hv

theorem effect_key_injective : Function.Injective LifecycleEffect.key := by
  rintro ⟨a,k,o⟩ ⟨b,j,p⟩ h
  obtain ⟨rfl,rfl,rfl⟩ : a = b ∧ o = p ∧ k = j := by simpa [LifecycleEffect.key] using h
  rfl

theorem mem_addEffects {l : List LifecycleEffect} {e : LifecycleEffect} :
    e ∈ (addEffects SortedMap.empty l).values ↔ e ∈ l := by
  have ht := SortedMap.insertAll_tops (k := l.map (fun e => (e.key,e)))
    (SortedMap.tops_empty (fun _ => 0)) (List.pairwise_of_forall (fun _ _ => le_refl _))
  rw [SortedMap.mem_values]
  constructor
  · rintro ⟨k,hk⟩
    obtain ⟨d,hd,he⟩ := List.mem_map.mp ((ht k).1 e hk)
    exact (Prod.mk.inj he).2 ▸ hd
  · intro he
    obtain ⟨v,hv,-⟩ := (ht e.key).2 e (List.mem_map.mpr ⟨e,he,rfl⟩)
    obtain ⟨d,-,hd⟩ := List.mem_map.mp ((ht e.key).1 v hv)
    obtain ⟨hkey,rfl⟩ := Prod.mk.inj hd
    exact ⟨e.key,effect_key_injective hkey ▸ hv⟩

theorem transactionEffects_kind {filter : Filter} {tx : Eth.TransactionTrace}
    {l : List LifecycleEffect} (h : transactionEffects filter tx = .ok l) :
    ∀ e ∈ l, e.kind ≠ .storageReset := by
  intro e he
  unfold transactionEffects at h
  split at h
  · obtain ⟨os,hos,h⟩ := bind_ok.mp h
    obtain rfl := pure_ok.mp h
    obtain ⟨call,-,hc⟩ := (exists_related (mapM_ok.mp hos)).2 _ (List.reduceOption_mem_iff.mp he)
    obtain ⟨account,-,hc⟩ := bind_ok.mp hc
    have hc := pure_ok.mp hc
    split at hc
    · cases hc
      simp
    · cases hc
  · cases h
    simp at he

structure Faithful (row : BlockState) (es : List (ℕ × Effect)) : Prop where
  storage : Collapses (blockStorage row) (image hex hex hex (ofList (view storageView es)))
  balances : Collapses (blockField (·.balances) (·.address) (·.ordinal) (·.value) row)
    (image hex id toString (ofList (view balanceView es)))
  nonces : Collapses (blockField (·.nonces) (·.address) (·.ordinal) (·.value) row)
    (image hex id id (ofList (view nonceView es)))
  codes : Collapses (blockField (·.codes) (·.address) (·.ordinal) (fun v => (v.hash,v.code)) row)
    (image hex id (fun x => (hex x.1,hex x.2)) (ofList (view codeView es)))

theorem collapse_ok {filter : Filter} {block : Eth.Block} {seconds : ℕ}
    {changes : Collect.StateChanges} {s : Collected} (h : collapse filter block seconds changes = .ok s) :
    ∃ storage codes others deleted, changes.storageChanges.mapM storageEntry = .ok storage ∧
      changes.codeChanges.mapM codeEntry = .ok codes ∧
      (∀ e ∈ others, e.kind ≠ .storageReset) ∧ Lifecycle.deletions block seconds = .ok deleted ∧
      s = (deleted.entries.filter (fun e => filter.matchesAccount e.1)).foldl applyDeletion {
        storage := SortedMap.empty.insertAll storage
        balances := SortedMap.empty.insertAll (changes.balanceChanges.map balanceEntry)
        nonces := SortedMap.empty.insertAll (changes.nonceChanges.map nonceEntry)
        codes := SortedMap.empty.insertAll codes
        lifecycle := addEffects SortedMap.empty others } := by
  obtain ⟨storage,hst,h⟩ := bind_ok.mp h
  obtain ⟨codes,hco,h⟩ := bind_ok.mp h
  obtain ⟨destructed,hde,h⟩ := bind_ok.mp h
  obtain ⟨deleted,hdel,h⟩ := bind_ok.mp h
  refine ⟨storage,codes,_,deleted,hst,hco,?_,hdel,(pure_ok.mp h).symm⟩
  intro e he
  rcases List.mem_append.mp he with he | he
  · rcases List.mem_append.mp he with he | he
    · obtain ⟨c,-,hc⟩ := List.mem_filterMap.mp he
      simp only [nonceEffect, Option.ite_none_right_eq_some, Option.some.injEq] at hc
      simp [← hc.2]
    · obtain ⟨c,-,hc⟩ := List.mem_filterMap.mp he
      simp only [codeEffect, Option.ite_none_right_eq_some, Option.some.injEq] at hc
      simp [← hc.2]
  · obtain ⟨l,hl,he⟩ := List.mem_flatten.mp he
    obtain ⟨tx,-,htx⟩ := (exists_related (mapM_ok.mp hde)).2 l hl
    exact transactionEffects_kind htx e he

theorem checkBlock_timestamp {filter : Filter} {block : Eth.Block} {header : Eth.BlockHeader}
    {time : Eth.Timestamp} (h : checkBlock filter block = .ok (header,time)) :
    Collect.asU64 time.seconds = timestamp block := by
  simp only [checkBlock, bind_ok, context_ok, pure_ok, Prod.mk.injEq] at h
  obtain ⟨-,-,-,-,-,-,_,hhead,-,-,-,-,t,htime,-,-,-,-,rfl,rfl⟩ := h
  simp [timestamp, Collect.blockInfo, hhead, htime]

/-- Entries in ascending order, inserted in turn, fill a field map that the
deletions then raise to zero. -/
theorem Group.fills {V ν β : Type} (g : Group V ν β) {l : List (String × ν)}
    {ds : List (Bytes × ℕ)} {es : List (ℕ × Effect)}
    (ho : l.Pairwise (fun a b => g.ordinal a.2 ≤ g.ordinal b.2)) (hl : g.Lists l es) :
    g.Fills (ds.foldl (keepZeros g) (SortedMap.empty.insertAll l)).values ds es :=
  ⟨_,l,keepZeros_tops g (SortedMap.insertAll_tops (SortedMap.tops_empty _) ho) ds,hl,rfl⟩

theorem project_made {params : String} {block : Eth.Block} {filter : Filter} {row : BlockState}
    (hf : Filter.parse params = .ok filter) (h : project params block = .ok row) :
    row.number = block.number ∧ row.accounts = filter.canonical ∧ ∃ records ds,
      Persist.collectBlock block = .ok records ∧ Made row (events filter records block) ds := by
  obtain ⟨f,hf',h⟩ := bind_ok.mp h
  obtain rfl : filter = f := Except.ok.inj (hf.symm.trans hf')
  obtain ⟨⟨header,time⟩,hcheck,h⟩ := bind_ok.mp h
  obtain ⟨changes,hch,h⟩ := bind_ok.mp h
  obtain ⟨s,hs,h⟩ := bind_ok.mp h
  obtain rfl := pure_ok.mp h
  obtain ⟨records,hr,hsc,hbc,hnc,hcc⟩ := collect_ok hf hch
  obtain ⟨storage,codes',others,deleted,hst,hco,hot,hdel,rfl⟩ := collapse_ok hs
  rw [checkBlock_timestamp hcheck] at hdel
  refine ⟨rfl,rfl,records,deleted.entries.filter (fun e => filter.matchesAccount e.1),hr,?_⟩
  rw [deletions_foldl]
  constructor
  · exact last_deletions hdel
  · refine ⟨_,storage,SortedMap.insertAll_tops (SortedMap.tops_empty _) ?_,
      fun k v => storage_entries hsc hst,rfl⟩
    refine mapM_pairwise (g := fun c => c.origin.ordinal) (h := fun e => e.2.ordinal) hst
      (fun a b hab => ?_) (hsc ▸ Collect.sortByOrdinal_ordered _ _)
    obtain ⟨-,-,rfl⟩ := storageEntry_ok.mp hab
    rfl
  · refine balances.fills ?_ (hbc ▸ balance_lists)
    exact List.pairwise_map.mpr (hbc ▸ Collect.sortByOrdinal_ordered _ _)
  · refine nonces.fills ?_ (hnc ▸ nonce_lists)
    exact List.pairwise_map.mpr (hnc ▸ Collect.sortByOrdinal_ordered _ _)
  · refine codes.fills ?_ (code_lists hcc hco)
    refine mapM_pairwise (g := fun c => c.origin.ordinal) (h := fun e => e.2.ordinal) hco
      (fun a b hab => ?_) (hcc ▸ Collect.sortByOrdinal_ordered _ _)
    rw [codeEntry_ok hab]
    rfl
  · intro o a
    have happ : ∀ l m, addEffects (addEffects SortedMap.empty l) m =
        addEffects SortedMap.empty (l++m) := by simp [addEffects, SortedMap.insertAll]
    simp only [happ, mem_addEffects, List.mem_append, List.mem_map, LifecycleEffect.mk.injEq,
      true_and]
    exact or_iff_right (fun he => hot _ he rfl)

theorem made_faithful {row : BlockState} {es : List (ℕ × Effect)} {ds : List (Bytes × ℕ)}
    (h : Made row es ds) : Faithful row es where
  storage := storage_collapses h
  balances := balances.collapses h.balances h.deletions
  nonces := nonces.collapses h.nonces h.deletions
  codes := codes.collapses h.codes h.deletions

end EvmState.BlockRows
