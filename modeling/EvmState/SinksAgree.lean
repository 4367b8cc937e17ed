import EvmState.DbOutRows
import EvmState.Replay

/-!
# The two sinks on one block

The native row and the PostgreSQL rows of one block are made from the same
collected changes. The native maps are keyed by the text of the padded slot,
the PostgreSQL map by the bytes of the slot as they were delivered.
-/

set_option autoImplicit false

namespace EvmState.SinksAgree
open EvmState.Hex EvmState.Fallible EvmState.OrderedMap EvmState.Params EvmState.Upsert
open EvmState.Reference EvmState.BlockProjection EvmState.DbOut EvmState.DbOutRows

/-- The current rows of the PostgreSQL sink hold what the native row holds:
the same slots with the same values and ordinals, and the same balances and
nonces. -/
structure Agrees (t : DatabaseChanges) (s : BlockState) : Prop where
  storage : ∀ k c, (t .storage).get? k = some c → ∃ v ∈ s.storage,
    k = key [("address",v.address),("slot",v.slot)] ∧
    c.get? "value" = some (.set v.value) ∧ c.get? "ordinal" = some (.set (toString v.ordinal))
  storage_all : ∀ v ∈ s.storage, ∃ c,
    (t .storage).get? (key [("address",v.address),("slot",v.slot)]) = some c
  balance : ∀ a w, written (t .accounts) (key [("address",a)]) "balance" = some w ↔
    ∃ v ∈ s.balances, v.address = a ∧ w = .set v.value
  nonce : ∀ a w, written (t .accounts) (key [("address",a)]) "nonce" = some w ↔
    ∃ v ∈ s.nonces, v.address = a ∧ w = .set (toString v.value)

/-- No selected account is deleted when a transaction of the block ends. -/
def NoDeletion (filter : Filter) (block : Eth.Block) : Prop :=
  ∀ e ∈ Lifecycle.deletionEvents block (timestamp block), filter.matchesAccount e.1 = false

section Native
variable {params : String} {block : Eth.Block} {filter : Filter} {s : BlockState}
  {ch : Collect.StateChanges}

def nativeSlot (e : (Bytes ×ₗ Bytes) × (ℕ × Bytes)) : SlotKey × StorageValue :=
  (BlockRows.slotName (ofLex e.1).1 (ofLex e.1).2,
    BlockRows.slotValue e.2.1 (ofLex e.1).1 (ofLex e.1).2 (pad e.2.2))

theorem slotName_injective :
    Function.Injective (fun k : Bytes ×ₗ Bytes => BlockRows.slotName (ofLex k).1 (ofLex k).2) := by
  intro k j h
  obtain ⟨ha,hk⟩ := Prod.mk.inj (toLex_inj.mp h)
  exact ofLex_inj.mp (Prod.ext (hex_injective ha) (hex_injective hk))

theorem native_rows (hf : Filter.parse params = .ok filter)
    (hs : BlockProjection.project params block = .ok s) (hc : Collect.collect params block = .ok ch)
    (hdel : NoDeletion filter block) :
    s.storage = (SortedMap.empty.insertAll ((ch.storageChanges.map slotItem).map nativeSlot)).values ∧
    s.balances = (SortedMap.empty.insertAll (ch.balanceChanges.map balanceEntry)).values ∧
    s.nonces = (SortedMap.empty.insertAll (ch.nonceChanges.map nonceEntry)).values := by
  obtain ⟨f,hf',hs⟩ := bind_ok.mp hs
  obtain rfl : filter = f := Except.ok.inj (hf.symm.trans hf')
  obtain ⟨⟨header,time⟩,hcheck,hs⟩ := bind_ok.mp hs
  obtain ⟨ch',hc',hs⟩ := bind_ok.mp hs
  obtain rfl : ch = ch' := Except.ok.inj (hc.symm.trans hc')
  obtain ⟨m,hm,hs⟩ := bind_ok.mp hs
  obtain rfl := pure_ok.mp hs
  obtain ⟨storage,hst,hm⟩ := bind_ok.mp hm
  obtain ⟨codes,-,hm⟩ := bind_ok.mp hm
  obtain ⟨destructed,-,hm⟩ := bind_ok.mp hm
  obtain ⟨deleted,hd,hm⟩ := bind_ok.mp hm
  obtain rfl := pure_ok.mp hm
  have hnone : deleted.entries.filter (fun e => filter.matchesAccount e.1) = [] := by
    rw [List.filter_eq_nil_iff]
    intro e he
    rw [BlockRows.checkBlock_timestamp hcheck] at hd
    have hg := (Lifecycle.deletions_greatest hd e.1).1 e.2 (SortedMap.mem_entries.mp he)
    simp [hdel _ hg]
  have hstorage : storage = (ch.storageChanges.map slotItem).map nativeSlot := by
    rw [List.map_map]
    exact mapM_eq_map hst (fun c e he => (BlockRows.storageEntry_ok.mp he).2.2)
  simp only [hnone, List.foldl_nil, hstorage, and_self]

theorem mem_insertAll {κ β : Type} [LinearOrder κ] {l : List (κ × β)} {v : β} :
    v ∈ (SortedMap.empty.insertAll l).values ↔ ∃ k, SortedMap.lastOf k l = some v := by
  rw [SortedMap.mem_values]
  refine exists_congr (fun k => ?_)
  rw [SortedMap.get?_insertAll_last, SortedMap.get?_empty, Option.or_none]

theorem native_storage {v : StorageValue} :
    v ∈ (SortedMap.empty.insertAll ((ch.storageChanges.map slotItem).map nativeSlot)).values ↔
      ∃ a j w, SortedMap.lastOf (toLex (a,j)) (ch.storageChanges.map slotItem) = some w ∧
        v = BlockRows.slotValue w.1 a j (pad w.2) := by
  rw [mem_insertAll]
  have hmap := SortedMap.lastOf_map slotName_injective
    (fun k (w : ℕ × Bytes) => BlockRows.slotValue w.1 (ofLex k).1 (ofLex k).2 (pad w.2))
  constructor
  · rintro ⟨k,hk⟩
    obtain ⟨e,he,hek⟩ := List.mem_map.mp (SortedMap.mem_of_lastOf hk)
    obtain ⟨rfl,-⟩ := Prod.mk.inj hek
    obtain ⟨w,hw,rfl⟩ := Option.map_eq_some_iff.mp ((hmap e.1 _).symm.trans hk)
    exact ⟨(ofLex e.1).1,(ofLex e.1).2,w,hw,rfl⟩
  · rintro ⟨a,j,w,hw,rfl⟩
    exact ⟨_,(hmap (toLex (a,j)) _).trans (by rw [hw]; rfl)⟩

theorem native_field {ν α : Type} {item : Bytes × (ℕ × α) → ν} {l : List (Bytes × (ℕ × α))} {v : ν} :
    v ∈ (SortedMap.empty.insertAll (l.map (fun e => (hex e.1,item e)))).values ↔
      ∃ a w, SortedMap.lastOf a l = some w ∧ v = item (a,w) := by
  rw [mem_insertAll]
  have hmap := SortedMap.lastOf_map hex_injective (fun a (w : ℕ × α) => item (a,w))
  constructor
  · rintro ⟨k,hk⟩
    obtain ⟨e,he,hek⟩ := List.mem_map.mp (SortedMap.mem_of_lastOf hk)
    obtain ⟨rfl,-⟩ := Prod.mk.inj hek
    obtain ⟨w,hw,rfl⟩ := Option.map_eq_some_iff.mp ((hmap e.1 l).symm.trans hk)
    exact ⟨e.1,w,hw,rfl⟩
  · rintro ⟨a,w,hw,rfl⟩
    exact ⟨_,(hmap a l).trans (by rw [hw]; rfl)⟩

theorem field_agrees {ν α : Type} (order : HashOrder) (column : String) (text : ℕ × α → String)
    (item : Bytes × (ℕ × α) → ν) (address shown : ν → String)
    {l : List (Bytes × (ℕ × α))} {rows : List ν}
    (hrows : rows = (SortedMap.empty.insertAll (l.map (fun e => (hex e.1,item e)))).values)
    (haddress : ∀ e, address (item e) = hex e.1) (hshown : ∀ e, shown (item e) = text e.2)
    (hcolumn : ∀ a, written (DbOut.project order ch .accounts) (accountKey a) column =
      (SortedMap.lastOf a l).map (fun v => .set (text v))) (t : String) (w : Write String) :
    written (DbOut.project order ch .accounts) (key [("address",t)]) column = some w ↔
      ∃ v ∈ rows, address v = t ∧ w = .set (shown v) := by
  constructor
  · intro hw
    obtain ⟨c,hc,-⟩ := Option.bind_eq_some_iff.mp hw
    obtain ⟨a,ha⟩ := accounts_keys order hc
    rw [ha, hcolumn, Option.map_eq_some_iff] at hw
    obtain ⟨v,hv,rfl⟩ := hw
    have ht : t = hex a := (Prod.mk.inj (toLex_inj.mp (List.cons.inj ha).1)).2
    refine ⟨item (a,v),?_,(haddress _).trans ht.symm,by rw [hshown]⟩
    rw [hrows]
    exact native_field.mpr ⟨a,v,hv,rfl⟩
  · rintro ⟨v,hv,rfl,rfl⟩
    rw [hrows] at hv
    obtain ⟨a,x,hx,rfl⟩ := native_field.mp hv
    rw [haddress, hshown]
    exact (hcolumn a).trans (by rw [hx]; rfl)

theorem accounts_agree (hc : Collect.collect params block = .ok ch) (order : HashOrder)
    (hb : s.balances = (SortedMap.empty.insertAll (ch.balanceChanges.map balanceEntry)).values)
    (hn : s.nonces = (SortedMap.empty.insertAll (ch.nonceChanges.map nonceEntry)).values) :
    (∀ a w, written (DbOut.project order ch .accounts) (key [("address",a)]) "balance" = some w ↔
      ∃ v ∈ s.balances, v.address = a ∧ w = .set v.value) ∧
    (∀ a w, written (DbOut.project order ch .accounts) (key [("address",a)]) "nonce" = some w ↔
      ∃ v ∈ s.nonces, v.address = a ∧ w = .set (toString v.value)) := by
  have hsorted := collect_sorted hc
  constructor
  · refine field_agrees order "balance" (·.2) (fun e => ⟨hex e.1,e.2.2,e.2.1⟩) (·.address) (·.value)
      (l := ch.balanceChanges.map balanceItem) (hb.trans (by rw [List.map_map]; rfl))
      (fun _ => rfl) (fun _ => rfl) (fun a => ?_)
    exact accounts_field order rfl (balance_column _ a) (lastAccounts_balance hsorted a)
  · refine field_agrees order "nonce" (fun v => toString v.2) (fun e => ⟨hex e.1,e.2.2,e.2.1⟩)
      (·.address) (fun v => toString v.value)
      (l := ch.nonceChanges.map nonceItem) (hn.trans (by rw [List.map_map]; rfl))
      (fun _ => rfl) (fun _ => rfl) (fun a => ?_)
    exact accounts_field order rfl (nonce_column _ a) (lastAccounts_nonce hsorted a)

theorem storageStatement_columns (n : ℕ) (k : Bytes ×ₗ Bytes) (v : ℕ × Bytes) :
    (columnsOf (storageStatement n (k,v))).get? "value" = some (.set (hex (pad v.2))) ∧
      (columnsOf (storageStatement n (k,v))).get? "block_num" = some (.set (toString n)) ∧
      (columnsOf (storageStatement n (k,v))).get? "ordinal" = some (.set (toString v.1)) := by
  rw [← word_pad]
  simp only [get?_columnsOf]
  exact ⟨rfl,rfl,rfl⟩

theorem storage_agrees (hc : Collect.collect params block = .ok ch) (hone : OneSpelling ch)
    (order : HashOrder) (hs : s.storage = (SortedMap.empty.insertAll
      ((ch.storageChanges.map slotItem).map nativeSlot)).values) :
    (∀ k c, (DbOut.project order ch .storage).get? k = some c → ∃ v ∈ s.storage,
      k = key [("address",v.address),("slot",v.slot)] ∧
      c.get? "value" = some (.set v.value) ∧ c.get? "ordinal" = some (.set (toString v.ordinal))) ∧
    ∀ v ∈ s.storage, ∃ c,
      (DbOut.project order ch .storage).get? (key [("address",v.address),("slot",v.slot)]) = some c := by
  have hrow := fun k c => storage_row (collect_sorted hc) hone order (k := k) (c := c)
  rw [hs]
  constructor
  · intro k c hk
    obtain ⟨a,j,v,hv,rfl,rfl⟩ := (hrow k c).mp hk
    obtain ⟨hvalue,-,hordinal⟩ := storageStatement_columns ch.block.number (toLex (a,j)) v
    exact ⟨_,native_storage.mpr ⟨a,j,v,hv,rfl⟩,rfl,hvalue,hordinal⟩
  · intro v hv
    obtain ⟨a,j,w,hw,rfl⟩ := native_storage.mp hv
    exact ⟨_,(hrow _ _).mpr ⟨a,j,w,hw,rfl,rfl⟩⟩

def lastly (e : StorageItem) : HashOrder where
  storage l := l.filter (fun d => !decide (d = e)) ++ l.filter (fun d => decide (d = e))
  accounts := id
  storage_perm l := by
    refine List.perm_append_comm.trans ?_
    simpa using List.filter_append_perm (fun d => decide (d = e)) l
  accounts_perm := List.Perm.refl

theorem storage_names (order : HashOrder) : ∀ t ∈ statements order ch .storage,
    t.sets.map Prod.fst = ["value","block_num","ordinal"] := by
  intro t ht
  obtain ⟨e,-,rfl⟩ := List.mem_map.mp ht
  rfl

theorem lastly_row {e : StorageItem} (he : (lastStorage ch).get? e.1 = some e.2) :
    (DbOut.project (lastly e) ch .storage).get? (storageKey (ofLex e.1).1 (ofLex e.1).2) =
      some (columnsOf (storageStatement ch.block.number e)) := by
  have hlast : (lastStorage ch).entries.filter (fun d => decide (d = e)) ≠ [] :=
    List.ne_nil_of_mem (List.mem_filter.mpr ⟨SortedMap.mem_entries.mpr he,by simp⟩)
  obtain ⟨d,hd⟩ := Option.ne_none_iff_exists'.mp (mt List.getLast?_eq_none_iff.mp hlast)
  have hde : d = e := by simpa using (List.mem_filter.mp (List.mem_of_getLast? hd)).2
  subst hde
  have hsplit : statements (lastly d) ch .storage =
      ((lastStorage ch).entries.filter (fun x => !decide (x = d))).map
        (storageStatement ch.block.number) ++
      ((lastStorage ch).entries.filter (fun x => decide (x = d))).map
        (storageStatement ch.block.number) := List.map_append
  rw [DbOut.project, hsplit]
  refine gather_lastly (hsplit ▸ storage_names (lastly d)) (fun t ht => ?_)
    (by rw [List.getLast?_map, hd]; rfl)
  obtain ⟨x,hx,rfl⟩ := List.mem_map.mp ht
  have hxd : x = d := by simpa using (List.mem_filter.mp hx).2
  rw [hxd]

theorem other_spelling (hone : ¬OneSpelling ch) : ∃ c ∈ ch.storageChanges, ∃ l ∈ ch.storageChanges,
    SortedMap.lastOf (toLex (c.address,pad c.key)) (ch.storageChanges.map slotItem) =
      some (slotItem l).2 ∧ l.key ≠ c.key := by
  simp only [OneSpelling, not_forall] at hone
  obtain ⟨c,hcm,d,hdm,ha,hp,hne⟩ := hone
  obtain ⟨w,hw⟩ := SortedMap.lastOf_isSome (List.mem_map_of_mem (f := slotItem) hcm)
  obtain ⟨l,hlm,hl⟩ := List.mem_map.mp (SortedMap.mem_of_lastOf hw)
  have hlw : (slotItem l).2 = w := by rw [hl]
  rw [← hlw] at hw
  by_cases hlc : l.key = c.key
  · refine ⟨d,hdm,l,hlm,?_,fun h => hne (hlc.symm.trans h)⟩
    rwa [← ha, ← hp]
  · exact ⟨c,hcm,l,hlm,hw,hlc⟩

/-- Two spellings of one slot: a walk that ends with the older one leaves
the older value. -/
theorem spelling_disagrees (hc : Collect.collect params block = .ok ch)
    (hord : OrdinalsDiffer ch) (hone : ¬OneSpelling ch) (hs : s.storage = (SortedMap.empty.insertAll
      ((ch.storageChanges.map slotItem).map nativeSlot)).values) :
    ∃ order, ¬Agrees (DbOut.project order ch) s := by
  have hsorted := collect_sorted hc
  obtain ⟨c,hcm,l,hlm,hlast,hne⟩ := other_spelling hone
  obtain ⟨v,hv⟩ : ∃ v, (lastStorage ch).get? (toLex (c.address,c.key)) = some v := by
    rw [lastStorage_eq hsorted, SortedMap.get?_insertAll_last, SortedMap.get?_empty, Option.or_none]
    exact SortedMap.lastOf_isSome (List.mem_map_of_mem (f := storageItem) hcm)
  -- the entry of the older spelling is another change, with another ordinal
  obtain ⟨d,hdm,hd⟩ := lastStorage_mem (e := (toLex (c.address,c.key),v)) hsorted hv
  have hdk : d.key = c.key := congrArg (fun e : StorageItem => (ofLex e.1).2) hd
  have hdo : d.origin.ordinal = v.1 := congrArg (fun e : StorageItem => e.2.1) hd
  have hdl : d.origin.ordinal ≠ l.origin.ordinal := by
    have hsymm : Std.Symm (fun a b : Collect.StorageChange => a.origin.ordinal ≠ b.origin.ordinal) :=
      ⟨fun _ _ h => h.symm⟩
    exact hord.storage.forall hdm hlm (fun h => hne (h ▸ hdk))
  refine ⟨lastly (toLex (c.address,c.key),v),fun hagrees => ?_⟩
  obtain ⟨u,hu,hk,-,huo⟩ := hagrees.storage _ _ (lastly_row hv)
  rw [hs] at hu
  obtain ⟨a,j,w,hw,rfl⟩ := native_storage.mp hu
  obtain ⟨ha,hk⟩ := List.cons.inj hk
  have ha := (Prod.mk.inj (toLex_inj.mp ha)).2
  have hk := (Prod.mk.inj (toLex_inj.mp (List.cons.inj hk).1)).2
  rw [word_pad] at hk
  obtain rfl : c.address = a := hex_injective ha
  obtain rfl : pad c.key = j := hex_injective hk
  obtain rfl : (slotItem l).2 = w := Option.some.inj (hlast.symm.trans hw)
  have hcol := (storageStatement_columns ch.block.number (toLex (c.address,c.key)) v).2.2
  rw [hcol] at huo
  have := Json.toString_nat_injective (Write.set.inj (Option.some.inj huo))
  exact hdl (hdo.trans this)

end Native

/-- The rows that the PostgreSQL sink upserts for a block without a deletion
hold what the native row holds, whatever the order in which it walks its
maps, exactly if no slot of an account is named by two different byte strings. -/
theorem sinks_agree {params : String} {filter : Filter} {block : Eth.Block} {s : BlockState}
    {ch : Collect.StateChanges} (hf : Filter.parse params = .ok filter)
    (hs : BlockProjection.project params block = .ok s) (hc : Collect.collect params block = .ok ch)
    (hdel : NoDeletion filter block) (hord : OrdinalsDiffer ch) :
    (∀ order t, dbOut order params block = .ok t → Agrees t s) ↔ OneSpelling ch := by
  obtain ⟨hstorage,hbalances,hnonces⟩ := native_rows hf hs hc hdel
  constructor
  · intro hall
    by_contra hone
    obtain ⟨order,hno⟩ := spelling_disagrees hc hord hone hstorage
    exact hno (hall order _ (bind_ok.mpr ⟨ch,hc,rfl⟩))
  · intro hone order t ht
    obtain ⟨ch',hc',ht⟩ := bind_ok.mp ht
    obtain rfl : ch = ch' := Except.ok.inj (hc.symm.trans hc')
    obtain rfl := pure_ok.mp ht
    obtain ⟨hsome,hall⟩ := storage_agrees hc hone order hstorage
    obtain ⟨hb,hn⟩ := accounts_agree hc order hbalances hnonces
    exact ⟨hsome,hall,hb,hn⟩

section Sample
open Replay

/-- One slot written twice, first by its trimmed key and then by its full one. -/
def spelledBlock : Eth.Block :=
  sampleBlock 100 [sampleTransaction 9 { sampleCall with storageChanges :=
    [⟨sampleAccount,[1],[],[7],3⟩,⟨sampleAccount,List.replicate 31 0 ++ [1],[],[9],5⟩] }]

def spelledRow : BlockState :=
  { sampleRow 100 "0x6464646464646464646464646464646464646464646464646464646464646464"
      "0x6363636363636363636363636363636363636363636363636363636363636363" with
    storage := [⟨sampleParams,sampleWord "1",sampleWord "9",5⟩] }

def sampleOrigin (ordinal : ℕ) : Collect.Origin := ⟨ordinal,.tx,[],0,1,1⟩

def spelledChanges : Collect.StateChanges where
  block := Collect.blockInfo spelledBlock
  storageChanges := [⟨sampleAccount,[1],[],[7],sampleOrigin 3⟩,
    ⟨sampleAccount,List.replicate 31 0 ++ [1],[],[9],sampleOrigin 5⟩]
  balanceChanges := []
  nonceChanges := []
  codeChanges := []
  setCodeAuthorizations := []

theorem sinks_disagree : ∃ s ch, BlockProjection.project sampleParams spelledBlock = .ok s ∧
    Collect.collect sampleParams spelledBlock = .ok ch ∧ NoDeletion sampleFilter spelledBlock ∧
    OrdinalsDiffer ch ∧
    ∃ order t, dbOut order sampleParams spelledBlock = .ok t ∧ ¬Agrees t s := by
  have hf : Filter.parse sampleParams = .ok sampleFilter := by rfl
  have hs : BlockProjection.project sampleParams spelledBlock = .ok spelledRow := by decide +kernel
  have hc : Collect.collect sampleParams spelledBlock = .ok spelledChanges := by decide +kernel
  have hdel : NoDeletion sampleFilter spelledBlock := by
    unfold NoDeletion
    decide +kernel
  have hord : OrdinalsDiffer spelledChanges := ⟨by decide,by decide,by decide,by decide⟩
  have hone : ¬OneSpelling spelledChanges := by
    unfold OneSpelling
    decide +kernel
  obtain ⟨order,hno⟩ := spelling_disagrees hc hord hone (native_rows hf hs hc hdel).1
  exact ⟨_,_,hs,hc,hdel,hord,order,_,bind_ok.mpr ⟨_,hc,rfl⟩,hno⟩

/-- The slot is written twice by one key, beside a balance and a nonce. -/
def agreedBlock : Eth.Block :=
  sampleBlock 100 [sampleTransaction 9 { sampleCall with
    storageChanges := [⟨sampleAccount,[1],[],[7],3⟩,⟨sampleAccount,[1],[7],[9],5⟩]
    balanceChanges := [⟨sampleAccount,none,some [4],0,6⟩]
    nonceChanges := [⟨sampleAccount,0,1,7⟩] }]

def agreedRow : BlockState :=
  { spelledRow with
    balances := [⟨sampleParams,"4",6⟩]
    nonces := [⟨sampleParams,1,7⟩] }

def agreedChanges : Collect.StateChanges where
  block := Collect.blockInfo agreedBlock
  storageChanges := [⟨sampleAccount,[1],[],[7],sampleOrigin 3⟩,
    ⟨sampleAccount,[1],[7],[9],sampleOrigin 5⟩]
  balanceChanges := [⟨sampleAccount,"0","4",0,sampleOrigin 6⟩]
  nonceChanges := [⟨sampleAccount,0,1,sampleOrigin 7⟩]
  codeChanges := []
  setCodeAuthorizations := []

theorem sinks_agree_sample :
    (¬∀ order t, dbOut order sampleParams spelledBlock = .ok t → Agrees t spelledRow) ∧
      ∀ order t, dbOut order sampleParams agreedBlock = .ok t → Agrees t agreedRow := by
  have hf : Filter.parse sampleParams = .ok sampleFilter := by rfl
  have hspelled : ¬OneSpelling spelledChanges := by
    unfold OneSpelling
    decide +kernel
  have hagreed : OneSpelling agreedChanges := by
    unfold OneSpelling
    decide +kernel
  constructor
  · exact (not_congr (sinks_agree hf (by decide +kernel) (by decide +kernel)
      (by unfold NoDeletion; decide +kernel) ⟨by decide,by decide,by decide,by decide⟩)).mpr hspelled
  · exact (sinks_agree hf (by decide +kernel) (by decide +kernel)
      (by unfold NoDeletion; decide +kernel) ⟨by decide,by decide,by decide,by decide⟩).mpr hagreed

end Sample
end EvmState.SinksAgree
