import EvmState.EventLog
import EvmState.Deletions
import EvmState.Encoding
import EvmState.Filtering

/-!
# Code references in PostgreSQL

The accounts row names the code of an account by the hash of its last code
change, and the code table has a row for each hash whose bytecode was
delivered. A snapshot joins the two.
-/

set_option autoImplicit false

namespace EvmState.CodeReferences
open EvmState.Hex EvmState.Fallible EvmState.OrderedMap EvmState.Params EvmState.Upsert EvmState.Log
open EvmState.BlockProjection EvmState.DbOut EvmState.DbOutRows EvmState.EventLog

def joinedCode (d : Database) (codeHash : String) : Option String :=
  (cell (d .code) (key [("code_hash",codeHash)]) "code").map
    (fun text => "0x" ++ String.ofList (text.toList.drop 2))

/-- What the validation of a snapshot asks of the code fields of an account. -/
def validateCode (codeHash code : Option String) : Except String Unit := do
  let hash ← context codeHash
    "missing required account metadata or bytecode; partial state cannot pass verification"
  let code ← context code
    "missing required account metadata or bytecode; partial state cannot pass verification"
  let _ ← Encoding.fixed 32 hash
  let _ ← Encoding.unhex code
  return ()

variable {params : String}

/-- The last code change of an account in a sequence of blocks. -/
def lastCode (visits : List (Visit params)) (a : Bytes) : Option (Visit params × Collect.CodeChange) :=
  ((codeLog visits).filter (fun e => e.2.address = a)).getLast?

/-- The code hash `t` of an account is the hash `h`, under which the table
has the delivered bytecode `b`, and the native row of its last code change
says the same. -/
structure Resolves (visits : List (Visit params)) (a : Bytes) (t : String) (h b : Bytes) : Prop where
  length : h.length = 32
  text : t = hex h
  joined : cell (loaded visits .code) (codeKey h) "code" = some (bytea b)
  delivered : ∃ e ∈ codeLog visits, e.2.newHash = h ∧ e.2.newCode = b
  cleared : ∀ e, lastCode visits a = some e → e.2.newCode = [] → b = []
  native : ∃ e row, lastCode visits a = some e ∧
    BlockProjection.project params e.1.block = .ok row ∧
    ∃ v ∈ row.codes, v.address = hex a ∧ v.ordinal = e.2.origin.ordinal ∧ v.hash = t
  accepted : validateCode (some t) (joinedCode (loaded visits) t) = .ok ()

section Rows

/-- A change that writes the row of a hash in the code table. -/
def Writes (k : Key) (c : Collect.CodeChange) : Prop := c.newCode ≠ [] ∧ codeKey c.newHash = k

instance (k : Key) (c : Collect.CodeChange) : Decidable (Writes k c) := instDecidableAnd

def codeRow (number : ℕ) (c : Collect.CodeChange) : Statement Key String :=
  ⟨codeKey c.newHash,[set "code" (bytea c.newCode),set "size" (toString c.newCode.length),
    ("first_block_num",.setIfNull (toString number))]⟩

theorem codeStatement_filter (n : ℕ) (k : Key) (l : List Collect.CodeChange) :
    (l.filterMap (codeStatement n)).filter (fun s => s.key = k) =
      (l.filter (fun c => Writes k c)).map (codeRow n) := by
  induction l with
  | nil => rfl
  | cons c l ih =>
    rw [List.filterMap_cons, List.filter_cons]
    by_cases hc : c.newCode = []
    · simp [codeStatement, Writes, hc, ih]
    · by_cases hk : codeKey c.newHash = k
      · simp [codeStatement, Writes, codeRow, hc, hk, ih]
      · simp [codeStatement, Writes, hc, hk, ih]

theorem visit_codeTable (v : Visit params) (k : Key) : written (v.rows .code) k "code" =
    ((v.changes.codeChanges.filter (fun c => Writes k c)).getLast?).map
      (fun c => .set (bytea c.newCode)) := by
  have hnames : ∀ s ∈ statements v.order v.changes .code,
      s.sets.map Prod.fst = ["code","size","first_block_num"] := by
    intro s hs
    obtain ⟨c,-,hc⟩ := List.mem_filterMap.mp hs
    simp only [codeStatement, Option.ite_none_left_eq_some, Option.some.injEq] at hc
    rw [← hc.2]
    rfl
  rw [written, Visit.rows, DbOut.project, gather_last (p := fun s => s.key = k) hnames
    (fun _ _ => decide_eq_true_iff), statements, codeStatement_filter, List.getLast?_map,
    Option.map_map]
  cases (v.changes.codeChanges.filter (fun c => Writes k c)).getLast? with
  | none => rfl
  | some c =>
    rw [Option.map_some, Option.bind_some, Function.comp_apply, get?_columnsOf]
    rfl

variable (visits : List (Visit params))

theorem codeTable (k : Key) : cell (loaded visits .code) k "code" =
    (((codeLog visits).filter (fun e => Writes k e.2)).getLast?).map (fun e => bytea e.2.newCode) := by
  rw [loaded_table, cell_run _ (fun v : Visit params =>
    ((v.changes.codeChanges.filter (fun c => Writes k c)).getLast?).map (fun c => bytea c.newCode))]
  · rw [getLast?_batches (fun v : Visit params => v.changes.codeChanges) (fun e => decide (Writes k e.2))
      (fun e => bytea e.2.newCode)]
    exact Option.or_none
  · intro v _
    rw [Option.map_map]
    exact visit_codeTable v k

theorem codeHash_column (a : Bytes) : cell (loaded visits .accounts) (accountKey a) "code_hash" =
    (lastCode visits a).map (fun e => hex e.2.newHash) := by
  rw [loaded_table, cell_run _ (fun v : Visit params =>
    ((v.changes.codeChanges.filter (fun c => c.address = a)).getLast?).map (fun c => hex c.newHash))]
  · rw [getLast?_batches (fun v : Visit params => v.changes.codeChanges)
      (fun e => decide (e.2.address = a)) (fun e => hex e.2.newHash)]
    exact Option.or_none
  · intro v _
    rw [Option.map_map]
    exact visit_code v a _ (code_column _ a)

theorem bytea_injective : Function.Injective bytea := by
  intro a b h
  have h := congrArg String.toList h
  simp only [bytea, String.toList_append] at h
  exact encode_injective (String.toList_injective (List.append_cancel_left h))

theorem codeTable_delivered {h : Bytes} {t : String}
    (hcell : cell (loaded visits .code) (codeKey h) "code" = some t) :
    ∃ e ∈ codeLog visits, e.2.newHash = h ∧ e.2.newCode ≠ [] ∧ t = bytea e.2.newCode := by
  rw [codeTable, Option.map_eq_some_iff] at hcell
  obtain ⟨e,he,rfl⟩ := hcell
  obtain ⟨hmem,hw⟩ := List.mem_filter.mp (List.mem_of_getLast? he)
  obtain ⟨hcode,hkey⟩ : Writes (codeKey h) e.2 := of_decide_eq_true hw
  have hhash := hex_injective (Prod.mk.inj (toLex_inj.mp (List.cons.inj hkey).1)).2
  exact ⟨e,hmem,hhash,hcode,rfl⟩

theorem codeTable_of_change {e : Visit params × Collect.CodeChange} (he : e ∈ codeLog visits)
    (hcode : e.2.newCode ≠ []) :
    ∃ t, cell (loaded visits .code) (codeKey e.2.newHash) "code" = some t := by
  rw [codeTable, ← Option.isSome_iff_exists, Option.isSome_map, List.getLast?_isSome]
  exact List.ne_nil_of_mem (List.mem_filter.mpr ⟨he,decide_eq_true ⟨hcode,rfl⟩⟩)

theorem joinedCode_bytea {d : Database} {t : String} {b : Bytes}
    (h : cell (d .code) (key [("code_hash",t)]) "code" = some (bytea b)) :
    joinedCode d t = some (hex b) := by
  rw [joinedCode, h, Option.map_some, Option.some.injEq]
  exact String.toList_injective (by simp [bytea, hex])

theorem validateCode_accepts {h b : Bytes} (hlen : h.length = 32) :
    validateCode (some (hex h)) (some (hex b)) = .ok () :=
  bind_ok.mpr ⟨_,rfl,bind_ok.mpr ⟨_,rfl,bind_ok.mpr ⟨h,Encoding.fixed_ok.mpr ⟨Encoding.unhex_hex h,hlen⟩,
    bind_ok.mpr ⟨b,Encoding.unhex_hex b,rfl⟩⟩⟩⟩

end Rows

section Native
variable {block : Eth.Block} {ch : Collect.StateChanges} {row : BlockState}

def DeletedAfter (block : Eth.Block) (a : Bytes) (ordinal : ℕ) : Prop :=
  ∃ tx call, Deletions.Qualifies block (Reference.timestamp block) a tx call ∧ ordinal < tx.endOrdinal

section KeepZeros
variable {V ν β : Type} (g : BlockRows.Group V ν β) {m : SortedMap String ν} {k : String} {v : ν}

theorem keepZeros_step (d : Bytes × ℕ) (h : m.get? k = some v) :
    (BlockRows.keepZeros g m d).get? k =
      some (if hex d.1 = k ∧ g.ordinal v < d.2 then g.entry d.2 d.1 g.empty else v) := by
  rw [BlockRows.keepZeros, SortedMap.keepGreatest]
  by_cases hk : hex d.1 = k
  · subst hk
    by_cases hlt : g.ordinal v < d.2
    · rw [if_pos (by simpa [h, g.ordinal_entry] using hlt), SortedMap.get?_insert, if_pos rfl,
        if_pos ⟨rfl,hlt⟩]
    · rw [if_neg (by simpa [h, g.ordinal_entry] using hlt), if_neg (fun hd => hlt hd.2), h]
  · have hkeep : (if hex d.1 = k ∧ g.ordinal v < d.2 then g.entry d.2 d.1 g.empty else v) = v :=
      if_neg (fun hd => hk hd.1)
    rw [hkeep]
    split
    · rw [SortedMap.get?_insert, if_neg (Ne.symm hk), h]
    · exact h

theorem keepZeros_same {ds : List (Bytes × ℕ)} (h : m.get? k = some v)
    (hds : ∀ d ∈ ds, hex d.1 = k → d.2 ≤ g.ordinal v) :
    (ds.foldl (BlockRows.keepZeros g) m).get? k = some v := by
  induction ds generalizing m with
  | nil => exact h
  | cons d ds ih =>
    refine ih ?_ (fun e he => hds e (List.mem_cons_of_mem d he))
    rw [keepZeros_step g d h, if_neg]
    exact fun hd => absurd (hds d List.mem_cons_self hd.1) (not_le.mpr hd.2)

theorem keepZeros_later (ds : List (Bytes × ℕ)) (h : m.get? k = some v) :
    ∃ u, (ds.foldl (BlockRows.keepZeros g) m).get? k = some u ∧ g.ordinal v ≤ g.ordinal u ∧
      ∀ d ∈ ds, hex d.1 = k → d.2 ≤ g.ordinal u := by
  induction ds generalizing m v with
  | nil => exact ⟨v,h,le_refl _,by simp⟩
  | cons d ds ih =>
    obtain ⟨u,hu,hle,hall⟩ := ih (keepZeros_step g d h)
    by_cases hd : hex d.1 = k ∧ g.ordinal v < d.2
    · rw [if_pos hd, g.ordinal_entry] at hle
      exact ⟨u,hu,hd.2.le.trans hle,List.forall_mem_cons.mpr ⟨fun _ => hle,hall⟩⟩
    · rw [if_neg hd] at hle
      refine ⟨u,hu,hle,List.forall_mem_cons.mpr ⟨fun hk => ?_,hall⟩⟩
      exact (not_lt.mp (fun hlt => hd ⟨hk,hlt⟩)).trans hle

end KeepZeros

def nativeHash (c : Collect.CodeChange) : Bytes :=
  if c.newHash.isEmpty then Reference.emptyHash else c.newHash

/-- Every code change of an accepted block has a 32-byte hash, or neither
hash nor code. The row's entry of an account is the one of its last change,
or a later one if the account is deleted after that. -/
theorem native_code (hrow : BlockProjection.project params block = .ok row)
    (hc : Collect.collect params block = .ok ch) :
    (∀ c ∈ ch.codeChanges, c.newHash.length = 32 ∨ c.newHash = [] ∧ c.newCode = []) ∧
    ∀ a c, (ch.codeChanges.filter (fun c => c.address = a)).getLast? = some c →
      (¬DeletedAfter block a c.origin.ordinal → ∃ v ∈ row.codes, v.address = hex a ∧
        v.ordinal = c.origin.ordinal ∧ v.hash = hex (nativeHash c)) ∧
      (DeletedAfter block a c.origin.ordinal → ∀ v ∈ row.codes, v.address = hex a →
        c.origin.ordinal < v.ordinal) := by
  obtain ⟨filter,hfilter,hrow⟩ := bind_ok.mp hrow
  obtain ⟨⟨header,time⟩,hcheck,hrow⟩ := bind_ok.mp hrow
  obtain ⟨ch',hc',hrow⟩ := bind_ok.mp hrow
  obtain rfl : ch = ch' := Except.ok.inj (hc.symm.trans hc')
  obtain ⟨m,hm,hrow⟩ := bind_ok.mp hrow
  obtain rfl := pure_ok.mp hrow
  have hfiled := Filtering.collapse_filed hm
  obtain ⟨storage,codes,others,deleted,-,hco,-,hdel,rfl⟩ := BlockRows.collapse_ok hm
  rw [BlockRows.checkBlock_timestamp hcheck] at hdel
  have hentries := mapM_eq_map hco (fun c e he => BlockRows.codeEntry_ok he)
  constructor
  · intro c hcm
    obtain ⟨e,-,he⟩ := (Timeline.exists_related (mapM_ok.mp hco)).1 c hcm
    obtain ⟨_,hh,-⟩ := bind_ok.mp he
    simpa using ensure_ok.mp hh
  intro a c hlast
  obtain ⟨hcm,hca⟩ := List.mem_filter.mp (List.mem_of_getLast? hlast)
  have hca : c.address = a := of_decide_eq_true hca
  subst hca
  have hmatch : filter.matchesAccount c.address = true := by
    obtain ⟨records,-,-,-,-,hcodes⟩ := BlockRows.collect_ok hfilter hc
    rw [hcodes, Collect.mem_sortByOrdinal] at hcm
    obtain ⟨s,ctx,-,hs,rfl⟩ := BlockRows.code_record.mp hcm
    exact hs
  -- the entry before the deletions are applied
  have hfirst : (SortedMap.empty.insertAll codes).get? (hex c.address) =
      some (BlockRows.codes.entry c.origin.ordinal c.address (nativeHash c,c.newCode)) := by
    rw [SortedMap.get?_insertAll_last, SortedMap.get?_empty, Option.or_none, hentries]
    rw [SortedMap.lastOf_items _ (p := fun d => d.address = c.address) (fun d _ => by
      rw [decide_eq_true_iff, hex_injective.eq_iff]), hlast]
    rfl
  rw [BlockRows.deletions_foldl] at hfiled ⊢
  constructor
  · intro hkept
    refine ⟨_,SortedMap.mem_values.mpr ⟨_,keepZeros_same BlockRows.codes hfirst ?_⟩,rfl,rfl,rfl⟩
    intro d hd hk
    rw [BlockRows.Group.ordinal_entry]
    by_contra hlt
    obtain ⟨⟨tx,call,hq,htx⟩,-⟩ := (Deletions.deletions_ok hdel).mp
      (SortedMap.mem_entries.mp (List.mem_filter.mp hd).1)
    exact hkept ⟨tx,call,hex_injective hk ▸ hq,by rw [htx]; exact not_le.mp hlt⟩
  · rintro ⟨tx,call,hq,hlt⟩ v hv ha
    obtain ⟨k,hk⟩ := SortedMap.mem_values.mp hv
    have hka : k = hex c.address := (hfiled.codes k v hk).symm.trans ha
    subst hka
    obtain ⟨o,ho,hle⟩ := (Lifecycle.deletions_greatest hdel c.address).2 tx.endOrdinal
      (Deletions.mem_deletionEvents.mpr ⟨tx,call,hq,rfl⟩)
    obtain ⟨u,hu,-,hall⟩ := keepZeros_later BlockRows.codes
      (deleted.entries.filter (fun e => filter.matchesAccount e.1)) hfirst
    obtain rfl : v = u := Option.some.inj (hk.symm.trans hu)
    have hle' := hall (c.address,o)
      (List.mem_filter.mpr ⟨SortedMap.mem_entries.mpr ho,hmatch⟩) rfl
    exact lt_of_lt_of_le hlt (hle.trans hle')

end Native

theorem lastCode_mem {visits : List (Visit params)} {a : Bytes} {e : Visit params × Collect.CodeChange}
    (h : lastCode visits a = some e) : e ∈ codeLog visits :=
  (List.mem_filter.mp (List.mem_of_getLast? h)).1

theorem cleared_unresolved {visits : List (Visit params)} {a : Bytes} {t : String}
    {e : Visit params × Collect.CodeChange} (he : lastCode visits a = some e)
    (hcode : e.2.newCode = []) : ¬∃ h b, Resolves visits a t h b := by
  rintro ⟨h,b,hr⟩
  obtain rfl := hr.cleared e he hcode
  obtain ⟨d,-,-,hd,hb⟩ := codeTable_delivered visits hr.joined
  exact hd (bytea_injective hb).symm

section Last
variable {visits : List (Visit params)}
  (haccepted : ∀ v ∈ visits, ∃ row, BlockProjection.project params v.block = .ok row)
  {a : Bytes} {e : Visit params × Collect.CodeChange} (he : lastCode visits a = some e)
include haccepted he

theorem lastCode_native : ∃ row, BlockProjection.project params e.1.block = .ok row ∧
    (e.2.newHash.length = 32 ∨ e.2.newHash = [] ∧ e.2.newCode = []) ∧
    (¬DeletedAfter e.1.block a e.2.origin.ordinal → ∃ v ∈ row.codes, v.address = hex a ∧
      v.ordinal = e.2.origin.ordinal ∧ v.hash = hex (nativeHash e.2)) ∧
    (DeletedAfter e.1.block a e.2.origin.ordinal → ∀ v ∈ row.codes, v.address = hex a →
      e.2.origin.ordinal < v.ordinal) := by
  obtain ⟨hv,hc⟩ := mem_entries.mp (lastCode_mem he)
  obtain ⟨row,hrow⟩ := haccepted e.1 hv
  obtain ⟨hlen,hnative⟩ := native_code hrow e.1.collected
  have hlast : (e.1.changes.codeChanges.filter (fun c => c.address = a)).getLast? = some e.2 :=
    getLast?_entry (f := fun v : Visit params => v.changes.codeChanges)
      (p := fun e => e.2.address = a) he
  exact ⟨row,hrow,hlen e.2 hc,hnative a e.2 hlast⟩

theorem deleted_unresolved (hd : DeletedAfter e.1.block a e.2.origin.ordinal) {t : String} :
    ¬∃ h b, Resolves visits a t h b := by
  rintro ⟨h,b,hr⟩
  obtain ⟨e',row',he',hrow',v,hv,ha,ho,-⟩ := hr.native
  obtain rfl : e = e' := Option.some.inj (he.symm.trans he')
  obtain ⟨row,hrow,-,-,hlater⟩ := lastCode_native haccepted he
  obtain rfl : row = row' := Except.ok.inj (hrow.symm.trans hrow')
  exact absurd ho (ne_of_gt (hlater hd v hv ha))

theorem code_resolves (hcode : e.2.newCode ≠ [])
    (hd : ¬DeletedAfter e.1.block a e.2.origin.ordinal) :
    ∃ h b, Resolves visits a (hex e.2.newHash) h b := by
  obtain ⟨row,hrow,hlen,hkept,-⟩ := lastCode_native haccepted he
  have hlen : e.2.newHash.length = 32 := hlen.resolve_right (fun h => hcode h.2)
  obtain ⟨t,ht⟩ := codeTable_of_change visits (lastCode_mem he) hcode
  obtain ⟨d,hdm,hdh,hdc,rfl⟩ := codeTable_delivered visits ht
  obtain ⟨v,hv,ha,ho,hhash⟩ := hkept hd
  have hnonempty : nativeHash e.2 = e.2.newHash := by
    rw [nativeHash, if_neg]
    intro hempty
    rw [List.isEmpty_iff.mp hempty] at hlen
    cases hlen
  refine ⟨e.2.newHash,d.2.newCode,hlen,rfl,ht,⟨d,hdm,hdh,rfl⟩,?_,
    ⟨e,row,he,hrow,v,hv,ha,ho,hnonempty ▸ hhash⟩,?_⟩
  · intro c hce hnil
    obtain rfl : e = c := Option.some.inj (he.symm.trans hce)
    exact absurd hnil hcode
  · rw [joinedCode_bytea ht]
    exact validateCode_accepts hlen

end Last

/-- After the rows of any accepted blocks, every code hash of an account
resolves exactly if each account's last code change leaves it with code and
the account is not deleted after that change. -/
theorem code_references {visits : List (Visit params)}
    (haccepted : ∀ v ∈ visits, ∃ row, BlockProjection.project params v.block = .ok row) :
    (∀ a t, cell (loaded visits .accounts) (accountKey a) "code_hash" = some t →
      ∃ h b, Resolves visits a t h b) ↔
    ∀ a e, lastCode visits a = some e →
      e.2.newCode ≠ [] ∧ ¬DeletedAfter e.1.block a e.2.origin.ordinal := by
  constructor
  · intro hall a e he
    have hresolves := hall a _ (by rw [codeHash_column, he]; rfl)
    exact ⟨fun hcode => cleared_unresolved he hcode hresolves,
      fun hd => deleted_unresolved haccepted he hd hresolves⟩
  · intro hcode a t ht
    rw [codeHash_column, Option.map_eq_some_iff] at ht
    obtain ⟨e,he,rfl⟩ := ht
    exact code_resolves haccepted he (hcode a e he).1 (hcode a e he).2

section Sample
open Replay

def codeBlock (number : ℕ) (oldHash newHash code : Bytes) : Eth.Block :=
  sampleBlock number [sampleTransaction 9 { sampleCall with codeChanges :=
    [⟨sampleAccount,oldHash,newHash,code,3⟩] }]

def codeChanges (number : ℕ) (oldHash newHash code : Bytes) : Collect.StateChanges where
  block := Collect.blockInfo (codeBlock number oldHash newHash code)
  storageChanges := []
  balanceChanges := []
  nonceChanges := []
  codeChanges := [⟨sampleAccount,oldHash,newHash,code,SinksAgree.sampleOrigin 3⟩]
  setCodeAuthorizations := []

def sampleHash : Bytes := List.replicate 32 7

def sampleWalk : HashOrder := ⟨id,id,List.Perm.refl,List.Perm.refl⟩

def installed : Visit sampleParams :=
  ⟨codeBlock 100 [] sampleHash [0x60,0],codeChanges 100 [] sampleHash [0x60,0],by decide +kernel,sampleWalk⟩

/-- A delegation that is cleared again: neither a hash nor code. -/
def clearedAgain : Visit sampleParams :=
  ⟨codeBlock 101 sampleHash [] [],codeChanges 101 sampleHash [] [],by decide +kernel,sampleWalk⟩

theorem sample_accepted : ∀ v ∈ [installed,clearedAgain],
    ∃ row, BlockProjection.project sampleParams v.block = .ok row := by
  intro v hv
  refine exists_of_isOk ?_
  simp only [List.mem_cons, List.not_mem_nil, or_false] at hv
  rcases hv with rfl | rfl <;> decide +kernel

theorem code_reference_dangles :
    (∀ v ∈ [installed,clearedAgain], ∃ row, BlockProjection.project sampleParams v.block = .ok row) ∧
    cell (loaded [installed,clearedAgain] .accounts) (accountKey sampleAccount) "code_hash" = some "0x" ∧
    ¬∃ h b, Resolves [installed,clearedAgain] sampleAccount "0x" h b := by
  have hlast : lastCode [installed,clearedAgain] sampleAccount =
      some (clearedAgain,⟨sampleAccount,sampleHash,[],[],SinksAgree.sampleOrigin 3⟩) := by rfl
  refine ⟨sample_accepted,?_,cleared_unresolved hlast rfl⟩
  rw [codeHash_column, hlast]
  rfl

theorem code_references_sample :
    ∃ t h b, cell (loaded [installed] .accounts) (accountKey sampleAccount) "code_hash" = some t ∧
      Resolves [installed] sampleAccount t h b := by
  have haccepted : ∀ v ∈ [installed],
      ∃ row, BlockProjection.project sampleParams v.block = .ok row :=
    fun v hv => sample_accepted v (List.mem_append_left [clearedAgain] hv)
  have hresolves := (code_references haccepted).mpr (fun a e he => ?_) sampleAccount (hex sampleHash)
    (by rw [codeHash_column]; rfl)
  · obtain ⟨h,b,hr⟩ := hresolves
    exact ⟨hex sampleHash,h,b,by rw [codeHash_column]; rfl,hr⟩
  · obtain ⟨hv,hc⟩ := mem_entries.mp (lastCode_mem he)
    rw [List.mem_singleton.mp hv] at hc ⊢
    rw [List.mem_singleton.mp hc]
    refine ⟨by simp,?_⟩
    rintro ⟨tx,call,⟨⟨htx,-,hcall,hsuicide,-⟩,-⟩,-⟩
    rw [List.mem_singleton.mp htx] at hcall
    rw [List.mem_singleton.mp hcall] at hsuicide
    cases hsuicide

end Sample
end EvmState.CodeReferences
