import EvmState.Persist
import EvmState.Lib.Emission

/-!
# What persists

Every change record of a block has a site: where its list stands, the kind of
the list and the index in it. Collection hands over the changes of exactly the
sites that persist, each once, and fails only where a failed SetCode
transaction has no boundary before its execution.
-/

set_option autoImplicit false

namespace EvmState.Persistence
open EvmState.Hex EvmState.Fallible EvmState.Eth EvmState.Persist EvmState.Emission

inductive Kind where
  | storage
  | balance
  | nonce
  | code
  deriving DecidableEq, Repr

inductive Place where
  | transaction (t c : ℕ)
  | system (c : ℕ)
  | block
  deriving DecidableEq, Repr

structure Site where
  place : Place
  kind : Kind
  index : ℕ
  deriving DecidableEq, Repr

inductive Change where
  | storage (c : StorageChange)
  | balance (c : BalanceChange)
  | nonce (c : NonceChange)
  | code (c : CodeChange)
  deriving DecidableEq, Repr

def changeOf : Record → Change
  | .storage c _ => .storage c
  | .balance c _ => .balance c
  | .nonce c _ => .nonce c
  | .code c _ => .code c

def Change.isNoop : Change → Bool
  | .storage c => storageIsNoop c
  | .balance c => balanceIsNoop c
  | .nonce c => nonceIsNoop c
  | .code c => codeIsNoop c

def callChange (call : Call) (kind : Kind) (i : ℕ) : Option Change :=
  match kind with
  | .storage => call.storageChanges[i]?.map .storage
  | .balance => call.balanceChanges[i]?.map .balance
  | .nonce => call.nonceChanges[i]?.map .nonce
  | .code => call.codeChanges[i]?.map .code

def blockChange (block : Block) (kind : Kind) (i : ℕ) : Option Change :=
  match kind with
  | .balance => block.balanceChanges[i]?.map .balance
  | .code => block.codeChanges[i]?.map .code
  | _ => none

def changeAt (block : Block) (s : Site) : Option Change :=
  match s.place with
  | .transaction t c =>
    (block.transactionTraces[t]?.bind (·.calls[c]?)).bind (callChange · s.kind s.index)
  | .system c => block.systemCalls[c]?.bind (callChange · s.kind s.index)
  | .block => blockChange block s.kind s.index

def Effective (call : Call) (kind : Kind) (i : ℕ) : Prop :=
  ∃ c, callChange call kind i = some c ∧ c.isNoop = false

def Authority (trx : TransactionTrace) (a : Bytes) : Prop :=
  ∃ auth ∈ trx.setCodeAuthorizations, auth.discarded = false ∧ auth.authority = some a ∧ a ≠ []

/-- A change to an authority between the transaction's first ordinal and the
begin of its root call. -/
structure Authorized (trx : TransactionTrace) (root : Call) (a : Bytes) (ordinal : ℕ) : Prop where
  setCode : trx.type = .trxTypeSetCode
  authority : Authority trx a
  positive : 0 < ordinal
  before : ordinal < root.beginOrdinal

structure Increments (trx : TransactionTrace) (nc : NonceChange) : Prop where
  positive : 0 < nc.ordinal
  sender : nc.address = trx.fromAddress
  old : nc.oldValue = trx.nonce
  new : nc.newValue = trx.nonce+1
  bound : nc.newValue < 2^64

/-- The increment of the smallest ordinal, the first one of several. -/
def SenderIncrement (trx : TransactionTrace) (root : Call) (i : ℕ) : Prop :=
  ∃ nc, root.nonceChanges[i]? = some nc ∧ Increments trx nc ∧
    ∀ j mc, root.nonceChanges[j]? = some mc → Increments trx mc →
      nc.ordinal < mc.ordinal ∨ (nc.ordinal = mc.ordinal ∧ i ≤ j)

/-- What persists of the first call of a transaction that did not succeed. -/
def PersistsFailed (trx : TransactionTrace) (root : Call) : Kind → ℕ → Prop
  | .storage, _ => False
  | .balance, i => ∃ bc, root.balanceChanges[i]? = some bc ∧ isGasReason bc ∧ balanceIsNoop bc = false
  | .nonce, i => SenderIncrement trx root i ∨ ∃ nc, root.nonceChanges[i]? = some nc ∧
      Authorized trx root nc.address nc.ordinal ∧ nc.oldValue ≠ nc.newValue
  | .code, i => ∃ cc, root.codeChanges[i]? = some cc ∧
      Authorized trx root cc.address cc.ordinal ∧ cc.oldHash ≠ cc.newHash

def PersistsIn (trx : TransactionTrace) (c : ℕ) (kind : Kind) (i : ℕ) : Prop :=
  if trx.status = .succeeded then
    ∃ call, trx.calls[c]? = some call ∧ call.stateReverted = false ∧ Effective call kind i
  else c = 0 ∧ ∃ root, trx.calls[0]? = some root ∧ PersistsFailed trx root kind i

def Persists (block : Block) (s : Site) : Prop :=
  match s.place with
  | .transaction t c => ∃ trx, block.transactionTraces[t]? = some trx ∧ PersistsIn trx c s.kind s.index
  | .system c => ∃ call, block.systemCalls[c]? = some call ∧ call.stateReverted = false ∧
      Effective call s.kind s.index
  | .block => ∃ c, blockChange block s.kind s.index = some c ∧ c.isNoop = false

/-- A failed SetCode transaction without a boundary of its authorizations. -/
structure Unbounded (trx : TransactionTrace) : Prop where
  failed : trx.status ≠ .succeeded
  setCode : trx.type = .trxTypeSetCode
  authority : ∃ a, Authority trx a
  boundary : ∃ root, trx.calls.head? = some root ∧ root.beginOrdinal = 0

section Calls
variable {look : Site → Option Change} {place : Place}

theorem site_injective (place : Place) (kind : Kind) :
    Function.Injective (fun i => (⟨place,kind,i⟩ : Site)) := fun _ _ h => (Site.mk.inj h).2.2

theorem emits_kind {α : Type} {l : List α} (noop : α → Bool) {g : α → Change} {kind : Kind}
    (hlook : ∀ i, look ⟨place,kind,i⟩ = l[i]?.map g) (hnoop : ∀ a, (g a).isNoop = noop a) :
    Emits look (fun s => s.place = place ∧ s.kind = kind ∧
      ∃ c, l[s.index]?.map g = some c ∧ c.isNoop = false) ((l.filter (!noop ·)).map g) := by
  refine (emits_filter (site_injective place kind) hlook).congr (fun s => ?_)
  constructor
  · rintro ⟨i,a,hi,hp,rfl⟩
    exact ⟨rfl,rfl,g a,by simp [hi],by rw [hnoop]; simpa using hp⟩
  · rintro ⟨rfl,rfl,c,hc,hn⟩
    obtain ⟨a,ha,rfl⟩ := Option.map_eq_some_iff.mp hc
    exact ⟨s.index,a,ha,by rw [← hnoop, hn]; rfl,rfl⟩

theorem emitCallAll_changes (call : Call) (ctx : Ctx) : (emitCallAll call ctx).map changeOf =
    (call.storageChanges.filter (!storageIsNoop ·)).map .storage ++
      ((call.balanceChanges.filter (!balanceIsNoop ·)).map .balance ++
        ((call.nonceChanges.filter (!nonceIsNoop ·)).map .nonce ++
          (call.codeChanges.filter (!codeIsNoop ·)).map .code)) := by
  simp only [emitCallAll, List.map_append, List.map_map, List.append_assoc]
  rfl

theorem emits_call {call : Call} (ctx : Ctx)
    (hlook : ∀ kind i, look ⟨place,kind,i⟩ = callChange call kind i) :
    Emits look (fun s => s.place = place ∧ Effective call s.kind s.index)
      ((emitCallAll call ctx).map changeOf) := by
  rw [emitCallAll_changes]
  have hstorage := emits_kind storageIsNoop (hlook .storage) (fun _ => rfl)
  have hbalance := emits_kind balanceIsNoop (hlook .balance) (fun _ => rfl)
  have hnonce := emits_kind nonceIsNoop (hlook .nonce) (fun _ => rfl)
  have hcode := emits_kind codeIsNoop (hlook .code) (fun _ => rfl)
  refine (emits_append hstorage (emits_append hbalance (emits_append hnonce hcode ?_) ?_) ?_).congr ?_
  · rintro s ⟨-,hk,-⟩ ⟨-,hk',-⟩
    exact absurd (hk.symm.trans hk') (by decide)
  · rintro s ⟨-,hk,-⟩ (⟨-,hk',-⟩ | ⟨-,hk',-⟩)
    · exact absurd (hk.symm.trans hk') (by decide)
    · exact absurd (hk.symm.trans hk') (by decide)
  · rintro s ⟨-,hk,-⟩ (⟨-,hk',-⟩ | ⟨-,hk',-⟩ | ⟨-,hk',-⟩)
    · exact absurd (hk.symm.trans hk') (by decide)
    · exact absurd (hk.symm.trans hk') (by decide)
    · exact absurd (hk.symm.trans hk') (by decide)
  · rintro ⟨p,kind,i⟩
    cases kind <;> simp [Effective, callChange]

theorem emits_calls {calls : List Call} {placeOf : ℕ → Place} (hat : Function.Injective placeOf)
    (ctx : Call → Ctx)
    (hlook : ∀ c call, calls[c]? = some call →
      ∀ kind i, look ⟨placeOf c,kind,i⟩ = callChange call kind i) :
    Emits look (fun s => ∃ c call, calls[c]? = some call ∧ call.stateReverted = false ∧
      s.place = placeOf c ∧ Effective call s.kind s.index)
      (((calls.filter (!·.stateReverted)).flatMap (fun call => emitCallAll call (ctx call))).map
        changeOf) := by
  rw [filter_flatMap, List.map_flatMap]
  refine emits_flatMap (fun c call hc => ?_) ?_
  · by_cases hr : call.stateReverted = true
    · rw [hr]
      exact emits_nil (fun s => by simp)
    · rw [Bool.not_eq_true] at hr
      rw [hr]
      exact (emits_call (ctx call) (hlook c call hc)).congr (fun s => by simp)
  · rintro i j a b s - - ⟨-,hp,-⟩ ⟨-,hp',-⟩
    exact hat (hp.symm.trans hp')

end Calls

section Failed
variable {trx : TransactionTrace} {root : Call} {look : Site → Option Change} {place : Place}

theorem mem_authorities {a : Bytes} :
    a ∈ authorities trx ↔ trx.type = .trxTypeSetCode ∧ Authority trx a := by
  unfold authorities Authority
  split_ifs with h
  · simp only [List.mem_filter, List.mem_filterMap, Bool.not_eq_true', h, true_and,
      List.isEmpty_eq_false_iff]
    constructor
    · rintro ⟨⟨auth,⟨hin,hd⟩,ha⟩,hne⟩
      exact ⟨auth,hin,hd,ha,hne⟩
    · rintro ⟨auth,hin,hd,ha,hne⟩
      exact ⟨⟨auth,⟨hin,hd⟩,ha⟩,hne⟩
  · simp [h]

theorem authorities_empty : (authorities trx).isEmpty = false ↔
    trx.type = .trxTypeSetCode ∧ ∃ a, Authority trx a := by
  rw [List.isEmpty_eq_false_iff_exists_mem]
  simp only [mem_authorities, exists_and_left]

theorem checkedSucc_some {m n : ℕ} : some m = checkedSucc n ↔ m = n+1 ∧ m < 2^64 := by
  unfold checkedSucc
  split_ifs with h
  · rw [Option.some.injEq]
    exact ⟨fun he => ⟨he,he ▸ h⟩,And.left⟩
  · simp only [false_iff, not_and]
    rintro rfl
    exact h

theorem increments_iff {nc : NonceChange} : (0 < nc.ordinal && nc.address = trx.fromAddress &&
    nc.oldValue = trx.nonce && some nc.newValue = checkedSucc trx.nonce) = true ↔
    Increments trx nc := by
  simp only [Bool.and_eq_true, decide_eq_true_eq, checkedSucc_some]
  constructor
  · rintro ⟨⟨⟨hp,hs⟩,ho⟩,hn,hb⟩
    exact ⟨hp,hs,ho,hn,hb⟩
  · rintro ⟨hp,hs,ho,hn,hb⟩
    exact ⟨⟨⟨hp,hs⟩,ho⟩,hn,hb⟩

theorem idxOf_le {α : Type} [DecidableEq α] {f : α → ℕ} {l : List α}
    (hl : l.Pairwise (fun a b => f a < f b)) {a b : α} (ha : a ∈ l) (hb : b ∈ l) :
    l.idxOf a ≤ l.idxOf b ↔ f a ≤ f b := by
  have hlt : ∀ {c d}, c ∈ l → d ∈ l → l.idxOf c < l.idxOf d → f c < f d := by
    intro c d hc hd h
    have := List.pairwise_iff_getElem.mp hl _ _ (List.idxOf_lt_length_iff.mpr hc)
      (List.idxOf_lt_length_iff.mpr hd) h
    simpa using this
  constructor
  · intro h
    rcases Nat.lt_or_ge (l.idxOf a) (l.idxOf b) with h' | h'
    · exact (hlt ha hb h').le
    · have : a = b := (List.idxOf_inj ha).mp (le_antisymm h h')
      rw [this]
  · intro h
    by_contra hne
    exact absurd (hlt hb ha (not_le.mp hne)) (not_lt.mpr h)

theorem senderNonce_iff {nc : NonceChange} {i : ℕ} : senderNonce trx root = some (nc,i) ↔
    root.nonceChanges[i]? = some nc ∧ Increments trx nc ∧
      ∀ j mc, root.nonceChanges[j]? = some mc → Increments trx mc →
        nc.ordinal < mc.ordinal ∨ (nc.ordinal = mc.ordinal ∧ i ≤ j) := by
  let l := root.nonceChanges.zipIdx.filter (fun n => 0 < n.1.ordinal &&
    n.1.address = trx.fromAddress && n.1.oldValue = trx.nonce &&
    some n.1.newValue = checkedSucc trx.nonce)
  have hsorted : l.Pairwise (fun a b => a.2 < b.2) := by
    refine List.Pairwise.filter _ (List.pairwise_map.mp ?_)
    rw [List.zipIdx_map_snd]
    exact List.pairwise_lt_range'
  have hmem : ∀ {mc : NonceChange} {j : ℕ}, (mc,j) ∈ l ↔
      root.nonceChanges[j]? = some mc ∧ Increments trx mc := by
    intro mc j
    rw [List.mem_filter, List.mk_mem_zipIdx_iff_getElem?]
    exact and_congr_right (fun _ => increments_iff)
  show l.argmin (·.1.ordinal) = some (nc,i) ↔ _
  rw [List.argmin_eq_some_iff, hmem, and_assoc]
  refine and_congr_right (fun hi => and_congr_right (fun hn => ?_))
  have hin : (nc,i) ∈ l := hmem.mpr ⟨hi,hn⟩
  constructor
  · rintro ⟨hle,hidx⟩ j mc hj hm
    have hjn : (mc,j) ∈ l := hmem.mpr ⟨hj,hm⟩
    rcases lt_or_eq_of_le (hle _ hjn) with hlt | heq
    · exact .inl hlt
    · exact .inr ⟨heq,(idxOf_le hsorted hin hjn).mp (hidx _ hjn heq.ge)⟩
  · intro h
    refine ⟨fun a ha => ?_,fun a ha hle => ?_⟩
    · obtain ⟨hj,hm⟩ := hmem.mp ha
      rcases h a.2 a.1 hj hm with hlt | ⟨heq,-⟩
      · exact hlt.le
      · exact heq.le
    · obtain ⟨hj,hm⟩ := hmem.mp ha
      rcases h a.2 a.1 hj hm with hlt | ⟨-,hij⟩
      · exact absurd hlt (not_lt.mpr hle)
      · exact (idxOf_le hsorted hin ha).mpr hij

theorem senderIncrement_iff {i : ℕ} :
    SenderIncrement trx root i ↔ (senderNonce trx root).map Prod.snd = some i := by
  simp only [Option.map_eq_some_iff, Prod.exists, SenderIncrement, ← senderNonce_iff]
  constructor
  · rintro ⟨nc,h⟩
    exact ⟨nc,i,h,rfl⟩
  · rintro ⟨nc,j,h,rfl⟩
    exact ⟨nc,h⟩

theorem emits_increment
    (hlook : ∀ i, look ⟨place,.nonce,i⟩ = root.nonceChanges[i]?.map .nonce) :
    Emits look (fun s => s.place = place ∧ s.kind = .nonce ∧ SenderIncrement trx root s.index)
      ((senderNonce trx root).toList.map (fun n => Change.nonce n.1)) := by
  cases hs : senderNonce trx root with
  | none =>
    refine emits_nil (fun s => ?_)
    rintro ⟨-,-,h⟩
    rw [senderIncrement_iff, hs] at h
    cases h
  | some n =>
    obtain ⟨nc,i⟩ := n
    have hi := (senderNonce_iff.mp hs).1
    have hone : look ⟨place,.nonce,i⟩ = some (.nonce nc) := by rw [hlook, hi]; rfl
    refine (emits_one hone).congr (fun s => ?_)
    rw [senderIncrement_iff, hs]
    constructor
    · rintro rfl
      exact ⟨rfl,rfl,rfl⟩
    · obtain ⟨p,k,j⟩ := s
      rintro ⟨rfl,rfl,hj⟩
      obtain rfl := Option.some.inj hj
      rfl

def GasBalance (root : Call) (place : Place) (s : Site) : Prop :=
  s.place = place ∧ s.kind = .balance ∧
    ∃ bc, root.balanceChanges[s.index]? = some bc ∧ isGasReason bc ∧ balanceIsNoop bc = false

theorem emits_gas (hlook : ∀ i, look ⟨place,.balance,i⟩ = root.balanceChanges[i]?.map .balance) :
    Emits look (GasBalance root place)
      ((root.balanceChanges.filter (fun bc => isGasReason bc && !balanceIsNoop bc)).map .balance) := by
  refine (emits_filter (site_injective place .balance) hlook).congr (fun s => ?_)
  simp only [GasBalance, Bool.and_eq_true, Bool.not_eq_true']
  constructor
  · rintro ⟨i,bc,hi,hp,rfl⟩
    exact ⟨rfl,rfl,bc,hi,hp⟩
  · obtain ⟨p,k,i⟩ := s
    rintro ⟨rfl,rfl,bc,hi,hp⟩
    exact ⟨i,bc,hi,hp,rfl⟩

def AuthorityNonce (trx : TransactionTrace) (root : Call) (place : Place) (s : Site) : Prop :=
  s.place = place ∧ s.kind = .nonce ∧ ¬SenderIncrement trx root s.index ∧
    ∃ nc, root.nonceChanges[s.index]? = some nc ∧ Authorized trx root nc.address nc.ordinal ∧
      nc.oldValue ≠ nc.newValue

theorem authorized_iff (ht : trx.type = .trxTypeSetCode) {a : Bytes} {ordinal : ℕ} :
    (beforeExecution root ordinal && a ∈ authorities trx) = true ↔
      Authorized trx root a ordinal := by
  simp only [beforeExecution, Bool.and_eq_true, decide_eq_true_eq, mem_authorities]
  constructor
  · rintro ⟨⟨hp,hb⟩,-,ha⟩
    exact ⟨ht,ha,hp,hb⟩
  · rintro ⟨-,ha,hp,hb⟩
    exact ⟨⟨hp,hb⟩,ht,ha⟩

theorem emits_authorityNonces (ht : trx.type = .trxTypeSetCode)
    (hlook : ∀ i, look ⟨place,.nonce,i⟩ = root.nonceChanges[i]?.map .nonce) :
    Emits look (AuthorityNonce trx root place)
      ((root.nonceChanges.zipIdx.filter (fun nc => (senderNonce trx root).map (·.2) ≠ some nc.2 &&
        beforeExecution root nc.1.ordinal && nc.1.address ∈ authorities trx &&
        !nonceIsNoop nc.1)).map (fun nc => Change.nonce nc.1)) := by
  refine (emits_filterIdx (site_injective place .nonce) (fun i nc hi => ?_)).congr (fun s => ?_)
  · rw [hlook, hi]
    rfl
  · simp only [AuthorityNonce, senderIncrement_iff, ← authorized_iff ht, nonceIsNoop,
      Bool.and_eq_true, Bool.not_eq_true', decide_eq_true_eq, decide_eq_false_iff_not]
    constructor
    · rintro ⟨i,nc,hi,⟨⟨⟨hne,hb⟩,ha⟩,hn⟩,rfl⟩
      exact ⟨rfl,rfl,hne,nc,hi,⟨hb,ha⟩,hn⟩
    · obtain ⟨p,k,i⟩ := s
      rintro ⟨rfl,rfl,hne,nc,hi,⟨hb,ha⟩,hn⟩
      exact ⟨i,nc,hi,⟨⟨⟨hne,hb⟩,ha⟩,hn⟩,rfl⟩

def AuthorityCode (trx : TransactionTrace) (root : Call) (place : Place) (s : Site) : Prop :=
  s.place = place ∧ s.kind = .code ∧
    ∃ cc, root.codeChanges[s.index]? = some cc ∧ Authorized trx root cc.address cc.ordinal ∧
      cc.oldHash ≠ cc.newHash

theorem emits_authorityCodes (ht : trx.type = .trxTypeSetCode)
    (hlook : ∀ i, look ⟨place,.code,i⟩ = root.codeChanges[i]?.map .code) :
    Emits look (AuthorityCode trx root place)
      ((root.codeChanges.filter (fun cc => beforeExecution root cc.ordinal &&
        cc.address ∈ authorities trx && !codeIsNoop cc)).map .code) := by
  refine (emits_filter (site_injective place .code) hlook).congr (fun s => ?_)
  simp only [AuthorityCode, ← authorized_iff ht, codeIsNoop, Bool.and_eq_true, Bool.not_eq_true',
    decide_eq_false_iff_not]
  constructor
  · rintro ⟨i,cc,hi,⟨⟨hb,ha⟩,hn⟩,rfl⟩
    exact ⟨rfl,rfl,cc,hi,⟨hb,ha⟩,hn⟩
  · obtain ⟨p,k,i⟩ := s
    rintro ⟨rfl,rfl,cc,hi,⟨hb,ha⟩,hn⟩
    exact ⟨i,cc,hi,⟨⟨hb,ha⟩,hn⟩,rfl⟩

theorem persistsFailed_iff (s : Site) : s.place = place ∧ PersistsFailed trx root s.kind s.index ↔
    GasBalance root place s ∨
      (s.place = place ∧ s.kind = .nonce ∧ SenderIncrement trx root s.index) ∨
        AuthorityNonce trx root place s ∨ AuthorityCode trx root place s := by
  obtain ⟨p,k,i⟩ := s
  cases k <;> simp only [PersistsFailed, GasBalance, AuthorityNonce, AuthorityCode, reduceCtorEq,
    false_and, and_false, true_and, false_or, or_false]
  tauto

theorem collectFailed_succeeds {base : Scope → ℕ → Ctx} :
    (∃ records, collectFailed trx base root = .ok records) ↔
      ((trx.type = .trxTypeSetCode ∧ ∃ a, Authority trx a) → root.beginOrdinal ≠ 0) := by
  rw [← authorities_empty]
  unfold collectFailed
  dsimp only
  cases ha : (authorities trx).isEmpty with
  | true =>
    rw [if_pos rfl]
    exact ⟨fun _ h => (by cases h),fun _ => ⟨_,rfl⟩⟩
  | false =>
    rw [if_neg (by simp)]
    constructor
    · rintro ⟨records,h⟩ -
      obtain ⟨_,hb,-⟩ := bind_ok.mp h
      exact ensure_ok.mp hb
    · exact fun h => ⟨_,bind_ok.mpr ⟨(),ensure_ok.mpr (h rfl),rfl⟩⟩

theorem emits_failed {base : Scope → ℕ → Ctx} {records : List Record}
    (h : collectFailed trx base root = .ok records)
    (hlook : ∀ kind i, look ⟨place,kind,i⟩ = callChange root kind i) :
    Emits look (fun s => s.place = place ∧ PersistsFailed trx root s.kind s.index)
      (records.map changeOf) := by
  have hgas := emits_gas (hlook .balance)
  have hsender := @emits_increment trx root _ _ (hlook .nonce)
  have hfirst := emits_append hgas hsender (by
    rintro s ⟨-,hk,-⟩ ⟨-,hk',-⟩
    exact absurd (hk.symm.trans hk') (by decide))
  unfold collectFailed at h
  dsimp only at h
  split at h
  · rename_i ha
    obtain rfl := pure_ok.mp h
    have hnone : ∀ {a ordinal}, ¬Authorized trx root a ordinal := by
      intro a ordinal hauth
      have := authorities_empty.mpr ⟨hauth.setCode,a,hauth.authority⟩
      rw [ha] at this
      cases this
    simp only [List.map_append, List.map_map]
    refine hfirst.congr (fun s => ?_)
    rw [persistsFailed_iff]
    simp only [AuthorityNonce, AuthorityCode, hnone, false_and, and_false, exists_false, or_false]
  · rename_i ha
    obtain ⟨ht,-⟩ := authorities_empty.mp (by simpa using ha)
    obtain ⟨_,-,h⟩ := bind_ok.mp h
    obtain rfl := pure_ok.mp h
    have hnonces := emits_authorityNonces ht (hlook .nonce)
    have hcodes := emits_authorityCodes ht (hlook .code)
    have hthree := emits_append hfirst hnonces (by
      rintro s (⟨-,hk,-⟩ | ⟨-,-,hs⟩) ⟨-,hk',hs',-⟩
      · exact absurd (hk.symm.trans hk') (by decide)
      · exact hs' hs)
    have hall := emits_append hthree hcodes (by
      rintro s ((⟨-,hk,-⟩ | ⟨-,hk,-⟩) | ⟨-,hk,-⟩) ⟨-,hk',-⟩
      · exact absurd (hk.symm.trans hk') (by decide)
      · exact absurd (hk.symm.trans hk') (by decide)
      · exact absurd (hk.symm.trans hk') (by decide))
    simp only [List.map_append, List.map_map]
    refine hall.congr (fun s => ?_)
    rw [persistsFailed_iff]
    simp only [or_assoc]

end Failed

theorem collectTransaction_succeeds {trx : TransactionTrace} :
    (∃ records, collectTransaction trx = .ok records) ↔ ¬Unbounded trx := by
  unfold collectTransaction
  dsimp only
  by_cases hf : isFailed trx = true
  · rw [if_pos hf]
    have hstatus : trx.status ≠ .succeeded := by simpa [isFailed] using hf
    cases hroot : trx.calls.head? with
    | none =>
      refine ⟨fun _ h => ?_,fun _ => ⟨_,rfl⟩⟩
      obtain ⟨root,hr,-⟩ := h.boundary
      rw [hroot] at hr
      cases hr
    | some root =>
      rw [collectFailed_succeeds]
      constructor
      · intro h hu
        obtain ⟨root',hr,hb⟩ := hu.boundary
        obtain rfl := Option.some.inj (hroot.symm.trans hr)
        exact h ⟨hu.setCode,hu.authority⟩ hb
      · intro h ⟨ht,ha⟩ hb
        exact h ⟨hstatus,ht,ha,root,hroot,hb⟩
  · rw [if_neg hf]
    refine ⟨fun _ h => h.failed ?_,fun _ => ⟨_,rfl⟩⟩
    simpa [isFailed] using hf

section Block
variable {block : Block}

theorem look_transaction {t c : ℕ} {trx : TransactionTrace} {call : Call}
    (ht : block.transactionTraces[t]? = some trx) (hc : trx.calls[c]? = some call) (kind : Kind)
    (i : ℕ) : changeAt block ⟨.transaction t c,kind,i⟩ = callChange call kind i := by
  simp [changeAt, ht, hc]

/-- What a transaction hands over. -/
theorem emits_transaction {t : ℕ} {trx : TransactionTrace} {records : List Record}
    (ht : block.transactionTraces[t]? = some trx) (h : collectTransaction trx = .ok records) :
    Emits (changeAt block)
      (fun s => ∃ c, s.place = .transaction t c ∧ PersistsIn trx c s.kind s.index)
      (records.map changeOf) := by
  unfold collectTransaction at h
  dsimp only at h
  split_ifs at h with hf
  · have hstatus : trx.status ≠ .succeeded := by simpa [isFailed] using hf
    simp only [PersistsIn, if_neg hstatus]
    split at h
    · rename_i hroot
      obtain rfl := Except.ok.inj h
      refine emits_nil (fun s => ?_)
      rintro ⟨c,-,-,root,hr,-⟩
      rw [← List.head?_eq_getElem?, hroot] at hr
      cases hr
    · rename_i root hroot
      rw [List.head?_eq_getElem?] at hroot
      refine (emits_failed h (look_transaction ht hroot)).congr (fun s => ?_)
      constructor
      · rintro ⟨hp,hf⟩
        exact ⟨0,hp,rfl,root,hroot,hf⟩
      · rintro ⟨_,hp,rfl,root',hr,hf⟩
        obtain rfl := Option.some.inj (hroot.symm.trans hr)
        exact ⟨hp,hf⟩
  · have hstatus : trx.status = .succeeded := by simpa [isFailed] using hf
    simp only [PersistsIn, if_pos hstatus]
    obtain rfl := Except.ok.inj h
    have hinj : Function.Injective (Place.transaction t) := fun _ _ h => (Place.transaction.inj h).2
    refine (emits_calls hinj _ (fun c call hc => look_transaction ht hc)).congr (fun s => ?_)
    constructor
    · rintro ⟨c,call,hc,hr,hp,he⟩
      exact ⟨c,hp,call,hc,hr,he⟩
    · rintro ⟨c,hp,call,hc,hr,he⟩
      exact ⟨c,call,hc,hr,hp,he⟩

theorem emits_block : Emits (changeAt block)
    (fun s => s.place = .block ∧ ∃ c, blockChange block s.kind s.index = some c ∧ c.isNoop = false)
    ((block.balanceChanges.filter (!balanceIsNoop ·)).map Change.balance ++
      (block.codeChanges.filter (!codeIsNoop ·)).map Change.code) := by
  have hlook : ∀ kind i, changeAt block ⟨.block,kind,i⟩ = blockChange block kind i := fun _ _ => rfl
  have hbalance := emits_kind balanceIsNoop (hlook .balance) (fun _ => rfl)
  have hcode := emits_kind codeIsNoop (hlook .code) (fun _ => rfl)
  refine (emits_append hbalance hcode ?_).congr ?_
  · rintro s ⟨-,hk,-⟩ ⟨-,hk',-⟩
    exact absurd (hk.symm.trans hk') (by decide)
  · rintro ⟨p,kind,i⟩
    cases kind <;> simp [blockChange]

theorem emits_transactions {lists : List (List Record)}
    (h : block.transactionTraces.mapM collectTransaction = .ok lists) :
    Emits (changeAt block) (fun s => ∃ t trx, block.transactionTraces[t]? = some trx ∧
        ∃ c, s.place = .transaction t c ∧ PersistsIn trx c s.kind s.index)
      (lists.flatten.map changeOf) := by
  let given : TransactionTrace → List Record := fun trx =>
    (collectTransaction trx).toOption.getD []
  have hlists : lists = block.transactionTraces.map given :=
    mapM_eq_map h (fun trx records hr => by simp [given, hr, Except.toOption])
  have hsome : ∀ (t : ℕ) (trx : TransactionTrace), block.transactionTraces[t]? = some trx →
      collectTransaction trx = .ok (given trx) := by
    intro t trx ht
    obtain ⟨records,hr⟩ := mapM_succeeds.mp ⟨lists,h⟩ trx (List.mem_of_getElem? ht)
    simp [given, hr, Except.toOption]
  rw [hlists, ← List.flatMap_def, List.map_flatMap]
  refine emits_flatMap (fun t trx ht => emits_transaction ht (hsome t trx ht)) ?_
  rintro t t' trx trx' s - - ⟨c,hp,-⟩ ⟨c',hp',-⟩
  exact (Place.transaction.inj (hp.symm.trans hp')).1

/-- Collection fails exactly on a failed SetCode transaction without a
boundary. Otherwise it hands over the changes of the sites that persist, each
once and no other. -/
theorem persistence_exact (block : Block) :
    ((∃ e, collectBlock block = .error e) ↔ ∃ trx ∈ block.transactionTraces, Unbounded trx) ∧
      ∀ records, collectBlock block = .ok records →
        ∃ sites : List Site, sites.Nodup ∧ (∀ s, s ∈ sites ↔ Persists block s) ∧
          records.map (fun r => some (changeOf r)) = sites.map (changeAt block) := by
  constructor
  · have hok : (∃ records, collectBlock block = .ok records) ↔
        ∀ trx ∈ block.transactionTraces, ¬Unbounded trx := by
      simp only [← collectTransaction_succeeds, ← mapM_succeeds]
      constructor
      · rintro ⟨records,h⟩
        obtain ⟨lists,hl,-⟩ := bind_ok.mp h
        exact ⟨lists,hl⟩
      · rintro ⟨lists,hl⟩
        exact ⟨_,bind_ok.mpr ⟨lists,hl,rfl⟩⟩
    constructor
    · rintro ⟨e,he⟩
      by_contra hno
      obtain ⟨records,hr⟩ := hok.mpr (fun trx ht hu => hno ⟨trx,ht,hu⟩)
      rw [he] at hr
      cases hr
    · rintro ⟨trx,ht,hu⟩
      cases h : collectBlock block with
      | error e => exact ⟨e,rfl⟩
      | ok records => exact absurd hu (hok.mp ⟨records,h⟩ trx ht)
  · intro records h
    obtain ⟨lists,hl,h⟩ := bind_ok.mp h
    obtain rfl := pure_ok.mp h
    have hlook : ∀ (c : ℕ) (call : Call), block.systemCalls[c]? = some call →
        ∀ kind i, changeAt block ⟨.system c,kind,i⟩ = callChange call kind i := by
      intro c call hc kind i
      simp [changeAt, hc]
    have hsystem := emits_calls (fun _ _ h => Place.system.inj h)
      (fun call => { Ctx.block .systemCall with callIndex := call.index }) hlook
    have hfirst := emits_append hsystem emits_block (by
      rintro s ⟨c,call,-,-,hp,-⟩ ⟨hp',-⟩
      cases hp.symm.trans hp')
    have hall := emits_append hfirst (emits_transactions hl) (by
      rintro s (⟨c,call,-,-,hp,-⟩ | ⟨hp,-⟩) ⟨t,trx,-,c',hp',-⟩
      · cases hp.symm.trans hp'
      · cases hp.symm.trans hp')
    obtain ⟨sites,hn,hs,hout⟩ := hall
    refine ⟨sites,hn,fun s => (hs s).trans ?_,?_⟩
    · obtain ⟨place,kind,i⟩ := s
      cases place with
      | transaction t c =>
        constructor
        · rintro ((⟨_,_,-,-,hp,-⟩ | ⟨hp,-⟩) | ⟨t',trx,ht,c',hp,h⟩)
          · cases hp
          · cases hp
          · obtain ⟨rfl,rfl⟩ := Place.transaction.inj hp
            exact ⟨trx,ht,h⟩
        · rintro ⟨trx,ht,h⟩
          exact .inr ⟨t,trx,ht,c,rfl,h⟩
      | system c =>
        constructor
        · rintro ((⟨c',call,hc,hr,hp,he⟩ | ⟨hp,-⟩) | ⟨_,_,-,_,hp,-⟩)
          · obtain rfl := Place.system.inj hp
            exact ⟨call,hc,hr,he⟩
          · cases hp
          · cases hp
        · rintro ⟨call,hc,hr,he⟩
          exact .inl (.inl ⟨c,call,hc,hr,rfl,he⟩)
      | block =>
        constructor
        · rintro ((⟨_,_,-,-,hp,-⟩ | ⟨-,h⟩) | ⟨_,_,-,_,hp,-⟩)
          · cases hp
          · exact h
          · cases hp
        · exact fun h => .inl (.inr ⟨rfl,h⟩)
    · rw [← hout]
      simp only [List.map_append, List.map_map, List.append_assoc]
      rfl

end Block
end EvmState.Persistence
