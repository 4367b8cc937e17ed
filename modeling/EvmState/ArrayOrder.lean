import EvmState.Replay
import EvmState.Deletions
import EvmState.Persistence
import EvmState.Lib.Rearrange

/-!
# The order of the producer's arrays

The mapper reads the arrays of a block in producer order. Ordinals and call
indices carry all the order that counts, so a block with rearranged arrays has
the same projection.
-/

set_option autoImplicit false

namespace EvmState.ArrayOrder
open EvmState.Hex EvmState.Fallible EvmState.OrderedMap EvmState.Eth EvmState.Persist
open EvmState.Persistence EvmState.Params EvmState.Lifecycle EvmState.Deletions EvmState.Rearrange

structure ShuffledCall (c d : Call) : Prop where
  same : d = { c with
    storageChanges := d.storageChanges
    balanceChanges := d.balanceChanges
    nonceChanges := d.nonceChanges
    codeChanges := d.codeChanges }
  storage : c.storageChanges.Perm d.storageChanges
  balances : c.balanceChanges.Perm d.balanceChanges
  nonces : c.nonceChanges.Perm d.nonceChanges
  codes : c.codeChanges.Perm d.codeChanges

/-- The first call of a transaction that did not succeed is its root. -/
def ShuffledCalls (t u : TransactionTrace) : Prop :=
  if t.status = .succeeded then Shuffle ShuffledCall t.calls u.calls
  else HeadShuffle ShuffledCall t.calls u.calls

structure ShuffledTransaction (t u : TransactionTrace) : Prop where
  same : u = { t with calls := u.calls }
  calls : ShuffledCalls t u

structure ShuffledBlock (b d : Block) : Prop where
  same : d = { b with
    transactionTraces := d.transactionTraces
    systemCalls := d.systemCalls
    balanceChanges := d.balanceChanges
    codeChanges := d.codeChanges }
  transactions : Shuffle ShuffledTransaction b.transactionTraces d.transactionTraces
  system : Shuffle ShuffledCall b.systemCalls d.systemCalls
  balances : b.balanceChanges.Perm d.balanceChanges
  codes : b.codeChanges.Perm d.codeChanges

section Call
variable {c d : Call} (h : ShuffledCall c d)
include h

theorem ShuffledCall.index : d.index = c.index := by rw [h.same]

theorem ShuffledCall.parentIndex : d.parentIndex = c.parentIndex := by rw [h.same]

theorem ShuffledCall.address : d.address = c.address := by rw [h.same]

theorem ShuffledCall.stateReverted : d.stateReverted = c.stateReverted := by rw [h.same]

theorem ShuffledCall.suicide : d.suicide = c.suicide := by rw [h.same]

theorem ShuffledCall.beginOrdinal : d.beginOrdinal = c.beginOrdinal := by rw [h.same]

theorem ShuffledCall.endOrdinal : d.endOrdinal = c.endOrdinal := by rw [h.same]

theorem ShuffledCall.callType : d.callType = c.callType := by
  rw [h.same]
  rfl

end Call

theorem ShuffledCall.symm {c d : Call} (h : ShuffledCall c d) : ShuffledCall d c where
  same := by
    rw [h.same]
  storage := h.storage.symm
  balances := h.balances.symm
  nonces := h.nonces.symm
  codes := h.codes.symm

theorem ShuffledTransaction.status {t u : TransactionTrace} (h : ShuffledTransaction t u) :
    u.status = t.status := by
  rw [h.same]
  rfl

theorem ShuffledTransaction.symm {t u : TransactionTrace} (h : ShuffledTransaction t u) :
    ShuffledTransaction u t where
  same := by
    rw [h.same]
  calls := by
    have hc := h.calls
    unfold ShuffledCalls at hc ⊢
    rw [h.status]
    split_ifs at hc ⊢ with hs
    · exact hc.symm (fun _ _ => ShuffledCall.symm)
    · exact hc.symm (fun _ _ => ShuffledCall.symm)

theorem ShuffledTransaction.shuffle {t u : TransactionTrace} (h : ShuffledTransaction t u) :
    Shuffle ShuffledCall t.calls u.calls := by
  have hc := h.calls
  unfold ShuffledCalls at hc
  split_ifs at hc with hs
  · exact hc
  · exact hc.shuffle

theorem ShuffledBlock.symm {b d : Block} (h : ShuffledBlock b d) : ShuffledBlock d b where
  same := by
    rw [h.same]
  transactions := h.transactions.symm (fun _ _ => ShuffledTransaction.symm)
  system := h.system.symm (fun _ _ => ShuffledCall.symm)
  balances := h.balances.symm
  codes := h.codes.symm

def Record.kind : Record → Kind
  | .storage _ _ => .storage
  | .balance _ _ => .balance
  | .nonce _ _ => .nonce
  | .code _ _ => .code

def Record.ordinal : Record → ℕ
  | .storage c _ => c.ordinal
  | .balance c _ => c.ordinal
  | .nonce c _ => c.ordinal
  | .code c _ => c.ordinal

/-- Ordinals tell the persisted records of one kind apart, and indices the
calls of a transaction. -/
structure Distinct (block : Block) : Prop where
  ordinals : ∀ records, collectBlock block = .ok records →
    (records.map (fun r => (Record.kind r,Record.ordinal r))).Nodup
  indices : ∀ tx ∈ block.transactionTraces, (tx.calls.map (·.index)).Nodup

section Records
variable {c d : Call}

theorem emitCallAll_perm (h : ShuffledCall c d) (ctx : Ctx) :
    (emitCallAll c ctx).Perm (emitCallAll d ctx) := by
  unfold emitCallAll
  have hs := (h.storage.filter (!storageIsNoop ·)).map (Record.storage · ctx)
  have hb := (h.balances.filter (!balanceIsNoop ·)).map (Record.balance · ctx)
  have hn := (h.nonces.filter (!nonceIsNoop ·)).map (Record.nonce · ctx)
  have hc := (h.codes.filter (!codeIsNoop ·)).map (Record.code · ctx)
  exact ((hs.append hb).append hn).append hc

theorem emitCalls_perm {l m : List Call} (h : Shuffle ShuffledCall l m) (ctx : ℕ → Ctx) :
    ((l.filter (!·.stateReverted)).flatMap (fun call => emitCallAll call (ctx call.index))).Perm
      ((m.filter (!·.stateReverted)).flatMap (fun call => emitCallAll call (ctx call.index))) := by
  rw [Emission.filter_flatMap, Emission.filter_flatMap]
  refine h.flatMap_perm (fun c d hcd => ?_)
  rw [hcd.stateReverted, hcd.index]
  split_ifs
  · exact emitCallAll_perm hcd _
  · exact .nil

theorem senderNonce_none {trx : TransactionTrace} :
    senderNonce trx c = none ↔ ∀ nc ∈ c.nonceChanges, ¬Increments trx nc := by
  rw [senderNonce, List.argmin_eq_none, List.filter_eq_nil_iff]
  constructor
  · intro h nc hnc hi
    obtain ⟨i,hi'⟩ := List.getElem?_of_mem hnc
    exact h (nc,i) (List.mk_mem_zipIdx_iff_getElem?.mpr hi') (increments_iff.mpr hi)
  · intro h e he hp
    have hmem : e.1 ∈ c.nonceChanges := List.fst_mem_of_mem_zipIdx he
    exact h e.1 hmem (increments_iff.mp hp)

/-- The increments of the smallest ordinal are all alike. -/
theorem senderNonce_eq (trx : TransactionTrace) (h : ShuffledCall c d) :
    (senderNonce trx c).map Prod.fst = (senderNonce trx d).map Prod.fst := by
  have hmem : ∀ nc, nc ∈ c.nonceChanges ↔ nc ∈ d.nonceChanges := fun nc => h.nonces.mem_iff
  cases hc : senderNonce trx c with
  | none =>
    rw [senderNonce_none] at hc
    have hd : senderNonce trx d = none :=
      senderNonce_none.mpr (fun nc hnc => hc nc ((hmem nc).mpr hnc))
    rw [hd]
  | some e =>
    obtain ⟨hci,hinc,hmin⟩ := senderNonce_iff.mp hc
    cases hd : senderNonce trx d with
    | none =>
      exact absurd hinc (senderNonce_none.mp hd e.1 ((hmem _).mp (List.mem_of_getElem? hci)))
    | some f =>
      obtain ⟨hdi,hinc',hmin'⟩ := senderNonce_iff.mp hd
      obtain ⟨j,hj⟩ := List.getElem?_of_mem ((hmem _).mpr (List.mem_of_getElem? hdi))
      obtain ⟨k,hk⟩ := List.getElem?_of_mem ((hmem _).mp (List.mem_of_getElem? hci))
      have hle : e.1.ordinal ≤ f.1.ordinal := by
        rcases hmin j f.1 hj hinc' with hlt | ⟨heq,-⟩
        · exact hlt.le
        · exact heq.le
      have hge : f.1.ordinal ≤ e.1.ordinal := by
        rcases hmin' k e.1 hk hinc with hlt | ⟨heq,-⟩
        · exact hlt.le
        · exact heq.le
      have hsame : e.1 = f.1 := by
        obtain ⟨⟨a,o,n,r⟩,i⟩ := e
        obtain ⟨⟨a',o',n',r'⟩,i'⟩ := f
        simp only [NonceChange.mk.injEq]
        exact ⟨hinc.sender.trans hinc'.sender.symm,hinc.old.trans hinc'.old.symm,
          hinc.new.trans hinc'.new.symm,le_antisymm hle hge⟩
      rw [Option.map_some, Option.map_some, hsame]

/-- The nonce changes of a call other than the sender's increment. -/
def otherNonces (trx : TransactionTrace) (root : Call) : List NonceChange :=
  match senderNonce trx root with
  | none => root.nonceChanges
  | some e => root.nonceChanges.eraseIdx e.2

theorem otherNonces_perm (trx : TransactionTrace) (h : ShuffledCall c d) :
    (otherNonces trx c).Perm (otherNonces trx d) := by
  have heq := senderNonce_eq trx h
  unfold otherNonces
  cases hc : senderNonce trx c with
  | none =>
    rw [hc] at heq
    obtain hd := Option.map_eq_none_iff.mp heq.symm
    rw [hd]
    exact h.nonces
  | some e =>
    rw [hc] at heq
    obtain ⟨f,hd,hf⟩ := Option.map_eq_some_iff.mp heq.symm
    rw [hd]
    have hci := (senderNonce_iff.mp hc).1
    have hdi := (senderNonce_iff.mp hd).1
    exact (List.perm_eraseIdx_of_getElem?_eq (by rw [hci, hdi, hf])).mpr h.nonces

theorem otherNonces_filter (trx : TransactionTrace) (root : Call) (p : NonceChange → Bool) :
    (root.nonceChanges.zipIdx.filter
      (fun e => (senderNonce trx root).map (·.2) ≠ some e.2 && p e.1)).map Prod.fst =
      (otherNonces trx root).filter p := by
  have hsplit : ∀ (l : List (NonceChange × ℕ)) (q : NonceChange × ℕ → Bool),
      (l.filter (fun e => q e && p e.1)).map Prod.fst = ((l.filter q).map Prod.fst).filter p := by
    intro l q
    rw [List.filter_map, List.filter_filter]
    exact congrArg _ (List.filter_congr (fun e _ => Bool.and_comm _ _))
  rw [hsplit]
  unfold otherNonces
  cases senderNonce trx root with
  | none => simp
  | some e =>
    refine congrArg _ (Eq.trans (congrArg _ (List.filter_congr (fun f _ => ?_)))
      (zipIdx_filter_ne root.nonceChanges e.2))
    simp [eq_comm]

theorem collectFailed_perm {trx : TransactionTrace} {base : Scope → ℕ → Ctx} (h : ShuffledCall c d)
    {records : List Record} (hr : collectFailed trx base c = .ok records) :
    ∃ more, collectFailed trx base d = .ok more ∧ records.Perm more := by
  obtain ⟨more,hm⟩ : ∃ more, collectFailed trx base d = .ok more := by
    rw [collectFailed_succeeds, h.beginOrdinal]
    exact collectFailed_succeeds.mp ⟨records,hr⟩
  refine ⟨more,hm,?_⟩
  have hincrement : ∀ ctx : Ctx, (senderNonce trx c).toList.map (Record.nonce ·.1 ctx) =
      (senderNonce trx d).toList.map (Record.nonce ·.1 ctx) := by
    intro ctx
    have hmap : ∀ o : Option (NonceChange × ℕ), o.toList.map (Record.nonce ·.1 ctx) =
        (o.map Prod.fst).toList.map (Record.nonce · ctx) := by
      intro o
      cases o <;> rfl
    rw [hmap, hmap, senderNonce_eq trx h]
  have hnonces : ∀ (root : Call) (ctx : Ctx), (root.nonceChanges.zipIdx.filter (fun nc =>
      (senderNonce trx root).map (·.2) ≠ some nc.2 && beforeExecution root nc.1.ordinal &&
        nc.1.address ∈ authorities trx && !nonceIsNoop nc.1)).map (Record.nonce ·.1 ctx) =
      ((otherNonces trx root).filter (fun nc => beforeExecution root nc.ordinal &&
        nc.address ∈ authorities trx && !nonceIsNoop nc)).map (Record.nonce · ctx) := by
    intro root ctx
    rw [← otherNonces_filter, List.map_map]
    simp only [Bool.and_assoc]
    rfl
  have hbefore : ∀ o, beforeExecution d o = beforeExecution c o := by
    intro o
    rw [beforeExecution, beforeExecution, h.beginOrdinal]
  unfold collectFailed at hr hm
  simp only [hnonces] at hr hm
  rw [← hincrement] at hm
  simp only [h.index, h.beginOrdinal, hbefore] at hm
  have hgas := (h.balances.filter (fun bc => isGasReason bc && !balanceIsNoop bc)).map
    (Record.balance · (base .txFailedPersistent c.index))
  split at hr
  · rename_i ha
    rw [if_pos ha] at hm
    obtain rfl := pure_ok.mp hr
    obtain rfl := pure_ok.mp hm
    exact hgas.append_right _
  · rename_i ha
    rw [if_neg ha] at hm
    obtain ⟨_,-,hr⟩ := bind_ok.mp hr
    obtain ⟨_,-,hm⟩ := bind_ok.mp hm
    obtain rfl := pure_ok.mp hr
    obtain rfl := pure_ok.mp hm
    exact ((hgas.append_right _).append (((otherNonces_perm trx h).filter _).map _)).append
      ((h.codes.filter _).map _)

theorem collectTransaction_perm {t u : TransactionTrace} (h : ShuffledTransaction t u)
    {records : List Record} (hr : collectTransaction t = .ok records) :
    ∃ more, collectTransaction u = .ok more ∧ records.Perm more := by
  have hcalls := h.calls
  unfold ShuffledCalls at hcalls
  generalize hcs : u.calls = cs at hcalls
  have hu : u = { t with calls := cs } := by
    rw [← hcs]
    exact h.same
  subst hu
  unfold collectTransaction at hr ⊢
  dsimp only at hr ⊢
  have hfailed : isFailed { t with calls := cs } = isFailed t := rfl
  rw [hfailed]
  by_cases hf : isFailed t = true
  · rw [if_pos hf] at hr ⊢
    rw [if_neg (by simpa [isFailed] using hf)] at hcalls
    have hhead := hcalls.head
    generalize t.calls.head? = o at hr hhead
    generalize cs.head? = o' at hhead ⊢
    cases hhead with
    | none =>
      obtain rfl := Except.ok.inj hr
      exact ⟨[],rfl,.nil⟩
    | some hroot => exact collectFailed_perm hroot hr
  · rw [if_neg hf] at hr ⊢
    rw [if_pos (by simpa [isFailed] using hf)] at hcalls
    obtain rfl := Except.ok.inj hr
    exact ⟨_,rfl,emitCalls_perm hcalls _⟩

theorem collectBlock_perm {b d : Block} (h : ShuffledBlock b d) {records : List Record}
    (hr : collectBlock b = .ok records) :
    ∃ more, collectBlock d = .ok more ∧ records.Perm more := by
  obtain ⟨lists,hl,hr⟩ := bind_ok.mp hr
  obtain rfl := pure_ok.mp hr
  let given : TransactionTrace → List Record := fun trx =>
    (collectTransaction trx).toOption.getD []
  have hgiven : ∀ trx records, collectTransaction trx = .ok records → records = given trx := by
    intro trx records hr
    simp [given, hr, Except.toOption]
  obtain ⟨lists',hl'⟩ : ∃ lists', d.transactionTraces.mapM collectTransaction = .ok lists' := by
    refine mapM_succeeds.mpr (fun u hu => ?_)
    obtain ⟨t,ht,hut⟩ := (h.transactions.symm (fun _ _ => ShuffledTransaction.symm)).partner hu
    obtain ⟨records,hr⟩ := mapM_succeeds.mp ⟨lists,hl⟩ t ht
    obtain ⟨more,hm,-⟩ := collectTransaction_perm hut.symm hr
    exact ⟨more,hm⟩
  have htransactions : lists.flatten.Perm lists'.flatten := by
    rw [mapM_eq_map hl hgiven, mapM_eq_map hl' hgiven, ← List.flatMap_def, ← List.flatMap_def]
    refine h.transactions.flatMap_perm (fun t u htu => ?_)
    cases ht : collectTransaction t with
    | ok records =>
      obtain ⟨more,hm,hp⟩ := collectTransaction_perm htu ht
      rwa [← hgiven t records ht, ← hgiven u more hm]
    | error e =>
      cases hu : collectTransaction u with
      | ok more =>
        obtain ⟨records,hr,-⟩ := collectTransaction_perm htu.symm hu
        rw [ht] at hr
        cases hr
      | error e' =>
        simp only [given, ht, hu]
        exact .nil
  refine ⟨_,bind_ok.mpr ⟨lists',hl',rfl⟩,?_⟩
  have hsystem := emitCalls_perm h.system (fun i => { Ctx.block .systemCall with callIndex := i })
  have hbalances := (h.balances.filter (!balanceIsNoop ·)).map (Record.balance · (.block .block))
  have hcodes := (h.codes.filter (!codeIsNoop ·)).map (Record.code · (.block .block))
  exact ((hsystem.append hbalances).append hcodes).append htransactions

end Records

theorem sortByOrdinal_perm {α : Type} {ord : α → ℕ} {l m : List α} (h : l.Perm m)
    (hd : l.Pairwise (fun a b => ord a ≠ ord b)) :
    Collect.sortByOrdinal ord l = Collect.sortByOrdinal ord m := by
  have hperm : (Collect.sortByOrdinal ord l).Perm (Collect.sortByOrdinal ord m) :=
    (List.perm_insertionSort _ l).trans (h.trans (List.perm_insertionSort _ m).symm)
  have hsame : ∀ a b, a ∈ Collect.sortByOrdinal ord l → b ∈ Collect.sortByOrdinal ord m →
      ord a ≤ ord b → ord b ≤ ord a → a = b := by
    intro a b ha hb hab hba
    by_contra hne
    have hal := Collect.mem_sortByOrdinal.mp ha
    have hbl := h.mem_iff.mpr (Collect.mem_sortByOrdinal.mp hb)
    have : Std.Symm (fun a b : α => ord a ≠ ord b) := ⟨fun _ _ h => h.symm⟩
    exact hd.forall hal hbl hne (le_antisymm hab hba)
  exact hperm.eq_of_pairwise hsame (Collect.sortByOrdinal_ordered ord l)
    (Collect.sortByOrdinal_ordered ord m)

theorem sorted_kind {α : Type} {ord : α → ℕ} (kind : Kind) {g : Record → Option α}
    {records more : List Record} (h : records.Perm more)
    (hd : (records.map (fun r => (Record.kind r,Record.ordinal r))).Nodup)
    (hg : ∀ r a, g r = some a → Record.kind r = kind ∧ Record.ordinal r = ord a) :
    Collect.sortByOrdinal ord (records.filterMap g) =
      Collect.sortByOrdinal ord (more.filterMap g) := by
  refine sortByOrdinal_perm (h.filterMap g) (List.pairwise_filterMap.mpr ?_)
  refine (List.pairwise_map.mp hd).imp (fun hne a ha b hb hord => hne ?_)
  obtain ⟨hk,ho⟩ := hg _ a ha
  obtain ⟨hk',ho'⟩ := hg _ b hb
  rw [hk, ho, hk', ho', hord]

theorem collected_eq (filter : Filter) {records more : List Record} (h : records.Perm more)
    (hd : (records.map (fun r => (Record.kind r,Record.ordinal r))).Nodup) :
    Collect.sortByOrdinal (·.origin.ordinal) (records.filterMap (Collect.storage filter)) =
        Collect.sortByOrdinal (·.origin.ordinal) (more.filterMap (Collect.storage filter)) ∧
      Collect.sortByOrdinal (·.origin.ordinal) (records.filterMap (Collect.balance filter)) =
        Collect.sortByOrdinal (·.origin.ordinal) (more.filterMap (Collect.balance filter)) ∧
      Collect.sortByOrdinal (·.origin.ordinal) (records.filterMap (Collect.nonce filter)) =
        Collect.sortByOrdinal (·.origin.ordinal) (more.filterMap (Collect.nonce filter)) ∧
      Collect.sortByOrdinal (·.origin.ordinal) (records.filterMap (Collect.code filter)) =
        Collect.sortByOrdinal (·.origin.ordinal) (more.filterMap (Collect.code filter)) := by
  have hkept : ∀ {α : Type} (ord : α → ℕ) {p : Bool} {x a : α},
      (if p = true then some x else none) = some a → ord x = ord a := by
    intro α ord p x a ha
    obtain ⟨-,ha⟩ := Option.ite_none_right_eq_some.mp ha
    rw [Option.some.inj ha]
  refine ⟨sorted_kind .storage h hd ?_,sorted_kind .balance h hd ?_,
    sorted_kind .nonce h hd ?_,sorted_kind .code h hd ?_⟩
  · intro r a ha
    cases r with
    | storage c ctx => exact ⟨rfl,hkept (fun a : Collect.StorageChange => a.origin.ordinal) ha⟩
    | _ => cases ha
  · intro r a ha
    cases r with
    | balance c ctx => exact ⟨rfl,hkept (fun a : Collect.BalanceChange => a.origin.ordinal) ha⟩
    | _ => cases ha
  · intro r a ha
    cases r with
    | nonce c ctx => exact ⟨rfl,hkept (fun a : Collect.NonceChange => a.origin.ordinal) ha⟩
    | _ => cases ha
  · intro r a ha
    cases r with
    | code c ctx => exact ⟨rfl,hkept (fun a : Collect.CodeChange => a.origin.ordinal) ha⟩
    | _ => cases ha

section Deletions
variable {calls calls' : List Call}

theorem find_unique {α : Type} {p : α → Bool} {l : List α} {a : α} (ha : a ∈ l) (hp : p a = true)
    (hu : ∀ b ∈ l, p b = true → b = a) : l.find? p = some a := by
  cases hf : l.find? p with
  | none => exact absurd hp (List.find?_eq_none.mp hf a ha)
  | some b => rw [hu b (List.mem_of_find?_eq_some hf) (List.find?_some hf)]

theorem parentOf_shuffled (hs : Shuffle ShuffledCall calls calls')
    (hn : (calls'.map (·.index)).Nodup) {call call' parent : Call} (hc : ShuffledCall call call')
    (hp : parentOf calls call = some parent) :
    ∃ parent', parentOf calls' call' = some parent' ∧ ShuffledCall parent parent' := by
  obtain ⟨parent',hmem,hpar⟩ := hs.partner (Delegation.parentOf_mem hp)
  have hfound := List.find?_some hp
  simp only [Bool.and_eq_true, decide_eq_true_eq] at hfound
  refine ⟨parent',find_unique hmem ?_ (fun b hb hbp => ?_),hpar⟩
  · simp only [Bool.and_eq_true, decide_eq_true_eq]
    rw [hpar.index, hc.parentIndex, hc.index]
    exact hfound
  · simp only [Bool.and_eq_true, decide_eq_true_eq] at hbp
    refine List.inj_on_of_nodup_map hn hb hmem ?_
    rw [hbp.1, hpar.index, hc.parentIndex, hfound.1]

theorem executes_shuffled (hs : Shuffle ShuffledCall calls calls')
    (hn : (calls'.map (·.index)).Nodup) {visited : List ℕ} {call call' : Call} {account : Bytes}
    (hc : ShuffledCall call call') (h : Executes calls visited call account) :
    Executes calls' visited call' account := by
  induction h generalizing call' with
  | own h =>
    rw [← hc.address]
    refine .own ?_
    rw [isDelegated, hc.callType]
    exact h
  | inherited h hv hp _ ih =>
    obtain ⟨parent',hp',hpar⟩ := parentOf_shuffled hs hn hc hp
    refine .inherited ?_ ?_ hp' ?_
    · rw [isDelegated, hc.callType]
      exact h
    · rwa [hc.index]
    · rw [hc.index]
      exact ih hpar

end Deletions

section Blocks
variable {b d : Block}

theorem destructs_shuffled (h : ShuffledBlock b d) {tx : TransactionTrace} {call : Call}
    (hd : Destructs b tx call) : ∃ tx' call', ShuffledTransaction tx tx' ∧ ShuffledCall call call' ∧
      Destructs d tx' call' := by
  obtain ⟨htx,hst,hcall,hsui,hrev⟩ := hd
  obtain ⟨tx',htx',ht⟩ := h.transactions.partner htx
  obtain ⟨call',hcall',hc⟩ := ht.shuffle.partner hcall
  refine ⟨tx',call',ht,hc,htx',?_,hcall',?_,?_⟩
  · rw [ht.status, hst]
  · rw [hc.suicide, hsui]
  · rw [hc.stateReverted, hrev]

theorem qualifies_shuffled (h : ShuffledBlock b d) (hn : Distinct d) {timestamp : ℕ}
    {account : Bytes} {tx : TransactionTrace} {call : Call}
    (hq : Qualifies b timestamp account tx call) : ∃ tx' call',
      Qualifies d timestamp account tx' call' ∧ tx'.endOrdinal = tx.endOrdinal ∧
        call'.endOrdinal = call.endOrdinal := by
  obtain ⟨hd,hex,hfork⟩ := hq
  obtain ⟨tx',call',ht,hc,hd'⟩ := destructs_shuffled h hd
  have hindices := hn.indices tx' hd'.1
  refine ⟨tx',call',⟨hd',executes_shuffled ht.shuffle hindices hc hex,hfork.imp_right ?_⟩,?_,
    hc.endOrdinal⟩
  · rintro ⟨c,hmem,hr,hty,ha⟩
    obtain ⟨c',hmem',hcc⟩ := ht.shuffle.partner hmem
    refine ⟨c',hmem',?_,?_,?_⟩
    · rw [hcc.stateReverted, hr]
    · rw [hcc.callType, hty]
    · rw [hcc.address, ha]
  · rw [ht.same]

theorem undecided_shuffled (h : ShuffledBlock b d) (hb : Distinct b) (hn : Distinct d)
    {timestamp : ℕ} (hu : Undecided b timestamp) : Undecided d timestamp := by
  cases hu with
  | ordinal account tx call hq he =>
    obtain ⟨tx',call',hq',htx,hcall⟩ := qualifies_shuffled h hn hq
    exact .ordinal account tx' call' hq' (by rw [htx, hcall]; exact he)
  | context tx call hdes hc =>
    obtain ⟨tx',call',ht,hcall,hdes'⟩ := destructs_shuffled h hdes
    refine .context tx' call' hdes' (fun account hex => hc account ?_)
    exact executes_shuffled ht.symm.shuffle (hb.indices tx hdes.1) hcall.symm hex
  | system call hm hs hr =>
    obtain ⟨call',hm',hc⟩ := h.system.partner hm
    refine .system call' hm' ?_ ?_
    · rw [hc.suicide, hs]
    · rw [hc.stateReverted, hr]

theorem deletions_shuffled (h : ShuffledBlock b d) (hb : Distinct b) (hn : Distinct d)
    {timestamp : ℕ} {m : SortedMap Bytes ℕ} (hm : deletions b timestamp = .ok m) :
    deletions d timestamp = .ok m := by
  have hdecided := deletions_succeeds.mp ⟨m,hm⟩
  obtain ⟨m',hm'⟩ := deletions_succeeds.mpr
    (fun hu => hdecided (undecided_shuffled h.symm hn hb hu))
  have hsame : m = m' := by
    refine SortedMap.ext (fun account => Option.ext (fun ordinal => ?_))
    rw [deletions_ok hm, deletions_ok hm']
    constructor
    · rintro ⟨⟨tx,call,hq,he⟩,hall⟩
      obtain ⟨tx',call',hq',he',-⟩ := qualifies_shuffled h hn hq
      refine ⟨⟨tx',call',hq',he'.trans he⟩,fun tx call hq => ?_⟩
      obtain ⟨tx',call',hq',he',hc'⟩ := qualifies_shuffled h.symm hb hq
      rw [← he', ← hc']
      exact hall tx' call' hq'
    · rintro ⟨⟨tx,call,hq,he⟩,hall⟩
      obtain ⟨tx',call',hq',he',-⟩ := qualifies_shuffled h.symm hb hq
      refine ⟨⟨tx',call',hq',he'.trans he⟩,fun tx call hq => ?_⟩
      obtain ⟨tx',call',hq',he',hc'⟩ := qualifies_shuffled h hn hq
      rw [← he', ← hc']
      exact hall tx' call' hq'
  rw [hm', hsame]

theorem distinct_shuffled (h : ShuffledBlock b d) (hb : Distinct b) : Distinct d where
  ordinals := by
    intro more hm
    obtain ⟨records,hr,hp⟩ := collectBlock_perm h.symm hm
    exact (hp.map _).nodup_iff.mpr (hb.ordinals records hr)
  indices := by
    intro tx' htx'
    obtain ⟨tx,htx,ht⟩ := h.symm.transactions.partner htx'
    have hp := ht.shuffle.map_perm (f := Call.index) (g := Call.index)
      (fun _ _ hc => hc.index.symm)
    exact hp.nodup_iff.mpr (hb.indices tx htx)

end Blocks

section Projection
open BlockProjection
variable {b d : Block} {filter : Filter}

theorem transactionEffects_mem {tx : TransactionTrace} {l : List LifecycleEffect}
    (h : transactionEffects filter tx = .ok l) {e : LifecycleEffect} :
    e ∈ l ↔ tx.status = .succeeded ∧ ∃ call ∈ selfdestructs tx, ∃ account,
      Executes tx.calls [] call account ∧ filter.matchesAccount account = true ∧
        e = ⟨hex account,.selfdestruct,call.endOrdinal⟩ := by
  unfold transactionEffects at h
  split_ifs at h with hs
  · obtain ⟨os,hos,h⟩ := bind_ok.mp h
    obtain rfl := pure_ok.mp h
    have hrel := Timeline.exists_related (mapM_ok.mp hos)
    rw [List.reduceOption_mem_iff]
    constructor
    · intro he
      obtain ⟨call,hcall,hc⟩ := hrel.2 _ he
      obtain ⟨account,ha,hc⟩ := bind_ok.mp hc
      obtain ⟨hm,hc⟩ := Option.ite_none_right_eq_some.mp (pure_ok.mp hc)
      exact ⟨hs,call,hcall,account,executionAddress_ok.mp ha,hm,(Option.some.inj hc).symm⟩
    · rintro ⟨-,call,hcall,account,ha,hm,rfl⟩
      obtain ⟨o,ho,hc⟩ := hrel.1 call hcall
      obtain ⟨account',ha',hc⟩ := bind_ok.mp hc
      obtain rfl := Except.ok.inj (ha'.symm.trans (executionAddress_ok.mpr ha))
      have := pure_ok.mp hc
      rw [if_pos hm] at this
      rwa [this]
  · obtain rfl := Except.ok.inj h
    simp [hs]

theorem transactionEffects_succeeds {tx : TransactionTrace} (h : tx.status = .succeeded →
    ∀ call ∈ selfdestructs tx, ∃ account, Executes tx.calls [] call account) :
    ∃ l, transactionEffects filter tx = .ok l := by
  unfold transactionEffects
  split_ifs with hs
  · obtain ⟨os,hos⟩ := mapM_succeeds.mpr (fun call hcall => by
      obtain ⟨account,ha⟩ := h hs call hcall
      exact ⟨_,bind_ok.mpr ⟨account,executionAddress_ok.mpr ha,rfl⟩⟩ :
      ∀ call ∈ selfdestructs tx, ∃ o, selfdestructEffect filter tx call = .ok o)
    exact ⟨_,bind_ok.mpr ⟨os,hos,rfl⟩⟩
  · exact ⟨[],rfl⟩

theorem effects_mem {lists : List (List LifecycleEffect)}
    (h : b.transactionTraces.mapM (transactionEffects filter) = .ok lists) {e : LifecycleEffect} :
    e ∈ lists.flatten ↔ ∃ tx call account, Destructs b tx call ∧
      Executes tx.calls [] call account ∧ filter.matchesAccount account = true ∧
        e = ⟨hex account,.selfdestruct,call.endOrdinal⟩ := by
  have hrel := Timeline.exists_related (mapM_ok.mp h)
  rw [List.mem_flatten]
  constructor
  · rintro ⟨l,hl,he⟩
    obtain ⟨tx,htx,hok⟩ := hrel.2 l hl
    obtain ⟨hs,call,hcall,account,hex,hm,rfl⟩ := (transactionEffects_mem hok).mp he
    exact ⟨tx,call,account,⟨htx,hs,mem_selfdestructs.mp hcall⟩,hex,hm,rfl⟩
  · rintro ⟨tx,call,account,⟨htx,hs,hcall⟩,hex,hm,rfl⟩
    obtain ⟨l,hl,hok⟩ := hrel.1 tx htx
    exact ⟨l,hl,(transactionEffects_mem hok).mpr
      ⟨hs,call,mem_selfdestructs.mpr hcall,account,hex,hm,rfl⟩⟩

theorem get?_addEffects {l : List LifecycleEffect} {k : EffectKey} {e : LifecycleEffect} :
    (addEffects SortedMap.empty l).get? k = some e ↔ e ∈ l ∧ e.key = k := by
  have ht := SortedMap.insertAll_tops (k := l.map (fun e => (e.key,e)))
    (SortedMap.tops_empty (fun _ => 0)) (List.pairwise_of_forall (fun _ _ => le_refl _))
  constructor
  · intro h
    obtain ⟨f,hf,he⟩ := List.mem_map.mp ((ht k).1 e h)
    obtain ⟨hk,rfl⟩ := Prod.mk.inj he
    exact ⟨hf,hk⟩
  · rintro ⟨he,rfl⟩
    obtain ⟨v,hv,-⟩ := (ht e.key).2 e (List.mem_map.mpr ⟨e,he,rfl⟩)
    obtain ⟨f,-,hf⟩ := List.mem_map.mp ((ht e.key).1 v hv)
    obtain ⟨hkey,rfl⟩ := Prod.mk.inj hf
    exact BlockRows.effect_key_injective hkey ▸ hv

theorem addEffects_eq {l m : List LifecycleEffect} (h : ∀ e, e ∈ l ↔ e ∈ m) :
    addEffects SortedMap.empty l = addEffects SortedMap.empty m := by
  refine SortedMap.ext (fun k => Option.ext (fun e => ?_))
  rw [get?_addEffects, get?_addEffects, h]

theorem effects_shuffled (h : ShuffledBlock b d) (hn : Distinct d)
    {lists lists' : List (List LifecycleEffect)}
    (hl : b.transactionTraces.mapM (transactionEffects filter) = .ok lists)
    (hl' : d.transactionTraces.mapM (transactionEffects filter) = .ok lists')
    {e : LifecycleEffect} (he : e ∈ lists.flatten) : e ∈ lists'.flatten := by
  obtain ⟨tx,call,account,hdes,hex,hm,rfl⟩ := (effects_mem hl).mp he
  obtain ⟨tx',call',ht,hc,hdes'⟩ := destructs_shuffled h hdes
  refine (effects_mem hl').mpr ⟨tx',call',account,hdes',?_,hm,?_⟩
  · exact executes_shuffled ht.shuffle (hn.indices tx' hdes'.1) hc hex
  · rw [hc.endOrdinal]

theorem collapse_shuffled (h : ShuffledBlock b d) (hb : Distinct b) (hn : Distinct d) {seconds : ℕ}
    {changes changes' : Collect.StateChanges}
    (hst : changes'.storageChanges = changes.storageChanges)
    (hba : changes'.balanceChanges = changes.balanceChanges)
    (hno : changes'.nonceChanges = changes.nonceChanges)
    (hco : changes'.codeChanges = changes.codeChanges) {s : Collected}
    (hs : collapse filter b seconds changes = .ok s) :
    collapse filter d seconds changes' = .ok s := by
  obtain ⟨storage,hstorage,hs⟩ := bind_ok.mp hs
  obtain ⟨codes,hcodes,hs⟩ := bind_ok.mp hs
  obtain ⟨lists,hl,hs⟩ := bind_ok.mp hs
  obtain ⟨deleted,hdel,hs⟩ := bind_ok.mp hs
  obtain rfl := pure_ok.mp hs
  have hdel' := deletions_shuffled h hb hn hdel
  have hdecided := deletions_succeeds.mp ⟨deleted,hdel'⟩
  obtain ⟨lists',hl'⟩ : ∃ lists', d.transactionTraces.mapM (transactionEffects filter) =
      .ok lists' := by
    refine mapM_succeeds.mpr (fun tx htx => transactionEffects_succeeds (fun hst call hcall => ?_))
    by_contra hno
    exact hdecided (.context tx call ⟨htx,hst,mem_selfdestructs.mp hcall⟩ (not_exists.mp hno))
  have hsame : ∀ e, e ∈ lists'.flatten ↔ e ∈ lists.flatten :=
    fun e => ⟨effects_shuffled h.symm hb hl' hl,effects_shuffled h hn hl hl'⟩
  unfold collapse
  rw [hst, hba, hno, hco]
  refine bind_ok.mpr ⟨storage,hstorage,bind_ok.mpr ⟨codes,hcodes,bind_ok.mpr ⟨lists',hl',
    bind_ok.mpr ⟨deleted,hdel',pure_ok.mpr ?_⟩⟩⟩⟩
  have heffects : ∀ l, addEffects SortedMap.empty (l++lists'.flatten) =
      addEffects SortedMap.empty (l++lists.flatten) :=
    fun l => addEffects_eq (fun e => by simp only [List.mem_append, hsame])
  rw [heffects]

theorem checkBlock_shuffled (h : ShuffledBlock b d) {r : BlockHeader × Timestamp}
    (hr : checkBlock filter b = .ok r) : checkBlock filter d = .ok r := by
  have htransactions : ∀ tx' ∈ d.transactionTraces, ∃ tx ∈ b.transactionTraces,
      tx'.statusCode = tx.statusCode ∧ (tx.calls ≠ [] → tx'.calls ≠ []) := by
    intro tx' htx'
    obtain ⟨tx,htx,ht⟩ := h.symm.transactions.partner htx'
    refine ⟨tx,htx,?_,fun hne => ?_⟩
    · rw [ht.same]
    · obtain ⟨c,hc⟩ := List.exists_mem_of_ne_nil _ hne
      obtain ⟨c',hc',-⟩ := ht.symm.shuffle.partner hc
      exact List.ne_nil_of_mem hc'
  generalize htxs : d.transactionTraces = txs at htransactions
  have hd := h.same
  rw [htxs] at hd
  rw [hd]
  unfold checkBlock at hr ⊢
  simp only [bind_ok, ensure_ok, context_ok, pure_ok] at hr ⊢
  obtain ⟨_,h1,_,h2,_,h3,header,h4,_,h5,_,h6,time,h7,_,h8,_,h9,h10⟩ := hr
  refine ⟨(),h1,(),h2,(),h3,header,h4,(),h5,(),h6,time,h7,(),h8,(),?_,h10⟩
  rw [forM_ok] at h9 ⊢
  intro tx' htx'
  obtain ⟨tx,htx,hstatus,hcalls⟩ := htransactions tx' htx'
  obtain ⟨_,hs,hc⟩ := bind_ok.mp (h9 tx htx)
  rw [ensure_ok] at hs hc
  exact bind_ok.mpr ⟨(),ensure_ok.mpr (hstatus ▸ hs),ensure_ok.mpr (hcalls hc)⟩

theorem project_shuffled (h : ShuffledBlock b d) (hb : Distinct b) {params : String}
    {s : BlockState} (hs : project params b = .ok s) : project params d = .ok s := by
  have hn := distinct_shuffled h hb
  obtain ⟨filter,hf,hs⟩ := bind_ok.mp hs
  obtain ⟨⟨header,time⟩,hcheck,hs⟩ := bind_ok.mp hs
  obtain ⟨changes,hch,hs⟩ := bind_ok.mp hs
  obtain ⟨c,hc,hs⟩ := bind_ok.mp hs
  obtain ⟨records,hr,hst,hba,hno,hco⟩ := BlockRows.collect_ok hf hch
  obtain ⟨more,hm,hp⟩ := collectBlock_perm h hr
  obtain ⟨hst',hba',hno',hco'⟩ := collected_eq filter hp (hb.ordinals records hr)
  obtain ⟨changes',hch'⟩ : ∃ changes', Collect.collect params d = .ok changes' :=
    ⟨_,bind_ok.mpr ⟨filter,hf,bind_ok.mpr ⟨more,hm,rfl⟩⟩⟩
  obtain ⟨more',hm',hst'',hba'',hno'',hco''⟩ := BlockRows.collect_ok hf hch'
  obtain rfl := Except.ok.inj (hm.symm.trans hm')
  have hc' := collapse_shuffled h hb hn (hst''.trans (hst'.symm.trans hst.symm))
    (hba''.trans (hba'.symm.trans hba.symm)) (hno''.trans (hno'.symm.trans hno.symm))
    (hco''.trans (hco'.symm.trans hco.symm)) hc
  refine bind_ok.mpr ⟨filter,hf,bind_ok.mpr ⟨_,checkBlock_shuffled h hcheck,
    bind_ok.mpr ⟨changes',hch',bind_ok.mpr ⟨c,hc',?_⟩⟩⟩⟩
  obtain rfl := pure_ok.mp hs
  rw [h.same]
  rfl

/-- The projection does not see in which order the producer lists the
transactions, calls and changes of a block. -/
theorem order_independent (h : ShuffledBlock b d) (hb : Distinct b) (params : String)
    (s : BlockState) : project params b = .ok s ↔ project params d = .ok s :=
  ⟨project_shuffled h hb,project_shuffled h.symm (distinct_shuffled h hb)⟩

end Projection

section Sample
open Replay

/-- Two writes of one slot, and a delegated SELFDESTRUCT of the account. -/
def orderedBlock : Block :=
  { sampleBlock 100 [
      { sampleTransaction 9 sampleCall with calls := [
        { sampleCall with storageChanges :=
          [⟨sampleAccount,[1],[],[7],2⟩,⟨sampleAccount,[1],[7],[8],3⟩] },
        { sampleCall with index := 2, parentIndex := 1, callTypeCode := 3, suicide := true }] },
      sampleTransaction 20 (sampleStore 2 9 12)] with
    balanceChanges := [⟨sampleAccount,none,some [1],0,1⟩,⟨sampleAccount,some [1],some [2],0,30⟩] }

def reorderedBlock : Block :=
  { sampleBlock 100 [
      sampleTransaction 20 (sampleStore 2 9 12),
      { sampleTransaction 9 sampleCall with calls := [
        { sampleCall with index := 2, parentIndex := 1, callTypeCode := 3, suicide := true },
        { sampleCall with storageChanges :=
          [⟨sampleAccount,[1],[7],[8],3⟩,⟨sampleAccount,[1],[],[7],2⟩] }] }] with
    balanceChanges := [⟨sampleAccount,some [1],some [2],0,30⟩,⟨sampleAccount,none,some [1],0,1⟩] }

theorem shuffledCall_refl (c : Call) : ShuffledCall c c := ⟨rfl,.refl _,.refl _,.refl _,.refl _⟩

theorem orderedBlock_shuffled : ShuffledBlock orderedBlock reorderedBlock where
  same := rfl
  transactions := by
    refine ⟨_,.cons ?_ (.cons ?_ .nil),.swap _ _ []⟩
    · refine ⟨rfl,?_⟩
      rw [ShuffledCalls, if_pos (by decide)]
      refine ⟨_,.cons ?_ (.cons (shuffledCall_refl _) .nil),.swap _ _ []⟩
      exact ⟨rfl,.swap _ _ [],.refl _,.refl _,.refl _⟩
    · refine ⟨rfl,?_⟩
      rw [ShuffledCalls, if_pos (by decide)]
      exact ⟨_,.cons (shuffledCall_refl _) .nil,.refl _⟩
  system := ⟨[],.nil,.nil⟩
  balances := .swap _ _ []
  codes := .nil

theorem orderedBlock_distinct : Distinct orderedBlock where
  ordinals := by
    have hkeys : ((collectBlock orderedBlock).map
        (fun l => l.map (fun r => (Record.kind r,Record.ordinal r)))) = .ok
        [(.balance,1),(.balance,30),(.storage,2),(.storage,3),(.storage,12)] := by decide +kernel
    intro records hr
    rw [hr] at hkeys
    have hlist : records.map (fun r => (Record.kind r,Record.ordinal r)) = _ :=
      Except.ok.inj hkeys
    rw [hlist]
    decide
  indices := by decide

def orderedRow : BlockProjection.BlockState :=
  { sampleRow 100 "0x6464646464646464646464646464646464646464646464646464646464646464"
      "0x6363636363636363636363636363636363636363636363636363636363636363" with
    storage := [⟨sampleParams,sampleWord "2",sampleWord "9",12⟩]
    balances := [⟨sampleParams,"2",30⟩]
    nonces := [⟨sampleParams,0,9⟩]
    codes := [⟨sampleParams,BlockProjection.emptyCodeHash,"0x",9⟩]
    lifecycle := [⟨sampleParams,.selfdestruct,5⟩,⟨sampleParams,.storageReset,9⟩] }

theorem order_independent_sample :
    BlockProjection.project sampleParams orderedBlock = .ok orderedRow ∧
      BlockProjection.project sampleParams reorderedBlock = .ok orderedRow := by
  have h : BlockProjection.project sampleParams orderedBlock = .ok orderedRow := by decide +kernel
  exact ⟨h,(order_independent orderedBlock_shuffled orderedBlock_distinct sampleParams orderedRow).mp h⟩

end Sample
end EvmState.ArrayOrder
