import EvmState.Delegation

/-!
# Which accounts a block deletes

The execution context of a call is its own account, or that of the nearest
ancestor whose code is not delegated. A block deletes the accounts in whose
context a committed SELFDESTRUCT executes, by the fork rule, and fails when
one of them cannot be decided.
-/

set_option autoImplicit false

namespace EvmState.Deletions
open EvmState.Hex EvmState.Eth EvmState.Fallible EvmState.OrderedMap EvmState.Lifecycle EvmState.Delegation

/-- The account in whose context a call executes. A walk up that comes back
to an index it has passed has no end. -/
inductive Executes (calls : List Call) : List ℕ → Call → Bytes → Prop
  | own {visited : List ℕ} {call : Call} (h : isDelegated call = false) :
      Executes calls visited call call.address
  | inherited {visited : List ℕ} {call parent : Call} {account : Bytes}
      (h : isDelegated call = true) (hv : call.index ∉ visited)
      (hp : parentOf calls call = some parent)
      (ha : Executes calls (call.index::visited) parent account) :
      Executes calls visited call account

theorem executes_loop {calls : List Call} {call : Call} {visited : List ℕ} {account : Bytes}
    (h : Executes calls visited call account) : Loop calls call visited (.ok account) := by
  induction h with
  | own hd => exact .done hd
  | inherited hd hv hp _ ih => exact .climb hd hv hp ih

theorem loop_executes {calls : List Call} {call : Call} {visited : List ℕ}
    {result : Except String Bytes} (h : Loop calls call visited result) (account : Bytes)
    (hr : result = .ok account) : Executes calls visited call account := by
  induction h with
  | done hd =>
    cases hr
    exact .own hd
  | cyclic => cases hr
  | missing => cases hr
  | climb hd hv hp _ ih => exact .inherited hd hv hp (ih hr)

theorem executionAddress_ok {call : Call} {calls : List Call} {account : Bytes} :
    executionAddress call calls = .ok account ↔ Executes calls [] call account := by
  constructor
  · exact loop_executes (executionAddress_loop call calls) account
  · exact fun h => loop_unique (executionAddress_loop call calls) (executes_loop h)

section Checks
variable (block : Block) (timestamp : ℕ)

def Destructs (tx : TransactionTrace) (call : Call) : Prop :=
  tx ∈ block.transactionTraces ∧ tx.status = .succeeded ∧ call ∈ tx.calls ∧
    call.suicide = true ∧ call.stateReverted = false

/-- A surviving SELFDESTRUCT that deletes the account it executes for. -/
def Qualifies (account : Bytes) (tx : TransactionTrace) (call : Call) : Prop :=
  Destructs block tx call ∧ Executes tx.calls [] call account ∧
    (timestamp < bscCancunTime ∨ ∃ c ∈ tx.calls, c.stateReverted = false ∧ c.callType = .create ∧
      c.address = account)

inductive Undecided : Prop
  | ordinal (account : Bytes) (tx : TransactionTrace) (call : Call)
      (h : Qualifies block timestamp account tx call) (he : tx.endOrdinal ≤ call.endOrdinal)
  | context (tx : TransactionTrace) (call : Call) (h : Destructs block tx call)
      (hc : ∀ account, ¬Executes tx.calls [] call account)
  | system (call : Call) (h : call ∈ block.systemCalls) (hs : call.suicide = true)
      (hr : call.stateReverted = false)

end Checks

section Exact
variable {block : Block} {timestamp : ℕ}

theorem mem_selfdestructs {tx : TransactionTrace} {call : Call} :
    call ∈ selfdestructs tx ↔ call ∈ tx.calls ∧ call.suicide = true ∧ call.stateReverted = false := by
  simp [selfdestructs, List.mem_filter]

theorem deletes_iff {tx : TransactionTrace} {account : Bytes} :
    deletes timestamp tx account = true ↔ timestamp < bscCancunTime ∨
      ∃ c ∈ tx.calls, c.stateReverted = false ∧ c.callType = .create ∧ c.address = account := by
  simp [deletes, created, List.mem_filter, and_assoc]

theorem deletionStep_succeeds {tx : TransactionTrace} {call : Call} (m : SortedMap Bytes ℕ) :
    (∃ n, deletionStep timestamp tx m call = .ok n) ↔ ∃ account,
      executionAddress call tx.calls = .ok account ∧
      (deletes timestamp tx account = true → call.endOrdinal < tx.endOrdinal) := by
  constructor
  · rintro ⟨n,h⟩
    obtain ⟨account,ha,h⟩ := bind_ok.mp h
    refine ⟨account,ha,fun hd => ?_⟩
    rw [if_pos hd] at h
    obtain ⟨_,he,-⟩ := bind_ok.mp h
    exact (ensure_ok.mp he).2
  · rintro ⟨account,ha,h⟩
    cases hd : deletes timestamp tx account with
    | true =>
      have he : tx.endOrdinal ≠ 0 ∧ call.endOrdinal < tx.endOrdinal :=
        ⟨by have := h hd; omega,h hd⟩
      refine ⟨raise m account tx.endOrdinal,bind_ok.mpr ⟨account,ha,?_⟩⟩
      rw [if_pos hd]
      exact bind_ok.mpr ⟨(),ensure_ok.mpr he,rfl⟩
    | false =>
      refine ⟨m,bind_ok.mpr ⟨account,ha,?_⟩⟩
      rw [if_neg (by simp [hd])]
      rfl

theorem transactionDeletions_succeeds {tx : TransactionTrace} (m : SortedMap Bytes ℕ) :
    (∃ n, transactionDeletions timestamp m tx = .ok n) ↔ (tx.status = .succeeded →
      ∀ call ∈ selfdestructs tx, ∃ account, executionAddress call tx.calls = .ok account ∧
        (deletes timestamp tx account = true → call.endOrdinal < tx.endOrdinal)) := by
  unfold transactionDeletions
  split_ifs with hs
  · have hstep := fun m (call : Call) => @deletionStep_succeeds timestamp tx call m
    rw [foldlM_succeeds hstep]
    simp [hs]
  · simp [hs]

theorem deletions_succeeds : (∃ m, deletions block timestamp = .ok m) ↔ ¬Undecided block timestamp := by
  have hstep := fun m (tx : TransactionTrace) => @transactionDeletions_succeeds timestamp tx m
  have hfold := @foldlM_succeeds _ _ _ _ _ block.transactionTraces hstep SortedMap.empty
  have hsystem : (∃ m, deletions block timestamp = .ok m) ↔
      (∃ m, block.transactionTraces.foldlM (transactionDeletions timestamp) SortedMap.empty = .ok m) ∧
        ∀ call ∈ block.systemCalls, ¬(call.suicide = true ∧ call.stateReverted = false) := by
    have hall : (block.systemCalls.all (fun call => !(call.suicide && !call.stateReverted))) = true ↔
        ∀ call ∈ block.systemCalls, ¬(call.suicide = true ∧ call.stateReverted = false) := by
      rw [List.all_eq_true]
      exact forall₂_congr fun call _ => by cases call.suicide <;> simp
    simp only [deletions, bind_ok, ensure_ok, pure_ok, hall]
    constructor
    · rintro ⟨_,m,hm,_,hs,rfl⟩
      exact ⟨⟨m,hm⟩,hs⟩
    · rintro ⟨⟨m,hm⟩,hs⟩
      exact ⟨m,m,hm,(),hs,rfl⟩
  rw [hsystem, hfold]
  constructor
  · rintro ⟨hcalls,hsys⟩ hu
    cases hu with
    | ordinal account tx call h he =>
      obtain ⟨⟨htx,hst,hcall,hsui,hrev⟩,hex,hfork⟩ := h
      obtain ⟨a,ha,hd⟩ := hcalls tx htx hst call (mem_selfdestructs.mpr ⟨hcall,hsui,hrev⟩)
      obtain rfl := Except.ok.inj (ha.symm.trans (executionAddress_ok.mpr hex))
      exact absurd (hd (deletes_iff.mpr hfork)) (by omega)
    | context tx call h hc =>
      obtain ⟨htx,hst,hcall,hsui,hrev⟩ := h
      obtain ⟨a,ha,-⟩ := hcalls tx htx hst call (mem_selfdestructs.mpr ⟨hcall,hsui,hrev⟩)
      exact hc a (executionAddress_ok.mp ha)
    | system call h hs hr => exact hsys call h ⟨hs,hr⟩
  · intro hu
    refine ⟨fun tx htx hst call hcall => ?_,fun call h hs => hu (.system call h hs.1 hs.2)⟩
    have hdes : Destructs block tx call := ⟨htx,hst,mem_selfdestructs.mp hcall⟩
    have hctx : ∃ account, Executes tx.calls [] call account := by
      by_contra hn
      exact hu (.context tx call hdes (not_exists.mp hn))
    obtain ⟨account,hex⟩ := hctx
    refine ⟨account,executionAddress_ok.mpr hex,fun hd => ?_⟩
    by_contra hle
    exact hu (.ordinal account tx call ⟨hdes,hex,deletes_iff.mp hd⟩ (not_lt.mp hle))

theorem mem_deletionEvents {account : Bytes} {ordinal : ℕ} :
    (account,ordinal) ∈ deletionEvents block timestamp ↔
      ∃ tx call, Qualifies block timestamp account tx call ∧ tx.endOrdinal = ordinal := by
  have hcall : ∀ tx call, callDeletion timestamp tx call = some (account,ordinal) ↔
      Executes tx.calls [] call account ∧ deletes timestamp tx account = true ∧
        tx.endOrdinal = ordinal := by
    intro tx call
    unfold callDeletion
    cases ha : executionAddress call tx.calls with
    | error e =>
      dsimp only
      rw [iff_false_left (by simp)]
      rintro ⟨hex,-⟩
      rw [executionAddress_ok.mpr hex] at ha
      cases ha
    | ok a =>
      have hex : Executes tx.calls [] call account ↔ a = account := by
        rw [← executionAddress_ok, ha, Except.ok.injEq]
      rw [hex]
      dsimp only
      split_ifs with hd
      · simp only [Option.some.injEq, Prod.mk.injEq]
        constructor
        · rintro ⟨rfl,rfl⟩
          exact ⟨rfl,hd,rfl⟩
        · rintro ⟨rfl,-,rfl⟩
          exact ⟨rfl,rfl⟩
      · simp only [false_iff]
        rintro ⟨rfl,hd',-⟩
        exact hd hd'
  constructor
  · intro h
    obtain ⟨tx,htx,h⟩ := List.mem_flatMap.mp h
    unfold transactionEvents at h
    split_ifs at h with hs
    · obtain ⟨call,hmem,h⟩ := List.mem_filterMap.mp h
      obtain ⟨hex,hd,he⟩ := (hcall tx call).mp h
      exact ⟨tx,call,⟨⟨htx,hs,mem_selfdestructs.mp hmem⟩,hex,deletes_iff.mp hd⟩,he⟩
    · cases h
  · rintro ⟨tx,call,⟨⟨htx,hs,hmem⟩,hex,hfork⟩,he⟩
    refine List.mem_flatMap.mpr ⟨tx,htx,?_⟩
    rw [transactionEvents, if_pos hs]
    exact List.mem_filterMap.mpr ⟨call,mem_selfdestructs.mpr hmem,
      (hcall tx call).mpr ⟨hex,deletes_iff.mpr hfork,he⟩⟩

/-- An accepted block deletes an account at the last end of a transaction that
deletes it. -/
theorem deletions_ok {m : SortedMap Bytes ℕ} (h : deletions block timestamp = .ok m)
    {account : Bytes} {ordinal : ℕ} : m.get? account = some ordinal ↔
      (∃ tx call, Qualifies block timestamp account tx call ∧ tx.endOrdinal = ordinal) ∧
      ∀ tx call, Qualifies block timestamp account tx call →
        tx.endOrdinal ≤ ordinal ∧ call.endOrdinal < ordinal := by
  have htop := deletions_greatest h account
  have hdecided := deletions_succeeds.mp ⟨m,h⟩
  have hbelow : ∀ tx call, Qualifies block timestamp account tx call →
      call.endOrdinal < tx.endOrdinal := by
    intro tx call hq
    by_contra hle
    exact hdecided (.ordinal account tx call hq (not_lt.mp hle))
  constructor
  · intro hm
    refine ⟨mem_deletionEvents.mp (htop.1 ordinal hm),fun tx call hq => ?_⟩
    obtain ⟨e,he,hle⟩ := htop.2 tx.endOrdinal (mem_deletionEvents.mpr ⟨tx,call,hq,rfl⟩)
    obtain rfl := Option.some.inj (hm.symm.trans he)
    have hlt := hbelow tx call hq
    simp only [id] at hle
    exact ⟨hle,by omega⟩
  · rintro ⟨⟨tx,call,hq,rfl⟩,hall⟩
    obtain ⟨e,he,hle⟩ := htop.2 tx.endOrdinal (mem_deletionEvents.mpr ⟨tx,call,hq,rfl⟩)
    obtain ⟨tx',call',hq',rfl⟩ := mem_deletionEvents.mp (htop.1 e he)
    have hle' := (hall tx' call' hq').1
    simp only [id] at hle
    rw [he, le_antisymm hle' hle]

theorem Qualifies.earlier {account : Bytes} {tx : TransactionTrace} {call : Call} {later : ℕ}
    (hle : timestamp ≤ later) (h : Qualifies block later account tx call) :
    Qualifies block timestamp account tx call :=
  ⟨h.1,h.2.1,h.2.2.imp (lt_of_le_of_lt hle) id⟩

theorem deletions_earlier {later : ℕ} (hle : timestamp ≤ later) {m n : SortedMap Bytes ℕ}
    (hm : deletions block timestamp = .ok m) (hn : deletions block later = .ok n)
    {account : Bytes} {ordinal : ℕ} (h : n.get? account = some ordinal) :
    ∃ e, m.get? account = some e ∧ ordinal ≤ e := by
  obtain ⟨⟨tx,call,hq,rfl⟩,-⟩ := (deletions_ok hn).mp h
  have hq' := hq.earlier hle
  obtain ⟨e,he,-⟩ := (deletions_greatest hm account).2 tx.endOrdinal
    (mem_deletionEvents.mpr ⟨tx,call,hq',rfl⟩)
  exact ⟨e,he,(((deletions_ok hm).mp he).2 tx call hq').1⟩

end Exact

/-- Deletions are exact at every time: which accounts and when, which blocks
are refused, and how the time matters. -/
theorem deletions_exact (block : Block) :
    (∀ timestamp m, deletions block timestamp = .ok m → ∀ account ordinal,
      (m.get? account = some ordinal ↔
        (∃ tx call, Qualifies block timestamp account tx call ∧ tx.endOrdinal = ordinal) ∧
        ∀ tx call, Qualifies block timestamp account tx call →
          tx.endOrdinal ≤ ordinal ∧ call.endOrdinal < ordinal)) ∧
    (∀ timestamp m, deletions block timestamp = .ok m → ∀ account,
      ((∃ ordinal, m.get? account = some ordinal) ↔
        ∃ tx call, Qualifies block timestamp account tx call)) ∧
    (∀ timestamp, (∃ e, deletions block timestamp = .error e) ↔ Undecided block timestamp) ∧
    (∀ timestamp later m n, timestamp ≤ later → deletions block timestamp = .ok m →
      deletions block later = .ok n → ∀ account ordinal, n.get? account = some ordinal →
        ∃ e, m.get? account = some e ∧ ordinal ≤ e) := by
  refine ⟨fun timestamp m h account ordinal => deletions_ok h,fun timestamp m h account => ?_,
    fun timestamp => ?_,fun timestamp later m n hle hm hn account ordinal =>
      deletions_earlier hle hm hn⟩
  · constructor
    · rintro ⟨ordinal,ho⟩
      obtain ⟨⟨tx,call,hq,-⟩,-⟩ := (deletions_ok h).mp ho
      exact ⟨tx,call,hq⟩
    · rintro ⟨tx,call,hq⟩
      obtain ⟨e,he,-⟩ := (deletions_greatest h account).2 tx.endOrdinal
        (mem_deletionEvents.mpr ⟨tx,call,hq,rfl⟩)
      exact ⟨e,he⟩
  · rw [← not_iff_not, ← deletions_succeeds]
    cases hd : deletions block timestamp with
    | ok m => simp
    | error e => simp

end EvmState.Deletions
