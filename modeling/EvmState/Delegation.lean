import EvmState.Lifecycle

/-!
# The execution context of a delegated call

The loop follows parent indices through Delegate and Callcode calls and keeps
the set of indices it has passed. Here it is read without a bound on its
rounds, and compared with the ancestors that the parent links define.
-/

set_option autoImplicit false

namespace EvmState.Delegation
open EvmState.Hex EvmState.Eth EvmState.Lifecycle

/-- The loop of the source, round by round, until it returns. -/
inductive Loop (calls : List Call) : Call → List ℕ → Except String Bytes → Prop
  | done {current : Call} {visited : List ℕ} (h : isDelegated current = false) :
      Loop calls current visited (.ok current.address)
  | cyclic {current : Call} {visited : List ℕ} (h : isDelegated current = true)
      (hv : current.index ∈ visited) :
      Loop calls current visited (.error "cyclic delegated call ancestry")
  | missing {current : Call} {visited : List ℕ} (h : isDelegated current = true)
      (hv : current.index ∉ visited) (hp : parentOf calls current = none) :
      Loop calls current visited (.error "delegated SELFDESTRUCT missing execution context")
  | climb {current parent : Call} {visited : List ℕ} {result : Except String Bytes}
      (h : isDelegated current = true) (hv : current.index ∉ visited)
      (hp : parentOf calls current = some parent)
      (hr : Loop calls parent (current.index::visited) result) :
      Loop calls current visited result

theorem parentOf_mem {calls : List Call} {call parent : Call}
    (h : parentOf calls call = some parent) : parent ∈ calls := List.mem_of_find?_eq_some h

theorem loop_unique {calls : List Call} {current : Call} {visited : List ℕ}
    {r r' : Except String Bytes} (h : Loop calls current visited r)
    (h' : Loop calls current visited r') : r = r' := by
  induction h with
  | done hd =>
    cases h' with
    | done => rfl
    | cyclic hd' | missing hd' | climb hd' => rw [hd] at hd'; cases hd'
  | cyclic hd hv =>
    cases h' with
    | done hd' => rw [hd] at hd'; cases hd'
    | cyclic => rfl
    | missing _ hv' | climb _ hv' => exact absurd hv hv'
  | missing hd hv hp =>
    cases h' with
    | done hd' => rw [hd] at hd'; cases hd'
    | cyclic _ hv' => exact absurd hv' hv
    | missing => rfl
    | climb _ _ hp' => rw [hp] at hp'; cases hp'
  | climb hd hv hp _ ih =>
    cases h' with
    | done hd' => rw [hd] at hd'; cases hd'
    | cyclic _ hv' => exact absurd hv' hv
    | missing _ _ hp' => rw [hp] at hp'; cases hp'
    | climb _ _ hp' hr' =>
      obtain rfl := Option.some.inj (hp.symm.trans hp')
      exact ih hr'

/-- The visited indices are distinct and belong to the start or to the list,
so the loop returns before the rounds run out. -/
theorem resolveContext_loop {calls : List Call} (start : ℕ) {fuel : ℕ} {current : Call}
    {visited : List ℕ} (hn : visited.Nodup)
    (hs : ∀ i ∈ current.index::visited, i ∈ start::calls.map Call.index)
    (hf : visited.length+fuel = calls.length+2) :
    Loop calls current visited (resolveContext calls fuel current visited) := by
  induction fuel generalizing current visited with
  | zero =>
    -- more distinct indices than there are calls
    have hsub := List.Nodup.length_le_of_subset hn (fun i hi => hs i (List.mem_cons_of_mem _ hi))
    simp only [List.length_cons, List.length_map] at hsub
    omega
  | succ fuel ih =>
    rw [resolveContext]
    cases hd : isDelegated current with
    | false => exact .done hd
    | true =>
      rw [if_pos rfl]
      by_cases hv : current.index ∈ visited
      · rw [if_pos hv]
        exact .cyclic hd hv
      · rw [if_neg hv]
        cases hp : parentOf calls current with
        | none => exact .missing hd hv hp
        | some parent =>
          have hmem : parent.index ∈ start::calls.map Call.index :=
            List.mem_cons_of_mem _ (List.mem_map.mpr ⟨parent,parentOf_mem hp,rfl⟩)
          refine .climb hd hv hp (ih (List.nodup_cons.mpr ⟨hv,hn⟩) (fun i hi => ?_) ?_)
          · rcases List.mem_cons.mp hi with rfl | hi
            · exact hmem
            · exact hs i hi
          · simp only [List.length_cons]
            omega

theorem executionAddress_loop (call : Call) (calls : List Call) :
    Loop calls call [] (executionAddress call calls) :=
  resolveContext_loop call.index List.nodup_nil (by simp) (by simp)

section Ancestry
variable (calls : List Call) (start : Call)

/-- The call reached from the start after so many parent links. -/
inductive Ancestor : ℕ → Call → Prop
  | self : Ancestor 0 start
  | parent {n : ℕ} {call parent : Call} (h : Ancestor n call) (hm : parent ∈ calls)
      (hi : parent.index = call.parentIndex) (hn : parent.index ≠ call.index) :
      Ancestor (n+1) parent

/-- The calls up to the `n`-th ancestor are Delegate or Callcode calls. -/
def Delegated (n : ℕ) : Prop := ∀ m < n, ∀ call, Ancestor calls start m call → isDelegated call = true

/-- The nearest ancestor-or-self that is neither Delegate nor Callcode. -/
structure Nearest (n : ℕ) (call : Call) : Prop where
  reached : Ancestor calls start n call
  own : isDelegated call = false
  below : Delegated calls start n

/-- No two of the calls before the `n`-th ancestor have the same index. -/
def Fresh (n : ℕ) : Prop := ∀ m k, m < k → k < n → ∀ call call', Ancestor calls start m call →
  Ancestor calls start k call' → call.index ≠ call'.index

/-- The parent links go through delegated calls up to a delegated call whose
parent is not in the list, or is the call itself, or which lies on a cycle. -/
structure Malformed (cycle : ℕ → Call → Prop) (n : ℕ) (call : Call) : Prop where
  reached : Ancestor calls start n call
  delegated : Delegated calls start (n+1)
  broken : (∀ parent ∈ calls, parent.index ≠ call.parentIndex) ∨ call.parentIndex = call.index ∨
    cycle n call

def IndexPassed (n : ℕ) (call : Call) : Prop :=
  ∃ m < n, ∃ earlier, Ancestor calls start m earlier ∧ earlier.index = call.index

def CallPassed (n : ℕ) (call : Call) : Prop := ∃ m < n, Ancestor calls start m call

end Ancestry

section Distinct
variable {calls : List Call} {start : Call}

theorem ancestor_below {n : ℕ} {call : Call} (h : Ancestor calls start n call) :
    ∀ m ≤ n, ∃ c, Ancestor calls start m c := by
  induction h with
  | self =>
    intro m hm
    obtain rfl : m = 0 := by omega
    exact ⟨start,.self⟩
  | @parent n call p h hmem hi hne ih =>
    intro m hm
    rcases Nat.lt_or_eq_of_le hm with hlt | rfl
    · exact ih m (by omega)
    · exact ⟨p,.parent h hmem hi hne⟩

variable (hd : (calls.map Call.index).Nodup)
include hd

theorem same_index {c c' : Call} (h : c ∈ calls) (h' : c' ∈ calls) (hi : c.index = c'.index) :
    c = c' := List.inj_on_of_nodup_map hd h h' hi

theorem ancestor_unique {n : ℕ} {c c' : Call} (h : Ancestor calls start n c)
    (h' : Ancestor calls start n c') : c = c' := by
  induction h generalizing c' with
  | self => cases h'; rfl
  | parent _ hm hi _ ih =>
    cases h' with
    | parent hc hm' hi' _ =>
      obtain rfl := ih hc
      exact same_index hd hm hm' (hi.trans hi'.symm)

omit hd in
theorem parentOf_ancestor {n : ℕ} {call parent : Call} (h : Ancestor calls start n call)
    (hp : parentOf calls call = some parent) : Ancestor calls start (n+1) parent := by
  have hf := List.find?_some hp
  simp only [Bool.and_eq_true, decide_eq_true_eq] at hf
  exact .parent h (parentOf_mem hp) hf.1 hf.2

structure Climbed (calls : List Call) (start : Call) (n : ℕ) (current : Call) (visited : List ℕ) :
    Prop where
  reached : Ancestor calls start n current
  delegated : Delegated calls start n
  passed : ∀ i, i ∈ visited ↔ ∃ m < n, ∃ call, Ancestor calls start m call ∧ call.index = i
  fresh : Fresh calls start n

omit hd in
theorem climbed_start : Climbed calls start 0 start [] :=
  ⟨.self,fun _ h => absurd h (by omega),fun _ => by simp,fun _ _ _ h => absurd h (by omega)⟩

theorem climbed_step {n : ℕ} {current parent : Call} {visited : List ℕ}
    (h : Climbed calls start n current visited) (hdel : isDelegated current = true)
    (hv : current.index ∉ visited) (hp : parentOf calls current = some parent) :
    Climbed calls start (n+1) parent (current.index::visited) where
  reached := parentOf_ancestor h.reached hp
  delegated m hm call hc := by
    rcases Nat.lt_succ_iff_lt_or_eq.mp hm with hlt | rfl
    · exact h.delegated m hlt call hc
    · rw [ancestor_unique hd hc h.reached]
      exact hdel
  passed i := by
    rw [List.mem_cons,h.passed]
    constructor
    · rintro (rfl | ⟨m,hm,call,hc,hi⟩)
      · exact ⟨n,by omega,current,h.reached,rfl⟩
      · exact ⟨m,by omega,call,hc,hi⟩
    · rintro ⟨m,hm,call,hc,hi⟩
      rcases Nat.lt_succ_iff_lt_or_eq.mp hm with hlt | rfl
      · exact .inr ⟨m,hlt,call,hc,hi⟩
      · rw [ancestor_unique hd hc h.reached] at hi
        exact .inl hi.symm
  fresh m k hmk hk call call' hc hc' := by
    rcases Nat.lt_succ_iff_lt_or_eq.mp hk with hlt | rfl
    · exact h.fresh m k hmk hlt call call' hc hc'
    · rw [ancestor_unique hd hc' h.reached]
      exact fun heq => hv ((h.passed _).mpr ⟨m,hmk,call,hc,heq⟩)

/-- Where the loop ends: at the nearest call with a context of its own, or at
a call whose ancestry is malformed. -/
theorem loop_ends {current : Call} {visited : List ℕ} {r : Except String Bytes} {n : ℕ}
    (h : Loop calls current visited r) (hc : Climbed calls start n current visited) :
    (∃ m call, Nearest calls start m call ∧ Fresh calls start m ∧ r = .ok call.address) ∨
      ∃ m call text, Malformed calls start (IndexPassed calls start) m call ∧ r = .error text := by
  have hdelegated : ∀ {n call visited}, Climbed calls start n call visited →
      isDelegated call = true → Delegated calls start (n+1) := by
    intro n call visited hc hdel m hm c hcm
    rcases Nat.lt_succ_iff_lt_or_eq.mp hm with hlt | rfl
    · exact hc.delegated m hlt c hcm
    · rw [ancestor_unique hd hcm hc.reached]
      exact hdel
  induction h generalizing n with
  | done hown => exact .inl ⟨n,_,⟨hc.reached,hown,hc.delegated⟩,hc.fresh,rfl⟩
  | cyclic hdel hv =>
    exact .inr ⟨n,_,_,⟨hc.reached,hdelegated hc hdel,.inr (.inr ((hc.passed _).mp hv))⟩,rfl⟩
  | @missing current visited hdel hv hp =>
    -- the only call with the parent's index may be the call itself
    have hnone := List.find?_eq_none.mp hp
    refine .inr ⟨n,current,_,⟨hc.reached,hdelegated hc hdel,?_⟩,rfl⟩
    by_cases hself : current.parentIndex = current.index
    · exact .inr (.inl hself)
    · refine .inl fun parent hm hi => hnone parent hm ?_
      simp only [Bool.and_eq_true, decide_eq_true_eq]
      exact ⟨hi,fun h => hself (hi.symm.trans h)⟩
  | climb hdel hv hp _ ih => exact ih (climbed_step hd hc hdel hv hp)

theorem nearest_not_malformed {n m : ℕ} {call broken : Call} (h : Nearest calls start n call)
    (hf : Fresh calls start n) (hm : Malformed calls start (IndexPassed calls start) m broken) :
    False := by
  have hlt : m < n := by
    by_contra hge
    have := hm.delegated n (by omega) call h.reached
    rw [h.own] at this
    cases this
  obtain ⟨next,hnext⟩ := ancestor_below h.reached (m+1) hlt
  cases hnext with
  | parent hc hmem hi hne =>
    obtain rfl := ancestor_unique hd hm.reached hc
    rcases hm.broken with hb | hb | ⟨k,hk,earlier,he,heq⟩
    · exact hb next hmem hi
    · exact hne (hi.trans hb)
    · exact hf k m hk hlt earlier broken he hm.reached heq

theorem nearest_unique {n m : ℕ} {c c' : Call} (h : Nearest calls start n c)
    (h' : Nearest calls start m c') : c = c' := by
  have hle : ∀ {n m c c'}, Nearest calls start n c → Nearest calls start m c' → ¬n < m := by
    intro n m c c' h h' hlt
    have := h'.below n hlt c h.reached
    rw [h.own] at this
    cases this
  obtain rfl : n = m := by
    have := hle h h'
    have := hle h' h
    omega
  exact ancestor_unique hd h.reached h'.reached

theorem ancestor_index (hstart : start ∈ calls ∨ ∀ c ∈ calls, c.index ≠ start.index) {m n : ℕ}
    {c c' : Call} (h : Ancestor calls start m c) (h' : Ancestor calls start n c')
    (hi : c.index = c'.index) : c = c' := by
  cases h with
  | self =>
    cases h' with
    | self => rfl
    | parent _ hm' =>
      rcases hstart with hs | hs
      · exact same_index hd hs hm' hi
      · exact absurd hi.symm (hs _ hm')
  | parent _ hm =>
    cases h' with
    | self =>
      rcases hstart with hs | hs
      · exact same_index hd hm hs hi
      · exact absurd hi (hs _ hm)
    | parent _ hm' => exact same_index hd hm hm' hi

theorem ancestor_shift {m k : ℕ} {call : Call} (hm : Ancestor calls start m call)
    (hk : Ancestor calls start k call) (j : ℕ) {c : Call} (h : Ancestor calls start (k+j) c) :
    Ancestor calls start (m+j) c := by
  induction j generalizing c with
  | zero =>
    rw [ancestor_unique hd h hk]
    exact hm
  | succ j ih =>
    cases h with
    | parent hc hmem hi hne => exact .parent (ih hc) hmem hi hne

/-- A cycle of delegated calls has no way out, so the calls before the nearest
own context have distinct indices. -/
theorem nearest_fresh (hstart : start ∈ calls ∨ ∀ c ∈ calls, c.index ≠ start.index) {n : ℕ}
    {call : Call} (h : Nearest calls start n call) : Fresh calls start n := by
  intro m k hmk hk c c' hc hc' hi
  obtain rfl := ancestor_index hd hstart hc hc' hi
  have hend : Ancestor calls start (k+(n-k)) call := by
    rw [Nat.add_sub_cancel' (le_of_lt hk)]
    exact h.reached
  have hback := ancestor_shift hd hc hc' (n-k) hend
  have := h.below (m+(n-k)) (by omega) call hback
  rw [h.own] at this
  cases this

theorem executionAddress_distinct : (∀ account, executionAddress start calls = .ok account ↔
      ∃ n call, Nearest calls start n call ∧ Fresh calls start n ∧ call.address = account) ∧
    ((∃ text, executionAddress start calls = .error text) ↔
      ∃ n call, Malformed calls start (IndexPassed calls start) n call) := by
  rcases loop_ends hd (executionAddress_loop start calls) climbed_start with
    ⟨m,call,hn,hf,hr⟩ | ⟨m,call,text,hm,hr⟩
  · refine ⟨fun account => ⟨fun h => ?_,?_⟩,⟨?_,?_⟩⟩
    · rw [hr,Except.ok.injEq] at h
      exact ⟨m,call,hn,hf,h⟩
    · rintro ⟨n,c,hn',-,rfl⟩
      rw [hr,nearest_unique hd hn hn']
    · rintro ⟨text,h⟩
      rw [hr] at h
      cases h
    · rintro ⟨n,c,hm⟩
      exact (nearest_not_malformed hd hn hf hm).elim
  · refine ⟨fun account => ⟨fun h => ?_,?_⟩,⟨fun _ => ⟨m,call,hm⟩,fun _ => ⟨text,hr⟩⟩⟩
    · rw [hr] at h
      cases h
    · rintro ⟨n,c,hn,hf,-⟩
      exact (nearest_not_malformed hd hn hf hm).elim

end Distinct

/-- The loop returns on every list. On a list with distinct indices it returns
the address of the nearest ancestor-or-self that is neither Delegate nor
Callcode, and an error exactly where the links end at a missing parent, a
self-parent or a cycle; where another call of the list has the index of the
start, a cycle is one of indices. -/
theorem delegated_resolution (calls : List Call) (start : Call) :
    (∃ result, Loop calls start [] result ∧ executionAddress start calls = result ∧
      ∀ r, Loop calls start [] r → r = result) ∧
    ((calls.map Call.index).Nodup →
      ((∀ account, executionAddress start calls = .ok account ↔
          ∃ n call, Nearest calls start n call ∧ Fresh calls start n ∧ call.address = account) ∧
        ((∃ text, executionAddress start calls = .error text) ↔
          ∃ n call, Malformed calls start (IndexPassed calls start) n call)) ∧
      ((start ∈ calls ∨ ∀ c ∈ calls, c.index ≠ start.index) →
        (∀ account, executionAddress start calls = .ok account ↔
          ∃ n call, Nearest calls start n call ∧ call.address = account) ∧
        ((∃ text, executionAddress start calls = .error text) ↔
          ∃ n call, Malformed calls start (CallPassed calls start) n call))) := by
  refine ⟨⟨_,executionAddress_loop start calls,rfl,
    fun r h => loop_unique h (executionAddress_loop start calls)⟩,fun hd => ?_⟩
  obtain ⟨hok,herr⟩ := @executionAddress_distinct calls start hd
  refine ⟨⟨hok,herr⟩,fun hstart => ⟨fun account => ?_,?_⟩⟩
  · rw [hok]
    constructor
    · rintro ⟨n,call,hn,-,ha⟩
      exact ⟨n,call,hn,ha⟩
    · rintro ⟨n,call,hn,ha⟩
      exact ⟨n,call,hn,nearest_fresh hd hstart hn,ha⟩
  · rw [herr]
    constructor
    · rintro ⟨n,call,hm⟩
      refine ⟨n,call,hm.reached,hm.delegated,?_⟩
      rcases hm.broken with hb | hb | ⟨m,hlt,earlier,he,hi⟩
      · exact .inl hb
      · exact .inr (.inl hb)
      · have := ancestor_index hd hstart he hm.reached hi
        subst this
        exact .inr (.inr ⟨m,hlt,he⟩)
    · rintro ⟨n,call,hm⟩
      refine ⟨n,call,hm.reached,hm.delegated,?_⟩
      rcases hm.broken with hb | hb | ⟨m,hlt,he⟩
      · exact .inl hb
      · exact .inr (.inl hb)
      · exact .inr (.inr ⟨m,hlt,call,he,rfl⟩)

def sampleCall (index parentIndex : ℕ) (callTypeCode : ℤ) : Call where
  index := index
  parentIndex := parentIndex
  callTypeCode := callTypeCode
  address := List.replicate 19 0 ++ [UInt8.ofNat index]
  stateReverted := false
  suicide := false
  beginOrdinal := 0
  endOrdinal := 0
  storageChanges := []
  balanceChanges := []
  nonceChanges := []
  codeChanges := []

/-- A Callcode in a Delegate in a Call, and two Delegate calls in a cycle. -/
def sampleCalls : List Call :=
  [sampleCall 1 0 1,sampleCall 2 1 3,sampleCall 3 2 2,sampleCall 4 5 3,sampleCall 5 4 3]

theorem delegated_resolution_sample :
    (∃ n call, Nearest sampleCalls (sampleCall 3 2 2) n call ∧
      call.address = (sampleCall 1 0 1).address) ∧
    ∃ n call, Malformed sampleCalls (sampleCall 4 5 3)
      (CallPassed sampleCalls (sampleCall 4 5 3)) n call := by
  have hdistinct : (sampleCalls.map Call.index).Nodup := by decide
  obtain ⟨hok,-⟩ := ((delegated_resolution sampleCalls (sampleCall 3 2 2)).2 hdistinct).2
    (.inl (by decide))
  obtain ⟨-,herror⟩ := ((delegated_resolution sampleCalls (sampleCall 4 5 3)).2 hdistinct).2
    (.inl (by decide))
  exact ⟨(hok _).mp (by decide),herror.mp ⟨"cyclic delegated call ancestry",by decide⟩⟩

end EvmState.Delegation
