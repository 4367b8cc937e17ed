import EvmState.BlockProjection
import EvmState.Lib.Timeline

/-!
# Smaller filters see a part of what larger ones see

A run under a filter is the restriction of a run under any larger filter, or
under the empty filter that lets every account pass. The changes are
restricted before they are sorted and collapsed, which is the same as
restricting the results, because a row never leaves its account.
-/

set_option autoImplicit false

namespace EvmState.Filtering
open EvmState.Hex EvmState.Fallible EvmState.OrderedMap EvmState.Params EvmState.BlockProjection

/-- An authorization belongs to its authority and to its delegate. -/
def authorized (F : Filter) (a : Collect.SetCodeAuthorization) : Bool :=
  F.matchesAccount a.authority || F.matchesAccount a.delegate

def restrictChanges (F : Filter) (c : Collect.StateChanges) : Collect.StateChanges :=
  { c with
    storageChanges := c.storageChanges.filter (F.matchesAccount ·.address)
    balanceChanges := c.balanceChanges.filter (F.matchesAccount ·.address)
    nonceChanges := c.nonceChanges.filter (F.matchesAccount ·.address)
    codeChanges := c.codeChanges.filter (F.matchesAccount ·.address)
    setCodeAuthorizations := c.setCodeAuthorizations.filter (authorized F) }

def named (F : Filter) (address : String) : Bool := address ∈ F.accounts.map hex

def restrictState (F : Filter) (s : BlockState) : BlockState :=
  { s with
    accounts := F.canonical
    storage := s.storage.filter (named F ·.address)
    balances := s.balances.filter (named F ·.address)
    nonces := s.nonces.filter (named F ·.address)
    codes := s.codes.filter (named F ·.address)
    lifecycle := s.lifecycle.filter (named F ·.address) }

/-- Every account of the smaller filter passes the larger one. -/
def Below (F G : Filter) : Prop := ∀ a, F.matchesAccount a = true → G.matchesAccount a = true

theorem below_of_subset {F G : Filter} (hF : F.isEmpty = false) (h : F.accounts ⊆ G.accounts) :
    Below F G := by
  intro a ha
  have hmem := Filter.matches_mem hF |>.mp ha
  have hG : G.isEmpty = false := by
    simpa [Filter.isEmpty] using List.ne_nil_of_mem (h hmem)
  exact (Filter.matches_mem hG).mpr (h hmem)

theorem below_empty {F G : Filter} (h : G.isEmpty = true) : Below F G := by
  intro a _
  exact if_pos h

theorem named_hex {F : Filter} (hF : F.isEmpty = false) (a : Bytes) :
    named F (hex a) = F.matchesAccount a := by
  rw [Bool.eq_iff_iff, Filter.matches_mem hF, named, decide_eq_true_eq,
    List.mem_map_of_injective hex_injective]

section Changes
variable {F G : Filter}

theorem filterMap_below {α β : Type} {f g : α → Option β} {p : β → Bool}
    (h : ∀ r, f r = (g r).filter p) (l : List α) : l.filterMap f = (l.filterMap g).filter p := by
  rw [List.filter_filterMap]
  exact congrArg (fun f => List.filterMap f l) (funext h)

theorem select_below {β : Type} (c : β) (p q : β → Bool) (h : p c = true → q c = true) :
    (if p c then some c else none) = (if q c then some c else none).filter p := by
  by_cases hp : p c
  · rw [if_pos hp, if_pos (h hp), Option.filter_some, if_pos hp]
  · rw [if_neg hp]
    split
    · rw [Option.filter_some, if_neg hp]
    · rfl

theorem storage_below (h : Below F G) (r : Persist.Record) :
    Collect.storage F r = (Collect.storage G r).filter (F.matchesAccount ·.address) := by
  cases r with
  | storage c ctx =>
    exact select_below
      (Collect.StorageChange.mk c.address c.key c.oldValue c.newValue (Collect.origin c.ordinal ctx))
      (F.matchesAccount ·.address) (G.matchesAccount ·.address) (h c.address)
  | _ => rfl

theorem balance_below (h : Below F G) (r : Persist.Record) :
    Collect.balance F r = (Collect.balance G r).filter (F.matchesAccount ·.address) := by
  cases r with
  | balance c ctx =>
    exact select_below
      (Collect.BalanceChange.mk c.address (Collect.bigintDec c.oldValue) (Collect.bigintDec c.newValue)
        c.reasonCode (Collect.origin c.ordinal ctx))
      (F.matchesAccount ·.address) (G.matchesAccount ·.address) (h c.address)
  | _ => rfl

theorem nonce_below (h : Below F G) (r : Persist.Record) :
    Collect.nonce F r = (Collect.nonce G r).filter (F.matchesAccount ·.address) := by
  cases r with
  | nonce c ctx =>
    exact select_below
      (Collect.NonceChange.mk c.address c.oldValue c.newValue (Collect.origin c.ordinal ctx))
      (F.matchesAccount ·.address) (G.matchesAccount ·.address) (h c.address)
  | _ => rfl

theorem code_below (h : Below F G) (r : Persist.Record) :
    Collect.code F r = (Collect.code G r).filter (F.matchesAccount ·.address) := by
  cases r with
  | code c ctx =>
    exact select_below
      (Collect.CodeChange.mk c.address c.oldHash c.newHash c.newCode (Collect.origin c.ordinal ctx))
      (F.matchesAccount ·.address) (G.matchesAccount ·.address) (h c.address)
  | _ => rfl

theorem authorized_below (h : Below F G) {a : Collect.SetCodeAuthorization}
    (ha : authorized F a = true) : authorized G a = true := by
  rw [authorized, Bool.or_eq_true] at ha ⊢
  exact ha.imp (h _) (h _)

theorem authorization_below (h : Below F G) (trx : Eth.TransactionTrace)
    (a : Eth.SetCodeAuthorization × ℕ) :
    Collect.authorization F trx a = (Collect.authorization G trx a).filter (authorized F) :=
  select_below (Collect.SetCodeAuthorization.mk trx.hash trx.index a.2 (a.1.authority.getD [])
    a.1.address a.1.nonce a.1.discarded trx.statusCode) (authorized F) (authorized G)
    (authorized_below h)

theorem authorizations_below (h : Below F G) (block : Eth.Block) :
    Collect.setCodeAuthorizations F block =
      (Collect.setCodeAuthorizations G block).filter (authorized F) := by
  rw [Collect.setCodeAuthorizations, Collect.setCodeAuthorizations, List.filter_flatMap]
  congr 1
  funext trx
  exact filterMap_below (authorization_below h trx) _

theorem collect_restrict {params params' : String} {block : Eth.Block} {c : Collect.StateChanges}
    (hF : Filter.parse params = .ok F) (hG : Filter.parse params' = .ok G) (h : Below F G)
    (hc : Collect.collect params' block = .ok c) :
    Collect.collect params block = .ok (restrictChanges F c) := by
  obtain ⟨G',hG',hc⟩ := bind_ok.mp hc
  obtain rfl : G = G' := Except.ok.inj (hG.symm.trans hG')
  obtain ⟨records,hr,hc⟩ := bind_ok.mp hc
  obtain rfl := pure_ok.mp hc
  refine bind_ok.mpr ⟨F,hF,bind_ok.mpr ⟨records,hr,pure_ok.mpr ?_⟩⟩
  simp only [restrictChanges, Collect.sortByOrdinal_filter]
  rw [filterMap_below (storage_below h), filterMap_below (balance_below h),
    filterMap_below (nonce_below h), filterMap_below (code_below h), authorizations_below h]

end Changes

def restrictMaps (F : Filter) (s : Collected) : Collected where
  storage := s.storage.restrict (fun k => named F (ofLex k).1)
  balances := s.balances.restrict (named F)
  nonces := s.nonces.restrict (named F)
  codes := s.codes.restrict (named F)
  lifecycle := s.lifecycle.restrict (fun k => named F (ofLex k).1)

/-- Every row is filed under its own account. -/
structure Filed (s : Collected) : Prop where
  storage : s.storage.Entrywise (fun k v => v.address = (ofLex k).1)
  balances : s.balances.Entrywise (fun k v => v.address = k)
  nonces : s.nonces.Entrywise (fun k v => v.address = k)
  codes : s.codes.Entrywise (fun k v => v.address = k)
  lifecycle : s.lifecycle.Entrywise (fun k v => v.address = (ofLex k).1)

theorem filed_addEffects {m : SortedMap EffectKey LifecycleEffect}
    (h : m.Entrywise (fun k v => v.address = (ofLex k).1)) (l : List LifecycleEffect) :
    (addEffects m l).Entrywise (fun k v => v.address = (ofLex k).1) := by
  refine h.insertAll (fun e he => ?_)
  obtain ⟨v,-,rfl⟩ := List.mem_map.mp he
  rfl

theorem filed_deletion {s : Collected} (h : Filed s) (d : Bytes × ℕ) : Filed (applyDeletion s d) where
  storage := h.storage.retain _
  balances := h.balances.keepGreatest rfl
  nonces := h.nonces.keepGreatest rfl
  codes := h.codes.keepGreatest rfl
  lifecycle := filed_addEffects h.lifecycle _

theorem filed_deletions {s : Collected} (h : Filed s) (ds : List (Bytes × ℕ)) :
    Filed (ds.foldl applyDeletion s) := by
  induction ds generalizing s with
  | nil => exact h
  | cons d ds ih => exact ih (filed_deletion h d)

theorem storageEntry_filed {c : Collect.StorageChange} {e : SlotKey × StorageValue}
    (h : storageEntry c = .ok e) : (ofLex e.1).1 = hex c.address ∧ e.2.address = hex c.address := by
  obtain ⟨slot,-,h⟩ := bind_ok.mp h
  obtain ⟨value,-,h⟩ := bind_ok.mp h
  obtain rfl := pure_ok.mp h
  exact ⟨rfl,rfl⟩

theorem codeEntry_filed {c : Collect.CodeChange} {e : String × CodeValue} (h : codeEntry c = .ok e) :
    e.1 = hex c.address ∧ e.2.address = hex c.address := by
  obtain ⟨_,-,h⟩ := bind_ok.mp h
  obtain rfl := pure_ok.mp h
  exact ⟨rfl,rfl⟩

section Maps
variable {F G : Filter} {block : Eth.Block}

theorem restrict_addEffects (m : SortedMap EffectKey LifecycleEffect) (l : List LifecycleEffect) :
    (addEffects m l).restrict (fun k => named F (ofLex k).1) =
      addEffects (m.restrict (fun k => named F (ofLex k).1)) (l.filter (named F ·.address)) := by
  rw [addEffects, SortedMap.restrict_insertAll, List.filter_map]
  rfl

theorem restrict_deletion (hF : F.isEmpty = false) (s : Collected) (d : Bytes × ℕ) :
    restrictMaps F (applyDeletion s d) =
      if F.matchesAccount d.1 then applyDeletion (restrictMaps F s) d else restrictMaps F s := by
  have hd := named_hex hF d.1
  by_cases h : F.matchesAccount d.1
  · rw [if_pos h]
    rw [h] at hd
    simp only [restrictMaps, applyDeletion, restrict_addEffects, SortedMap.restrict_retain,
      SortedMap.restrict_keepGreatest, hd, if_true, List.filter_cons, List.filter_nil]
  · rw [if_neg h]
    rw [Bool.not_eq_true] at h
    rw [h] at hd
    have hstorage : (s.storage.retain (fun k v => (ofLex k).1 ≠ hex d.1 || d.2 < v.ordinal)).restrict
        (fun k => named F (ofLex k).1) = s.storage.restrict (fun k => named F (ofLex k).1) := by
      ext k : 1
      rw [SortedMap.get?_restrict, SortedMap.get?_restrict, SortedMap.get?_retain]
      split
      · rename_i hk
        have hne : (ofLex k).1 ≠ hex d.1 := fun he => by simp [he, hd] at hk
        cases s.storage.get? k <;> simp [hne]
      · rfl
    simp only [restrictMaps, applyDeletion, restrict_addEffects, SortedMap.restrict_keepGreatest, hd,
      hstorage, Bool.false_eq_true, if_false, List.filter_cons, List.filter_nil]
    rfl

theorem restrict_deletions (hF : F.isEmpty = false) (s : Collected) (ds : List (Bytes × ℕ)) :
    restrictMaps F (ds.foldl applyDeletion s) =
      (ds.filter (fun d => F.matchesAccount d.1)).foldl applyDeletion (restrictMaps F s) := by
  induction ds generalizing s with
  | nil => rfl
  | cons d ds ih =>
    rw [List.foldl_cons, ih, restrict_deletion hF]
    by_cases hd : F.matchesAccount d.1 <;> simp [hd]

theorem selfdestruct_below (hF : F.isEmpty = false) (h : Below F G) {tx : Eth.TransactionTrace}
    {call : Eth.Call} {e : Option LifecycleEffect} (he : selfdestructEffect G tx call = .ok e) :
    selfdestructEffect F tx call = .ok (e.filter (named F ·.address)) := by
  obtain ⟨account,ha,he⟩ := bind_ok.mp he
  obtain rfl := pure_ok.mp he
  refine bind_ok.mpr ⟨account,ha,pure_ok.mpr ?_⟩
  have hs := select_below (LifecycleEffect.mk (hex account) .selfdestruct call.endOrdinal)
    (named F ·.address) (fun _ => G.matchesAccount account)
    (fun hn => h account (named_hex hF account ▸ hn))
  rwa [named_hex hF account] at hs

theorem transactionEffects_below (hF : F.isEmpty = false) (h : Below F G)
    {tx : Eth.TransactionTrace} {es : List LifecycleEffect} (he : transactionEffects G tx = .ok es) :
    transactionEffects F tx = .ok (es.filter (named F ·.address)) := by
  unfold transactionEffects at he ⊢
  split at he
  · obtain ⟨effects,hm,he⟩ := bind_ok.mp he
    obtain rfl := pure_ok.mp he
    rw [if_pos ‹_›]
    refine bind_ok.mpr ⟨_,mapM_image hm (fun _ _ => selfdestruct_below hF h),pure_ok.mpr ?_⟩
    simp only [List.reduceOption, List.filterMap_map, List.filter_filterMap]
    rfl
  · rw [if_neg ‹_›]
    cases he
    rfl

/-- Effects of the changes that a filter keeps are the effects it keeps. -/
theorem filterMap_owned {α β : Type} {f : α → Option β} {p : α → Bool} {q : β → Bool}
    (h : ∀ a b, f a = some b → q b = p a) (l : List α) :
    (l.filter p).filterMap f = (l.filterMap f).filter q := by
  induction l with
  | nil => rfl
  | cons a l ih =>
    rw [List.filter_cons, List.filterMap_cons]
    cases hf : f a with
    | none => by_cases hp : p a <;> simp [hp, hf, ih]
    | some b => by_cases hp : p a <;> simp [hp, hf, ih, h a b hf]

theorem nonceEffect_below (hF : F.isEmpty = false) (l : List Collect.NonceChange) :
    (l.filter (F.matchesAccount ·.address)).filterMap nonceEffect =
      (l.filterMap nonceEffect).filter (named F ·.address) := by
  refine filterMap_owned (fun c e he => ?_) l
  simp only [nonceEffect, Option.ite_none_right_eq_some, Option.some.injEq] at he
  rw [← he.2, named_hex hF]

theorem codeEffect_below (hF : F.isEmpty = false) (l : List Collect.CodeChange) :
    (l.filter (F.matchesAccount ·.address)).filterMap codeEffect =
      (l.filterMap codeEffect).filter (named F ·.address) := by
  refine filterMap_owned (fun c e he => ?_) l
  simp only [codeEffect, Option.ite_none_right_eq_some, Option.some.injEq] at he
  rw [← he.2, named_hex hF]

theorem collapse_filed {seconds : ℕ} {changes : Collect.StateChanges} {s : Collected}
    (hs : collapse G block seconds changes = .ok s) : Filed s := by
  obtain ⟨storage,hst,hs⟩ := bind_ok.mp hs
  obtain ⟨codes,hco,hs⟩ := bind_ok.mp hs
  obtain ⟨destructed,-,hs⟩ := bind_ok.mp hs
  obtain ⟨deleted,-,hs⟩ := bind_ok.mp hs
  obtain rfl := pure_ok.mp hs
  refine filed_deletions ⟨?_,?_,?_,?_,filed_addEffects .empty _⟩ _
  · refine SortedMap.Entrywise.empty.insertAll (fun e he => ?_)
    obtain ⟨c,-,hc⟩ := (Timeline.exists_related (mapM_ok.mp hst)).2 e he
    exact (storageEntry_filed hc).2.trans (storageEntry_filed hc).1.symm
  · refine SortedMap.Entrywise.empty.insertAll (fun e he => ?_)
    obtain ⟨c,-,rfl⟩ := List.mem_map.mp he
    rfl
  · refine SortedMap.Entrywise.empty.insertAll (fun e he => ?_)
    obtain ⟨c,-,rfl⟩ := List.mem_map.mp he
    rfl
  · refine SortedMap.Entrywise.empty.insertAll (fun e he => ?_)
    obtain ⟨c,-,hc⟩ := (Timeline.exists_related (mapM_ok.mp hco)).2 e he
    exact (codeEntry_filed hc).2.trans (codeEntry_filed hc).1.symm

theorem collapse_restrict (hF : F.isEmpty = false) (h : Below F G) {seconds : ℕ}
    {changes : Collect.StateChanges} {s : Collected}
    (hs : collapse G block seconds changes = .ok s) :
    collapse F block seconds (restrictChanges F changes) = .ok (restrictMaps F s) := by
  obtain ⟨storage,hst,hs⟩ := bind_ok.mp hs
  obtain ⟨codes,hco,hs⟩ := bind_ok.mp hs
  obtain ⟨destructed,hde,hs⟩ := bind_ok.mp hs
  obtain ⟨deleted,hdel,hs⟩ := bind_ok.mp hs
  obtain rfl := pure_ok.mp hs
  have hstF := mapM_filter (p := (F.matchesAccount ·.address))
    (q := fun e : SlotKey × StorageValue => named F (ofLex e.1).1) hst
    (fun c e he => by rw [(storageEntry_filed he).1, named_hex hF])
  have hcoF := mapM_filter (p := (F.matchesAccount ·.address))
    (q := fun e : String × CodeValue => named F e.1) hco
    (fun c e he => by rw [(codeEntry_filed he).1, named_hex hF])
  have hdeF := mapM_image hde (fun _ _ => transactionEffects_below hF h)
  have hdeleted : (deleted.entries.filter (fun e => G.matchesAccount e.1)).filter
      (fun e => F.matchesAccount e.1) = deleted.entries.filter (fun e => F.matchesAccount e.1) := by
    rw [List.filter_filter]
    refine List.filter_congr (fun e _ => ?_)
    by_cases he : F.matchesAccount e.1
    · simp [he, h _ he]
    · simp [he]
  refine bind_ok.mpr ⟨_,hstF,bind_ok.mpr ⟨_,hcoF,bind_ok.mpr ⟨_,hdeF,bind_ok.mpr ⟨_,hdel,
    pure_ok.mpr ?_⟩⟩⟩⟩
  rw [restrict_deletions hF, hdeleted]
  refine congrArg (List.foldl applyDeletion · _) ?_
  simp only [restrictMaps, restrictChanges, restrict_addEffects, SortedMap.restrict_insertAll,
    SortedMap.restrict_empty, List.filter_append, List.filter_flatten, List.filter_map,
    nonceEffect_below hF, codeEffect_below hF, Collected.mk.injEq, true_and, and_true]
  constructor
  · refine congrArg _ (congrArg _ (List.filter_congr (fun c _ => ?_)))
    exact (named_hex hF c.address).symm
  · refine congrArg _ (congrArg _ (List.filter_congr (fun c _ => ?_)))
    exact (named_hex hF c.address).symm

theorem checkBlock_below {r : Eth.BlockHeader × Eth.Timestamp} (hF : F.isEmpty = false)
    (hr : checkBlock G block = .ok r) : checkBlock F block = .ok r := by
  obtain ⟨u,-,hr⟩ := bind_ok.mp hr
  exact bind_ok.mpr ⟨u,ensure_ok.mpr hF,hr⟩

theorem project_restrict {params params' : String} {t : BlockState}
    (hpF : Filter.parse params = .ok F) (hpG : Filter.parse params' = .ok G)
    (hF : F.isEmpty = false) (h : Below F G) (ht : project params' block = .ok t) :
    project params block = .ok (restrictState F t) := by
  obtain ⟨G',hG',ht⟩ := bind_ok.mp ht
  obtain rfl : G = G' := Except.ok.inj (hpG.symm.trans hG')
  obtain ⟨⟨header,time⟩,hc,ht⟩ := bind_ok.mp ht
  obtain ⟨changes,hch,ht⟩ := bind_ok.mp ht
  obtain ⟨s,hs,ht⟩ := bind_ok.mp ht
  obtain rfl := pure_ok.mp ht
  have hsF := collapse_restrict hF h hs
  have hfiled := collapse_filed hs
  refine bind_ok.mpr ⟨F,hpF,bind_ok.mpr ⟨_,checkBlock_below hF hc,bind_ok.mpr
    ⟨_,collect_restrict hpF hpG h hch,bind_ok.mpr ⟨_,hsF,pure_ok.mpr ?_⟩⟩⟩⟩
  simp only [restrictState, restrictMaps, BlockState.mk.injEq, true_and]
  exact ⟨SortedMap.values_restrict (fun k v hv => congrArg _ (hfiled.storage k v hv)),
    SortedMap.values_restrict (fun k v hv => congrArg _ (hfiled.balances k v hv)),
    SortedMap.values_restrict (fun k v hv => congrArg _ (hfiled.nonces k v hv)),
    SortedMap.values_restrict (fun k v hv => congrArg _ (hfiled.codes k v hv)),
    SortedMap.values_restrict (fun k v hv => congrArg _ (hfiled.lifecycle k v hv))⟩

end Maps

/-- A projection under a larger filter decides the one under a smaller: its
rows are those of the smaller filter's accounts, in the same order. Collected
changes are restricted in the same way, also from the match-all filter. -/
theorem filter_noninterference {params params' : String} {F G : Filter}
    (hpF : Filter.parse params = .ok F) (hpG : Filter.parse params' = .ok G)
    (hF : F.isEmpty = false) (hFG : F.accounts ⊆ G.accounts) (block : Eth.Block) :
    (∀ t, project params' block = .ok t → project params block = .ok (restrictState F t)) ∧
    (∀ c, Collect.collect params' block = .ok c →
      Collect.collect params block = .ok (restrictChanges F c)) ∧
    (∀ all E, Filter.parse all = .ok E → E.isEmpty = true → ∀ c, Collect.collect all block = .ok c →
      Collect.collect params block = .ok (restrictChanges F c)) := by
  have hbelow := below_of_subset hF hFG
  exact ⟨fun t ht => project_restrict hpF hpG hF hbelow ht,
    fun c hc => collect_restrict hpF hpG hbelow hc,
    fun all E hE he c hc => collect_restrict hpF hE (below_empty he) hc⟩

def smallParams : String := "0x0404040404040404040404040404040404040404"

def largeParams : String :=
  "0x0808080808080808080808080808080808080808, 0x0404040404040404040404040404040404040404"

def smallFilter : Filter := ⟨[List.replicate 20 4],by decide,by decide⟩

def largeFilter : Filter := ⟨[List.replicate 20 4,List.replicate 20 8],by decide,by decide⟩

def mixedBlock : Eth.Block where
  ver := 5
  hash := List.replicate 32 2
  number := 100
  detailLevel := Eth.detaillevelExtended
  header := some ⟨100,List.replicate 32 1,List.replicate 32 3,[],some ⟨1000,0⟩⟩
  transactionTraces := []
  systemCalls := []
  balanceChanges := [⟨List.replicate 20 8,none,some [1],0,3⟩,⟨List.replicate 20 4,none,some [2],0,2⟩,
    ⟨List.replicate 20 8,none,some [3],0,1⟩]
  codeChanges := []

theorem filter_noninterference_sample :
    (∀ t, project largeParams mixedBlock = .ok t →
      project smallParams mixedBlock = .ok (restrictState smallFilter t)) ∧
    (∀ c, Collect.collect largeParams mixedBlock = .ok c →
      Collect.collect smallParams mixedBlock = .ok (restrictChanges smallFilter c)) ∧
    (∀ all E, Filter.parse all = .ok E → E.isEmpty = true →
      ∀ c, Collect.collect all mixedBlock = .ok c →
        Collect.collect smallParams mixedBlock = .ok (restrictChanges smallFilter c)) :=
  filter_noninterference (F := smallFilter) (G := largeFilter) (by rfl) (by rfl) rfl (by decide)
    mixedBlock

end EvmState.Filtering
