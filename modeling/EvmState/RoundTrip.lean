import EvmState.Export

/-!
# Export, verification and import agree

What an export wrote is verified again from its files alone, and an import of
it stores the same rows under a new snapshot. The import verifies what it
stored in a way of its own, and finds what the verification of the files found.
-/

set_option autoImplicit false

namespace EvmState.RoundTrip
open EvmState.Hex EvmState.Fallible EvmState.OrderedMap EvmState.Store EvmState.Encoding
open EvmState.Params EvmState.Bootstrap EvmState.Proof EvmState.Header EvmState.Build EvmState.Crash
open EvmState.Text EvmState.PrettyJson EvmState.Reader EvmState.Publication
open EvmState.Portable EvmState.Importer EvmState.Export

def moved (snapshotId : String) (r : AccountRow) : AccountRow := { r with snapshotId := snapshotId }

def movedSlot (snapshotId : String) (r : StorageRow) : StorageRow := { r with snapshotId := snapshotId }

def exportedJson (r : AccountRow) : Json :=
  .ofPairs [("address",.str r.address),("exists",.bool r.exists),("nonce",.str (toString r.nonce)),
    ("balance",.str r.balance),("storage_root",.str r.storageRoot),("code_hash",.str r.codeHash),
    ("code",.str r.code),("nonzero_slots",.ofNat r.nonzeroSlots)]

theorem obj_ext {m n : SortedMap String Json} (h : ∀ k, m.get? k = n.get? k) :
    Json.obj m.entries = .obj n.entries := by rw [SortedMap.ext h]

def accountFields (r : AccountRow) (nonce : Json) : List (String × Json) :=
  [("address",.str r.address),("exists",.bool r.exists),("nonce",nonce),("balance",.str r.balance),
    ("storage_root",.str r.storageRoot),("code_hash",.str r.codeHash),("code",.str r.code),
    ("nonzero_slots",.ofNat r.nonzeroSlots)]

theorem accountFields_distinct (r : AccountRow) (nonce : Json) :
    (accountFields r nonce).Pairwise (fun a b => a.1 ≠ b.1) := by simp [accountFields]

theorem set_nonce (r : AccountRow) (nonce nonce' : Json) :
    (Json.ofPairs (accountFields r nonce)).set "nonce" nonce' = .ofPairs (accountFields r nonce') := by
  refine obj_ext (m := (SortedMap.empty.insertAll (accountFields r nonce)).insert "nonce" nonce')
    (fun k => ?_)
  have hget : ∀ nonce, (SortedMap.empty.insertAll (accountFields r nonce)).get? k =
      lookup k (accountFields r nonce) := fun nonce =>
    Json.get?_ofPairs (accountFields_distinct r nonce) k
  rw [SortedMap.get?_insert, hget, hget]
  by_cases hk : k = "nonce"
  · subst hk
    simp [accountFields, lookup]
  · simp [accountFields, lookup, hk]

theorem set_slots (r : AccountRow) (nonce : Json) :
    (Json.ofPairs (accountFields r nonce)).set "nonzero_slots" (.ofNat r.nonzeroSlots) =
      .ofPairs (accountFields r nonce) := by
  refine obj_ext (m := (SortedMap.empty.insertAll (accountFields r nonce)).insert "nonzero_slots"
    (.ofNat r.nonzeroSlots)) (fun k => ?_)
  have hget : (SortedMap.empty.insertAll (accountFields r nonce)).get? k =
      lookup k (accountFields r nonce) := Json.get?_ofPairs (accountFields_distinct r nonce) k
  rw [SortedMap.get?_insert, hget]
  by_cases hk : k = "nonzero_slots"
  · subst hk
    simp [accountFields, lookup]
  · simp [hk]

theorem accountFields_index (r : AccountRow) (nonce : Json) (name : String) :
    (Json.ofPairs (accountFields r nonce)).index name =
      (lookup name (accountFields r nonce)).getD .null :=
  Json.index_ofPairs (accountFields_distinct r nonce) name

theorem uint_below {n m : ℕ} (h : uint (.ofNat n) = .ok m) : m = n ∧ n < 2^64 := by
  have hu := context_ok.mp h
  have hlt := Json.uint_lt hu
  have hdec : (Json.ofNat n).asU64 = some m := by
    unfold Json.uint at hu
    cases ha : (Json.ofNat n).asU64 with
    | some k =>
      rw [ha] at hu
      exact hu
    | none =>
      rw [ha] at hu
      cases hu
  have hnm := asU64_eq hdec
  exact ⟨hnm.symm,hnm ▸ hlt⟩

theorem exportedAccount_ok {r : AccountRow} {row : Json} : exportedAccount r = .ok row ↔
    r.nonce < 2^64 ∧ r.nonzeroSlots < 2^64 ∧ row = exportedJson r := by
  have hset : ∀ n : ℕ, ((accountJson r).set "nonce" (.str (toString n))) =
      .ofPairs (accountFields r (.str (toString n))) := fun n => set_nonce r (.ofNat r.nonce) _
  have hnonce : (accountJson r).index "nonce" = .ofNat r.nonce :=
    (accountFields_index r (.ofNat r.nonce) _).trans (by simp [accountFields, lookup])
  have hslots : ∀ n : ℕ, (Json.ofPairs (accountFields r (.str (toString n)))).index "nonzero_slots" =
      .ofNat r.nonzeroSlots := fun n => (accountFields_index r _ _).trans (by simp [accountFields, lookup])
  constructor
  · intro h
    obtain ⟨n,hn,h⟩ := bind_ok.mp h
    obtain ⟨m,hm,h⟩ := bind_ok.mp h
    obtain rfl := pure_ok.mp h
    rw [hnonce] at hn
    obtain ⟨rfl,hlt⟩ := uint_below hn
    rw [hset, hslots] at hm
    obtain ⟨rfl,hlt'⟩ := uint_below hm
    refine ⟨hlt,hlt',?_⟩
    rw [hset, set_slots]
    rfl
  · rintro ⟨hn,hm,rfl⟩
    refine bind_ok.mpr ⟨r.nonce,?_,bind_ok.mpr ⟨r.nonzeroSlots,?_,?_⟩⟩
    · rw [hnonce]
      exact context_ok.mpr (Json.uint_ofNat hn)
    · rw [hset, hslots]
      exact context_ok.mpr (Json.uint_ofNat hm)
    · rw [hset, set_slots]
      rfl

theorem exportedJson_simple (d : ℕ) (r : AccountRow) : Json.Simple (d+1) (exportedJson r) := by
  refine Json.simple_ofPairs (by simp only [List.map_cons, List.map_nil]; decide)
    (fun e he => ?_)
  simp only [List.mem_cons, List.not_mem_nil, or_false] at he
  rcases he with rfl | rfl | rfl | rfl | rfl | rfl | rfl | rfl
  · exact Json.simple_str _ _
  · exact Json.simple_bool _ _
  all_goals first
    | exact Json.simple_str _ _
    | exact Json.simple_ofNat _ _

theorem rowJson_simple (d : ℕ) (account : String) (e : String × String) :
    Json.Simple (d+1) (rowJson account e) := by
  refine Json.simple_ofPairs (by simp only [List.map_cons, List.map_nil]; decide)
    (fun f hf => ?_)
  simp only [List.mem_cons, List.not_mem_nil, or_false] at hf
  rcases hf with rfl | rfl | rfl <;> exact Json.simple_str _ _

theorem exact_toString (n : ℕ) : ExactDecimal (toString n) := by
  rcases canonical_toString n with h | ⟨hne,hhead,hdigits⟩
  · exact .inl (String.toList_inj.mp h)
  · refine .inr ⟨hhead,fun h => hne (by rw [h]; rfl),List.all_eq_true.mpr hdigits⟩

theorem exactNonce_toString {n : ℕ} (h : n < 2^64) : exactNonce (.str (toString n)) = .ok n := by
  refine bind_ok.mpr ⟨toString n,rfl,bind_ok.mpr ⟨(),ensure_ok.mpr (exact_toString n),
    context_ok.mpr ?_⟩⟩
  rw [Json.decimal_toString]
  exact Option.filter_eq_some_iff.mpr ⟨rfl,decide_eq_true h⟩

theorem exportedJson_index (r : AccountRow) (name : String) : (exportedJson r).index name =
    (lookup name (accountFields r (.str (toString r.nonce)))).getD .null := accountFields_index r _ name

theorem exportedJson_metadata (r : AccountRow) :
    (exportedJson r).set "nonce" (.ofNat r.nonce) = accountJson r := set_nonce r _ (.ofNat r.nonce)

theorem exportedJson_address (r : AccountRow) : string (exportedJson r) "address" = .ok r.address :=
  string_index ((exportedJson_index r _).trans (by simp [accountFields, lookup]))

theorem insertAll_length {m : SortedMap String Json} {l : List (String × Json)}
    (hd : l.Pairwise (fun a b => a.1 ≠ b.1)) (hn : ∀ e ∈ l, m.get? e.1 = none) :
    (m.insertAll l).entries.length = m.entries.length+l.length := by
  induction l generalizing m with
  | nil => rfl
  | cons e l ih =>
    obtain ⟨hne,hd⟩ := List.pairwise_cons.mp hd
    obtain ⟨hnew,hn⟩ := List.forall_mem_cons.mp hn
    have hone : (m.insert e.1 e.2).entries.length = m.entries.length+1 := length_put_new hnew
    have hrest := @ih (m.insert e.1 e.2) hd (fun f hf => by
      rw [SortedMap.get?_insert, if_neg (hne f hf).symm, hn f hf])
    rw [SortedMap.insertAll, List.foldl_cons, ← SortedMap.insertAll, hrest, hone, List.length_cons]
    omega

theorem exportedJson_valid (r : AccountRow) : validateAccountFields (exportedJson r) = .ok () := by
  have hlength : (SortedMap.empty.insertAll (accountFields r (.str (toString r.nonce)))).entries.length =
      8 := insertAll_length (accountFields_distinct r _) (fun _ _ => rfl)
  have hget : ∀ name, (exportedJson r).get? name = lookup name (accountFields r _) := fun name =>
    Json.get?_ofPairs (accountFields_distinct r (.str (toString r.nonce))) name
  refine bind_ok.mpr ⟨_,rfl,ensure_ok.mpr ⟨hlength,List.all_eq_true.mpr (fun name hname => ?_),?_⟩⟩
  · rw [hget]
    simp only [accountFieldNames, List.mem_cons, List.not_mem_nil, or_false] at hname
    rcases hname with rfl | rfl | rfl | rfl | rfl | rfl | rfl | rfl <;> simp [accountFields, lookup]
  · rw [exportedJson_index]
    cases r.exists <;> simp [accountFields, lookup]

section Rows
variable {codec : Codec} {alloy : Alloy} {platform : Platform} {snapshot : Json}

theorem proveRow_message {account : String} {metadata : Json} {message : String} {a : Account}
    (other : String) (h : proveRow alloy snapshot account metadata message = .ok a) :
    proveRow alloy snapshot account metadata other = .ok a := by
  obtain ⟨root,hroot,h⟩ := bind_ok.mp h
  obtain ⟨a',hproven,h⟩ := bind_ok.mp h
  obtain ⟨_,hsame,h⟩ := bind_ok.mp h
  obtain ⟨_,he,hsame⟩ := bind_ok.mp hsame
  obtain ⟨text,ht,hsame⟩ := bind_ok.mp hsame
  obtain ⟨root',hf,hsame⟩ := bind_ok.mp hsame
  exact bind_ok.mpr ⟨root,hroot,bind_ok.mpr ⟨a',hproven,bind_ok.mpr ⟨(),bind_ok.mpr ⟨(),
    ensure_ok.mpr (ensure_ok.mp he),bind_ok.mpr ⟨text,ht,bind_ok.mpr ⟨root',hf,
    ensure_ok.mpr (ensure_ok.mp hsame)⟩⟩⟩,h⟩⟩⟩

theorem completeRow_message {a : Account} {slots : List (Except String (String × String))}
    {metadata : Json} {message : String} {count : ℕ} (other : String)
    (h : completeRow alloy a slots metadata message = .ok count) :
    completeRow alloy a slots metadata other = .ok count := by
  obtain ⟨code,hcode,h⟩ := bind_ok.mp h
  obtain ⟨n,hn,h⟩ := bind_ok.mp h
  obtain ⟨_,he,h⟩ := bind_ok.mp h
  exact bind_ok.mpr ⟨code,hcode,bind_ok.mpr ⟨n,hn,bind_ok.mpr ⟨(),ensure_ok.mpr (ensure_ok.mp he),h⟩⟩⟩

structure RowVerified (codec : Codec) (alloy : Alloy) (platform : Platform) (disk : Disk) (snapshot : Json)
    (pages : List (ℕ × Json)) (s s' : Verifying) (r : AccountRow) (slots : List (String × String)) :
    Prop where
  proven : ∃ a, proveRow alloy snapshot r.address (accountJson r)
      "exported metadata differs from its proven account" = .ok a ∧
    completeRow alloy a (slots.map .ok) (accountJson r) "exported account storage count mismatch" =
      .ok slots.length
  read : orderedSlots none (flatRows codec platform.fromSlice disk
    (pages.filter (fun e => e.2.index "address" = .str r.address))) = slots.map .ok
  total : s.total+slots.length < 2^64
  after : s' = s.add r.address slots (accountJson r) slots.length

theorem delivered_ok (slots : List (String × String)) : delivered (slots.map .ok) = slots := by
  rw [delivered, List.filterMap_map]
  exact List.filterMap_some

theorem verifyRow_ok {disk : Disk} {pages : List (ℕ × Json)} {s s' : Verifying} {r : AccountRow}
    (hn : r.nonce < 2^64) (hc : address r.address = .ok r.address)
    (h : verifyRow codec alloy platform disk snapshot pages s (exportedJson r) = .ok s') :
    ∃ slots, RowVerified codec alloy platform disk snapshot pages s s' r slots := by
  obtain ⟨_,-,h⟩ := bind_ok.mp h
  obtain ⟨n,hnonce,h⟩ := bind_ok.mp h
  obtain ⟨name,hname,h⟩ := bind_ok.mp h
  obtain ⟨account,haccount,h⟩ := bind_ok.mp h
  have hfield : (exportedJson r).index "nonce" = .str (toString r.nonce) :=
    (exportedJson_index r _).trans (by simp [accountFields, lookup])
  rw [hfield] at hnonce
  obtain rfl := Except.ok.inj ((exactNonce_toString hn).symm.trans hnonce)
  rw [exportedJson_metadata] at hname h
  have haddress : (accountJson r).index "address" = .str r.address :=
    (accountFields_index r _ _).trans (by simp [accountFields, lookup])
  obtain rfl := Except.ok.inj ((string_index haddress).symm.trans hname)
  obtain rfl := Except.ok.inj (hc.symm.trans haccount)
  obtain ⟨a,hproven,h⟩ := bind_ok.mp h
  obtain ⟨count,hcount,h⟩ := bind_ok.mp h
  obtain ⟨_,htotal,h⟩ := bind_ok.mp h
  obtain rfl := pure_ok.mp h
  obtain ⟨-,slots,-,-,hslots,rfl,-,-⟩ := completeRow_ok hcount
  rw [hslots] at hcount
  exact ⟨slots,⟨a,hproven,hcount⟩,hslots,ensure_ok.mp htotal,by rw [hslots, delivered_ok]⟩

/-- The rows that an import stored are verified as the exported ones were. -/
theorem verifyStoredRow_moved {disk : Disk} {pages : List (ℕ × Json)} {s s' : Verifying}
    {r : AccountRow} {slots : List (String × String)} {db : CheckpointDb} {snapshotId : String}
    (h : RowVerified codec alloy platform disk snapshot pages s s' r slots)
    (hs : storedSlots db snapshotId r.address = slots) :
    verifyStoredRow alloy db snapshotId snapshot s (moved snapshotId r) = .ok s' := by
  obtain ⟨a,hproven,hcount⟩ := h.proven
  rw [h.after]
  refine bind_ok.mpr ⟨a,proveRow_message _ hproven,bind_ok.mpr ⟨slots.length,?_,bind_ok.mpr ⟨(),
    ensure_ok.mpr h.total,?_⟩⟩⟩
  · show completeRow alloy a ((storedSlots db snapshotId r.address).map .ok) (accountJson r) _ = _
    rw [hs]
    exact completeRow_message _ hcount
  · show (pure (s.add r.address (storedSlots db snapshotId r.address) (accountJson r) slots.length) :
      Except String Verifying) = _
    rw [hs]
    rfl

end Rows

section Stored
variable {target u db : CheckpointDb} {snapshotId newId account : String}

theorem storedSlots_ext (h : ∀ e, e ∈ storedSlots u newId account ↔ e ∈ storedSlots db snapshotId account) :
    storedSlots u newId account = storedSlots db snapshotId account := by
  have hsorted : ∀ db id, (storedSlots db id account).Pairwise (fun a b => a.1 < b.1) := fun db id =>
    stored_sorted db id account
  have hnodup : ∀ db id, (storedSlots db id account).Nodup := fun db id =>
    (hsorted db id).imp (fun hlt he => absurd (he ▸ hlt) (lt_irrefl _))
  exact ((List.perm_ext_iff_of_nodup (hnodup u newId) (hnodup db snapshotId)).mpr h).eq_of_pairwise
    (fun a b _ _ hab hba => absurd (hab.trans hba) (lt_irrefl _)) (hsorted u newId) (hsorted db snapshotId)

theorem rows_counted {rows : List StorageRow} {accounts : List String} (hn : accounts.Nodup)
    (h : ∀ r ∈ rows, r.address ∈ accounts) :
    rows.length = (accounts.map (fun a => (rows.filter (fun r => r.address = a)).length)).sum := by
  have hsum : ∀ accounts : List String, accounts.Nodup →
      (accounts.map (fun a => (rows.filter (fun r => r.address = a)).length)).sum =
        (rows.filter (fun r => r.address ∈ accounts)).length := by
    intro accounts hn
    induction accounts with
    | nil => simp
    | cons a accounts ih =>
      obtain ⟨ha,hn⟩ := List.nodup_cons.mp hn
      rw [List.map_cons, List.sum_cons, ih hn, filter_account ha]
  rw [hsum accounts hn, List.filter_eq_self.mpr (fun r hr => decide_eq_true (h r hr))]

def movedRows (db : CheckpointDb) (snapshotId newId : String) (accounts : List String) :
    List StorageRow :=
  accounts.flatMap (fun a => (storedSlots db snapshotId a).map (fun e => ⟨newId,a,e.1,e.2⟩))

theorem mem_movedRows {accounts : List String} {r : StorageRow} :
    r ∈ movedRows db snapshotId newId accounts ↔ r.snapshotId = newId ∧ r.address ∈ accounts ∧
      (r.slot,r.value) ∈ storedSlots db snapshotId r.address := by
  simp only [movedRows, List.mem_flatMap, List.mem_map]
  constructor
  · rintro ⟨a,ha,e,he,rfl⟩
    exact ⟨rfl,ha,he⟩
  · rintro ⟨rfl,ha,he⟩
    exact ⟨r.address,ha,_,he,rfl⟩

theorem movedRows_distinct {accounts : List String} (hn : accounts.Nodup) :
    (movedRows db snapshotId newId accounts).Pairwise (fun a b => storageKey a ≠ storageKey b) := by
  refine List.pairwise_flatMap.mpr ⟨fun a _ => List.pairwise_map.mpr ?_,?_⟩
  · refine (stored_sorted db snapshotId a).imp (fun {e f} hlt he => ?_)
    have hslot := (Prod.mk.inj (toLex.injective (Prod.mk.inj (toLex.injective he)).2)).2
    exact absurd hslot hlt.ne
  · refine hn.imp (fun {a b} hne r hr q hq he => hne ?_)
    obtain ⟨e,-,rfl⟩ := List.mem_map.mp hr
    obtain ⟨f,-,rfl⟩ := List.mem_map.mp hq
    exact (Prod.mk.inj (toLex.injective (Prod.mk.inj (toLex.injective he)).2)).1

theorem mem_moved {accounts : List String} (hn : accounts.Nodup) (hu : Unused target newId)
    {r : StorageRow} : r ∈ (target.storage.insertRows (movedRows db snapshotId newId accounts)).rows ↔
      r ∈ target.storage.rows ∨ r ∈ movedRows db snapshotId newId accounts := by
  refine Table.mem_insertRows (movedRows_distinct hn) (fun q hq a ha he => hu.storage a ha ?_)
  rw [← (Prod.mk.inj (toLex.injective he)).1]
  exact (mem_movedRows.mp hq).1

variable {rows : List AccountRow}

def restoredDb (target db : CheckpointDb) (snapshotId newId : String) (rows : List AccountRow) :
    CheckpointDb where
  storage := target.storage.insertRows (movedRows db snapshotId newId (rows.map (·.address)))
  accounts := target.accounts.insertRows (rows.map (moved newId))
  checkpoints := target.checkpoints

theorem restored_slots (hn : (rows.map (·.address)).Nodup) (hu : Unused target newId)
    (ha : account ∈ rows.map (·.address)) :
    storedSlots (restoredDb target db snapshotId newId rows) newId account =
      storedSlots db snapshotId account := by
  refine storedSlots_ext (fun e => ?_)
  rw [mem_storedSlots]
  refine (mem_moved hn hu).trans ?_
  rw [mem_movedRows]
  constructor
  · rintro (h | ⟨-,-,h⟩)
    · exact absurd rfl (hu.storage _ h)
    · exact h
  · exact fun h => .inr ⟨rfl,ha,h⟩

theorem restored_foreign (hn : (rows.map (·.address)).Nodup) (hu : Unused target newId) :
    ∀ r ∈ storageOf (restoredDb target db snapshotId newId rows) newId,
      r.address ∈ rows.map (·.address) := by
  intro r hr
  obtain ⟨hr,hid⟩ := List.mem_filter.mp hr
  rcases (mem_moved hn hu).mp hr with h | h
  · exact absurd (of_decide_eq_true hid) (hu.storage _ h)
  · exact (mem_movedRows.mp h).2.1

theorem moved_sorted (hs : (rows.map (·.address)).Pairwise (· < ·)) :
    (rows.map (moved newId)).Pairwise (fun a b => accountKey a < accountKey b) :=
  List.pairwise_map.mpr ((List.pairwise_map.mp hs).imp (fun {a b} hlt =>
    show accountKey (moved newId a) < accountKey (moved newId b) from
      Prod.Lex.toLex_lt_toLex.mpr (.inr ⟨rfl,hlt⟩)))

theorem restored_accounts (hs : (rows.map (·.address)).Pairwise (· < ·)) (hu : Unused target newId) :
    accountsOf (restoredDb target db snapshotId newId rows) newId = rows.map (moved newId) := by
  let t : Table accountKey := ⟨rows.map (moved newId),moved_sorted hs⟩
  have hselect : (target.accounts.insertRows (rows.map (moved newId))).select
      (fun r => r.snapshotId = newId) = t := by
    ext r
    have hdistinct : (rows.map (moved newId)).Pairwise (fun a b => accountKey a ≠ accountKey b) :=
      (moved_sorted hs).imp (fun h => h.ne)
    have hnew : ∀ q ∈ rows.map (moved newId), ∀ a ∈ target.accounts.rows,
        accountKey q ≠ accountKey a := by
      intro q hq a ha he
      obtain ⟨r,-,rfl⟩ := List.mem_map.mp hq
      exact hu.accounts a ha (Prod.mk.inj (toLex.injective he)).1.symm
    rw [Table.mem_select, Table.mem_insertRows hdistinct hnew]
    constructor
    · rintro ⟨hr | hr,hid⟩
      · exact absurd (of_decide_eq_true hid) (hu.accounts r hr)
      · exact hr
    · intro hr
      obtain ⟨q,-,rfl⟩ := List.mem_map.mp hr
      exact ⟨.inr hr,decide_eq_true rfl⟩
  exact congrArg Table.rows hselect

end Stored

end EvmState.RoundTrip
