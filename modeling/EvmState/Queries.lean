import EvmState.Store
import EvmState.Lib.Timeline

/-!
# The candidate queries

`unionStorage` merges base rows, prefix rows and raw rows by position and
drops the changes at or before the last reset of their account. The final
value of a key is the one of the greatest position. `observedFields` reads
the account fields the same way, without resets.
-/

set_option autoImplicit false

namespace EvmState.Queries
open EvmState.OrderedMap EvmState.Fallible EvmState.BlockProjection EvmState.Store

/-- One row of the union: a storage value and the position it was set at. -/
structure UnionRow where
  address : String
  slot : String
  value : String
  position : Position
  deriving DecidableEq

structure Reset where
  address : String
  position : Position
  deriving DecidableEq

def identifier (name : String) : Except String Unit :=
  ensure (name ≠ "" ∧ name.toList.all (fun c => c = '_' || c.isAlpha || c.isDigit) ∧
    ¬(name.toList.head?.any Char.isDigit)) "invalid ClickHouse database/table identifier"

def between (db : SourceDb) (first last : ℕ) : List BlockState :=
  db.stateBlocks.rows.filter (fun b => first ≤ b.number && b.number ≤ last)

def rawStorage (blocks : List BlockState) : List UnionRow :=
  blocks.flatMap (fun b => b.storage.map (fun v =>
    ⟨v.address,v.slot,v.value,toLex (b.number,v.ordinal)⟩))

def rawResets (blocks : List BlockState) : List Reset :=
  blocks.flatMap (fun b => (b.lifecycle.filter (fun e => e.kind = .storageReset)).map (fun e =>
    ⟨e.address,toLex (b.number,e.ordinal)⟩))

def prefixStorage (db : SourceDb) (p : Prefix) : List UnionRow :=
  (db.bootstrapStorage.filter (fun r => r.generation = p.generation)).map (fun r =>
    ⟨r.address,r.slot,r.value,toLex (p.header.number,0)⟩)

def baseStorage (checkpoints : CheckpointDb) (base : Base) : List UnionRow :=
  (checkpoints.storage.rows.filter (fun r => r.snapshotId = base.snapshotId)).map (fun r =>
    ⟨r.address,r.slot,r.value,toLex (base.number,0)⟩)

/-- The first block of a source that its raw rows supply. -/
def Source.rawStart (s : Source) : ℕ := s.deltaStart.getD s.startBlock

section Sources
variable (databases : String → SourceDb)

def sourceBlocks (last : ℕ) (s : Source) : List BlockState :=
  between (databases s.database) (Source.rawStart s) last

def sourceStorage (last : ℕ) (s : Source) : List UnionRow :=
  (match s.bootstrap with
    | some p => prefixStorage (databases s.database) p
    | none => []) ++ rawStorage (sourceBlocks databases last s)

def sourceResets (last : ℕ) (s : Source) : List Reset := rawResets (sourceBlocks databases last s)

/-- The left join on the greatest reset of each account. -/
def joinResets (changes : List UnionRow) (resets : List Reset) : List UnionRow :=
  let deletions := SortedMap.argMax id (resets.map (fun r => (r.address,r.position)))
  changes.filter (fun c => (deletions.get? c.address).all (· < c.position))

def unionStorage (checkpoints : CheckpointDb) (sources : List Source) (base : Option Base)
    (last : ℕ) : Except String (List UnionRow) := do
  sources.forM (fun s => identifier s.database)
  ensure (sources ≠ [] ∨ base.isSome) "checkpoint has no source state"
  let changes := sources.flatMap (sourceStorage databases last) ++
    base.elim [] (baseStorage checkpoints)
  return joinResets changes (sources.flatMap (sourceResets databases last))

/-- The greatest position of each key, without the keys left at zero. -/
def finalStorage (union : List UnionRow) : SortedMap SlotKey String :=
  let final := SortedMap.argMax UnionRow.position (union.map (fun c => (toLex (c.address,c.slot),c)))
  SortedMap.mapValues UnionRow.value (final.retain (fun _ c => c.value ≠ zero))

def putFields (result : Fields) (account : String) (fields : List (String × Json)) : Fields :=
  result.insert account (((result.get? account).getD .empty).insertAll fields)

def addGroup {α : Type} (result : Fields) (group : SortedMap String α)
    (fields : α → List (String × Json)) : Fields :=
  group.entries.foldl (fun r e => putFields r e.1 (fields e.2)) result

def accountFields (r : AccountRow) : List (String × Json) :=
  [("nonce",Json.ofNat r.nonce),("balance",.str r.balance),("code_hash",.str r.codeHash),
    ("code",.str r.code)]

def baseFields (checkpoints : CheckpointDb) (base : Base) : Fields :=
  (checkpoints.accounts.rows.filter (fun r => r.snapshotId = base.snapshotId)).foldl
    (fun m r => m.insert r.address (SortedMap.empty.insertAll (accountFields r))) .empty

/-- The value of the greatest position under each account of one group. -/
def latestField {α β : Type} (blocks : List BlockState) (group : BlockState → List α)
    (address : α → String) (ordinal : α → ℕ) (value : α → β) : SortedMap String β :=
  (SortedMap.argMax Prod.fst (blocks.flatMap (fun b => (group b).map (fun v =>
    (address v,((toLex (b.number,ordinal v) : Position),value v)))))).mapValues Prod.snd

def latestBalances (blocks : List BlockState) : SortedMap String String :=
  latestField blocks (·.balances) (·.address) (·.ordinal) (·.value)

def latestNonces (blocks : List BlockState) : SortedMap String ℕ :=
  latestField blocks (·.nonces) (·.address) (·.ordinal) (·.value)

def latestCodes (blocks : List BlockState) : SortedMap String (String × String) :=
  latestField blocks (·.codes) (·.address) (·.ordinal) (fun v => (v.hash,v.code))

def balanceFields (value : String) : List (String × Json) := [("balance",.str value)]

def nonceFields (value : ℕ) : List (String × Json) := [("nonce",Json.ofNat value)]

def codeFields (value : String × String) : List (String × Json) :=
  [("code_hash",.str value.1),("code",.str value.2)]

def streamFields (result : Fields) (blocks : List BlockState) : Fields :=
  addGroup (addGroup (addGroup result (latestBalances blocks) balanceFields)
    (latestNonces blocks) nonceFields) (latestCodes blocks) codeFields

def sourceFields (last : ℕ) (result : Fields) (s : Source) : Fields :=
  streamFields (match s.bootstrap with
    | some p => addGroup result p.fields SortedMap.entries
    | none => result) (sourceBlocks databases last s)

def observedFields (checkpoints : CheckpointDb) (sources : List Source) (base : Option Base)
    (last : ℕ) : Except String Fields := do
  sources.forM (fun s => identifier s.database)
  return sources.foldl (sourceFields databases last) (base.elim .empty (baseFields checkpoints))

end Sources

/-!
## What the queries compute

The rows are read as a history of writes and wipes. The storage query gives
the held values other than zero, and a group query the held value of each
account.
-/

open EvmState.Timeline

def unionHistory (changes : List UnionRow) (resets : List Reset) :
    History Position String String String where
  wrote p a k v := ⟨a,k,v,p⟩ ∈ changes
  wiped p a := ⟨a,p⟩ ∈ resets

theorem mem_joinResets {changes : List UnionRow} {resets : List Reset} {c : UnionRow} :
    c ∈ joinResets changes resets ↔
      c ∈ changes ∧ ∀ p, ⟨c.address,p⟩ ∈ resets → p < c.position := by
  have htop := SortedMap.argMax_tops id (resets.map (fun r => (r.address,r.position))) c.address
  simp only [joinResets, List.mem_filter, Option.all_eq_true, decide_eq_true_eq]
  refine and_congr_right (fun _ => ⟨fun h p hp => ?_,fun h p hp => ?_⟩)
  · obtain ⟨q,hq,hpq⟩ := htop.2 p (List.mem_map.mpr ⟨_,hp,rfl⟩)
    exact lt_of_le_of_lt hpq (h q hq)
  · obtain ⟨r,hr,he⟩ := List.mem_map.mp (htop.1 p hp)
    obtain ⟨ha,rfl⟩ := Prod.mk.inj he
    exact h _ (ha ▸ hr)

theorem finalStorage_holds {changes : List UnionRow} {resets : List Reset}
    (hf : Functional (unionHistory changes resets)) {a k v : String} :
    (finalStorage (joinResets changes resets)).get? (toLex (a,k)) = some v ↔
      Holds (unionHistory changes resets) a k v ∧ v ≠ zero := by
  have htop := SortedMap.argMax_tops UnionRow.position ((joinResets changes resets).map
    (fun c => ((toLex (c.address,c.slot) : SlotKey),c))) (toLex (a,k))
  have hmem : ∀ c : UnionRow, ((toLex (a,k) : SlotKey),c) ∈ (joinResets changes resets).map
      (fun c => ((toLex (c.address,c.slot) : SlotKey),c)) ↔
      (c ∈ joinResets changes resets ∧ c.address = a ∧ c.slot = k) := by
    simp [Prod.ext_iff]
  simp only [finalStorage, SortedMap.get?_mapValues, SortedMap.get?_retain, Option.map_eq_some_iff,
    Option.filter_eq_some_iff, decide_eq_true_eq]
  constructor
  · rintro ⟨c,⟨hc,hz⟩,rfl⟩
    obtain ⟨hj,rfl,rfl⟩ := (hmem c).mp (htop.1 c hc)
    obtain ⟨hch,hr⟩ := mem_joinResets.mp hj
    refine ⟨⟨c.position,hch,?_,hr⟩,hz⟩
    intro q w hq
    by_cases hin : (⟨c.address,c.slot,w,q⟩ : UnionRow) ∈ joinResets changes resets
    · obtain ⟨d,hd,hle⟩ := htop.2 _ ((hmem _).mpr ⟨hin,rfl,rfl⟩)
      obtain rfl : c = d := Option.some.inj (hc.symm.trans hd)
      exact hle
    · -- the write was dropped, so a reset stands at or after it
      rw [mem_joinResets, not_and] at hin
      have hdrop := hin hq
      simp only [not_forall, not_lt, exists_prop] at hdrop
      obtain ⟨p,hp,hqp⟩ := hdrop
      exact hqp.trans (hr p hp).le
  · rintro ⟨⟨p,hw,hm,hr⟩,hz⟩
    have hin : (⟨a,k,v,p⟩ : UnionRow) ∈ joinResets changes resets := mem_joinResets.mpr ⟨hw,hr⟩
    obtain ⟨d,hd,hle⟩ := htop.2 _ ((hmem _).mpr ⟨hin,rfl,rfl⟩)
    obtain ⟨hj,rfl,rfl⟩ := (hmem d).mp (htop.1 d hd)
    have hdw := (mem_joinResets.mp hj).1
    have hdp : d.position = p := le_antisymm (hm d.position d.value hdw) hle
    have hdv : d.value = v := hf p d.address d.slot d.value v (hdp ▸ hdw) hw
    exact ⟨d,⟨hd,hdv ▸ hz⟩,hdv⟩

def blockStorage (b : BlockState) : History ℕ String String String where
  wrote o a k v := ⟨a,k,v,o⟩ ∈ b.storage
  wiped o a := ⟨a,.storageReset,o⟩ ∈ b.lifecycle

theorem unionHistory_raw (blocks : List BlockState) :
    unionHistory (rawStorage blocks) (rawResets blocks) =
      stack BlockState.number blockStorage blocks := by
  have hw : ∀ p a k v, (⟨a,k,v,p⟩ : UnionRow) ∈ rawStorage blocks ↔
      (stack BlockState.number blockStorage blocks).wrote p a k v := by
    intro p a k v
    simp only [rawStorage, List.mem_flatMap, List.mem_map, stack, blockStorage]
    refine exists_congr (fun b => and_congr_right (fun _ => ⟨?_,?_⟩))
    · rintro ⟨⟨a',k',v',o⟩,hx,he⟩
      cases he
      exact ⟨rfl,hx⟩
    · rintro ⟨hn,hx⟩
      exact ⟨_,hx,by rw [hn]; rfl⟩
  have hr : ∀ p a, (⟨a,p⟩ : Reset) ∈ rawResets blocks ↔
      (stack BlockState.number blockStorage blocks).wiped p a := by
    intro p a
    simp only [rawResets, List.mem_flatMap, List.mem_map, List.mem_filter, decide_eq_true_eq, stack,
      blockStorage]
    refine exists_congr (fun b => and_congr_right (fun _ => ⟨?_,?_⟩))
    · rintro ⟨⟨a',k',o⟩,⟨hx,rfl⟩,he⟩
      cases he
      exact ⟨rfl,hx⟩
    · rintro ⟨hn,hx⟩
      exact ⟨_,⟨hx,rfl⟩,by rw [hn]; rfl⟩
  simp only [unionHistory, hw, hr]

section Group
variable {α β : Type} (group : BlockState → List α) (address : α → String) (ordinal : α → ℕ)
  (value : α → β)

def blockField (b : BlockState) : History ℕ String Unit β where
  wrote o a _ x := ∃ v ∈ group b, address v = a ∧ ordinal v = o ∧ value v = x
  wiped _ _ := False

def groupHistory (blocks : List BlockState) : History Position String Unit β :=
  stack BlockState.number (blockField group address ordinal value) blocks

theorem latestField_holds {blocks : List BlockState}
    (hf : Functional (groupHistory group address ordinal value blocks)) {a : String} {x : β} :
    (latestField blocks group address ordinal value).get? a = some x ↔
      Holds (groupHistory group address ordinal value blocks) a () x := by
  let l := blocks.flatMap (fun b => (group b).map (fun v =>
    (address v,((toLex (b.number,ordinal v) : Position),value v))))
  have htop := SortedMap.argMax_tops Prod.fst l a
  have hmem : ∀ p y, (a,(p,y)) ∈ l ↔
      (groupHistory group address ordinal value blocks).wrote p a () y := by
    intro p y
    simp only [l, List.mem_flatMap, List.mem_map, groupHistory, stack, blockField]
    refine exists_congr (fun b => and_congr_right (fun _ => ⟨?_,?_⟩))
    · rintro ⟨v,hv,he⟩
      cases he
      exact ⟨rfl,v,hv,rfl,rfl,rfl⟩
    · rintro ⟨hn,v,hv,rfl,ho,rfl⟩
      exact ⟨v,hv,by rw [hn, ho]; rfl⟩
  rw [latestField, SortedMap.get?_mapValues, Option.map_eq_some_iff]
  constructor
  · rintro ⟨⟨p,_⟩,hp,rfl⟩
    refine ⟨p,(hmem p _).mp (htop.1 _ hp),fun q w hq => ?_,fun q hq => ?_⟩
    · obtain ⟨e,he,hle⟩ := htop.2 _ ((hmem q w).mpr hq)
      obtain rfl := Option.some.inj (hp.symm.trans he)
      exact hle
    · obtain ⟨_,_,_,h⟩ := hq
      exact h.elim
  · rintro ⟨p,hw,hm,-⟩
    obtain ⟨⟨q,w⟩,he,hle⟩ := htop.2 _ ((hmem p x).mpr hw)
    have hq := (hmem q w).mp (htop.1 _ he)
    obtain rfl : q = p := le_antisymm (hm q w hq) hle
    obtain rfl := hf q a () x w hw hq
    exact ⟨_,he,rfl⟩

theorem latestField_some {blocks : List BlockState} {p : Position} {a : String} {x : β}
    (h : (groupHistory group address ordinal value blocks).wrote p a () x) :
    ∃ y, (latestField blocks group address ordinal value).get? a = some y := by
  obtain ⟨b,hb,hn,v,hv,rfl,ho,rfl⟩ := h
  have hin : (address v,((toLex (b.number,ordinal v) : Position),value v)) ∈
      blocks.flatMap (fun b => (group b).map (fun v =>
        (address v,((toLex (b.number,ordinal v) : Position),value v)))) :=
    List.mem_flatMap.mpr ⟨b,hb,List.mem_map.mpr ⟨v,hv,rfl⟩⟩
  obtain ⟨e,he,-⟩ := (SortedMap.argMax_tops Prod.fst _ _).2 _ hin
  exact ⟨e.2,by rw [latestField, SortedMap.get?_mapValues, he]; rfl⟩

end Group

/-- The fields of an account after a group that may have a value for it. -/
def overlay {α : Type} (m : Option (SortedMap String Json)) (v : Option α)
    (fields : α → List (String × Json)) : Option (SortedMap String Json) :=
  v.elim m (fun v => some ((m.getD .empty).insertAll (fields v)))

theorem get?_addGroup {α : Type} (r : Fields) (g : SortedMap String α)
    (fields : α → List (String × Json)) (a : String) :
    (addGroup r g fields).get? a = overlay (r.get? a) (g.get? a) fields := by
  have hstep : ∀ (s : Fields) (e : String × α) k, (putFields s e.1 (fields e.2)).get? k =
      if k = e.1 then some (((s.get? k).getD .empty).insertAll (fields e.2)) else s.get? k := by
    intro s e k
    rw [putFields, SortedMap.get?_insert]
    split_ifs with h
    · rw [h]
    · rfl
  exact SortedMap.read_foldl SortedMap.get? (fun m v => some ((m.getD .empty).insertAll (fields v)))
    hstep g.entries_distinct r a

def overlayAll (m : Option (SortedMap String Json)) (b : Option String) (n : Option ℕ)
    (c : Option (String × String)) : Option (SortedMap String Json) :=
  overlay (overlay (overlay m b balanceFields) n nonceFields) c codeFields

def fieldAt (m : Option (SortedMap String Json)) (name : String) : Option Json := m.bind (·.get? name)

theorem fieldAt_overlay {α : Type} (m : Option (SortedMap String Json)) (v : Option α)
    {fields : α → List (String × Json)}
    (hf : ∀ x, (fields x).Pairwise (fun a b => a.1 ≠ b.1)) (name : String) :
    fieldAt (overlay m v fields) name =
      (v.bind (fun x => lookup name (fields x))).or (fieldAt m name) := by
  cases v with
  | none => rfl
  | some x =>
    simp only [overlay, Option.elim_some, fieldAt, Option.bind_some, SortedMap.get?_insertAll _ (hf x)]
    cases m <;> rfl

theorem isSome_overlay {α : Type} (m : Option (SortedMap String Json)) (v : Option α)
    (fields : α → List (String × Json)) : (overlay m v fields).isSome = (v.isSome || m.isSome) := by
  cases v <;> rfl

theorem fields_ext {m n : Option (SortedMap String Json)} (hs : m.isSome = n.isSome)
    (h : ∀ name, fieldAt m name = fieldAt n name) : m = n := by
  cases m with
  | none => cases n <;> simp_all
  | some m =>
    cases n with
    | none => simp at hs
    | some n => exact congrArg some (SortedMap.ext h)

theorem fieldAt_overlayAll (m : Option (SortedMap String Json)) (b : Option String) (n : Option ℕ)
    (c : Option (String × String)) (name : String) :
    fieldAt (overlayAll m b n c) name =
      (c.bind (fun x => lookup name (codeFields x))).or
        ((n.bind (fun x => lookup name (nonceFields x))).or
          ((b.bind (fun x => lookup name (balanceFields x))).or (fieldAt m name))) := by
  rw [overlayAll, fieldAt_overlay _ _ (fun x => by simp [codeFields]),
    fieldAt_overlay _ _ (fun x => by simp [nonceFields]),
    fieldAt_overlay _ _ (fun x => by simp [balanceFields])]

/-- Two rounds of groups are one round of the later values, where it has
them, and else of the earlier ones. -/
theorem overlayAll_overlayAll (m : Option (SortedMap String Json)) (b b' : Option String)
    (n n' : Option ℕ) (c c' : Option (String × String)) :
    overlayAll (overlayAll m b n c) b' n' c' = overlayAll m (b'.or b) (n'.or n) (c'.or c) := by
  apply fields_ext
  · simp only [overlayAll, isSome_overlay, Option.isSome_or]
    cases b.isSome <;> cases n.isSome <;> cases c.isSome <;> simp
  · intro name
    simp only [fieldAt_overlayAll]
    by_cases hc : name = "code_hash" ∨ name = "code"
    · rcases hc with rfl | rfl <;> cases c' <;> cases c <;>
        simp [codeFields, nonceFields, balanceFields, lookup]
    · have hcode : ∀ x, lookup name (codeFields x) = none := by
        intro x
        simp only [not_or] at hc
        simp [codeFields, lookup, hc.1, hc.2]
      by_cases hn : name = "nonce"
      · subst hn
        cases n' <;> cases n <;> simp [hcode, nonceFields, balanceFields, lookup]
      · have hnonce : ∀ x, lookup name (nonceFields x) = none := by
          simp [nonceFields, lookup, hn]
        cases b' <;> cases b <;> simp [hcode, hnonce]
        rename_i x y
        by_cases hb : name = "balance" <;> simp [balanceFields, lookup, hb]

theorem get?_streamFields (r : Fields) (blocks : List BlockState) (a : String) :
    (streamFields r blocks).get? a = overlayAll (r.get? a) ((latestBalances blocks).get? a)
      ((latestNonces blocks).get? a) ((latestCodes blocks).get? a) := by
  simp only [streamFields, get?_addGroup, overlayAll]

end EvmState.Queries
