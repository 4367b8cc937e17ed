import EvmState.BlockRows

/-!
# Replay of a projected chain

The queries over the rows of a chain compute the state that walking the
chain computes. The rows of each block collapse its events, blocks collapse
together, and the queries give what the collapsed history holds, which is
what the replay of all events holds.
-/

set_option autoImplicit false

namespace EvmState.Replay
open EvmState.Hex EvmState.Fallible EvmState.OrderedMap EvmState.Params EvmState.BlockProjection
open EvmState.Reference EvmState.Timeline EvmState.Store EvmState.Queries EvmState.BlockRows

/-- Everything that happens to the selected accounts of a chain. -/
def chainEvents (filter : Filter) (blocks : List Eth.Block) : List (Position × Effect) :=
  blocks.flatMap (fun b => (blockEvents filter b).map (fun e => (toLex (b.number,e.1),e.2)))

theorem walkChain_walk (filter : Filter) (blocks : List Eth.Block) :
    walkChain filter blocks = walk World.initial ((chainEvents filter blocks).map Prod.snd) := by
  rw [walkChain]
  generalize World.initial = w
  induction blocks generalizing w with
  | nil => rfl
  | cons b blocks ih =>
    rw [List.foldl_cons, ih, walkBlock]
    simp only [chainEvents, walk, List.flatMap_cons, List.map_append, List.map_map,
      List.foldl_append]
    rfl

theorem contiguous_lt {blocks : List Eth.Block} (h : Contiguous blocks) :
    blocks.Pairwise (fun a b => a.number < b.number) := by
  have : IsTrans Eth.Block (fun a b => a.number < b.number) := ⟨fun _ _ _ => lt_trans⟩
  exact (h.imp (fun {a b} hab => by omega)).pairwise

theorem chainEvents_ordered (filter : Filter) {blocks : List Eth.Block} (hc : Contiguous blocks)
    (hd : ∀ b ∈ blocks, DistinctOrdinals b) :
    (chainEvents filter blocks).Pairwise
      (fun x y => x.1 ≤ y.1 ∧ (Conflict x.2 y.2 → x.1 < y.1)) := by
  rw [chainEvents, List.pairwise_flatMap]
  constructor
  · intro b hb
    refine List.pairwise_map.mpr ?_
    unfold blockEvents
    split
    · rename_i records hr
      refine (events_ordered (hd b hb) hr).imp (fun h => ⟨?_,fun hx => ?_⟩)
      · exact Prod.Lex.toLex_le_toLex.mpr (Or.inr ⟨rfl,h.1⟩)
      · exact Prod.Lex.toLex_lt_toLex.mpr (Or.inr ⟨rfl,h.2 hx⟩)
    · exact List.Pairwise.nil
  · refine (contiguous_lt hc).imp (fun hab x hx y hy => ?_)
    obtain ⟨e,-,rfl⟩ := List.mem_map.mp hx
    obtain ⟨d,-,rfl⟩ := List.mem_map.mp hy
    have hlt : (toLex (_,e.1) : Position) < toLex (_,d.1) :=
      Prod.Lex.toLex_lt_toLex.mpr (Or.inl hab)
    exact ⟨hlt.le,fun _ => hlt⟩

section View
variable {A K V A' K' V' : Type} (f : A → A') (g : K → K') (t : V → V')
  (v : Effect → Option (Change A K V)) (filter : Filter)

theorem stack_events (blocks : List Eth.Block) :
    stack Eth.Block.number (fun b => image f g t (ofList (view v (blockEvents filter b)))) blocks =
      image f g t (ofList (view v (chainEvents filter blocks))) := by
  have hmem : ∀ (p : Position) c, (p,c) ∈ view v (chainEvents filter blocks) ↔
      ∃ b ∈ blocks, b.number = (ofLex p).1 ∧ ((ofLex p).2,c) ∈ view v (blockEvents filter b) := by
    intro p c
    simp only [mem_view, chainEvents, List.mem_flatMap, List.mem_map, Prod.mk.injEq]
    constructor
    · rintro ⟨e,⟨b,hb,⟨o,d⟩,hd,rfl,rfl⟩,hc⟩
      exact ⟨b,hb,rfl,d,hd,hc⟩
    · rintro ⟨b,hb,hn,e,he,hc⟩
      exact ⟨e,⟨b,hb,_,he,by rw [hn]; rfl,rfl⟩,hc⟩
  simp only [stack, image, ofList, hmem]
  congr 1
  · ext p a k x
    constructor
    · rintro ⟨b,hb,hn,c,j,y,rfl,rfl,rfl,h⟩
      exact ⟨c,j,y,rfl,rfl,rfl,b,hb,hn,h⟩
    · rintro ⟨c,j,y,rfl,rfl,rfl,b,hb,hn,h⟩
      exact ⟨b,hb,hn,c,j,y,rfl,rfl,rfl,h⟩
  · ext p a
    constructor
    · rintro ⟨b,hb,hn,c,rfl,h⟩
      exact ⟨c,rfl,b,hb,hn,h⟩
    · rintro ⟨c,rfl,b,hb,hn,h⟩
      exact ⟨b,hb,hn,c,rfl,h⟩

end View

def fields (w : World) (a : Bytes) : List (String × Json) :=
  (w.balance a).elim [] (fun v => [("balance",.str (toString v))]) ++
  (w.nonce a).elim [] (fun v => [("nonce",Json.ofNat v)]) ++
  (w.code a).elim [] (fun v => [("code_hash",.str (hex v.1)),("code",.str (hex v.2))])

theorem fields_overlay (w : World) (a : Bytes) :
    overlayAll none ((w.balance a).map toString) (w.nonce a)
      ((w.code a).map (fun x => (hex x.1,hex x.2))) =
      if fields w a = [] then none else some (SortedMap.empty.insertAll (fields w a)) := by
  unfold fields
  cases w.balance a <;> cases w.nonce a <;> cases w.code a <;>
    simp [overlayAll, overlay, balanceFields, nonceFields, codeFields, SortedMap.insertAll]

section Chain
variable {params : String} {filter : Filter} {blocks : List Eth.Block} {rows : List BlockState}

theorem rows_faithful (hf : Filter.parse params = .ok filter)
    (hp : blocks.mapM (project params) = .ok rows) :
    List.Forall₂ (fun row b => row.number = b.number ∧ Faithful row (blockEvents filter b))
      rows blocks := by
  refine List.Forall₂.flip ((mapM_ok.mp hp).imp (fun b row hrow => ?_))
  obtain ⟨hn,-,records,ds,hr,hmade⟩ := project_made hf hrow
  exact ⟨hn,by rw [blockEvents, hr]; exact made_faithful hmade⟩

/-- What the rows of a chain hold is what replaying the chain gives. -/
theorem rows_hold {A K V A' K' V' : Type} [DecidableEq A] [DecidableEq K] {f : A → A'} {g : K → K'}
    {t : V → V'} {v : Effect → Option (Change A K V)} {row : BlockState → History ℕ A' K' V'}
    (hfi : f.Injective) (hgi : g.Injective)
    (hv : ∀ x y c d, v x = some c → v y = some d → Clash c d → Conflict x y)
    (hc : Contiguous blocks) (hd : ∀ b ∈ blocks, DistinctOrdinals b)
    (hr : List.Forall₂ (fun r b => r.number = b.number ∧
      Collapses (row r) (image f g t (ofList (view v (blockEvents filter b))))) rows blocks) :
    Functional (stack BlockState.number row rows) ∧
    ∀ a k x, Holds (stack BlockState.number row rows) a k x ↔
      ∃ b j y, f b = a ∧ g j = k ∧ t y = x ∧
        replay (fun _ _ => none) (view v (chainEvents filter blocks)) b j = some y := by
  have hord := view_ordered (chainEvents_ordered filter hc hd) hv
  have hcol := stack_collapses hr
  rw [stack_events] at hcol
  have hfun := functional_image hfi hgi t (functional_ofList hord)
  refine ⟨functional_of_collapses hcol hfun,fun a k x => ?_⟩
  rw [holds_of_collapses hcol hfun, holds_image hfi hgi]
  simp only [replay_holds _ _ hord]
  simp

theorem slots_hold (hf : Filter.parse params = .ok filter) (hc : Contiguous blocks)
    (hd : ∀ b ∈ blocks, DistinctOrdinals b) (hp : blocks.mapM (project params) = .ok rows)
    (account slot value : String) :
    (finalStorage (joinResets (rawStorage rows) (rawResets rows))).get? (toLex (account,slot)) =
        some value ↔
      ∃ a k, account = hex a ∧ slot = hex k ∧ (walkChain filter blocks).slots a k ≠ zeroWord ∧
        value = hex ((walkChain filter blocks).slots a k) := by
  obtain ⟨hfun,hhold⟩ := rows_hold hex_injective hex_injective storageView_clash hc hd
    ((rows_faithful hf hp).imp (fun _ _ h => ⟨h.1,h.2.storage⟩))
  rw [finalStorage_holds (unionHistory_raw rows ▸ hfun), unionHistory_raw, hhold]
  have hwalk : ∀ a k, (walkChain filter blocks).slots a k =
      (replay (fun _ _ => none) (view storageView (chainEvents filter blocks)) a k).getD zeroWord := by
    rw [walkChain_walk]
    exact walk_view (R := fun w s => ∀ a k, w.slots a k = (s a k).getD zeroWord)
      storageView_step _ (fun _ _ => rfl)
  have hzero : zero = hex zeroWord := by decide
  constructor
  · rintro ⟨⟨a,k,v,rfl,rfl,rfl,hv⟩,hz⟩
    have hs : (walkChain filter blocks).slots a k = v := by rw [hwalk, hv]; rfl
    exact ⟨a,k,rfl,rfl,fun h => hz (by rw [hzero, ← h, hs]),by rw [hs]⟩
  · rintro ⟨a,k,rfl,rfl,hz,rfl⟩
    refine ⟨⟨a,k,_,rfl,rfl,rfl,?_⟩,fun h => hz (hex_injective (h.trans hzero))⟩
    rw [hwalk] at hz ⊢
    cases hr : replay (fun _ _ => none) (view storageView (chainEvents filter blocks)) a k with
    | none => simp [hr] at hz
    | some v => rfl

theorem field_holds {V ν β : Type} (g : Group V ν β) {group : BlockState → List ν} {k : Kind}
    {read : World → Bytes → Option V} (hk : ∀ e w, g.written e = some w → e.kind = k)
    (hread : Reads g.changes read) (hinit : ∀ a, read World.initial a = none)
    (hc : Contiguous blocks) (hd : ∀ b ∈ blocks, DistinctOrdinals b)
    (hr : List.Forall₂ (fun r b => r.number = b.number ∧
      Collapses (blockField group g.address g.ordinal g.value r)
        (image hex id g.text (ofList (view g.changes (blockEvents filter b))))) rows blocks)
    (account : String) (y : β) :
    (latestField rows group g.address g.ordinal g.value).get? account = some y ↔
      ∃ a, hex a = account ∧ (read (walkChain filter blocks) a).map g.text = some y := by
  obtain ⟨hfun,hhold⟩ := rows_hold hex_injective Function.injective_id
    (fieldView_clash hk) hc hd hr
  rw [latestField_holds _ _ _ _ hfun, groupHistory, hhold]
  have hwalk : ∀ a, read (walkChain filter blocks) a =
      replay (fun _ _ => none) (view g.changes (chainEvents filter blocks)) a () := by
    rw [walkChain_walk]
    exact walk_view (R := fun w s => ∀ a, read w a = s a ()) (field_step hread) _ hinit
  simp only [hwalk, Option.map_eq_some_iff]
  constructor
  · rintro ⟨a,_,x,ha,-,rfl,hx⟩
    exact ⟨a,ha,x,hx,rfl⟩
  · rintro ⟨a,ha,x,hx,rfl⟩
    exact ⟨a,(),x,ha,trivial,rfl,hx⟩

theorem fields_hold (hf : Filter.parse params = .ok filter) (hc : Contiguous blocks)
    (hd : ∀ b ∈ blocks, DistinctOrdinals b) (hp : blocks.mapM (project params) = .ok rows)
    (account : String) (m : SortedMap String Json) :
    (streamFields .empty rows).get? account = some m ↔
      ∃ a, account = hex a ∧ fields (walkChain filter blocks) a ≠ [] ∧
        m = SortedMap.empty.insertAll (fields (walkChain filter blocks) a) := by
  have hrows := rows_faithful hf hp
  have hb : ∀ y, (latestBalances rows).get? account = some y ↔
      ∃ a, hex a = account ∧ ((walkChain filter blocks).balance a).map toString = some y :=
    field_holds balances writtenBalance_kind balance_reads (fun _ => rfl) hc hd
      (hrows.imp (fun _ _ h => ⟨h.1,h.2.balances⟩)) account
  have hn : ∀ y, (latestNonces rows).get? account = some y ↔
      ∃ a, hex a = account ∧ ((walkChain filter blocks).nonce a).map id = some y :=
    field_holds nonces writtenNonce_kind nonce_reads (fun _ => rfl) hc hd
      (hrows.imp (fun _ _ h => ⟨h.1,h.2.nonces⟩)) account
  have hco : ∀ y, (latestCodes rows).get? account = some y ↔ ∃ a, hex a = account ∧
      ((walkChain filter blocks).code a).map (fun x => (hex x.1,hex x.2)) = some y :=
    field_holds codes writtenCode_kind code_reads (fun _ => rfl) hc hd
      (hrows.imp (fun _ _ h => ⟨h.1,h.2.codes⟩)) account
  rw [get?_streamFields, SortedMap.get?_empty]
  by_cases ha : ∃ a, hex a = account
  · obtain ⟨a,rfl⟩ := ha
    have at_account : ∀ {β : Type} {m : SortedMap String β} {q : Bytes → Option β},
        (∀ y, m.get? (hex a) = some y ↔ ∃ b, hex b = hex a ∧ q b = some y) →
        m.get? (hex a) = q a := by
      intro β m q h
      ext y
      rw [h]
      constructor
      · rintro ⟨b,hba,hy⟩
        exact hex_injective hba ▸ hy
      · exact fun hy => ⟨a,rfl,hy⟩
    rw [at_account hb, at_account hn, at_account hco, Option.map_id, id_eq, fields_overlay]
    simp only [Option.ite_none_left_eq_some, Option.some.injEq]
    constructor
    · rintro ⟨hne,rfl⟩
      exact ⟨a,rfl,hne,rfl⟩
    · rintro ⟨b,hab,hne,rfl⟩
      obtain rfl := hex_injective hab
      exact ⟨hne,rfl⟩
  · have no_account : ∀ {β : Type} {m : SortedMap String β} {q : Bytes → Option β},
        (∀ y, m.get? account = some y ↔ ∃ b, hex b = account ∧ q b = some y) →
        m.get? account = none := by
      intro β m q h
      refine Option.eq_none_iff_forall_ne_some.mpr (fun y hy => ?_)
      obtain ⟨b,hba,-⟩ := (h y).mp hy
      exact ha ⟨b,hba⟩
    rw [no_account hb, no_account hn, no_account hco]
    constructor
    · simp [overlayAll, overlay]
    · rintro ⟨a,rfl,-⟩
      exact absurd ⟨a,rfl⟩ ha

end Chain

/-- The stored rows of a chain, read by the candidate queries, are the state
of the chain: the nonzero slots of a walk, and of each account the fields
that the walk has written or wiped. -/
theorem replay_refines_walk (databases : String → SourceDb) (checkpoints : CheckpointDb)
    (params : String) (filter : Filter) (blocks : List Eth.Block) (rows : List BlockState)
    (source : Source) (last : ℕ) (hf : Filter.parse params = .ok filter)
    (hc : Contiguous blocks) (hd : ∀ b ∈ blocks, DistinctOrdinals b)
    (hp : blocks.mapM (project params) = .ok rows)
    (hid : identifier source.database = .ok ()) (hb : source.bootstrap = none)
    (hstored : sourceBlocks databases last source = rows) :
    ∃ union observed, unionStorage databases checkpoints [source] none last = .ok union ∧
      observedFields databases checkpoints [source] none last = .ok observed ∧
      (∀ account slot value, (finalStorage union).get? (toLex (account,slot)) = some value ↔
        ∃ a k, account = hex a ∧ slot = hex k ∧ (walkChain filter blocks).slots a k ≠ zeroWord ∧
          value = hex ((walkChain filter blocks).slots a k)) ∧
      ∀ account m, observed.get? account = some m ↔
        ∃ a, account = hex a ∧ fields (walkChain filter blocks) a ≠ [] ∧
          m = SortedMap.empty.insertAll (fields (walkChain filter blocks) a) := by
  refine ⟨joinResets (rawStorage rows) (rawResets rows),streamFields .empty rows,?_,?_,
    slots_hold hf hc hd hp,fields_hold hf hc hd hp⟩
  · simp [unionStorage, hid, sourceStorage, sourceResets, hb, hstored, ensure]
    rfl
  · simp [observedFields, hid, sourceFields, hb, hstored]

/-!
An account that stores a slot, is deleted in the next block and stores
another slot in a later transaction of that block.
-/

def sampleAccount : Bytes := List.replicate 20 4

def sampleParams : String := "0x0404040404040404040404040404040404040404"

def sampleCall : Eth.Call where
  index := 1
  parentIndex := 0
  callTypeCode := 1
  address := sampleAccount
  stateReverted := false
  suicide := false
  beginOrdinal := 1
  endOrdinal := 5
  storageChanges := []
  balanceChanges := []
  nonceChanges := []
  codeChanges := []

def sampleTransaction (endOrdinal : ℕ) (call : Eth.Call) : Eth.TransactionTrace where
  hash := []
  index := 0
  statusCode := 1
  typeCode := 0
  fromAddress := []
  nonce := 0
  endOrdinal := endOrdinal
  calls := [call]
  setCodeAuthorizations := []

def sampleBlock (number : ℕ) (transactions : List Eth.TransactionTrace) : Eth.Block where
  ver := 5
  hash := List.replicate 32 (UInt8.ofNat number)
  number := number
  detailLevel := Eth.detaillevelExtended
  header := some ⟨number,List.replicate 32 (UInt8.ofNat (number-1)),List.replicate 32 3,[],
    some ⟨1000,0⟩⟩
  transactionTraces := transactions
  systemCalls := []
  balanceChanges := []
  codeChanges := []

def sampleStore (key value : UInt8) (ordinal : ℕ) : Eth.Call :=
  { sampleCall with storageChanges := [⟨sampleAccount,[key],[],[value],ordinal⟩] }

def sampleBlocks : List Eth.Block :=
  [sampleBlock 100 [sampleTransaction 9 (sampleStore 1 7 3)],
    sampleBlock 101 [sampleTransaction 9 { sampleCall with suicide := true },
      sampleTransaction 20 (sampleStore 2 9 12)]]

def sampleFilter : Filter := ⟨[sampleAccount],by decide,by decide⟩

def sampleWord (digits : String) : String :=
  "0x" ++ String.ofList (digits.toList.leftpad 64 '0')

def sampleRow (number : ℕ) (hash parentHash : String) : BlockState where
  number := number
  hash := hash
  parentHash := parentHash
  timestamp := 1000
  stateRoot := "0x0303030303030303030303030303030303030303030303030303030303030303"
  producerVersion := 5
  accounts := sampleParams
  schemaVersion := 1
  storage := []
  balances := []
  nonces := []
  codes := []
  lifecycle := []

def sampleRows : List BlockState :=
  [{ sampleRow 100 "0x6464646464646464646464646464646464646464646464646464646464646464"
      "0x6363636363636363636363636363636363636363636363636363636363636363" with
      storage := [⟨sampleParams,sampleWord "1",sampleWord "7",3⟩] },
    { sampleRow 101 "0x6565656565656565656565656565656565656565656565656565656565656565"
      "0x6464646464646464646464646464646464646464646464646464646464646464" with
      storage := [⟨sampleParams,sampleWord "2",sampleWord "9",12⟩]
      balances := [⟨sampleParams,"0",9⟩]
      nonces := [⟨sampleParams,0,9⟩]
      codes := [⟨sampleParams,emptyCodeHash,"0x",9⟩]
      lifecycle := [⟨sampleParams,.selfdestruct,5⟩,⟨sampleParams,.storageReset,9⟩] }]

def sampleSource : Source := ⟨"native",[sampleParams],100,"",none,none,none⟩

def sampleDatabases : String → SourceDb := fun _ => ⟨Table.insertRows .empty sampleRows,.empty,[],[]⟩

theorem replay_refines_walk_sample :
    ∃ union observed,
      unionStorage sampleDatabases .empty [sampleSource] none 101 = .ok union ∧
      observedFields sampleDatabases .empty [sampleSource] none 101 = .ok observed ∧
      (∀ account slot value, (finalStorage union).get? (toLex (account,slot)) = some value ↔
        ∃ a k, account = hex a ∧ slot = hex k ∧
          (walkChain sampleFilter sampleBlocks).slots a k ≠ zeroWord ∧
          value = hex ((walkChain sampleFilter sampleBlocks).slots a k)) ∧
      ∀ account m, observed.get? account = some m ↔
        ∃ a, account = hex a ∧ fields (walkChain sampleFilter sampleBlocks) a ≠ [] ∧
          m = SortedMap.empty.insertAll (fields (walkChain sampleFilter sampleBlocks) a) := by
  have hf : Filter.parse sampleParams = .ok sampleFilter := by rfl
  exact replay_refines_walk sampleDatabases .empty sampleParams sampleFilter sampleBlocks
    sampleRows sampleSource 101 hf (by decide +kernel) (by decide +kernel) (by decide +kernel) (by decide) rfl
    (by decide +kernel)

end EvmState.Replay
