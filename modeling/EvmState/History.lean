import EvmState.CompactionSteps

/-!
# Cleanup of the native history

Whole partitions that end before a bound are dropped from the block rows and
from the markers. The bound lies above no height that a related checkpoint
needs, leaves the last blocks up to the durable tip, and never passes the tip.
-/

set_option autoImplicit false

namespace EvmState.History
open EvmState.Fallible EvmState.OrderedMap EvmState.BlockProjection EvmState.Store EvmState.Encoding
open EvmState.Crash EvmState.Bootstrap EvmState.Compaction

structure SourceWriter where
  runId : Option Json
  source : Json

structure Plan where
  source : Json
  checkpoint : String
  protectedCheckpoints : List String
  removeBefore : ℕ
  keepBlocks : ℕ
  durableBlock : BlockRef
  partitions : List ℕ × List ℕ

def saturatingSucc (n : ℕ) : ℕ := min (n+1) (2^64-1)

def manifest (platform : Platform) (snapshotId : String) (w : SourceWorld) : Except String Json := do
  objectId snapshotId
  let row ← one (w.checkpoints.checkpoints.rows.filter (fun r => r.snapshotId = snapshotId))
  let data ← parseManifest platform.fromSlice row
  ensure (data.index "snapshot_id" = .str snapshotId ∧ data.index "status" = .str "ready")
    "checkpoint has no valid ready manifest"
  return data

/-- The checkpoint was built from this very source. -/
def coversSource (owner : SourceWriter) (ready : Json) : Except String Unit := do
  let sources ← context (ready.index "sources").asArray "invalid checkpoint sources"
  let covered := sources.filter (fun s => s.get? "run_id" = owner.runId)
  ensure (covered.length = 1 ∧ covered.all (fun s =>
    ["database_uuid","package_sha256","schema_hash","module_hash","accounts"].all (fun key =>
      s.get? key = owner.source.get? key))) "checkpoint does not cover this exact native source"

/-- A checkpoint that shares an account with the source lowers the floor. -/
def protect (platform : Platform) (selected : List String) (s : ℕ × List String)
    (row : CheckpointRow) : Except String (ℕ × List String) := do
  let record ← parseManifest platform.fromSlice row
  ensure (record.index "status" = .str "ready" ∧ record.index "snapshot_id" = .str row.snapshotId)
    "invalid retained checkpoint prevents native history cleanup"
  let accounts ← canonicalAccounts (record.index "accounts")
  if accounts.any (· ∈ selected) then do
    let height ← uint ((record.index "header").index "number")
    let id ← string record "snapshot_id"
    return (min s.1 height,s.2++[id])
  else return s

def historyPartitions (platform : Platform) (before : ℕ) (w : SourceWorld) : List ℕ × List ℕ :=
  (partitionsBefore w.db.stateBlocks.rows (stateBlocksPartition platform) (·.number) before,
    partitionsBefore w.db.markers.rows (markersPartition platform) (·.number) before)

def dropPartitions (platform : Platform) (partitions : List ℕ × List ℕ) : Prog SourceWorld Unit := do
  partitions.1.forM (fun id => perform (dropStateBlocks platform id))
  partitions.2.forM (fun id => perform (dropMarkers platform id))

section Cleanup
variable (platform : Platform) (owner : SourceWriter) (snapshotId : String) (keepBlocks : ℕ)

def plan : Prog SourceWorld Plan := do
  check (ensure (0 < keepBlocks) "keep_blocks must be at least one")
  let ready ← query (manifest platform snapshotId)
  check (coversSource owner ready)
  let selected ← query (fun w => accountSet w.run.accounts)
  let accounts ← check (canonicalAccounts (ready.index "accounts"))
  check (ensure (selected.all (· ∈ accounts)) "checkpoint does not cover all source accounts")
  let tip ← query progress
  let floor ← check (uint ((ready.index "header").index "number"))
  check (ensure (floor ≤ tip.number) "native progress has not reached the checkpoint")
  let related ← query (fun w => w.checkpoints.checkpoints.rows.foldlM (protect platform selected) (floor,[]))
  let before := min (saturatingSucc related.1) (tip.number-(keepBlocks-1))
  let partitions ← query (fun w => .ok (historyPartitions platform before w))
  return ⟨owner.source,snapshotId,related.2.insertionSort (· ≤ ·),before,keepBlocks,tip,partitions⟩

/-- The owner's locks are held from before the plan to the end. -/
def cleanup (apply : Bool) : Prog SourceWorld Plan := do
  check (ensure (0 < keepBlocks) "keep_blocks must be at least one")
  next
  let result ← plan platform owner snapshotId keepBlocks
  next
  if apply then do
    dropPartitions platform result.partitions
    let _ ← query progress
    next
    return result
  else do
    next
    return result

/-- Retries of an applied cleanup, each of which ends where its script lets it. -/
def retried (w : SourceWorld) (scripts : List (List (Option String))) : SourceWorld :=
  scripts.foldl (fun v script => ends (cleanup platform owner snapshotId keepBlocks true) ⟨v,script⟩) w

end Cleanup

/-- A world without some of the blocks whose numbers are not to be kept. -/
structure Pruned (keep : ℕ → Prop) (v w : SourceWorld) : Prop where
  run : w.run = v.run
  cursor : w.cursor = v.cursor
  progress : w.progress = v.progress
  checkpoints : w.checkpoints = v.checkpoints
  blocks : ∀ b ∈ v.db.stateBlocks.rows, keep b.number → b ∈ w.db.stateBlocks.rows
  markers : ∀ m ∈ v.db.markers.rows, keep m.number → m ∈ w.db.markers.rows
  fewerBlocks : ∀ b ∈ w.db.stateBlocks.rows, b ∈ v.db.stateBlocks.rows
  fewerMarkers : ∀ m ∈ w.db.markers.rows, m ∈ v.db.markers.rows

section Pruned
variable {platform : Platform} {keep : ℕ → Prop} {v w : SourceWorld}

theorem Pruned.refl (keep : ℕ → Prop) (v : SourceWorld) : Pruned keep v v :=
  ⟨rfl,rfl,rfl,rfl,fun _ h _ => h,fun _ h _ => h,fun _ h => h,fun _ h => h⟩

theorem Pruned.dropStateBlocks (h : Pruned keep v w) {id : ℕ}
    (hs : ∀ b ∈ v.db.stateBlocks.rows, stateBlocksPartition platform b = id → ¬keep b.number) :
    Pruned keep v (dropStateBlocks platform id w) := by
  refine ⟨h.run,h.cursor,h.progress,h.checkpoints,fun b hb hk => ?_,h.markers,fun b hb => ?_,
    h.fewerMarkers⟩
  · have hid : stateBlocksPartition platform b ≠ id := fun he => hs b hb he hk
    exact Table.mem_select.mpr ⟨h.blocks b hb hk,decide_eq_true hid⟩
  · exact h.fewerBlocks b (Table.mem_select.mp hb).1

theorem Pruned.dropMarkers (h : Pruned keep v w) {id : ℕ}
    (hs : ∀ m ∈ v.db.markers.rows, markersPartition platform m = id → ¬keep m.number) :
    Pruned keep v (dropMarkers platform id w) := by
  refine ⟨h.run,h.cursor,h.progress,h.checkpoints,h.blocks,fun m hm hk => ?_,h.fewerBlocks,
    fun m hm => ?_⟩
  · have hid : markersPartition platform m ≠ id := fun he => hs m hm he hk
    exact Table.mem_select.mpr ⟨h.markers m hm hk,decide_eq_true hid⟩
  · exact h.fewerMarkers m (Table.mem_select.mp hm).1

/-- A kept position is validated as before. -/
theorem Pruned.validate (h : Pruned keep v w) {q : BlockRef} (hq : keep q.number) :
    validate w q = validate v q := by
  refine validate_congr h.run ?_ ?_
  · ext b
    simp only [Table.mem_select, decide_eq_true_eq]
    refine ⟨And.imp_left (h.fewerBlocks b),?_⟩
    rintro ⟨hb,hn⟩
    exact ⟨h.blocks b hb (hn ▸ hq),hn⟩
  · ext m
    simp only [Table.mem_select, decide_eq_true_eq]
    refine ⟨And.imp_left (h.fewerMarkers m),?_⟩
    rintro ⟨hm,hn⟩
    exact ⟨h.markers m hm (hn ▸ hq),hn⟩

theorem Pruned.loadProgress (h : Pruned keep v w) (hk : ∀ q, v.progress = some q → keep q.number) :
    loadProgress w = loadProgress v := by
  cases hq : v.progress with
  | none => simp only [Bootstrap.loadProgress, h.progress, hq]; rfl
  | some q =>
    simp only [Bootstrap.loadProgress, h.progress, hq, context]
    show (Bootstrap.validate w q >>= fun _ => pure q) = Bootstrap.validate v q >>= fun _ => pure q
    rw [h.validate (hk q hq)]

/-- Partitions that hold nothing to keep. -/
structure Spare (platform : Platform) (keep : ℕ → Prop) (v : SourceWorld)
    (partitions : List ℕ × List ℕ) : Prop where
  blocks : ∀ id ∈ partitions.1, ∀ b ∈ v.db.stateBlocks.rows,
    stateBlocksPartition platform b = id → ¬keep b.number
  markers : ∀ id ∈ partitions.2, ∀ m ∈ v.db.markers.rows,
    markersPartition platform m = id → ¬keep m.number

theorem Pruned.spare (h : Pruned keep v w) {before : ℕ} (hk : ∀ n, keep n → before ≤ n) :
    Spare platform keep v (historyPartitions platform before w) := by
  constructor
  · intro id hid b hb he hn
    have hlt := partitionsBefore_safe hid b (h.blocks b hb hn) he
    exact absurd (hk _ hn) (by omega)
  · intro id hid m hm he hn
    have hlt := partitionsBefore_safe hid m (h.markers m hm hn) he
    exact absurd (hk _ hn) (by omega)

theorem dropPartitions_pruned {partitions : List ℕ × List ℕ}
    (hs : Spare platform keep v partitions) :
    Triple (Pruned keep v) (dropPartitions platform partitions) (fun _ => Pruned keep v)
      (Pruned keep v) := by
  refine triple_bind (M := fun _ => Pruned keep v) (triple_forM (fun id hid => ?_)) (fun _ =>
    triple_forM (fun id hid => ?_))
  · exact triple_perform (fun w h => h.dropStateBlocks (hs.blocks id hid)) (fun _ h => h)
  · exact triple_perform (fun w h => h.dropMarkers (hs.markers id hid)) (fun _ h => h)

end Pruned

structure Related (platform : Platform) (w : SourceWorld) (row : CheckpointRow) (record : Json)
    (height : ℕ) : Prop where
  mem : row ∈ w.checkpoints.checkpoints.rows
  read : parseManifest platform.fromSlice row = .ok record
  ready : record.index "status" = .str "ready"
  height : uint ((record.index "header").index "number") = .ok height
  shared : ∃ selected accounts, accountSet w.run.accounts = .ok selected ∧
    canonicalAccounts (record.index "accounts") = .ok accounts ∧ ∃ a ∈ accounts, a ∈ selected

/-- The numbers that a cleanup has to leave: above a related checkpoint,
within the last blocks up to the durable tip, and the tip. -/
def Protected (platform : Platform) (w : SourceWorld) (keepBlocks number : ℕ) : Prop :=
  (∃ row record height, Related platform w row record height ∧ height < number) ∨
    ∃ tip, w.progress = some tip ∧ (tip.number < number+keepBlocks ∨ number = tip.number)

section Plan
variable {platform : Platform} {owner : SourceWriter} {snapshotId : String} {keepBlocks : ℕ}
  {v w : SourceWorld}

theorem protect_ok {selected : List String} {s s' : ℕ × List String} {row : CheckpointRow}
    (h : protect platform selected s row = .ok s') : s'.1 ≤ s.1 ∧ ∀ record accounts height,
      parseManifest platform.fromSlice row = .ok record →
      canonicalAccounts (record.index "accounts") = .ok accounts →
      (∃ a ∈ accounts, a ∈ selected) →
      uint ((record.index "header").index "number") = .ok height → s'.1 ≤ height := by
  obtain ⟨record,hrecord,h⟩ := bind_ok.mp h
  obtain ⟨_,-,h⟩ := bind_ok.mp h
  obtain ⟨accounts,ha,h⟩ := bind_ok.mp h
  split at h
  · obtain ⟨height,hh,h⟩ := bind_ok.mp h
    obtain ⟨id,-,h⟩ := bind_ok.mp h
    obtain rfl := pure_ok.mp h
    refine ⟨min_le_left _ _,fun record' accounts' height' hr _ _ hu => ?_⟩
    obtain rfl := Except.ok.inj (hrecord.symm.trans hr)
    obtain rfl := Except.ok.inj (hh.symm.trans hu)
    exact min_le_right _ _
  · rename_i hnone
    obtain rfl := pure_ok.mp h
    refine ⟨le_refl _,fun record' accounts' height' hr ha' hshared _ => absurd ?_ hnone⟩
    obtain rfl := Except.ok.inj (hrecord.symm.trans hr)
    obtain rfl := Except.ok.inj (ha.symm.trans ha')
    simpa using hshared

theorem protect_run {selected : List String} {rows : List CheckpointRow} {s s' : ℕ × List String}
    (h : rows.foldlM (protect platform selected) s = .ok s') : s'.1 ≤ s.1 ∧
      ∀ row ∈ rows, ∀ record accounts height, parseManifest platform.fromSlice row = .ok record →
      canonicalAccounts (record.index "accounts") = .ok accounts →
      (∃ a ∈ accounts, a ∈ selected) →
      uint ((record.index "header").index "number") = .ok height → s'.1 ≤ height := by
  induction rows generalizing s with
  | nil =>
    obtain rfl := pure_ok.mp h
    exact ⟨le_refl _,by simp⟩
  | cons row rows ih =>
    rw [List.foldlM_cons] at h
    obtain ⟨t,hrow,h⟩ := bind_ok.mp h
    obtain ⟨hle,hrow⟩ := protect_ok hrow
    obtain ⟨hle',hrows⟩ := ih h
    refine ⟨hle'.trans hle,fun r hr record accounts height hread ha hshared hu => ?_⟩
    rcases List.mem_cons.mp hr with rfl | hr
    · exact hle'.trans (hrow record accounts height hread ha hshared hu)
    · exact hrows r hr record accounts height hread ha hshared hu

/-- Nothing protected lies below the bound. -/
theorem bound_protects {selected : List String} {floor : ℕ} {related : ℕ × List String}
    {tip : BlockRef} (hkeep : 0 < keepBlocks) (hs : accountSet v.run.accounts = .ok selected)
    (ht : v.progress = some tip)
    (hr : v.checkpoints.checkpoints.rows.foldlM (protect platform selected) (floor,[]) = .ok related)
    {number : ℕ} (hn : Protected platform v keepBlocks number) :
    min (saturatingSucc related.1) (tip.number-(keepBlocks-1)) ≤ number := by
  rcases hn with ⟨row,record,height,hrel,hlt⟩ | ⟨tip',ht',hle⟩
  · obtain ⟨selected',accounts,hs',ha,hshared⟩ := hrel.shared
    obtain rfl := Except.ok.inj (hs.symm.trans hs')
    have hle := (protect_run hr).2 row hrel.mem record accounts height hrel.read ha hshared
      hrel.height
    have hsat : saturatingSucc related.1 ≤ related.1+1 := min_le_left _ _
    exact (min_le_left _ _).trans (by omega)
  · obtain rfl := Option.some.inj (ht.symm.trans ht')
    exact (min_le_right _ _).trans (by omega)

theorem plan_spare : Triple (Pruned (Protected platform v keepBlocks) v)
    (plan platform owner snapshotId keepBlocks)
    (fun result w => Pruned (Protected platform v keepBlocks) v w ∧
      Spare platform (Protected platform v keepBlocks) v result.partitions)
    (Pruned (Protected platform v keepBlocks) v) := by
  have hC : ∀ w, Pruned (Protected platform v keepBlocks) v w → Pruned (Protected platform v keepBlocks) v w :=
    fun _ h => h
  refine triple_bind (triple_check (Q := fun _ w => Pruned (Protected platform v keepBlocks) v w ∧
    0 < keepBlocks) (fun _ _ h he => ⟨h,ensure_ok.mp he⟩) hC) (fun _ => ?_)
  refine triple_bind (triple_query (Q := fun _ w => Pruned (Protected platform v keepBlocks) v w ∧
    0 < keepBlocks) (fun _ _ h _ => h) (fun _ h => h.1)) (fun ready => ?_)
  refine triple_bind (triple_check (Q := fun _ w => Pruned (Protected platform v keepBlocks) v w ∧
    0 < keepBlocks) (fun _ _ h _ => h) (fun _ h => h.1)) (fun _ => ?_)
  refine triple_bind (triple_query (Q := fun selected w => Pruned (Protected platform v keepBlocks) v w ∧
    0 < keepBlocks ∧ accountSet v.run.accounts = .ok selected)
    (fun w _ h he => ⟨h.1,h.2,h.1.run ▸ he⟩) (fun _ h => h.1)) (fun selected => ?_)
  refine triple_bind (triple_check (Q := fun _ w => Pruned (Protected platform v keepBlocks) v w ∧
    0 < keepBlocks ∧ accountSet v.run.accounts = .ok selected)
    (fun _ _ h _ => h) (fun _ h => h.1)) (fun accounts => ?_)
  refine triple_bind (triple_check (Q := fun _ w => Pruned (Protected platform v keepBlocks) v w ∧
    0 < keepBlocks ∧ accountSet v.run.accounts = .ok selected)
    (fun _ _ h _ => h) (fun _ h => h.1)) (fun _ => ?_)
  refine triple_bind (triple_query (Q := fun tip w => Pruned (Protected platform v keepBlocks) v w ∧
    0 < keepBlocks ∧ accountSet v.run.accounts = .ok selected ∧ v.progress = some tip)
    (fun w _ h he => ⟨h.1,h.2.1,h.2.2,h.1.progress ▸ progress_ok he⟩) (fun _ h => h.1))
    (fun tip => ?_)
  refine triple_bind (triple_check (Q := fun _ w => Pruned (Protected platform v keepBlocks) v w ∧
    0 < keepBlocks ∧ accountSet v.run.accounts = .ok selected ∧ v.progress = some tip)
    (fun _ _ h _ => h) (fun _ h => h.1)) (fun floor => ?_)
  refine triple_bind (triple_check (Q := fun _ w => Pruned (Protected platform v keepBlocks) v w ∧
    0 < keepBlocks ∧ accountSet v.run.accounts = .ok selected ∧ v.progress = some tip)
    (fun _ _ h _ => h) (fun _ h => h.1)) (fun _ => ?_)
  refine triple_bind (triple_query (Q := fun related w => Pruned (Protected platform v keepBlocks) v w ∧
    ∀ n, Protected platform v keepBlocks n →
      min (saturatingSucc related.1) (tip.number-(keepBlocks-1)) ≤ n)
    (fun w related h he => ⟨h.1,fun n hn => ?_⟩) (fun _ h => h.1)) (fun related => ?_)
  · rw [h.1.checkpoints] at he
    exact bound_protects h.2.1 h.2.2.1 h.2.2.2 he hn
  · refine triple_bind (triple_query (Q := fun partitions w =>
      Pruned (Protected platform v keepBlocks) v w ∧
        Spare platform (Protected platform v keepBlocks) v partitions)
      (fun w _ h he => ⟨h.1,?_⟩) (fun _ h => h.1)) (fun partitions => ?_)
    · obtain rfl := Except.ok.inj he
      exact h.1.spare h.2
    · exact triple_pure _ (fun _ h => h)

theorem cleanup_pruned (apply : Bool) : Triple (Pruned (Protected platform v keepBlocks) v)
    (cleanup platform owner snapshotId keepBlocks apply)
    (fun _ => Pruned (Protected platform v keepBlocks) v) (Pruned (Protected platform v keepBlocks) v) := by
  have hC : ∀ w, Pruned (Protected platform v keepBlocks) v w → Pruned (Protected platform v keepBlocks) v w :=
    fun _ h => h
  refine triple_bind (triple_check (Q := fun _ => Pruned (Protected platform v keepBlocks) v)
    (fun _ _ h _ => h) hC) (fun _ => ?_)
  refine triple_bind (triple_next hC) (fun _ => ?_)
  refine triple_bind plan_spare (fun result => ?_)
  refine triple_bind (triple_next (fun _ h => h.1)) (fun _ => ?_)
  cases apply with
  | false => exact triple_bind (triple_next (fun _ h => h.1)) (fun _ => triple_pure _ (fun _ h => h.1))
  | true =>
    refine triple_bind (M := fun _ => Pruned (Protected platform v keepBlocks) v) ?_ (fun _ => ?_)
    · intro s hs
      exact dropPartitions_pruned hs.2 s hs.1
    · refine triple_bind (triple_query (Q := fun _ => Pruned (Protected platform v keepBlocks) v)
        (fun _ _ h _ => h) hC) (fun _ => ?_)
      exact triple_bind (triple_next hC) (fun _ => triple_pure _ hC)

theorem retried_pruned (scripts : List (List (Option String)))
    (h : Pruned (Protected platform v keepBlocks) v w) : Pruned (Protected platform v keepBlocks) v
      (retried platform owner snapshotId keepBlocks w scripts) := by
  induction scripts generalizing w with
  | nil => exact h
  | cons script scripts ih => exact ih ((cleanup_pruned true).ends h)

end Plan

/-- Whatever a cleanup and its retries drop, both tables keep every protected
block and durable progress loads as before. -/
theorem history_cleanup_safe (platform : Platform) (owner : SourceWriter) (snapshotId : String)
    (keepBlocks : ℕ) (w : SourceWorld) (scripts : List (List (Option String))) :
    loadProgress (retried platform owner snapshotId keepBlocks w scripts) = loadProgress w ∧
    (∀ b ∈ w.db.stateBlocks.rows, Protected platform w keepBlocks b.number →
      b ∈ (retried platform owner snapshotId keepBlocks w scripts).db.stateBlocks.rows) ∧
    ∀ m ∈ w.db.markers.rows, Protected platform w keepBlocks m.number →
      m ∈ (retried platform owner snapshotId keepBlocks w scripts).db.markers.rows := by
  have h : Pruned (Protected platform w keepBlocks) w
      (retried platform owner snapshotId keepBlocks w scripts) := retried_pruned scripts (.refl _ _)
  exact ⟨h.loadProgress (fun q hq => Or.inr ⟨q,hq,Or.inr rfl⟩),h.blocks,h.markers⟩

end EvmState.History
