import EvmState.CompactionRuns
import EvmState.History

/-!
# Durable progress

Ingestion holds the lock of its run while its native child appends rows and
markers and rewrites the cursor, and while it saves the durable progress in
several reads and one rename. Recovery, cleanup and compaction hold the same
lock alone. Whoever dies leaves what it had done.
-/

set_option autoImplicit false

namespace EvmState.DurableProgress
open EvmState.Fallible EvmState.OrderedMap EvmState.BlockProjection EvmState.Store EvmState.Crash
open EvmState.Interval EvmState.Bootstrap EvmState.Compaction EvmState.History

def blockRows (w : SourceWorld) (q : BlockRef) : List BlockState :=
  w.db.stateBlocks.rows.filter (fun b => b.number = q.number)

def blockMarkers (w : SourceWorld) (q : BlockRef) : List Marker :=
  w.db.markers.rows.filter (fun m => m.number = q.number)

/-- The comparison of a position with the rows and markers read for it. -/
def matchBlock (run : Run) (position : BlockRef) (rows : List BlockState) (markers : List Marker) :
    Except String Unit :=
  let sound := rows.all (fun b => b.hash = position.hash &&
    b.accounts = joinAccounts run.accounts && b.schemaVersion = 1 && 3 ≤ b.producerVersion &&
    b.producerVersion ≤ 5)
  let marked := markers.all (fun m => "0x" ++ String.ofList (trimHex m.hash.toList) = position.hash)
  ensure (rows.length = 1 ∧ sound ∧ markers.length = 1 ∧ marked)
    "native cursor does not match its complete block data and marker"

def notBefore (run : Run) (position : BlockRef) : Except String Unit :=
  ensure (run.startBlock ≤ position.number) "native cursor precedes its run's start"

/-- A save of the durable progress between two of its reads and writes. -/
inductive Saving
  | rows (position : BlockRef)
  | markers (position : BlockRef) (stored : List BlockState)
  | progress (position : BlockRef)
  | previousRows (position previous : BlockRef)
  | previousMarkers (position previous : BlockRef) (stored : List BlockState)
  | write (position : BlockRef)

def Saving.advance (saving : Saving) (w : SourceWorld) :
    Except String (Option Saving × SourceWorld) :=
  match saving with
  | .rows position => do
    notBefore w.run position
    return (some (.markers position (blockRows w position)),w)
  | .markers position stored => do
    matchBlock w.run position stored (blockMarkers w position)
    return (some (.progress position),w)
  | .progress position =>
    match w.progress with
    | none => return (some (.write position),w)
    | some previous => return (some (.previousRows position previous),w)
  | .previousRows position previous => do
    notBefore w.run previous
    return (some (.previousMarkers position previous (blockRows w previous)),w)
  | .previousMarkers position previous stored => do
    matchBlock w.run previous stored (blockMarkers w previous)
    ensure (previous.number ≤ position.number) "native cursor regressed behind durable progress"
    return (if previous = position then none else some (.write position),w)
  | .write position => return (none,{ w with progress := some position })

/-- The lock of the run, and what its holder is doing. -/
inductive Lock
  | free
  | ingesting (saving : Option Saving)

structure Machine where
  world : SourceWorld
  lock : Lock

/-- The cursor file gets the durable position back. -/
def recoverCursor : Prog SourceWorld BlockRef := do
  next
  let progress ← query loadProgress
  next
  perform (fun w => { w with cursor := some progress })
  return progress

/-- A number that is stored comes again only as the stored row. -/
def AppendsRow (w : SourceWorld) (row : BlockState) : Prop :=
  ∀ b ∈ w.db.stateBlocks.rows, b.number = row.number → b = row

def AppendsMarker (w : SourceWorld) (marker : Marker) : Prop :=
  ∀ m ∈ w.db.markers.rows, m.number = marker.number → m = marker

def appendRow (row : BlockState) (w : SourceWorld) : SourceWorld :=
  { w with db := { w.db with stateBlocks := w.db.stateBlocks.upsert row } }

def appendMarker (marker : Marker) (w : SourceWorld) : SourceWorld :=
  { w with db := { w.db with markers := w.db.markers.upsert marker } }

inductive Step (platform : Platform) : Machine → Machine → Prop
  | start (w : SourceWorld) : Step platform ⟨w,.free⟩ ⟨w,.ingesting none⟩
  | stop (w : SourceWorld) (saving : Option Saving) : Step platform ⟨w,.ingesting saving⟩ ⟨w,.free⟩
  | row (w : SourceWorld) (saving : Option Saving) (row : BlockState) (append : AppendsRow w row) :
      Step platform ⟨w,.ingesting saving⟩ ⟨appendRow row w,.ingesting saving⟩
  | marker (w : SourceWorld) (saving : Option Saving) (marker : Marker)
      (append : AppendsMarker w marker) :
      Step platform ⟨w,.ingesting saving⟩ ⟨appendMarker marker w,.ingesting saving⟩
  | cursor (w : SourceWorld) (saving : Option Saving) (position : Option BlockRef) :
      Step platform ⟨w,.ingesting saving⟩ ⟨{ w with cursor := position },.ingesting saving⟩
  | observe (w : SourceWorld) (position : BlockRef) (read : w.cursor = some position) :
      Step platform ⟨w,.ingesting none⟩ ⟨w,.ingesting (some (.rows position))⟩
  | save (w : SourceWorld) (position : BlockRef) :
      Step platform ⟨w,.ingesting none⟩ ⟨w,.ingesting (some (.rows position))⟩
  | advance (w w' : SourceWorld) (saving : Saving) (saving' : Option Saving)
      (done : saving.advance w = .ok (saving',w')) :
      Step platform ⟨w,.ingesting (some saving)⟩ ⟨w',.ingesting saving'⟩
  | abandon (w : SourceWorld) (saving : Saving) :
      Step platform ⟨w,.ingesting (some saving)⟩ ⟨w,.ingesting none⟩
  | recover (w : SourceWorld) (script : List (Option String)) :
      Step platform ⟨w,.free⟩ ⟨ends recoverCursor ⟨w,script⟩,.free⟩
  | cleanup (w : SourceWorld) (owner : SourceWriter) (snapshotId : String) (keepBlocks : ℕ)
      (apply : Bool) (script : List (Option String)) : Step platform ⟨w,.free⟩
      ⟨ends (History.cleanup platform owner snapshotId keepBlocks apply) ⟨w,script⟩,.free⟩
  | compact (w : SourceWorld) (generation : String) (endBlock : Option ℕ)
      (script : List (Option String)) :
      Step platform ⟨w,.free⟩ ⟨ends (compactLocked platform generation endBlock) ⟨w,script⟩,.free⟩
  | publish (w : SourceWorld) (lock : Lock) (checkpoints : CheckpointDb) :
      Step platform ⟨w,lock⟩ ⟨{ w with checkpoints := checkpoints },lock⟩

abbrev Reaches (platform : Platform) : Machine → Machine → Prop :=
  Relation.ReflTransGen (Step platform)

/-- The position has one data row and one native marker, both of its hash. -/
structure Whole (w : SourceWorld) (q : BlockRef) : Prop where
  row : ∃ b, blockRows w q = [b] ∧ b.hash = q.hash
  marker : ∃ m, blockMarkers w q = [m] ∧ "0x" ++ String.ofList (trimHex m.hash.toList) = q.hash

/-!
## A save alone

Without interleaving the reads and the write of a save are `saveProgress`.
-/

def Saving.finish : ℕ → Saving → SourceWorld → Except String SourceWorld
  | 0, _, w => .ok w
  | fuel+1, saving, w => do
    let (saving',w') ← saving.advance w
    match saving' with
    | none => return w'
    | some saving' => saving'.finish fuel w'

theorem validate_eq (w : SourceWorld) (q : BlockRef) : validate w q =
    (notBefore w.run q >>= fun _ => matchBlock w.run q (blockRows w q) (blockMarkers w q)) := rfl

/-- Left alone, the steps of a save end as the program's own call does. -/
theorem finish_save (w : SourceWorld) (q : BlockRef) : Saving.finish 6 (.rows q) w =
    (saveProgress { w with cursor := some q } >>= fun p => pure { w with progress := some p }) := by
  cases hp : w.progress with
  | none =>
    simp only [saveProgress, context, validate_eq, hp, Saving.finish, Saving.advance, bind_assoc,
      pure_bind]
    rfl
  | some r =>
    simp only [saveProgress, loadProgress, context, validate_eq, hp, Saving.finish, Saving.advance,
      bind_assoc, pure_bind]
    by_cases hr : r = q
    · -- the position is the recorded one and is not written again
      have hsame : w = { w with progress := some q } := by rw [← hr, ← hp]
      simp only [if_pos hr]
      conv_lhs => rw [hsame]
      rfl
    · simp only [if_neg hr]
      rfl

section Appends
variable {w : SourceWorld} {q : BlockRef}

theorem appendRow_rows {row : BlockState} (h : AppendsRow w row) (hne : blockRows w q ≠ []) :
    blockRows (appendRow row w) q = blockRows w q := by
  obtain ⟨b,hb⟩ := List.exists_mem_of_ne_nil _ hne
  obtain ⟨hb,hn⟩ := List.mem_filter.mp hb
  have hn : b.number = q.number := of_decide_eq_true hn
  by_cases hr : row.number = q.number
  · obtain rfl := h b hb (hn.trans hr.symm)
    simp only [blockRows, appendRow, Table.upsert_of_mem hb]
  · refine congrArg Table.rows (Table.select_upsert (t := w.db.stateBlocks) (fun s hk => ?_))
    have hs : s.number = row.number := congrArg (fun k => (ofLex k).1) hk
    exact decide_eq_false (hs ▸ hr)

theorem appendMarker_markers {marker : Marker} (h : AppendsMarker w marker)
    (hne : blockMarkers w q ≠ []) : blockMarkers (appendMarker marker w) q = blockMarkers w q := by
  obtain ⟨m,hm⟩ := List.exists_mem_of_ne_nil _ hne
  obtain ⟨hm,hn⟩ := List.mem_filter.mp hm
  have hn : m.number = q.number := of_decide_eq_true hn
  by_cases hr : marker.number = q.number
  · obtain rfl := h m hm (hn.trans hr.symm)
    simp only [blockMarkers, appendMarker, Table.upsert_of_mem hm]
  · refine congrArg Table.rows (Table.select_upsert (t := w.db.markers) (fun s hk => ?_))
    have hs : s.number = marker.number := congrArg (fun k => (ofLex k).1) hk
    exact decide_eq_false (hs ▸ hr)

theorem matchBlock_ok {run : Run} {rows : List BlockState} {markers : List Marker}
    (h : matchBlock run q rows markers = .ok ()) : rows ≠ [] ∧ markers ≠ [] := by
  obtain ⟨hl,-,hm,-⟩ := ensure_ok.mp h
  constructor
  · rintro rfl
    cases hl
  · rintro rfl
    cases hm

theorem validate_ok : validate w q = .ok () ↔ notBefore w.run q = .ok () ∧
    matchBlock w.run q (blockRows w q) (blockMarkers w q) = .ok () := by
  rw [validate_eq, bind_ok]
  constructor
  · rintro ⟨_,hs,hm⟩
    exact ⟨hs,hm⟩
  · rintro ⟨hs,hm⟩
    exact ⟨(),hs,hm⟩

theorem validate_appendRow {row : BlockState} (h : AppendsRow w row) (hv : validate w q = .ok ()) :
    validate (appendRow row w) q = .ok () := by
  obtain ⟨hs,hm⟩ := validate_ok.mp hv
  have hrows := appendRow_rows h (matchBlock_ok hm).1
  refine validate_ok.mpr ⟨hs,?_⟩
  rw [hrows]
  exact hm

theorem validate_appendMarker {marker : Marker} (h : AppendsMarker w marker)
    (hv : validate w q = .ok ()) : validate (appendMarker marker w) q = .ok () := by
  obtain ⟨hs,hm⟩ := validate_ok.mp hv
  have hmarkers := appendMarker_markers h (matchBlock_ok hm).2
  refine validate_ok.mpr ⟨hs,?_⟩
  rw [hmarkers]
  exact hm

end Appends

def Saving.Sound (w : SourceWorld) : Saving → Prop
  | .rows _ => True
  | .markers position stored => notBefore w.run position = .ok () ∧
      (stored = [] ∨ stored = blockRows w position)
  | .progress position => validate w position = .ok ()
  | .previousRows position previous => validate w position = .ok () ∧ w.progress = some previous
  | .previousMarkers position previous _ => validate w position = .ok () ∧
      w.progress = some previous
  | .write position => validate w position = .ok () ∧
      ∀ previous, w.progress = some previous → previous.number ≤ position.number

/-- The recorded position is valid and not below a number. -/
structure Recorded (n : ℕ) (w : SourceWorld) (q : BlockRef) : Prop where
  progress : w.progress = some q
  valid : validate w q = .ok ()
  reached : n ≤ q.number

def Lock.Sound (w : SourceWorld) : Lock → Prop
  | .free => True
  | .ingesting saving => ∀ s, saving = some s → s.Sound w

structure Inv (n : ℕ) (m : Machine) : Prop where
  recorded : ∃ q, Recorded n m.world q
  lock : m.lock.Sound m.world

section Steps
variable {n : ℕ} {v w w' : SourceWorld} {q : BlockRef} {platform : Platform}

theorem loadProgress_ok : loadProgress w = .ok q ↔ w.progress = some q ∧ validate w q = .ok () := by
  constructor
  · intro h
    obtain ⟨r,hr,h⟩ := bind_ok.mp h
    obtain ⟨_,hv,h⟩ := bind_ok.mp h
    obtain rfl := pure_ok.mp h
    exact ⟨context_ok.mp hr,hv⟩
  · rintro ⟨hr,hv⟩
    exact bind_ok.mpr ⟨q,context_ok.mpr hr,bind_ok.mpr ⟨(),hv,rfl⟩⟩

theorem Saving.Sound.mono {s : Saving} (h : s.Sound w) (hrun : w'.run = w.run)
    (hp : w'.progress = w.progress)
    (hrows : ∀ q, blockRows w q ≠ [] → blockRows w' q = blockRows w q)
    (hv : ∀ q, validate w q = .ok () → validate w' q = .ok ()) : s.Sound w' := by
  cases s with
  | rows position => trivial
  | markers position stored =>
    obtain ⟨hs,hstored⟩ := h
    refine ⟨hrun ▸ hs,?_⟩
    by_cases he : stored = []
    · exact Or.inl he
    · have hr : stored = blockRows w position := hstored.resolve_left he
      exact Or.inr (hr.trans (hrows position (hr ▸ he)).symm)
  | progress position => exact hv _ h
  | previousRows position previous => exact ⟨hv _ h.1,hp ▸ h.2⟩
  | previousMarkers position previous stored => exact ⟨hv _ h.1,hp ▸ h.2⟩
  | write position => exact ⟨hv _ h.1,hp ▸ h.2⟩

theorem Lock.Sound.mono {lock : Lock} (h : lock.Sound w) (hrun : w'.run = w.run)
    (hp : w'.progress = w.progress)
    (hrows : ∀ q, blockRows w q ≠ [] → blockRows w' q = blockRows w q)
    (hv : ∀ q, validate w q = .ok () → validate w' q = .ok ()) : lock.Sound w' := by
  cases lock with
  | free => trivial
  | ingesting saving => exact fun s hs => (h s hs).mono hrun hp hrows hv

theorem Recorded.mono (h : Recorded n w q) (hp : w'.progress = w.progress)
    (hv : ∀ q, validate w q = .ok () → validate w' q = .ok ()) : Recorded n w' q :=
  ⟨hp.trans h.progress,hv q h.valid,h.reached⟩

theorem Inv.mono {lock : Lock} (h : Inv n ⟨w,lock⟩) (hrun : w'.run = w.run)
    (hp : w'.progress = w.progress)
    (hrows : ∀ q, blockRows w q ≠ [] → blockRows w' q = blockRows w q)
    (hv : ∀ q, validate w q = .ok () → validate w' q = .ok ()) : Inv n ⟨w',lock⟩ := by
  obtain ⟨q,hq⟩ := h.recorded
  exact ⟨⟨q,hq.mono hp hv⟩,h.lock.mono hrun hp hrows hv⟩

/-- One read or write of a save. -/
theorem inv_advance {s : Saving} {s' : Option Saving} (h : Inv n ⟨w,.ingesting (some s)⟩)
    (ha : s.advance w = .ok (s',w')) : Inv n ⟨w',.ingesting s'⟩ := by
  obtain ⟨q,hq⟩ : ∃ q, Recorded n w q := h.recorded
  have hs : s.Sound w := h.lock s rfl
  cases s with
  | rows position =>
    obtain ⟨_,hb,ha⟩ := bind_ok.mp ha
    obtain ⟨rfl,rfl⟩ := Prod.mk.inj (pure_ok.mp ha)
    refine ⟨⟨q,hq⟩,fun s he => ?_⟩
    obtain rfl := Option.some.inj he
    exact ⟨hb,Or.inr rfl⟩
  | markers position stored =>
    obtain ⟨_,hm,ha⟩ := bind_ok.mp ha
    obtain ⟨rfl,rfl⟩ := Prod.mk.inj (pure_ok.mp ha)
    refine ⟨⟨q,hq⟩,fun s he => ?_⟩
    obtain rfl := Option.some.inj he
    have hstored : stored = blockRows w position := hs.2.resolve_left (matchBlock_ok hm).1
    exact validate_ok.mpr ⟨hs.1,hstored ▸ hm⟩
  | progress position =>
    simp only [Saving.advance, hq.progress] at ha
    obtain ⟨rfl,rfl⟩ := Prod.mk.inj (pure_ok.mp ha)
    refine ⟨⟨q,hq⟩,fun s he => ?_⟩
    obtain rfl := Option.some.inj he
    exact ⟨hs,hq.progress⟩
  | previousRows position previous =>
    obtain ⟨_,-,ha⟩ := bind_ok.mp ha
    obtain ⟨rfl,rfl⟩ := Prod.mk.inj (pure_ok.mp ha)
    refine ⟨⟨q,hq⟩,fun s he => ?_⟩
    obtain rfl := Option.some.inj he
    exact hs
  | previousMarkers position previous stored =>
    obtain ⟨_,-,ha⟩ := bind_ok.mp ha
    obtain ⟨_,hle,ha⟩ := bind_ok.mp ha
    obtain ⟨rfl,rfl⟩ := Prod.mk.inj (pure_ok.mp ha)
    refine ⟨⟨q,hq⟩,fun s he => ?_⟩
    split at he
    · cases he
    · obtain rfl := Option.some.inj he
      refine ⟨hs.1,fun r hr => ?_⟩
      obtain rfl := Option.some.inj (hs.2.symm.trans hr)
      exact ensure_ok.mp hle
  | write position =>
    obtain ⟨rfl,rfl⟩ := Prod.mk.inj (pure_ok.mp ha)
    have hle := hs.2 q hq.progress
    exact ⟨⟨position,rfl,hs.1,hq.reached.trans hle⟩,fun s he => by cases he⟩

theorem inv_pruned (h : Inv n ⟨v,.free⟩) (hp : ∀ q, v.progress = some q →
    ∃ keep, Pruned keep v w ∧ keep q.number) : Inv n ⟨w,.free⟩ := by
  obtain ⟨q,hq⟩ := h.recorded
  obtain ⟨keep,hpruned,hk⟩ := hp q hq.progress
  refine ⟨⟨q,hpruned.progress.trans hq.progress,?_,hq.reached⟩,trivial⟩
  rw [hpruned.validate hk]
  exact hq.valid

theorem recoverCursor_keeps : Triple (fun w => Recorded n w q) recoverCursor
    (fun _ w => Recorded n w q) (fun w => Recorded n w q) := by
  have hC : ∀ w, Recorded n w q → Recorded n w q := fun _ h => h
  refine triple_bind (triple_next hC) (fun _ => ?_)
  refine triple_bind (triple_query (Q := fun _ w => Recorded n w q) (fun _ _ h _ => h) hC)
    (fun position => ?_)
  refine triple_bind (triple_next hC) (fun _ => ?_)
  refine triple_bind (triple_perform (R := fun _ w => Recorded n w q) (fun w h => ?_) hC)
    (fun _ => triple_pure _ hC)
  exact ⟨h.progress,h.valid,h.reached⟩

end Steps

/-!
## Compaction

A compaction ends at or below the tip, and what it drops ends before that.
-/

section Compaction
variable {platform : Platform} {v w w' : SourceWorld} {q : BlockRef}

/-- No block from the recorded one on is missing. -/
abbrev Trimmed (q : BlockRef) (v w : SourceWorld) : Prop := Pruned (q.number ≤ ·) v w

theorem Trimmed.frame (h : Trimmed q v w) (hrun : w'.run = w.run) (hc : w'.cursor = w.cursor)
    (hp : w'.progress = w.progress) (hk : w'.checkpoints = w.checkpoints)
    (hb : w'.db.stateBlocks = w.db.stateBlocks) (hm : w'.db.markers = w.db.markers) :
    Trimmed q v w' :=
  ⟨hrun.trans h.run,hc.trans h.cursor,hp.trans h.progress,hk.trans h.checkpoints,
    hb ▸ h.blocks,hm ▸ h.markers,hb ▸ h.fewerBlocks,hm ▸ h.fewerMarkers⟩

theorem dropOldGenerations_trimmed (keep : String) :
    Triple (Trimmed q v) (dropOldGenerations keep) (fun _ => Trimmed q v) (Trimmed q v) := by
  have hC : ∀ w, Trimmed q v w → Trimmed q v w := fun _ h => h
  have hdrop : ∀ f : String → SourceWorld → SourceWorld,
      (∀ g w, Trimmed q v w → Trimmed q v (f g w)) → ∀ old : List String,
      Triple (Trimmed q v) (old.forM (fun g => do
          check (objectId g)
          perform (f g))) (fun _ => Trimmed q v) (Trimmed q v) := fun f hf old =>
    triple_forM (fun g _ => triple_bind (triple_check (fun _ _ h _ => h) hC)
      (fun _ => triple_perform (fun w h => hf g w h) hC))
  refine triple_bind (triple_query (Q := fun _ => Trimmed q v) (fun _ _ h _ => h) hC) (fun old => ?_)
  refine triple_bind (hdrop dropManifest (fun _ _ h => h.frame rfl rfl rfl rfl rfl rfl) old)
    (fun _ => ?_)
  refine triple_bind (triple_query (Q := fun _ => Trimmed q v) (fun _ _ h _ => h) hC) (fun old => ?_)
  exact hdrop dropStorage (fun _ _ h => h.frame rfl rfl rfl rfl rfl rfl) old

theorem cleanup_trimmed {p : Prefix} (hp : p.header.number ≤ q.number) :
    Triple (Trimmed q v) (Bootstrap.cleanup platform p) (fun _ => Trimmed q v) (Trimmed q v) := by
  have hC : ∀ w, Trimmed q v w → Trimmed q v w := fun _ h => h
  refine triple_bind (triple_query (Q := fun plan w => Trimmed q v w ∧
    Spare platform (q.number ≤ ·) v plan) (fun w plan h he => ⟨h,?_⟩) hC) (fun plan => ?_)
  · obtain rfl := Except.ok.inj he
    exact h.spare (fun n hn => hp.trans hn)
  · have hdrop : Triple (fun w => Trimmed q v w ∧ Spare platform (q.number ≤ ·) v plan)
        (dropPartitions platform plan) (fun _ => Trimmed q v) (Trimmed q v) := fun s hs =>
      dropPartitions_pruned hs.2 s hs.1
    have := triple_bind hdrop (fun _ => dropOldGenerations_trimmed (q := q) (v := v) p.generation)
    simpa only [dropPartitions, bind_assoc] using this

theorem prepare_trimmed (hv : v.progress = some q) (endBlock : Option ℕ) :
    Triple (Trimmed q v) (prepare platform endBlock)
      (fun r w => Trimmed q v w ∧ r.2.number ≤ q.number) (Trimmed q v) := by
  have hC : ∀ w, Trimmed q v w → Trimmed q v w := fun _ h => h
  refine triple_bind (triple_next hC) (fun _ => ?_)
  refine triple_bind (triple_query (Q := fun _ => Trimmed q v) (fun _ _ h _ => h) hC) (fun _ => ?_)
  refine triple_bind (triple_query (Q := fun _ => Trimmed q v) (fun _ _ h _ => h) hC) (fun run => ?_)
  refine triple_bind (triple_query (Q := fun tip w => Trimmed q v w ∧ tip = q)
    (fun w tip h he => ⟨h,?_⟩) hC) (fun tip => ?_)
  · exact Option.some.inj ((progress_ok he).symm.trans (h.progress.trans hv))
  · refine triple_bind (triple_check (Q := fun _ w => Trimmed q v w ∧
      endBlock.getD tip.number ≤ q.number) (fun w _ h he => ⟨h.1,?_⟩) (fun _ h => h.1)) (fun _ => ?_)
    · have hle := (ensure_ok.mp he).2
      rwa [h.2] at hle ⊢
    · refine triple_bind (triple_query (Q := fun header w => Trimmed q v w ∧
        header.number ≤ q.number) (fun w header h he => ⟨h.1,?_⟩) (fun _ h => h.1)) (fun header => ?_)
      · obtain ⟨b,hb,rfl⟩ := headerAt_ok.mp he
        have hmem : b ∈ w.db.stateBlocks.rows.filter
            (fun b => b.number = endBlock.getD tip.number) := by simp [hb]
        have hn : b.number = endBlock.getD tip.number := by simpa using (List.mem_filter.mp hmem).2
        exact (le_of_eq hn).trans h.2
      · refine triple_bind (triple_query (Q := fun _ w => Trimmed q v w ∧ header.number ≤ q.number)
          (fun _ _ h _ => h) (fun _ h => h.1)) (fun source => ?_)
        refine triple_bind (triple_query (Q := fun _ w => Trimmed q v w ∧ header.number ≤ q.number)
          (fun _ _ h _ => h) (fun _ h => h.1)) (fun _ => ?_)
        exact triple_pure _ (fun _ h => h)

theorem compactTo_trimmed {generation : String} {source : Source} {header : Header}
    (hh : header.number ≤ q.number) : Triple (Trimmed q v)
      (compactTo platform generation source header) (fun _ => Trimmed q v) (Trimmed q v) := by
  have hC : ∀ w, Trimmed q v w → Trimmed q v w := fun _ h => h
  have hread : ∀ {α : Type} (g : SourceWorld → Except String α),
      Triple (Trimmed q v) (query g) (fun _ => Trimmed q v) (Trimmed q v) := fun g =>
    triple_query (fun _ _ h _ => h) hC
  refine triple_bind (triple_next hC) (fun _ => ?_)
  refine triple_bind (dropOldGenerations_trimmed _) (fun _ => ?_)
  refine triple_bind (triple_next hC) (fun _ => ?_)
  refine triple_bind (hread _) (fun rows => ?_)
  refine triple_bind (M := fun _ => Trimmed q v)
    (triple_perform (fun w h => h.frame rfl rfl rfl rfl rfl rfl) hC) (fun _ => ?_)
  refine triple_bind (hread _) (fun fields => ?_)
  refine triple_bind (hread _) (fun measured => ?_)
  refine triple_bind (triple_next hC) (fun _ => ?_)
  refine triple_bind (hread _) (fun run => ?_)
  refine triple_bind (M := fun _ => Trimmed q v)
    (triple_perform (fun w h => h.frame rfl rfl rfl rfl rfl rfl) hC) (fun _ => ?_)
  refine triple_bind (triple_next hC) (fun _ => ?_)
  refine triple_bind (M := fun _ => Trimmed q v)
    (triple_perform (fun w h => h.frame rfl rfl rfl rfl rfl rfl) hC) (fun _ => ?_)
  refine triple_bind (hread _) (fun loaded => ?_)
  refine triple_bind (triple_check (Q := fun _ => Trimmed q v) (fun _ _ h _ => h) hC) (fun _ => ?_)
  refine triple_bind (cleanup_trimmed hh) (fun _ => ?_)
  exact triple_bind (hread _) (fun _ => triple_pure _ hC)

theorem compactLocked_trimmed (hv : v.progress = some q) (generation : String)
    (endBlock : Option ℕ) : Triple (Trimmed q v) (compactLocked platform generation endBlock)
      (fun _ => Trimmed q v) (Trimmed q v) := by
  refine triple_bind (prepare_trimmed hv endBlock) (fun r => ?_)
  obtain ⟨source,header⟩ := r
  intro s hs
  obtain ⟨hs,hh⟩ := hs
  revert s
  cases hb : source.bootstrap.filter (fun p => p.header.number = header.number) with
  | none =>
    simp only [hb]
    exact fun s hs => compactTo_trimmed hh s hs
  | some previous =>
    have hn : previous.header.number = header.number := by
      simpa using (Option.filter_eq_some_iff.mp hb).2
    simp only [hb]
    intro s hs
    refine triple_bind (cleanup_trimmed (hn ▸ hh)) (fun _ => ?_) s hs
    exact triple_bind (triple_query (Q := fun _ => Trimmed q v) (fun _ _ h _ => h) (fun _ h => h))
      (fun _ => triple_pure _ (fun _ h => h))

end Compaction

section Runs
variable {platform : Platform} {n : ℕ} {m m' : Machine}

theorem inv_step (h : Inv n m) (hs : Step platform m m') : Inv n m' := by
  cases hs with
  | start w => exact ⟨h.recorded,fun s he => by cases he⟩
  | stop w saving => exact ⟨h.recorded,trivial⟩
  | row w saving row append =>
    exact h.mono rfl rfl (fun _ hne => appendRow_rows append hne)
      (fun _ hv => validate_appendRow append hv)
  | marker w saving marker append =>
    exact h.mono rfl rfl (fun _ _ => rfl) (fun _ hv => validate_appendMarker append hv)
  | cursor w saving position => exact h.mono rfl rfl (fun _ _ => rfl) (fun _ hv => hv)
  | observe w position read =>
    refine ⟨h.recorded,fun s he => ?_⟩
    obtain rfl := Option.some.inj he
    trivial
  | save w position =>
    refine ⟨h.recorded,fun s he => ?_⟩
    obtain rfl := Option.some.inj he
    trivial
  | advance w w' saving saving' done => exact inv_advance h done
  | abandon w saving => exact ⟨h.recorded,fun s he => by cases he⟩
  | recover w script =>
    obtain ⟨q,hq⟩ := h.recorded
    exact ⟨⟨q,recoverCursor_keeps.ends hq⟩,trivial⟩
  | cleanup w owner snapshotId keepBlocks apply script =>
    exact inv_pruned h (fun q hq => ⟨Protected platform w keepBlocks,
      (cleanup_pruned apply).ends (.refl _ _),Or.inr ⟨q,hq,Or.inr rfl⟩⟩)
  | compact w generation endBlock script =>
    exact inv_pruned h (fun q hq => ⟨(q.number ≤ ·),
      (compactLocked_trimmed hq generation endBlock).ends (.refl _ _),le_refl _⟩)
  | publish w lock checkpoints => exact h.mono rfl rfl (fun _ _ => rfl) (fun _ hv => hv)

theorem inv_reaches (h : Inv n m) (hr : Reaches platform m m') : Inv n m' := by
  induction hr with
  | refl => exact h
  | tail _ hs ih => exact inv_step ih hs

/-- The position that an invariant speaks of loads and has its whole block. -/
theorem Inv.loads (h : Inv n m) : ∃ q, loadProgress m.world = .ok q ∧ n ≤ q.number ∧
    Whole m.world q := by
  obtain ⟨q,hq⟩ := h.recorded
  obtain ⟨hl,hs,hm,ha⟩ := ensure_ok.mp (validate_ok.mp hq.valid).2
  obtain ⟨b,hb⟩ := List.length_eq_one_iff.mp hl
  obtain ⟨k,hk⟩ := List.length_eq_one_iff.mp hm
  refine ⟨q,loadProgress_ok.mpr ⟨hq.progress,hq.valid⟩,hq.reached,⟨b,hb,?_⟩,⟨k,hk,?_⟩⟩
  · have := List.all_eq_true.mp hs b (by simp [hb])
    simp only [Bool.and_eq_true, decide_eq_true_eq] at this
    exact this.1.1.1.1
  · exact of_decide_eq_true (List.all_eq_true.mp ha k (by simp [hk]))

end Runs

/-- Along every run from a state in which progress loads it loads again, its
number never decreases, and its block is there once with its marker. -/
theorem durable_progress_kept (platform : Platform) (start : SourceWorld) (q : BlockRef)
    (hq : loadProgress start = .ok q) (m m' : Machine)
    (hm : Reaches platform ⟨start,.free⟩ m) (hm' : Reaches platform m m') :
    ∃ r r', loadProgress m.world = .ok r ∧ loadProgress m'.world = .ok r' ∧
      q.number ≤ r.number ∧ r.number ≤ r'.number ∧ Whole m.world r ∧ Whole m'.world r' := by
  obtain ⟨hp,hv⟩ := loadProgress_ok.mp hq
  have hstart : Inv q.number ⟨start,.free⟩ := ⟨⟨q,hp,hv,le_refl _⟩,trivial⟩
  have h : Inv q.number m := inv_reaches hstart hm
  obtain ⟨r,hr,hle,hw⟩ := h.loads
  obtain ⟨hp,hv⟩ := loadProgress_ok.mp hr
  have h' : Inv r.number m' := inv_reaches ⟨⟨r,hp,hv,le_refl _⟩,h.lock⟩ hm'
  obtain ⟨r',hr',hle',hw'⟩ := h'.loads
  exact ⟨r,r',hr,hr',hle,hle',hw,hw'⟩

/-!
The sample run is compacted to its tip, recovered, and ingests again.
-/

section Sample
open EvmState.Replay

def sampleCompacted : SourceWorld :=
  ends (compactLocked samplePlatform "11111111111111111111111111111111" (some 101))
    ⟨sampleWorld,[]⟩

def sampleRecovered : SourceWorld := ends recoverCursor ⟨sampleCompacted,[]⟩

def sampleTip : BlockRef :=
  ⟨101,"0x6565656565656565656565656565656565656565656565656565656565656565"⟩

theorem sample_compacts : Reaches samplePlatform ⟨sampleWorld,.free⟩ ⟨sampleCompacted,.free⟩ :=
  .single (.compact sampleWorld "11111111111111111111111111111111" (some 101) [])

theorem sample_resumes :
    Reaches samplePlatform ⟨sampleCompacted,.free⟩ ⟨sampleRecovered,.ingesting none⟩ :=
  .tail (.single (.recover sampleCompacted [])) (.start _)

theorem durable_progress_kept_sample : ∃ r r', loadProgress sampleCompacted = .ok r ∧
    loadProgress sampleRecovered = .ok r' ∧ sampleTip.number ≤ r.number ∧ r.number ≤ r'.number ∧
    Whole sampleCompacted r ∧ Whole sampleRecovered r' := by
  have hq : loadProgress sampleWorld = .ok sampleTip := by decide +kernel
  have h := durable_progress_kept samplePlatform sampleWorld sampleTip hq ⟨sampleCompacted,.free⟩
    ⟨sampleRecovered,.ingesting none⟩ sample_compacts sample_resumes
  dsimp only at h
  exact h

end Sample
end EvmState.DurableProgress
