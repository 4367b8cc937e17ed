import EvmState.CompactionRuns

/-!
# Ingestion with compactions that may crash

A native run ingests a finalized chain: rows, markers, its cursor and the
durable progress that follows it. Compactions run in between and may stop at
any of their steps. A world that compacts is compared with the world that
ingests the same blocks and never does.
-/

set_option autoImplicit false

namespace EvmState.Compaction
open EvmState.Fallible EvmState.OrderedMap EvmState.BlockProjection EvmState.Store EvmState.Queries
open EvmState.Encoding EvmState.Interval EvmState.Crash EvmState.Bootstrap EvmState.Summary

/-- The rows and markers of a finalized chain. -/
structure Chain where
  rows : Set BlockState
  markers : Set Marker
  distinct : ∀ a ∈ rows, ∀ b ∈ rows, a.number = b.number → a = b
  marked : ∀ a ∈ markers, ∀ b ∈ markers, a.number = b.number → a = b
  projected : ∀ b ∈ rows, Projected b

inductive Event
  | block (row : BlockState)
  | marker (marker : Marker)
  | cursor (position : Option BlockRef)
  | save
  | publish (checkpoints : CheckpointDb)

def Chain.Allows (chain : Chain) : Event → Prop
  | .block row => row ∈ chain.rows
  | .marker marker => marker ∈ chain.markers
  | _ => True

def ingest : Event → SourceWorld → SourceWorld
  | .block row, w => { w with db := { w.db with stateBlocks := w.db.stateBlocks.upsert row } }
  | .marker marker, w => { w with db := { w.db with markers := w.db.markers.upsert marker } }
  | .cursor position, w => { w with cursor := position }
  | .save, w =>
    match saveProgress w with
    | .ok position => { w with progress := some position }
    | .error _ => w
  | .publish checkpoints, w => { w with checkpoints := checkpoints }

/-- A world before the first compaction of its run. -/
structure Fresh (chain : Chain) (w : SourceWorld) : Prop where
  pointer : w.pointer = none
  rows : ∀ b ∈ w.db.stateBlocks.rows, b ∈ chain.rows
  markers : ∀ m ∈ w.db.markers.rows, m ∈ chain.markers
  valid : ∀ q, w.progress = some q → validate w q = .ok ()

abbrev Unused (generation : String) (w : SourceWorld) : Prop :=
  (∀ r ∈ w.db.bootstrapStorage, r.generation ≠ generation) ∧
    ∀ g ∈ w.db.bootstrapGenerations, g.generation ≠ generation

/-- The worlds that a start reaches, with the events ingested on the way. A
compaction ends wherever its script lets it. -/
inductive Run (platform : Platform) (chain : Chain) (start : SourceWorld) :
    List Event → SourceWorld → Prop
  | start : Run platform chain start [] start
  | ingest {events : List Event} {w : SourceWorld} (run : Run platform chain start events w)
      (event : Event) (allowed : chain.Allows event) :
      Run platform chain start (events++[event]) (ingest event w)
  | compact {events : List Event} {w : SourceWorld} (run : Run platform chain start events w)
      (generation : String) (endBlock : Option ℕ) (script : List (Option String))
      (unused : Unused generation w) :
      Run platform chain start events
        (ends (compactLocked platform generation endBlock) ⟨w,script⟩)

/-- The same events without any compaction. -/
def uncompacted (start : SourceWorld) (events : List Event) : SourceWorld :=
  events.foldl (fun v e => ingest e v) start

theorem run_uncompacted {platform : Platform} {chain : Chain} {start : SourceWorld}
    {events : List Event} (h : ∀ e ∈ events, chain.Allows e) :
    Run platform chain start events (uncompacted start events) := by
  induction events using List.reverseRecOn with
  | nil => exact .start
  | append_singleton events event ih =>
    rw [uncompacted, List.foldl_append]
    exact .ingest (ih (fun e he => h e (by simp [he]))) event (h event (by simp))

section Progress
variable {v w : SourceWorld}

variable {platform : Platform}

/-- From the floor on, both worlds see the same rows of a block. -/
theorem Sim.validate (h : Sim platform v w) {q : BlockRef} (hf : floor w ≤ q.number) :
    validate w q = validate v q := by
  refine validate_congr h.run ?_ ?_
  · ext b
    simp only [Table.mem_select, decide_eq_true_eq]
    refine ⟨And.imp_left (h.rows b),?_⟩
    rintro ⟨hb,hn⟩
    exact ⟨h.kept b hb (by omega),hn⟩
  · ext m
    simp only [Table.mem_select, decide_eq_true_eq]
    refine ⟨And.imp_left (h.markers m),?_⟩
    rintro ⟨hm,hn⟩
    exact ⟨h.keptMarkers m hm (by omega),hn⟩

theorem Sim.floor_le (h : Sim platform v w) {r : BlockRef} (hr : v.progress = some r) :
    floor w ≤ r.number := by
  cases hp : w.pointer with
  | none => simp [floor, hp]
  | some p =>
    obtain ⟨q,hq,hle⟩ := h.covered p hp
    obtain rfl : q = r := Option.some.inj (hq.symm.trans hr)
    simpa [floor, hp] using hle

theorem Sim.floor_none (h : Sim platform v w) (hr : v.progress = none) : floor w = 0 := by
  cases hp : w.pointer with
  | none => simp [floor, hp]
  | some p =>
    obtain ⟨q,hq,-⟩ := h.covered p hp
    rw [hr] at hq
    cases hq

theorem Sim.saveProgress (h : Sim platform v w) {q : BlockRef} :
    saveProgress w = .ok q ↔ saveProgress v = .ok q := by
  rw [saveProgress_ok, saveProgress_ok, h.cursor, h.progress]
  refine and_congr_right (fun _ => ?_)
  cases hr : v.progress with
  | none =>
    have hf : floor w ≤ q.number := by rw [h.floor_none hr]; exact Nat.zero_le _
    rw [h.validate hf]
    simp
  | some r =>
    have hf := h.floor_le hr
    simp only [Option.some.injEq, forall_eq', h.validate hf]
    constructor
    · rintro ⟨hv,hvr,hle⟩
      exact ⟨by rwa [← h.validate (hf.trans hle)],hvr,hle⟩
    · rintro ⟨hv,hvr,hle⟩
      exact ⟨by rwa [h.validate (hf.trans hle)],hvr,hle⟩

end Progress

section Steps
variable {platform : Platform} {chain : Chain} {v w : SourceWorld}

/-- What holds of a world and its uncompacted twin all along a run. -/
structure Inv (platform : Platform) (chain : Chain) (v w : SourceWorld) : Prop where
  sim : Sim platform v w
  rows : ∀ b ∈ v.db.stateBlocks.rows, b ∈ chain.rows
  markers : ∀ m ∈ v.db.markers.rows, m ∈ chain.markers
  valid : ∀ q, v.progress = some q → validate v q = .ok ()
  pointer : v.pointer = none

theorem Inv.recorded (h : Inv platform chain v w) : Recorded v := by
  refine recorded_of_projected (fun b hb => chain.projected b (h.rows b hb)) ?_
  refine v.db.stateBlocks.sorted.imp_of_mem (fun {a b} ha hb hlt he => ?_)
  obtain rfl := chain.distinct a (h.rows a ha) b (h.rows b hb) he
  exact absurd hlt (lt_irrefl _)

theorem linked_block {n : ℕ} {parent : Option String} {l : List BlockState}
    (h : Linked n parent l) {k : ℕ} (hn : n ≤ k) (hk : k < n+l.length) :
    ∃ b ∈ l, b.number = k := by
  induction l generalizing n parent with
  | nil =>
    simp only [List.length_nil] at hk
    omega
  | cons b l ih =>
    rcases Nat.eq_or_lt_of_le hn with rfl | hlt
    · exact ⟨b,by simp,h.1⟩
    · obtain ⟨c,hc,he⟩ := ih h.2.2 hlt (by simp only [List.length_cons] at hk; omega)
      exact ⟨c,by simp [hc],he⟩

theorem history_upsert (h : Inv platform chain v w) {b : BlockState} (hb : b ∈ chain.rows)
    {p : Prefix} (hp : w.pointer = some p) :
    history (ingest (.block b) v) p.header.number = history v p.header.number := by
  obtain ⟨hl,hsum⟩ := h.sim.loaded p hp
  obtain ⟨-,hs,-,-,-⟩ := loadPrefix_some hp hl
  have hstart : p.startBlock = v.run.startBlock := by rw [hs, h.sim.run]
  by_cases hin : v.run.startBlock ≤ b.number ∧ b.number ≤ p.header.number
  · have hcount := hsum.complete
    rw [hstart] at hcount
    obtain ⟨c,hc,hn⟩ := linked_block (hstart ▸ hsum.linked) hin.1 (by omega)
    have hcv := (mem_between.mp hc).1
    obtain rfl := chain.distinct c (h.rows c hcv) b hb hn
    have hsame : v.db.stateBlocks.upsert c = v.db.stateBlocks := Table.upsert_of_mem hcv
    simp only [history, ingest, hsame]
  · have hsame : (v.db.stateBlocks.upsert b).select (fun a =>
        v.run.startBlock ≤ a.number && a.number ≤ p.header.number) =
        v.db.stateBlocks.select (fun a =>
          v.run.startBlock ≤ a.number && a.number ≤ p.header.number) := by
      refine Table.select_upsert (fun s hk => ?_)
      have hn : s.number = b.number := congrArg (fun k => (ofLex k).1) hk
      rw [hn]
      simp only [Bool.and_eq_false_iff, decide_eq_false_iff_not]
      omega
    exact congrArg Table.rows hsame

theorem mem_upsert_mono {ρ α : Type} [LinearOrder α] {key : ρ → α} {s t : Table key} {r : ρ}
    (h : ∀ a ∈ s.rows, a ∈ t.rows) : ∀ a ∈ (s.upsert r).rows, a ∈ (t.upsert r).rows := by
  intro a ha
  rw [Table.mem_upsert] at ha ⊢
  exact ha.imp_right (fun ⟨ha,hk⟩ => ⟨h a ha,hk⟩)

theorem mem_upsert_above {ρ α : Type} [LinearOrder α] {key : ρ → α} {s t : Table key} {r : ρ}
    {number : ρ → ℕ} {n : ℕ} (h : ∀ a ∈ t.rows, n ≤ number a → a ∈ s.rows) :
    ∀ a ∈ (t.upsert r).rows, n ≤ number a → a ∈ (s.upsert r).rows := by
  intro a ha hn
  rw [Table.mem_upsert] at ha ⊢
  exact ha.imp_right (fun ⟨ha,hk⟩ => ⟨h a ha hn,hk⟩)

theorem validate_ingest (h : Inv platform chain v w) {event : Event} (ha : chain.Allows event)
    {q : BlockRef} (hv : validate v q = .ok ()) : validate (ingest event v) q = .ok () := by
  rw [← hv]
  obtain ⟨⟨c,hc,hcn,-⟩,⟨m,hm,hmn,-⟩⟩ := validate_rows hv
  cases event with
  | block b =>
    refine validate_congr rfl ?_ rfl
    by_cases hn : b.number = q.number
    · obtain rfl := chain.distinct c (h.rows c hc) b ha (hcn.trans hn.symm)
      simp only [ingest, Table.upsert_of_mem hc]
    · refine Table.select_upsert (fun s hk => ?_)
      have hs : s.number = b.number := congrArg (fun k => (ofLex k).1) hk
      simpa [hs] using hn
  | marker k =>
    refine validate_congr rfl rfl ?_
    by_cases hn : k.number = q.number
    · obtain rfl := chain.marked m (h.markers m hm) k ha (hmn.trans hn.symm)
      simp only [ingest, Table.upsert_of_mem hm]
    · refine Table.select_upsert (fun s hk => ?_)
      have hs : s.number = k.number := congrArg (fun k => (ofLex k).1) hk
      simpa [hs] using hn
  | cursor position => rfl
  | publish checkpoints => rfl
  | save => refine validate_congr ?_ ?_ ?_ <;> simp only [ingest] <;> split <;> rfl

theorem sim_block (h : Inv platform chain v w) {b : BlockState} (hb : b ∈ chain.rows) :
    Sim platform (ingest (.block b) v) (ingest (.block b) w) := by
  have hs := h.sim
  refine ⟨hs.run,hs.cursor,hs.progress,mem_upsert_mono hs.rows,mem_upsert_above hs.kept,
    hs.markers,hs.keptMarkers,fun p hp => ?_,hs.covered⟩
  rw [history_upsert h hb hp]
  exact hs.loaded p hp

theorem sim_marker (h : Sim platform v w) {m : Marker} :
    Sim platform (ingest (.marker m) v) (ingest (.marker m) w) :=
  ⟨h.run,h.cursor,h.progress,h.rows,h.kept,mem_upsert_mono h.markers,
    mem_upsert_above h.keptMarkers,h.loaded,h.covered⟩

theorem sim_save (h : Sim platform v w) : Sim platform (ingest .save v) (ingest .save w) := by
  simp only [ingest]
  cases hw : saveProgress w with
  | error e =>
    cases hv : saveProgress v with
    | error e' => exact h
    | ok q =>
      rw [h.saveProgress.mpr hv] at hw
      cases hw
  | ok q =>
    have hv := h.saveProgress.mp hw
    rw [hv]
    refine ⟨h.run,h.cursor,rfl,h.rows,h.kept,h.markers,h.keptMarkers,h.loaded,fun p hp => ⟨q,rfl,?_⟩⟩
    obtain ⟨r,hr,hle⟩ := h.covered p hp
    exact hle.trans ((saveProgress_ok.mp hv).2.2 r hr).2

theorem save_db (w : SourceWorld) : (ingest .save w).db = w.db := by
  simp only [ingest]
  split <;> rfl

theorem save_pointer (w : SourceWorld) : (ingest .save w).pointer = w.pointer := by
  simp only [ingest]
  split <;> rfl

theorem inv_ingest (h : Inv platform chain v w) {event : Event} (ha : chain.Allows event) :
    Inv platform chain (ingest event v) (ingest event w) := by
  have hvalid : ∀ q, v.progress = some q → validate (ingest event v) q = .ok () :=
    fun q hq => validate_ingest h ha (h.valid q hq)
  cases event with
  | block b =>
    refine ⟨sim_block h ha,fun c hc => ?_,h.markers,hvalid,h.pointer⟩
    rcases Table.mem_upsert.mp hc with rfl | ⟨hc,-⟩
    · exact ha
    · exact h.rows c hc
  | marker m =>
    refine ⟨sim_marker h.sim,h.rows,fun k hk => ?_,hvalid,h.pointer⟩
    rcases Table.mem_upsert.mp hk with rfl | ⟨hk,-⟩
    · exact ha
    · exact h.markers k hk
  | cursor position =>
    have hs := h.sim
    exact ⟨⟨hs.run,rfl,hs.progress,hs.rows,hs.kept,hs.markers,hs.keptMarkers,hs.loaded,hs.covered⟩,
      h.rows,h.markers,hvalid,h.pointer⟩
  | publish checkpoints =>
    have hs := h.sim
    exact ⟨⟨hs.run,hs.cursor,hs.progress,hs.rows,hs.kept,hs.markers,hs.keptMarkers,hs.loaded,
      hs.covered⟩,h.rows,h.markers,hvalid,h.pointer⟩
  | save =>
    refine ⟨sim_save h.sim,save_db v ▸ h.rows,save_db v ▸ h.markers,fun q hq => ?_,?_⟩
    · refine validate_ingest h ha ?_
      simp only [ingest] at hq
      cases hv : saveProgress v with
      | error e =>
        rw [hv] at hq
        exact h.valid q hq
      | ok r =>
        rw [hv] at hq
        obtain rfl := Option.some.inj hq
        exact (saveProgress_ok.mp hv).2.1
    · rw [save_pointer]
      exact h.pointer

/-- A compaction that stops anywhere. -/
theorem inv_compact (h : Inv platform chain v w) {generation : String} (endBlock : Option ℕ)
    (script : List (Option String)) (hu : Unused generation w) :
    Inv platform chain v (ends (compactLocked platform generation endBlock) ⟨w,script⟩) := by
  let used : Set String := fun g => (∃ r ∈ w.db.bootstrapStorage, r.generation = g) ∨
    ∃ m ∈ w.db.bootstrapGenerations, m.generation = g
  have hk : Kept platform v used w :=
    ⟨h.sim,fun r hr => Or.inl ⟨r,hr,rfl⟩,fun m hm => Or.inr ⟨m,hm,rfl⟩⟩
  have hnew : generation ∉ used := by
    rintro (⟨r,hr,he⟩ | ⟨m,hm,he⟩)
    · exact hu.1 r hr he
    · exact hu.2 m hm he
  have hends := compactLocked_ends h.recorded hnew hk endBlock script
  exact ⟨hends.sim,h.rows,h.markers,h.valid,h.pointer⟩

theorem inv_run {start : SourceWorld} (hs : Fresh chain start) {events : List Event}
    (hr : Run platform chain start events w) :
    Inv platform chain (uncompacted start events) w := by
  induction hr with
  | start => exact ⟨Sim.refl hs.pointer,hs.rows,hs.markers,hs.valid,hs.pointer⟩
  | ingest run event allowed ih =>
    rw [uncompacted, List.foldl_append]
    exact inv_ingest ih allowed
  | compact run generation endBlock script unused ih => exact inv_compact ih endBlock script unused

end Steps

/-- In every state that compactions, crashes and ingestion reach, the pointer
names a generation that loads, the prefix and the raw rows above it answer
as a run that never compacted, and the block of the durable cursor is there. -/
theorem compaction_crash_safe (platform : Platform) (chain : Chain) (start w : SourceWorld)
    (events : List Event) (hstart : Fresh chain start) (hrun : Run platform chain start events w) :
    loadPrefix platform w = .ok w.pointer ∧
    w.progress = (uncompacted start events).progress ∧
    (∀ last, (∀ p, w.pointer = some p → p.header.number ≤ last) →
      reconstruct platform w last = reconstruct platform (uncompacted start events) last) ∧
    ∀ q, w.progress = some q →
      (∀ p, w.pointer = some p → p.header.number ≤ q.number) ∧
      (∃ b ∈ w.db.stateBlocks.rows, b.number = q.number ∧ b.hash = q.hash) ∧
      ∃ m ∈ w.db.markers.rows, m.number = q.number ∧
        "0x" ++ String.ofList (trimHex m.hash.toList) = q.hash := by
  have h := inv_run hstart hrun
  refine ⟨?_,h.sim.progress,fun last hl => ?_,fun q hq => ?_⟩
  · cases hp : w.pointer with
    | none => rw [loadPrefix, hp]
    | some p => exact (h.sim.loaded p hp).1
  · have hf : floor w ≤ last := by
      cases hp : w.pointer with
      | none => simp [floor, hp]
      | some p => simpa [floor, hp] using hl p hp
    rw [reconstruct_direct h.sim h.recorded hf,
      reconstruct_direct (Sim.refl h.pointer) h.recorded (by simp [floor, h.pointer])]
  · rw [h.sim.progress] at hq
    have hf := h.sim.floor_le hq
    refine ⟨fun p hp => by simpa [floor, hp] using hf,validate_rows ?_⟩
    rw [h.sim.validate hf]
    exact h.valid q hq

/-!
The sample blocks are ingested, a first compaction dies right after its
rename, and a second one moves on.
-/

section Sample
open EvmState.Replay

def sampleChain : Chain where
  rows := {b | b ∈ sampleRows}
  markers := {m | m ∈ sampleMarkers}
  distinct := by
    have h : ∀ a ∈ sampleRows, ∀ b ∈ sampleRows, a.number = b.number → a = b := by decide +kernel
    exact h
  marked := by
    have h : ∀ a ∈ sampleMarkers, ∀ b ∈ sampleMarkers, a.number = b.number → a = b := by
      decide +kernel
    exact h
  projected := sampleRows_projected

def sampleStart : SourceWorld :=
  { sampleWorld with db := ⟨.empty,.empty,[],[]⟩, cursor := none, progress := none }

def sampleEvents : List Event :=
  sampleRows.map .block ++ sampleMarkers.map .marker ++ [.cursor sampleHead,.save]

def sampleKilled : SourceWorld :=
  ends (compactLocked samplePlatform "00000000000000000000000000000000" (some 100))
    ⟨uncompacted sampleStart sampleEvents,List.replicate 20 none ++ [some "killed"]⟩

def sampleRetried : SourceWorld :=
  ends (compactLocked samplePlatform "11111111111111111111111111111111" none) ⟨sampleKilled,[]⟩

theorem sample_run : Run samplePlatform sampleChain sampleStart sampleEvents sampleRetried := by
  have hevents : ∀ e ∈ sampleEvents, sampleChain.Allows e := by
    intro e he
    simp only [sampleEvents, List.mem_append, List.mem_map, List.mem_cons, List.not_mem_nil,
      or_false] at he
    rcases he with (⟨b,hb,rfl⟩ | ⟨m,hm,rfl⟩) | rfl | rfl
    · exact hb
    · exact hm
    · trivial
    · trivial
  have hkilled : Run samplePlatform sampleChain sampleStart sampleEvents sampleKilled :=
    .compact (run_uncompacted hevents) _ _ _ (by decide +kernel)
  exact .compact hkilled _ _ _ (by decide +kernel)

theorem compaction_crash_safe_sample :
    loadPrefix samplePlatform sampleRetried = .ok sampleRetried.pointer ∧
    sampleRetried.progress = (uncompacted sampleStart sampleEvents).progress ∧
    (∀ last, (∀ p, sampleRetried.pointer = some p → p.header.number ≤ last) →
      reconstruct samplePlatform sampleRetried last =
        reconstruct samplePlatform (uncompacted sampleStart sampleEvents) last) ∧
    ∀ q, sampleRetried.progress = some q →
      (∀ p, sampleRetried.pointer = some p → p.header.number ≤ q.number) ∧
      (∃ b ∈ sampleRetried.db.stateBlocks.rows, b.number = q.number ∧ b.hash = q.hash) ∧
      ∃ m ∈ sampleRetried.db.markers.rows, m.number = q.number ∧
        "0x" ++ String.ofList (trimHex m.hash.toList) = q.hash := by
  have hstart : Fresh sampleChain sampleStart :=
    ⟨rfl,by simp [sampleStart, sampleWorld, Table.empty],
      by simp [sampleStart, sampleWorld, Table.empty],by simp [sampleStart]⟩
  exact compaction_crash_safe samplePlatform sampleChain sampleStart sampleRetried sampleEvents
    hstart sample_run

end Sample
end EvmState.Compaction
