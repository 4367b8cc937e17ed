import EvmState.Summary

/-!
# Compaction and the history that it replaces

A source world `w` that compacts is compared with a world `v` that has all
raw rows and never does. `Sim` says what compaction has to keep: the raw rows
from the end of the prefix on, and a prefix that loads and summarises the
rows of `v` up to there. Every step of a compaction keeps it, so it holds
wherever a run stops.
-/

set_option autoImplicit false

namespace EvmState.Compaction
open EvmState.Fallible EvmState.OrderedMap EvmState.BlockProjection EvmState.Store EvmState.Queries
open EvmState.Encoding EvmState.Interval EvmState.Crash EvmState.Bootstrap EvmState.Summary

def headerOf (b : BlockState) : Header := ⟨b.number,b.hash,b.parentHash,b.stateRoot,b.timestamp⟩

def rowEntry (r : BootstrapRow) : SlotKey × String := (toLex (r.address,r.slot),r.value)

theorem lastHash_header {l : List BlockState} {h : Header}
    (hl : l.getLast?.map headerOf = some h) : lastHash none l = some h.hash := by
  rw [Option.map_eq_some_iff] at hl
  obtain ⟨b,hb,rfl⟩ := hl
  simp [lastHash, hb, headerOf]

/-- A generation summarises a hash-linked history that starts at the start
of the run and ends at the generation's header. -/
structure Summarises (history : List BlockState) (p : Prefix) (rows : List BootstrapRow) : Prop where
  linked : Linked p.startBlock none history
  complete : p.startBlock+history.length = p.header.number+1
  header : history.getLast?.map headerOf = some p.header
  sound : ∃ cohort, accountSet p.accounts = .ok cohort ∧
    ∀ b ∈ history, Sound (joinAccounts cohort) b
  rows : rows.map rowEntry = (directSlots history).entries
  fields : p.fields = directFields history

/-- Raw rows of a range of blocks. -/
def history (w : SourceWorld) (last : ℕ) : List BlockState := between w.db w.run.startBlock last

/-- The first block whose raw row a world must still have. -/
def floor (w : SourceWorld) : ℕ := (w.pointer.map (·.header.number)).getD 0

section Lists

theorem filter_split {ρ : Type} {f : ρ → ℕ} {l : List ρ} (h : l.Pairwise (fun a b => f a ≤ f b))
    {a b c : ℕ} (hab : a ≤ b+1) (hbc : b ≤ c) :
    l.filter (fun x => a ≤ f x && f x ≤ c) =
      l.filter (fun x => a ≤ f x && f x ≤ b) ++ l.filter (fun x => b+1 ≤ f x && f x ≤ c) := by
  induction l with
  | nil => rfl
  | cons x l ih =>
    obtain ⟨hx,hl⟩ := List.pairwise_cons.mp h
    have ih := ih hl
    by_cases hb : f x ≤ b
    · by_cases ha : a ≤ f x
      · have h1 : (decide (a ≤ f x) && decide (f x ≤ c)) = true := by simp; omega
        have h2 : (decide (a ≤ f x) && decide (f x ≤ b)) = true := by simp; omega
        have h3 : (decide (b+1 ≤ f x) && decide (f x ≤ c)) = false := by simp; omega
        simp only [List.filter_cons, h1, h2, h3, if_true, ih]
        simp
      · have h1 : (decide (a ≤ f x) && decide (f x ≤ c)) = false := by simp; omega
        have h2 : (decide (a ≤ f x) && decide (f x ≤ b)) = false := by simp; omega
        have h3 : (decide (b+1 ≤ f x) && decide (f x ≤ c)) = false := by simp; omega
        simp only [List.filter_cons, h1, h2, h3, ih]
        simp
    · -- every later element is past the cut as well
      have hnone : ∀ y ∈ x::l, (decide (a ≤ f y) && decide (f y ≤ b)) = false := by
        intro y hy
        have hxy : f x ≤ f y := by
          rcases List.mem_cons.mp hy with rfl | hy
          · exact le_refl _
          · exact hx y hy
        simp
        omega
      have hsame : ∀ y ∈ x::l, (decide (a ≤ f y) && decide (f y ≤ c)) =
          (decide (b+1 ≤ f y) && decide (f y ≤ c)) := by
        intro y hy
        have hxy : f x ≤ f y := by
          rcases List.mem_cons.mp hy with rfl | hy
          · exact le_refl _
          · exact hx y hy
        have h1 : a ≤ f y := by omega
        have h2 : b+1 ≤ f y := by omega
        simp [h1, h2]
      have hnil : (x::l).filter (fun y => a ≤ f y && f y ≤ b) = [] :=
        List.filter_eq_nil_iff.mpr (fun y hy => by simp only [hnone y hy, Bool.false_eq_true,
          not_false_eq_true])
      rw [hnil, List.nil_append]
      exact List.filter_congr hsame

theorem stateBlocks_ascending (db : SourceDb) :
    db.stateBlocks.rows.Pairwise (fun a b => a.number ≤ b.number) := by
  refine db.stateBlocks.sorted.imp (fun {a b} h => ?_)
  rcases Prod.Lex.toLex_lt_toLex.mp h with h | ⟨h,-⟩ <;> omega

theorem between_split (db : SourceDb) {first last : ℕ} (cut : ℕ) (h : first ≤ cut+1)
    (hc : cut ≤ last) :
    between db first last = between db first cut ++ between db (cut+1) last :=
  filter_split (stateBlocks_ascending db) h hc

theorem mem_between {db : SourceDb} {first last : ℕ} {b : BlockState} :
    b ∈ between db first last ↔ b ∈ db.stateBlocks.rows ∧ first ≤ b.number ∧ b.number ≤ last := by
  simp [between, List.mem_filter]

theorem between_congr {db db' : SourceDb} {first last : ℕ}
    (h : ∀ b, first ≤ b.number → (b ∈ db.stateBlocks.rows ↔ b ∈ db'.stateBlocks.rows)) :
    between db first last = between db' first last := by
  have ht : db.stateBlocks.select (fun b => first ≤ b.number && b.number ≤ last) =
      db'.stateBlocks.select (fun b => first ≤ b.number && b.number ≤ last) := by
    ext b
    simp only [Table.mem_select, Bool.and_eq_true, decide_eq_true_eq]
    constructor
    · rintro ⟨hb,hf,hl⟩
      exact ⟨(h b hf).mp hb,hf,hl⟩
    · rintro ⟨hb,hf,hl⟩
      exact ⟨(h b hf).mpr hb,hf,hl⟩
  exact congrArg Table.rows ht

end Lists

section Sim
variable (platform : Platform)

structure Sim (v w : SourceWorld) : Prop where
  run : w.run = v.run
  cursor : w.cursor = v.cursor
  progress : w.progress = v.progress
  rows : ∀ b ∈ w.db.stateBlocks.rows, b ∈ v.db.stateBlocks.rows
  kept : ∀ b ∈ v.db.stateBlocks.rows, floor w ≤ b.number → b ∈ w.db.stateBlocks.rows
  markers : ∀ m ∈ w.db.markers.rows, m ∈ v.db.markers.rows
  keptMarkers : ∀ m ∈ v.db.markers.rows, floor w ≤ m.number → m ∈ w.db.markers.rows
  loaded : ∀ p, w.pointer = some p → loadPrefix platform w = .ok (some p) ∧
    Summarises (history v p.header.number) p (generationRows w.db p.generation)
  covered : ∀ p, w.pointer = some p → ∃ q, v.progress = some q ∧ p.header.number ≤ q.number

variable {platform} {v w w' : SourceWorld}

theorem loadPrefix_some {p q : Prefix} (hp : w.pointer = some p)
    (h : loadPrefix platform w = .ok (some q)) :
    q = p ∧ p.startBlock = w.run.startBlock ∧ p.accounts = w.run.accounts ∧
      p.startBlock ≤ p.header.number ∧
      w.db.bootstrapGenerations.filter (fun g => g.generation = p.generation) =
        [⟨p.generation,p⟩] := by
  simp only [loadPrefix, hp] at h
  obtain ⟨_,hid,h⟩ := bind_ok.mp h
  obtain ⟨_,-,h⟩ := bind_ok.mp h
  obtain ⟨stored,hst,h⟩ := bind_ok.mp h
  obtain ⟨_,hm,h⟩ := bind_ok.mp h
  obtain ⟨_,hr,h⟩ := bind_ok.mp h
  obtain ⟨_,-,h⟩ := bind_ok.mp h
  obtain ⟨_,-,h⟩ := bind_ok.mp h
  have hid := ensure_ok.mp hid
  have hst := one_ok.mp hst
  have hgen : stored.generation = p.generation := by
    have : stored ∈ w.db.bootstrapGenerations.filter (fun g => g.generation = p.generation) := by
      rw [hst]
      simp
    simpa using (List.mem_filter.mp this).2
  obtain rfl := ensure_ok.mp hm
  refine ⟨(Option.some.inj (pure_ok.mp h)).symm,hid.2.2.2.1,hid.2.2.2.2,ensure_ok.mp hr,?_⟩
  rw [hst]
  cases stored
  simp_all

/-- Loading depends on the pointer, the run and the rows of one generation. -/
theorem loadPrefix_congr (hp : w'.pointer = w.pointer) (hrun : w'.run = w.run)
    (hm : ∀ p, w.pointer = some p →
      w'.db.bootstrapGenerations.filter (fun g => g.generation = p.generation) =
        w.db.bootstrapGenerations.filter (fun g => g.generation = p.generation))
    (hs : ∀ p, w.pointer = some p →
      generationRows w'.db p.generation = generationRows w.db p.generation) :
    loadPrefix platform w' = loadPrefix platform w := by
  unfold loadPrefix
  rw [hp]
  cases hw : w.pointer with
  | none => rfl
  | some p => simp only [hm p hw, hs p hw, hrun]

theorem Sim.frame (h : Sim platform v w) (hrun : w'.run = w.run) (hc : w'.cursor = w.cursor)
    (hpr : w'.progress = w.progress) (hp : w'.pointer = w.pointer)
    (hrows : ∀ b ∈ w'.db.stateBlocks.rows, b ∈ w.db.stateBlocks.rows)
    (hkept : ∀ b ∈ w.db.stateBlocks.rows, floor w ≤ b.number → b ∈ w'.db.stateBlocks.rows)
    (hmarkers : ∀ m ∈ w'.db.markers.rows, m ∈ w.db.markers.rows)
    (hkeptm : ∀ m ∈ w.db.markers.rows, floor w ≤ m.number → m ∈ w'.db.markers.rows)
    (hm : ∀ p, w.pointer = some p →
      w'.db.bootstrapGenerations.filter (fun g => g.generation = p.generation) =
        w.db.bootstrapGenerations.filter (fun g => g.generation = p.generation))
    (hs : ∀ p, w.pointer = some p →
      generationRows w'.db p.generation = generationRows w.db p.generation) :
    Sim platform v w' := by
  have hfl : floor w' = floor w := by rw [floor, floor, hp]
  refine ⟨hrun.trans h.run,hc.trans h.cursor,hpr.trans h.progress,fun b hb => h.rows b (hrows b hb),
    fun b hb hf => ?_,fun m hb => h.markers m (hmarkers m hb),fun m hb hf => ?_,fun p hw => ?_,
    fun p hw => h.covered p (hp ▸ hw)⟩
  · rw [hfl] at hf
    exact hkept b (h.kept b hb hf) hf
  · rw [hfl] at hf
    exact hkeptm m (h.keptMarkers m hb hf) hf
  · rw [hp] at hw
    obtain ⟨hl,hsum⟩ := h.loaded p hw
    exact ⟨(loadPrefix_congr hp hrun hm hs).trans hl,by rwa [hs p hw]⟩

theorem filter_other {ρ : Type} {f : ρ → String} {l : List ρ} {a b : String} (h : a ≠ b) :
    (l.filter (fun r => f r ≠ b)).filter (fun r => f r = a) = l.filter (fun r => f r = a) := by
  rw [List.filter_filter]
  refine List.filter_congr (fun r _ => ?_)
  by_cases hr : f r = a <;> simp [hr, h]

def Names (keep : String) (w : SourceWorld) : Prop := ∀ p, w.pointer = some p → p.generation = keep

theorem Sim.dropManifest (h : Sim platform v w) {keep g : String} (hn : Names keep w)
    (hg : g ≠ keep) : Sim platform v (dropManifest g w) :=
  h.frame rfl rfl rfl rfl (fun _ hb => hb) (fun _ hb _ => hb) (fun _ hb => hb) (fun _ hb _ => hb)
    (fun p hp => filter_other (hn p hp ▸ hg.symm)) (fun _ _ => rfl)

theorem Sim.dropStorage (h : Sim platform v w) {keep g : String} (hn : Names keep w)
    (hg : g ≠ keep) : Sim platform v (dropStorage g w) :=
  h.frame rfl rfl rfl rfl (fun _ hb => hb) (fun _ hb _ => hb) (fun _ hb => hb) (fun _ hb _ => hb)
    (fun _ _ => rfl) (fun p hp => filter_other (hn p hp ▸ hg.symm))

theorem Sim.dropStateBlocks (h : Sim platform v w) {id : ℕ}
    (hid : ∀ b ∈ w.db.stateBlocks.rows, stateBlocksPartition platform b = id → b.number < floor w) :
    Sim platform v (dropStateBlocks platform id w) :=
  h.frame rfl rfl rfl rfl (fun _ hb => (Table.mem_select.mp hb).1)
    (fun b hb hf => Table.mem_select.mpr ⟨hb,by
      have hne : stateBlocksPartition platform b ≠ id := fun he => absurd (hid b hb he) (by omega)
      simpa using hne⟩)
    (fun _ hb => hb) (fun _ hb _ => hb) (fun _ _ => rfl) (fun _ _ => rfl)

theorem Sim.dropMarkers (h : Sim platform v w) {id : ℕ}
    (hid : ∀ m ∈ w.db.markers.rows, markersPartition platform m = id → m.number < floor w) :
    Sim platform v (dropMarkers platform id w) :=
  h.frame rfl rfl rfl rfl (fun _ hb => hb) (fun _ hb _ => hb) (fun _ hb => (Table.mem_select.mp hb).1)
    (fun m hb hf => Table.mem_select.mpr ⟨hb,by
      have hne : markersPartition platform m ≠ id := fun he => absurd (hid m hb he) (by omega)
      simpa using hne⟩)
    (fun _ _ => rfl) (fun _ _ => rfl)

end Sim

def picked (run : Run) (pointer : Option Prefix) : Source :=
  { runSource run with
    bootstrap := pointer
    deltaStart := pointer.map (fun p => p.header.number+1) }

/-- The rows that a run from its start would give, as every raw row decides. -/
structure Recorded (v : SourceWorld) : Prop where
  distinct : Distinct v.db.stateBlocks.rows
  wellFormed : ∀ b ∈ v.db.stateBlocks.rows, WellFormed b

section Reconstruct
variable {platform : Platform} {v w : SourceWorld} {last : ℕ}

theorem selectPrefix_picked (h : Sim platform v w) :
    selectPrefix platform w (runSource w.run) = .ok (picked w.run w.pointer) := by
  cases hp : w.pointer with
  | none =>
    refine bind_ok.mpr ⟨none,by rw [loadPrefix, hp],?_⟩
    simp only [picked, Option.map_none]
    rfl
  | some p =>
    have hl := (h.loaded p hp).1
    obtain ⟨-,hs,-,hr,-⟩ := loadPrefix_some hp hl
    have hle : w.run.startBlock ≤ p.header.number := hs ▸ hr
    refine bind_ok.mpr ⟨some p,hl,?_⟩
    simp only [picked, runSource, hle, if_true, Option.map_some]
    exact bind_ok.mpr ⟨(),ensure_ok.mpr hs.symm,rfl⟩

theorem history_distinct (last : ℕ) (h : Recorded v) : Distinct (history v last) :=
  h.distinct.sublist List.filter_sublist

theorem history_wellFormed (last : ℕ) (h : Recorded v) : ∀ b ∈ history v last, WellFormed b :=
  fun b hb => h.wellFormed b (mem_between.mp hb).1

theorem prefixStorage_summary {db : SourceDb} {p : Prefix} {slots : SortedMap SlotKey String}
    (h : (generationRows db p.generation).map rowEntry = slots.entries) :
    prefixStorage db p = summaryRows p.header.number slots := by
  rw [summaryRows, ← h, List.map_map]
  rfl

theorem history_split (h : Sim platform v w) {p : Prefix} (hp : w.pointer = some p)
    (hf : floor w ≤ last) :
    history v last = history v p.header.number ++ between w.db (p.header.number+1) last := by
  obtain ⟨-,hs,-,hr,-⟩ := loadPrefix_some hp (h.loaded p hp).1
  have hfl : floor w = p.header.number := by simp [floor, hp]
  have hafter : between v.db (p.header.number+1) last = between w.db (p.header.number+1) last :=
    between_congr (fun b hb => ⟨fun hv => h.kept b hv (by omega),h.rows b⟩)
  rw [history, between_split v.db p.header.number (by rw [← h.run]; omega) (by omega),
    hafter]
  rfl

theorem history_below {n : ℕ} : ∀ b ∈ history v n, b.number ≤ n :=
  fun _ hb => (mem_between.mp hb).2.2

theorem between_above {db : SourceDb} {n m : ℕ} : ∀ b ∈ between db (n+1) m, n < b.number :=
  fun _ hb => (mem_between.mp hb).2.1

theorem history_raw (last : ℕ) (h : Sim platform v w) (hp : w.pointer = none) :
    history v last = between w.db w.run.startBlock last := by
  rw [history, ← h.run]
  exact between_congr (fun b _ => ⟨fun hv => h.kept b hv (by simp [floor, hp]),h.rows b⟩)

theorem pickedStorage (h : Sim platform v w) (hv : Recorded v) (hf : floor w ≤ last) :
    finalStorage (joinResets (sourceStorage (fun _ => w.db) last (picked w.run w.pointer))
      (sourceResets (fun _ => w.db) last (picked w.run w.pointer))) = directSlots (history v last) := by
  cases hp : w.pointer with
  | none =>
    have hraw := history_raw last h hp
    simp only [sourceStorage, sourceResets, sourceBlocks, Source.rawStart, picked, runSource,
      Option.map_none, Option.getD_none, List.nil_append, directSlots, hraw]
  | some p =>
    have hsum := (h.loaded p hp).2
    have hsplit := history_split h hp hf
    have hd := history_distinct last hv
    have hw := history_wellFormed last hv
    rw [hsplit] at hd hw
    have happend := slots_append hd hw history_below between_above
    simp only [sourceStorage, sourceResets, sourceBlocks, Source.rawStart, picked,
      Option.map_some, Option.getD_some, prefixStorage_summary hsum.rows]
    rw [hsplit]
    exact happend

theorem pickedFields (h : Sim platform v w) (hv : Recorded v) (hf : floor w ≤ last) :
    sourceFields (fun _ => w.db) last .empty (picked w.run w.pointer) = directFields (history v last) := by
  cases hp : w.pointer with
  | none =>
    have hraw := history_raw last h hp
    simp only [sourceFields, sourceBlocks, Source.rawStart, picked, runSource, Option.map_none,
      Option.getD_none, directFields, hraw]
  | some p =>
    have hsum := (h.loaded p hp).2
    have hsplit := history_split h hp hf
    have hd := history_distinct last hv
    have hw := history_wellFormed last hv
    rw [hsplit] at hd hw
    have happend := fields_append hd hw history_below between_above
    simp only [sourceFields, sourceBlocks, Source.rawStart, picked, Option.map_some,
      Option.getD_some, hsum.fields]
    rw [hsplit]
    exact happend

theorem unionStorage_one (databases : String → SourceDb) (checkpoints : CheckpointDb)
    (source : Source) (last : ℕ) :
    unionStorage databases checkpoints [source] none last = (do
      identifier source.database
      return joinResets (sourceStorage databases last source)
        (sourceResets databases last source)) := by
  cases hi : identifier source.database <;>
    simp [unionStorage, hi, ensure, bind, Except.bind, pure, Except.pure]

theorem observedFields_one (databases : String → SourceDb) (checkpoints : CheckpointDb)
    (source : Source) (last : ℕ) :
    observedFields databases checkpoints [source] none last = (do
      identifier source.database
      return sourceFields databases last .empty source) := by
  cases hi : identifier source.database <;>
    simp [observedFields, hi, bind, Except.bind, pure, Except.pure]

/-- The storage and the fields that the source of a run has at a block, from
its prefix and the raw rows above it. -/
def reconstruct (platform : Platform) (w : SourceWorld) (last : ℕ) :
    Except String (SortedMap SlotKey String × Fields) := do
  let source ← selectPrefix platform w (runSource w.run)
  let union ← unionStorage (fun _ => w.db) w.checkpoints [source] none last
  let fields ← observedFields (fun _ => w.db) w.checkpoints [source] none last
  return (finalStorage union,fields)

theorem reconstruct_direct (h : Sim platform v w) (hv : Recorded v) (hf : floor w ≤ last) :
    reconstruct platform w last = (do
      identifier v.run.database
      return (directSlots (history v last),directFields (history v last))) := by
  have hid : (picked w.run w.pointer).database = v.run.database := by
    rw [← h.run]
    rfl
  have hstart : reconstruct platform w last = (do
      let union ← unionStorage (fun _ => w.db) w.checkpoints [picked w.run w.pointer] none last
      let fields ← observedFields (fun _ => w.db) w.checkpoints [picked w.run w.pointer] none last
      return (finalStorage union,fields)) := by
    rw [reconstruct, selectPrefix_picked h]
    rfl
  rw [hstart, unionStorage_one, observedFields_one, hid, pickedFields h hv hf, ← pickedStorage h hv hf]
  cases identifier v.run.database <;> rfl

end Reconstruct
/-- The rows up to a header are a complete chain of the run, and the run has
durably passed it. -/
structure Ready (v : SourceWorld) (header : Header) : Prop where
  start : v.run.startBlock ≤ header.number
  linked : Linked v.run.startBlock none (history v header.number)
  complete : v.run.startBlock+(history v header.number).length = header.number+1
  ends : (history v header.number).getLast?.map headerOf = some header
  sound : ∃ cohort, accountSet v.run.accounts = .ok cohort ∧
    ∀ b ∈ history v header.number, Sound (joinAccounts cohort) b
  covered : ∃ q, v.progress = some q ∧ header.number ≤ q.number

def Within (used : Set String) (w : SourceWorld) : Prop :=
  (∀ r ∈ w.db.bootstrapStorage, r.generation ∈ used) ∧
    ∀ g ∈ w.db.bootstrapGenerations, g.generation ∈ used

section Steps
variable {platform : Platform} {v w : SourceWorld} {last : ℕ}

theorem headerAt_ok {header : Header} :
    headerAt last w = .ok header ↔
      ∃ b, w.db.stateBlocks.rows.filter (fun b => b.number = last) = [b] ∧ headerOf b = header := by
  constructor
  · intro h
    obtain ⟨b,hb,h⟩ := bind_ok.mp h
    exact ⟨b,one_ok.mp hb,pure_ok.mp h⟩
  · rintro ⟨b,hb,rfl⟩
    exact bind_ok.mpr ⟨b,one_ok.mpr hb,rfl⟩

/-- The chain of an accepted source: its prefix, then its raw rows. -/
theorem accepted_history (h : Sim platform v w) {header : Target} {cohort : List String}
    {first : Scan} (ha : Accepted (picked w.run w.pointer) header cohort first
      (between w.db first.expected header.number)) :
    floor w ≤ header.number ∧ v.run.startBlock ≤ header.number ∧
      Linked v.run.startBlock none (history v header.number) ∧
      v.run.startBlock+(history v header.number).length = header.number+1 ∧
      accountSet v.run.accounts = .ok cohort ∧
      ∀ b ∈ history v header.number, Sound (joinAccounts cohort) b := by
  have hacc : accountSet v.run.accounts = .ok cohort := by
    rw [← h.run]
    exact ha.accounts
  have hrange : v.run.startBlock ≤ header.number := by
    rw [← h.run]
    exact ha.range
  cases hp : w.pointer with
  | none =>
    have hs := ha.start
    obtain rfl := scanStart_none (by simp [picked, hp]) hs
    have hfl : floor w = 0 := by simp [floor, hp]
    have hraw := history_raw header.number h hp
    rw [hraw, ← h.run]
    exact ⟨by omega,ha.range,ha.linked,ha.complete,h.run ▸ hacc,ha.sound⟩
  | some p =>
    obtain ⟨hl,hsum⟩ := h.loaded p hp
    obtain ⟨-,hstart,hacct,-,-⟩ := loadPrefix_some hp hl
    have hs := ha.start
    obtain ⟨-,hle,-,rfl⟩ := scanStart_some (p := p) (by simp [picked, hp]) hs
    have hfl : floor w ≤ header.number := by simpa [floor, hp] using hle
    have hfirst := lastHash_header hsum.header
    have hlink := hsum.linked
    have hcount := hsum.complete
    rw [hstart, h.run] at hlink hcount
    have hrest := ha.linked
    have hnum := ha.complete
    simp only at hrest hnum
    rw [history_split h hp hfl]
    refine ⟨hfl,hrange,linked_append.mpr ⟨hlink,?_⟩,?_,hacc,?_⟩
    · rw [hcount, hfirst]
      exact hrest
    · rw [List.length_append]
      omega
    · obtain ⟨cohort',hc,hsound⟩ := hsum.sound
      obtain rfl : cohort' = cohort := by
        rw [hacct, h.run, hacc] at hc
        exact (Except.ok.inj hc).symm
      intro b hb
      rcases List.mem_append.mp hb with hb | hb
      · exact hsound b hb
      · exact ha.sound b hb

theorem accepted_ready (h : Sim platform v w) {header : Header} {q : BlockRef} {count : ℕ}
    (hq : v.progress = some q) (hle : header.number ≤ q.number)
    (hh : headerAt last w = .ok header)
    (hv : validateInterval w.db (picked w.run w.pointer)
      ⟨header.number,header.hash,header.stateRoot⟩ = .ok count) :
    floor w ≤ header.number ∧ Ready v header := by
  obtain ⟨cohort,first,ha⟩ := validateInterval_ok hv
  obtain ⟨hf,hs,hlinked,hcount,hacc,hsound⟩ := accepted_history h ha
  refine ⟨hf,hs,hlinked,hcount,?_,⟨cohort,hacc,hsound⟩,q,hq,hle⟩
  obtain ⟨row,hrow,rfl⟩ := headerAt_ok.mp hh
  simp only [headerOf] at hcount hf hlinked ⊢
  -- the last block of the chain is the only row at its number
  have hne : history v row.number ≠ [] := by
    intro he
    rw [he] at hcount
    simp only [List.length_nil] at hcount
    have : v.run.startBlock ≤ row.number := hs
    omega
  obtain ⟨l,b,hb⟩ := List.eq_nil_or_concat (history v row.number) |>.resolve_left hne
  have hmem : b ∈ history v row.number := by simp [hb]
  have hnum : b.number = row.number := by
    rw [hb, List.concat_eq_append] at hlinked hcount
    have := (linked_append.mp hlinked).2.1
    simp only [List.length_append, List.length_singleton] at hcount
    omega
  have hw : b ∈ w.db.stateBlocks.rows := h.kept b (mem_between.mp hmem).1 (by omega)
  have hlast : row.number = last := by
    have : row ∈ w.db.stateBlocks.rows.filter (fun b => b.number = last) := by simp [hrow]
    simpa using (List.mem_filter.mp this).2
  have hone : b ∈ w.db.stateBlocks.rows.filter (fun b => b.number = last) :=
    List.mem_filter.mpr ⟨hw,by simp [hnum, hlast]⟩
  rw [hrow] at hone
  obtain rfl : b = row := by simpa using hone
  simp [hb, headerOf]

end Steps
end EvmState.Compaction
