import EvmState.Compaction

/-!
# Compaction under failures

Each step of a compaction may fail or be the last that the process makes.
The triples below follow the program step by step: what it deletes before
the pointer moves is not read by anyone, the pointer moves to a generation
that is complete, and what it deletes after that is below the new floor.
-/

set_option autoImplicit false

namespace EvmState.Compaction
open EvmState.Fallible EvmState.OrderedMap EvmState.BlockProjection EvmState.Store EvmState.Queries
open EvmState.Encoding EvmState.Interval EvmState.Crash EvmState.Bootstrap EvmState.Summary

/-- A world that may stop here: related to the uncompacted world, with
generation names from a known set. -/
structure Kept (platform : Platform) (v : SourceWorld) (used : Set String) (w : SourceWorld) :
    Prop where
  sim : Sim platform v w
  within : Within used w

structure At (platform : Platform) (v : SourceWorld) (used : Set String) (pointer : Option Prefix)
    (w : SourceWorld) : Prop extends Kept platform v used w where
  pointer : w.pointer = pointer

section Progress
variable {v w : SourceWorld}

theorem saveProgress_ok {q : BlockRef} :
    saveProgress w = .ok q ↔ w.cursor = some q ∧ validate w q = .ok () ∧
      ∀ r, w.progress = some r → validate w r = .ok () ∧ r.number ≤ q.number := by
  unfold saveProgress
  constructor
  · intro h
    obtain ⟨position,hc,h⟩ := bind_ok.mp h
    obtain ⟨_,hv,h⟩ := bind_ok.mp h
    cases hp : w.progress with
    | none =>
      rw [hp] at h
      obtain rfl := pure_ok.mp h
      exact ⟨context_ok.mp hc,hv,by simp⟩
    | some r =>
      rw [hp] at h
      obtain ⟨previous,hl,h⟩ := bind_ok.mp h
      obtain ⟨_,hle,h⟩ := bind_ok.mp h
      obtain rfl := pure_ok.mp h
      obtain ⟨r',hr,hl⟩ := bind_ok.mp hl
      obtain ⟨_,hvr,hl⟩ := bind_ok.mp hl
      obtain rfl := pure_ok.mp hl
      rw [context_ok, hp] at hr
      refine ⟨context_ok.mp hc,hv,fun s hs => ?_⟩
      obtain rfl : r = s := Option.some.inj hs
      obtain rfl : r = r' := Option.some.inj hr
      exact ⟨hvr,ensure_ok.mp hle⟩
  · rintro ⟨hc,hv,hp⟩
    refine bind_ok.mpr ⟨q,context_ok.mpr hc,bind_ok.mpr ⟨(),hv,?_⟩⟩
    cases hr : w.progress with
    | none => rfl
    | some r =>
      obtain ⟨hvr,hle⟩ := hp r hr
      refine bind_ok.mpr ⟨r,?_,bind_ok.mpr ⟨(),ensure_ok.mpr hle,rfl⟩⟩
      exact bind_ok.mpr ⟨r,context_ok.mpr hr,bind_ok.mpr ⟨(),hvr,rfl⟩⟩

theorem validate_congr {q : BlockRef} (hrun : v.run = w.run)
    (hb : v.db.stateBlocks.select (fun b => b.number = q.number) =
      w.db.stateBlocks.select (fun b => b.number = q.number))
    (hm : v.db.markers.select (fun m => m.number = q.number) =
      w.db.markers.select (fun m => m.number = q.number)) : validate v q = validate w q := by
  have hb := congrArg Table.rows hb
  have hm := congrArg Table.rows hm
  simp only [Table.select] at hb hm
  simp only [validate, hrun, hb, hm]

theorem validate_rows {q : BlockRef} (h : validate w q = .ok ()) :
    (∃ b ∈ w.db.stateBlocks.rows, b.number = q.number ∧ b.hash = q.hash) ∧
      ∃ m ∈ w.db.markers.rows, m.number = q.number ∧
        "0x" ++ String.ofList (trimHex m.hash.toList) = q.hash := by
  obtain ⟨_,-,h⟩ := bind_ok.mp h
  obtain ⟨hl,hs,hm,ha⟩ := ensure_ok.mp h
  obtain ⟨b,hb⟩ := List.length_eq_one_iff.mp hl
  obtain ⟨m,hmk⟩ := List.length_eq_one_iff.mp hm
  have hbm : b ∈ w.db.stateBlocks.rows.filter (fun b => b.number = q.number) := by simp [hb]
  have hmm : m ∈ w.db.markers.rows.filter (fun m => m.number = q.number) := by simp [hmk]
  have hbs := List.all_eq_true.mp hs b hbm
  have hms := List.all_eq_true.mp ha m hmm
  simp only [Bool.and_eq_true, decide_eq_true_eq] at hbs hms
  obtain ⟨hbr,hbn⟩ := List.mem_filter.mp hbm
  obtain ⟨hmr,hmn⟩ := List.mem_filter.mp hmm
  exact ⟨⟨b,hbr,by simpa using hbn,hbs.1.1.1.1⟩,⟨m,hmr,by simpa using hmn,hms⟩⟩

end Progress

section Within
variable {w w' : SourceWorld} {used used' : Set String}

theorem Within.mono (h : Within used w) (hu : used ⊆ used')
    (hs : ∀ r ∈ w'.db.bootstrapStorage, r ∈ w.db.bootstrapStorage)
    (hg : ∀ g ∈ w'.db.bootstrapGenerations, g ∈ w.db.bootstrapGenerations) : Within used' w' :=
  ⟨fun r hr => hu (h.1 r (hs r hr)),fun g hm => hu (h.2 g (hg g hm))⟩

variable {platform : Platform} {v : SourceWorld} {pointer : Option Prefix}

theorem Kept.mono (h : Kept platform v used w) (hu : used ⊆ used') : Kept platform v used' w :=
  ⟨h.sim,h.within.mono hu (fun _ hr => hr) (fun _ hm => hm)⟩

theorem At.names (h : At platform v used pointer w) {keep : String}
    (hk : ∀ p, pointer = some p → p.generation = keep) : Names keep w :=
  fun p hp => hk p (h.pointer ▸ hp)

theorem Kept.pointer_used (h : Kept platform v used w) {p : Prefix} (hp : w.pointer = some p) :
    p.generation ∈ used := by
  obtain ⟨-,-,-,-,hm⟩ := loadPrefix_some hp (h.sim.loaded p hp).1
  have hmem : (⟨p.generation,p⟩ : GenerationRow) ∈
      w.db.bootstrapGenerations.filter (fun g => g.generation = p.generation) := by simp [hm]
  exact h.within.2 _ (List.mem_filter.mp hmem).1

end Within

section Drops
variable {platform : Platform} {v : SourceWorld} {used : Set String} {pointer : Option Prefix}

theorem oldGenerations_ne {ρ : Type} {rows : List ρ} {f : ρ → String} {keep g : String}
    (h : g ∈ oldGenerations rows f keep) : g ≠ keep := by
  simpa using (List.mem_filter.mp h).2

theorem dropOldGenerations_keeps {keep : String}
    (hk : ∀ p, pointer = some p → p.generation = keep) :
    Triple (At platform v used pointer) (dropOldGenerations keep)
      (fun _ => At platform v used pointer) (Kept platform v used) := by
  have hC : ∀ w, At platform v used pointer w → Kept platform v used w := fun _ h => h.toKept
  have hdrop : ∀ (f : String → SourceWorld → SourceWorld),
      (∀ g w, At platform v used pointer w → g ≠ keep → At platform v used pointer (f g w)) →
      ∀ old : List String, (∀ g ∈ old, g ≠ keep) →
      Triple (At platform v used pointer)
        (old.forM (fun g => do
          check (objectId g)
          perform (f g))) (fun _ => At platform v used pointer) (Kept platform v used) := by
    intro f hf old hold
    refine triple_forM (fun g hg => ?_)
    refine triple_bind (triple_check (fun _ _ h _ => h) hC) (fun _ => ?_)
    exact triple_perform (fun w h => hf g w h (hold g hg)) hC
  have hman : ∀ g w, At platform v used pointer w → g ≠ keep →
      At platform v used pointer (dropManifest g w) := fun g w h hg =>
    ⟨⟨h.sim.dropManifest (h.names hk) hg,
      h.within.mono subset_rfl (fun _ hr => hr) (fun _ hm => (List.mem_filter.mp hm).1)⟩,h.pointer⟩
  have hsto : ∀ g w, At platform v used pointer w → g ≠ keep →
      At platform v used pointer (dropStorage g w) := fun g w h hg =>
    ⟨⟨h.sim.dropStorage (h.names hk) hg,
      h.within.mono subset_rfl (fun _ hr => (List.mem_filter.mp hr).1) (fun _ hm => hm)⟩,h.pointer⟩
  let M : List String → SourceWorld → Prop := fun old w =>
    At platform v used pointer w ∧ ∀ g ∈ old, g ≠ keep
  have hfirst : Triple (At platform v used pointer)
      (query (fun w => .ok (oldGenerations w.db.bootstrapGenerations (·.generation) keep)))
      M (Kept platform v used) :=
    triple_query (fun w old h he => ⟨h,fun g hg => oldGenerations_ne (Except.ok.inj he ▸ hg)⟩) hC
  have hsecond : Triple (At platform v used pointer)
      (query (fun w => .ok (oldGenerations w.db.bootstrapStorage (·.generation) keep)))
      M (Kept platform v used) :=
    triple_query (fun w old h he => ⟨h,fun g hg => oldGenerations_ne (Except.ok.inj he ▸ hg)⟩) hC
  refine triple_bind hfirst (fun old => ?_)
  refine triple_bind (M := fun _ => At platform v used pointer) ?_ (fun _ => ?_)
  · intro s hs
    exact hdrop dropManifest hman old hs.2 s hs.1
  · refine triple_bind hsecond (fun old => ?_)
    intro s hs
    exact hdrop dropStorage hsto old hs.2 s hs.1

theorem partitionsBefore_safe {ρ : Type} {rows : List ρ} {partition number : ρ → ℕ} {before id : ℕ}
    (h : id ∈ partitionsBefore rows partition number before) :
    ∀ r ∈ rows, partition r = id → number r < before := by
  intro r hr hid
  have := List.all_eq_true.mp (List.mem_filter.mp h).2 r hr
  simpa [hid] using this

/-- The plan of a cleanup, as long as it still fits the tables. -/
structure Planned (platform : Platform) (p : Prefix) (plan : List ℕ × List ℕ) (w : SourceWorld) :
    Prop where
  blocks : ∀ id ∈ plan.1, ∀ b ∈ w.db.stateBlocks.rows, stateBlocksPartition platform b = id →
    b.number < p.header.number
  markers : ∀ id ∈ plan.2, ∀ m ∈ w.db.markers.rows, markersPartition platform m = id →
    m.number < p.header.number

theorem cleanup_keeps {p : Prefix} :
    Triple (At platform v used (some p)) (cleanup platform p)
      (fun _ => At platform v used (some p)) (Kept platform v used) := by
  let S : List ℕ × List ℕ → SourceWorld → Prop := fun plan w =>
    At platform v used (some p) w ∧ Planned platform p plan w
  have hfl : ∀ w, At platform v used (some p) w → floor w = p.header.number := fun w h => by
    simp [floor, h.pointer]
  have hblocks : ∀ plan id w, S plan w → id ∈ plan.1 → S plan (dropStateBlocks platform id w) := by
    rintro plan id w ⟨h,hs⟩ hid
    have hsim : Sim platform v (dropStateBlocks platform id w) :=
      h.sim.dropStateBlocks (fun b hb he => by
        rw [hfl w h]
        exact hs.blocks id hid b hb he)
    refine ⟨⟨⟨hsim,h.within⟩,h.pointer⟩,⟨fun id hid b hb => ?_,hs.markers⟩⟩
    exact hs.blocks id hid b (Table.mem_select.mp hb).1
  have hmarkers : ∀ plan id w, S plan w → id ∈ plan.2 → S plan (dropMarkers platform id w) := by
    rintro plan id w ⟨h,hs⟩ hid
    have hsim : Sim platform v (dropMarkers platform id w) :=
      h.sim.dropMarkers (fun m hm he => by
        rw [hfl w h]
        exact hs.markers id hid m hm he)
    refine ⟨⟨⟨hsim,h.within⟩,h.pointer⟩,⟨hs.blocks,fun id hid m hm => ?_⟩⟩
    exact hs.markers id hid m (Table.mem_select.mp hm).1
  have hplan : Triple (At platform v used (some p)) (query (fun w => .ok
      (partitionsBefore w.db.stateBlocks.rows (stateBlocksPartition platform) (·.number)
        p.header.number,
      partitionsBefore w.db.markers.rows (markersPartition platform) (·.number) p.header.number)))
      S (Kept platform v used) := by
    refine triple_query (fun w plan h he => ?_) (fun _ h => h.toKept)
    obtain rfl := Except.ok.inj he
    exact ⟨h,⟨fun id hid => partitionsBefore_safe hid,fun id hid => partitionsBefore_safe hid⟩⟩
  refine triple_bind hplan (fun plan => ?_)
  have hC : ∀ w, S plan w → Kept platform v used w := fun _ h => h.1.toKept
  refine triple_bind (M := fun _ => S plan) (triple_forM (fun id hid => ?_)) (fun _ => ?_)
  · exact triple_perform (fun w h => hblocks plan id w h hid) hC
  · refine triple_bind (M := fun _ => S plan) (triple_forM (fun id hid => ?_)) (fun _ => ?_)
    · exact triple_perform (fun w h => hmarkers plan id w h hid) hC
    · refine (dropOldGenerations_keeps (fun q hq => ?_)).weaken (fun _ h => h.1) (fun _ _ h => h)
        (fun _ h => h)
      rw [Option.some.inj hq]

end Drops

section Candidate
variable {platform : Platform} {v w : SourceWorld} {used : Set String} {pointer : Option Prefix}
  {generation : String}

theorem progress_ok {w : SourceWorld} {q : BlockRef} (h : progress w = .ok q) :
    w.progress = some q := by
  obtain ⟨_,hl,h⟩ := bind_ok.mp h
  obtain ⟨_,-,h⟩ := bind_ok.mp h
  obtain ⟨_,hq,hl⟩ := bind_ok.mp hl
  obtain ⟨_,-,hl⟩ := bind_ok.mp hl
  obtain rfl := pure_ok.mp hl
  obtain rfl := pure_ok.mp h
  exact context_ok.mp hq

structure Chosen (platform : Platform) (v : SourceWorld) (endBlock : Option ℕ) (used : Set String)
    (r : Source × Header) (w : SourceWorld) : Prop extends Kept platform v used w where
  source : r.1 = picked w.run w.pointer
  floor : floor w ≤ r.2.number
  ready : Ready v r.2
  asked : ∀ e, endBlock = some e → r.2.number = e

theorem prepare_keeps (endBlock : Option ℕ) :
    Triple (Kept platform v used) (prepare platform endBlock)
      (Chosen platform v endBlock used) (Kept platform v used) := by
  have hC : ∀ w, Kept platform v used w → Kept platform v used w := fun _ h => h
  refine triple_bind (triple_next hC) (fun _ => ?_)
  refine triple_bind (triple_query (Q := fun _ => Kept platform v used) (fun _ _ h _ => h) hC)
    (fun _ => ?_)
  refine triple_bind (triple_query (Q := fun run w => Kept platform v used w ∧ run = v.run)
    (fun w run h he => ⟨h,(Except.ok.inj he).symm.trans h.sim.run⟩) hC) (fun run => ?_)
  refine triple_bind (triple_query (Q := fun tip w => Kept platform v used w ∧ run = v.run ∧
    v.progress = some tip) (fun w tip h he => ⟨h.1,h.2,h.1.sim.progress ▸ progress_ok he⟩)
    (fun _ h => h.1)) (fun tip => ?_)
  refine triple_bind (triple_check (Q := fun _ w => Kept platform v used w ∧
    v.progress = some tip ∧ endBlock.getD tip.number ≤ tip.number)
    (fun w _ h he => ⟨h.1,h.2.2,(ensure_ok.mp he).2⟩) (fun _ h => h.1)) (fun _ => ?_)
  refine triple_bind (triple_query (Q := fun header w => Kept platform v used w ∧
    v.progress = some tip ∧ endBlock.getD tip.number ≤ tip.number ∧
    headerAt (endBlock.getD tip.number) w = .ok header)
    (fun w header h he => ⟨h.1,h.2.1,h.2.2,he⟩) (fun _ h => h.1)) (fun header => ?_)
  refine triple_bind (triple_query (Q := fun source w => Kept platform v used w ∧
    v.progress = some tip ∧ endBlock.getD tip.number ≤ tip.number ∧
    headerAt (endBlock.getD tip.number) w = .ok header ∧ source = picked w.run w.pointer)
    (fun w source h he => ⟨h.1,h.2.1,h.2.2.1,h.2.2.2,?_⟩) (fun _ h => h.1)) (fun source => ?_)
  · rw [selectPrefix_picked h.1.sim] at he
    exact (Except.ok.inj he).symm
  · refine triple_bind (triple_query (Q := fun _ => Chosen platform v endBlock used (source,header))
      (fun w _ h he => ?_) (fun _ h => h.1)) (fun _ => ?_)
    · obtain ⟨hk,hq,hle,hh,rfl⟩ := h
      have hnum : header.number = endBlock.getD tip.number := by
        obtain ⟨b,hb,rfl⟩ := headerAt_ok.mp hh
        have : b ∈ w.db.stateBlocks.rows.filter
            (fun b => b.number = endBlock.getD tip.number) := by simp [hb]
        simpa [headerOf] using (List.mem_filter.mp this).2
      obtain ⟨hf,hr⟩ := accepted_ready hk.sim hq (hnum ▸ hle) hh he
      exact ⟨hk,rfl,hf,hr,fun e hs => by rw [hnum, hs]; rfl⟩
    · exact triple_pure _ (fun _ h => h)


/-- The rows of the generation for a block, from the raw rows alone. -/
def directRows (v : SourceWorld) (generation : String) (last : ℕ) : List BootstrapRow :=
  (directSlots (history v last)).entries.map
    (fun e => ⟨generation,(ofLex e.1).1,(ofLex e.1).2,e.2⟩)

theorem candidateRows_direct {last : ℕ} {rows : List BootstrapRow} (h : Sim platform v w)
    (hv : Recorded v) (hf : floor w ≤ last)
    (hr : candidateRows w (picked w.run w.pointer) generation last = .ok rows) :
    rows = directRows v generation last := by
  rw [candidateRows, unionStorage_one] at hr
  obtain ⟨u,hu,hr⟩ := bind_ok.mp hr
  obtain ⟨_,-,hu⟩ := bind_ok.mp hu
  obtain rfl := pure_ok.mp hu
  obtain rfl := pure_ok.mp hr
  rw [pickedStorage h hv hf, directRows]

theorem observedFields_direct {last : ℕ} {fields : Fields} (h : Sim platform v w)
    (hv : Recorded v) (hf : floor w ≤ last)
    (hr : observedFields (fun _ => w.db) w.checkpoints [picked w.run w.pointer] none last =
      .ok fields) : fields = directFields (history v last) := by
  rw [observedFields_one] at hr
  obtain ⟨_,-,hr⟩ := bind_ok.mp hr
  obtain rfl := pure_ok.mp hr
  exact pickedFields h hv hf

/-- A new generation with its rows, before or after its manifest. -/
structure Written (platform : Platform) (v : SourceWorld) (used : Set String)
    (pointer : Option Prefix) (generation : String) (last : ℕ) (manifests : List GenerationRow)
    (w : SourceWorld) : Prop extends At platform v (insert generation used) pointer w where
  rows : generationRows w.db generation = directRows v generation last
  manifests : w.db.bootstrapGenerations.filter (fun g => g.generation = generation) = manifests

theorem filter_none {ρ : Type} {f : ρ → String} {l : List ρ} {a : String}
    (h : ∀ r ∈ l, f r ≠ a) : l.filter (fun r => f r = a) = [] :=
  List.filter_eq_nil_iff.mpr (fun r hr => by simpa using h r hr)

theorem filter_all {ρ : Type} {f : ρ → String} {l : List ρ} {a : String}
    (h : ∀ r ∈ l, f r = a) : l.filter (fun r => f r = a) = l :=
  List.filter_eq_self.mpr (fun r hr => by simpa using h r hr)

theorem insertStorage_written {last : ℕ} (h : At platform v used pointer w)
    (hg : generation ∉ used) :
    Written platform v used pointer generation last []
      (insertStorage (directRows v generation last) w) := by
  have hnew : ∀ r ∈ directRows v generation last, r.generation = generation := by
    intro r hr
    obtain ⟨e,-,rfl⟩ := List.mem_map.mp hr
    rfl
  have hsim : Sim platform v (insertStorage (directRows v generation last) w) := by
    refine h.sim.frame rfl rfl rfl rfl (fun _ hb => hb) (fun _ hb _ => hb) (fun _ hb => hb)
      (fun _ hb _ => hb) (fun _ _ => rfl) (fun p hp => ?_)
    have hne : p.generation ≠ generation := fun he => hg (he ▸ h.toKept.pointer_used hp)
    have hnil : generationRows ⟨w.db.stateBlocks,w.db.markers,directRows v generation last,
        w.db.bootstrapGenerations⟩ p.generation = [] :=
      filter_none (fun r hr => by rw [hnew r hr]; exact hne.symm)
    rw [generationRows] at hnil
    rw [generationRows, insertStorage, List.filter_append, hnil, List.append_nil]
    rfl
  refine ⟨⟨⟨hsim,⟨fun r hr => ?_,fun m hm => Or.inr (h.within.2 m hm)⟩⟩,h.pointer⟩,?_,?_⟩
  · rcases List.mem_append.mp hr with hr | hr
    · exact Or.inr (h.within.1 r hr)
    · exact Or.inl (hnew r hr)
  · have hnil : generationRows w.db generation = [] :=
      filter_none (fun r hr he => hg (he ▸ h.within.1 r hr))
    rw [generationRows] at hnil
    rw [generationRows, insertStorage, List.filter_append, hnil, filter_all hnew, List.nil_append]
  · exact filter_none (fun m hm he => hg (he ▸ h.within.2 m hm))

theorem insertManifest_written {last : ℕ} {record : Prefix}
    (h : Written platform v used pointer generation last [] w) (hg : generation ∉ used)
    (hp : ∀ p, pointer = some p → p.generation ∈ used) :
    Written platform v used pointer generation last [⟨generation,record⟩]
      (insertManifest ⟨generation,record⟩ w) := by
  have hsim : Sim platform v (insertManifest ⟨generation,record⟩ w) := by
    refine h.sim.frame rfl rfl rfl rfl (fun _ hb => hb) (fun _ hb _ => hb) (fun _ hb => hb)
      (fun _ hb _ => hb) (fun p hw => ?_) (fun _ _ => rfl)
    have hne : generation ≠ p.generation := fun he => hg (he ▸ hp p (h.pointer ▸ hw))
    simp [insertManifest, List.filter_append, hne]
  refine ⟨⟨⟨hsim,⟨h.within.1,fun m hm => ?_⟩⟩,h.pointer⟩,h.rows,?_⟩
  · rcases List.mem_append.mp hm with hm | hm
    · exact h.within.2 m hm
    · exact Or.inl (by rw [List.mem_singleton.mp hm])
  · rw [insertManifest, List.filter_append, h.manifests]
    simp

theorem renamePointer_at {header : Header} {measured : Measured} (hr : Ready v header)
    (hf : (pointer.map (·.header.number)).getD 0 ≤ header.number)
    (hd : digest platform (directRows v generation header.number) generation
      (directFields (history v header.number)) v.run.accounts = .ok measured)
    (h : Written platform v used pointer generation header.number [⟨generation,recordOf v.run
      generation header (directFields (history v header.number)) measured⟩] w) :
    At platform v (insert generation used) (some (recordOf v.run generation header
      (directFields (history v header.number)) measured)) (renamePointer (recordOf v.run generation
        header (directFields (history v header.number)) measured) w) := by
  let record := recordOf v.run generation header (directFields (history v header.number)) measured
  have hfl : floor w ≤ header.number := by rwa [floor, h.pointer]
  have hobj : objectId generation = .ok () := by
    obtain ⟨_,-,hd⟩ := bind_ok.mp hd
    obtain ⟨_,ho,-⟩ := bind_ok.mp hd
    exact ho
  have hload : loadPrefix platform (renamePointer record w) = .ok (some record) := by
    have hrun : w.run = v.run := h.sim.run
    refine bind_ok.mpr ⟨(),ensure_ok.mpr ⟨rfl,rfl,?_,?_,?_⟩,?_⟩
    · exact congrArg Run.binding hrun.symm
    · exact congrArg Run.startBlock hrun.symm
    · exact congrArg Run.accounts hrun.symm
    · refine bind_ok.mpr ⟨(),hobj,bind_ok.mpr ⟨_,one_ok.mpr h.manifests,?_⟩⟩
      refine bind_ok.mpr ⟨(),ensure_ok.mpr rfl,bind_ok.mpr ⟨(),ensure_ok.mpr hr.start,?_⟩⟩
      refine bind_ok.mpr ⟨measured,?_,bind_ok.mpr ⟨(),ensure_ok.mpr rfl,rfl⟩⟩
      have hrows : generationRows (renamePointer record w).db record.generation =
        directRows v generation header.number := h.rows
      rw [hrows]
      exact hd
  have hrows : (directRows v generation header.number).map rowEntry =
      (directSlots (history v header.number)).entries := by
    rw [directRows, List.map_map]
    exact List.map_id _
  refine ⟨⟨⟨h.sim.run,h.sim.cursor,h.sim.progress,h.sim.rows,fun b hb hn => ?_,h.sim.markers,
    fun m hm hn => ?_,?_,?_⟩,h.within⟩,rfl⟩
  · exact h.sim.kept b hb (hfl.trans hn)
  · exact h.sim.keptMarkers m hm (hfl.trans hn)
  · intro p hp
    obtain rfl := Option.some.inj hp
    refine ⟨hload,hr.linked,hr.complete,hr.ends,hr.sound,?_,rfl⟩
    have : generationRows (renamePointer record w).db record.generation =
      directRows v generation header.number := h.rows
    rw [this]
    exact hrows
  · intro p hp
    obtain rfl := Option.some.inj hp
    exact hr.covered


theorem compactTo_keeps (hv : Recorded v) {source : Source} {header : Header}
    (hs : source = picked v.run pointer) (hr : Ready v header)
    (hf : (pointer.map (·.header.number)).getD 0 ≤ header.number) (hg : generation ∉ used) :
    Triple (At platform v used pointer) (compactTo platform generation source header)
      (fun p w => At platform v (insert generation used) (some p) w ∧ p.header = header)
      (Kept platform v (insert generation used)) := by
  have hsub : used ⊆ insert generation used := Set.subset_insert _ _
  have hC : ∀ w, At platform v used pointer w → Kept platform v (insert generation used) w :=
    fun w h => h.toKept.mono hsub
  have hfl : ∀ w, At platform v used pointer w → floor w ≤ header.number := fun w h => by
    rwa [floor, h.pointer]
  have hpick : ∀ u w, At platform v u pointer w → source = picked w.run w.pointer := fun u w h => by
    rw [hs, h.sim.run, h.pointer]
  refine triple_bind (triple_next hC) (fun _ => ?_)
  have hdrop : Triple (At platform v used pointer)
      (dropOldGenerations ((source.bootstrap.map (·.generation)).getD ""))
      (fun _ => At platform v used pointer) (Kept platform v (insert generation used)) := by
    refine (dropOldGenerations_keeps (fun p hp => ?_)).weaken (fun _ h => h) (fun _ _ h => h)
      (fun _ h => h.mono hsub)
    simp [hs, picked, hp]
  refine triple_bind hdrop (fun _ => ?_)
  refine triple_bind (triple_next hC) (fun _ => ?_)
  refine triple_bind (triple_query (Q := fun rows w => At platform v used pointer w ∧
    rows = directRows v generation header.number) (fun w rows h he => ⟨h,?_⟩) hC) (fun rows => ?_)
  · rw [hpick _ w h] at he
    exact candidateRows_direct h.sim hv (hfl w h) he
  let W : List GenerationRow → SourceWorld → Prop := fun manifests w =>
    Written platform v used pointer generation header.number manifests w ∧
      ∀ p, pointer = some p → p.generation ∈ used
  have hW : ∀ manifests w, W manifests w → Kept platform v (insert generation used) w :=
    fun _ _ h => h.1.toKept
  refine triple_bind (triple_perform (R := fun _ => W []) (fun w h => ?_)
    (fun w h => hC w h.1)) (fun _ => ?_)
  · obtain ⟨h,rfl⟩ := h
    exact ⟨insertStorage_written h hg,fun p hp => h.toKept.pointer_used (h.pointer.trans hp)⟩
  refine triple_bind (triple_query (Q := fun fields w => W [] w ∧
    fields = directFields (history v header.number)) (fun w fields h he => ⟨h,?_⟩) (hW []))
    (fun fields => ?_)
  · rw [hpick _ w h.1.toAt] at he
    refine observedFields_direct h.1.sim hv ?_ he
    rwa [floor, h.1.pointer]
  refine triple_bind (triple_query (Q := fun measured w => W [] w ∧
    fields = directFields (history v header.number) ∧
    digest platform (directRows v generation header.number) generation
      (directFields (history v header.number)) v.run.accounts = .ok measured)
    (fun w measured h he => ⟨h.1,h.2,?_⟩) (fun _ h => hW [] _ h.1)) (fun measured => ?_)
  · rw [h.1.1.rows, h.2, h.1.1.sim.run] at he
    exact he
  refine triple_bind (triple_next (fun _ h => hW [] _ h.1)) (fun _ => ?_)
  refine triple_bind (triple_query (Q := fun run w => W [] w ∧
    fields = directFields (history v header.number) ∧
    digest platform (directRows v generation header.number) generation
      (directFields (history v header.number)) v.run.accounts = .ok measured ∧ run = v.run)
    (fun w run h he => ⟨h.1,h.2.1,h.2.2,(Except.ok.inj he).symm.trans h.1.1.sim.run⟩)
    (fun _ h => hW [] _ h.1)) (fun run => ?_)
  let record := recordOf run generation header fields measured
  let D : SourceWorld → Prop := fun w =>
    Written platform v used pointer generation header.number [⟨generation,record⟩] w ∧
    fields = directFields (history v header.number) ∧
    digest platform (directRows v generation header.number) generation
      (directFields (history v header.number)) v.run.accounts = .ok measured ∧ run = v.run
  have hD : ∀ w, D w → Kept platform v (insert generation used) w := fun _ h => h.1.toKept
  refine triple_bind (triple_perform (R := fun _ => D)
    (fun w h => ⟨insertManifest_written h.1.1 hg h.1.2,h.2⟩) (fun _ h => hW [] _ h.1)) (fun _ => ?_)
  refine triple_bind (triple_next hD) (fun _ => ?_)
  -- the commit point: from here the new generation answers
  refine triple_bind (triple_perform
    (R := fun _ => At platform v (insert generation used) (some record)) (fun w h => ?_) hD)
    (fun _ => ?_)
  · obtain ⟨h,rfl,hd,rfl⟩ := h
    exact renamePointer_at hr hf hd h
  have hK : ∀ w, At platform v (insert generation used) (some record) w →
      Kept platform v (insert generation used) w := fun _ h => h.toKept
  refine triple_bind (triple_query
    (Q := fun _ => At platform v (insert generation used) (some record)) (fun _ _ h _ => h) hK)
    (fun _ => ?_)
  refine triple_bind (triple_check
    (Q := fun _ => At platform v (insert generation used) (some record)) (fun _ _ h _ => h) hK)
    (fun _ => ?_)
  refine triple_bind cleanup_keeps (fun _ => ?_)
  refine triple_bind (triple_query
    (Q := fun _ => At platform v (insert generation used) (some record)) (fun _ _ h _ => h) hK)
    (fun _ => ?_)
  exact triple_pure _ (fun _ h => ⟨h,rfl⟩)

/-- A compaction keeps the history wherever it stops, and a compaction that
returns has moved the pointer to its end block. -/
theorem compactLocked_keeps (hv : Recorded v) (hg : generation ∉ used) (endBlock : Option ℕ) :
    Triple (Kept platform v used) (compactLocked platform generation endBlock)
      (fun p w => At platform v (insert generation used) (some p) w ∧
        ∀ e, endBlock = some e → p.header.number = e)
      (Kept platform v (insert generation used)) := by
  have hsub : used ⊆ insert generation used := Set.subset_insert _ _
  refine triple_bind ((prepare_keeps endBlock).weaken (fun _ h => h) (fun _ _ h => h)
    (fun _ h => h.mono hsub)) ?_
  rintro ⟨source,header⟩
  cases hp : source.bootstrap.filter (fun p => p.header.number = header.number) with
  | some previous =>
    obtain ⟨hb,hn⟩ := Option.filter_eq_some_iff.mp hp
    have hn : previous.header.number = header.number := by simpa using hn
    simp only [hp]
    have hclean : Triple (Chosen platform v endBlock used (source,header))
        (cleanup platform previous) (fun _ w => At platform v used (some previous) w ∧
          ∀ e, endBlock = some e → previous.header.number = e)
        (Kept platform v (insert generation used)) := by
      intro s hs
      have hat : At platform v used (some previous) s.state := by
        refine ⟨hs.toKept,?_⟩
        have := hs.source
        simp only [picked] at this
        rw [← hb, this]
      have hend : ∀ e, endBlock = some e → previous.header.number = e := fun e he => by
        rw [hn]
        exact hs.asked e he
      have ht : Triple (At platform v used (some previous)) (cleanup platform previous)
          (fun _ w => At platform v used (some previous) w ∧
            ∀ e, endBlock = some e → previous.header.number = e)
          (Kept platform v (insert generation used)) :=
        cleanup_keeps.weaken (fun _ h => h) (fun _ _ h => ⟨h,hend⟩) (fun _ h => h.mono hsub)
      exact ht s hat
    refine triple_bind hclean (fun _ => ?_)
    refine triple_bind (triple_query (Q := fun _ w => At platform v used (some previous) w ∧
      ∀ e, endBlock = some e → previous.header.number = e) (fun _ _ h _ => h)
      (fun _ h => h.1.toKept.mono hsub)) (fun _ => ?_)
    exact triple_pure _ (fun _ h => ⟨⟨h.1.toKept.mono hsub,h.1.pointer⟩,h.2⟩)
  | none =>
    simp only [hp]
    intro s hs
    have hpick : source = picked v.run s.state.pointer := by
      rw [← hs.sim.run]
      exact hs.source
    have ht : Triple (At platform v used s.state.pointer)
        (compactTo platform generation source header)
        (fun p w => At platform v (insert generation used) (some p) w ∧
          ∀ e, endBlock = some e → p.header.number = e)
        (Kept platform v (insert generation used)) := by
      refine (compactTo_keeps hv hpick hs.ready hs.floor hg).weaken (fun _ h => h)
        (fun p w h => ⟨h.1,fun e he => ?_⟩) (fun _ h => h)
      rw [h.2]
      exact hs.asked e he
    exact ht s ⟨hs.toKept,rfl⟩

theorem compactLocked_ends (hv : Recorded v) (hg : generation ∉ used)
    (h : Kept platform v used w) (endBlock : Option ℕ) (script : List (Option String)) :
    Kept platform v (insert generation used)
      (ends (compactLocked platform generation endBlock) ⟨w,script⟩) := by
  have ht : Triple (Kept platform v used) (compactLocked platform generation endBlock)
      (fun _ => Kept platform v (insert generation used))
      (Kept platform v (insert generation used)) :=
    (compactLocked_keeps hv hg endBlock).weaken (fun _ h => h) (fun _ _ h => h.1.toKept)
      (fun _ h => h)
  exact ht.ends h

end Candidate
end EvmState.Compaction
