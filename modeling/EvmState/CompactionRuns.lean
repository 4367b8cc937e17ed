import EvmState.CompactionSteps
import EvmState.Replay

/-!
# Runs of compactions

Compactions at any blocks of a history answer as the history does, and so do
compactions that stop anywhere, are tried again and alternate with the
ingestion of blocks.
-/

set_option autoImplicit false

namespace EvmState.Compaction
open EvmState.Fallible EvmState.OrderedMap EvmState.BlockProjection EvmState.Store EvmState.Queries
open EvmState.Encoding EvmState.Interval EvmState.Crash EvmState.Bootstrap EvmState.Summary

def Projected (row : BlockState) : Prop := ∃ params block, project params block = .ok row

theorem recorded_of_projected {v : SourceWorld}
    (hp : ∀ b ∈ v.db.stateBlocks.rows, Projected b) (hd : Distinct v.db.stateBlocks.rows) :
    Recorded v :=
  ⟨hd,fun b hb => by
    obtain ⟨params,block,h⟩ := hp b hb
    exact project_wellFormed h⟩

section Cuts
variable {platform : Platform}

theorem Sim.refl {w : SourceWorld} (h : w.pointer = none) : Sim platform w w :=
  ⟨rfl,rfl,rfl,fun _ hb => hb,fun _ hb _ => hb,fun _ hm => hm,fun _ hm _ => hm,
    fun p hp => by simp [h] at hp,fun p hp => by simp [h] at hp⟩

/-- Compactions at one end block after the other, each with a generation of
its own. -/
def compactAll (platform : Platform) : List (String × ℕ) → Prog SourceWorld Unit
  | [] => pure ()
  | cut::cuts => do
    let _ ← compactLocked platform cut.1 (some cut.2)
    compactAll platform cuts

def EndsAt (last : Option ℕ) (w : SourceWorld) : Prop := w.pointer.map (·.header.number) = last

theorem compactAll_keeps {v : SourceWorld} (hv : Recorded v) {cuts : List (String × ℕ)}
    {used : Set String} {last : Option ℕ} (hn : (cuts.map Prod.fst).Nodup)
    (hu : ∀ c ∈ cuts, c.1 ∉ used) :
    Triple (fun w => Kept platform v used w ∧ EndsAt last w) (compactAll platform cuts)
      (fun _ w => (∃ all, Kept platform v all w) ∧ EndsAt ((cuts.getLast?.map Prod.snd).or last) w)
      (fun _ => True) := by
  induction cuts generalizing used last with
  | nil => exact triple_pure () (fun _ h => ⟨⟨used,h.1⟩,h.2⟩)
  | cons cut cuts ih =>
    obtain ⟨hfirst,hrest⟩ := List.nodup_cons.mp hn
    have hcut : Triple (fun w => Kept platform v used w ∧ EndsAt last w)
        (compactLocked platform cut.1 (some cut.2))
        (fun _ w => Kept platform v (insert cut.1 used) w ∧ EndsAt (some cut.2) w)
        (fun _ => True) := by
      refine (compactLocked_keeps hv (hu cut (by simp)) (some cut.2)).weaken (fun _ h => h.1)
        (fun p w h => ⟨h.1.toKept,?_⟩) (fun _ _ => trivial)
      rw [EndsAt, h.1.pointer, Option.map_some, h.2 cut.2 rfl]
    refine triple_bind hcut (fun _ => ?_)
    have hnew : ∀ c ∈ cuts, c.1 ∉ insert cut.1 used := by
      rintro c hc (he | hm)
      · exact hfirst (he ▸ List.mem_map_of_mem hc)
      · exact hu c (by simp [hc]) hm
    refine (ih hrest hnew).weaken (fun _ h => h) (fun _ w h => ⟨h.1,?_⟩) (fun _ h => h)
    have hlast := h.2
    cases cuts with
    | nil => simpa using hlast
    | cons c cs =>
      rw [List.getLast?_cons_cons]
      simpa [List.getLast?_cons] using hlast

end Cuts

/-- Whatever the cuts, the last generation holds the state that the raw rows
have at its block, and prefix and raw rows together answer for every later
block as the raw rows alone do. -/
theorem compaction_transparent (platform : Platform) (w : SourceWorld) (cuts : List (String × ℕ))
    (script : List (Option String)) (h : Host SourceWorld) (hpointer : w.pointer = none)
    (hprojected : ∀ b ∈ w.db.stateBlocks.rows, Projected b)
    (hdistinct : Distinct w.db.stateBlocks.rows) (hids : (cuts.map Prod.fst).Nodup)
    (hstorage : ∀ c ∈ cuts, ∀ r ∈ w.db.bootstrapStorage, r.generation ≠ c.1)
    (hmanifests : ∀ c ∈ cuts, ∀ g ∈ w.db.bootstrapGenerations, g.generation ≠ c.1)
    (hrun : compactAll platform cuts ⟨w,script⟩ = .ok () h) :
    (∀ c ∈ cuts.getLast?, ∃ p, h.state.pointer = some p ∧ p.header.number = c.2 ∧
      (generationRows h.state.db p.generation).map rowEntry =
        (directSlots (history w c.2)).entries ∧
      p.fields = directFields (history w c.2)) ∧
    ∀ last, (∀ c ∈ cuts.getLast?, c.2 ≤ last) →
      reconstruct platform h.state last = reconstruct platform w last := by
  have hv : Recorded w := recorded_of_projected hprojected hdistinct
  let used : Set String := fun g => (∃ r ∈ w.db.bootstrapStorage, r.generation = g) ∨
    ∃ m ∈ w.db.bootstrapGenerations, m.generation = g
  have hstart : Kept platform w used w :=
    ⟨Sim.refl hpointer,fun r hr => Or.inl ⟨r,hr,rfl⟩,fun m hm => Or.inr ⟨m,hm,rfl⟩⟩
  have hnew : ∀ c ∈ cuts, c.1 ∉ used := by
    rintro c hc (⟨r,hr,he⟩ | ⟨m,hm,he⟩)
    · exact hstorage c hc r hr he
    · exact hmanifests c hc m hm he
  obtain ⟨⟨all,hk⟩,he⟩ := (compactAll_keeps hv hids hnew).ok (h := ⟨w,script⟩)
    ⟨hstart,congrArg _ hpointer⟩ hrun
  have hend : h.state.pointer.map (·.header.number) = cuts.getLast?.map Prod.snd := by
    simpa [EndsAt] using he
  refine ⟨fun c hc => ?_,fun last hl => ?_⟩
  · rw [hc, Option.map_some, Option.map_eq_some_iff] at hend
    obtain ⟨p,hp,hn⟩ := hend
    have hsum := (hk.sim.loaded p hp).2
    rw [hn] at hsum
    exact ⟨p,hp,hn,hsum.rows,hsum.fields⟩
  · have hfl : floor h.state ≤ last := by
      rw [floor, hend]
      cases hc : cuts.getLast? with
      | none => simp
      | some c => simpa using hl c hc
    rw [reconstruct_direct hk.sim hv hfl,
      reconstruct_direct (Sim.refl hpointer) hv (by simp [floor, hpointer])]

/-!
The two sample blocks, compacted at the first and then at the second.
-/

section Sample
open EvmState.Replay

/-- The digests of the two prefixes of the sample, whose blocks are all of
January 1970. -/
def samplePlatform : Platform where
  sha256 text :=
    if text = "\x7b\x7d" ++ sampleParams ++ sampleWord "1" ++ sampleWord "7" then
      "bf46879ae108a3c53659b482a97473a07a39592ccebe18efa1cb13a6e4879568"
    else "cb73d3ab83c104c81e8850b61b681c130784559159cb40b89702188202102df4"
  fromSlice _ := none
  toDate _ := 19700101
  toYYYYMM _ := 197001

def sampleMarkers : List Marker := sampleRows.map (fun b => ⟨b.number,b.hash,b.timestamp⟩)

def sampleHead : Option BlockRef := sampleRows.getLast?.map (fun b => ⟨b.number,b.hash⟩)

def sampleWorld : SourceWorld where
  run := ⟨.null,"native",100,[sampleParams],"state"⟩
  db := ⟨Table.insertRows .empty sampleRows,Table.insertRows .empty sampleMarkers,[],[]⟩
  pointer := none
  cursor := sampleHead
  progress := sampleHead
  checkpoints := .empty

def sampleCuts : List (String × ℕ) :=
  [("00000000000000000000000000000000",100),("11111111111111111111111111111111",101)]

theorem sampleRows_projected : ∀ b ∈ sampleRows, Projected b := by
  have hrows : sampleBlocks.mapM (project sampleParams) = .ok sampleRows := by decide +kernel
  intro b hb
  obtain ⟨block,-,h⟩ := (Timeline.exists_related (mapM_ok.mp hrows)).2 b hb
  exact ⟨sampleParams,block,h⟩

theorem sampleWorld_rows : sampleWorld.db.stateBlocks.rows = sampleRows := by decide +kernel

theorem sampleWorld_recorded : Recorded sampleWorld :=
  recorded_of_projected (fun b hb => sampleRows_projected b (sampleWorld_rows ▸ hb))
    (by decide +kernel)

theorem sampleWorld_sim (generation : String) (endBlock : Option ℕ) :
    Sim samplePlatform sampleWorld
      (ends (compactLocked samplePlatform generation endBlock) ⟨sampleWorld,[]⟩) := by
  have hstart : Kept samplePlatform sampleWorld ∅ sampleWorld :=
    ⟨Sim.refl rfl,by simp [sampleWorld],by simp [sampleWorld]⟩
  have hkept : Kept samplePlatform sampleWorld (insert generation ∅)
      (ends (compactLocked samplePlatform generation endBlock) ⟨sampleWorld,[]⟩) :=
    compactLocked_ends sampleWorld_recorded (Set.notMem_empty _) hstart endBlock []
  exact hkept.sim

def sampleFoldedFields : Fields :=
  SortedMap.empty.insert sampleParams (SortedMap.empty.insertAll [("balance",.str "0"),
    ("nonce",Json.ofNat 0),("code_hash",.str emptyCodeHash),("code",.str "0x")])

def sampleFoldedPrefix : Prefix where
  formatVersion := 1
  status := "unverified-bootstrap"
  binding := .null
  generation := "11111111111111111111111111111111"
  startBlock := 100
  header := ⟨101,"0x6565656565656565656565656565656565656565656565656565656565656565",
    "0x6464646464646464646464646464646464646464646464646464646464646464",
    "0x0303030303030303030303030303030303030303030303030303030303030303",1000⟩
  accounts := [sampleParams]
  fields := sampleFoldedFields
  stateSha256 := "cb73d3ab83c104c81e8850b61b681c130784559159cb40b89702188202102df4"
  nonzeroSlots := 1

/-- The sample world with both blocks folded into one prefix. -/
def sampleFolded : SourceWorld :=
  { sampleWorld with
    db := { sampleWorld.db with
      bootstrapStorage :=
        [⟨sampleFoldedPrefix.generation,sampleParams,sampleWord "2",sampleWord "9"⟩]
      bootstrapGenerations := [⟨sampleFoldedPrefix.generation,sampleFoldedPrefix⟩] }
    pointer := some sampleFoldedPrefix }

theorem sampleFolded_reached : ends (compactLocked samplePlatform
    "11111111111111111111111111111111" (some 101)) ⟨sampleWorld,[]⟩ = sampleFolded := by
  decide +kernel

theorem sampleFolded_sim : Sim samplePlatform sampleWorld sampleFolded := by
  rw [← sampleFolded_reached]
  exact sampleWorld_sim _ _

theorem compaction_transparent_sample : ∃ h,
    compactAll samplePlatform sampleCuts ⟨sampleWorld,[]⟩ = .ok () h ∧
    (∀ c ∈ sampleCuts.getLast?, ∃ p, h.state.pointer = some p ∧ p.header.number = c.2 ∧
      (generationRows h.state.db p.generation).map rowEntry =
        (directSlots (history sampleWorld c.2)).entries ∧
      p.fields = directFields (history sampleWorld c.2)) ∧
    ∀ last, (∀ c ∈ sampleCuts.getLast?, c.2 ≤ last) →
      reconstruct samplePlatform h.state last = reconstruct samplePlatform sampleWorld last := by
  obtain ⟨_,h,hrun⟩ := returns_ok (p := compactAll samplePlatform sampleCuts)
    (h := ⟨sampleWorld,[]⟩) (by decide +kernel)
  have hrows : ∀ b ∈ sampleWorld.db.stateBlocks.rows, Projected b := fun b hb =>
    sampleRows_projected b (sampleWorld_rows ▸ hb)
  exact ⟨h,hrun,compaction_transparent samplePlatform sampleWorld sampleCuts [] h rfl hrows
    (by decide +kernel) (by decide) (by simp [sampleWorld]) (by simp [sampleWorld]) hrun⟩

end Sample
end EvmState.Compaction
