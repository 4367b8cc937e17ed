import EvmState.CompactionRuns

/-!
# The preflight of a checkpoint

Before a build reads any state it picks the prefix of each source, requires
disjoint cohorts that cover the selected accounts, and validates the interval
of each source. A cohort with accounts of the base checkpoint must continue
right after the base.
-/

set_option autoImplicit false

namespace EvmState.Preflight
open EvmState.Fallible EvmState.OrderedMap EvmState.BlockProjection EvmState.Store EvmState.Queries
open EvmState.Encoding EvmState.Interval EvmState.Bootstrap EvmState.Compaction

section Loop
variable (platform : Platform) (worlds : String → SourceWorld)

/-- The account filter and the range of a source are those of its run. -/
def verifiedSource (w : SourceWorld) (source : Source) : Except String Unit := do
  let selected ← accountSet source.accounts
  ensure (selected = w.run.accounts)
    "source filter, module hash or finality differs from its native run"
  ensure (w.run.startBlock ≤ source.startBlock) "source range starts before its native run"

/-- A source whose cohort meets the base accounts continues the base. -/
def continueBase (base : Option Base) (cohort : List String) (source : Source) :
    Except String Source :=
  match base with
  | none => .ok source
  | some base =>
    if cohort.all (· ∉ base.accounts) then .ok source
    else do
      ensure (source.startBlock = base.number+1)
        "existing accounts must continue immediately after the base checkpoint"
      return { source with parentHash := some base.hash }

def acceptSource (base : Option Base) (header : Target) (seen : List String) (source : Source) :
    Except String (Source × List String) := do
  let cohort ← accountSet source.accounts
  ensure (cohort.all (· ∉ seen)) "source cohorts overlap"
  let source ← continueBase base cohort source
  let _ ← validateInterval (worlds source.database).db source header
  return (source,seen++cohort)

def acceptSources (base : Option Base) (header : Target) :
    List String → List Source → Except String (List Source × List String)
  | seen, [] => .ok ([],seen)
  | seen, source::sources => do
    let (source,seen) ← acceptSource worlds base header seen source
    let (sources,seen) ← acceptSources base header seen sources
    return (source::sources,seen)

def preflight (base : Option Base) (accounts : List String) (header : Target)
    (sources : List Source) : Except String (List Source) := do
  ensure (∀ b ∈ base, b.number < header.number ∧ ∀ a ∈ b.accounts, a ∈ accounts)
    "checkpoint must advance its base and preserve all base accounts"
  let sources ← sources.mapM (fun s => selectPrefix platform (worlds s.database) s)
  let (sources,seen) ← acceptSources worlds base header [] sources
  ensure ((∀ a ∈ seen, a ∈ accounts) ∧ ∀ a ∈ accounts, a ∈ seen)
    "source account coverage differs from proof bundle"
  return sources

end Loop

/-- The blocks that a checked source recorded up to a block: those that its
prefix summarises, then its raw rows. -/
def Records (db : SourceDb) (source : Source) (last : ℕ) (rows : List BlockState) : Prop :=
  match source.bootstrap with
  | none => rows = between db source.startBlock last
  | some p => ∃ compacted, Summarises compacted p (generationRows db p.generation) ∧
      rows = compacted ++ between db (p.header.number+1) last

section Accept
variable {worlds : String → SourceWorld} {base : Option Base} {header : Target}
  {seen seen' : List String} {source checked : Source}

theorem continueBase_ok {cohort : List String}
    (h : continueBase base cohort source = .ok checked) :
    checked.database = source.database ∧ checked.accounts = source.accounts ∧
      checked.startBlock = source.startBlock ∧ checked.bootstrap = source.bootstrap ∧
      checked.deltaStart = source.deltaStart ∧
      ∀ b, base = some b → ∀ a ∈ cohort, a ∈ b.accounts →
        checked.startBlock = b.number+1 ∧ checked.parentHash = some b.hash := by
  cases base with
  | none =>
    obtain rfl := Except.ok.inj h
    exact ⟨rfl,rfl,rfl,rfl,rfl,by simp⟩
  | some b =>
    simp only [continueBase] at h
    split at h
    · rename_i hall
      obtain rfl := Except.ok.inj h
      refine ⟨rfl,rfl,rfl,rfl,rfl,fun c hc a ha hb => ?_⟩
      obtain rfl := Option.some.inj hc
      exact absurd hb (by simpa using List.all_eq_true.mp hall a ha)
    · obtain ⟨_,hs,h⟩ := bind_ok.mp h
      obtain rfl := pure_ok.mp h
      refine ⟨rfl,rfl,rfl,rfl,rfl,fun c hc a ha hb => ?_⟩
      obtain rfl := Option.some.inj hc
      exact ⟨ensure_ok.mp hs,rfl⟩

structure Checked (worlds : String → SourceWorld) (base : Option Base) (header : Target)
    (source : Source) (cohort : List String) : Prop where
  accounts : accountSet source.accounts = .ok cohort
  interval : ∃ count, validateInterval (worlds source.database).db source header = .ok count
  continues : ∀ b, base = some b → ∀ a ∈ cohort, a ∈ b.accounts →
    source.startBlock = b.number+1 ∧ source.parentHash = some b.hash

theorem acceptSource_ok (h : acceptSource worlds base header seen source = .ok (checked,seen')) :
    ∃ cohort, Checked worlds base header checked cohort ∧ (∀ a ∈ cohort, a ∉ seen) ∧
      seen' = seen++cohort ∧ checked.database = source.database ∧
      checked.accounts = source.accounts ∧ checked.bootstrap = source.bootstrap ∧
      checked.deltaStart = source.deltaStart := by
  obtain ⟨cohort,hc,h⟩ := bind_ok.mp h
  obtain ⟨_,hd,h⟩ := bind_ok.mp h
  obtain ⟨s,hs,h⟩ := bind_ok.mp h
  obtain ⟨count,hv,h⟩ := bind_ok.mp h
  obtain ⟨rfl,rfl⟩ := Prod.mk.inj (pure_ok.mp h)
  obtain ⟨hd',ha,-,hb,hdelta,hcont⟩ := continueBase_ok hs
  refine ⟨cohort,⟨ha ▸ hc,⟨count,hv⟩,hcont⟩,?_,rfl,hd',ha,hb,hdelta⟩
  intro a hm
  simpa using List.all_eq_true.mp (ensure_ok.mp hd) a hm

theorem acceptSources_ok {sources checked : List Source} {seen seen' : List String}
    (h : acceptSources worlds base header seen sources = .ok (checked,seen')) :
    ∃ cohorts, List.Forall₂ (Checked worlds base header) checked cohorts ∧
      cohorts.Pairwise (fun c d => ∀ a ∈ c, a ∉ d) ∧ (∀ c ∈ cohorts, ∀ a ∈ c, a ∉ seen) ∧
      seen' = seen++cohorts.flatten ∧
      List.Forall₂ (fun s c => c.database = s.database ∧ c.accounts = s.accounts ∧
        c.bootstrap = s.bootstrap ∧ c.deltaStart = s.deltaStart) sources checked := by
  induction sources generalizing seen checked with
  | nil =>
    obtain ⟨rfl,rfl⟩ := Prod.mk.inj (Except.ok.inj h)
    exact ⟨[],.nil,.nil,by simp,by simp,.nil⟩
  | cons s sources ih =>
    obtain ⟨⟨c,mid⟩,hc,h⟩ := bind_ok.mp h
    obtain ⟨⟨cs,fin⟩,hcs,h⟩ := bind_ok.mp h
    obtain ⟨rfl,rfl⟩ := Prod.mk.inj (pure_ok.mp h)
    obtain ⟨cohort,hcheck,hfresh,rfl,hkept⟩ := acceptSource_ok hc
    obtain ⟨cohorts,hall,hdis,hout,rfl,hrest⟩ := ih hcs
    refine ⟨cohort::cohorts,.cons hcheck hall,List.pairwise_cons.mpr ⟨?_,hdis⟩,?_,by simp,
      .cons hkept hrest⟩
    · exact fun d hd a ha hb => hout d hd a hb (List.mem_append_right _ ha)
    · intro d hd a ha
      rcases List.mem_cons.mp hd with rfl | hd
      · exact hfresh a ha
      · exact fun hs => hout d hd a ha (List.mem_append_left _ hs)

end Accept

section Select
variable {platform : Platform}

theorem selectPrefix_ok {w : SourceWorld} {source picked : Source}
    (h : selectPrefix platform w source = .ok picked) :
    picked.database = source.database ∧ picked.accounts = source.accounts ∧
      picked.deltaStart = picked.bootstrap.map (fun p => p.header.number+1) ∧
      ∀ p, picked.bootstrap = some p → p.accounts = w.run.accounts := by
  obtain ⟨loaded,hl,h⟩ := bind_ok.mp h
  cases loaded with
  | none =>
    obtain rfl := pure_ok.mp h
    exact ⟨rfl,rfl,rfl,by simp⟩
  | some p =>
    simp only at h
    split at h
    · obtain ⟨_,-,h⟩ := bind_ok.mp h
      obtain rfl := pure_ok.mp h
      refine ⟨rfl,rfl,rfl,fun q hq => ?_⟩
      obtain rfl := Option.some.inj hq
      cases hp : w.pointer with
      | none =>
        rw [loadPrefix, hp] at hl
        cases hl
      | some r =>
        obtain ⟨rfl,-,ha,-⟩ := loadPrefix_some hp hl
        exact ha
    · obtain rfl := pure_ok.mp h
      exact ⟨rfl,rfl,rfl,by simp⟩

end Select

section Recorded
variable {worlds : String → SourceWorld} {base : Option Base} {header : Target} {source : Source}
  {cohort : List String} {rows : List BlockState}

theorem summarises_ne_nil {compacted : List BlockState} {p : Prefix} {stored : List BootstrapRow}
    (h : Summarises compacted p stored) : compacted ≠ [] := by
  rintro rfl
  have := h.header
  simp at this

structure Reaches (first : ℕ) (parent : Option String) (header : Target)
    (rows : List BlockState) : Prop where
  linked : Linked first parent rows
  complete : first+rows.length = header.number+1
  last : lastHash none rows = some header.hash

theorem lastHash_append {parent : Option String} {l m : List BlockState} (hl : l ≠ []) :
    lastHash parent (l++m) = lastHash (lastHash none l) m := by
  obtain ⟨l',b,rfl⟩ := List.eq_nil_or_concat l |>.resolve_left hl
  rw [List.concat_eq_append, List.append_assoc]
  cases m with
  | nil => simp [lastHash]
  | cons c m => simp [lastHash, List.getLast?_append, List.getLast?_cons]

/-- The recorded rows of a checked source are a chain from its start to the
target, of which the scan checked the parent of the first raw row. -/
theorem records_reach (hc : Checked worlds base header source cohort)
    (hr : Records (worlds source.database).db source header.number rows) :
    Reaches source.startBlock none header rows ∧
      (source.bootstrap = none → ∀ p, source.parentHash = some p →
        ∀ b ∈ rows.head?, b.parentHash = p) := by
  obtain ⟨count,hv⟩ := hc.interval
  obtain ⟨cohort',first,ha⟩ := validateInterval_ok hv
  cases hb : source.bootstrap with
  | none =>
    simp only [Records, hb] at hr
    obtain rfl := scanStart_none hb ha.start
    subst hr
    exact ⟨⟨ha.linked,ha.complete,accepted_last ha⟩,fun _ => ha.parent rfl⟩
  | some p =>
    simp only [Records, hb] at hr
    obtain ⟨compacted,hsum,rfl⟩ := hr
    obtain ⟨hstart,-,-,hfirst⟩ := scanStart_some hb ha.start
    have hlink := hsum.linked
    have hcount := hsum.complete
    rw [← hstart] at hlink hcount
    have hhash := lastHash_header hsum.header
    have hrest := ha.linked
    have hnum := ha.complete
    have hlast := accepted_last ha
    rw [hfirst] at hrest hnum hlast
    refine ⟨⟨linked_append.mpr ⟨hlink,?_⟩,?_,?_⟩,by simp⟩
    · rw [hcount, hhash]
      exact hrest
    · simp only [List.length_append] at hnum ⊢
      omega
    · rw [lastHash_append (summarises_ne_nil hsum), hhash]
      exact hlast

theorem records_sound (hc : Checked worlds base header source cohort)
    (hr : Records (worlds source.database).db source header.number rows)
    (hp : ∀ p, source.bootstrap = some p → accountSet p.accounts = .ok cohort) :
    ∀ b ∈ rows, Sound (joinAccounts cohort) b := by
  obtain ⟨count,hv⟩ := hc.interval
  obtain ⟨cohort',first,ha⟩ := validateInterval_ok hv
  obtain rfl : cohort = cohort' := Except.ok.inj (hc.accounts.symm.trans ha.accounts)
  cases hb : source.bootstrap with
  | none =>
    simp only [Records, hb] at hr
    obtain rfl := scanStart_none hb ha.start
    subst hr
    exact ha.sound
  | some p =>
    simp only [Records, hb] at hr
    obtain ⟨compacted,hsum,rfl⟩ := hr
    obtain ⟨-,-,-,hfirst⟩ := scanStart_some hb ha.start
    have hsound := ha.sound
    rw [hfirst] at hsound
    intro b hm
    rcases List.mem_append.mp hm with hm | hm
    · obtain ⟨c,hacc,hs⟩ := hsum.sound
      obtain rfl : cohort = c := Except.ok.inj ((hp p hb).symm.trans hacc)
      exact hs b hm
    · exact hsound b hm

theorem linked_head {n : ℕ} {parent : Option String} {l : List BlockState} :
    Linked n parent l ↔ Linked n none l ∧ ∀ h, parent = some h → ∀ b ∈ l.head?, b.parentHash = h := by
  cases l with
  | nil => simp [Linked]
  | cons b l =>
    simp only [Linked, List.head?_cons, Option.mem_some_iff, forall_eq']
    constructor
    · rintro ⟨hn,hp,hl⟩
      exact ⟨⟨hn,by simp,hl⟩,hp⟩
    · rintro ⟨⟨hn,-,hl⟩,hp⟩
      exact ⟨hn,hp,hl⟩

end Recorded

/-- A cohort that meets the base accounts continues the base exactly when the
source has no prefix or the first block that its prefix summarises names the
base header as its parent: the scan looks at no other parent of that block. -/
theorem base_continuity (worlds : String → SourceWorld) (base : Base) (header : Target)
    (seen seen' cohort : List String) (source checked : Source) (rows : List BlockState)
    (haccept : acceptSource worlds (some base) header seen source = .ok (checked,seen'))
    (haccounts : accountSet source.accounts = .ok cohort)
    (hmeets : ∃ a ∈ cohort, a ∈ base.accounts)
    (hrecords : Records (worlds checked.database).db checked header.number rows) :
    Reaches (base.number+1) (some base.hash) header rows ↔
      checked.bootstrap = none ∨ ∀ b ∈ rows.head?, b.parentHash = base.hash := by
  obtain ⟨cohort',hc,-,-,-,hsame,-,-⟩ := acceptSource_ok haccept
  obtain rfl : cohort = cohort' := Except.ok.inj (haccounts.symm.trans (hsame ▸ hc.accounts))
  obtain ⟨a,ha,hb⟩ := hmeets
  obtain ⟨hstart,hparent⟩ := hc.continues base rfl a ha hb
  obtain ⟨hreach,hfirst⟩ := records_reach hc hrecords
  rw [hstart] at hreach
  constructor
  · intro h
    exact Or.inr ((linked_head.mp h.linked).2 base.hash rfl)
  · intro h
    refine ⟨linked_head.mpr ⟨hreach.linked,?_⟩,hreach.complete,hreach.last⟩
    intro hash he b hm
    obtain rfl := Option.some.inj he
    rcases h with h | h
    · exact hfirst h base.hash hparent b hm
    · exact h b hm

theorem records_picked {platform : Platform} {v w : SourceWorld} {p : Prefix} (source : Source)
    (last : ℕ) (h : Sim platform v w) (hp : w.pointer = some p) (hs : source.bootstrap = some p) :
    Records w.db source last
      (history v p.header.number++between w.db (p.header.number+1) last) := by
  simp only [Records, hs]
  exact ⟨_,(h.loaded p hp).2,rfl⟩

/-!
The sample run, folded before a base checkpoint of the block before it
exists. Its first block names another parent than the base.
-/

section Sample
open EvmState.Hex EvmState.Params EvmState.Crash EvmState.Replay

def sampleBase : Base :=
  ⟨"22222222222222222222222222222222",99,hex (List.replicate 32 255),[sampleParams]⟩

def sampleTarget : Target :=
  ⟨101,"0x6565656565656565656565656565656565656565656565656565656565656565",
    "0x0303030303030303030303030303030303030303030303030303030303030303"⟩

def sampleInput : Source := runSource sampleWorld.run

def samplePicked : Source := picked sampleWorld.run (some sampleFoldedPrefix)

def sampleChecked : Source := { samplePicked with parentHash := some sampleBase.hash }

def sampleHistory : List BlockState := history sampleWorld 101++between sampleFolded.db (101+1) 101

theorem sample_records :
    Records sampleFolded.db sampleChecked sampleTarget.number sampleHistory :=
  records_picked sampleChecked 101 sampleFolded_sim rfl rfl

theorem sample_select :
    selectPrefix samplePlatform sampleFolded sampleInput = .ok samplePicked :=
  selectPrefix_picked sampleFolded_sim

theorem sample_accept :
    acceptSource (fun _ => sampleFolded) (some sampleBase) sampleTarget [] samplePicked =
      .ok (sampleChecked,[sampleParams]) := by decide +kernel

/-- The source is accepted although its first block does not continue the base. -/
theorem base_continuity_gap :
    selectPrefix samplePlatform sampleFolded sampleInput = .ok samplePicked ∧
    acceptSource (fun _ => sampleFolded) (some sampleBase) sampleTarget [] samplePicked =
      .ok (sampleChecked,[sampleParams]) ∧
    Records sampleFolded.db sampleChecked sampleTarget.number sampleHistory ∧
    ¬Reaches (sampleBase.number+1) (some sampleBase.hash) sampleTarget sampleHistory := by
  refine ⟨sample_select,sample_accept,sample_records,fun h => ?_⟩
  have hhead : ∀ b ∈ sampleHistory.head?, b.parentHash ≠ sampleBase.hash := by decide +kernel
  have hsome : sampleHistory.head?.isSome := by decide +kernel
  obtain ⟨b,hb⟩ := Option.isSome_iff_exists.mp hsome
  exact hhead b hb ((linked_head.mp h.linked).2 _ rfl b hb)

def sampleParent : Base :=
  ⟨"22222222222222222222222222222222",99,hex (List.replicate 32 99),[sampleParams]⟩

def sampleContinued : Source := { samplePicked with parentHash := some sampleParent.hash }

theorem sampleContinued_records :
    Records sampleFolded.db sampleContinued sampleTarget.number sampleHistory :=
  records_picked sampleContinued 101 sampleFolded_sim rfl rfl

theorem base_continuity_sample :
    ¬Reaches (sampleBase.number+1) (some sampleBase.hash) sampleTarget sampleHistory ∧
      Reaches (sampleParent.number+1) (some sampleParent.hash) sampleTarget sampleHistory := by
  have hgap := base_continuity (fun _ => sampleFolded) sampleBase sampleTarget [] [sampleParams]
    [sampleParams] samplePicked sampleChecked sampleHistory sample_accept (by decide +kernel)
    ⟨sampleParams,by simp,by simp [sampleBase]⟩ sample_records
  have hcontinued := base_continuity (fun _ => sampleFolded) sampleParent sampleTarget []
    [sampleParams] [sampleParams] samplePicked sampleContinued sampleHistory (by decide +kernel)
    (by decide +kernel) ⟨sampleParams,by simp,by simp [sampleParent]⟩ sampleContinued_records
  have hhead : ∀ b ∈ sampleHistory.head?, b.parentHash = sampleParent.hash := by decide +kernel
  have hother : ¬(sampleChecked.bootstrap = none ∨
      ∀ b ∈ sampleHistory.head?, b.parentHash = sampleBase.hash) := by decide +kernel
  exact ⟨(not_congr hgap).mpr hother,hcontinued.mpr (.inr hhead)⟩

end Sample
end EvmState.Preflight
