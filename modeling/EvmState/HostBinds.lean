import EvmState.Lib.OrderedMap
import EvmState.Usage

/-!
# Data directories seen from the host

A data disk inside the container is measured on the host, through the deepest
mount that covers it. A mount nested below the disk hides what is behind it,
so it is measured as well.
-/

set_option autoImplicit false

namespace EvmState.HostBinds
open EvmState.Fallible EvmState.FileTree EvmState.OrderedMap

structure Mount where
  type : Option String
  destination : Option Target
  source : Option Target
  deriving DecidableEq

structure Binding where
  container : Place
  host : Place
  deriving DecidableEq

def string (field : String) (value : Option Target) : Except String Target :=
  context value s!"missing string field {field}"

/-- The names of a path without parent components. -/
def names (path : Target) : Place :=
  path.parts.filterMap (fun part => match part with
    | .normal name => some name
    | _ => none)

def absolute (value : Target) : Except String Place := do
  ensure (value.absolute = true ∧ .parentDir ∉ value.parts) "invalid host-bind path"
  return names value

def Mount.destinationPath (m : Mount) : Except String Place := do
  absolute (← string "Destination" m.destination)

def Mount.sourcePath (m : Mount) : Except String Place := do
  absolute (← string "Source" m.source)

def stripPrefix (path destination : Place) : Except String Place := do
  ensure (destination.isPrefixOf path) "prefix not found"
  return path.drop destination.length

def checkDestination (destinations : List Place) (m : Mount) : Except String (List Place) := do
  let destination ← m.destinationPath
  ensure (destination ∉ destinations) "ambiguous container mount destination"
  return destination::destinations

section Bindings
variable (host : Tree)

def add (mapped : SortedMap Place Place) (path : Place) (m : Mount) :
    Except String (SortedMap Place Place) := do
  ensure (m.type = some "bind")
    "host_bind scanning requires directory bind mounts for every data path and nested mount"
  let destination ← m.destinationPath
  let source ← m.sourcePath
  let rest ← stripPrefix path destination
  let directory ← (canonicalize host (plain (source++rest))).mapError Paths.ErrorKind.text
  ensure (host.kind directory = some .dir)
    "host_bind scanning requires readable host directories"
  ensure (∀ previous ∈ mapped.get? path, previous = directory) "ambiguous host-bind mapping"
  return mapped.insert path directory

abbrev Covering := List (ℕ × Mount)

def coverMount (disk : Place) (state : Covering × SortedMap Place Place) (m : Mount) :
    Except String (Covering × SortedMap Place Place) := do
  let destination ← m.destinationPath
  if destination.isPrefixOf disk then
    return (state.1++[(destination.length+1,m)],state.2)
  else if disk.isPrefixOf destination then
    let mapped ← add host state.2 destination m
    return (state.1,mapped)
  else return state

def deeper : Option (ℕ × Mount) → ℕ × Mount → Option (ℕ × Mount)
  | none, m => some m
  | some best, m => if best.1 ≤ m.1 then some m else some best

def deepest (covering : Covering) : Option (ℕ × Mount) := covering.foldl deeper none

def coverDisk (mounts : List Mount) (mapped : SortedMap Place Place) (disk : Place) :
    Except String (SortedMap Place Place) := do
  let (covering,mapped) ← mounts.foldlM (coverMount host disk) ([],mapped)
  let (_,m) ← context (deepest covering) "data disk has no host bind mount"
  add host mapped disk m

def bindings (mounts : Option (List Mount)) (disks : List Place) : Except String (List Binding) := do
  let mounts ← context mounts "invalid container mounts"
  let _ ← mounts.foldlM checkDestination []
  ensure (disks ≠ []) "host_bind scanning requires data disks"
  let mapped ← disks.foldlM (coverDisk host mounts) SortedMap.empty
  return mapped.entries.map (fun e => ⟨e.1,e.2⟩)

end Bindings

structure DataDisk where
  type : Option String
  isRemote : Option ℕ
  totalSpace : Option ℕ
  freeSpace : Option ℕ
  unreservedSpace : Option ℕ
  path : Option Target

def uint (value : Option ℕ) : Except String ℕ := context value "expected unsigned integer"

def addDisk (state : ℕ × List Place) (disk : DataDisk) : Except String (ℕ × List Place) := do
  ensure (disk.type = some "Local")
    "complete capacity measurement requires local ClickHouse data disks"
  let remote ← uint disk.isRemote
  ensure (remote = 0) "complete capacity measurement requires local ClickHouse data disks"
  let total ← uint disk.totalSpace
  let free ← uint disk.freeSpace
  let unreserved ← uint disk.unreservedSpace
  ensure (total > 0 ∧ free ≤ total ∧ unreserved ≤ total) "invalid ClickHouse disk capacity counters"
  let path ← string "path" disk.path
  ensure (path.absolute = true ∧ .parentDir ∉ path.parts)
    "ClickHouse data disks must be on declared persistent container mounts"
  return (min (min state.1 free) unreserved,state.2++[names path])

/-- A mount path that has parent components is a prefix of no data disk. -/
def startsWith (path : Place) (mount : Target) : Bool :=
  mount.absolute && (mount.parts.filter (· ≠ .curDir)).isPrefixOf (plain path)

def dataDisks (mounts : Option (List Mount)) (disks : List DataDisk) :
    Except String (ℕ × List Place) := do
  ensure (disks ≠ []) "complete capacity measurement requires local ClickHouse data disks"
  let (available,paths) ← disks.foldlM addDisk (2^64-1,[])
  let diskPaths := Usage.roots paths
  let mounts ← context mounts "invalid container mounts"
  let mounts ← (mounts.filter (fun m => m.type = some "bind" || m.type = some "volume")).mapM
    (fun m => string "Destination" m.destination)
  ensure (diskPaths.all (fun path => mounts.any (startsWith path)))
    "ClickHouse data disks must be on declared persistent container mounts"
  return (available,diskPaths)

section Rules
variable {host : Tree}

/-- A covering mount that no covering mount is deeper than. -/
def Deepest (mounts : List Mount) (path : Place) (m : Mount) (destination : Place) : Prop :=
  m ∈ mounts ∧ m.destinationPath = .ok destination ∧ destination <+: path ∧
    ∀ m' ∈ mounts, ∀ d, m'.destinationPath = .ok d → d <+: path → d.length ≤ destination.length

def Extends (small large : SortedMap Place Place) : Prop :=
  ∀ p h, small.get? p = some h → large.get? p = some h

structure Added (host : Tree) (mapped : SortedMap Place Place) (path : Place) (m : Mount) : Prop where
  bind : m.type = some "bind"
  mapping : ∃ destination source rest directory, m.destinationPath = .ok destination ∧
    m.sourcePath = .ok source ∧ path = destination++rest ∧
    canonicalize host (plain (source++rest)) = .ok directory ∧ mapped.get? path = some directory

theorem added_extends {small large : SortedMap Place Place} {path : Place} {m : Mount}
    (h : Added host small path m) (he : Extends small large) : Added host large path m := by
  obtain ⟨hb,d,s,rest,directory,hd,hs,hp,hc,hg⟩ := h
  exact ⟨hb,d,s,rest,directory,hd,hs,hp,hc,he _ _ hg⟩

theorem add_spec {mapped mapped' : SortedMap Place Place} {path : Place} {m : Mount}
    (h : add host mapped path m = .ok mapped') :
    Added host mapped' path m ∧ Extends mapped mapped' := by
  obtain ⟨_,hb,h⟩ := bind_ok.mp h
  obtain ⟨d,hd,h⟩ := bind_ok.mp h
  obtain ⟨s,hs,h⟩ := bind_ok.mp h
  obtain ⟨rest,hrest,h⟩ := bind_ok.mp h
  obtain ⟨_,hp,hrest⟩ := bind_ok.mp hrest
  obtain ⟨directory,hc,h⟩ := bind_ok.mp h
  obtain ⟨_,_,h⟩ := bind_ok.mp h
  obtain ⟨_,hprevious,h⟩ := bind_ok.mp h
  obtain rfl := pure_ok.mp h
  obtain ⟨rest',rfl⟩ := List.isPrefixOf_iff_prefix.mp (ensure_ok.mp hp)
  rw [pure_ok,List.drop_left] at hrest
  subst hrest
  refine ⟨⟨ensure_ok.mp hb,d,s,rest',directory,hd,hs,rfl,mapError_ok.mp hc,?_⟩,fun p v hg => ?_⟩
  · rw [SortedMap.get?_insert,if_pos rfl]
  · rw [SortedMap.get?_insert]
    split_ifs with hj
    · subst hj
      rw [ensure_ok.mp hprevious v hg]
    · exact hg

theorem extends_trans {a b c : SortedMap Place Place} (h : Extends a b) (h' : Extends b c) :
    Extends a c := fun p v hp => h' p v (h p v hp)

/-- What a pass over the mounts knows of a mount it has passed. -/
structure Passed (host : Tree) (disk : Place) (state : Covering × SortedMap Place Place)
    (m : Mount) (destination : Place) : Prop where
  covers : destination <+: disk → (destination.length+1,m) ∈ state.1
  nested : disk <+: destination → ¬destination <+: disk → Added host state.2 destination m

structure Grows (before after : Covering × SortedMap Place Place) : Prop where
  covering : before.1 ⊆ after.1
  mapped : Extends before.2 after.2

theorem passed_grows {disk : Place} {before after : Covering × SortedMap Place Place} {m : Mount}
    {destination : Place} (h : Passed host disk before m destination) (hg : Grows before after) :
    Passed host disk after m destination where
  covers hc := hg.covering (h.covers hc)
  nested hn hc := added_extends (h.nested hn hc) hg.mapped

/-- Every recorded covering mount covers the disk, at its own depth. -/
def Recorded (mounts : List Mount) (disk : Place) (covering : Covering) : Prop :=
  ∀ e ∈ covering, e.2 ∈ mounts ∧
    ∃ d, e.2.destinationPath = .ok d ∧ d <+: disk ∧ e.1 = d.length+1

theorem coverMount_spec {mounts : List Mount} {disk : Place} {m : Mount} (hm : m ∈ mounts)
    {before after : Covering × SortedMap Place Place}
    (h : coverMount host disk before m = .ok after) (hr : Recorded mounts disk before.1) :
    (∃ d, m.destinationPath = .ok d ∧ Passed host disk after m d) ∧ Grows before after ∧
      Recorded mounts disk after.1 := by
  obtain ⟨d,hd,h⟩ := bind_ok.mp h
  split_ifs at h with hc hn
  · rw [pure_ok] at h
    subst h
    refine ⟨⟨d,hd,fun _ => by simp,fun _ hnot => ?_⟩,⟨by simp,fun _ _ h => h⟩,fun e he => ?_⟩
    · exact absurd (List.isPrefixOf_iff_prefix.mp hc) hnot
    · rcases List.mem_append.mp he with he | he
      · exact hr e he
      · obtain rfl := List.mem_singleton.mp he
        exact ⟨hm,d,hd,List.isPrefixOf_iff_prefix.mp hc,rfl⟩
  · obtain ⟨mapped,ha,h⟩ := bind_ok.mp h
    rw [pure_ok] at h
    subst h
    obtain ⟨hadd,hext⟩ := add_spec ha
    refine ⟨⟨d,hd,fun hcov => ?_,fun _ _ => hadd⟩,⟨fun _ h => h,hext⟩,hr⟩
    exact absurd (List.isPrefixOf_iff_prefix.mpr hcov) hc
  · rw [pure_ok] at h
    subst h
    refine ⟨⟨d,hd,fun hcov => ?_,fun hnest _ => ?_⟩,⟨fun _ h => h,fun _ _ h => h⟩,hr⟩
    · exact absurd (List.isPrefixOf_iff_prefix.mpr hcov) hc
    · exact absurd (List.isPrefixOf_iff_prefix.mpr hnest) hn

theorem coverMounts_spec {mounts : List Mount} {disk : Place} (l : List Mount) (hl : l ⊆ mounts)
    {before after : Covering × SortedMap Place Place}
    (h : l.foldlM (coverMount host disk) before = .ok after) (hr : Recorded mounts disk before.1) :
    (∀ m ∈ l, ∃ d, m.destinationPath = .ok d ∧ Passed host disk after m d) ∧ Grows before after ∧
      Recorded mounts disk after.1 := by
  induction l generalizing before with
  | nil =>
    rw [List.foldlM_nil,pure_ok] at h
    subst h
    exact ⟨by simp,⟨fun _ h => h,fun _ _ h => h⟩,hr⟩
  | cons m l ih =>
    rw [List.foldlM_cons] at h
    obtain ⟨middle,hstep,h⟩ := bind_ok.mp h
    obtain ⟨⟨d,hd,hpass⟩,hg,hr⟩ := coverMount_spec (hl List.mem_cons_self) hstep hr
    obtain ⟨hall,hg',hr'⟩ := ih (fun _ h => hl (List.mem_cons_of_mem _ h)) h hr
    refine ⟨fun m' hm' => ?_,⟨fun _ h => hg'.covering (hg.covering h),
      extends_trans hg.mapped hg'.mapped⟩,hr'⟩
    rcases List.mem_cons.mp hm' with rfl | hm'
    · exact ⟨d,hd,passed_grows hpass hg'⟩
    · exact hall m' hm'

theorem foldl_deeper (l : Covering) (best : Option (ℕ × Mount)) {e : ℕ × Mount}
    (h : l.foldl deeper best = some e) :
    (e ∈ l ∨ best = some e) ∧ (∀ e' ∈ l, e'.1 ≤ e.1) ∧ ∀ b, best = some b → b.1 ≤ e.1 := by
  induction l generalizing best with
  | nil =>
    have h : best = some e := h
    subst h
    exact ⟨.inr rfl,by simp,fun b hb => by cases hb; exact le_refl _⟩
  | cons m l ih =>
    obtain ⟨hm,hl,hb⟩ := ih (deeper best m) h
    -- the new best is the mount itself, or the old one above it
    have hnext : deeper best m = some m ∧ (∀ b, best = some b → b.1 ≤ m.1) ∨
        deeper best m = best ∧ ∃ b, best = some b ∧ m.1 ≤ b.1 := by
      cases best with
      | none => exact .inl ⟨rfl,by simp⟩
      | some b =>
        by_cases hle : b.1 ≤ m.1
        · exact .inl ⟨if_pos hle,fun b' hb' => by cases hb'; exact hle⟩
        · exact .inr ⟨if_neg hle,b,rfl,by omega⟩
    rcases hnext with ⟨heq,hbest⟩ | ⟨heq,b,rfl,hle⟩
    · rw [heq] at hm hb
      have hme := hb m rfl
      refine ⟨.inl ?_,fun e' he' => ?_,fun b hb' => (hbest b hb').trans hme⟩
      · rcases hm with hm | hm
        · exact List.mem_cons_of_mem _ hm
        · cases hm
          exact List.mem_cons_self
      · rcases List.mem_cons.mp he' with rfl | he'
        · exact hme
        · exact hl e' he'
    · rw [heq] at hm hb
      refine ⟨hm.imp_left (List.mem_cons_of_mem _),fun e' he' => ?_,hb⟩
      rcases List.mem_cons.mp he' with rfl | he'
      · exact hle.trans (hb b rfl)
      · exact hl e' he'

theorem deepest_spec {covering : Covering} {e : ℕ × Mount} (h : deepest covering = some e) :
    e ∈ covering ∧ ∀ e' ∈ covering, e'.1 ≤ e.1 := by
  obtain ⟨hm,hl,-⟩ := foldl_deeper covering none h
  exact ⟨hm.resolve_right (by simp),hl⟩

/-- A disk is mapped through its deepest mount, and every mount nested below
it is mapped. -/
structure DiskMapped (host : Tree) (mounts : List Mount) (mapped : SortedMap Place Place)
    (disk : Place) : Prop where
  covering : ∃ m d, Deepest mounts disk m d ∧ Added host mapped disk m
  nested : ∀ m ∈ mounts, ∀ d, m.destinationPath = .ok d → disk <+: d → ¬d <+: disk →
    Added host mapped d m

theorem diskMapped_extends {mounts : List Mount} {small large : SortedMap Place Place}
    {disk : Place} (h : DiskMapped host mounts small disk) (he : Extends small large) :
    DiskMapped host mounts large disk where
  covering := by
    obtain ⟨m,d,hd,ha⟩ := h.covering
    exact ⟨m,d,hd,added_extends ha he⟩
  nested m hm d hd hn hc := added_extends (h.nested m hm d hd hn hc) he

theorem coverDisk_spec {mounts : List Mount} {mapped mapped' : SortedMap Place Place} {disk : Place}
    (h : coverDisk host mounts mapped disk = .ok mapped') :
    DiskMapped host mounts mapped' disk ∧ Extends mapped mapped' := by
  obtain ⟨⟨covering,middle⟩,hmounts,h⟩ := bind_ok.mp h
  obtain ⟨⟨depth,m⟩,hdeepest,h⟩ := bind_ok.mp h
  rw [context_ok] at hdeepest
  obtain ⟨hpassed,hgrows,hrec⟩ := coverMounts_spec mounts (List.Subset.refl _) hmounts
    (fun e he => by cases he)
  obtain ⟨hadd,hext⟩ := add_spec h
  obtain ⟨hmem,hmax⟩ := deepest_spec hdeepest
  obtain ⟨hm,d,hd,hdc,hdepth⟩ := hrec _ hmem
  refine ⟨⟨⟨m,d,⟨hm,hd,hdc,fun m' hm' d' hd' hc' => ?_⟩,hadd⟩,fun m' hm' d' hd' hn hc => ?_⟩,
    extends_trans hgrows.mapped hext⟩
  · obtain ⟨d'',hd'',hp⟩ := hpassed m' hm'
    obtain rfl := Except.ok.inj (hd'.symm.trans hd'')
    have := hmax _ (hp.covers hc')
    simp only at this hdepth
    omega
  · obtain ⟨d'',hd'',hp⟩ := hpassed m' hm'
    obtain rfl := Except.ok.inj (hd'.symm.trans hd'')
    exact added_extends (hp.nested hn hc) hext

theorem coverDisks_spec {mounts : List Mount} (disks : List Place)
    {mapped mapped' : SortedMap Place Place}
    (h : disks.foldlM (coverDisk host mounts) mapped = .ok mapped') :
    (∀ disk ∈ disks, DiskMapped host mounts mapped' disk) ∧ Extends mapped mapped' := by
  induction disks generalizing mapped with
  | nil =>
    rw [List.foldlM_nil,pure_ok] at h
    subst h
    exact ⟨by simp,fun _ _ h => h⟩
  | cons disk disks ih =>
    rw [List.foldlM_cons] at h
    obtain ⟨middle,hstep,h⟩ := bind_ok.mp h
    obtain ⟨hdisk,he⟩ := coverDisk_spec hstep
    obtain ⟨hall,he'⟩ := ih h
    refine ⟨fun disk' hd => ?_,extends_trans he he'⟩
    rcases List.mem_cons.mp hd with rfl | hd
    · exact diskMapped_extends hdisk he'
    · exact hall disk' hd

theorem checkDestinations_spec (l : List Mount) {seen out : List Place}
    (h : l.foldlM checkDestination seen = .ok out) :
    (∀ m ∈ l, ∃ d, m.destinationPath = .ok d ∧ d ∉ seen) ∧
      (l.map Mount.destinationPath).Nodup := by
  induction l generalizing seen with
  | nil => exact ⟨by simp,List.nodup_nil⟩
  | cons m l ih =>
    rw [List.foldlM_cons] at h
    obtain ⟨seen',hstep,h⟩ := bind_ok.mp h
    obtain ⟨d,hd,hstep⟩ := bind_ok.mp hstep
    obtain ⟨_,hnew,hstep⟩ := bind_ok.mp hstep
    obtain rfl := pure_ok.mp hstep
    obtain ⟨hall,hnodup⟩ := ih h
    refine ⟨fun m' hm' => ?_,List.nodup_cons.mpr ⟨fun hm' => ?_,hnodup⟩⟩
    · rcases List.mem_cons.mp hm' with rfl | hm'
      · exact ⟨d,hd,ensure_ok.mp hnew⟩
      · obtain ⟨d',hd',hn⟩ := hall m' hm'
        exact ⟨d',hd',fun h => hn (List.mem_cons_of_mem _ h)⟩
    · obtain ⟨m',hm',heq⟩ := List.mem_map.mp hm'
      obtain ⟨d',hd',hn⟩ := hall m' hm'
      rw [heq,hd] at hd'
      cases hd'
      exact hn List.mem_cons_self

theorem bindings_spec {mounts : Option (List Mount)} {disks : List Place} {bs : List Binding}
    (h : bindings host mounts disks = .ok bs) :
    ∃ ms, mounts = some ms ∧ (ms.map Mount.destinationPath).Nodup ∧
      ∃ mapped : SortedMap Place Place,
        (∀ p v, mapped.get? p = some v → ⟨p,v⟩ ∈ bs) ∧ ∀ disk ∈ disks, DiskMapped host ms mapped disk := by
  obtain ⟨ms,hms,h⟩ := bind_ok.mp h
  obtain ⟨_,hdest,h⟩ := bind_ok.mp h
  obtain ⟨_,-,h⟩ := bind_ok.mp h
  obtain ⟨mapped,hmapped,h⟩ := bind_ok.mp h
  obtain rfl := pure_ok.mp h
  refine ⟨ms,context_ok.mp hms,(checkDestinations_spec ms hdest).2,mapped,fun p v hg => ?_,
    (coverDisks_spec disks hmapped).1⟩
  exact List.mem_map.mpr ⟨(p,v),SortedMap.mem_entries.mpr hg,rfl⟩

/-- Mounts with distinct destinations have at most one deepest for a path. -/
theorem deepest_unique {mounts : List Mount} (hn : (mounts.map Mount.destinationPath).Nodup)
    {path : Place} {m m' : Mount} {d d' : Place} (h : Deepest mounts path m d)
    (h' : Deepest mounts path m' d') : m = m' := by
  have hlen : d.length = d'.length :=
    le_antisymm (h'.2.2.2 m h.1 d h.2.1 h.2.2.1) (h.2.2.2 m' h'.1 d' h'.2.1 h'.2.2.1)
  have heq : d = d' := (List.prefix_of_prefix_length_le h.2.2.1 h'.2.2.1 (le_of_eq hlen)).eq_of_length hlen
  exact List.inj_on_of_nodup_map hn h.1 h'.1 (by rw [h.2.1,h'.2.1,heq])

theorem deepest_exists {mounts : List Mount} {path : Place} {m : Mount} (hm : m ∈ mounts)
    {d : Place} (hd : m.destinationPath = .ok d) (hp : d <+: path) :
    ∃ m d, Deepest mounts path m d := by
  by_contra hnone
  -- without a deepest mount there are deeper ones without end
  have hdeeper : ∀ k, ∃ m ∈ mounts, ∃ d, m.destinationPath = .ok d ∧ d <+: path ∧ k ≤ d.length := by
    intro k
    induction k with
    | zero => exact ⟨m,hm,d,hd,hp,by omega⟩
    | succ k ih =>
      obtain ⟨m,hm,d,hd,hp,hk⟩ := ih
      by_contra hlast
      refine hnone ⟨m,d,hm,hd,hp,fun m' hm' d' hd' hp' => ?_⟩
      by_contra hlt
      exact hlast ⟨m',hm',d',hd',hp',by omega⟩
  obtain ⟨_,-,d,-,hp,hk⟩ := hdeeper (path.length+1)
  have := hp.length_le
  omega

/-- The place on the host that a container path has through a mount. -/
def hostPath (source destination path : Place) : Place := source++path.drop destination.length

/-- What lies below a mapped path is reached below its directory on the host. -/
theorem added_below (hlinks : ∀ p t, host.kind p ≠ some (.link t)) {mapped : SortedMap Place Place}
    {path p : Place} {m : Mount} {d : Place} (h : Added host mapped path m)
    (hd : m.destinationPath = .ok d) (hp : path <+: p) :
    ∃ source directory, m.sourcePath = .ok source ∧ mapped.get? path = some directory ∧
      directory <+: hostPath source d p := by
  obtain ⟨-,d',s,rest,directory,hd',hs,rfl,hc,hg⟩ := h
  obtain rfl := Except.ok.inj (hd.symm.trans hd')
  obtain ⟨tail,rfl⟩ := hp
  refine ⟨s,directory,hs,hg,?_⟩
  rw [canonicalize_plain hlinks hc,hostPath,List.append_assoc,List.drop_left,← List.append_assoc]
  exact List.prefix_append _ _

theorem covered {mounts : List Mount} (hn : (mounts.map Mount.destinationPath).Nodup)
    {mapped : SortedMap Place Place} {disk : Place} (hdisk : DiskMapped host mounts mapped disk)
    {p : Place} (hp : disk <+: p) {m : Mount} {d : Place} (hm : Deepest mounts p m d) :
    ∃ path, path <+: p ∧ Added host mapped path m := by
  by_cases hcov : d <+: disk
  · -- a mount above the disk that is deepest for the path is deepest for the disk
    obtain ⟨m',d',hdeep,hadd⟩ := hdisk.covering
    have hsame : Deepest mounts disk m d :=
      ⟨hm.1,hm.2.1,hcov,fun m'' hm'' d'' hd'' hc'' => hm.2.2.2 m'' hm'' d'' hd'' (hc''.trans hp)⟩
    obtain rfl := deepest_unique hn hsame hdeep
    exact ⟨disk,hp,hadd⟩
  · have hnest := (List.prefix_or_prefix_of_prefix hm.2.2.1 hp).resolve_left hcov
    exact ⟨d,hm.2.2.1,hdisk.nested m hm.1 d hm.2.1 hnest hcov⟩

theorem nested_bind {mounts : List Mount} (hn : (mounts.map Mount.destinationPath).Nodup)
    {mapped : SortedMap Place Place} {disk : Place} (hdisk : DiskMapped host mounts mapped disk)
    {m : Mount} {d : Place} (hm : m ∈ mounts) (hd : m.destinationPath = .ok d)
    (h : Deepest mounts disk m d ∨ disk <+: d) : m.type = some "bind" := by
  by_cases hcov : d <+: disk
  · have hdeep : Deepest mounts disk m d := by
      rcases h with h | h
      · exact h
      · exact ⟨hm,hd,hcov,fun m' _ d' _ hp' => hp'.length_le.trans h.length_le⟩
    obtain ⟨m',d',hdeep',hadd⟩ := hdisk.covering
    obtain rfl := deepest_unique hn hdeep hdeep'
    exact hadd.bind
  · have hnest : disk <+: d := h.resolve_left (fun h => hcov h.2.2.1)
    exact (hdisk.nested m hm d hd hnest hcov).bind

theorem dataDisks_covers {mounts : Option (List Mount)} {disks : List DataDisk} {available : ℕ}
    {paths : List Place} (h : dataDisks mounts disks = .ok (available,paths)) :
    ∀ disk ∈ disks, ∃ path, disk.path = some path ∧ ∃ r ∈ paths, r <+: names path := by
  have hfold : ∀ (l : List DataDisk) (before after : ℕ × List Place),
      l.foldlM addDisk before = .ok after → before.2 ⊆ after.2 ∧
        ∀ disk ∈ l, ∃ path, disk.path = some path ∧ names path ∈ after.2 := by
    intro l
    induction l with
    | nil =>
      intro before after h
      obtain rfl := pure_ok.mp h
      exact ⟨fun _ h => h,by simp⟩
    | cons disk l ih =>
      intro before after h
      rw [List.foldlM_cons] at h
      obtain ⟨middle,hstep,h⟩ := bind_ok.mp h
      obtain ⟨hsub,hall⟩ := ih middle after h
      obtain ⟨_,-,hstep⟩ := bind_ok.mp hstep
      obtain ⟨_,-,hstep⟩ := bind_ok.mp hstep
      obtain ⟨_,-,hstep⟩ := bind_ok.mp hstep
      obtain ⟨_,-,hstep⟩ := bind_ok.mp hstep
      obtain ⟨_,-,hstep⟩ := bind_ok.mp hstep
      obtain ⟨_,-,hstep⟩ := bind_ok.mp hstep
      obtain ⟨_,-,hstep⟩ := bind_ok.mp hstep
      obtain ⟨path,hpath,hstep⟩ := bind_ok.mp hstep
      obtain ⟨_,-,hstep⟩ := bind_ok.mp hstep
      obtain rfl := pure_ok.mp hstep
      refine ⟨fun p hp => hsub (List.mem_append_left _ hp),fun disk' hm => ?_⟩
      rcases List.mem_cons.mp hm with rfl | hm
      · exact ⟨path,context_ok.mp hpath,hsub (by simp)⟩
      · exact hall disk' hm
  obtain ⟨_,-,h⟩ := bind_ok.mp h
  obtain ⟨⟨free,declared⟩,hdisks,h⟩ := bind_ok.mp h
  obtain ⟨_,-,h⟩ := bind_ok.mp h
  obtain ⟨_,-,h⟩ := bind_ok.mp h
  obtain ⟨_,-,h⟩ := bind_ok.mp h
  obtain ⟨-,rfl⟩ := Prod.mk.inj (pure_ok.mp h)
  intro disk hm
  obtain ⟨path,hpath,hmem⟩ := (hfold disks _ _ hdisks).2 disk hm
  exact ⟨path,hpath,(Usage.roots_spec declared).2.1 _ hmem⟩

end Rules

section Main
variable (host : Tree) (mounts : List Mount) (disks : List Place)

/-- Why the data disks cannot be measured through the mounts. -/
inductive Unmeasured : Prop
  | shared (h : ¬(mounts.map Mount.destinationPath).Nodup)
  | uncovered (disk : Place) (hd : disk ∈ disks) (h : ∀ m d, ¬Deepest mounts disk m d)
  | notBind (disk : Place) (hd : disk ∈ disks) (m : Mount) (hm : m ∈ mounts) (d : Place)
      (hdest : m.destinationPath = .ok d) (h : Deepest mounts disk m d ∨ disk <+: d)
      (ht : m.type ≠ some "bind")

end Main

/-- On a host without symbolic links. Every container path below a data disk
has a deepest mount, and through it a place below one of the directories that
are measured. -/
theorem host_binds (host : Tree) (mounts : List Mount) (disks : List Place) :
    (∀ bs, bindings host (some mounts) disks = .ok bs →
      (∀ disk ∈ disks, ∀ m ∈ mounts, ∀ d, m.destinationPath = .ok d →
        Deepest mounts disk m d ∨ disk <+: d → m.type = some "bind") ∧
      ∀ disk ∈ disks, ∀ p, disk <+: p → (∃ m d, Deepest mounts p m d) ∧
        ((∀ q t, host.kind q ≠ some (.link t)) → ∀ m d, Deepest mounts p m d →
          ∃ source, m.sourcePath = .ok source ∧ ∃ b ∈ bs, b.host <+: hostPath source d p)) ∧
    (Unmeasured mounts disks → ∃ e, bindings host (some mounts) disks = .error e) ∧
    ∀ (declared : List DataDisk) (available : ℕ),
      dataDisks (some mounts) declared = .ok (available,disks) →
      ∀ disk ∈ declared, ∃ path, disk.path = some path ∧ ∃ r ∈ disks, r <+: names path := by
  have hok : ∀ bs, bindings host (some mounts) disks = .ok bs →
      (mounts.map Mount.destinationPath).Nodup ∧ ∃ mapped : SortedMap Place Place,
        (∀ p v, mapped.get? p = some v → ⟨p,v⟩ ∈ bs) ∧
        ∀ disk ∈ disks, DiskMapped host mounts mapped disk := by
    intro bs h
    obtain ⟨ms,hms,hn,hmapped⟩ := bindings_spec h
    cases hms
    exact ⟨hn,hmapped⟩
  refine ⟨fun bs h => ?_,fun hbad => ?_,fun declared available h => dataDisks_covers h⟩
  · obtain ⟨hn,mapped,hbs,hdisks⟩ := hok bs h
    refine ⟨fun disk hd m hm d hdest hdeep => nested_bind hn (hdisks disk hd) hm hdest hdeep,
      fun disk hd p hp => ⟨?_,fun hlinks m d hdeep => ?_⟩⟩
    · obtain ⟨m,d,hdeep,-⟩ := (hdisks disk hd).covering
      exact deepest_exists hdeep.1 hdeep.2.1 (hdeep.2.2.1.trans hp)
    · obtain ⟨path,hpath,hadd⟩ := covered hn (hdisks disk hd) hp hdeep
      obtain ⟨source,directory,hs,hg,hbelow⟩ := added_below hlinks hadd hdeep.2.1 hpath
      exact ⟨source,hs,⟨path,directory⟩,hbs path directory hg,hbelow⟩
  · cases h : bindings host (some mounts) disks with
    | error e => exact ⟨e,rfl⟩
    | ok bs =>
      obtain ⟨hn,mapped,-,hdisks⟩ := hok bs h
      cases hbad with
      | shared hs => exact absurd hn hs
      | uncovered disk hd hnone =>
        obtain ⟨m,d,hdeep,-⟩ := (hdisks disk hd).covering
        exact absurd hdeep (hnone m d)
      | notBind disk hd m hm d hdest hdeep ht =>
        exact absurd (nested_bind hn (hdisks disk hd) hm hdest hdeep) ht

def sampleMounts : List Mount :=
  [⟨some "bind",some ⟨true,[.normal "data"]⟩,some ⟨true,[.normal "nested"]⟩⟩,
    ⟨some "bind",some ⟨true,[.normal "data",.normal "store"]⟩,some ⟨true,[]⟩⟩]

theorem host_binds_sample : ∃ bs,
    bindings Usage.sampleDisk.toTree (some sampleMounts) [["data"]] = .ok bs ∧
    ∀ p, ["data"] <+: p → ∃ m d source, Deepest sampleMounts p m d ∧ m.sourcePath = .ok source ∧
      ∃ b ∈ bs, b.host <+: hostPath source d p := by
  have hbindings : bindings Usage.sampleDisk.toTree (some sampleMounts) [["data"]] =
      .ok [⟨["data"],["nested"]⟩,⟨["data","store"],[]⟩] := by rfl
  have hlinks : ∀ q t, Usage.sampleDisk.kind q ≠ some (.link t) := by
    intro q t h
    have hkind : Usage.sampleKind q = some (.link t) := h
    have hq : Usage.sampleKind q ≠ none := by simp [hkind]
    rcases Usage.sampleKind_cases hq with rfl | rfl | rfl | rfl <;> cases hkind
  obtain ⟨hok,-⟩ := host_binds Usage.sampleDisk.toTree sampleMounts [["data"]]
  obtain ⟨-,hcovered⟩ := hok _ hbindings
  refine ⟨_,hbindings,fun p hp => ?_⟩
  obtain ⟨⟨m,d,hdeep⟩,hsource⟩ := hcovered ["data"] (by simp) p hp
  obtain ⟨source,hs,hb⟩ := hsource hlinks m d hdeep
  exact ⟨m,d,source,hdeep,hs,hb⟩

end EvmState.HostBinds
