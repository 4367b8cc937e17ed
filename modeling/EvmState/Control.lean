import EvmState.Bootstrap
import EvmState.Files
import EvmState.Host
import EvmState.Lib.Restart

/-!
# Setup of the checkpoint control

A controller is a binding file in a directory, an ownership table with one
row in the database, and a marker file. Each call looks at what earlier calls
left, completes it and checks it. A call may die between any two steps.
-/

set_option autoImplicit false

namespace EvmState.Control
open EvmState.Hex EvmState.Fallible EvmState.Crash EvmState.Bootstrap EvmState.Files EvmState.Restart

structure Binding where
  formatVersion : ℕ
  controlId : String
  databaseUuid : String
  directory : String
  host : String
  deriving DecidableEq

structure OwnerRow where
  controlId : String
  binding : Binding
  deriving DecidableEq

structure ControlWorld where
  binding : Option Binding
  table : Option (List OwnerRow)
  initialized : Option String
  deriving DecidableEq

def fresh : ControlWorld := ⟨none,none,none⟩

/-- A canonical UUID text other than the nil one. -/
def IsUuid (s : String) : Prop :=
  s.toList.length = 36 ∧ (∀ e ∈ s.toList.zipIdx,
    if e.2 ∈ [8,13,18,23] then e.1 = '-' else IsLowerDigit e.1) ∧
    s ≠ "00000000-0000-0000-0000-000000000000"

instance (s : String) : Decidable (IsUuid s) := inferInstanceAs (Decidable (_ ∧ _ ∧ _))

/-- A database and the installation that opens its control: its directory,
its machine, and a recovery file as the bindings that it was made for. -/
structure Site where
  databaseUuid : String
  uuid : IsUuid databaseUuid
  directory : String
  machine : Host.Machine
  rebinding : Option (Binding → Bool)

def Site.hostMatches (site : Site) (record : Binding) : Bool :=
  site.machine.matchesFor record.host (site.rebinding.map (· record))

inductive Point
  | database
  | directory
  | lock
  | tables
  | binding
  | bindingFile (part : Part)
  | marker
  | create
  | insert
  | owner
  | initialized
  | markerFile (part : Part)
  | pins
  deriving DecidableEq

/-- The identifier that the call would choose, and where it dies. -/
structure Call where
  newId : String
  valid : objectId newId = .ok ()
  faults : Point → Option String

section Open
variable (site : Site) (call : Call)

def newBinding : Binding := ⟨1,call.newId,site.databaseUuid,site.directory,site.machine.id⟩

def bindRecord (found : Bool) : Prog ControlWorld Binding := do
  arrive call.faults .binding
  let previous ← read (fun w => .ok w.binding)
  match previous with
  | some record => return record
  | none => do
    check (ensure (found = false)
      "checkpoint control metadata is missing; restore the bound EVM_STATE_HOME")
    atomicWrite call.faults .bindingFile id
      (fun w : ControlWorld => { w with binding := some (newBinding site call) }) id
      (fun w => w.binding.isSome)
    return newBinding site call

def checkBinding (record : Binding) : Except String Unit := do
  ensure (record.databaseUuid = site.databaseUuid ∧ record.directory = site.directory ∧
    site.hostMatches record) "checkpoint controller belongs to another database, directory or host"
  objectId record.controlId

def claimTable (found : Bool) (record : Binding) : Prog ControlWorld Unit :=
  if found then return ()
  else do
    arrive call.faults .marker
    let initialized ← read (fun w => .ok w.initialized)
    check (ensure (initialized = none)
      "database checkpoint ownership is missing; restore matching database and control metadata")
    arrive call.faults .create
    write (fun w : ControlWorld => { w with table := some [] })
    arrive call.faults .insert
    write (fun w : ControlWorld => { w with table := w.table.map (·++[⟨record.controlId,record⟩]) })

def checkOwner (record : Binding) (w : ControlWorld) : Except String Unit := do
  let rows ← context w.table "ClickHouse read failed"
  let owner ← one rows
  ensure (owner.controlId = record.controlId ∧ owner.binding = record)
    "database is bound to a different checkpoint controller"

def markInitialized (record : Binding) : Prog ControlWorld Unit := do
  arrive call.faults .initialized
  let initialized ← read (fun w => .ok w.initialized)
  match initialized with
  | some text => do
    check (ensure (text = record.controlId) "checkpoint initialization marker is corrupt")
  | none => do
    atomicWrite call.faults .markerFile id
      (fun w : ControlWorld => { w with initialized := some record.controlId }) id
      (fun w => w.initialized.isSome)

def bindControl : Prog ControlWorld (Bool × Binding) := do
  arrive call.faults .database
  check (ensure (IsUuid site.databaseUuid)
    "checkpoint coordination requires an Atomic ClickHouse database")
  arrive call.faults .directory
  arrive call.faults .lock
  arrive call.faults .tables
  let found ← read (fun w => .ok w.table.isSome)
  let record ← bindRecord site call found
  check (checkBinding site record)
  return (found,record)

def openControl : Prog ControlWorld Binding := do
  let bound ← bindControl site call
  claimTable call bound.1 bound.2
  arrive call.faults .owner
  read (checkOwner bound.2)
  markInitialized call bound.2
  arrive call.faults .pins
  return bound.2

end Open

def Call.Uninterrupted (c : Call) : Prop := ∀ p, c.faults p = none

abbrev left (site : Site) (calls : List Call) : ControlWorld := reached (openControl site) fresh calls

/-- After every part of the calls an uninterrupted one succeeds, with the one
identity that all earlier successful calls returned. -/
def Survives (site : Site) (calls : List Call) : Prop :=
  ∀ earlier later, calls = earlier++later → ∀ c : Call, c.Uninterrupted →
    ∃ record s, openControl site c ⟨left site earlier,[]⟩ = .ok record s ∧
      ∀ first d rest, earlier = first++d::rest → ∀ r t,
        openControl site d ⟨left site first,[]⟩ = .ok r t → r.controlId = record.controlId

def bindPoints (w : ControlWorld) : List Point :=
  .binding :: if w.binding = none then writePoints .bindingFile else []

def claimPoints (w : ControlWorld) : List Point :=
  if w.table = none then [.marker,.create,.insert] else []

def markPoints (w : ControlWorld) : List Point :=
  .initialized :: if w.initialized = none then writePoints .markerFile else []

def points (w : ControlWorld) : List Point :=
  .database::.directory::.lock::.tables::bindPoints w ++ claimPoints w ++ .owner::markPoints w ++
    [.pins]

/-- The call finds no table, creates it and dies before it inserts its row. -/
def Torn (w : ControlWorld) (call : Call) : Prop :=
  firstFault call.faults (points w) = some .insert

/-- A record that this installation accepts. -/
abbrev Accepted (site : Site) (record : Binding) : Prop := checkBinding site record = .ok ()

/-- The binding file is there; a table holds its one row, and a marker its
identity. -/
structure Bound (site : Site) (record : Binding) (w : ControlWorld) : Prop where
  binding : w.binding = some record
  accepted : Accepted site record
  table : ∀ rows, w.table = some rows → rows = [⟨record.controlId,record⟩]
  initialized : ∀ text, w.initialized = some text → text = record.controlId ∧ w.table ≠ none

/-- Nothing was set up yet, or what was set up is consistent. -/
def Sound (site : Site) (w : ControlWorld) : Prop := w = fresh ∨ ∃ record, Bound site record w

theorem newBinding_accepted (site : Site) (call : Call) : Accepted site (newBinding site call) :=
  bind_ok.mpr ⟨(),ensure_ok.mpr ⟨rfl,rfl,site.machine.matchesFor_id _⟩,call.valid⟩

section Visits
variable {site : Site} {call : Call} {record : Binding} {v w : ControlWorld}

theorem bound_new : Bound site (newBinding site call)
    { fresh with binding := some (newBinding site call) } :=
  ⟨rfl,newBinding_accepted site call,by simp [fresh],by simp [fresh]⟩

theorem Bound.unmarked (h : Bound site record w) (ht : w.table = none) : w.initialized = none := by
  cases hi : w.initialized with
  | none => rfl
  | some text => exact absurd ht (h.initialized text hi).2

theorem Sound.bound (h : Sound site v) (hr : v.binding = some record) : Bound site record v := by
  rcases h with rfl | ⟨r,h⟩
  · cases hr
  · obtain rfl := Option.some.inj (hr.symm.trans h.binding)
    exact h

theorem Sound.fresh (h : Sound site v) (hn : v.binding = none) : v = Control.fresh := by
  rcases h with h | ⟨r,h⟩
  · exact h
  · rw [h.binding] at hn
    cases hn

/-- A state in which a call may end: sound, with the binding that it found. -/
def Kept (site : Site) (v w : ControlWorld) : Prop :=
  Sound site w ∧ ∀ r, v.binding = some r → w.binding = some r

/-- What the death at a point leaves. -/
def Leaves (site : Site) (v : ControlWorld) (point : Point) (w : ControlWorld) : Prop :=
  if point = .insert then w.table = some [] else Kept site v w

structure Held (site : Site) (v : ControlWorld) (record : Binding) (w : ControlWorld) : Prop where
  bound : Bound site record w
  same : ∀ r, v.binding = some r → record = r

theorem Held.kept (h : Held site v record w) : Kept site v w :=
  ⟨Or.inr ⟨record,h.bound⟩,fun r hr => by rw [h.bound.binding, h.same r hr]⟩

theorem Kept.leaves (h : Kept site v w) {point : Point} (hp : point ≠ .insert := by simp) :
    Leaves site v point w := by
  rw [Leaves, if_neg hp]
  exact h

/-- The table and the marker that the call found are still as they were. -/
structure Untouched (v w : ControlWorld) : Prop where
  table : w.table = v.table
  initialized : w.initialized = v.initialized

theorem bindRecord_visits (hs : Sound site v) : Visits call.faults (bindPoints v) (Leaves site v)
    (fun w => w = v) (bindRecord site call v.table.isSome)
    (fun record w => Held site v record w ∧ Untouched v w) := by
  have hkept : Kept site v v := ⟨hs,fun _ hr => hr⟩
  refine visits_point (fun w hw => hw ▸ hkept.leaves) ?_
  refine visits_step (visits_read (Q := fun previous w => w = v ∧
    previous = v.binding) (fun w hw => ⟨_,rfl,hw,hw ▸ rfl⟩)) (fun previous => visits_of ?_)
  rintro w ⟨rfl,hb⟩
  cases previous with
  | some record =>
    rw [← hb, if_neg (by simp)]
    refine visits_pure record (fun u hu => ?_)
    subst hu
    exact ⟨⟨hs.bound hb.symm,fun r hr => Option.some.inj (hb.trans hr)⟩,rfl,rfl⟩
  | none =>
    obtain rfl := hs.fresh hb.symm
    have hnew : Held site fresh (newBinding site call)
        { fresh with binding := some (newBinding site call) } :=
      ⟨bound_new,fun r hr => by cases hr⟩
    refine visits_step (visits_check (Q := fun _ w => w = fresh)
      (fun _ hw => ⟨(),rfl,hw⟩)) (fun _ => ?_)
    refine visits_last (visits_atomicWrite
      (R := fun w => w = { fresh with binding := some (newBinding site call) })
      (fun _ hw => hw ▸ hkept.leaves) (fun _ hw => hw ▸ hkept.leaves) (fun _ hw => hw ▸ rfl)
      (fun _ hw => hw ▸ hnew.kept.leaves) (fun _ hw => hw ▸ rfl)) (fun _ => ?_)
    exact visits_pure _ (fun w hw => hw ▸ ⟨hnew,rfl,rfl⟩)

theorem claimTable_visits : Visits call.faults (claimPoints v) (Leaves site v)
    (fun w => Held site v record w ∧ Untouched v w) (claimTable call v.table.isSome record)
    (fun _ w => Held site v record w ∧ w.table ≠ none ∧ w.initialized = v.initialized) := by
  cases ht : v.table with
  | some rows =>
    rw [claimPoints, if_neg (by simp [ht])]
    exact visits_pure () (fun w h => ⟨h.1,by rw [h.2.table, ht]; simp,h.2.initialized⟩)
  | none =>
    rw [claimPoints, if_pos ht]
    let M : ControlWorld → Prop := fun w => Held site v record w ∧ w.table = none ∧
      w.initialized = v.initialized
    have hM : ∀ w, M w → w.initialized = none := fun w h => h.1.bound.unmarked h.2.1
    refine Visits.weaken (P := M) (visits_point (fun w h => h.1.kept.leaves) ?_)
      (fun w h => ⟨h.1,h.2.table.trans ht,h.2.initialized⟩) (fun _ _ h => h)
    refine visits_step (visits_read (Q := fun initialized w => M w ∧
      initialized = none) (fun w h => ⟨_,rfl,h,hM w h⟩)) (fun initialized => ?_)
    refine visits_step (visits_check (Q := fun _ => M)
      (fun w h => ⟨(),ensure_ok.mpr h.2,h.1⟩)) (fun _ => ?_)
    refine visits_point (fun w h => h.1.kept.leaves) ?_
    -- from here to the insert the table is there without its row
    refine visits_step (visits_write (R := fun _ w => ∃ u, M u ∧
      w = { u with table := some [] }) (fun w h => ⟨w,h,rfl⟩)) (fun _ => ?_)
    refine visits_point ?_ (visits_write ?_)
    · rintro w ⟨u,hu,rfl⟩
      rfl
    · rintro w ⟨u,hu,rfl⟩
      have hi := hM u hu
      refine ⟨⟨⟨hu.1.bound.binding,hu.1.bound.accepted,fun rows hr => ?_,fun text he => ?_⟩,
        hu.1.same⟩,by simp,hu.2.2⟩
      · exact (Option.some.inj hr).symm
      · rw [hi] at he
        cases he

theorem checkOwner_bound (h : Bound site record w) (ht : w.table ≠ none) :
    checkOwner record w = .ok () := by
  obtain ⟨rows,hr⟩ := Option.ne_none_iff_exists'.mp ht
  have hone := h.table rows hr
  refine bind_ok.mpr ⟨rows,context_ok.mpr hr,bind_ok.mpr ⟨_,one_ok.mpr hone,?_⟩⟩
  exact ensure_ok.mpr ⟨rfl,rfl⟩

theorem markInitialized_visits : Visits call.faults (markPoints v) (Leaves site v)
    (fun w => Held site v record w ∧ w.table ≠ none ∧ w.initialized = v.initialized)
    (markInitialized call record) (fun _ => Held site v record) := by
  refine visits_point (fun w h => h.1.kept.leaves) ?_
  refine visits_step (visits_read (Q := fun initialized w => (Held site v record w ∧
    w.table ≠ none) ∧ w.initialized = initialized ∧ initialized = v.initialized)
    (fun w h => ⟨_,rfl,⟨h.1,h.2.1⟩,rfl,h.2.2⟩)) (fun initialized => visits_of ?_)
  rintro w ⟨⟨hheld,ht⟩,hi,hv⟩
  cases initialized with
  | some text =>
    rw [← hv, if_neg (by simp)]
    have htext := (hheld.bound.initialized text hi).1
    exact visits_check (fun u hu => ⟨(),ensure_ok.mpr htext,hu ▸ hheld⟩)
  | none =>
    rw [if_pos hv.symm]
    have hnew : Held site v record { w with initialized := some record.controlId } :=
      ⟨⟨hheld.bound.binding,hheld.bound.accepted,hheld.bound.table,
        fun text he => ⟨(Option.some.inj he).symm,ht⟩⟩,hheld.same⟩
    exact visits_atomicWrite (fun u hu => hu ▸ hheld.kept.leaves)
      (fun u hu => hu ▸ hheld.kept.leaves) (fun u hu => by rw [hu, id, hi]; rfl)
      (fun u hu => hu ▸ hnew.kept.leaves) (fun u hu => hu ▸ hnew)

theorem bindControl_visits (hs : Sound site v) :
    Visits call.faults (.database::.directory::.lock::.tables::bindPoints v) (Leaves site v)
      (fun w => w = v) (bindControl site call)
      (fun r w => (Held site v r.2 w ∧ Untouched v w) ∧ r.1 = v.table.isSome) := by
  have hself : Kept site v v := ⟨hs,fun _ hr => hr⟩
  have hkept : ∀ w, w = v → Kept site v w := fun w hw => hw ▸ hself
  refine visits_point (fun w hw => (hkept w hw).leaves) ?_
  refine visits_step (visits_check (Q := fun _ w => w = v)
    (fun _ hw => ⟨(),ensure_ok.mpr site.uuid,hw⟩)) (fun _ => ?_)
  refine visits_point (fun w hw => (hkept w hw).leaves) ?_
  refine visits_point (fun w hw => (hkept w hw).leaves) ?_
  refine visits_point (fun w hw => (hkept w hw).leaves) ?_
  refine visits_step (visits_read (Q := fun found w => w = v ∧
    found = v.table.isSome) (fun w hw => ⟨_,rfl,hw,hw ▸ rfl⟩)) (fun found => visits_of ?_)
  rintro w ⟨rfl,rfl⟩
  refine visits_last (bindRecord_visits hs) (fun record => ?_)
  refine visits_step (visits_check (Q := fun _ u => Held site w record u ∧
    Untouched w u) (fun u h => ⟨(),h.1.bound.accepted,h⟩)) (fun _ => ?_)
  exact visits_pure _ (fun u h => ⟨h,rfl⟩)

theorem openControl_visits (hs : Sound site v) : Visits call.faults (points v) (Leaves site v)
    (fun w => w = v) (openControl site call) (Held site v) := by
  rw [points, List.append_assoc, List.append_assoc]
  refine visits_bind (bindControl_visits hs) (fun r => visits_of ?_)
  rintro w ⟨h,hr⟩
  rw [hr]
  refine visits_bind (claimTable_visits.weaken (fun u hu => hu ▸ h) (fun _ _ hu => hu)) (fun _ => ?_)
  refine visits_point (fun u hu => hu.1.kept.leaves) ?_
  refine visits_step (visits_read (Q := fun _ u => Held site v r.2 u ∧
    u.table ≠ none ∧ u.initialized = v.initialized)
    (fun u hu => ⟨(),checkOwner_bound hu.1.bound hu.2.1,hu⟩)) (fun _ => ?_)
  refine visits_bind markInitialized_visits (fun _ => ?_)
  exact visits_point (fun u hu => hu.kept.leaves) (visits_pure _ (fun u hu => hu))

/-- No call gets past a table without its row. -/
theorem openControl_stuck : Triple (fun w => w.table = some []) (openControl site call)
    (fun _ _ => False) (fun w => w.table = some []) := by
  let T : ControlWorld → Prop := fun w => w.table = some []
  have hC : ∀ w, T w → T w := fun _ h => h
  have hstep : ∀ p, Triple T (arrive call.faults p) (fun _ => T) T := fun p =>
    triple_arrive (fun _ h => h) hC
  have hbind : Triple T (bindRecord site call true) (fun _ => T) T := by
    refine triple_bind (hstep _) (fun _ => ?_)
    refine triple_bind (triple_read (Q := fun _ => T) (fun _ _ h _ => h) hC) (fun previous => ?_)
    cases previous with
    | some record => exact triple_pure _ hC
    | none => exact triple_bind (M := fun _ _ => False) (triple_check (fun _ _ _ he => by
        simpa using ensure_ok.mp he) hC) (fun _ _ h => h.elim)
  have hopen : Triple T (bindControl site call) (fun r w => T w ∧ r.1 = true) T := by
    refine triple_bind (hstep _) (fun _ => ?_)
    refine triple_bind (triple_check (Q := fun _ => T) (fun _ _ h _ => h) hC) (fun _ => ?_)
    refine triple_bind (hstep _) (fun _ => triple_bind (hstep _) (fun _ => ?_))
    refine triple_bind (hstep _) (fun _ => ?_)
    refine triple_bind (triple_read (Q := fun found w => T w ∧ found = true)
      (fun w found h he => ⟨h,(Except.ok.inj he).symm.trans (by rw [h]; rfl)⟩) hC) (fun found => ?_)
    refine triple_bind (M := fun _ w => T w ∧ found = true) ?_ (fun record => ?_)
    · rintro s ⟨hs,rfl⟩
      have ht : Triple T (bindRecord site call true) (fun _ w => T w ∧ true = true) T :=
        hbind.weaken (fun _ h => h) (fun _ _ h => ⟨h,rfl⟩) hC
      exact ht s hs
    · refine triple_bind (triple_check (Q := fun _ w => T w ∧ found = true) (fun _ _ h _ => h)
        (fun _ h => h.1)) (fun _ => ?_)
      exact triple_pure _ (fun _ h => h)
  refine triple_bind hopen (fun r => ?_)
  refine triple_bind (M := fun _ => T) ?_ (fun _ => ?_)
  · rintro s ⟨hs,hr⟩
    rw [hr]
    exact hs
  refine triple_bind (hstep _) (fun _ => ?_)
  refine triple_bind (M := fun _ _ => False) (triple_read (fun w _ h he => ?_) hC)
    (fun _ _ h => h.elim)
  obtain ⟨rows,hr,he⟩ := bind_ok.mp he
  obtain rfl := Option.some.inj (h.symm.trans (context_ok.mp hr))
  obtain ⟨_,he,-⟩ := bind_ok.mp he
  cases he

end Visits

section Runs
variable {site : Site} {v : ControlWorld} {c : Call}

theorem after_kept (hs : Sound site v) (hu : ¬Torn v c) :
    Kept site v (after (openControl site) v c) := by
  have hv : Visits c.faults (points v) (Leaves site v) (fun w => w = v) (openControl site c)
    (Held site v) := openControl_visits hs
  cases hf : firstFault c.faults (points v) with
  | none =>
    obtain ⟨record,s,hr,hheld⟩ := hv.returns (h := ⟨v,[]⟩) rfl hf
    rw [after, ends, hr]
    exact hheld.kept
  | some point =>
    obtain ⟨e,s,hr,hl⟩ := hv.dies (h := ⟨v,[]⟩) rfl hf
    have hp : point ≠ .insert := by
      rintro rfl
      exact hu hf
    rw [Leaves, if_neg hp] at hl
    rw [after, ends, hr]
    exact hl

theorem openControl_restartable (site : Site) : Restartable (openControl site) fresh (Sound site)
    (fun w => w.table = some []) Torn where
  begins := Or.inl rfl
  keeps _ _ hs hu := (after_kept hs hu).1
  tears v c hs ht := by
    obtain ⟨e,s,hr,hl⟩ := (openControl_visits hs).dies (h := ⟨v,[]⟩) rfl ht
    rw [after, ends, hr]
    exact hl
  blocked _ _ hs _ _ hok := openControl_stuck.ok hs hok

def Call.whole (c : Call) : Call := { c with faults := fun _ => none }

theorem Call.Uninterrupted.first (hc : c.Uninterrupted) (points : List Point) :
    firstFault c.faults points = none :=
  List.find?_eq_none.mpr (fun p _ => by simp [hc p])

end Runs

/-- Setup survives the deaths of its calls exactly when none of them creates
the table and dies before it inserts the row. -/
theorem control_survives (site : Site) (calls : List Call) :
    Survives site calls ↔ Untorn (openControl site) fresh Torn calls := by
  have hrest := openControl_restartable site
  constructor
  · intro h
    cases calls with
    | nil => exact fun earlier c later he => by simp at he
    | cons c rest =>
      refine hrest.untorn (fun earlier later he => ?_)
      obtain ⟨record,s,hok,-⟩ := h earlier later he c.whole (fun _ => rfl)
      exact ⟨c.whole,record,s,hok⟩
  · intro hu earlier later he c hc
    have hu : Untorn (openControl site) fresh Torn earlier := (he ▸ hu).earlier
    obtain ⟨record,s,hok,hheld⟩ := (openControl_visits (hrest.holds hu)).returns
      (h := ⟨left site earlier,[]⟩) rfl (hc.first _)
    refine ⟨record,s,hok,fun first d rest hd r t hr => ?_⟩
    subst hd
    have hfirst : Held site (left site first) r t.state :=
      ((openControl_visits (hrest.holds hu.earlier)).ok rfl hr).2
    have hbound : (left site (first++[d])).binding = some r := by
      rw [left, reached_concat, after, ends, hr]
      exact hfirst.bound.binding
    have hu' : Untorn (openControl site) fresh Torn ((first++[d])++rest) := by simpa using hu
    have hkeep : (left site ((first++[d])++rest)).binding = some r :=
      hrest.keeps_later (fun v c hs hnt hb => (after_kept hs hnt).2 r hb) hu' hbound
    rw [List.append_assoc, List.singleton_append] at hkeep
    rw [hheld.same r hkeep]

section Sample

def sampleSite : Site where
  databaseUuid := "11111111-2222-4333-8444-555555555555"
  uuid := by decide +kernel
  directory := "/home/control/11111111-2222-4333-8444-555555555555"
  machine := ⟨"00","host"⟩
  rebinding := none

/-- The process is killed after the table was created. -/
def sampleKilled : Call where
  newId := "0123456789abcdef0123456789abcdef"
  valid := by decide +kernel
  faults p := if p = .insert then some "killed" else none

/-- One killed call, and the control cannot be opened any more. -/
theorem control_lost : ¬Survives sampleSite [sampleKilled] := by
  intro h
  obtain ⟨record,s,hok,-⟩ := h [sampleKilled] [] rfl sampleKilled.whole (fun _ => rfl)
  have hstate : (left sampleSite [sampleKilled]).table = some [] := by decide +kernel
  exact openControl_stuck.ok hstate hok

end Sample
end EvmState.Control
