import EvmState.PrepareSteps

/-!
# Calls of the preparation in a row

A torn state makes every later call fail. Without torn states the calls
prepare one run, the one whose identity file was linked first.
-/

set_option autoImplicit false

namespace EvmState.Prepare
open EvmState.Hex EvmState.Fallible EvmState.Crash EvmState.Restart EvmState.Bootstrap EvmState.Files

section Stuck
variable {site : Site} {call : Call}

/-- An unclaimed directory with a scratch file is never claimed. -/
theorem prepare_scratch : Triple (fun w => w.run = none ∧ w.scratch ≠ 0) (prepare site call)
    (fun _ _ => False) (fun w => w.run = none ∧ w.scratch ≠ 0) := by
  let T : PrepareWorld → Prop := fun w => w.run = none ∧ w.scratch ≠ 0
  have hC : ∀ w, T w → T w := fun _ h => h
  have hstep : ∀ p, Triple T (arrive call.faults p) (fun _ => T) T := fun p =>
    triple_arrive (fun _ h => h) hC
  have hread : ∀ {α : Type} (g : PrepareWorld → Except String α),
      Triple T (read g) (fun _ => T) T := fun g => triple_read (fun _ _ h _ => h) hC
  have htables : ∀ found, Triple T (checkTables call found) (fun _ => T) T := by
    intro found
    cases found with
    | true => exact triple_bind (hstep _) (fun _ => hread _)
    | false => exact triple_pure () hC
  have hidentity : Triple T (identity site call) (fun _ => T) T :=
    triple_bind (hstep _) (fun _ => triple_bind (hstep _) (fun _ => triple_bind (hread _)
      (fun _ => triple_check (fun _ _ h _ => h) hC)))
  have hclaim : ∀ identity found, Triple T (claimRecord call identity found) (fun _ _ => False) T := by
    intro identity found
    refine triple_bind (hstep _) (fun _ => ?_)
    refine triple_bind (triple_read (Q := fun previous w => T w ∧ previous = none)
      (fun w _ h he => ⟨h,(Except.ok.inj he).symm.trans h.1⟩) hC) (fun previous => ?_)
    cases previous with
    | some record => exact fun _ h => absurd h.2 (by simp)
    | none =>
      refine triple_bind (M := fun _ => T) ((htables found).weaken (fun _ h => h.1)
        (fun _ _ h => h) hC) (fun _ => triple_bind (hstep _) (fun _ => ?_))
      exact triple_bind (M := fun _ _ => False) (triple_read
        (fun w _ h he => h.2 (ensure_ok.mp he).1) hC) (fun _ _ h => h.elim)
  refine triple_bind (hstep _) (fun _ => triple_bind (hstep _) (fun _ => ?_))
  refine triple_bind (hstep _) (fun _ => triple_bind (hread _) (fun _ => ?_))
  refine triple_bind hidentity (fun _ => triple_bind (hstep _) (fun _ => ?_))
  exact triple_bind (hread _) (fun found => triple_bind (hclaim _ found) (fun _ _ h => h.elim))

/-- An owner table without its row is never filled. -/
theorem prepare_unruled : Triple (fun w => ownerRows w = some []) (prepare site call)
    (fun _ _ => False) (fun w => ownerRows w = some []) := by
  let T : PrepareWorld → Prop := fun w => ownerRows w = some []
  have hC : ∀ w, T w → T w := fun _ h => h
  have hstep : ∀ p, Triple T (arrive call.faults p) (fun _ => T) T := fun p =>
    triple_arrive (fun _ h => h) hC
  have hread : ∀ {α : Type} (g : PrepareWorld → Except String α),
      Triple T (read g) (fun _ => T) T := fun g => triple_read (fun _ _ h _ => h) hC
  have hcheck : ∀ {α : Type} (x : Except String α), Triple T (check x) (fun _ => T) T :=
    fun x => triple_check (fun _ _ h _ => h) hC
  have hfile : ∀ (point : Part → Point) (publish : PrepareWorld → PrepareWorld)
      (taken : PrepareWorld → Bool), (∀ w, T w → T (publish w)) → Triple T
      (atomicWrite call.faults point insertScratch publish removeScratch taken) (fun _ => T) T := by
    intro point publish taken hpublish
    refine triple_bind (hstep _) (fun _ => triple_bind (M := fun _ => T)
      (triple_write (fun _ h => h)) (fun _ => triple_bind (hstep _) (fun _ => ?_)))
    refine triple_bind (hread _) (fun b => ?_)
    cases b with
    | true => exact triple_bind (M := fun _ => T) (triple_write (fun _ h => h)) (fun _ => hcheck _)
    | false =>
      exact triple_bind (M := fun _ => T) (triple_write hpublish) (fun _ =>
        triple_bind (hstep _) (fun _ => triple_write (fun _ h => h)))
  have htables : ∀ found, Triple T (checkTables call found) (fun _ => T) T := by
    intro found
    cases found with
    | true => exact triple_bind (hstep _) (fun _ => hread _)
    | false => exact triple_pure () hC
  have hidentity : Triple T (identity site call) (fun _ => T) T :=
    triple_bind (hstep _) (fun _ => triple_bind (hstep _) (fun _ => triple_bind (hread _)
      (fun _ => hcheck _)))
  have hclaim : ∀ identity found, Triple T (claimRecord call identity found) (fun _ => T) T := by
    intro identity found
    refine triple_bind (hstep _) (fun _ => triple_bind (hread _) (fun previous => ?_))
    cases previous with
    | some record =>
      exact triple_bind (hcheck _) (fun _ => triple_bind (hcheck _) (fun _ =>
        triple_bind (hcheck _) (fun _ => triple_pure _ hC)))
    | none =>
      refine triple_bind (htables found) (fun _ => triple_bind (hstep _) (fun _ => ?_))
      exact triple_bind (hread _) (fun _ => triple_bind (hfile _ _ _ (fun _ h => h))
        (fun _ => triple_pure _ hC))
  have hfreeze : ∀ record, Triple T (freezePackage site call record) (fun _ => T) T := by
    intro record
    refine triple_bind (hstep _) (fun _ => triple_bind (hread _) (fun frozen => ?_))
    cases frozen with
    | some bytes => exact hcheck _
    | none => exact triple_bind (hcheck _) (fun _ => hfile _ _ _ (fun _ h => h))
  have hcreate : Triple T (createDatabase call) (fun _ => T) T := by
    refine triple_bind (hstep _) (fun _ => triple_write (fun w h => ?_))
    obtain ⟨db,hd,ho⟩ := Option.bind_eq_some_iff.mp h
    show ownerRows _ = _
    simp [ownerRows, hd, ho]
  have howner : ∀ record, Triple T (claimOwner call record) (fun _ => T) T := by
    intro record
    refine triple_bind (hstep _) (fun _ => ?_)
    refine triple_bind (triple_read (Q := fun found w => T w ∧ found = true)
      (fun w _ h he => ⟨h,(Except.ok.inj he).symm.trans (by rw [h]; rfl)⟩) hC) (fun found => ?_)
    rintro s ⟨hs,rfl⟩
    exact hs
  refine triple_bind (hstep _) (fun _ => triple_bind (hstep _) (fun _ => ?_))
  refine triple_bind (hstep _) (fun _ => triple_bind (hread _) (fun _ => ?_))
  refine triple_bind hidentity (fun _ => triple_bind (hstep _) (fun _ => ?_))
  refine triple_bind (hread _) (fun found => triple_bind (hclaim _ found) (fun record => ?_))
  refine triple_bind (hfreeze record) (fun _ => triple_bind hcreate (fun _ => ?_))
  refine triple_bind (hstep _) (fun _ => triple_bind (hread _) (fun _ => ?_))
  refine triple_bind (howner record) (fun _ => triple_bind (hstep _) (fun _ => ?_))
  refine triple_bind (M := fun _ _ => False) (triple_read (fun w _ h he => ?_) hC)
    (fun _ _ h => h.elim)
  obtain ⟨rows,hr,he⟩ := bind_ok.mp he
  obtain rfl := Option.some.inj (h.symm.trans (context_ok.mp hr))
  obtain ⟨_,he,-⟩ := bind_ok.mp he
  cases he

end Stuck

section Runs
variable {site : Site} {start v : PrepareWorld} {c : Call}

theorem after_kept (hs : Sound site v) (hu : ¬Torn v c) :
    Kept site v (after (prepare site) v c) := by
  have hv : Visits c.faults (points v) (Leaves site v) (fun w => w = v) (prepare site c)
    (fun record w => Held site v record w ∧ Prepared record w) := prepare_visits hs
  cases hf : firstFault c.faults (points v) with
  | none =>
    obtain ⟨record,s,hr,hheld,-⟩ := hv.returns (h := ⟨v,[]⟩) rfl hf
    rw [after, ends, hr]
    exact hheld.kept
  | some point =>
    obtain ⟨e,s,hr,hl⟩ := hv.dies (h := ⟨v,[]⟩) rfl hf
    have hp : ¬(point = .runFile .publish ∨ point = .insertOwner) := by
      rintro (rfl | rfl)
      · exact hu (Or.inl hf)
      · exact hu (Or.inr hf)
    rw [Leaves, if_neg hp] at hl
    rw [after, ends, hr]
    exact hl

theorem prepare_restartable (hstart : Pristine start) :
    Restartable (prepare site) start (Sound site) Stuck Torn where
  begins := Or.inl hstart
  keeps _ _ hs hu := (after_kept hs hu).1
  tears v c hs ht := by
    have hpoint : ∃ point, firstFault c.faults (points v) = some point ∧
        (point = .runFile .publish ∨ point = .insertOwner) :=
      ht.elim (fun h => ⟨_,h,Or.inl rfl⟩) (fun h => ⟨_,h,Or.inr rfl⟩)
    obtain ⟨point,hf,hp⟩ := hpoint
    obtain ⟨e,s,hr,hl⟩ := (prepare_visits hs).dies (h := ⟨v,[]⟩) rfl hf
    rw [Leaves, if_pos hp] at hl
    rw [after, ends, hr]
    exact hl
  blocked _ _ hs _ _ hok := by
    rcases hs with hs | hs
    · exact prepare_scratch.ok hs hok
    · exact prepare_unruled.ok hs hok

def Call.whole (c : Call) : Call := { c with faults := fun _ => none }

theorem Call.Uninterrupted.first (hc : c.Uninterrupted) (points : List Point) :
    firstFault c.faults points = none :=
  List.find?_eq_none.mpr (fun p _ => by simp [hc p])

end Runs

/-- From an empty database and directory, preparation survives the deaths of
its calls exactly when none of them leaves a scratch file before the identity
file is there, or an owner table without its row. -/
theorem prepare_survives (site : Site) (start : PrepareWorld) (hstart : Pristine start)
    (calls : List Call) : Survives site start calls ↔ Untorn (prepare site) start Torn calls := by
  have hrest : Restartable (prepare site) start (Sound site) Stuck Torn :=
    prepare_restartable hstart
  constructor
  · intro h
    cases calls with
    | nil => exact fun earlier c later he => by simp at he
    | cons c rest =>
      refine hrest.untorn (fun earlier later he => ?_)
      obtain ⟨record,s,hok,-⟩ := h earlier later he c.whole (fun _ => rfl)
      exact ⟨c.whole,record,s,hok⟩
  · intro hu earlier later he c hc
    have hu : Untorn (prepare site) start Torn earlier := (he ▸ hu).earlier
    obtain ⟨record,s,hok,hheld,hprep⟩ := (prepare_visits (hrest.holds hu)).returns
      (h := ⟨left site start earlier,[]⟩) rfl (hc.first _)
    obtain ⟨rows,hrows⟩ := Option.ne_none_iff_exists'.mp hprep.owner
    refine ⟨record,s,hok,hheld.owned.run,?_,fun first rest hd r hr => ?_⟩
    · rw [hrows, hheld.owned.owner rows hrows]
    · subst hd
      let Same : PrepareWorld → Prop := fun w => ∃ r', w.run = some r' ∧ r'.runId = r.runId
      have hsame : ∀ v c, Sound site v → ¬Torn v c → Same v → Same (after (prepare site) v c) := by
        rintro v c hs hnt ⟨r',hb,hid⟩
        obtain ⟨r'',hb',hid'⟩ := (after_kept hs hnt).2 r' hb
        exact ⟨r'',hb',hid'.trans hid⟩
      obtain ⟨r',hr',hid⟩ := hrest.keeps_later hsame hu ⟨r,hr,rfl⟩
      exact (hheld.same r' hr').trans hid

section Sample
open EvmState.Params

def sampleAccount : String := "0x0404040404040404040404040404040404040404"

def sampleOptions : NativeOptions where
  database := "native"
  httpUrl := "http://127.0.0.1:8123"
  endpoint := "endpoint"
  accounts := .arr [.str sampleAccount]
  startBlock := 100
  directory := "/state"
  checkpointDatabase := none
  target := .ok "127.0.0.1:9000/native"
  package := [1,2,3]
  info := .ok ⟨"bsc",[⟨moduleName,"proto:evm.state.v1.BlockState","11"⟩]⟩

def sampleIdentity : Identity where
  formatVersion := 3
  database := "native"
  httpUrl := "http://127.0.0.1:8123"
  checkpointDatabase := "native"
  stateDirectory := "/state"
  host := "machine-sha256:00"
  nativeTarget := "127.0.0.1:9000/native"
  endpoint := "endpoint"
  accounts := [sampleAccount]
  startBlock := 100
  module := moduleName
  moduleHash := "11"
  packageSha256 := "010203"
  network := "bsc"
  schemaVersion := 1
  finalBlocksOnly := true

def sampleSetup : NativeSetup where
  run _ := ⟨["state_blocks","_blocks_"],some "22"⟩
  interrupted n := n
  tables _ := by decide
  schema _ := by simp

def sampleSite : Site where
  sha256 := encode
  machine := ⟨"00","host"⟩
  rebinding := none
  setup := sampleSetup
  options := sampleOptions
  valid := ⟨sampleIdentity,by decide +kernel⟩

def sampleStart : PrepareWorld := ⟨none,none,0,false,none,⟨[],none⟩⟩

theorem sampleStart_pristine : Pristine sampleStart := ⟨rfl,rfl,rfl,rfl,rfl,rfl⟩

def sampleCall (killed : Point) : Call where
  newId := "0123456789abcdef0123456789abcdef"
  newUuid := "11111111-2222-4333-8444-555555555555"
  faults p := if p = killed then some "killed" else none

/-- One killed call, before the link of the identity file or before the insert
of the owner row, and the run cannot be prepared any more. -/
theorem preparation_lost :
    ¬Survives sampleSite sampleStart [sampleCall (.runFile .publish)] ∧
      ¬Survives sampleSite sampleStart [sampleCall .insertOwner] := by
  constructor
  · intro h
    obtain ⟨record,s,hok,-⟩ := h [sampleCall (.runFile .publish)] [] rfl
      (sampleCall .insertOwner).whole (fun _ => rfl)
    have hstate : (left sampleSite sampleStart [sampleCall (.runFile .publish)]).run = none ∧
        (left sampleSite sampleStart [sampleCall (.runFile .publish)]).scratch ≠ 0 := by
      decide +kernel
    exact prepare_scratch.ok hstate hok
  · intro h
    obtain ⟨record,s,hok,-⟩ := h [sampleCall .insertOwner] [] rfl
      (sampleCall .insertOwner).whole (fun _ => rfl)
    have hstate : ownerRows (left sampleSite sampleStart [sampleCall .insertOwner]) = some [] := by
      decide +kernel
    exact prepare_unruled.ok hstate hok

theorem prepare_survives_sample : Survives sampleSite sampleStart [sampleCall .setup] ↔
    Untorn (prepare sampleSite) sampleStart Torn [sampleCall .setup] :=
  prepare_survives sampleSite sampleStart sampleStart_pristine [sampleCall .setup]

end Sample
end EvmState.Prepare
