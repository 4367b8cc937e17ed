import EvmState.Prepare

/-!
# One call of the preparation

From a sound state a call visits its points in order. It completes what it
finds, or the first death leaves a sound state of the same run, with two
exceptions.
-/

set_option autoImplicit false

namespace EvmState.Prepare
open EvmState.Hex EvmState.Fallible EvmState.Crash EvmState.Bootstrap EvmState.Files

abbrev Preparing (record : RunRecord) : Prop :=
  record.phase = "preparing" ∧ record.databaseUuid = none

structure Prepared (record : RunRecord) (w : PrepareWorld) : Prop where
  phase : record.phase = "prepared"
  package : w.package ≠ none
  owner : ownerRows w ≠ none
  uuid : ∃ db, w.database = some db ∧ record.databaseUuid = some db.uuid
  schema : ∃ text, w.native.schemaFile = some text ∧ record.schemaHash = some (trimmed text)

/-- The identity file is there, and everything else that is there is its. -/
structure Owned (site : Site) (record : RunRecord) (w : PrepareWorld) : Prop where
  run : w.run = some record
  identity : identityFor site.sha256 site.options site.machine.id = .ok record.identity
  package : ∀ bytes, w.package = some bytes → bytes = site.options.package
  owner : ∀ rows, ownerRows w = some rows → rows = [⟨record.runId,record.identity⟩]
  phase : Preparing record ∨ Prepared record w

def Sound (site : Site) (w : PrepareWorld) : Prop := Pristine w ∨ ∃ record, Owned site record w

/-- A later call can do nothing with a scratch file in an unclaimed directory
nor with an owner table without its row. -/
def Stuck (w : PrepareWorld) : Prop := (w.run = none ∧ w.scratch ≠ 0) ∨ ownerRows w = some []

/-- A state in which a call may end: sound, and of the run that it found. -/
def Kept (site : Site) (v w : PrepareWorld) : Prop :=
  Sound site w ∧ ∀ r, v.run = some r → ∃ r', w.run = some r' ∧ r'.runId = r.runId

/-- What the death at a point leaves. -/
def Leaves (site : Site) (v : PrepareWorld) (point : Point) (w : PrepareWorld) : Prop :=
  if point = .runFile .publish ∨ point = .insertOwner then Stuck w else Kept site v w

/-- A call that goes on with a record. -/
structure Held (site : Site) (v : PrepareWorld) (record : RunRecord) (w : PrepareWorld) : Prop where
  owned : Owned site record w
  same : ∀ r, v.run = some r → record.runId = r.runId

section Visits
variable {site : Site} {call : Call} {record : RunRecord} {v w : PrepareWorld}

theorem Held.kept (h : Held site v record w) : Kept site v w :=
  ⟨Or.inr ⟨record,h.owned⟩,fun r hr => ⟨record,h.owned.run,h.same r hr⟩⟩

theorem Kept.leaves (h : Kept site v w) {point : Point}
    (hp : ¬(point = .runFile .publish ∨ point = .insertOwner) := by simp) :
    Leaves site v point w := by
  rw [Leaves, if_neg hp]
  exact h

theorem Sound.kept (h : Sound site v) : Kept site v v := ⟨h,fun r hr => ⟨r,hr,rfl⟩⟩

theorem Sound.owned (h : Sound site v) (hr : v.run = some record) : Owned site record v := by
  rcases h with h | ⟨r,h⟩
  · rw [h.run] at hr
    cases hr
  · obtain rfl := Option.some.inj (hr.symm.trans h.run)
    exact h

theorem Sound.pristine (h : Sound site v) (hn : v.run = none) : Pristine v := by
  rcases h with h | ⟨r,h⟩
  · exact h
  · rw [h.run] at hn
    cases hn

theorem identityFor_ok {sha256 : Bytes → String} {options : NativeOptions} {host : String}
    {identity : Identity} (h : identityFor sha256 options host = .ok identity) :
    identity.host = host ∧ identity.packageSha256 = sha256 options.package ∧
      checkPrevious options identity = .ok () := by
  obtain ⟨target,-,h⟩ := bind_ok.mp h
  obtain ⟨selected,hs,h⟩ := bind_ok.mp h
  obtain ⟨info,-,h⟩ := bind_ok.mp h
  obtain ⟨module,-,h⟩ := bind_ok.mp h
  obtain ⟨_,-,h⟩ := bind_ok.mp h
  obtain ⟨_,-,h⟩ := bind_ok.mp h
  obtain rfl := pure_ok.mp h
  exact ⟨rfl,rfl,bind_ok.mpr ⟨selected,hs,ensure_ok.mpr ⟨rfl,rfl,rfl,rfl,rfl,rfl,rfl⟩⟩⟩

theorem identity_visits (hs : Sound site v) : Visits call.faults [.info,.host] (Leaves site v)
    (fun w => w = v) (identity site call) (fun identity w => w = v ∧
      identityFor site.sha256 site.options site.machine.id = .ok identity) := by
  have hkept : ∀ w, w = v → Kept site v w := fun w hw => hw ▸ hs.kept
  refine visits_point (fun w hw => (hkept w hw).leaves) ?_
  refine visits_point (fun w hw => (hkept w hw).leaves) ?_
  refine visits_step (visits_read (Q := fun previous w => w = v ∧
    previous = v.run.map (·.identity)) (fun w hw => ⟨_,rfl,hw,hw ▸ rfl⟩)) (fun previous => ?_)
  have hhost : ∀ previous, previous = v.run.map (·.identity) →
      (previous.filter site.hostMatches).elim site.machine.id (·.host) = site.machine.id := by
    rintro previous rfl
    cases hr : v.run with
    | none => rfl
    | some r =>
      have he := (identityFor_ok (hs.owned hr).identity).1
      simp only [Option.map_some, Option.filter_some]
      split
      · exact he
      · rfl
  refine visits_check (fun w hw => ?_)
  obtain ⟨id,hid⟩ := site.valid
  exact ⟨id,by rw [hhost _ hw.2]; exact hid,hw.1,hid⟩

structure Claimed (site : Site) (v : PrepareWorld) (record : RunRecord) (w : PrepareWorld) :
    Prop extends Held site v record w where
  package : w.package = v.package
  database : w.database = v.database
  phase : record.phase = "preparing" ↔ isPrepared v = false

theorem checkTables_visits (hp : Pristine v) (hC : Kept site v v) :
    Visits call.faults (tablesPoints v) (Leaves site v) (fun w => w = v)
      (checkTables call v.database.isSome) (fun _ w => w = v) := by
  cases hd : v.database with
  | none =>
    rw [tablesPoints, if_pos hd]
    exact visits_pure () (fun _ hw => hw)
  | some db =>
    rw [tablesPoints, if_neg (by simp [hd])]
    refine visits_point (fun w hw => hw ▸ hC.leaves) (visits_read (fun w hw => ⟨(),?_,hw⟩))
    rw [hw]
    exact ensure_ok.mpr ⟨hp.owner,hp.tables⟩

theorem owned_claimed {identity : Identity} (hp : Pristine v)
    (hid : identityFor site.sha256 site.options site.machine.id = .ok identity) (n : ℕ) :
    Owned site ⟨call.newId,identity,"preparing",none,none⟩
      { v with run := some ⟨call.newId,identity,"preparing",none,none⟩, scratch := n } where
  run := rfl
  identity := hid
  package bytes hb := by
    have := hp.package.symm.trans hb
    cases this
  owner rows hr := by
    have := hp.owner.symm.trans hr
    cases this
  phase := Or.inl ⟨rfl,rfl⟩

theorem claimRecord_visits {identity : Identity} (hs : Sound site v)
    (hid : identityFor site.sha256 site.options site.machine.id = .ok identity) :
    Visits call.faults (recordPoints v) (Leaves site v) (fun w => w = v)
      (claimRecord call identity v.database.isSome) (Claimed site v) := by
  refine visits_point (fun w hw => hw ▸ hs.kept.leaves) ?_
  refine visits_step (visits_read (Q := fun previous w => w = v ∧ previous = v.run)
    (fun w hw => ⟨_,rfl,hw,hw ▸ rfl⟩)) (fun previous => visits_of ?_)
  rintro w ⟨rfl,hr⟩
  cases previous with
  | some record =>
    rw [← hr, if_neg (by simp)]
    have ho := hs.owned hr.symm
    have hprep : isPrepared w = decide (record.phase = "prepared") := by
      rw [isPrepared, ← hr]
      rfl
    have hsame : record.identity = identity := Except.ok.inj (ho.identity.symm.trans hid)
    have hphase : record.phase = "preparing" ∨ record.phase = "prepared" :=
      ho.phase.imp (fun h => h.1) (fun h => h.phase)
    have hfound : record.phase ≠ "prepared" ∨ w.database.isSome := by
      rcases ho.phase with h | h
      · exact Or.inl (by rw [h.1]; decide)
      · obtain ⟨db,hdb,-⟩ := h.uuid
        exact Or.inr (by rw [hdb]; rfl)
    refine visits_step (visits_check (Q := fun _ u => u = w)
      (fun _ hu => ⟨(),ensure_ok.mpr hphase,hu⟩)) (fun _ => ?_)
    refine visits_step (visits_check (Q := fun _ u => u = w)
      (fun _ hu => ⟨(),ensure_ok.mpr hsame,hu⟩)) (fun _ => ?_)
    refine visits_step (visits_check (Q := fun _ u => u = w)
      (fun _ hu => ⟨(),ensure_ok.mpr hfound,hu⟩)) (fun _ => ?_)
    refine visits_pure record (fun u hu => ?_)
    subst hu
    refine ⟨⟨ho,fun r he => ?_⟩,rfl,rfl,?_⟩
    · rw [Option.some.inj (hr.trans he)]
    · rw [hprep]
      rcases hphase with h | h <;> simp [h]
  | none =>
    have hp := hs.pristine hr.symm
    let record : RunRecord := ⟨call.newId,identity,"preparing",none,none⟩
    have hheld : ∀ n, Held site w record { w with run := some record, scratch := n } := fun n =>
      ⟨owned_claimed hp hid n,fun r he => by rw [← hr] at he; cases he⟩
    rw [if_pos hr.symm]
    refine visits_bind (checkTables_visits hp hs.kept) (fun _ => ?_)
    refine visits_point (fun u hu => hu ▸ hs.kept.leaves) ?_
    refine visits_step (visits_read (Q := fun _ u => u = w) (fun u hu => ⟨(),?_,hu⟩)) (fun _ => ?_)
    · rw [hu]
      exact ensure_ok.mpr ⟨hp.scratch,hp.package,hp.metadata⟩
    · refine visits_last (visits_atomicWrite (R := fun u => u = { w with run := some record })
        (fun u hu => hu ▸ hs.kept.leaves) (fun u hu => ?_) (fun u hu => ?_) (fun u hu => ?_)
        (fun u hu => ?_)) (fun _ => ?_)
      · -- the scratch file of an identity that is not there yet
        rw [hu]
        exact Or.inl ⟨hr.symm,Nat.succ_ne_zero _⟩
      · rw [hu, insertScratch, ← hr]
        rfl
      · rw [hu]
        exact (hheld _).kept.leaves
      · rw [hu]
        simp [insertScratch, removeScratch, record]
      · refine visits_pure record (fun u hu => ?_)
        subst hu
        refine ⟨hheld w.scratch,rfl,rfl,?_⟩
        simp [record, isPrepared, ← hr]

/-- The package is frozen and the database is as it was. -/
structure Frozen (site : Site) (v : PrepareWorld) (record : RunRecord) (w : PrepareWorld) :
    Prop extends Held site v record w where
  package : w.package ≠ none
  database : w.database = v.database
  phase : record.phase = "preparing" ↔ isPrepared v = false

/-- Scratch files do not matter to a run that has its identity file. -/
theorem Held.scratch (h : Held site v record w) (n : ℕ) :
    Held site v record { w with scratch := n } :=
  ⟨⟨h.owned.run,h.owned.identity,h.owned.package,h.owned.owner,h.owned.phase.imp_right
    (fun hp => ⟨hp.phase,hp.package,hp.owner,hp.uuid,hp.schema⟩)⟩,h.same⟩

theorem Held.freeze (h : Held site v record w) (n : ℕ) :
    Held site v record { w with package := some site.options.package, scratch := n } :=
  ⟨⟨h.owned.run,h.owned.identity,fun _ hb => (Option.some.inj hb).symm,h.owned.owner,
    h.owned.phase.imp_right (fun hp => ⟨hp.phase,by simp,hp.owner,hp.uuid,hp.schema⟩)⟩,h.same⟩

theorem freezePackage_visits : Visits call.faults (freezePoints v) (Leaves site v)
    (Claimed site v record) (freezePackage site call record)
    (fun _ => Frozen site v record) := by
  refine visits_point (fun w h => h.toHeld.kept.leaves) ?_
  refine visits_step (visits_read (Q := fun frozen w => Claimed site v record w ∧
    frozen = w.package) (fun w h => ⟨_,rfl,h,rfl⟩)) (fun frozen => visits_of ?_)
  rintro w ⟨h,hf⟩
  have ho := h.owned
  rw [h.package] at hf
  cases frozen with
  | some bytes =>
    rw [← hf, if_neg (by simp)]
    have hb : bytes = site.options.package := ho.package bytes (by rw [h.package, hf])
    have hsha : site.sha256 bytes = record.identity.packageSha256 := by
      rw [hb, (identityFor_ok ho.identity).2.1]
    refine visits_check (fun u hu => ⟨(),ensure_ok.mpr hsha,?_⟩)
    subst hu
    exact ⟨h.toHeld,by rw [h.package, ← hf]; simp,h.database,h.phase⟩
  | none =>
    rw [if_pos hf.symm]
    have hphase : record.phase ≠ "prepared" := by
      rcases ho.phase with hp | hp
      · rw [hp.1]
        decide
      · exact absurd (h.package.trans hf.symm) hp.package
    refine visits_step (visits_check (Q := fun _ u => u = w)
      (fun _ hu => ⟨(),ensure_ok.mpr hphase,hu⟩)) (fun _ => ?_)
    refine visits_atomicWrite (fun u hu => hu ▸ h.toHeld.kept.leaves) (fun u hu => ?_)
      (fun u hu => ?_) (fun u hu => ?_) (fun u hu => ?_)
    · rw [hu]
      exact (h.toHeld.scratch _).kept.leaves
    · rw [hu, insertScratch, h.package, ← hf]
      rfl
    · rw [hu]
      exact (h.toHeld.freeze _).kept.leaves
    · rw [hu]
      exact ⟨h.toHeld.freeze _,by simp [removeScratch],h.database,h.phase⟩

structure Created (site : Site) (v : PrepareWorld) (record : RunRecord) (w : PrepareWorld) :
    Prop extends Held site v record w where
  package : w.package ≠ none
  database : w.database ≠ none
  owner : ownerRows w = ownerRows v
  phase : record.phase = "preparing" ↔ isPrepared v = false

theorem createDatabase_visits : Visits call.faults [.createDatabase] (Leaves site v)
    (Frozen site v record) (createDatabase call) (fun _ => Created site v record) := by
  refine visits_point (fun w h => h.toHeld.kept.leaves) (visits_write (fun w h => ?_))
  have hrows : ownerRows { w with database := some (w.database.getD ⟨call.newUuid,none⟩) } =
      ownerRows w := by
    cases hd : w.database <;> simp [ownerRows, hd]
  have huuid : ∀ db, w.database = some db → w.database.getD ⟨call.newUuid,none⟩ = db :=
    fun db hd => by rw [hd]; rfl
  have ho := h.owned
  refine ⟨⟨⟨ho.run,ho.identity,ho.package,fun rows hr => ho.owner rows (hrows ▸ hr),
    ho.phase.imp_right (fun hp => ⟨hp.phase,hp.package,hrows ▸ hp.owner,?_,hp.schema⟩)⟩,h.same⟩,
    h.package,by simp,hrows.trans ?_,h.phase⟩
  · obtain ⟨db,hd,hu⟩ := hp.uuid
    exact ⟨db,by rw [huuid db hd],hu⟩
  · rw [ownerRows, ownerRows, h.database]

theorem checkUuid_created (h : Created site v record w) : ∃ uuid, checkUuid record w = .ok uuid ∧
    ∃ db, w.database = some db ∧ db.uuid = uuid := by
  obtain ⟨db,hd⟩ := Option.ne_none_iff_exists'.mp h.database
  refine ⟨db.uuid,bind_ok.mpr ⟨db,context_ok.mpr hd,bind_ok.mpr ⟨(),ensure_ok.mpr ?_,rfl⟩⟩,db,hd,rfl⟩
  rcases h.owned.phase with hp | hp
  · simp [hp.2]
  · obtain ⟨db',hd',hu⟩ := hp.uuid
    obtain rfl := Option.some.inj (hd.symm.trans hd')
    simp [hu]

structure Ruled (site : Site) (v : PrepareWorld) (record : RunRecord) (uuid : String)
    (w : PrepareWorld) : Prop extends Held site v record w where
  package : w.package ≠ none
  owner : ownerRows w ≠ none
  uuid : ∃ db, w.database = some db ∧ db.uuid = uuid
  phase : record.phase = "preparing" ↔ isPrepared v = false

theorem ownerRows_setOwner {rows : List OwnerRow} (hd : w.database ≠ none) :
    ownerRows (setOwner rows w) = some rows := by
  obtain ⟨db,hd⟩ := Option.ne_none_iff_exists'.mp hd
  simp [ownerRows, setOwner, hd]

theorem claimOwner_visits {uuid : String} : Visits call.faults (ownerPoints v) (Leaves site v)
    (fun w => Created site v record w ∧ ∃ db, w.database = some db ∧ db.uuid = uuid)
    (claimOwner call record) (fun _ => Ruled site v record uuid) := by
  refine visits_point (fun w h => h.1.toHeld.kept.leaves) ?_
  refine visits_step (visits_read (Q := fun found w => (Created site v record w ∧
    ∃ db, w.database = some db ∧ db.uuid = uuid) ∧ found = (ownerRows w).isSome)
    (fun w h => ⟨_,rfl,h,rfl⟩)) (fun found => visits_of ?_)
  rintro w ⟨⟨h,huuid⟩,hf⟩
  rw [h.owner] at hf
  cases hr : ownerRows v with
  | some rows =>
    obtain rfl : found = true := by rw [hf, hr]; rfl
    rw [if_neg (by simp)]
    refine visits_pure () (fun u hu => ?_)
    subst hu
    exact ⟨h.toHeld,h.package,by rw [h.owner, hr]; simp,huuid,h.phase⟩
  | none =>
    obtain rfl : found = false := by rw [hf, hr]; rfl
    have hnone : ownerRows w = none := h.owner.trans hr
    have hprep : Preparing record := by
      rcases h.owned.phase with hp | hp
      · exact hp
      · exact absurd hnone hp.owner
    rw [if_pos rfl]
    refine visits_step (visits_check (Q := fun _ u => u = w) (fun _ hu => ⟨(),ensure_ok.mpr ?_,hu⟩))
      (fun _ => ?_)
    · rw [hprep.1]
      decide
    refine visits_point (fun u hu => hu ▸ h.toHeld.kept.leaves) ?_
    -- from here to the insert the table is there without its row
    refine visits_step (visits_write (R := fun _ u => u = setOwner [] w) (fun u hu => hu ▸ rfl))
      (fun _ => visits_point (fun u hu => ?_) (visits_write (fun u hu => ?_)))
    · rw [hu]
      exact Or.inr (ownerRows_setOwner h.database)
    · have hset : setOwner [⟨record.runId,record.identity⟩] u =
          setOwner [⟨record.runId,record.identity⟩] w := by
        rw [hu]
        simp [setOwner, Function.comp_def]
      have hrows : ownerRows (setOwner [⟨record.runId,record.identity⟩] w) =
          some [⟨record.runId,record.identity⟩] := ownerRows_setOwner h.database
      rw [hset]
      refine ⟨⟨⟨h.owned.run,h.owned.identity,h.owned.package,fun rows he => ?_,Or.inl hprep⟩,h.same⟩,
        h.package,?_,?_,h.phase⟩
      · exact Option.some.inj (he.symm.trans hrows)
      · rw [hrows]
        simp
      · obtain ⟨db,hd,hu⟩ := huuid
        exact ⟨{ db with owner := some [⟨record.runId,record.identity⟩] },
          by simp only [setOwner, hd, Option.map_some],hu⟩

theorem checkOwner_ruled {uuid : String} (h : Ruled site v record uuid w) :
    checkOwner record w = .ok () := by
  obtain ⟨rows,hr⟩ := Option.ne_none_iff_exists'.mp h.owner
  have hone := h.owned.owner rows hr
  refine bind_ok.mpr ⟨rows,context_ok.mpr hr,bind_ok.mpr ⟨_,one_ok.mpr hone,?_⟩⟩
  exact ensure_ok.mpr ⟨rfl,rfl⟩

theorem Ruled.setup {uuid : String} (h : Ruled site v record uuid w) (hp : Preparing record)
    (metadata : Bool) (native : Native) :
    Ruled site v record uuid { w with metadata := metadata, native := native } :=
  ⟨⟨⟨h.owned.run,h.owned.identity,h.owned.package,h.owned.owner,Or.inl hp⟩,h.same⟩,h.package,
    h.owner,h.uuid,h.phase⟩

theorem runSetup_visits {uuid : String} : Visits call.faults [.setup] (Leaves site v)
    (fun w => Ruled site v record uuid w ∧ Preparing record) (runSetup site call)
    (fun _ w => (Ruled site v record uuid w ∧ Preparing record) ∧
      ∃ n, w.native = site.setup.run n) := by
  intro h hP
  unfold runSetup
  cases hf : call.faults .setup with
  | none =>
    exact ⟨by simp [firstFault, hf],⟨hP.1.setup hP.2 _ _,hP.2⟩,_,rfl⟩
  | some e =>
    exact ⟨.setup,by simp [firstFault, hf],(hP.1.setup hP.2 _ _).toHeld.kept.leaves⟩

theorem Ruled.finish {uuid text : String} (h : Ruled site v record uuid w)
    (ht : w.native.schemaFile = some text) (n : ℕ) :
    let prepared : RunRecord := { record with
      phase := "prepared", databaseUuid := some uuid, schemaHash := some (trimmed text) }
    Held site v prepared { w with run := some prepared, scratch := n } ∧
      Prepared prepared { w with run := some prepared, scratch := n } := by
  intro prepared
  have hprep : Prepared prepared { w with run := some prepared, scratch := n } := by
    obtain ⟨db,hd,hu⟩ := h.uuid
    exact ⟨rfl,h.package,h.owner,⟨db,hd,by rw [hu]⟩,⟨text,ht,rfl⟩⟩
  exact ⟨⟨⟨rfl,h.owned.identity,h.owned.package,h.owned.owner,Or.inr hprep⟩,h.same⟩,hprep⟩

theorem finishRun_visits {uuid : String} : Visits call.faults (finishPoints v) (Leaves site v)
    (Ruled site v record uuid) (finishRun site call record uuid)
    (fun record w => Held site v record w ∧ Prepared record w) := by
  by_cases hphase : record.phase = "preparing"
  · refine visits_of (fun w₀ h₀ => ?_)
    have hprep : Preparing record := by
      rcases h₀.owned.phase with hp | hp
      · exact hp
      · have := hphase.symm.trans hp.phase
        exact absurd this (by decide)
    rw [finishPoints, if_neg (by simp [h₀.phase.mp hphase]), finishRun, if_pos hphase]
    let R : PrepareWorld → Prop := fun w => Ruled site v record uuid w ∧ Preparing record
    have hC : ∀ w, R w → Kept site v w := fun w h => h.1.toHeld.kept
    refine Visits.weaken (P := R) (visits_point (fun w h => (hC w h).leaves) ?_)
      (fun w hw => hw ▸ ⟨h₀,hprep⟩) (fun _ _ h => h)
    refine visits_step (visits_write (R := fun _ => R)
      (fun w h => ⟨h.1.setup hprep true w.native,hprep⟩)) (fun _ => ?_)
    refine visits_bind runSetup_visits (fun _ => ?_)
    refine visits_point (fun w h => (hC w h.1).leaves) ?_
    refine visits_step (visits_read (Q := fun _ w => R w ∧ ∃ n, w.native = site.setup.run n)
      (fun w h => ⟨(),?_,h⟩)) (fun _ => ?_)
    · obtain ⟨-,n,hn⟩ := h
      refine ensure_ok.mpr ?_
      rw [hn]
      simp [site.setup.tables n]
    refine visits_point (fun w h => (hC w h.1).leaves) ?_
    refine visits_step (visits_read (Q := fun text w => R w ∧ w.native.schemaFile = some text)
      (fun w h => ?_)) (fun text => ?_)
    · obtain ⟨hR,n,hn⟩ := h
      obtain ⟨text,ht⟩ := Option.ne_none_iff_exists'.mp (site.setup.schema n)
      exact ⟨text,context_ok.mpr (hn ▸ ht),hR,hn ▸ ht⟩
    let prepared : RunRecord := { record with
      phase := "prepared", databaseUuid := some uuid, schemaHash := some (trimmed text) }
    refine visits_last (visits_atomicWrite (R := fun w => Held site v prepared w ∧
      Prepared prepared w) (fun w h => (hC w h.1).leaves) (fun w h => ?_) (fun w h => rfl)
      (fun w h => ?_) (fun w h => ?_)) (fun _ => ?_)
    · exact (h.1.1.toHeld.scratch _).kept.leaves
    · exact (h.1.1.finish h.2 _).1.kept.leaves
    · exact h.1.1.finish h.2 _
    · exact visits_pure _ (fun _ h => h)
  · refine visits_of (fun w h => ?_)
    have hprep : Prepared record w := by
      rcases h.owned.phase with hp | hp
      · exact absurd hp.1 hphase
      · exact hp
    have hdone : isPrepared v = true := by
      by_contra hn
      exact hphase (h.phase.mpr (by simpa using hn))
    rw [finishPoints, if_pos hdone, finishRun, if_neg hphase]
    exact visits_pure _ (fun u hu => hu ▸ ⟨h.toHeld,hprep⟩)

theorem checkSchema_prepared (h : Prepared record w) : checkSchema record w = .ok () := by
  obtain ⟨text,ht,hr⟩ := h.schema
  exact ensure_ok.mpr ⟨by rw [ht, hr]; rfl,by rw [ht]; rfl⟩

theorem prepare_visits (hs : Sound site v) : Visits call.faults (points v) (Leaves site v)
    (fun w => w = v) (prepare site call)
    (fun record w => Held site v record w ∧ Prepared record w) := by
  have hkept : ∀ w, w = v → Kept site v w := fun w hw => hw ▸ hs.kept
  rw [points, List.append_assoc, List.append_assoc, List.append_assoc]
  refine visits_point (fun w hw => (hkept w hw).leaves) ?_
  refine visits_point (fun w hw => (hkept w hw).leaves) ?_
  refine visits_point (fun w hw => (hkept w hw).leaves) ?_
  refine visits_step (visits_read (Q := fun _ w => w = v) (fun w hw => ⟨(),?_,hw⟩)) (fun _ => ?_)
  · rw [hw]
    cases hr : v.run with
    | none => rfl
    | some r => exact (identityFor_ok (hs.owned hr).identity).2.2
  refine visits_seq (identity_visits hs) (fun identity => visits_of ?_) rfl
  rintro w ⟨rfl,hid⟩
  refine visits_point (fun u hu => (hkept u hu).leaves) ?_
  refine visits_step (visits_read (Q := fun found u => u = w ∧ found = w.database.isSome)
    (fun u hu => ⟨_,rfl,hu,hu ▸ rfl⟩)) (fun found => visits_of ?_)
  rintro u ⟨rfl,rfl⟩
  refine visits_bind (claimRecord_visits hs hid) (fun record => ?_)
  refine visits_bind freezePackage_visits (fun _ => ?_)
  refine visits_seq createDatabase_visits (fun _ => ?_) rfl
  refine visits_point (fun w h => h.toHeld.kept.leaves) ?_
  refine visits_step (visits_read (Q := fun uuid w => Created site u record w ∧
    ∃ db, w.database = some db ∧ db.uuid = uuid) (fun w h => ?_)) (fun uuid => ?_)
  · obtain ⟨uuid,he,hdb⟩ := checkUuid_created h
    exact ⟨uuid,he,h,hdb⟩
  refine visits_bind claimOwner_visits (fun _ => ?_)
  refine visits_point (fun w h => h.toHeld.kept.leaves) ?_
  refine visits_step (visits_read (Q := fun _ => Ruled site u record uuid)
    (fun w h => ⟨(),checkOwner_ruled h,h⟩)) (fun _ => ?_)
  refine visits_bind finishRun_visits (fun record => ?_)
  refine visits_point (fun w h => h.1.kept.leaves) ?_
  refine visits_step (visits_read (Q := fun _ w => Held site u record w ∧ Prepared record w)
    (fun w h => ⟨(),checkSchema_prepared h.2,h⟩)) (fun _ => visits_pure record (fun _ h => h))

end Visits

end EvmState.Prepare
