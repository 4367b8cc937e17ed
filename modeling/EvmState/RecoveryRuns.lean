import EvmState.AccountLists
import EvmState.Recovery

/-!
# Rebinding under failing steps

The checks read nothing that a call adds, so that every state on the way is
one to start from again. A call that returns leaves a sidecar in each of the
two directories. When both are one directory it leaves a single one, and only
one of the two records is bound.
-/

set_option autoImplicit false

namespace EvmState.Recovery
open EvmState.Hex EvmState.Text EvmState.Fallible EvmState.Crash EvmState.FileTree
open EvmState.Encoding (string uint)
open EvmState.Bootstrap (trimHex)
open EvmState.Json (canonicalJson)
open EvmState.PrettyJson (metadataText ReadsBack)

section Unchanged
variable {sys : System} {call : Call} {v w u : World} {o : Opening}

@[simp] theorem put_self (w : World) (place : Place) (bytes : Bytes) :
    (w.put place bytes).files place = some bytes := Function.update_self ..

theorem put_ne (w : World) (bytes : Bytes) {p place : Place} (h : p ≠ place) :
    (w.put place bytes).files p = w.files p := Function.update_of_ne h _ _

theorem unchanged_refl (w : World) : Unchanged w w :=
  ⟨rfl,rfl,fun _ _ h => h,fun _ h => absurd rfl h⟩

theorem Unchanged.put (h : Unchanged v w) {place : Place} {bytes : Bytes} (hp : Ephemeral place)
    (hn : w.files place = none) : Unchanged v (w.put place bytes) := by
  refine ⟨h.databases,h.tables,fun p b hb => ?_,fun p hne => ?_⟩
  · have hw := h.kept p b hb
    have hne : p ≠ place := by
      rintro rfl
      rw [hn] at hw
      cases hw
    rw [put_ne w bytes hne, hw]
  · by_cases he : p = place
    · exact he ▸ hp
    · rw [put_ne w bytes he] at hne
      exact h.added p hne

theorem Unchanged.files (h : Unchanged v w) {place : Place} (hp : ¬Ephemeral place) :
    w.files place = v.files place := by
  by_contra hne
  exact hp (h.added place hne)

def Durable (name : List Name) : Prop := ∃ n, name.getLast? = some n ∧ n ∉ sidecar::lockNames

theorem Durable.place {name : List Name} (h : Durable name) (place : Place) :
    ¬Ephemeral (place++name) := by
  obtain ⟨n,hn,hm⟩ := h
  rintro ⟨m,hmem,hl⟩
  rw [List.getLast?_append, hn, Option.some_or, Option.some.injEq] at hl
  exact hm (hl ▸ hmem)

theorem durable_schema (database : String) : Durable (schemaFile database) := by
  refine ⟨database ++ "_schema_hash.txt",rfl,fun h => ?_⟩
  have hlast : ∀ s : String, s.toList.getLast? ≠ some 't' → database ++ "_schema_hash.txt" ≠ s := by
    rintro s hs rfl
    rw [String.toList_append, List.getLast?_append] at hs
    exact hs rfl
  simp only [sidecar, lockNames, List.mem_cons, List.not_mem_nil, or_false] at h
  rcases h with h | h | h | h | h | h | h <;> exact hlast _ (by decide) h

theorem find_unchanged (h : Unchanged v w) (directory : Place) {name : List Name}
    (hn : Durable name := by exact ⟨_,rfl,by decide⟩) :
    find sys w directory name = find sys v directory name := by
  unfold find
  congr 1
  funext place
  rw [h.files (hn.place place)]

theorem readFile_unchanged (h : Unchanged v w) (directory : Place) {name : List Name}
    (hn : Durable name := by exact ⟨_,rfl,by decide⟩) :
    readFile sys w directory name = readFile sys v directory name := by
  rw [readFile, readFile, find_unchanged h directory hn]

theorem readText_unchanged (h : Unchanged v w) (directory : Place) {name : List Name}
    (hn : Durable name := by exact ⟨_,rfl,by decide⟩) :
    readText sys w directory name = readText sys v directory name := by
  rw [readText, readText, readFile_unchanged h directory hn]

theorem readJson_unchanged (h : Unchanged v w) (directory : Place) {name : List Name}
    (hn : Durable name := by exact ⟨_,rfl,by decide⟩) :
    readJson sys w directory name = readJson sys v directory name := by
  rw [readJson, readJson, readFile_unchanged h directory hn]

theorem uuid_unchanged (h : Unchanged v w) (database : String) : w.uuid database = v.uuid database := by
  rw [World.uuid, World.uuid, h.databases]

theorem opening_unchanged (h : Unchanged v w) : opening sys call w = opening sys call v := by
  have hrun : ∀ d, readJson sys w d ["run.json"] = readJson sys v d ["run.json"] :=
    fun d => readJson_unchanged h d
  have huuid : ∀ db, w.uuid db = v.uuid db := uuid_unchanged h
  unfold opening
  simp only [hrun, huuid]

theorem verify_unchanged (h : Unchanged v w) : verify sys call o w = verify sys call o v := by
  have hrun : ∀ d, readJson sys w d ["run.json"] = readJson sys v d ["run.json"] :=
    fun d => readJson_unchanged h d
  have huuid : ∀ db, w.uuid db = v.uuid db := uuid_unchanged h
  have hpackage : ∀ d, readFile sys w d ["package.spkg"] = readFile sys v d ["package.spkg"] :=
    fun d => readFile_unchanged h d
  have hschema : ∀ d db, readText sys w d (schemaFile db) = readText sys v d (schemaFile db) :=
    fun d db => readText_unchanged h d (durable_schema db)
  have hbinding : ∀ d, readJson sys w d ["binding.json"] = readJson sys v d ["binding.json"] :=
    fun d => readJson_unchanged h d
  have hinit : ∀ d, readText sys w d ["initialized"] = readText sys v d ["initialized"] :=
    fun d => readText_unchanged h d
  have hcursor : ∀ d, readText sys w d ["cursor.txt"] = readText sys v d ["cursor.txt"] :=
    fun d => readText_unchanged h d
  have hprogress : ∀ d, find sys w d ["durable_progress.json"] =
      find sys v d ["durable_progress.json"] := fun d => find_unchanged h d
  have hpointer : ∀ d, find sys w d ["bootstrap.json"] = find sys v d ["bootstrap.json"] :=
    fun d => find_unchanged h d
  unfold verify checkNative checkFrozen checkControl checkCursor loadProgress loadPrefix
  simp only [hrun, huuid, hpackage, hschema, hbinding, hinit, hcursor, hprogress, hpointer, h.tables]

end Unchanged

section Loop
variable {σ α : Type} {P : σ → Prop} {C : σ → Prop} {A : α → σ → Prop}

/-- A pass over a list establishes a fact for each item, when no item takes it
from another one. -/
theorem triple_forM_each {l : List α} {f : α → Prog σ Unit}
    (hf : ∀ a ∈ l, Triple P (f a) (fun _ s => P s ∧ A a s) C)
    (hkeep : ∀ a ∈ l, ∀ b ∈ l, Triple (fun s => P s ∧ A b s) (f a) (fun _ s => A b s) C) :
    Triple P (l.forM f) (fun _ s => P s ∧ ∀ a ∈ l, A a s) C := by
  induction l generalizing P with
  | nil => exact triple_pure () (fun _ h => ⟨h,by simp⟩)
  | cons a l ih =>
    refine triple_bind (hf a (by simp)) (fun _ => ?_)
    refine (@ih (fun s => P s ∧ A a s) (fun b hb => ?_) (fun b hb c hc => ?_)).weaken
      (fun _ h => h) (fun _ s h => ⟨h.1.1,List.forall_mem_cons.mpr ⟨h.1.2,h.2⟩⟩) (fun _ h => h)
    · refine ((hf b (by simp [hb])).weaken (fun s h => h.1) (fun _ _ h => h) (fun _ h => h)).and
        (hkeep b (by simp [hb]) a (by simp)) |>.weaken (fun _ h => h)
        (fun _ s h => ⟨⟨h.1.1,h.2⟩,h.1.2⟩) (fun _ h => h.1)
    · exact (hkeep b (by simp [hb]) c (by simp [hc])).weaken (fun s h => ⟨h.1.1,h.2⟩)
        (fun _ _ h => h) (fun _ h => h)

theorem runs_forM {Inv : σ → Prop} {l : List α} {f : α → Prog σ Unit}
    (hf : ∀ a ∈ l, ∀ s, Inv s → ∃ t, Runs (f a) s () t ∧ Inv t) {s : σ} (hs : Inv s) :
    ∃ t, Runs (l.forM f) s () t ∧ Inv t := by
  induction l generalizing s with
  | nil => exact ⟨s,runs_pure () s,hs⟩
  | cons a l ih =>
    obtain ⟨t,ha,ht⟩ := hf a (by simp) s hs
    obtain ⟨u,hl,hu⟩ := ih (fun b hb => hf b (by simp [hb])) ht
    exact ⟨u,runs_bind ha hl,hu⟩

end Loop

section Steps
variable {sys : System} {call : Call} {v w u : World} {o : Opening} {entries : List Entry}

/-- A state under the locks, with the sidecars that the call found. -/
structure Locked (v w : World) : Prop where
  unchanged : Unchanged v w
  sidecars : ∀ place : Place, w.files (place++[sidecar]) = v.files (place++[sidecar])

theorem ephemeral_sidecar (place : Place) : Ephemeral (place++[sidecar]) :=
  ⟨sidecar,by simp,by simp⟩

theorem ephemeral_lock {lock : Place × Name} (h : lock ∈ locks o) (place : Place) :
    Ephemeral (place++[lock.2]) ∧ lock.2 ≠ sidecar := by
  have hname : lock.2 ∈ lockNames := by
    simp only [locks, List.mem_cons, List.not_mem_nil, or_false] at h
    rcases h with rfl | rfl | rfl | rfl | rfl | rfl <;> simp [lockNames]
  refine ⟨⟨lock.2,by simp [hname],by simp⟩,?_⟩
  intro he
  rw [he] at hname
  exact absurd hname (by decide)

theorem Locked.create (h : Locked v w) {lock : Place × Name} (hl : lock ∈ locks o)
    (place : Place) : Locked v (w.create (place++[lock.2])) := by
  obtain ⟨he,hne⟩ := ephemeral_lock hl place
  unfold World.create
  split_ifs with hs
  · exact h
  · refine ⟨h.unchanged.put he (by simpa using hs),fun p => ?_⟩
    have hplace : p++[sidecar] ≠ place++[lock.2] := by
      intro hp
      exact hne (List.append_inj_right' hp rfl |> List.singleton_inj.mp).symm
    rw [put_ne w [] hplace, h.sidecars]

theorem fileLock_triple {lock : Place × Name} (hl : lock ∈ locks o) :
    Triple (Locked v) (fileLock sys lock) (fun _ => Locked v) (Locked v) := by
  refine triple_query_then (fun _ h => h) (fun w place hw _ => ?_)
  refine triple_perform_then (fun _ h => h ▸ hw) (fun s hs => ?_)
  exact (triple_next (fun _ h => h)).weaken (fun t ht => ht ▸ hs ▸ hw.create hl place)
    (fun _ _ h => h) (fun _ h => h)

theorem find_locked (h : Locked v w) (directory : Place) :
    find sys w directory [sidecar] = find sys v directory [sidecar] := by
  unfold find
  congr 1
  funext place
  rw [h.sidecars]

theorem agrees_locked (h : Locked v w) (e : Entry) : agrees sys e w = agrees sys e v := by
  unfold agrees
  rw [find_locked h]

def Wrote (sys : System) (e : Entry) (s u : World) : Prop :=
  ∃ place, locate sys e.directory = .ok place ∧ s.files (place++[sidecar]) = none ∧
    u = s.put (place++[sidecar]) (utf8 (metadataText e.recovery))

def Present (sys : System) (e : Entry) (u : World) : Prop :=
  ∃ place, locate sys e.directory = .ok place ∧ u.files (place++[sidecar]) ≠ none

theorem attest_triple {e : Entry} {s : World} : Triple (fun u => u = s) (attest sys e)
    (fun _ u => (u = s ∨ Wrote sys e s u) ∧ Present sys e u) (fun u => u = s ∨ Wrote sys e s u) := by
  refine triple_query_then (fun _ h => .inl h) (fun s' place hs hp => ?_)
  obtain rfl := hs
  refine triple_query_then (fun _ h => .inl h) (fun t found ht hf => ?_)
  obtain rfl := ht
  obtain rfl := Except.ok.inj hf
  split_ifs with hs
  · refine triple_pure () (fun u hu => ?_)
    subst hu
    exact ⟨.inl rfl,place,hp,by simpa [Option.isSome_iff_ne_none] using hs⟩
  · have hn : t.files (place++[sidecar]) = none := by simpa using hs
    refine triple_next_then (fun _ h => .inl h) ?_
    refine triple_query_then (fun _ h => .inl h) (fun t' _ ht _ => ?_)
    refine triple_perform_then (fun _ h => .inl (h.trans ht)) (fun t'' ht'' => ?_)
    obtain rfl := ht''.trans ht
    have hw : Wrote sys e t'' (t''.put (place++[sidecar]) (utf8 (metadataText e.recovery))) :=
      ⟨place,hp,hn,rfl⟩
    exact (triple_next (fun _ h => h ▸ .inr hw)).weaken (fun _ h => h)
      (fun _ u hu => hu ▸ ⟨.inr hw,place,hp,by simp⟩) (fun _ h => h)

/-- Sidecars that the call found, and those that it wrote. -/
structure Attesting (sys : System) (v : World) (entries : List Entry) (w : World) : Prop where
  unchanged : Unchanged v w
  written : ∀ (place : Place) (bytes : Bytes), w.files (place++[sidecar]) = some bytes →
    v.files (place++[sidecar]) = some bytes ∨ ∃ e ∈ entries, locate sys e.directory = .ok place ∧
      bytes = utf8 (metadataText e.recovery)

theorem Locked.attesting (h : Locked v w) : Attesting sys v entries w :=
  ⟨h.unchanged,fun place bytes hb => .inl (by rw [← h.sidecars, hb])⟩

theorem Attesting.wrote (h : Attesting sys v entries w) {e : Entry} (he : e ∈ entries)
    (hw : Wrote sys e w u) : Attesting sys v entries u := by
  obtain ⟨place,hp,hn,rfl⟩ := hw
  refine ⟨h.unchanged.put (ephemeral_sidecar place) hn,fun p bytes hb => ?_⟩
  by_cases hpp : p = place
  · subst hpp
    rw [put_self, Option.some.injEq] at hb
    exact .inr ⟨e,he,hp,hb.symm⟩
  · have hne : p++[sidecar] ≠ place++[sidecar] := fun he => hpp (List.append_cancel_right he)
    rw [put_ne w _ hne] at hb
    exact h.written p bytes hb

theorem Present.wrote {e f : Entry} (h : Present sys f w) (hw : u = w ∨ Wrote sys e w u) :
    Present sys f u := by
  obtain ⟨place,hp,hne⟩ := h
  rcases hw with rfl | ⟨q,-,hn,rfl⟩
  · exact ⟨place,hp,hne⟩
  · refine ⟨place,hp,?_⟩
    have hq : place++[sidecar] ≠ q++[sidecar] := by
      intro he
      rw [he] at hne
      exact hne hn
    rwa [put_ne w _ hq]

theorem attests_triple : Triple (Attesting sys v entries) (entries.forM (attest sys))
    (fun _ u => Attesting sys v entries u ∧ ∀ e ∈ entries, Present sys e u)
    (Attesting sys v entries) := by
  have hstep : ∀ e ∈ entries, ∀ s u, Attesting sys v entries s → (u = s ∨ Wrote sys e s u) →
      Attesting sys v entries u := by
    rintro e he s u hs (rfl | hw)
    · exact hs
    · exact hs.wrote he hw
  refine triple_forM_each (fun e he => triple_from (fun s hs => ?_))
    (fun e he f hf => triple_from (fun s hs => ?_))
  · exact attest_triple.weaken (fun _ h => h) (fun _ u h => ⟨hstep e he s u hs h.1,h.2⟩)
      (fun u h => hstep e he s u hs h)
  · exact attest_triple.weaken (fun _ h => h) (fun _ u h => hs.2.wrote h.1)
      (fun u h => hstep e he s u hs.1 h)

/-- Where a call may stop: before the first sidecar, or once everything was
checked. -/
def Stopped (sys : System) (call : Call) (v w : World) : Prop :=
  Locked v w ∨ ∃ o x entries, Ready sys call v o x entries ∧ Attesting sys v entries w

theorem rebind_triple (v : World) : Triple (fun w => w = v) (rebind sys call)
    (fun r u => ∃ o x entries, Ready sys call v o x entries ∧ r = report o x ∧
      Attesting sys v entries u ∧ ∀ e ∈ entries, Present sys e u) (Stopped sys call v) := by
  have hself : Locked v v := ⟨unchanged_refl v,fun _ => rfl⟩
  have hC : ∀ w, Locked v w → Stopped sys call v w := fun _ h => .inl h
  refine triple_query_then (fun w hw => hC w (hw ▸ hself)) (fun w o hw ho => ?_)
  obtain rfl := hw
  refine triple_bind (M := fun _ => Locked w) ?_ (fun _ => ?_)
  · exact (triple_forM (fun l hl => (fileLock_triple hl).weaken (fun _ h => h) (fun _ _ h => h)
      hC)).weaken (fun _ h => h ▸ hself) (fun _ _ h => h) (fun _ h => h)
  refine triple_query_then hC (fun s x hs hx => ?_)
  rw [verify_unchanged hs.unchanged] at hx
  refine triple_query_then (fun _ h => hC _ (h ▸ hs)) (fun s' entries hs' he => ?_)
  obtain rfl := hs'
  refine triple_bind (M := fun _ u => u = s' ∧ ∀ e ∈ entries, agrees sys e w = .ok ()) ?_ (fun _ => ?_)
  · have hstop : ∀ u, u = s' → Stopped sys call w u := fun u hu => hC u (hu ▸ hs)
    refine triple_forM_each (A := fun e _ => agrees sys e w = .ok ()) (fun e _ => ?_)
      (fun e _ f _ => ?_)
    · refine triple_query (fun t _ ht ha => ⟨ht,?_⟩) hstop
      rw [← agrees_locked hs, ← ht]
      exact ha
    · exact triple_query (fun _ _ h _ => h.2) (fun u h => hstop u h.1)
  refine triple_from (fun t ht => ?_)
  have hready : Ready sys call w o x entries := ⟨ho,hx,he,ht.2⟩
  refine triple_bind (M := fun _ u => Attesting sys w entries u ∧ ∀ e ∈ entries, Present sys e u)
    ?_ (fun _ => triple_pure _ (fun u hu => ⟨o,x,entries,hready,rfl,hu⟩))
  exact attests_triple.weaken (fun u hu => by rw [hu, ht.1]; exact hs.attesting) (fun _ _ h => h)
    (fun u hu => .inr ⟨o,x,entries,hready,hu⟩)

end Steps

section Records
variable {sys : System} {call : Call} {v w : World} {o : Opening} {x : Verified}
variable {entries : List Entry} {record recovery : Json} {directory place : Place}
variable {machine : String}

def Legacy (record : Json) : Prop := ∃ host, record.index "host" = .str host ∧ host ≠ "" ∧
  isMachineId host = false

theorem host_index {host : String} (h : record.index "host" = .str host) :
    (record.get? "host").bind Json.asStr = some host := by
  rw [Json.index] at h
  cases hg : record.get? "host" with
  | none =>
    rw [hg] at h
    cases h
  | some j =>
    rw [hg, Option.getD_some] at h
    rw [h]
    rfl

theorem recovery_ok : recoveryRecordFor sys record directory machine = .ok recovery ↔
    ∃ host place, string record "host" = .ok host ∧ locate sys directory = .ok place ∧
      Json.ofPairs [("format_version",.num "1"),("original_host",.str host),
        ("record_sha256",.str (sys.sha256 (utf8 (canonicalJson record)))),
        ("directory",.str (directoryText place)),("machine_id",.str machine)] = recovery := by
  constructor
  · intro h
    obtain ⟨host,hh,h⟩ := bind_ok.mp h
    obtain ⟨place,hp,h⟩ := bind_ok.mp h
    exact ⟨host,place,hh,hp,pure_ok.mp h⟩
  · rintro ⟨host,place,hh,hp,rfl⟩
    exact bind_ok.mpr ⟨host,hh,bind_ok.mpr ⟨place,hp,rfl⟩⟩

theorem recovery_simple (h : recoveryRecordFor sys record directory machine = .ok recovery) :
    Json.Simple 127 recovery := by
  obtain ⟨host,place,-,-,rfl⟩ := recovery_ok.mp h
  refine Json.simple_ofPairs (by simp only [List.map_cons, List.map_nil]; decide)
    (fun e he => ?_)
  simp only [List.mem_cons, List.not_mem_nil, or_false] at he
  rcases he with rfl | rfl | rfl | rfl | rfl
  · exact Json.simple_ofNat _ 1
  · exact Json.simple_str _ _
  · exact Json.simple_str _ _
  · exact Json.simple_str _ _
  · exact Json.simple_str _ _

theorem recovery_read (hb : ReadsBack sys.fromSlice)
    (h : recoveryRecordFor sys record directory machine = .ok recovery) :
    fromSlice sys (utf8 (metadataText recovery)) = .ok recovery :=
  context_ok.mpr (hb.metadata (recovery_simple h))

theorem recovery_machine (h : recoveryRecordFor sys record directory machine = .ok recovery) :
    recovery.index "machine_id" = .str machine := by
  obtain ⟨host,place,-,-,rfl⟩ := recovery_ok.mp h
  rw [Json.index_ofPairs (by simp)]
  simp [OrderedMap.lookup]

theorem recovery_other (h : recoveryRecordFor sys record directory machine = .ok recovery)
    (id : String) : ∃ other, recoveryRecordFor sys record directory id = .ok other := by
  obtain ⟨host,place,hh,hp,-⟩ := recovery_ok.mp h
  exact ⟨_,recovery_ok.mpr ⟨host,place,hh,hp,rfl⟩⟩

theorem find_ok (h : locate sys directory = .ok place) (name : List Name) :
    find sys w directory name = .ok (w.files (place++name)) := by
  rw [find, h]
  rfl

theorem matchesFor_some (hl : Legacy record) (hp : locate sys directory = .ok place) {bytes : Bytes}
    (hb : w.files (place++[sidecar]) = some bytes)
    (hr : recoveryRecordFor sys record directory machine = .ok recovery) (hostname : String) :
    matchesFor sys w record directory machine hostname =
      .ok (decide ((fromSlice sys bytes).toOption = some recovery)) := by
  obtain ⟨host,hh,hne,hm⟩ := hl
  have hfind : (find sys w directory [sidecar]).toOption.join = some bytes := by
    rw [find_ok hp, hb]
    rfl
  rw [matchesFor, host_index hh, Option.filter_some, if_pos (by simpa using hne)]
  simp only [hm, hfind, hr]
  rfl

theorem matchesFor_none (hl : Legacy record) (hp : locate sys directory = .ok place)
    (hb : w.files (place++[sidecar]) = none) (hostname : String) :
    matchesFor sys w record directory machine hostname =
      .ok (decide (record.index "host" = .str hostname)) := by
  obtain ⟨host,hh,hne,hm⟩ := hl
  have hfind : (find sys w directory [sidecar]).toOption.join = none := by
    rw [find_ok hp, hb]
    rfl
  rw [matchesFor, host_index hh, Option.filter_some, if_pos (by simpa using hne)]
  simp only [hm, hfind, hh, Json.str.injEq]
  rfl

structure Sound (sys : System) (call : Call) (e : Entry) : Prop where
  legacy : Legacy e.record
  located : ∃ place, locate sys e.directory = .ok place
  recovery : ∃ machine, fromOsValue sys call.computer = .ok machine ∧
    recoveryRecordFor sys e.record e.directory machine = .ok e.recovery

theorem opening_host (h : opening sys call w = .ok o) :
    call.previousHost ≠ "" ∧ isMachineId call.previousHost = false := by
  obtain ⟨_,hhost,_⟩ := bind_ok.mp h
  exact ensure_ok.mp hhost

theorem checkNative_host (h : checkNative sys call w o = .ok ()) :
    (o.run.index "identity").index "host" = .str call.previousHost := by
  obtain ⟨_,_,h⟩ := bind_ok.mp h
  obtain ⟨_,_,h⟩ := bind_ok.mp h
  obtain ⟨_,_,h⟩ := bind_ok.mp h
  obtain ⟨_,_,h⟩ := bind_ok.mp h
  obtain ⟨_,howned,_⟩ := bind_ok.mp h
  exact (ensure_ok.mp howned).2.2.1

theorem checkControl_host {binding : Json} (h : checkControl sys call w o = .ok binding) :
    binding.index "host" = .str call.previousHost := by
  obtain ⟨_,_,h⟩ := bind_ok.mp h
  obtain ⟨_,_,h⟩ := bind_ok.mp h
  obtain ⟨_,hbound,h⟩ := bind_ok.mp h
  obtain ⟨_,_,h⟩ := bind_ok.mp h
  obtain ⟨_,_,h⟩ := bind_ok.mp h
  obtain ⟨_,_,h⟩ := bind_ok.mp h
  obtain ⟨_,_,h⟩ := bind_ok.mp h
  obtain ⟨_,_,h⟩ := bind_ok.mp h
  obtain rfl := pure_ok.mp h
  exact (ensure_ok.mp hbound).1

theorem verify_hosts (h : verify sys call o w = .ok x) :
    (o.run.index "identity").index "host" = .str call.previousHost ∧
      x.binding.index "host" = .str call.previousHost := by
  obtain ⟨_,hnative,h⟩ := bind_ok.mp h
  obtain ⟨_,_,h⟩ := bind_ok.mp h
  obtain ⟨binding,hcontrol,h⟩ := bind_ok.mp h
  obtain ⟨_,_,h⟩ := bind_ok.mp h
  obtain ⟨_,_,h⟩ := bind_ok.mp h
  obtain rfl := pure_ok.mp h
  exact ⟨checkNative_host hnative,checkControl_host hcontrol⟩

theorem Ready.sound (h : Ready sys call w o x entries) : ∀ e ∈ entries, Sound sys call e := by
  obtain ⟨hne,hm⟩ := opening_host h.opened
  obtain ⟨hnative,hcontrol⟩ := verify_hosts h.verified
  obtain ⟨machine,hid,he⟩ := bind_ok.mp h.expected
  obtain ⟨source,hsource,he⟩ := bind_ok.mp he
  obtain ⟨control,hc,he⟩ := bind_ok.mp he
  obtain rfl := pure_ok.mp he
  have hsound : ∀ e : Entry, e.record.index "host" = .str call.previousHost →
      recoveryRecordFor sys e.record e.directory machine = .ok e.recovery → Sound sys call e := by
    intro e hh hr
    obtain ⟨_,place,_,hp,_⟩ := recovery_ok.mp hr
    exact ⟨⟨_,hh,hne,hm⟩,⟨place,hp⟩,machine,hid,hr⟩
  intro e he
  rcases List.mem_cons.mp he with rfl | he
  · exact hsound _ hnative hsource
  · obtain rfl := List.mem_singleton.mp he
    exact hsound _ hcontrol hc

theorem Ready.unique {o' : Opening} {x' : Verified} {entries' : List Entry}
    (h : Ready sys call w o x entries) (h' : Ready sys call w o' x' entries') :
    o = o' ∧ x = x' ∧ entries = entries' := by
  obtain rfl := Except.ok.inj (h.opened.symm.trans h'.opened)
  obtain rfl := Except.ok.inj (h.verified.symm.trans h'.verified)
  exact ⟨rfl,rfl,Except.ok.inj (h.expected.symm.trans h'.expected)⟩

theorem agrees_iff {e : Entry} (hp : locate sys e.directory = .ok place) :
    agrees sys e w = .ok () ↔
      ∀ bytes, w.files (place++[sidecar]) = some bytes → fromSlice sys bytes = .ok e.recovery := by
  unfold agrees
  rw [find_ok hp]
  cases hb : w.files (place++[sidecar]) with
  | none => exact ⟨fun _ _ h => (by cases h),fun _ => rfl⟩
  | some bytes =>
    show fromSlice sys bytes >>= (fun actual => ensure (actual = e.recovery) _) = .ok () ↔ _
    constructor
    · intro h bytes' hb'
      obtain rfl := Option.some.inj hb'
      obtain ⟨actual,ha,h⟩ := bind_ok.mp h
      rw [ha, ensure_ok.mp h]
    · exact fun h => bind_ok.mpr ⟨_,h bytes rfl,ensure_ok.mpr rfl⟩

theorem Attesting.holds (hb : ReadsBack sys.fromSlice) (h : Attesting sys v entries w)
    (hr : Ready sys call v o x entries) {e : Entry} (he : e ∈ entries)
    (hp : locate sys e.directory = .ok place) {bytes : Bytes}
    (hbytes : w.files (place++[sidecar]) = some bytes) :
    ∃ f ∈ entries, locate sys f.directory = .ok place ∧ fromSlice sys bytes = .ok f.recovery := by
  rcases h.written place bytes hbytes with hv | ⟨f,hf,hpf,rfl⟩
  · exact ⟨e,he,hp,(agrees_iff hp).mp (hr.agreed e he) bytes hv⟩
  · obtain ⟨machine,-,hrec⟩ := (hr.sound f hf).recovery
    exact ⟨f,hf,hpf,recovery_read hb hrec⟩

/-- With a sidecar for each record every state on the way is one to start from. -/
theorem Ready.attesting (hb : ReadsBack sys.fromSlice) (hr : Ready sys call v o x entries)
    (ha : Apart sys entries) (h : Attesting sys v entries w) :
    Ready sys call w o x entries where
  opened := (opening_unchanged h.unchanged).trans hr.opened
  verified := (verify_unchanged h.unchanged).trans hr.verified
  expected := hr.expected
  agreed e he := by
    obtain ⟨place,hp⟩ := (hr.sound e he).located
    refine (agrees_iff hp).mpr (fun bytes hbytes => ?_)
    obtain ⟨f,hf,hpf,hread⟩ := h.holds hb hr he hp hbytes
    rw [hread, ha e he f hf (hp.trans hpf.symm)]

theorem left_stopped (w : World) (script : List (Option String)) :
    Stopped sys call w (left sys call w script) := by
  refine Triple.ends ((rebind_triple w).weaken (fun _ h => h) (fun _ u h => ?_) (fun _ h => h)) rfl
  obtain ⟨o,x,entries,hready,_,hatt,_⟩ := h
  exact .inr ⟨o,x,entries,hready,hatt⟩

theorem Ready.left (hb : ReadsBack sys.fromSlice) (hr : Ready sys call w o x entries)
    (ha : Apart sys entries) (script : List (Option String)) :
    Ready sys call (left sys call w script) o x entries := by
  rcases (left_stopped w script : Stopped sys call w _) with h | ⟨o',x',entries',hready,h⟩
  · exact hr.attesting hb ha h.attesting
  · obtain ⟨-,-,rfl⟩ := hr.unique hready
    exact hr.attesting hb ha h

theorem attest_runs {e : Entry} (hp : locate sys e.directory = .ok place) (s : World) :
    ∃ t, Runs (attest sys e) s () t := by
  cases hb : s.files (place++[sidecar]) with
  | some bytes =>
    refine ⟨s,runs_query hp (runs_query (a := true) (by simp [hb]) ?_)⟩
    rw [if_pos rfl]
    exact runs_pure () s
  | none =>
    refine ⟨s.put (place++[sidecar]) (utf8 (metadataText e.recovery)),
      runs_query hp (runs_query (a := false) (by simp [hb]) ?_)⟩
    rw [if_neg (by decide)]
    exact runs_next (runs_query (a := ()) (ensure_ok.mpr (by simp [hb])) (runs_perform rfl))

theorem Ready.directories (hr : Ready sys call w o x entries) {lock : Place × Name}
    (hl : lock ∈ locks o) : ∃ e ∈ entries, e.directory = lock.1 := by
  obtain ⟨machine,_,he⟩ := bind_ok.mp hr.expected
  obtain ⟨source,_,he⟩ := bind_ok.mp he
  obtain ⟨control,_,he⟩ := bind_ok.mp he
  obtain rfl := pure_ok.mp he
  simp only [locks, List.mem_cons, List.not_mem_nil, or_false] at hl
  rcases hl with rfl | rfl | rfl | rfl | rfl | rfl <;> simp

theorem runs_read {σ α : Type} {g : σ → Except String α} {s : σ} {a : α} (h : g s = .ok a) :
    Runs (query g) s a s := by
  have hrun := runs_query h (runs_pure a s)
  rwa [bind_pure] at hrun

theorem rebind_runs (hr : Ready sys call w o x entries) :
    ∃ u, Runs (rebind sys call) w (report o x) u := by
  have hself : Locked w w := ⟨unchanged_refl w,fun _ => rfl⟩
  have hlock : ∀ lock ∈ locks o, ∀ s, Locked w s →
      ∃ t, Runs (fileLock sys lock) s () t ∧ Locked w t := by
    intro lock hl s hs
    obtain ⟨e,he,hd⟩ := hr.directories hl
    obtain ⟨place,hp⟩ := (hr.sound e he).located
    exact ⟨_,runs_query (hd ▸ hp) (runs_perform rfl),hs.create hl place⟩
  obtain ⟨s,hlocks,hs⟩ := runs_forM hlock hself
  have hread : ∀ e ∈ entries, ∀ t, t = s → ∃ t', Runs (query (agrees sys e)) t () t' ∧ t' = s := by
    rintro e he t rfl
    exact ⟨t,runs_read ((agrees_locked hs e).trans (hr.agreed e he)),rfl⟩
  obtain ⟨t,hagree,rfl⟩ := runs_forM hread rfl
  have hwrite : ∀ e ∈ entries, ∀ t, True → ∃ t', Runs (attest sys e) t () t' ∧ True := by
    intro e he t _
    obtain ⟨place,hp⟩ := (hr.sound e he).located
    obtain ⟨t',ht'⟩ := attest_runs hp t
    exact ⟨t',ht',trivial⟩
  obtain ⟨u,hattest,-⟩ := runs_forM hwrite (s := t) trivial
  exact ⟨u,runs_query hr.opened (runs_bind hlocks (runs_query
    ((verify_unchanged hs.unchanged).trans hr.verified) (runs_query hr.expected
      (runs_bind hagree (runs_bind hattest (runs_pure _ u))))))⟩

end Records

section Bound
variable {sys : System} {call : Call} {v w u : World} {o : Opening} {x : Verified}
variable {entries : List Entry} {e : Entry}

theorem fromOsValue_injective (hs : Function.Injective sys.sha256) {c d : Computer} {id : String}
    (hc : fromOsValue sys c = .ok id) (hd : fromOsValue sys d = .ok id) : c.text = d.text := by
  obtain ⟨_,_,hc⟩ := bind_ok.mp hc
  obtain ⟨_,_,hd⟩ := bind_ok.mp hd
  have hid := (pure_ok.mp hc).trans (pure_ok.mp hd).symm
  rw [← String.toList_inj, String.toList_append, String.toList_append] at hid
  exact utf8_injective (hs (String.toList_inj.mp (List.append_cancel_left hid)))

theorem Stopped.unchanged (h : Stopped sys call w u) : Unchanged w u := by
  rcases h with h | ⟨_,_,_,_,h⟩
  · exact h.unchanged
  · exact h.unchanged

theorem attested_present (hb : ReadsBack sys.fromSlice) (hr : Ready sys call w o x entries)
    (ha : Apart sys entries) (h : Attesting sys w entries u) (he : e ∈ entries)
    (hp : Present sys e u) : Attested sys e u := by
  obtain ⟨place,hp,hne⟩ := hp
  obtain ⟨bytes,hbytes⟩ := Option.ne_none_iff_exists'.mp hne
  obtain ⟨f,hf,hpf,hread⟩ := h.holds hb hr he hp hbytes
  exact ⟨bytes,(find_ok hp [sidecar]).trans (congrArg _ hbytes),
    ha e he f hf (hp.trans hpf.symm) ▸ hread⟩

theorem Attested.bound (hs : Function.Injective sys.sha256) (he : Sound sys call e)
    (h : Attested sys e u) : Bound sys call e u := by
  obtain ⟨place,hp⟩ := he.located
  obtain ⟨machine,hid,hrec⟩ := he.recovery
  obtain ⟨bytes,hb,hread⟩ := h
  rw [find_ok hp, Except.ok.injEq] at hb
  refine fun hostname => ⟨fun id hid' => ?_,fun other id hother hne => ?_⟩
  · obtain rfl := Except.ok.inj (hid.symm.trans hid')
    rw [matchesFor_some he.legacy hp hb hrec hostname, hread]
    simp [Except.toOption]
  · obtain ⟨recovery,hr⟩ := recovery_other hrec id
    have hdiff : e.recovery ≠ recovery := by
      intro heq
      have hindex := recovery_machine hrec
      rw [heq, recovery_machine hr, Json.str.injEq] at hindex
      exact hne (fromOsValue_injective hs (hindex ▸ hother) hid)
    rw [matchesFor_some he.legacy hp hb hr hostname, hread]
    simp [Except.toOption, hdiff]

theorem Bound.attested (he : Sound sys call e) (h : Bound sys call e u) : Attested sys e u := by
  obtain ⟨place,hp⟩ := he.located
  obtain ⟨machine,hid,hrec⟩ := he.recovery
  cases hb : u.files (place++[sidecar]) with
  | none =>
    have hhost : ∀ hostname, e.record.index "host" = .str hostname := by
      intro hostname
      have hm := (h hostname).1 machine hid
      rw [matchesFor_none he.legacy hp hb, Except.ok.injEq, decide_eq_true_eq] at hm
      exact hm
    have hsame := (hhost "a").symm.trans (hhost "b")
    simp at hsame
  | some bytes =>
    refine ⟨bytes,(find_ok hp [sidecar]).trans (congrArg _ hb),?_⟩
    have hm := (h "").1 machine hid
    rw [matchesFor_some he.legacy hp hb hrec, Except.ok.injEq, decide_eq_true_eq] at hm
    cases hread : fromSlice sys bytes with
    | error m =>
      rw [hread] at hm
      cases hm
    | ok actual =>
      rw [hread] at hm
      exact congrArg _ (Option.some.inj hm)

theorem Ready.foldl (hb : ReadsBack sys.fromSlice) (hr : Ready sys call w o x entries)
    (ha : Apart sys entries) (scripts : List (List (Option String))) :
    Ready sys call (scripts.foldl (Recovery.left sys call) w) o x entries := by
  induction scripts generalizing w with
  | nil => exact hr
  | cons script scripts ih => exact ih (hr.left hb ha script)

/-- Two sidecars that bind their records are two files, or the records agree. -/
theorem AllOrNothing.apart (h : AllOrNothing sys call w) (hr : Ready sys call w o x entries) :
    Apart sys entries := by
  intro e he f hf hplace
  obtain ⟨u,hrun⟩ := rebind_runs hr
  obtain ⟨o',v',entries',hr',hbound⟩ := h.bound [] _ u [] hrun
  obtain ⟨-,-,rfl⟩ := hr.unique hr'
  obtain ⟨bytes,hb,hread⟩ := (hbound e he).attested (hr.sound e he)
  obtain ⟨bytes',hb',hread'⟩ := (hbound f hf).attested (hr.sound f hf)
  have hfind : find sys u e.directory [sidecar] = find sys u f.directory [sidecar] := by
    rw [find, find, hplace]
  rw [hfind, hb', Except.ok.injEq, Option.some.injEq] at hb
  rw [← hb, hread'] at hread
  exact (Except.ok.inj hread).symm

end Bound

section Sample
open EvmState.Cursor (stream sampleKey sampleTag sampleRef)

def sampleTree : Tree where
  kind _ := some .dir
  root := rfl
  parent _ _ _ := rfl

def sampleSystem : System where
  sha256 := encode
  fromSlice := PrettyJson.readBytes
  cipher := stream sampleKey sampleTag
  tree := sampleTree
  currentDir := []

def sampleUuid : String := "11111111-2222-4333-8444-555555555555"

def sampleControl : Place := ["control",sampleUuid]

def sampleComputer : Computer := ⟨"Linux",String.ofList (List.replicate 32 'a')⟩

def sampleCall (directory : Place) : Call where
  client := ⟨"source","http://127.0.0.1:18123",⟨true,[.normal "control"]⟩⟩
  path := ⟨true,plain directory⟩
  previousHost := "old"
  computer := sampleComputer

def samplePosition : Cursor.Position := ⟨sampleRef,sampleRef,sampleRef,1⟩

def sampleToken : String :=
  (Cursor.encodePublic (stream sampleKey sampleTag) (Cursor.render .c1 samplePosition)).toOption.getD ""

theorem sample_one : Json.isNumber ['1'] = true := by decide

theorem sample_three : Json.isNumber ['3'] = true := by decide

def identityFields (directory : Place) : List (String × Json) := [("format_version",.num "3"),
  ("host",.str "old"),("state_directory",.str (directoryText directory)),("database",.str "source"),
  ("http_url",.str "http://127.0.0.1:18123"),("checkpoint_database",.str "checkpoints"),
  ("package_sha256",.str ""),("start_block",Json.ofNat 1),("accounts",.arr [.str "0x00"])]

def sampleIdentity (directory : Place) : Json.Value :=
  ⟨Json.ofPairs (identityFields directory),
    Json.value_ofPairs (by simp [identityFields, Json.value, Json.valueItems, Json.ofNat]),
    Json.regular_ofPairs (by simp [identityFields, Json.Regular, Json.RegularItems, sample_three,
      Json.regular_ofNat])⟩

def runFields (directory : Place) : List (String × Json) := [("run_id",.str "run"),
  ("phase",.str "prepared"),("database_uuid",.str "source-uuid"),("schema_hash",.str "schema"),
  ("identity",(sampleIdentity directory).tree)]

def sampleRun (directory : Place) : Json.Value :=
  ⟨Json.ofPairs (runFields directory),
    Json.value_ofPairs (by simp [runFields, Json.value, (sampleIdentity directory).sorted]),
    Json.regular_ofPairs (by simp [runFields, Json.Regular, (sampleIdentity directory).regular])⟩

def bindingFields : List (String × Json) := [("format_version",.num "1"),("control_id",.str "control"),
  ("database_uuid",.str sampleUuid),("directory",.str (directoryText sampleControl)),
  ("host",.str "old")]

def sampleBinding : Json.Value :=
  ⟨Json.ofPairs bindingFields,Json.value_ofPairs (by simp [bindingFields, Json.value]),
    Json.regular_ofPairs (by simp [bindingFields, Json.Regular, sample_one])⟩

def progressFields (directory : Place) : List (String × Json) := [("format_version",.num "1"),
  ("run_id",.str "run"),("database_uuid",.str "source-uuid"),
  ("identity_sha256",.str (encode (utf8 (canonicalJson (sampleIdentity directory).tree)))),
  ("cursor",.str sampleToken),("position",positionJson samplePosition)]

theorem regular_block (r : Cursor.BlockRef) : (blockJson r).value = blockJson r ∧
    (blockJson r).Regular :=
  ⟨Json.value_ofPairs (by simp [Json.value, Json.ofNat]),
    Json.regular_ofPairs (by simp [Json.Regular, Json.regular_ofNat])⟩

theorem regular_position (p : Cursor.Position) : (positionJson p).value = positionJson p ∧
    (positionJson p).Regular :=
  ⟨Json.value_ofPairs (by simp [Json.value, Json.ofNat, regular_block]),
    Json.regular_ofPairs (by simp [Json.regular_ofNat, regular_block])⟩

def sampleProgress (directory : Place) : Json.Value :=
  ⟨Json.ofPairs (progressFields directory),
    Json.value_ofPairs (by simp [progressFields, Json.value, regular_position]),
    Json.regular_ofPairs (by simp [progressFields, Json.Regular, sample_one, regular_position])⟩

def sampleFiles (directory : Place) : List (Place × Bytes) :=
  [(directory++["run.json"],utf8 (metadataText (sampleRun directory).tree)),
    (directory++["package.spkg"],[]),(directory++schemaFile "source",utf8 "schema\n"),
    (directory++["durable_progress.json"],utf8 (metadataText (sampleProgress directory).tree)),
    (directory++["cursor.txt"],utf8 sampleToken),
    (sampleControl++["binding.json"],utf8 (metadataText sampleBinding.tree)),
    (sampleControl++["initialized"],utf8 "control")]

def sampleBlocks : List StateBlock := [⟨100,sampleRef.hash,"0x00",1,5⟩]

def sampleMarkers : List Marker := [⟨100,String.ofList (sampleRef.hash.toList.drop 2)⟩]

def sampleWorld (directory : Place) : World where
  files place := OrderedMap.lookup place (sampleFiles directory)
  databases := [("source","source-uuid"),("checkpoints",sampleUuid)]
  tables name := if name = "source" then
      ⟨[⟨"run",canonicalJson (sampleIdentity directory).tree⟩],[],sampleBlocks,sampleMarkers,[],[]⟩
    else ⟨[],[⟨"control",canonicalJson sampleBinding.tree⟩],[],[],[],[]⟩

theorem sample_locate (directory : Place) : locate sampleSystem directory = .ok directory := by
  have hsettled : Paths.Settled sampleTree directory := by
    intro q _
    rcases List.eq_nil_or_concat q with rfl | ⟨p,n,rfl⟩
    · exact .inr ⟨.dir,rfl,rfl⟩
    · rw [List.concat_eq_append]
      exact .inr ⟨.dir,symlinkMetadata_child rfl,rfl⟩
  have hrun := Paths.resolves_iff.mp (Paths.settled_resolves directory 0 hsettled)
  show (Paths.resolveInner sampleTree 41 (plain directory) 0 >>= _) = _
  rw [hrun]
  rfl

theorem sample_cursor : Cursor.decode sampleSystem.cipher sampleToken = .ok samplePosition ∧
    trimmed sampleToken = sampleToken := by
  have hvalid : samplePosition.Valid :=
    ⟨.inl rfl,Cursor.sampleRef_valid,Cursor.sampleRef_valid,rfl,le_rfl,fun _ => rfl⟩
  obtain ⟨token,he,hd⟩ := Cursor.payload_encodePublic (Cursor.stream_lawful Cursor.sampleTag_length)
    ((Cursor.render_size (v := .c1) hvalid).trans (by omega))
  have htoken : sampleToken = token := by
    rw [sampleToken, he]
    rfl
  rw [htoken]
  refine ⟨Cursor.decode_ok.mpr ⟨_,hd,Cursor.parse_ok.mpr ⟨hvalid,.c1,fun _ => rfl,rfl⟩⟩,?_⟩
  obtain ⟨b,-,hb⟩ := bind_ok.mp he
  obtain rfl := pure_ok.mp hb
  obtain ⟨l,k,hshape,-,hsymbol,-⟩ := Base64.encode_shape b
  have hplain : ∀ n < 64, Params.isWhitespace (Base64.symbol n) = false := by decide
  rw [trimmed, AccountLists.trim_free, String.ofList_toList]
  intro c hc
  rw [String.toList_ofList, hshape] at hc
  rcases List.mem_append.mp hc with hc | hc
  · obtain ⟨n,hn,rfl⟩ := hsymbol c hc
    exact hplain n hn
  · rw [List.eq_of_mem_replicate hc]
    decide

structure Stands (directory : Place) : Prop where
  files : ∀ e ∈ sampleFiles directory, (sampleWorld directory).files e.1 = some e.2
  pointer : (sampleWorld directory).files (directory++["bootstrap.json"]) = none
  sidecars : (sampleWorld directory).files (directory++[sidecar]) = none ∧
    (sampleWorld directory).files (sampleControl++[sidecar]) = none

section Ready
variable {directory : Place}

theorem Stands.find (h : Stands directory) {place : Place} {name : List Name} {bytes : Bytes}
    (hm : (place++name,bytes) ∈ sampleFiles directory) :
    find sampleSystem (sampleWorld directory) place name = .ok (some bytes) := by
  rw [find_ok (sample_locate place), h.files _ hm]

theorem Stands.read (h : Stands directory) {place : Place} {name : List Name} {bytes : Bytes}
    (hm : (place++name,bytes) ∈ sampleFiles directory) :
    readFile sampleSystem (sampleWorld directory) place name = .ok bytes :=
  bind_ok.mpr ⟨_,h.find hm,context_ok.mpr rfl⟩

theorem fromSlice_metadata (v : Json.Value) :
    fromSlice sampleSystem (utf8 (metadataText v.tree)) = .ok v.tree := by
  refine context_ok.mpr ?_
  show PrettyJson.readBytes _ = _
  rw [PrettyJson.readBytes, ofUtf8_utf8]
  exact PrettyJson.readText_metadataText v

theorem Stands.readJson (h : Stands directory) {place : Place} {name : List Name} {v : Json.Value}
    (hm : (place++name,utf8 (metadataText v.tree)) ∈ sampleFiles directory) :
    readJson sampleSystem (sampleWorld directory) place name = .ok v.tree :=
  bind_ok.mpr ⟨_,h.read hm,fromSlice_metadata v⟩

theorem Stands.readText (h : Stands directory) {place : Place} {name : List Name} {text : String}
    (hm : (place++name,utf8 text) ∈ sampleFiles directory) :
    readText sampleSystem (sampleWorld directory) place name = .ok text :=
  bind_ok.mpr ⟨_,h.read hm,context_ok.mpr (ofUtf8_utf8 _)⟩

theorem fromStr_canonical (v : Json.Value) :
    fromStr sampleSystem (canonicalJson v.tree) = .ok v.tree := by
  refine context_ok.mpr ?_
  show PrettyJson.readBytes _ = _
  rw [PrettyJson.readBytes, ofUtf8_utf8]
  exact PrettyJson.readText_compact v

theorem index_fields {l : List (String × Json)} (hd : l.Pairwise (fun a b => a.1 ≠ b.1)) {k : String}
    {a : Json} (h : OrderedMap.lookup k l = some a) : (Json.ofPairs l).index k = a := by
  rw [Json.index_ofPairs hd, h]
  rfl

theorem string_fields {l : List (String × Json)} (hd : l.Pairwise (fun a b => a.1 ≠ b.1))
    {k text : String} (h : OrderedMap.lookup k l = some (.str text)) :
    string (Json.ofPairs l) k = .ok text := by
  refine context_ok.mpr ?_
  rw [Json.get?_ofPairs hd, h]
  rfl

theorem includes_fields {l : List (String × Json)} {record : Json}
    (h : ∀ e ∈ l, record.get? e.1 = some e.2) : includes (Json.ofPairs l) record = true := by
  have hall : OrderedMap.SortedMap.Entrywise (fun k v => record.get? k = some v)
      ((OrderedMap.SortedMap.empty : OrderedMap.SortedMap String Json).insertAll l) :=
    OrderedMap.SortedMap.Entrywise.empty.insertAll h
  refine List.all_eq_true.mpr (fun e he => decide_eq_true ?_)
  exact hall e.1 e.2 (OrderedMap.SortedMap.mem_entries.mp he)

theorem run_index {k : String} {a : Json} (h : OrderedMap.lookup k (runFields directory) = some a) :
    (sampleRun directory).tree.index k = a := index_fields (by simp [runFields]) h

theorem identity_index {k : String} {a : Json}
    (h : OrderedMap.lookup k (identityFields directory) = some a) :
    (sampleIdentity directory).tree.index k = a := index_fields (by simp [identityFields]) h

theorem binding_index {k : String} {a : Json} (h : OrderedMap.lookup k bindingFields = some a) :
    sampleBinding.tree.index k = a := index_fields (by simp [bindingFields]) h

theorem run_identity : (sampleRun directory).tree.index "identity" =
    (sampleIdentity directory).tree := run_index rfl

def sampleOpening (directory : Place) : Opening :=
  ⟨directory,(sampleRun directory).tree,"checkpoints",sampleUuid,sampleControl⟩

theorem sample_opening (h : Stands directory) :
    opening sampleSystem (sampleCall directory) (sampleWorld directory) =
      .ok (sampleOpening directory) := by
  have hrun : readJson sampleSystem (sampleWorld directory) directory ["run.json"] =
      .ok (sampleRun directory).tree := h.readJson (by simp [sampleFiles])
  refine bind_ok.mpr ⟨(),ensure_ok.mpr ⟨by simp [sampleCall],
    (by decide : isMachineId "old" = false)⟩,bind_ok.mpr ⟨_,sample_locate directory,
    bind_ok.mpr ⟨_,hrun,bind_ok.mpr ⟨"checkpoints",?_,bind_ok.mpr ⟨(),rfl,
    bind_ok.mpr ⟨sampleUuid,rfl,bind_ok.mpr ⟨(),ensure_ok.mpr (by decide +kernel),
    bind_ok.mpr ⟨["control"],sample_locate ["control"],rfl⟩⟩⟩⟩⟩⟩⟩⟩
  rw [run_identity]
  exact string_fields (by simp [identityFields]) rfl

theorem sample_native (h : Stands directory) : checkNative sampleSystem (sampleCall directory)
    (sampleWorld directory) (sampleOpening directory) = .ok () := by
  have hrun : readJson sampleSystem (sampleWorld directory) directory ["run.json"] =
      .ok (sampleRun directory).tree := h.readJson (by simp [sampleFiles])
  refine bind_ok.mpr ⟨_,hrun,bind_ok.mpr ⟨(),ensure_ok.mpr rfl,bind_ok.mpr ⟨_,rfl,
    bind_ok.mpr ⟨"source-uuid",rfl,bind_ok.mpr ⟨(),ensure_ok.mpr ?_,bind_ok.mpr
    ⟨_,fromStr_canonical _,ensure_ok.mpr run_identity.symm⟩⟩⟩⟩⟩⟩
  show _ ∧ _
  rw [sampleOpening, run_identity]
  exact ⟨run_index rfl,identity_index rfl,identity_index rfl,identity_index rfl,identity_index rfl,
    identity_index rfl,run_index rfl,run_index rfl⟩

theorem sample_frozen (h : Stands directory) : checkFrozen sampleSystem (sampleCall directory)
    (sampleWorld directory) (sampleOpening directory) = .ok () := by
  have hschema : readText sampleSystem (sampleWorld directory) directory (schemaFile "source") =
      .ok "schema\n" := h.readText (by simp [sampleFiles])
  refine bind_ok.mpr ⟨[],h.read (by simp [sampleOpening, sampleFiles]),bind_ok.mpr ⟨"",?_,
    bind_ok.mpr ⟨(),ensure_ok.mpr rfl,bind_ok.mpr ⟨_,hschema,bind_ok.mpr ⟨"schema",?_,
    ensure_ok.mpr (by decide +kernel)⟩⟩⟩⟩⟩
  · rw [sampleOpening, run_identity]
    exact string_fields (by simp [identityFields]) rfl
  · exact string_fields (by simp [runFields]) rfl

theorem sample_control (h : Stands directory) : checkControl sampleSystem (sampleCall directory)
    (sampleWorld directory) (sampleOpening directory) = .ok sampleBinding.tree := by
  have hbinding : readJson sampleSystem (sampleWorld directory) sampleControl ["binding.json"] =
      .ok sampleBinding.tree := h.readJson (by simp [sampleFiles])
  have hinit : readText sampleSystem (sampleWorld directory) sampleControl ["initialized"] =
      .ok "control" := h.readText (by simp [sampleFiles])
  exact bind_ok.mpr ⟨_,hbinding,bind_ok.mpr ⟨⟨"control",_⟩,rfl,bind_ok.mpr ⟨(),ensure_ok.mpr
    ⟨binding_index rfl,binding_index rfl,binding_index rfl,binding_index rfl⟩,bind_ok.mpr
    ⟨_,fromStr_canonical _,bind_ok.mpr ⟨(),ensure_ok.mpr rfl,bind_ok.mpr ⟨_,hinit,bind_ok.mpr ⟨"control",
    string_fields (by simp [bindingFields]) rfl,bind_ok.mpr ⟨(),ensure_ok.mpr rfl,rfl⟩⟩⟩⟩⟩⟩⟩⟩

theorem sample_rows : (sampleBlocks.filter (·.number = 100)).length = 1 ∧
    (sampleBlocks.filter (·.number = 100)).all (fun r => r.hash = sampleRef.hash &&
      r.accounts = ",".intercalate ["0x00"] && r.schemaVersion = 1 && 3 ≤ r.producerVersion &&
      r.producerVersion ≤ 5) ∧
    (sampleMarkers.filter (·.number = 100)).length = 1 ∧
    (sampleMarkers.filter (·.number = 100)).all (fun m =>
      "0x" ++ String.ofList (trimHex m.hash.toList) = sampleRef.hash) := by
  have hhash : "0x" ++ String.ofList (trimHex (sampleRef.hash.toList.drop 2)) = sampleRef.hash := by
    decide +kernel
  simp [sampleBlocks, sampleMarkers, hhash]

theorem sample_validate : validate sampleSystem ((sampleWorld directory).tables "source")
    (sampleRun directory).tree sampleToken = .ok samplePosition := by
  refine bind_ok.mpr ⟨_,sample_cursor.1,?_⟩
  simp only [run_identity]
  have hstart : (sampleIdentity directory).tree.index "start_block" = Json.ofNat 1 := identity_index rfl
  have haccounts : (sampleIdentity directory).tree.index "accounts" = .arr [.str "0x00"] :=
    identity_index rfl
  rw [hstart, haccounts]
  exact bind_ok.mpr ⟨1,context_ok.mpr (Json.uint_ofNat (by norm_num)),bind_ok.mpr ⟨(),
    ensure_ok.mpr (by decide),bind_ok.mpr ⟨_,rfl,bind_ok.mpr ⟨["0x00"],rfl,
    bind_ok.mpr ⟨(),ensure_ok.mpr sample_rows,rfl⟩⟩⟩⟩⟩

theorem sample_progress (h : Stands directory) : loadProgress sampleSystem (sampleWorld directory)
    ((sampleWorld directory).tables "source") (sampleRun directory).tree directory =
      .ok (sampleProgress directory).tree := by
  have hfind : find sampleSystem (sampleWorld directory) directory ["durable_progress.json"] =
      .ok (some (utf8 (metadataText (sampleProgress directory).tree))) :=
    h.find (by simp [sampleFiles])
  have hbinding : binding sampleSystem (sampleRun directory).tree = .ok (Json.ofPairs
      [("format_version",.num "1"),("run_id",.str "run"),("database_uuid",.str "source-uuid"),
        ("identity_sha256",.str (encode (utf8 (canonicalJson (sampleIdentity directory).tree))))]) := by
    refine bind_ok.mpr ⟨(sampleIdentity directory).tree,context_ok.mpr ?_,bind_ok.mpr ⟨"run",
      string_fields (by simp [runFields]) rfl,bind_ok.mpr ⟨"source-uuid",
      string_fields (by simp [runFields]) rfl,rfl⟩⟩⟩
    exact Json.get?_ofPairs (by simp [runFields]) "identity"
  refine bind_ok.mpr ⟨_,hfind,bind_ok.mpr ⟨_,rfl,bind_ok.mpr ⟨_,fromSlice_metadata _,
    bind_ok.mpr ⟨_,hbinding,bind_ok.mpr ⟨(),ensure_ok.mpr ?_,bind_ok.mpr ⟨sampleToken,
    string_fields (by simp [progressFields]) rfl,bind_ok.mpr ⟨_,sample_validate,
    bind_ok.mpr ⟨(),ensure_ok.mpr (index_fields (by simp [progressFields]) rfl),rfl⟩⟩⟩⟩⟩⟩⟩⟩
  refine includes_fields (fun e he => ?_)
  simp only [List.mem_cons, List.not_mem_nil, or_false] at he
  rcases he with rfl | rfl | rfl | rfl <;> exact Json.get?_ofPairs (by simp [progressFields]) _

def sampleVerified : Verified := ⟨sampleBinding.tree,samplePosition,none⟩

theorem sample_verify (h : Stands directory) : verify sampleSystem (sampleCall directory)
    (sampleOpening directory) (sampleWorld directory) = .ok sampleVerified := by
  have hnumber : (((sampleProgress directory).tree.index "position").index "block").index "number" =
      Json.ofNat 100 := by
    have hposition : (sampleProgress directory).tree.index "position" = positionJson samplePosition :=
      index_fields (by simp [progressFields]) rfl
    rw [hposition, positionJson, index_fields (by simp) rfl, blockJson, index_fields (by simp) rfl]
    rfl
  have hcursor : checkCursor sampleSystem (sampleCall directory) (sampleWorld directory)
      (sampleOpening directory) = .ok samplePosition := by
    refine bind_ok.mpr ⟨_,sample_progress h,bind_ok.mpr ⟨sampleToken,h.readText (by simp [sampleOpening,
      sampleFiles]),bind_ok.mpr ⟨samplePosition,?_,bind_ok.mpr ⟨100,?_,
      bind_ok.mpr ⟨(),ensure_ok.mpr le_rfl,rfl⟩⟩⟩⟩⟩
    · rw [sample_cursor.2]
      exact sample_validate
    · rw [hnumber]
      exact context_ok.mpr (Json.uint_ofNat (by norm_num))
  have hpointer : loadPrefix sampleSystem (sampleWorld directory)
      ((sampleWorld directory).tables "source") directory (sampleRun directory).tree = .ok none :=
    bind_ok.mpr ⟨none,by rw [find_ok (sample_locate directory), h.pointer],rfl⟩
  exact bind_ok.mpr ⟨(),sample_native h,bind_ok.mpr ⟨(),sample_frozen h,bind_ok.mpr ⟨_,sample_control h,
    bind_ok.mpr ⟨_,hcursor,bind_ok.mpr ⟨_,hpointer,rfl⟩⟩⟩⟩⟩

def sampleMachine : String := "machine-sha256:" ++ sampleSystem.sha256 (utf8 sampleComputer.text)

def sampleRecovery (record : Json.Value) (directory : Place) : Json :=
  Json.ofPairs [("format_version",.num "1"),("original_host",.str "old"),
    ("record_sha256",.str (encode (utf8 (canonicalJson record.tree)))),
    ("directory",.str (directoryText directory)),("machine_id",.str sampleMachine)]

def sampleEntries (directory : Place) : List Entry :=
  [⟨(sampleIdentity directory).tree,directory,sampleRecovery (sampleIdentity directory) directory⟩,
    ⟨sampleBinding.tree,sampleControl,sampleRecovery sampleBinding sampleControl⟩]

theorem sample_ready (h : Stands directory) : Ready sampleSystem (sampleCall directory)
    (sampleWorld directory) (sampleOpening directory) sampleVerified (sampleEntries directory) where
  opened := sample_opening h
  verified := sample_verify h
  expected := by
    have hnormal : sampleComputer.normal = List.replicate 32 'a' := by
      have hplain : ∀ c ∈ List.replicate 32 'a', Params.isWhitespace c = false := by
        intro c hc
        rw [List.eq_of_mem_replicate hc]
        decide
      rw [Computer.normal, sampleComputer, String.toList_ofList, AccountLists.trim_free hplain,
        List.map_replicate]
      rfl
    have hid : fromOsValue sampleSystem sampleComputer = .ok sampleMachine := by
      have hdigit : IsLowerDigit 'a' := by decide
      refine bind_ok.mpr ⟨(),ensure_ok.mpr ?_,rfl⟩
      rw [hnormal]
      simp [sampleComputer, hdigit]
    refine bind_ok.mpr ⟨_,hid,bind_ok.mpr ⟨sampleRecovery (sampleIdentity directory) directory,?_,
      bind_ok.mpr ⟨sampleRecovery sampleBinding sampleControl,?_,?_⟩⟩⟩
    · rw [sampleOpening, run_identity]
      exact recovery_ok.mpr ⟨"old",directory,string_fields (by simp [identityFields]) rfl,
        sample_locate directory,rfl⟩
    · exact recovery_ok.mpr ⟨"old",sampleControl,string_fields (by simp [bindingFields]) rfl,
        sample_locate sampleControl,rfl⟩
    · rw [sampleOpening, run_identity]
      rfl
  agreed e he := by
    have hnone : (sampleWorld directory).files (e.directory++[sidecar]) = none := by
      rcases List.mem_cons.mp he with rfl | he
      · exact h.sidecars.1
      · obtain rfl := List.mem_singleton.mp he
        exact h.sidecars.2
    refine (agrees_iff (sample_locate e.directory)).mpr (fun bytes hb => ?_)
    rw [hnone] at hb
    cases hb

end Ready

theorem sample_stands (directory : Place) (hd : directory = ["run"] ∨ directory = sampleControl) :
    Stands directory := by
  have hcontrol : ∀ l : List Name, sampleControl++l = "control"::sampleUuid::l := fun _ => rfl
  rcases hd with rfl | rfl
  all_goals
    refine ⟨?_,?_,?_,?_⟩ <;>
      simp [sampleWorld, sampleFiles, OrderedMap.lookup, hcontrol, schemaFile, sidecar]

end Sample
end EvmState.Recovery
