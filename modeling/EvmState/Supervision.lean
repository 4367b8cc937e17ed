import EvmState.Lib.Crash

/-!
# Supervised runs

A command runs under a capacity sampler. The supervisor waits for the child an
interval at a time, samples after each wait, and stops the child's process
group at the first reason it finds. When the child is gone the guard events
that its own operations recorded are merged into the report.
-/

set_option autoImplicit false

namespace EvmState.Supervision
open EvmState.Fallible EvmState.Crash

/-- A sample or a guard event, as far as it is read: a number is absent, of
another form, or a u64, and an entry of the reasons may be no string. -/
structure Value where
  admitted : Bool
  reasons : Option (List (Option String))
  accounted : Option (Option ℕ)
  finished : Option ℕ
  stage : Option String
  deriving DecidableEq

def failure : Value where
  admitted := false
  reasons := some [some "incomplete_capacity_sample"]
  accounted := none
  finished := none
  stage := none

structure Stats where
  samples : ℕ
  failures : ℕ
  peak : ℕ
  maxGap : ℕ
  last : Option ℕ

/-- What the supervisor holds. `sampled` and `terminated` are not kept by it:
they say what the sampler has answered and whether the group was signalled. -/
structure Supervised where
  stats : Stats
  reasons : Finset String
  result : Option ℤ
  terminationError : Option String
  log : List Value
  sampled : List (Option Value)
  terminated : Bool

def Supervised.initial : Supervised := ⟨⟨0,0,0,0,none⟩,∅,none,none,[],[],false⟩

def uint (value : Option ℕ) : Except String ℕ := context value "expected unsigned integer"

def Stats.measured (s : Stats) (now : ℕ) : Stats :=
  { s with
    maxGap := match s.last with
      | some last => max s.maxGap (now-last)
      | none => s.maxGap
    last := some now }

def measure (sample : Option Value) : Prog Supervised Value :=
  match sample with
  | some value => do
    write (fun s => { s with stats := { s.stats with samples := s.stats.samples+1 } })
    let bytes ← check (uint value.accounted.join)
    write (fun s => { s with stats := { s.stats with peak := max s.stats.peak bytes } })
    let now ← check (uint value.finished)
    write (fun s => { s with stats := s.stats.measured now })
    return value
  | none => do
    write (fun s => { s with stats := { s.stats with failures := s.stats.failures+1 } })
    return failure

def record (sample : Option Value) (written : Except String Unit) : Prog Supervised Value := do
  write (fun s => { s with sampled := s.sampled++[sample] })
  let value ← measure sample
  let _ ← check written
  write (fun s => { s with log := s.log++[value] })
  return value

def insertReason (reason : Option String) : Prog Supervised Unit := do
  let text ← check (context reason "invalid sample reason")
  write (fun s => { s with reasons := insert text s.reasons })

def refuse (value : Value) : Prog Supervised Unit :=
  if value.admitted then pure ()
  else do
    let causes ← check (context value.reasons "invalid sample reasons")
    causes.forM insertReason

/-- One wait, the sample after it, and whether the stop flag was seen. -/
structure Round where
  waited : Except String (Option ℤ)
  sample : Option Value
  written : Except String Unit
  interrupted : Bool

def round (r : Round) : Prog Supervised Bool := do
  let status ← check r.waited
  write (fun s => { s with result := status })
  let current ← record r.sample r.written
  refuse current
  write (fun s => if r.interrupted then
    { s with reasons := insert "supervisor_interrupted" s.reasons } else s)
  read (fun s => .ok (s.result.isSome || decide (s.reasons ≠ ∅)))

/-- Rounds until one breaks the loop; `false` when it has not come to that. -/
def loop : List Round → Prog Supervised Bool
  | [] => return false
  | r::rounds => do
    let stop ← round r
    if stop then return true else loop rounds

/-- Everything that the run meets, in the order it asks for it. -/
structure Schedule where
  first : Option Value
  firstWritten : Except String Unit
  spawned : Except String Unit
  rounds : List Round
  terminate : Except String ℤ
  guards : Except String (List Value)

def terminateGroup (terminate : Except String ℤ) (s : Supervised) : Supervised :=
  match terminate with
  | .ok code => { s with result := some code, terminated := true }
  | .error _ => { s with
      terminationError := some "could_not_confirm_process_group_termination"
      terminated := true }

def settle (run : Except String Bool) (terminate : Except String ℤ) : Prog Supervised Unit :=
  write (fun s => if s.result = none ∨ s.reasons ≠ ∅ ∨ run.isOk = false then
    terminateGroup terminate s else s)

def execute (schedule : Schedule) : Prog Supervised Bool := do
  let first ← record schedule.first schedule.firstWritten
  if first.admitted then
    let _ ← check schedule.spawned
    let run ← attempt (loop schedule.rounds)
    settle run schedule.terminate
    check run
  else
    refuse first
    return true

structure Merged where
  peak : ℕ
  reasons : Finset String
  rejected : List String
  failures : ℕ

def mergePeak (peak : ℕ) (accounted : Option (Option ℕ)) : Except String ℕ :=
  match accounted with
  | none => .ok peak
  | some bytes => do
    let bytes ← uint bytes
    return max peak bytes

def mergeGuard (m : Merged) (guard : Value) : Except String Merged := do
  let peak ← mergePeak m.peak guard.accounted
  let causes ← context guard.reasons "invalid capacity guard reasons"
  let failures := if some "incomplete_capacity_sample" ∈ causes then m.failures+1 else m.failures
  if guard.admitted then return { m with peak := peak, failures := failures }
  let stage ← context guard.stage "missing string field stage"
  let texts ← causes.mapM (fun cause => context cause "invalid capacity guard reason")
  return ⟨peak,m.reasons ∪ texts.toFinset,m.rejected++[stage],failures⟩

structure Report where
  samples : ℕ
  failedSamples : ℕ
  peakObservedAllocatedBytes : ℕ
  maximumSampleGap : ℕ
  guardSamples : ℕ
  failedGuardSamples : ℕ
  rejectedGuardStages : List String
  commandExitCode : Option ℤ
  stopReasons : Finset String
  terminationError : Option String
  status : String

def report (s : Supervised) (guards : List Value) (m : Merged) : Report where
  samples := s.stats.samples
  failedSamples := s.stats.failures
  peakObservedAllocatedBytes := m.peak
  maximumSampleGap := s.stats.maxGap
  guardSamples := guards.length
  failedGuardSamples := m.failures
  rejectedGuardStages := m.rejected
  commandExitCode := s.result
  stopReasons := m.reasons
  terminationError := s.terminationError
  status := if s.result = some 0 ∧ m.reasons = ∅ ∧ s.terminationError = none then "completed"
    else "stopped"

def summarize (schedule : Schedule) (s : Supervised) :
    Except String (Report × Supervised × List Value) := do
  let guards ← schedule.guards
  let m ← guards.foldlM mergeGuard ⟨s.stats.peak,s.reasons,[],0⟩
  return (report s guards m,s,guards)

/-- The summary, with the final state and the guard events it was made from. -/
def supervise (schedule : Schedule) : Except String (Report × Supervised × List Value) :=
  match execute schedule ⟨Supervised.initial,[]⟩ with
  | .ok true h => summarize schedule h.state
  | .ok false _ => .error "the child is still running"
  | .error _ h => summarize schedule
      { h.state with reasons := insert "supervisor_error" h.state.reasons }

section Kept

def Kept (s : Supervised) : Prop :=
  ∀ v ∈ s.log, ∀ bytes, v.accounted = some (some bytes) → bytes ≤ s.stats.peak

theorem kept_stats {s : Supervised} (h : Kept s) (stats : Stats) (hp : s.stats.peak ≤ stats.peak) :
    Kept { s with stats := stats } :=
  fun v hv bytes hb => (h v hv bytes hb).trans hp

theorem measure_kept (sample : Option Value) : Triple Kept (measure sample)
    (fun v s => Kept s ∧ ∀ bytes, v.accounted = some (some bytes) → bytes ≤ s.stats.peak) Kept := by
  cases sample with
  | none =>
    refine triple_bind (M := fun _ => Kept)
      (triple_write (fun s hk => kept_stats hk _ (le_refl _))) (fun _ => ?_)
    exact triple_pure failure (fun s hk => ⟨hk,fun bytes hb => by cases hb⟩)
  | some value =>
    refine triple_bind (M := fun _ => Kept)
      (triple_write (fun s hk => kept_stats hk _ (le_refl _))) (fun _ => ?_)
    refine triple_check_then (fun _ h => h) (fun bytes hb => ?_)
    have hbytes : value.accounted.join = some bytes := context_ok.mp hb
    have hpeak : Triple Kept
        (write (fun s : Supervised => { s with stats := { s.stats with peak := max s.stats.peak bytes } }))
        (fun _ s => Kept s ∧ bytes ≤ s.stats.peak) Kept :=
      triple_write (fun s hk => ⟨kept_stats hk _ (le_max_left _ _),le_max_right _ _⟩)
    refine triple_bind hpeak (fun _ => ?_)
    refine triple_check_then (fun _ h => h.1) (fun now _ => ?_)
    have hlast : Triple (fun s => Kept s ∧ bytes ≤ s.stats.peak)
        (write (fun s : Supervised => { s with stats := s.stats.measured now }))
        (fun _ s => Kept s ∧ bytes ≤ s.stats.peak) Kept :=
      triple_write (fun s hk => ⟨kept_stats hk.1 _ (le_refl _),hk.2⟩)
    refine triple_bind hlast (fun _ => triple_pure value (fun s hk => ⟨hk.1,fun b hvb => ?_⟩))
    rw [hvb] at hbytes
    cases hbytes
    exact hk.2

theorem record_kept (sample : Option Value) (written : Except String Unit) :
    Triple Kept (record sample written) (fun _ => Kept) Kept := by
  refine triple_bind (M := fun _ => Kept) (triple_write (fun s hk => hk)) (fun _ => ?_)
  refine triple_bind (measure_kept sample) (fun value => ?_)
  refine triple_check_then (fun _ h => h.1) (fun _ _ => ?_)
  have happend : Triple
      (fun s => Kept s ∧ ∀ bytes, value.accounted = some (some bytes) → bytes ≤ s.stats.peak)
      (write (fun s : Supervised => { s with log := s.log++[value] })) (fun _ => Kept) Kept := by
    refine triple_write (fun s hk v hv bytes hb => ?_)
    rcases List.mem_append.mp hv with hv | hv
    · exact hk.1 v hv bytes hb
    · obtain rfl := List.mem_singleton.mp hv
      exact hk.2 bytes hb
  exact triple_bind happend (fun _ => triple_pure value (fun s hk => hk))

theorem refuse_kept (v : Value) : Triple Kept (refuse v) (fun _ => Kept) Kept := by
  unfold refuse
  split_ifs
  · exact triple_pure () (fun _ hk => hk)
  · refine triple_check_then (fun _ hk => hk) (fun causes _ => triple_forM (fun cause _ => ?_))
    exact triple_check_then (fun _ hk => hk) (fun text _ => triple_write (fun _ hk => hk))

theorem round_kept (r : Round) : Triple Kept (round r) (fun _ => Kept) Kept := by
  refine triple_check_then (fun _ h => h) (fun status _ => ?_)
  refine triple_bind (M := fun _ => Kept) (triple_write (fun s hk => hk)) (fun _ => ?_)
  refine triple_bind (record_kept r.sample r.written) (fun current => ?_)
  refine triple_bind (refuse_kept current) (fun _ => ?_)
  refine triple_bind (triple_write (R := fun _ => Kept) (fun s hk => ?_)) (fun _ => ?_)
  · split_ifs <;> exact hk
  · exact triple_read (fun s _ hk _ => hk) (fun s hk => hk)

theorem loop_kept (rounds : List Round) : Triple Kept (loop rounds) (fun _ => Kept) Kept := by
  induction rounds with
  | nil => exact triple_pure false (fun s hk => hk)
  | cons r rounds ih =>
    refine triple_bind (round_kept r) (fun stop => ?_)
    cases stop with
    | true => exact triple_pure true (fun s hk => hk)
    | false => exact ih

theorem execute_kept (schedule : Schedule) :
    Triple Kept (execute schedule) (fun _ => Kept) Kept := by
  refine triple_bind (record_kept schedule.first schedule.firstWritten) (fun first => ?_)
  split_ifs
  · refine triple_check_then (fun _ hk => hk) (fun _ _ => ?_)
    refine triple_bind (M := fun _ => Kept)
      ((triple_attempt (loop_kept schedule.rounds)).weaken (fun _ hk => hk) (fun r s hk => ?_)
        (fun _ hk => hk)) (fun run => ?_)
    · cases r with
      | ok => exact hk
      | error => exact hk
    refine triple_bind (triple_write (R := fun _ => Kept) (fun s hk => ?_)) (fun _ => ?_)
    · unfold terminateGroup
      split_ifs
      · cases schedule.terminate with
        | ok code => exact hk
        | error e => exact hk
      · exact hk
    · exact triple_check (fun s _ hk _ => hk) (fun s hk => hk)
  · exact triple_bind (refuse_kept first) (fun _ => triple_pure true (fun s hk => hk))

end Kept

section Reasons

def Measured (v : Value) : Prop := ∃ bytes now, v.accounted = some (some bytes) ∧ v.finished = some now

def answer (sample : Option Value) : Value := sample.getD failure

structure Noted (sample : Option Value) (written : Except String Unit) : Prop where
  measured : ∀ v, sample = some v → Measured v
  written : written = .ok ()

structure Gives (v : Value) (reason : String) : Prop where
  refused : v.admitted = false
  listed : ∃ causes, v.reasons = some causes ∧ some reason ∈ causes

/-- A refused sample gives the reason before every entry that is no text. -/
structure Told (sample : Option Value) (written : Except String Unit) (reason : String) : Prop where
  noted : Noted sample written
  refused : (answer sample).admitted = false
  listed : ∃ (texts : List String) (rest : List (Option String)),
    (answer sample).reasons = some (texts.map some++rest) ∧ reason ∈ texts

structure Passed (sample : Option Value) (result : Option ℤ) (s t : Supervised) : Prop where
  reasons : t.reasons = s.reasons
  result : t.result = result
  sampled : t.sampled = s.sampled++[sample]
  terminated : t.terminated = s.terminated
  terminationError : t.terminationError = s.terminationError

theorem measure_spec (sample : Option Value) (s : Supervised) :
    Triple (fun t => t = s) (measure sample)
      (fun v t => v = answer sample ∧ (∀ w, sample = some w → Measured w) ∧
        ∃ stats, t = { s with stats := stats })
      (fun t => (¬∀ w, sample = some w → Measured w) ∧ ∃ stats, t = { s with stats := stats }) := by
  let Same (t : Supervised) : Prop := ∃ stats, t = { s with stats := stats }
  cases sample with
  | none =>
    refine triple_bind (M := fun _ => Same) (triple_write ?_)
      (fun _ => triple_pure failure (fun t ht => ⟨rfl,(fun w hw => by cases hw),ht⟩))
    rintro t rfl
    exact ⟨_,rfl⟩
  | some value =>
    refine triple_bind (M := fun _ => Same) (triple_write ?_) (fun _ => ?_)
    · rintro t rfl
      exact ⟨_,rfl⟩
    cases hb : uint value.accounted.join with
    | error e =>
      refine fun h hs => ⟨fun hm => ?_,hs⟩
      obtain ⟨bytes,now,ha,-⟩ := hm value rfl
      rw [ha] at hb
      cases hb
    | ok bytes =>
      refine triple_ready rfl (triple_bind (M := fun _ => Same) (triple_write ?_) (fun _ => ?_))
      · rintro t ⟨stats,rfl⟩
        exact ⟨_,rfl⟩
      cases hn : uint value.finished with
      | error e =>
        refine fun h hs => ⟨fun hm => ?_,hs⟩
        obtain ⟨bytes,now,-,hf⟩ := hm value rfl
        rw [hf] at hn
        cases hn
      | ok now =>
        refine triple_ready rfl (triple_bind (M := fun _ => Same) (triple_write ?_)
          (fun _ => triple_pure value (fun t ht => ⟨rfl,fun w hw => ?_,ht⟩)))
        · rintro t ⟨stats,rfl⟩
          exact ⟨_,rfl⟩
        · obtain rfl := Option.some.inj hw
          exact ⟨bytes,now,Option.join_eq_some_iff.mp (context_ok.mp hb),context_ok.mp hn⟩

theorem record_spec (sample : Option Value) (written : Except String Unit) (s : Supervised) :
    Triple (fun t => t = s) (record sample written)
      (fun v t => v = answer sample ∧ Noted sample written ∧ Passed sample s.result s t)
      (fun t => ¬Noted sample written ∧ Passed sample s.result s t) := by
  refine triple_bind (M := fun _ t => t = { s with sampled := s.sampled++[sample] }) (triple_write ?_)
    (fun _ => ?_)
  · rintro t rfl
    rfl
  refine triple_bind ((measure_spec sample _).weaken (fun _ h => h) (fun _ _ h => h) ?_) (fun v => ?_)
  · rintro t ⟨hm,stats,rfl⟩
    exact ⟨fun hn => hm hn.measured,rfl,rfl,rfl,rfl,rfl⟩
  refine triple_from (fun t ht => ?_)
  obtain ⟨rfl,hm,stats,rfl⟩ := ht
  cases written with
  | error e =>
    refine triple_check_then ?_ (fun _ hw => by cases hw)
    rintro t rfl
    exact ⟨(fun hn => by cases hn.written),rfl,rfl,rfl,rfl,rfl⟩
  | ok =>
    refine triple_ready rfl (triple_bind
      (M := fun _ t => Noted sample (.ok ()) ∧ Passed sample s.result s t) (triple_write ?_)
      (fun _ => triple_pure (answer sample) (fun t ht => ⟨rfl,ht⟩)))
    rintro t rfl
    exact ⟨⟨hm,rfl⟩,rfl,rfl,rfl,rfl,rfl⟩

def Supervised.tell (s : Supervised) (texts : List String) : Supervised :=
  { s with reasons := s.reasons ∪ texts.toFinset }

theorem tell_nil (s : Supervised) : s.tell [] = s := by
  simp [Supervised.tell]

theorem tell_cons (s : Supervised) (text : String) (texts : List String) :
    Supervised.tell { s with reasons := insert text s.reasons } texts = s.tell (text::texts) := by
  simp [Supervised.tell]

/-- The texts are inserted up to the first entry that is none. -/
theorem insertReasons_spec (causes : List (Option String)) (s : Supervised) :
    Triple (fun t => t = s) (causes.forM insertReason)
      (fun _ t => ∃ texts : List String, causes = texts.map some ∧ t = s.tell texts)
      (fun t => ∃ (texts : List String) (rest : List (Option String)),
        causes = texts.map some++none::rest ∧ t = s.tell texts) := by
  induction causes generalizing s with
  | nil =>
    refine triple_pure () ?_
    rintro t rfl
    exact ⟨[],rfl,(tell_nil t).symm⟩
  | cons cause causes ih =>
    show Triple _ (insertReason cause >>= fun _ => causes.forM insertReason) _ _
    cases cause with
    | none =>
      rintro h rfl
      exact ⟨[],causes,rfl,(tell_nil h.state).symm⟩
    | some text =>
      have hone : Triple (fun t => t = s) (insertReason (some text))
          (fun _ t => t = { s with reasons := insert text s.reasons }) (fun _ => False) := by
        refine triple_ready rfl (triple_write ?_)
        rintro t rfl
        rfl
      refine triple_bind (hone.weaken (fun _ h => h) (fun _ _ h => h) (fun _ h => h.elim)) (fun _ =>
        (ih { s with reasons := insert text s.reasons }).weaken (fun _ h => h) ?_ ?_)
      · rintro _ t ⟨texts,rfl,rfl⟩
        exact ⟨text::texts,rfl,tell_cons s text texts⟩
      · rintro t ⟨texts,rest,rfl,rfl⟩
        exact ⟨text::texts,rest,rfl,tell_cons s text texts⟩

theorem refuse_spec (v : Value) (s : Supervised) :
    Triple (fun t => t = s) (refuse v)
      (fun _ t => v.admitted = true ∧ t = s ∨ v.admitted = false ∧
        ∃ texts : List String, v.reasons = some (texts.map some) ∧ t = s.tell texts)
      (fun t => v.admitted = false ∧ (v.reasons = none ∧ t = s ∨
        ∃ (texts : List String) (rest : List (Option String)),
          v.reasons = some (texts.map some++none::rest) ∧ t = s.tell texts)) := by
  unfold refuse
  cases hadm : v.admitted with
  | true => exact triple_pure () (fun t ht => .inl ⟨rfl,ht⟩)
  | false =>
    cases hr : v.reasons with
    | none => exact fun h hs => ⟨rfl,.inl ⟨rfl,hs⟩⟩
    | some causes =>
      refine triple_ready rfl ((insertReasons_spec causes s).weaken (fun _ h => h) ?_ ?_)
      · rintro _ t ⟨texts,rfl,rfl⟩
        exact .inr ⟨rfl,texts,rfl,rfl⟩
      · rintro t ⟨texts,rest,rfl,rfl⟩
        exact ⟨rfl,.inr ⟨texts,rest,rfl,rfl⟩⟩

theorem texts_before {texts texts' : List String} {rest rest' : List (Option String)}
    (h : texts.map some++none::rest = texts'.map some++rest') : ∀ text ∈ texts', text ∈ texts := by
  induction texts' generalizing texts with
  | nil => exact fun text ht => absurd ht List.not_mem_nil
  | cons text' texts' ih =>
    cases texts with
    | nil => cases h
    | cons text texts =>
      obtain ⟨hhead,htail⟩ := List.cons.inj h
      obtain rfl := Option.some.inj hhead
      intro x hx
      rcases List.mem_cons.mp hx with rfl | hx
      · exact List.mem_cons_self
      · exact List.mem_cons_of_mem _ (ih htail x hx)

theorem texts_all {texts texts' : List String} {rest' : List (Option String)}
    (h : texts.map some = texts'.map some++rest') : ∀ text ∈ texts', text ∈ texts := by
  intro text ht
  have hmem : some text ∈ texts.map some := by
    rw [h]
    exact List.mem_append_left _ (List.mem_map.mpr ⟨text,ht,rfl⟩)
  simpa using hmem

/-- The stop reasons are those of before and what a sample has told. -/
structure Hears (sample : Option Value) (written : Except String Unit) (s t : Supervised) : Prop where
  sampled : t.sampled = s.sampled++[sample]
  result : t.result = s.result
  reasons : ∀ reason, reason ∈ t.reasons ↔ reason ∈ s.reasons ∨ Told sample written reason

theorem hears_silent {sample : Option Value} {written : Except String Unit} {s t : Supervised}
    (hp : Passed sample s.result s t) (hn : ∀ reason, ¬Told sample written reason) :
    Hears sample written s t where
  sampled := hp.sampled
  result := hp.result
  reasons reason := by
    rw [hp.reasons]
    exact ⟨.inl,fun h => h.resolve_right (hn reason)⟩

theorem hears_tell {sample : Option Value} {written : Except String Unit} {s t : Supervised}
    (hp : Passed sample s.result s t) {texts : List String}
    (ht : ∀ reason, reason ∈ texts ↔ Told sample written reason) :
    Hears sample written s (t.tell texts) where
  sampled := hp.sampled
  result := hp.result
  reasons reason := by
    show reason ∈ t.reasons ∪ texts.toFinset ↔ _
    rw [Finset.mem_union,List.mem_toFinset,hp.reasons,ht]

theorem refuse_hears {sample : Option Value} {written : Except String Unit} {s t : Supervised}
    (hn : Noted sample written) (hp : Passed sample s.result s t) :
    Triple (fun u => u = t) (refuse (answer sample))
      (fun _ u => Hears sample written s u ∧
        ∀ reason, Gives (answer sample) reason → Told sample written reason)
      (Hears sample written s) := by
  refine (refuse_spec (answer sample) t).weaken (fun _ h => h) ?_ ?_
  · rintro _ u (⟨hadm,rfl⟩ | ⟨hadm,texts,hr,rfl⟩)
    · refine ⟨hears_silent hp (fun reason ht => ?_),fun reason hg => ?_⟩
      · rw [ht.refused] at hadm
        cases hadm
      · rw [hg.refused] at hadm
        cases hadm
    · have htold : ∀ reason ∈ texts, Told sample written reason :=
        fun reason hm => ⟨hn,hadm,texts,[],by rw [hr,List.append_nil],hm⟩
      refine ⟨hears_tell hp (fun reason => ⟨htold reason,fun h => ?_⟩),fun reason hg => ?_⟩
      · obtain ⟨texts',rest,hr',hm⟩ := h.listed
        rw [hr,Option.some.injEq] at hr'
        exact texts_all hr' reason hm
      · obtain ⟨causes,hc,hm⟩ := hg.listed
        rw [hr,Option.some.injEq] at hc
        subst hc
        exact htold reason (by simpa using hm)
  · rintro u ⟨hadm,⟨hr,rfl⟩ | ⟨texts,rest,hr,rfl⟩⟩
    · refine hears_silent hp (fun reason h => ?_)
      obtain ⟨texts,rest,hr',-⟩ := h.listed
      rw [hr] at hr'
      cases hr'
    · refine hears_tell hp (fun reason => ⟨fun hm => ⟨hn,hadm,texts,none::rest,hr,hm⟩,fun h => ?_⟩)
      obtain ⟨texts',rest',hr',hm⟩ := h.listed
      rw [hr,Option.some.injEq] at hr'
      exact texts_before hr' reason hm

end Reasons

section Rounds

structure Quiet (r : Round) : Prop where
  sample : ∃ v, r.sample = some v ∧ Measured v ∧ (v.admitted = false → v.reasons = some [])
  written : r.written = .ok ()
  interrupted : r.interrupted = false

theorem record_quiet {v : Value} (hv : Measured v) {written : Except String Unit}
    (hw : written = .ok ()) (s : Supervised) :
    Triple (fun t => t = s) (record (some v) written)
      (fun w t => w = v ∧ Passed (some v) s.result s t) (fun _ => False) := by
  have hn : Noted (some v) written := by
    refine ⟨fun w hw => ?_,hw⟩
    obtain rfl := Option.some.inj hw
    exact hv
  exact (record_spec (some v) written s).weaken (fun _ h => h) (fun _ _ h => ⟨h.1,h.2.2⟩)
    (fun _ h => h.1 hn)

theorem refuse_quiet {v : Value} (hv : v.admitted = false → v.reasons = some []) (P : Supervised → Prop) :
    Triple P (refuse v) (fun _ => P) (fun _ => False) := by
  unfold refuse
  split_ifs with hadm
  · exact triple_pure () (fun _ h => h)
  · rw [hv (by simpa using hadm)]
    exact triple_ready rfl (triple_pure () (fun _ h => h))

theorem round_quiet {r : Round} (hq : Quiet r) {status : Option ℤ} (hw : r.waited = .ok status)
    (s : Supervised) : Triple (fun t => t = s) (round r)
      (fun stop t => Passed r.sample status s t ∧
        stop = (status.isSome || decide (s.reasons ≠ ∅))) (fun _ => False) := by
  obtain ⟨v,hv,hm,href⟩ := hq.sample
  unfold round
  rw [hv]
  refine triple_ready hw ?_
  refine triple_bind (M := fun _ t => t = { s with result := status }) (triple_write ?_) (fun _ => ?_)
  · rintro t rfl
    rfl
  refine triple_bind (record_quiet hm hq.written { s with result := status }) (fun w => ?_)
  refine triple_from (fun t ht => ?_)
  obtain ⟨rfl,hp⟩ := ht
  refine triple_bind (refuse_quiet href (fun u => u = t)) (fun _ => ?_)
  refine triple_bind (M := fun _ u => u = t) (triple_write ?_) (fun _ => ?_)
  · rintro u rfl
    rw [hq.interrupted]
    rfl
  · rintro h rfl
    refine ⟨⟨hp.reasons,hp.result,hp.sampled,hp.terminated,hp.terminationError⟩,?_⟩
    rw [hp.result,hp.reasons]

theorem insertReason_found (reason : Option String) : Triple (fun _ => True) (insertReason reason)
    (fun _ t => t.reasons ≠ ∅) (fun _ => True) :=
  triple_check_then (fun _ _ => trivial)
    (fun text _ => triple_write (fun s _ => Finset.insert_ne_empty text s.reasons))

theorem refuse_found {v : Value} (hv : ¬(v.admitted = false → v.reasons = some [])) :
    Triple (fun _ => True) (refuse v) (fun _ t => t.reasons ≠ ∅) (fun _ => True) := by
  rw [Classical.not_imp] at hv
  unfold refuse
  rw [if_neg (by rw [hv.1]; simp)]
  refine triple_check_then (fun _ _ => trivial) (fun causes hc => ?_)
  cases causes with
  | nil => exact absurd (context_ok.mp hc) hv.2
  | cons cause causes =>
    have hkeep : ∀ reason ∈ causes, Triple (fun t : Supervised => t.reasons ≠ ∅) (insertReason reason)
        (fun _ t => t.reasons ≠ ∅) (fun _ => True) := fun reason _ =>
      (insertReason_found reason).weaken (fun _ _ => trivial) (fun _ _ h => h) (fun _ _ => trivial)
    exact triple_bind (insertReason_found cause) (fun _ => triple_forM hkeep)

theorem round_stop (r : Round) : Triple (fun _ => True) (round r)
    (fun stop t => stop = (t.result.isSome || decide (t.reasons ≠ ∅))) (fun _ => True) := by
  refine triple_check_then (fun _ _ => trivial) (fun status _ => ?_)
  refine triple_bind (M := fun _ _ => True) (triple_write (fun _ _ => trivial)) (fun _ => ?_)
  refine triple_bind (triple_trivial _ _) (fun v => triple_bind (triple_trivial _ _) (fun _ => ?_))
  refine triple_bind (M := fun _ _ => True) (triple_write (fun _ _ => trivial)) (fun _ => ?_)
  exact triple_read (fun t stop _ h => (Except.ok.inj h).symm) (fun _ _ => trivial)

theorem round_found {r : Round} (hq : ¬Quiet r) : Triple (fun _ => True) (round r)
    (fun _ t => t.reasons ≠ ∅) (fun _ => True) := by
  refine triple_check_then (fun _ _ => trivial) (fun status _ => ?_)
  refine triple_bind (M := fun _ _ => True) (triple_write (fun _ _ => trivial)) (fun _ => ?_)
  refine triple_from (fun s _ => triple_bind ((record_spec r.sample r.written s).weaken (fun _ h => h)
    (fun _ _ h => h) (fun _ _ => trivial)) (fun v => ?_))
  refine triple_from (fun t ht => ?_)
  obtain ⟨rfl,hn,-⟩ := ht
  cases hi : r.interrupted with
  | true =>
    refine triple_bind (triple_trivial _ (refuse (answer r.sample))) (fun _ => ?_)
    refine triple_bind (M := fun _ u => u.reasons ≠ ∅)
      (triple_write (fun u _ => Finset.insert_ne_empty _ u.reasons)) (fun _ => ?_)
    exact triple_read (fun u _ h _ => h) (fun _ _ => trivial)
  | false =>
    have hrefuse : ¬((answer r.sample).admitted = false → (answer r.sample).reasons = some []) := by
      intro href
      cases hs : r.sample with
      | none =>
        rw [hs] at href
        cases href rfl
      | some v =>
        rw [hs] at href
        exact hq ⟨⟨v,hs,hn.measured v hs,href⟩,hn.written,hi⟩
    refine triple_bind ((refuse_found hrefuse).weaken (fun _ _ => trivial) (fun _ _ h => h)
      (fun _ _ => trivial)) (fun _ => ?_)
    refine triple_bind (M := fun _ u => u.reasons ≠ ∅) (triple_write (fun u h => h)) (fun _ => ?_)
    exact triple_read (fun u _ h _ => h) (fun _ _ => trivial)

/-- Only a quiet round leaves no reason, and without one the loop goes on
while the child runs. -/
theorem round_outcome (r : Round) (s : Supervised) : Triple (fun t => t = s) (round r)
    (fun stop t => (stop = false → t.reasons = ∅) ∧ (t.reasons = ∅ →
      Quiet r ∧ ∃ status, r.waited = .ok status ∧ Passed r.sample status s t ∧ stop = status.isSome))
    (fun _ => True) := by
  have hstop : Triple (fun t => t = s) (round r) (fun stop t => stop = false → t.reasons = ∅)
      (fun _ => True) := by
    refine (round_stop r).weaken (fun _ _ => trivial) (fun stop t h hf => ?_) (fun _ h => h)
    rw [h,Bool.or_eq_false_iff] at hf
    simpa using hf.2
  suffices hpassed : Triple (fun t => t = s) (round r) (fun stop t => t.reasons = ∅ →
      Quiet r ∧ ∃ status, r.waited = .ok status ∧ Passed r.sample status s t ∧ stop = status.isSome)
      (fun _ => True) from
    (hstop.and hpassed).weaken (fun _ h => h) (fun _ _ h => h) (fun _ _ => trivial)
  by_cases hq : Quiet r
  · cases hw : r.waited with
    | error e => exact triple_check_then (fun _ _ => trivial) (fun status h => by rw [hw] at h; cases h)
    | ok status =>
      refine (round_quiet hq hw s).weaken (fun _ h => h) (fun stop t h hempty => ?_) (fun _ h => h.elim)
      rw [← h.1.reasons,hempty] at h
      exact ⟨hq,status,rfl,h.1,by simpa using h.2⟩
  · exact (round_found hq).weaken (fun _ _ => trivial) (fun _ t h hempty => absurd hempty h)
      (fun _ h => h)

end Rounds

section Runs

/-- Quiet rounds while the child runs, and a last one at its exit. -/
structure Leads (rounds before : List Round) (last : Round) (rest : List Round) (code : ℤ) : Prop where
  rounds : rounds = before++last::rest
  running : ∀ r ∈ before, r.waited = .ok none
  exited : last.waited = .ok (some code)
  quiet : ∀ r ∈ before++[last], Quiet r

/-- Where such rounds leave the supervisor. -/
structure Ended (before : List Round) (last : Round) (code : ℤ) (s t : Supervised) : Prop where
  reasons : t.reasons = s.reasons
  result : t.result = some code
  sampled : t.sampled = s.sampled++(before++[last]).map Round.sample
  terminated : t.terminated = s.terminated
  terminationError : t.terminationError = s.terminationError

theorem ended_cons {before : List Round} {r last : Round} {code : ℤ} {status : Option ℤ}
    {s t u : Supervised} (hp : Passed r.sample status s t) (h : Ended before last code t u) :
    Ended (r::before) last code s u where
  reasons := h.reasons.trans hp.reasons
  result := h.result
  sampled := by
    rw [h.sampled,hp.sampled,List.append_assoc]
    rfl
  terminated := h.terminated.trans hp.terminated
  terminationError := h.terminationError.trans hp.terminationError

theorem ended_last {last : Round} {code : ℤ} {s t : Supervised}
    (hp : Passed last.sample (some code) s t) : Ended [] last code s t :=
  ⟨hp.reasons,hp.result,hp.sampled,hp.terminated,hp.terminationError⟩

theorem loop_quiet {rounds before : List Round} {last : Round} {rest : List Round} {code : ℤ}
    (hl : Leads rounds before last rest code) {s : Supervised} (hs : s.reasons = ∅) :
    Triple (fun t => t = s) (loop rounds) (fun fin t => fin = true ∧ Ended before last code s t)
      (fun _ => False) := by
  obtain ⟨rfl,hrun,hexit,hquiet⟩ := hl
  induction before generalizing s with
  | nil =>
    refine triple_bind (round_quiet (hquiet last (by simp)) hexit s) (fun stop => ?_)
    refine triple_from (fun t ht => ?_)
    obtain ⟨hp,rfl⟩ := ht
    refine triple_pure true ?_
    rintro u rfl
    exact ⟨rfl,ended_last hp⟩
  | cons r before ih =>
    refine triple_bind (round_quiet (hquiet r (by simp)) (hrun r (by simp)) s) (fun stop => ?_)
    refine triple_from (fun t ht => ?_)
    obtain ⟨hp,hstop⟩ := ht
    have hfalse : stop = false := by simpa [hs] using hstop
    subst hfalse
    have hrest := ih (hp.reasons.trans hs) (fun q hq => hrun q (List.mem_cons_of_mem r hq))
      (fun q hq => hquiet q (List.mem_cons_of_mem r hq))
    exact hrest.weaken (fun _ h => h) (fun fin u h => ⟨h.1,ended_cons hp h.2⟩) (fun _ h => h)

/-- A loop that breaks without a reason has come to the child's exit through
quiet rounds. -/
theorem loop_found (rounds : List Round) (s : Supervised) :
    Triple (fun t => t = s) (loop rounds) (fun fin t => fin = true → t.reasons = ∅ →
      ∃ before last rest code, Leads rounds before last rest code ∧ Ended before last code s t)
      (fun _ => True) := by
  induction rounds generalizing s with
  | nil => exact triple_pure false (fun _ _ h => by cases h)
  | cons r rounds ih =>
    refine triple_bind (round_outcome r s) (fun stop => triple_from (fun t ht => ?_))
    cases stop with
    | true =>
      refine triple_pure true ?_
      rintro u rfl _ hempty
      obtain ⟨hq,status,hw,hp,hsome⟩ := ht.2 hempty
      obtain ⟨code,rfl⟩ := Option.isSome_iff_exists.mp hsome.symm
      exact ⟨[],r,rounds,code,⟨rfl,by simp,hw,by simpa using hq⟩,ended_last hp⟩
    | false =>
      obtain ⟨hq,status,hw,hp,hnone⟩ := ht.2 (ht.1 rfl)
      obtain rfl := Option.isNone_iff_eq_none.mp (by simpa using hnone.symm)
      refine (ih t).weaken (fun _ h => h) (fun fin u h hfin hempty => ?_) (fun _ h => h)
      obtain ⟨before,last,rest,code,hl,he⟩ := h hfin hempty
      refine ⟨r::before,last,rest,code,⟨by rw [hl.rounds]; rfl,?_,hl.exited,?_⟩,ended_cons hp he⟩
      · intro q hm
        rcases List.mem_cons.mp hm with rfl | hm
        · exact hw
        · exact hl.running q hm
      · intro q hm
        rcases List.mem_cons.mp hm with rfl | hm
        · exact hq
        · exact hl.quiet q hm

/-- What a run meets when nothing gives it a reason to stop before its child
has exited. -/
structure Clear (schedule : Schedule) (before : List Round) (last : Round) (rest : List Round)
    (code : ℤ) : Prop where
  first : ∃ v, schedule.first = some v ∧ Measured v ∧ v.admitted = true
  firstWritten : schedule.firstWritten = .ok ()
  spawned : schedule.spawned = .ok ()
  leads : Leads schedule.rounds before last rest code

structure Finished (schedule : Schedule) (before : List Round) (last : Round) (code : ℤ)
    (t : Supervised) : Prop where
  reasons : t.reasons = ∅
  result : t.result = some code
  sampled : t.sampled = schedule.first::(before++[last]).map Round.sample
  terminated : t.terminated = false
  terminationError : t.terminationError = none

theorem finished_of {schedule : Schedule} {before : List Round} {last : Round} {code : ℤ}
    {s t : Supervised} (hp : Passed schedule.first none Supervised.initial s)
    (he : Ended before last code s t) : Finished schedule before last code t where
  reasons := he.reasons.trans hp.reasons
  result := he.result
  sampled := by
    rw [he.sampled,hp.sampled]
    rfl
  terminated := he.terminated.trans hp.terminated
  terminationError := he.terminationError.trans hp.terminationError

theorem settle_keeps (run : Except String Bool) (terminate : Except String ℤ) (s : Supervised) :
    Triple (fun t => t = s) (settle run terminate)
      (fun _ t => t.reasons = s.reasons ∧ t.sampled = s.sampled) (fun _ => False) := by
  refine triple_write ?_
  rintro t rfl
  split_ifs
  · cases terminate with
    | ok code => exact ⟨rfl,rfl⟩
    | error e => exact ⟨rfl,rfl⟩
  · exact ⟨rfl,rfl⟩

theorem settle_finished {schedule : Schedule} {before : List Round} {last : Round} {code : ℤ}
    (terminate : Except String ℤ) (fin : Bool) :
    Triple (Finished schedule before last code) (settle (.ok fin) terminate)
      (fun _ => Finished schedule before last code) (fun _ => False) := by
  refine triple_write (fun t ht => ?_)
  rw [if_neg]
  · exact ht
  · rintro (h | h | h)
    · rw [ht.result] at h
      cases h
    · exact h ht.reasons
    · cases h

theorem execute_quiet {schedule : Schedule} {before : List Round} {last : Round} {rest : List Round}
    {code : ℤ} (hc : Clear schedule before last rest code) :
    Triple (fun t => t = Supervised.initial) (execute schedule)
      (fun fin t => fin = true ∧ Finished schedule before last code t) (fun _ => False) := by
  obtain ⟨v,hv,hm,hadm⟩ := hc.first
  unfold execute
  rw [hv]
  refine triple_bind (record_quiet hm hc.firstWritten Supervised.initial) (fun first => ?_)
  refine triple_from (fun s hs => ?_)
  obtain ⟨rfl,hp⟩ := hs
  rw [if_pos hadm]
  refine triple_ready hc.spawned ?_
  refine triple_bind (triple_attempt (loop_quiet hc.leads hp.reasons)) (fun run => ?_)
  cases run with
  | error e => exact fun _ hf => hf.elim
  | ok fin =>
    refine triple_from (fun t ht => ?_)
    obtain ⟨rfl,he⟩ := ht
    refine triple_bind ((settle_finished schedule.terminate true).weaken ?_ (fun _ _ h => h)
      (fun _ h => h)) (fun _ => triple_pure true (fun t ht => ⟨rfl,ht⟩))
    rintro u rfl
    exact finished_of (hv ▸ hp) he

theorem execute_found (schedule : Schedule) :
    Triple (fun t => t = Supervised.initial) (execute schedule)
      (fun fin t => fin = true → t.reasons = ∅ → t.result ≠ none →
        ∃ before last rest code, Clear schedule before last rest code ∧
          Finished schedule before last code t) (fun _ => True) := by
  by_cases hclear : schedule.firstWritten = .ok () ∧
      ∃ v, schedule.first = some v ∧ Measured v ∧ v.admitted = true
  · obtain ⟨hw,v,hv,hm,hadm⟩ := hclear
    unfold execute
    rw [hv]
    refine triple_bind ((record_quiet hm hw Supervised.initial).weaken (fun _ h => h)
      (fun _ _ h => h) (fun _ h => h.elim)) (fun first => ?_)
    refine triple_from (fun s hs => ?_)
    obtain ⟨rfl,hp⟩ := hs
    rw [if_pos hadm]
    refine triple_check_then (fun _ _ => trivial) (fun _ hspawned => ?_)
    refine triple_bind (triple_attempt (loop_found schedule.rounds s)) (fun run => ?_)
    cases run with
    | error e =>
      refine triple_bind (triple_trivial _ _) (fun _ => ?_)
      exact triple_check (fun _ _ _ h => by cases h) (fun _ _ => trivial)
    | ok fin =>
      refine triple_from (fun t ht => ?_)
      by_cases hdone : fin = true ∧ t.reasons = ∅
      · obtain ⟨before,last,rest,code,hl,he⟩ := ht hdone.1 hdone.2
        have hfin := finished_of (hv ▸ hp : Passed schedule.first none Supervised.initial s) he
        refine triple_bind ((settle_finished schedule.terminate fin).weaken (by rintro _ rfl; exact hfin)
          (fun _ _ h => h) (fun _ h => h.elim)) (fun _ => triple_pure fin (fun u hu _ _ _ => ?_))
        exact ⟨before,last,rest,code,⟨⟨_,hv,hm,hadm⟩,hw,hspawned,hl⟩,hu⟩
      · refine triple_bind ((settle_keeps (.ok fin) schedule.terminate t).weaken (fun _ h => h)
          (fun _ _ h => h) (fun _ h => h.elim)) (fun _ => triple_pure fin (fun u hu hfin hempty => ?_))
        exact absurd ⟨hfin,hu.1 ▸ hempty⟩ hdone
  · refine triple_bind ((record_spec schedule.first schedule.firstWritten Supervised.initial).weaken
      (fun _ h => h) (fun _ _ h => h) (fun _ _ => trivial)) (fun first => ?_)
    refine triple_from (fun s hs => ?_)
    obtain ⟨rfl,hn,hp⟩ := hs
    have hrefused : (answer schedule.first).admitted = false := by
      cases hf : schedule.first with
      | none => rfl
      | some v =>
        by_contra hadm
        exact hclear ⟨hn.written,v,hf,hn.measured v hf,by simpa [answer] using hadm⟩
    rw [if_neg (by rw [hrefused]; simp)]
    refine triple_bind (((refuse_hears hn hp).weaken (fun _ h => h) (fun _ _ h => h.1.result)
      (fun _ _ => trivial)) : Triple _ _ (fun _ t => t.result = none) _) (fun _ => ?_)
    exact triple_pure true (fun t ht _ _ hresult => absurd ht hresult)

end Runs

section Heard

/-- Every reason that the refused samples give is a stop reason. -/
def Heard (s : Supervised) : Prop :=
  ∀ sample ∈ s.sampled, ∀ reason, Gives (answer sample) reason → reason ∈ s.reasons

/-- The same, but for what one sample gives and has not told. -/
def HeardBut (sample : Option Value) (written : Except String Unit) (s : Supervised) : Prop :=
  ∀ other ∈ s.sampled, ∀ reason, Gives (answer other) reason →
    reason ∈ s.reasons ∨ other = sample ∧ ¬Told sample written reason

variable {sample : Option Value} {written : Except String Unit} {s t : Supervised}

theorem heardBut_of (hs : Heard s) (h : Hears sample written s t) : HeardBut sample written t := by
  intro other ho reason hg
  rw [h.sampled,List.mem_append,List.mem_singleton] at ho
  rw [h.reasons]
  rcases ho with ho | rfl
  · exact .inl (.inl (hs other ho reason hg))
  · by_cases ht : Told other written reason
    · exact .inl (.inr ht)
    · exact .inr ⟨rfl,ht⟩

theorem heard_of (hs : Heard s) (h : Hears sample written s t)
    (hall : ∀ reason, Gives (answer sample) reason → Told sample written reason) : Heard t := by
  intro other ho reason hg
  rcases heardBut_of hs h other ho reason hg with hm | ⟨rfl,hn⟩
  · exact hm
  · exact absurd (hall reason hg) hn

theorem hears_unnoted (hp : Passed sample s.result s t) (hn : ¬Noted sample written) :
    Hears sample written s t := hears_silent hp (fun _ ht => hn ht.noted)

structure Reached (rounds before : List Round) (r : Round) (rest : List Round) : Prop where
  rounds : rounds = before++r::rest
  quiet : ∀ q ∈ before, Quiet q ∧ q.waited = .ok none
  waited : ∃ status, r.waited = .ok status

theorem round_heard (hs : Heard s) (r : Round) : Triple (fun t => t = s) (round r) (fun _ => Heard)
    (fun t => Heard t ∨ (∃ status, r.waited = .ok status) ∧ HeardBut r.sample r.written t) := by
  refine triple_check_then (fun t ht => .inl (ht ▸ hs)) (fun status hw => ?_)
  have hs' : Heard { s with result := status } := hs
  refine triple_bind (M := fun _ t => t = { s with result := status }) (triple_write ?_) (fun _ => ?_)
  · rintro t rfl
    rfl
  refine triple_bind ((record_spec r.sample r.written _).weaken (fun _ h => h) (fun _ _ h => h)
    (fun t h => .inr ⟨⟨status,hw⟩,heardBut_of hs' (hears_unnoted h.2 h.1)⟩)) (fun v => ?_)
  refine triple_from (fun t ht => ?_)
  obtain ⟨rfl,hn,hp⟩ := ht
  refine triple_bind ((refuse_hears hn hp).weaken (fun _ h => h) (fun _ u h => heard_of hs' h.1 h.2)
    (fun u h => .inr ⟨⟨status,hw⟩,heardBut_of hs' h⟩)) (fun _ => ?_)
  refine triple_bind (triple_write (R := fun _ => Heard) (fun u hu => ?_)) (fun _ => ?_)
  · split_ifs
    · exact fun other ho reason hg => Finset.mem_insert_of_mem (hu other ho reason hg)
    · exact hu
  · exact triple_read (fun u _ hu _ => hu) (fun u hu => .inl hu)

theorem loop_heard (rounds : List Round) (hs : Heard s) : Triple (fun t => t = s) (loop rounds)
    (fun _ => Heard) (fun t => Heard t ∨
      ∃ before r rest, Reached rounds before r rest ∧ HeardBut r.sample r.written t) := by
  induction rounds generalizing s with
  | nil => exact triple_pure false (fun t ht => ht ▸ hs)
  | cons r rounds ih =>
    refine triple_bind (((round_heard hs r).and (round_outcome r s)).weaken (fun _ h => h)
      (fun _ _ h => h) (fun t h => h.1.imp id (fun h =>
        ⟨[],r,rounds,⟨rfl,by simp,h.1⟩,h.2⟩))) (fun stop => triple_from (fun t ht => ?_))
    obtain ⟨hheard,hempty,hround⟩ := ht
    cases stop with
    | true => exact triple_pure true (fun u hu => hu ▸ hheard)
    | false =>
      obtain ⟨hq,status,hw,-,hnone⟩ := hround (hempty rfl)
      obtain rfl := Option.isNone_iff_eq_none.mp (by simpa using hnone.symm)
      refine (ih hheard).weaken (fun _ h => h) (fun _ _ h => h) (fun u h => h.imp id ?_)
      rintro ⟨before,q,rest,hreach,hbut⟩
      refine ⟨r::before,q,rest,⟨by rw [hreach.rounds]; rfl,fun p hp => ?_,hreach.waited⟩,hbut⟩
      rcases List.mem_cons.mp hp with rfl | hp
      · exact ⟨hq,hw⟩
      · exact hreach.quiet p hp

inductive Taken (schedule : Schedule) : Option Value → Except String Unit → Prop
  | first : Taken schedule schedule.first schedule.firstWritten
  | round {v : Value} {before rest : List Round} {r : Round} : schedule.first = some v →
      Measured v → v.admitted = true → schedule.firstWritten = .ok () → schedule.spawned = .ok () →
      Reached schedule.rounds before r rest → Taken schedule r.sample r.written

theorem execute_heard (schedule : Schedule) :
    Triple (fun t => t = Supervised.initial) (execute schedule) (fun _ => Heard)
      (fun t => Heard t ∨ ∃ sample written, Taken schedule sample written ∧
        HeardBut sample written t) := by
  have hs : Heard Supervised.initial := fun _ h => absurd h List.not_mem_nil
  refine triple_bind ((record_spec schedule.first schedule.firstWritten Supervised.initial).weaken
    (fun _ h => h) (fun _ _ h => h)
    (fun t h => .inr ⟨_,_,.first,heardBut_of hs (hears_unnoted h.2 h.1)⟩)) (fun first => ?_)
  refine triple_from (fun t ht => ?_)
  obtain ⟨rfl,hn,hp⟩ := ht
  split_ifs with hadm
  · have hsilent : Hears schedule.first schedule.firstWritten Supervised.initial t := by
      refine hears_silent hp (fun reason h => ?_)
      rw [h.refused] at hadm
      cases hadm
    have ht : Heard t := by
      refine heard_of hs hsilent (fun reason hg => ?_)
      rw [hg.refused] at hadm
      cases hadm
    refine triple_check_then (fun u hu => .inl (hu ▸ ht)) (fun _ hspawned => ?_)
    refine triple_bind (triple_attempt (loop_heard schedule.rounds ht)) (fun run => ?_)
    refine triple_from (fun u hu => ?_)
    refine triple_bind ((settle_keeps run schedule.terminate u).weaken (fun _ h => h)
      (fun _ _ h => h) (fun _ h => h.elim)) (fun _ => ?_)
    cases run with
    | ok fin => exact triple_pure fin (fun w hw => by unfold Heard; rw [hw.1,hw.2]; exact hu)
    | error e =>
      refine fun h hw => ?_
      show Heard h.state ∨ _
      unfold Heard HeardBut
      rw [hw.1,hw.2]
      refine hu.imp id ?_
      rintro ⟨before,r,rest,hreach,hbut⟩
      cases hf : schedule.first with
      | none =>
        rw [hf] at hadm
        cases hadm
      | some v =>
        rw [hf] at hadm
        exact ⟨_,_,.round hf (hn.measured v hf) hadm hn.written hspawned hreach,hbut⟩
  · exact triple_bind ((refuse_hears hn hp).weaken (fun _ h => h) (fun _ u h => heard_of hs h.1 h.2)
      (fun u h => .inr ⟨_,_,.first,heardBut_of hs h⟩)) (fun _ => triple_pure true (fun _ h => h))

end Heard

section Lost
variable {sample : Option Value} {written : Except String Unit} {reason : String} {s t : Supervised}

/-- The sample has been taken, and what it has told is all that there is. -/
structure Only (sample : Option Value) (written : Except String Unit) (t : Supervised) : Prop where
  sampled : sample ∈ t.sampled
  reasons : ∀ reason ∈ t.reasons, Told sample written reason

theorem only_of (h : Hears sample written s t) (hs : s.reasons = ∅) : Only sample written t where
  sampled := by simp [h.sampled]
  reasons reason hm := by
    rw [h.reasons,hs] at hm
    exact hm.resolve_left (Finset.notMem_empty reason)

theorem round_lost {r : Round} (hg : Gives (answer r.sample) reason)
    (hn : ¬Told r.sample r.written reason) {status : Option ℤ} (hw : r.waited = .ok status)
    (hs : s.reasons = ∅) : Triple (fun t => t = s) (round r) (fun _ _ => False)
      (Only r.sample r.written) := by
  refine triple_ready hw ?_
  refine triple_bind (M := fun _ t => t = { s with result := status }) (triple_write ?_) (fun _ => ?_)
  · rintro t rfl
    rfl
  refine triple_bind ((record_spec r.sample r.written _).weaken (fun _ h => h) (fun _ _ h => h)
    (fun t h => only_of (hears_unnoted h.2 h.1) hs)) (fun v => ?_)
  refine triple_from (fun t ht => ?_)
  obtain ⟨rfl,hnoted,hp⟩ := ht
  refine triple_bind (M := fun _ _ => False) ((refuse_hears hnoted hp).weaken (fun _ h => h)
    (fun _ u h => hn (h.2 reason hg)) (fun u h => only_of h hs)) (fun _ _ hf => hf.elim)

theorem loop_lost {rounds before rest : List Round} {r : Round} (hr : Reached rounds before r rest)
    (hg : Gives (answer r.sample) reason) (hn : ¬Told r.sample r.written reason)
    (hs : s.reasons = ∅) : Triple (fun t => t = s) (loop rounds) (fun _ _ => False)
      (Only r.sample r.written) := by
  obtain ⟨rfl,hquiet,status,hw⟩ := hr
  induction before generalizing s with
  | nil => exact triple_bind (round_lost hg hn hw hs) (fun _ _ hf => hf.elim)
  | cons q before ih =>
    obtain ⟨hq,hnone⟩ := hquiet q List.mem_cons_self
    refine triple_bind ((round_quiet hq hnone s).weaken (fun _ h => h) (fun _ _ h => h)
      (fun _ h => h.elim)) (fun stop => triple_from (fun t ht => ?_))
    obtain ⟨hp,hstop⟩ := ht
    have hfalse : stop = false := by simpa [hs] using hstop
    subst hfalse
    exact ih (hp.reasons.trans hs) (fun p hm => hquiet p (List.mem_cons_of_mem q hm))

theorem execute_lost {schedule : Schedule} (ht : Taken schedule sample written)
    (hg : Gives (answer sample) reason) (hn : ¬Told sample written reason) :
    Triple (fun t => t = Supervised.initial) (execute schedule) (fun _ _ => False)
      (Only sample written) := by
  cases ht with
  | first =>
    refine triple_bind ((record_spec schedule.first schedule.firstWritten Supervised.initial).weaken
      (fun _ h => h) (fun _ _ h => h)
      (fun t h => only_of (hears_unnoted h.2 h.1) rfl)) (fun first => ?_)
    refine triple_from (fun t ht => ?_)
    obtain ⟨rfl,hnoted,hp⟩ := ht
    rw [if_neg (by rw [hg.refused]; simp)]
    exact triple_bind (M := fun _ _ => False) ((refuse_hears hnoted hp).weaken (fun _ h => h)
      (fun _ u h => hn (h.2 reason hg)) (fun u h => only_of h rfl)) (fun _ _ hf => hf.elim)
  | @round v before rest r hf hm hadm hw hspawned hreach =>
    unfold execute
    rw [hf]
    refine triple_bind ((record_quiet hm hw Supervised.initial).weaken (fun _ h => h)
      (fun _ _ h => h) (fun _ h => h.elim)) (fun first => ?_)
    refine triple_from (fun t ht => ?_)
    obtain ⟨rfl,hp⟩ := ht
    rw [if_pos hadm]
    refine triple_ready hspawned (triple_bind (triple_attempt
      (loop_lost hreach hg hn hp.reasons)) (fun run => ?_))
    cases run with
    | ok fin => exact fun _ hf => hf.elim
    | error e =>
      refine triple_from (fun u hu => triple_bind ((settle_keeps _ schedule.terminate u).weaken
        (fun _ h => h) (fun _ _ h => h) (fun _ h => h.elim)) (fun _ => ?_))
      exact fun h hk => ⟨hk.2 ▸ hu.sampled,hk.1 ▸ hu.reasons⟩

end Lost

section Merge

structure Readable (guard : Value) : Prop where
  accounted : guard.accounted ≠ some none
  reasons : ∃ causes, guard.reasons = some causes ∧ (guard.admitted = false →
    (∃ texts : List String, causes = texts.map some) ∧ ∃ stage, guard.stage = some stage)

structure Silent (guard : Value) : Prop extends Readable guard where
  silent : ∀ reason, ¬Gives guard reason

/-- What the merge of some guard events makes of what was there. -/
structure Merges (m : Merged) (guards : List Value) (m' : Merged) : Prop where
  peak : m.peak ≤ m'.peak
  peaks : ∀ g ∈ guards, ∀ bytes, g.accounted = some (some bytes) → bytes ≤ m'.peak
  reasons : ∀ reason, reason ∈ m'.reasons ↔ reason ∈ m.reasons ∨ ∃ g ∈ guards, Gives g reason
  readable : ∀ g ∈ guards, Readable g

theorem mergePeak_ok {peak : ℕ} {accounted : Option (Option ℕ)} {r : ℕ}
    (h : mergePeak peak accounted = .ok r) : peak ≤ r ∧ accounted ≠ some none ∧
      ∀ bytes, accounted = some (some bytes) → bytes ≤ r := by
  cases accounted with
  | none =>
    cases h
    exact ⟨le_refl _,by simp,fun bytes hb => by cases hb⟩
  | some bytes =>
    obtain ⟨b,hb,h⟩ := bind_ok.mp h
    obtain rfl := pure_ok.mp h
    have hb := context_ok.mp hb
    subst hb
    refine ⟨le_max_left _ _,by simp,fun b' hb' => ?_⟩
    cases hb'
    exact le_max_right _ _

theorem texts_of {causes : List (Option String)} {texts : List String}
    (h : causes.mapM (fun cause => context cause "invalid capacity guard reason") = .ok texts) :
    causes = texts.map some := by
  have hall := mapM_ok.mp h
  clear h
  induction hall with
  | nil => rfl
  | cons ha _ ih => rw [List.map_cons,context_ok.mp ha,← ih]

theorem gives_texts {guard : Value} (hadm : guard.admitted = false) {texts : List String}
    (ht : guard.reasons = some (texts.map some)) (reason : String) :
    Gives guard reason ↔ reason ∈ texts := by
  constructor
  · rintro ⟨-,causes,hc,hm⟩
    rw [ht,Option.some.injEq] at hc
    subst hc
    simpa using hm
  · exact fun hm => ⟨hadm,_,ht,List.mem_map.mpr ⟨reason,hm,rfl⟩⟩

theorem mergeGuard_spec {m m' : Merged} {guard : Value} (h : mergeGuard m guard = .ok m') :
    Merges m [guard] m' := by
  obtain ⟨peak,hpeak,h⟩ := bind_ok.mp h
  obtain ⟨hle,hacc,hbytes⟩ := mergePeak_ok hpeak
  obtain ⟨causes,hcauses,h⟩ := bind_ok.mp h
  have hcauses := context_ok.mp hcauses
  cases hadm : guard.admitted with
  | true =>
    simp only [hadm,if_true] at h
    obtain rfl := pure_ok.mp h
    refine ⟨hle,by simpa using hbytes,fun reason => ?_,?_⟩
    · simp only [List.mem_singleton,exists_eq_left]
      refine ⟨.inl,fun h => h.resolve_right (fun hg => ?_)⟩
      rw [hg.refused] at hadm
      cases hadm
    · simp only [List.mem_singleton,forall_eq]
      exact ⟨hacc,causes,hcauses,fun ha => by rw [hadm] at ha; cases ha⟩
  | false =>
    simp only [hadm,Bool.false_eq_true,if_false] at h
    obtain ⟨stage,hstage,h⟩ := bind_ok.mp h
    obtain ⟨texts,htexts,h⟩ := bind_ok.mp h
    obtain rfl := pure_ok.mp h
    rw [texts_of htexts] at hcauses
    refine ⟨hle,by simpa using hbytes,fun reason => ?_,?_⟩
    · simp only [List.mem_singleton,exists_eq_left,gives_texts hadm hcauses,Finset.mem_union,
        List.mem_toFinset]
    · simp only [List.mem_singleton,forall_eq]
      exact ⟨hacc,_,hcauses,fun _ => ⟨⟨texts,rfl⟩,stage,context_ok.mp hstage⟩⟩

theorem merges_cons {m m' m'' : Merged} {guard : Value} {guards : List Value}
    (h : Merges m [guard] m') (h' : Merges m' guards m'') : Merges m (guard::guards) m'' := by
  refine ⟨h.peak.trans h'.peak,fun g hg bytes hb => ?_,fun reason => ?_,fun g hg => ?_⟩
  · rcases List.mem_cons.mp hg with rfl | hg
    · exact (h.peaks g (by simp) bytes hb).trans h'.peak
    · exact h'.peaks g hg bytes hb
  · rw [h'.reasons,h.reasons]
    simp only [List.mem_cons,List.not_mem_nil,or_false,exists_eq_left,exists_eq_or_imp,or_assoc]
  · rcases List.mem_cons.mp hg with rfl | hg
    · exact h.readable g (by simp)
    · exact h'.readable g hg

theorem mergeGuards_spec (guards : List Value) {m m' : Merged}
    (h : guards.foldlM mergeGuard m = .ok m') : Merges m guards m' := by
  induction guards generalizing m with
  | nil =>
    rw [List.foldlM_nil,pure_ok] at h
    subst h
    exact ⟨le_refl _,by simp,by simp,by simp⟩
  | cons guard guards ih =>
    rw [List.foldlM_cons] at h
    obtain ⟨middle,hstep,h⟩ := bind_ok.mp h
    exact merges_cons (mergeGuard_spec hstep) (ih h)

theorem mergeGuard_returns {guard : Value} (hr : Readable guard) (m : Merged) :
    ∃ m', mergeGuard m guard = .ok m' := by
  obtain ⟨hacc,causes,hcauses,hadm⟩ := hr
  have hpeak : ∃ peak, mergePeak m.peak guard.accounted = .ok peak := by
    cases ha : guard.accounted with
    | none => exact ⟨_,rfl⟩
    | some bytes =>
      cases bytes with
      | none => exact absurd ha hacc
      | some bytes => exact ⟨_,rfl⟩
  obtain ⟨peak,hpeak⟩ := hpeak
  unfold mergeGuard
  rw [hpeak,hcauses]
  cases ha : guard.admitted with
  | true => exact ⟨_,rfl⟩
  | false =>
    obtain ⟨⟨texts,rfl⟩,stage,hstage⟩ := hadm ha
    have htexts : (texts.map some).mapM (fun cause => context cause "invalid capacity guard reason") =
        .ok texts := by
      rw [mapM_ok,List.forall₂_map_left_iff]
      exact List.forall₂_same.mpr (fun _ _ => rfl)
    rw [hstage]
    simp only [Bool.false_eq_true,if_false]
    exact ⟨_,bind_ok.mpr ⟨_,rfl,bind_ok.mpr ⟨_,rfl,bind_ok.mpr ⟨_,rfl,bind_ok.mpr ⟨_,htexts,rfl⟩⟩⟩⟩⟩

theorem mergeGuards_returns (guards : List Value) (hr : ∀ g ∈ guards, Readable g) (m : Merged) :
    ∃ m', guards.foldlM mergeGuard m = .ok m' := by
  induction guards generalizing m with
  | nil => exact ⟨m,rfl⟩
  | cons guard guards ih =>
    obtain ⟨middle,hstep⟩ := mergeGuard_returns (hr guard List.mem_cons_self) m
    obtain ⟨m',hm'⟩ := ih (fun g hg => hr g (List.mem_cons_of_mem _ hg)) middle
    rw [List.foldlM_cons]
    exact ⟨m',bind_ok.mpr ⟨middle,hstep,hm'⟩⟩

end Merge

/-- What a summary is to tell: that it is completed only after the child's own
exit with code 0 and with everything measured and admitted, and otherwise every
reason, and a peak above every accounted total. -/
structure Honest (schedule : Schedule) : Prop where
  completed : ∀ out s guards, supervise schedule = .ok (out,s,guards) → out.status = "completed" →
    (∃ r ∈ schedule.rounds, r.waited = .ok (some 0)) ∧ s.terminated = false ∧
      out.commandExitCode = some 0 ∧ out.terminationError = none ∧
      (∀ sample ∈ s.sampled, ∃ v, sample = some v ∧ v.admitted = true) ∧
      ∀ g ∈ guards, g.admitted = true
  reasons : ∀ out s guards, supervise schedule = .ok (out,s,guards) →
    ∀ v ∈ s.sampled.map answer++guards, ∀ reason, Gives v reason → reason ∈ out.stopReasons
  peak : ∀ out s guards, supervise schedule = .ok (out,s,guards) →
    ∀ v ∈ s.log++guards, ∀ bytes, v.accounted = some (some bytes) →
      bytes ≤ out.peakObservedAllocatedBytes

section Summary
variable {schedule : Schedule} {out : Report} {s : Supervised} {guards : List Value}

theorem summarize_ok {t : Supervised} (h : summarize schedule t = .ok (out,s,guards)) :
    schedule.guards = .ok guards ∧ s = t ∧ ∃ m, out = report t guards m ∧
      Merges ⟨t.stats.peak,t.reasons,[],0⟩ guards m := by
  obtain ⟨gs,hgs,h⟩ := bind_ok.mp h
  obtain ⟨m,hm,h⟩ := bind_ok.mp h
  cases pure_ok.mp h
  exact ⟨hgs,rfl,m,rfl,mergeGuards_spec _ hm⟩

theorem summarize_returns (hg : schedule.guards = .ok guards) (hr : ∀ g ∈ guards, Readable g)
    (t : Supervised) : ∃ m, summarize schedule t = .ok (report t guards m,t,guards) ∧
      Merges ⟨t.stats.peak,t.reasons,[],0⟩ guards m := by
  obtain ⟨m,hm⟩ := mergeGuards_returns guards hr ⟨t.stats.peak,t.reasons,[],0⟩
  exact ⟨m,bind_ok.mpr ⟨guards,hg,bind_ok.mpr ⟨m,hm,rfl⟩⟩,mergeGuards_spec _ hm⟩

/-- A summary is made from the state in which the run returned, or from the
one in which it failed and the reason for that. -/
theorem supervise_ok (h : supervise schedule = .ok (out,s,guards)) :
    Kept s ∧ summarize schedule s = .ok (out,s,guards) ∧
      ((∃ h', execute schedule ⟨Supervised.initial,[]⟩ = .ok true h' ∧ h'.state = s) ∨
        ∃ e h', execute schedule ⟨Supervised.initial,[]⟩ = .error e h' ∧
          s = { h'.state with reasons := insert "supervisor_error" h'.state.reasons }) := by
  have hstart : Kept Supervised.initial := fun v hv => absurd hv List.not_mem_nil
  have hkept := execute_kept schedule ⟨Supervised.initial,[]⟩ hstart
  unfold supervise at h
  cases he : execute schedule ⟨Supervised.initial,[]⟩ with
  | ok fin h' =>
    rw [he] at h hkept
    cases fin with
    | false => cases h
    | true =>
      obtain ⟨-,rfl,-⟩ := summarize_ok h
      exact ⟨hkept,h,.inl ⟨h',rfl,rfl⟩⟩
  | error e h' =>
    rw [he] at h hkept
    obtain ⟨-,rfl,-⟩ := summarize_ok h
    exact ⟨hkept,h,.inr ⟨e,h',rfl,rfl⟩⟩

theorem summary_reasons (h : supervise schedule = .ok (out,s,guards)) :
    ∀ v ∈ s.sampled.map answer++guards, ∀ reason, Gives v reason → reason ∈ out.stopReasons ∨
      "supervisor_error" ∈ out.stopReasons ∧
        ∃ sample written, Taken schedule sample written ∧ v = answer sample ∧
          ¬Told sample written reason := by
  obtain ⟨-,hsum,hrun⟩ := supervise_ok h
  obtain ⟨-,-,m,rfl,hm⟩ := summarize_ok hsum
  intro v hv reason hg
  have hheard := execute_heard schedule
  rcases List.mem_append.mp hv with hv | hv
  · obtain ⟨sample,hs,rfl⟩ := List.mem_map.mp hv
    rcases hrun with ⟨h',he,rfl⟩ | ⟨e,h',he,rfl⟩
    · exact .inl ((hm.reasons reason).mpr (.inl (hheard.ok (h := ⟨Supervised.initial,[]⟩) rfl he
        sample hs reason hg)))
    · rcases hheard.error (h := ⟨Supervised.initial,[]⟩) rfl he with hall | ⟨lost,written,htaken,hbut⟩
      · exact .inl ((hm.reasons reason).mpr (.inl (Finset.mem_insert_of_mem
          (hall sample hs reason hg))))
      · rcases hbut sample hs reason hg with hin | ⟨rfl,hn⟩
        · exact .inl ((hm.reasons reason).mpr (.inl (Finset.mem_insert_of_mem hin)))
        · exact .inr ⟨(hm.reasons _).mpr (.inl (Finset.mem_insert_self _ _)),
            sample,written,htaken,rfl,hn⟩
  · exact .inl ((hm.reasons reason).mpr (.inr ⟨v,hv,hg⟩))

theorem lost_summary {sample : Option Value} {written : Except String Unit} {reason : String}
    (ht : Taken schedule sample written) (hg : Gives (answer sample) reason)
    (hn : ¬Told sample written reason) (hguards : schedule.guards = .ok guards)
    (hr : ∀ g ∈ guards, Readable g) : ∃ out s, supervise schedule = .ok (out,s,guards) ∧
      sample ∈ s.sampled ∧ (reason ∈ out.stopReasons → reason = "supervisor_error" ∨
        ∃ g ∈ guards, Gives g reason) := by
  have hlost := execute_lost ht hg hn ⟨Supervised.initial,[]⟩ rfl
  unfold supervise
  cases he : execute schedule ⟨Supervised.initial,[]⟩ with
  | ok fin h' =>
    rw [he] at hlost
    exact hlost.elim
  | error e h' =>
    rw [he] at hlost
    obtain ⟨m,hsum,hm⟩ := summarize_returns hguards hr
      { h'.state with reasons := insert "supervisor_error" h'.state.reasons }
    refine ⟨_,_,hsum,hlost.sampled,fun hin => ?_⟩
    rcases (hm.reasons reason).mp hin with hin | hin
    · rcases Finset.mem_insert.mp hin with rfl | hin
      · exact .inl rfl
      · exact absurd (hlost.reasons reason hin) hn
    · exact .inr hin

theorem summary_peak (h : supervise schedule = .ok (out,s,guards)) :
    ∀ v ∈ s.log++guards, ∀ bytes, v.accounted = some (some bytes) →
      bytes ≤ out.peakObservedAllocatedBytes := by
  obtain ⟨hkept,hsum,-⟩ := supervise_ok h
  obtain ⟨-,-,m,rfl,hm⟩ := summarize_ok hsum
  intro v hv bytes hb
  rcases List.mem_append.mp hv with hv | hv
  · exact (hkept v hv bytes hb).trans hm.peak
  · exact hm.peaks v hv bytes hb

/-- A completed summary comes from a clear run whose guard events are silent. -/
theorem summary_completed (h : supervise schedule = .ok (out,s,guards))
    (hc : out.status = "completed") : schedule.guards = .ok guards ∧ (∀ g ∈ guards, Silent g) ∧
      out.commandExitCode = some 0 ∧ out.terminationError = none ∧
      ∃ before last rest, Clear schedule before last rest 0 ∧ Finished schedule before last 0 s := by
  obtain ⟨-,hsum,hrun⟩ := supervise_ok h
  obtain ⟨hguards,-,m,rfl,hm⟩ := summarize_ok hsum
  have hdone : s.result = some 0 ∧ m.reasons = ∅ ∧ s.terminationError = none := by
    by_contra hn
    have hstopped : (report s guards m).status = "stopped" := if_neg hn
    rw [hstopped] at hc
    simp at hc
  have hnone : ∀ reason, ¬(reason ∈ s.reasons ∨ ∃ g ∈ guards, Gives g reason) := by
    intro reason hr
    have := (hm.reasons reason).mpr hr
    rw [hdone.2.1] at this
    exact Finset.notMem_empty reason this
  have hempty : s.reasons = ∅ :=
    Finset.eq_empty_of_forall_notMem (fun reason hr => hnone reason (.inl hr))
  refine ⟨hguards,fun g hg => ⟨hm.readable g hg,fun reason hr => hnone reason (.inr ⟨g,hg,hr⟩)⟩,
    hdone.1,hdone.2.2,?_⟩
  rcases hrun with ⟨h',he,rfl⟩ | ⟨e,h',he,rfl⟩
  · have hfound := (execute_found schedule).ok (h := ⟨Supervised.initial,[]⟩) rfl he
    obtain ⟨before,last,rest,code,hclear,hfin⟩ := hfound rfl hempty (by rw [hdone.1]; simp)
    have hcode : code = 0 := Option.some.inj (hfin.result.symm.trans hdone.1)
    subst hcode
    exact ⟨before,last,rest,hclear,hfin⟩
  · exact absurd hempty (Finset.insert_ne_empty _ _)

theorem clear_completed {before : List Round} {last : Round} {rest : List Round}
    (hc : Clear schedule before last rest 0) (hg : schedule.guards = .ok guards)
    (hs : ∀ g ∈ guards, Silent g) : ∃ out s, supervise schedule = .ok (out,s,guards) ∧
      out.status = "completed" ∧ Finished schedule before last 0 s := by
  have hquiet := execute_quiet hc ⟨Supervised.initial,[]⟩ rfl
  unfold supervise
  cases he : execute schedule ⟨Supervised.initial,[]⟩ with
  | error e h' =>
    rw [he] at hquiet
    exact hquiet.elim
  | ok fin h' =>
    rw [he] at hquiet
    obtain ⟨rfl,hfin⟩ := hquiet
    obtain ⟨m,hsum,hm⟩ := summarize_returns hg (fun g hm => (hs g hm).toReadable) h'.state
    have hnone : m.reasons = ∅ := by
      refine Finset.eq_empty_of_forall_notMem (fun reason hr => ?_)
      rcases (hm.reasons reason).mp hr with hr | ⟨g,hgm,hr⟩
      · rw [hfin.reasons] at hr
        exact Finset.notMem_empty reason hr
      · exact (hs g hgm).silent reason hr
    exact ⟨_,_,hsum,if_pos ⟨hfin.result,hnone,hfin.terminationError⟩,hfin⟩

end Summary

/-- A summary is honest exactly when, in a run that nothing gives a reason to
stop, nothing is refused, and when no reason of a sample is lost in a run that
fails. -/
theorem honest_iff (schedule : Schedule) : Honest schedule ↔
    (∀ before last rest guards, Clear schedule before last rest 0 → schedule.guards = .ok guards →
      (∀ g ∈ guards, Silent g) →
      (∀ r ∈ before++[last], ∀ v, r.sample = some v → v.admitted = true) ∧
        ∀ g ∈ guards, g.admitted = true) ∧
    ∀ guards, schedule.guards = .ok guards → (∀ g ∈ guards, Readable g) →
      ∀ sample written, Taken schedule sample written → ∀ reason, Gives (answer sample) reason →
        Told sample written reason ∨ reason = "supervisor_error" ∨ ∃ g ∈ guards, Gives g reason := by
  constructor
  · intro hh
    refine ⟨fun before last rest guards hc hg hs => ?_,fun guards hg hr sample written ht reason hr' => ?_⟩
    · obtain ⟨out,s,hsup,hstatus,hfin⟩ := clear_completed hc hg hs
      obtain ⟨-,-,-,-,hsampled,hguards⟩ := hh.completed out s guards hsup hstatus
      refine ⟨fun r hr v hv => ?_,hguards⟩
      have hmem : r.sample ∈ s.sampled := by
        rw [hfin.sampled]
        exact List.mem_cons_of_mem _ (List.mem_map.mpr ⟨r,hr,rfl⟩)
      obtain ⟨w,hw,hadm⟩ := hsampled _ hmem
      obtain rfl := Option.some.inj (hv.symm.trans hw)
      exact hadm
    · by_cases hn : Told sample written reason
      · exact .inl hn
      · obtain ⟨out,s,hsup,hmem,hout⟩ := lost_summary ht hr' hn hg hr
        refine .inr (hout (hh.reasons out s guards hsup _ (List.mem_append_left _ ?_) reason hr'))
        exact List.mem_map.mpr ⟨sample,hmem,rfl⟩
  · rintro ⟨hclear,htold⟩
    refine ⟨fun out s guards h hc => ?_,fun out s guards h v hv reason hg => ?_,fun _ _ _ => summary_peak⟩
    · obtain ⟨hg,hs,hcode,herror,before,last,rest,hrun,hfin⟩ := summary_completed h hc
      obtain ⟨hrounds,hguards⟩ := hclear before last rest guards hrun hg hs
      refine ⟨⟨last,by simp [hrun.leads.rounds],hrun.leads.exited⟩,hfin.terminated,hcode,herror,
        fun sample hm => ?_,hguards⟩
      rw [hfin.sampled] at hm
      rcases List.mem_cons.mp hm with rfl | hm
      · obtain ⟨v,hv,-,hadm⟩ := hrun.first
        exact ⟨v,hv,hadm⟩
      · obtain ⟨r,hr,rfl⟩ := List.mem_map.mp hm
        obtain ⟨v,hv,-,-⟩ := (hrun.leads.quiet r hr).sample
        exact ⟨v,hv,hrounds r hr v hv⟩
    · rcases summary_reasons h v hv reason hg with hin | ⟨herror,sample,written,ht,rfl,hn⟩
      · exact hin
      · obtain ⟨-,hsum,-⟩ := supervise_ok h
        obtain ⟨hguards,-,m,rfl,hm⟩ := summarize_ok hsum
        rcases htold guards hguards hm.readable sample written ht reason hg with ht | rfl | hother
        · exact absurd ht hn
        · exact herror
        · exact (hm.reasons reason).mpr (.inr hother)

def acceptedSample : Value := ⟨true,some [],some (some 123),some 1,none⟩

def refusedSample : Value := ⟨false,some [],some (some 123),some 2,none⟩

def refusedAtExit : Schedule where
  first := some acceptedSample
  firstWritten := .ok ()
  spawned := .ok ()
  rounds := [⟨.ok (some 0),some refusedSample,.ok (),false⟩]
  terminate := .ok 0
  guards := .ok []

theorem refused_at_exit : ¬Honest refusedAtExit := by
  intro h
  obtain ⟨-,-,-,-,hsampled,-⟩ := h.completed _ _ _ rfl rfl
  obtain ⟨v,hv,hadm⟩ := hsampled (some refusedSample) (by decide)
  cases hv
  cases hadm

end EvmState.Supervision
