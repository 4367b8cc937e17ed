import EvmState.Ingestion

/-!
# Replay in chunks

A private replay resumes at the native cursor, compacts what is there, and
ingests the next chunk up to an exclusive stop. Nothing counts the chunks: the
cursor that an ingest leaves decides where the next one starts.
-/

set_option autoImplicit false

namespace EvmState.Chunks
open EvmState.Fallible EvmState.OrderedMap EvmState.BlockProjection EvmState.Store EvmState.Crash
open EvmState.Bootstrap EvmState.Compaction

def save : Prog SourceWorld BlockRef := do
  let position ← query saveProgress
  perform (fun w => { w with progress := some position })
  return position

def observe : Prog SourceWorld (Option BlockRef) := do
  let cursor ← query (fun w => .ok w.cursor)
  match cursor with
  | none => return none
  | some _ => do
    let position ← save
    return some position

section Ingest
variable (native : ℕ → SourceWorld → List Event × Option String)

def alreadyComplete (blocks stop : ℕ) : Prog SourceWorld Bool :=
  if blocks = 0 then do
    let progress ← query (fun w => .ok w.progress)
    check (ensure (progress = none) "durable progress exists without its block data")
    return false
  else do
    let position ← save
    if stop-1 ≤ position.number then do
      check (ensure (position.number = stop-1) "requested stop precedes the already ingested cursor")
      return true
    else return false

/-- The native child changes the source until it ends, with or without an
error. -/
def runNative (stop : ℕ) : Prog SourceWorld Unit := do
  next
  let failure ← query (fun w => .ok (native stop w).2)
  perform (fun w => uncompacted w (native stop w).1)
  let progress ← observe
  check (failure.elim (.ok ()) .error)
  let position ← check (context progress
    "native sink completed without a valid cursor; recover from durable progress")
  check (ensure (position.number = stop-1) "native sink stopped before its requested final block")
  next

def ingestChunk (stop : ℕ) : Prog SourceWorld Unit := do
  next
  let blocks ← query (fun w => .ok w.db.stateBlocks.rows.length)
  let cursor ← query (fun w => .ok w.cursor)
  check (ensure (blocks = 0 ∨ cursor.isSome)
    "native cursor is missing or empty for existing data; explicit recovery is required")
  check (ensure (blocks ≠ 0 ∨ cursor = none)
    "cursor exists without its block data; restore matching database and metadata")
  let complete ← alreadyComplete blocks stop
  if complete then return () else runNative native stop

end Ingest

def chunkStop (chunkBlocks stopBlock first : ℕ) : ℕ :=
  min (min (first+chunkBlocks) (2^64-1)) stopBlock

section Loop
variable (platform : Platform) (startBlock stopBlock chunkBlocks : ℕ)

/-- The loop's body up to its request: the prefix that ends the replay, or the
block to request next. -/
def pass (generation : String) : Prog SourceWorld (Prefix ⊕ ℕ) := do
  let found ← observe
  match found with
  | some position => do
    check (ensure (position.number+1 < 2^64) "bootstrap block overflow")
    check (ensure (position.number+1 ≤ stopBlock)
      "bootstrap stop precedes the already ingested cursor")
    let p ← compactLocked platform generation none
    return if position.number+1 = stopBlock then .inl p else .inr (position.number+1)
  | none => return .inr startBlock

/-- The source, and the chunks that a replay has asked the ingest for. These
are not kept by the program. -/
abbrev Replaying := SourceWorld × List (ℕ × ℕ)

/-- One request of the loop, after the budget. -/
def request (native : ℕ → SourceWorld → List Event × Option String) (first : ℕ) :
    Prog Replaying Unit := do
  next
  write (fun s => (s.1,s.2++[(first,chunkStop chunkBlocks stopBlock first)]))
  within (ingestChunk native (chunkStop chunkBlocks stopBlock first))

/-- The loop, up to a number of passes. -/
def replayLoop (native : ℕ → SourceWorld → List Event × Option String) :
    ℕ → (ℕ → String) → Prog Replaying (Option Prefix)
  | 0, _ => return none
  | n+1, ids => do
    let outcome ← within (pass platform startBlock stopBlock (ids 0))
    match outcome with
    | .inl p => return some p
    | .inr first => do
      request stopBlock chunkBlocks native first
      replayLoop native n (fun k => ids (k+1))

/-- What is checked before the loop. -/
def enter (budgetBytes : ℕ) : Prog SourceWorld Unit := do
  check (ensure (0 < chunkBlocks ∧ 0 < budgetBytes)
    "bootstrap chunk blocks and budget must be positive integers")
  check (ensure (startBlock < stopBlock)
    "bootstrap stop block must be greater than start block (exclusive)")
  next
  query (requireInitial platform)

def replay (native : ℕ → SourceWorld → List Event × Option String) (ids : ℕ → String)
    (budgetBytes n : ℕ) : Prog Replaying (Option Prefix) := do
  within (enter platform startBlock stopBlock chunkBlocks budgetBytes)
  replayLoop platform startBlock stopBlock chunkBlocks native n ids

end Loop

section Keep
variable {P : SourceWorld → Prop} {α : Type}

theorem query_keeps {g : SourceWorld → Except String α} :
    Triple P (query g) (fun _ => P) (fun _ => True) :=
  triple_query (fun _ _ h _ => h) (fun _ _ => trivial)

theorem check_keeps {x : Except String α} : Triple P (check x) (fun _ => P) (fun _ => True) :=
  triple_check (fun _ _ h _ => h) (fun _ _ => trivial)

theorem next_keeps : Triple P next (fun _ => P) (fun _ => True) := triple_next (fun _ _ => trivial)

end Keep

section Compaction
variable {platform : Platform} {run : Run} {q : BlockRef}

/-- Compaction changes neither the run nor its progress. -/
def Held (run : Run) (q : BlockRef) (w : SourceWorld) : Prop := w.run = run ∧ w.progress = some q

theorem perform_held {f : SourceWorld → SourceWorld}
    (h : ∀ w, (f w).run = w.run ∧ (f w).progress = w.progress) :
    Triple (Held run q) (perform f) (fun _ => Held run q) (fun _ => True) :=
  triple_perform (fun w hw => ⟨(h w).1.trans hw.1,(h w).2.trans hw.2⟩) (fun _ _ => trivial)

theorem dropOldGenerations_held {keep : String} :
    Triple (Held run q) (dropOldGenerations keep) (fun _ => Held run q) (fun _ => True) := by
  refine triple_bind query_keeps (fun manifests => ?_)
  refine triple_bind (triple_forM (fun g _ => ?_)) (fun _ => ?_)
  · exact triple_bind check_keeps (fun _ => perform_held (fun _ => ⟨rfl,rfl⟩))
  refine triple_bind query_keeps (fun rows => triple_forM (fun g _ => ?_))
  exact triple_bind check_keeps (fun _ => perform_held (fun _ => ⟨rfl,rfl⟩))

theorem cleanup_held {p : Prefix} :
    Triple (Held run q) (cleanup platform p) (fun _ => Held run q) (fun _ => True) := by
  refine triple_bind query_keeps (fun plan => ?_)
  refine triple_bind (triple_forM (fun id _ => perform_held (fun _ => ⟨rfl,rfl⟩))) (fun _ => ?_)
  refine triple_bind (triple_forM (fun id _ => perform_held (fun _ => ⟨rfl,rfl⟩))) (fun _ => ?_)
  exact dropOldGenerations_held

theorem selectPrefix_start {w : SourceWorld} {source picked : Source}
    (h : selectPrefix platform w source = .ok picked) :
    ∀ p, picked.bootstrap = some p → p.startBlock = source.startBlock := by
  obtain ⟨loaded,-,h⟩ := bind_ok.mp h
  cases loaded with
  | none =>
    obtain rfl := pure_ok.mp h
    nofun
  | some p =>
    dsimp only at h
    split_ifs at h
    · obtain ⟨_,hs,h⟩ := bind_ok.mp h
      obtain rfl := pure_ok.mp h
      rintro _ ⟨⟩
      exact (ensure_ok.mp hs).symm
    · obtain rfl := pure_ok.mp h
      nofun

/-- What a compaction has chosen: the header at the progress, and a prefix of
the run. -/
def Picked (run : Run) (q : BlockRef) (r : Source × Header) : Prop :=
  r.2.number = q.number ∧ ∀ p, r.1.bootstrap = some p → p.startBlock = run.startBlock

theorem prepare_held : Triple (Held run q) (prepare platform none)
    (fun r w => Held run q w ∧ Picked run q r) (fun _ => True) := by
  have hT : ∀ w, ∀ _ : Held run q w, True := fun _ _ => trivial
  refine triple_bind next_keeps (fun _ => triple_bind query_keeps (fun _ => ?_))
  refine triple_bind query_keeps (fun read => ?_)
  have htip : Triple (Held run q) (query progress)
      (fun tip w => Held run q w ∧ tip = q) (fun _ => True) :=
    triple_query (fun w tip h he => ⟨h,Option.some.inj ((progress_ok he).symm.trans h.2)⟩) hT
  refine triple_bind htip (fun tip => ?_)
  refine triple_bind check_keeps (fun _ => ?_)
  have hheader : Triple (fun w => Held run q w ∧ tip = q) (query (headerAt tip.number))
      (fun header w => Held run q w ∧ header.number = q.number) (fun _ => True) := by
    refine triple_query (fun w header h he => ⟨h.1,?_⟩) (fun _ _ => trivial)
    obtain ⟨b,hb,rfl⟩ := headerAt_ok.mp he
    have hmem : b ∈ w.db.stateBlocks.rows.filter (fun b => b.number = tip.number) := by simp [hb]
    rw [← h.2]
    simpa [headerOf] using (List.mem_filter.mp hmem).2
  refine triple_bind hheader (fun header => ?_)
  have hsource : Triple (fun w => Held run q w ∧ header.number = q.number)
      (query (fun w => selectPrefix platform w (runSource w.run)))
      (fun source w => Held run q w ∧ Picked run q (source,header)) (fun _ => True) := by
    refine triple_query (fun w source h he => ⟨h.1,h.2,fun p hp => ?_⟩) (fun _ _ => trivial)
    rw [selectPrefix_start he p hp, ← h.1.1]
    rfl
  refine triple_bind hsource (fun source => ?_)
  exact triple_bind query_keeps (fun _ => triple_pure _ (fun _ h => h))

theorem compactTo_held {generation : String} {source : Source} {header : Header} :
    Triple (Held run q) (compactTo platform generation source header)
      (fun p w => Held run q w ∧ p.startBlock = run.startBlock ∧ p.header = header)
      (fun _ => True) := by
  have hcommit : ∀ record : Prefix, record.startBlock = run.startBlock → record.header = header →
      Triple (Held run q) (do
        perform (insertManifest ⟨generation,record⟩)
        next
        perform (renamePointer record)
        let loaded ← query (loadPrefix platform)
        let _ ← check (context loaded "bootstrap pointer disappeared")
        cleanup platform record
        let _ ← query progress
        return record)
      (fun p w => Held run q w ∧ p.startBlock = run.startBlock ∧ p.header = header)
      (fun _ => True) := by
    intro record hs hh
    refine triple_bind (perform_held (fun _ => ⟨rfl,rfl⟩)) (fun _ => triple_bind next_keeps (fun _ => ?_))
    refine triple_bind (perform_held (fun _ => ⟨rfl,rfl⟩)) (fun _ => ?_)
    refine triple_bind query_keeps (fun loaded => triple_bind check_keeps (fun _ => ?_))
    refine triple_bind cleanup_held (fun _ => triple_bind query_keeps (fun _ => ?_))
    exact triple_pure _ (fun _ h => ⟨h,hs,hh⟩)
  refine triple_bind next_keeps (fun _ => triple_bind dropOldGenerations_held (fun _ => ?_))
  refine triple_bind next_keeps (fun _ => triple_bind query_keeps (fun rows => ?_))
  refine triple_bind (perform_held (fun _ => ⟨rfl,rfl⟩)) (fun _ => ?_)
  refine triple_bind query_keeps (fun fields => triple_bind query_keeps (fun measured => ?_))
  refine triple_bind next_keeps (fun _ => ?_)
  have hrun : Triple (Held run q) (query (fun w => .ok w.run))
      (fun read w => Held run q w ∧ read = run) (fun _ => True) :=
    triple_query (fun w read h he => ⟨h,(Except.ok.inj he).symm.trans h.1⟩) (fun _ _ => trivial)
  refine triple_bind hrun (fun read => ?_)
  rintro h ⟨hheld,rfl⟩
  exact hcommit _ rfl rfl h hheld

theorem compactLocked_held {generation : String} :
    Triple (Held run q) (compactLocked platform generation none)
      (fun p w => Held run q w ∧ p.startBlock = run.startBlock ∧ p.header.number = q.number)
      (fun _ => True) := by
  refine triple_bind prepare_held ?_
  rintro ⟨source,header⟩ h ⟨hheld,hnum,hstart⟩
  have hnum : header.number = q.number := hnum
  cases hp : source.bootstrap.filter (fun p => p.header.number = header.number) with
  | some previous =>
    obtain ⟨hb,hn⟩ := Option.filter_eq_some_iff.mp hp
    have hend : previous.header.number = q.number := (of_decide_eq_true hn).trans hnum
    have hbody : Triple (Held run q) (do
        cleanup platform previous
        let _ ← query progress
        return previous)
        (fun p w => Held run q w ∧ p.startBlock = run.startBlock ∧ p.header.number = q.number)
        (fun _ => True) :=
      triple_bind cleanup_held (fun _ => triple_bind query_keeps (fun _ =>
        triple_pure _ (fun _ h => ⟨h,hstart previous hb,hend⟩)))
    simp only [hp]
    exact hbody h hheld
  | none =>
    have hbody : Triple (Held run q) (compactTo platform generation source header)
        (fun p w => Held run q w ∧ p.startBlock = run.startBlock ∧ p.header.number = q.number)
        (fun _ => True) :=
      compactTo_held.weaken (fun _ h => h) (fun p w h => ⟨h.1,h.2.1,by rw [h.2.2, hnum]⟩)
        (fun _ h => h)
    simp only [hp]
    exact hbody h hheld

end Compaction

section Steps
variable {run : Run} {cursor : Option BlockRef}

def Placed (run : Run) (cursor : Option BlockRef) (w : SourceWorld) : Prop :=
  w.run = run ∧ w.cursor = cursor

theorem save_placed : Triple (Placed run cursor) save
    (fun q w => Placed run cursor w ∧ cursor = some q ∧ w.progress = some q) (fun _ => True) := by
  have hsave : Triple (Placed run cursor) (query saveProgress)
      (fun q w => Placed run cursor w ∧ cursor = some q) (fun _ => True) := by
    refine triple_query (fun w q h he => ⟨h,?_⟩) (fun _ _ => trivial)
    rw [← h.2]
    exact (saveProgress_ok.mp he).1
  refine triple_bind hsave (fun q => ?_)
  have hset : Triple (fun w => Placed run cursor w ∧ cursor = some q)
      (perform (fun w : SourceWorld => { w with progress := some q }))
      (fun _ w => Placed run cursor w ∧ cursor = some q ∧ w.progress = some q) (fun _ => True) :=
    triple_perform (fun w h => ⟨h.1,h.2,rfl⟩) (fun _ _ => trivial)
  exact triple_bind hset (fun _ => triple_pure _ (fun _ h => h))

theorem uncompacted_run (w : SourceWorld) (events : List Event) :
    (uncompacted w events).run = w.run := by
  induction events generalizing w with
  | nil => rfl
  | cons e events ih =>
    rw [uncompacted, List.foldl_cons]
    refine (ih _).trans ?_
    cases e with
    | save =>
      simp only [ingest]
      cases saveProgress w <;> rfl
    | _ => rfl

def Reached (run : Run) (stop : ℕ) (w : SourceWorld) : Prop :=
  w.run = run ∧ ∃ q, w.cursor = some q ∧ q.number = stop-1

variable {native : ℕ → SourceWorld → List Event × Option String}

theorem save_reads : Triple (fun w => w.run = run) save (fun q w => w.run = run ∧ w.cursor = some q)
    (fun _ => True) := by
  intro h hr
  have hsave := (@save_placed run h.state.cursor).weaken (fun _ h => h)
    (fun q w hq => (⟨hq.1.1,hq.1.2.trans hq.2.1⟩ : w.run = run ∧ w.cursor = some q)) (fun _ h => h)
  exact hsave h ⟨hr,rfl⟩

theorem observe_reads : Triple (fun w => w.run = run) observe
    (fun found w => w.run = run ∧ ∀ q, found = some q → w.cursor = some q) (fun _ => True) := by
  refine triple_bind query_keeps (fun cursor => ?_)
  cases cursor with
  | none => exact triple_pure _ (fun _ h => ⟨h,nofun⟩)
  | some c =>
    refine triple_bind save_reads (fun q => triple_pure _ (fun _ h => ⟨h.1,?_⟩))
    rintro _ ⟨⟩
    exact h.2

theorem alreadyComplete_reached {blocks stop : ℕ} : Triple (fun w => w.run = run)
    (alreadyComplete blocks stop)
    (fun done w => w.run = run ∧ (done = true → Reached run stop w)) (fun _ => True) := by
  unfold alreadyComplete
  split_ifs with hb
  · exact triple_bind query_keeps (fun _ => triple_bind check_keeps (fun _ =>
      triple_pure _ (fun _ h => ⟨h,fun hd => absurd hd Bool.false_ne_true⟩)))
  · refine triple_bind save_reads (fun q => ?_)
    split_ifs with hle
    · have hcheck : Triple (fun w : SourceWorld => w.run = run ∧ w.cursor = some q)
          (check (ensure (q.number = stop-1) "requested stop precedes the already ingested cursor"))
          (fun _ w => Reached run stop w) (fun _ => True) :=
        triple_check (fun _ _ h he => ⟨h.1,q,h.2,ensure_ok.mp he⟩) (fun _ _ => trivial)
      exact triple_bind hcheck (fun _ => triple_pure _ (fun _ h => ⟨h.1,fun _ => h⟩))
    · exact triple_pure _ (fun _ h => ⟨h.1,fun hd => absurd hd Bool.false_ne_true⟩)

theorem runNative_reached {stop : ℕ} : Triple (fun w => w.run = run) (runNative native stop)
    (fun _ => Reached run stop) (fun _ => True) := by
  have hchild : Triple (fun w : SourceWorld => w.run = run)
      (perform (fun w => uncompacted w (native stop w).1)) (fun _ w => w.run = run)
      (fun _ => True) :=
    triple_perform (fun w h => (uncompacted_run w _).trans h) (fun _ _ => trivial)
  refine triple_bind next_keeps (fun _ => triple_bind query_keeps (fun failure => ?_))
  refine triple_bind hchild (fun _ => triple_bind observe_reads (fun found => ?_))
  refine triple_bind check_keeps (fun _ => ?_)
  have hfound : Triple (fun w : SourceWorld => w.run = run ∧ ∀ q, found = some q → w.cursor = some q)
      (check (context found
        "native sink completed without a valid cursor; recover from durable progress"))
      (fun q w => w.run = run ∧ w.cursor = some q) (fun _ => True) :=
    triple_check (fun w q h he => ⟨h.1,h.2 q (context_ok.mp he)⟩) (fun _ _ => trivial)
  refine triple_bind hfound (fun q => ?_)
  have hfinal : Triple (fun w : SourceWorld => w.run = run ∧ w.cursor = some q)
      (check (ensure (q.number = stop-1) "native sink stopped before its requested final block"))
      (fun _ w => Reached run stop w) (fun _ => True) :=
    triple_check (fun _ _ h he => ⟨h.1,q,h.2,ensure_ok.mp he⟩) (fun _ _ => trivial)
  exact triple_bind hfinal (fun _ => next_keeps)

theorem ingestChunk_reached {stop : ℕ} : Triple (fun w => w.run = run) (ingestChunk native stop)
    (fun _ => Reached run stop) (fun _ => True) := by
  refine triple_bind next_keeps (fun _ => triple_bind query_keeps (fun blocks => ?_))
  refine triple_bind query_keeps (fun cursor => triple_bind check_keeps (fun _ => ?_))
  refine triple_bind check_keeps (fun _ => triple_bind alreadyComplete_reached (fun done => ?_))
  cases done with
  | true => exact triple_pure _ (fun _ h => h.2 rfl)
  | false => exact runNative_reached.weaken (fun _ h => h.1) (fun _ _ h => h) (fun _ h => h)

end Steps

def nextBlock (startBlock : ℕ) (w : SourceWorld) : ℕ :=
  (w.cursor.map (·.number+1)).getD startBlock

section Loop
variable {platform : Platform} {startBlock stopBlock chunkBlocks : ℕ} {run : Run}
variable {native : ℕ → SourceWorld → List Event × Option String}

/-- What a pass that returns has found. -/
def Outcome (startBlock stopBlock : ℕ) (run : Run) (v : SourceWorld) :
    Prefix ⊕ ℕ → Prop
  | .inl p => nextBlock startBlock v = stopBlock ∧ p.startBlock = run.startBlock ∧
      p.header.number+1 = stopBlock
  | .inr first => first = nextBlock startBlock v ∧ first < stopBlock

theorem observe_finds (v : SourceWorld) : Triple (fun w => w = v) observe
    (fun found w => w.run = v.run ∧ v.cursor = found ∧ ∀ q, found = some q → w.progress = some q)
    (fun _ => True) := by
  have hread : Triple (fun w => w = v) (query (fun w => .ok w.cursor))
      (fun cursor w => w = v ∧ cursor = v.cursor) (fun _ => True) :=
    triple_query (fun w c hw he => ⟨hw,(Except.ok.inj he).symm.trans (hw ▸ rfl)⟩) (fun _ _ => trivial)
  refine triple_bind hread (fun cursor => triple_from (fun w hw => ?_))
  obtain ⟨rfl,rfl⟩ := hw
  cases hc : w.cursor with
  | none =>
    refine triple_pure none ?_
    rintro _ rfl
    exact ⟨rfl,rfl,nofun⟩
  | some c =>
    refine triple_bind ((@save_placed w.run w.cursor).weaken ?_ (fun _ _ h => h) (fun _ h => h))
      (fun q => triple_pure (some q) (fun u hu => ⟨hu.1.1,hc ▸ hu.2.1,?_⟩))
    · rintro _ rfl
      exact ⟨rfl,rfl⟩
    · rintro _ ⟨⟩
      exact hu.2.2

theorem pass_outcome (hs : startBlock < stopBlock) (v : SourceWorld) (generation : String) :
    Triple (fun w => w = v) (pass platform startBlock stopBlock generation)
      (fun outcome w => w.run = v.run ∧ Outcome startBlock stopBlock v.run v outcome)
      (fun _ => True) := by
  refine triple_bind (observe_finds v) (fun found => ?_)
  cases found with
  | none =>
    refine triple_pure _ (fun w hw => ⟨hw.1,?_,hs⟩)
    rw [nextBlock, hw.2.1]
    rfl
  | some q =>
    refine triple_check_then (fun _ _ => trivial) (fun _ _ => ?_)
    refine triple_check_then (fun _ _ => trivial) (fun _ hle => triple_from (fun w hw => ?_))
    have hle := ensure_ok.mp hle
    have hnext : nextBlock startBlock v = q.number+1 := by
      rw [nextBlock, hw.2.1]
      rfl
    have hheld : Held v.run q w := ⟨hw.1,hw.2.2 q rfl⟩
    refine triple_bind ((@compactLocked_held platform v.run q generation).weaken
      (by rintro _ rfl; exact hheld) (fun _ _ h => h) (fun _ h => h))
      (fun p => triple_pure _ (fun u hu => ⟨hu.1.1,?_⟩))
    split_ifs with heq
    · exact ⟨hnext.trans heq,hu.2.1,by rw [hu.2.2, heq]⟩
    · exact ⟨hnext.symm,lt_of_le_of_ne hle heq⟩

theorem chunkStop_bounds (hc : 0 < chunkBlocks) (hstop : stopBlock < 2^64) {first : ℕ}
    (hf : first < stopBlock) : first < chunkStop chunkBlocks stopBlock first ∧
      chunkStop chunkBlocks stopBlock first ≤ first+chunkBlocks ∧
      chunkStop chunkBlocks stopBlock first ≤ stopBlock := by
  unfold chunkStop
  omega

theorem request_spec (hc : 0 < chunkBlocks) (hstop : stopBlock < 2^64) {first : ℕ}
    (hf : first < stopBlock) (s : Replaying) :
    Triple (fun t => t = s) (request stopBlock chunkBlocks native first)
      (fun _ t => t.1.run = s.1.run ∧
        nextBlock startBlock t.1 = chunkStop chunkBlocks stopBlock first ∧
        t.2 = s.2++[(first,chunkStop chunkBlocks stopBlock first)])
      (fun t => t.2 = s.2 ∨ t.2 = s.2++[(first,chunkStop chunkBlocks stopBlock first)]) := by
  refine triple_next_then (fun t ht => .inl (ht ▸ rfl)) (triple_bind (triple_write
    (R := fun _ t => t.1.run = s.1.run ∧ t.2 = s.2++[(first,chunkStop chunkBlocks stopBlock first)])
    ?_) (fun _ => ?_))
  · rintro t rfl
    exact ⟨rfl,rfl⟩
  refine (triple_within ingestChunk_reached).weaken (fun _ h => h) (fun _ t h => ?_)
    (fun t h => .inr h.2)
  obtain ⟨⟨hrun,q,hcursor,hq⟩,hreq⟩ := h
  have hpos := (chunkStop_bounds hc hstop hf).1
  refine ⟨hrun,?_,hreq⟩
  rw [nextBlock, hcursor, Option.map_some, Option.getD_some, hq, Nat.sub_add_cancel (by omega)]

/-- Chunks one after another from a block up to another, each of at most the
chunk size. -/
def Consecutive (chunkBlocks : ℕ) : ℕ → List (ℕ × ℕ) → ℕ → Prop
  | n, [], m => n = m
  | n, (a,b)::l, m => a = n ∧ a < b ∧ b ≤ a+chunkBlocks ∧ Consecutive chunkBlocks b l m

theorem consecutive_append {n m : ℕ} {l : List (ℕ × ℕ)} {a b : ℕ} :
    Consecutive chunkBlocks n (l++[(a,b)]) m ↔
      Consecutive chunkBlocks n l a ∧ a < b ∧ b ≤ a+chunkBlocks ∧ b = m := by
  induction l generalizing n with
  | nil => simp only [List.nil_append, Consecutive, eq_comm]
  | cons e l ih =>
    obtain ⟨c,d⟩ := e
    simp only [List.cons_append, Consecutive, ih, and_assoc]

theorem consecutive_length {n m : ℕ} {l : List (ℕ × ℕ)} (h : Consecutive chunkBlocks n l m) :
    n+l.length ≤ m := by
  induction l generalizing n with
  | nil => exact h.le
  | cons e l ih =>
    obtain ⟨a,b⟩ := e
    obtain ⟨rfl,hlt,-,h⟩ := h
    have := ih h
    rw [List.length_cons]
    omega

theorem consecutive_mem {n m : ℕ} {l : List (ℕ × ℕ)} (h : Consecutive chunkBlocks n l m) :
    ∀ c ∈ l, c.1 < c.2 ∧ c.2 ≤ c.1+chunkBlocks ∧ c.2 ≤ m := by
  induction l generalizing n with
  | nil => simp
  | cons e l ih =>
    obtain ⟨a,b⟩ := e
    obtain ⟨rfl,hlt,hsize,h⟩ := h
    have := consecutive_length h
    exact List.forall_mem_cons.mpr ⟨⟨hlt,hsize,by omega⟩,ih h⟩

/-- Consecutive chunks hold every block of their range once, in order. -/
theorem consecutive_range {n m : ℕ} {l : List (ℕ × ℕ)} (h : Consecutive chunkBlocks n l m) :
    l.flatMap (fun c => List.range' c.1 (c.2-c.1)) = List.range' n (m-n) := by
  induction l generalizing n with
  | nil =>
    obtain rfl := h
    simp
  | cons e l ih =>
    obtain ⟨a,b⟩ := e
    obtain ⟨rfl,hlt,-,h⟩ := h
    have hle := consecutive_length h
    rw [List.flatMap_cons, ih h, show m-a = (b-a)+(m-b) by omega, ← List.range'_append_1]
    rw [show a+(b-a) = b by omega]

/-- Some requests were made from a block on, up to the stop at most. -/
def Asked (stopBlock chunkBlocks first : ℕ) (s : Replaying) : Prop :=
  ∃ m, Consecutive chunkBlocks first s.2 m ∧ (s.2 ≠ [] → m ≤ stopBlock)

/-- The requests lead to the block that is next. -/
structure Covered (startBlock stopBlock chunkBlocks first : ℕ) (s : Replaying) : Prop where
  requests : Consecutive chunkBlocks first s.2 (nextBlock startBlock s.1)
  bound : s.2 ≠ [] → nextBlock startBlock s.1 ≤ stopBlock

theorem Covered.asked {n : ℕ} {s t : Replaying} (h : Covered startBlock stopBlock chunkBlocks n s)
    (ht : t.2 = s.2) : Asked stopBlock chunkBlocks n t :=
  ⟨nextBlock startBlock s.1,ht ▸ h.requests,ht ▸ h.bound⟩

/-- What a number of passes leaves: the requests up to the stop and the prefix
to there, or one request a pass. -/
def Left (startBlock stopBlock chunkBlocks first : ℕ) (run : Run) (asked : ℕ) :
    Option Prefix → Replaying → Prop
  | some p, s => Consecutive chunkBlocks first s.2 stopBlock ∧ p.startBlock = run.startBlock ∧
      p.header.number+1 = stopBlock
  | none, s => Covered startBlock stopBlock chunkBlocks first s ∧ s.2.length = asked

theorem replayLoop_spec (hs : startBlock < stopBlock) (hstop : stopBlock < 2^64)
    (hc : 0 < chunkBlocks) {first n : ℕ} {ids : ℕ → String} {s : Replaying}
    (h : Covered startBlock stopBlock chunkBlocks first s) :
    Triple (fun t => t = s) (replayLoop platform startBlock stopBlock chunkBlocks native n ids)
      (Left startBlock stopBlock chunkBlocks first s.1.run (s.2.length+n))
      (Asked stopBlock chunkBlocks first) := by
  induction n generalizing s ids with
  | zero =>
    refine triple_pure none ?_
    rintro t rfl
    exact ⟨h,rfl⟩
  | succ n ih =>
    refine triple_bind ((triple_within (pass_outcome hs s.1 (ids 0))).weaken ?_ (fun _ _ h => h)
      (fun t ht => h.asked ht.2)) (fun outcome => triple_from (fun t ht => ?_))
    · rintro t rfl
      exact ⟨rfl,rfl⟩
    obtain ⟨⟨hrun,hout⟩,hreq⟩ := ht
    cases outcome with
    | inl p =>
      refine triple_pure (some p) ?_
      rintro u rfl
      exact ⟨by rw [hreq, ← hout.1]; exact h.requests,hout.2⟩
    | inr next =>
      obtain ⟨rfl,hlt⟩ := hout
      obtain ⟨hpos,hsize,hle⟩ := chunkStop_bounds hc hstop hlt
      have hcon : Consecutive chunkBlocks first (t.2++[(nextBlock startBlock s.1,
          chunkStop chunkBlocks stopBlock (nextBlock startBlock s.1))])
          (chunkStop chunkBlocks stopBlock (nextBlock startBlock s.1)) :=
        consecutive_append.mpr ⟨hreq ▸ h.requests,hpos,hsize,rfl⟩
      have hrequest := @request_spec startBlock stopBlock chunkBlocks native hc hstop _ hlt t
      refine triple_bind (hrequest.weaken (fun _ h => h) (fun _ _ h => h) ?_)
        (fun _ => triple_from (fun u hu => ?_))
      · rintro u (hu | hu)
        · exact h.asked (hu.trans hreq)
        · exact ⟨_,hu ▸ hcon,fun _ => hle⟩
      obtain ⟨hrun',hnext,hreq'⟩ := hu
      have hcovered : Covered startBlock stopBlock chunkBlocks first u :=
        ⟨by rw [hnext, hreq']; exact hcon,fun _ => hnext ▸ hle⟩
      have hlength : u.2.length+n = s.2.length+(n+1) := by
        rw [hreq', hreq, List.length_append, List.length_singleton]
        omega
      rw [← hlength, ← hrun, ← hrun']
      exact ih hcovered

section Faultless
variable (platform startBlock stopBlock chunkBlocks native)

/-- What the loop calls in one pass returns: the reading of its progress, a
compaction within the stop, and the request. -/
structure Served (generation : String) (h : Host Replaying) : Prop where
  compaction : ∃ found h₁, observe ⟨h.state.1,h.script⟩ = .ok found h₁ ∧
    ∀ position, found = some position → position.number+1 ≤ stopBlock →
      ∃ p h₂, compactLocked platform generation none h₁ = .ok p h₂
  ingest : ∀ first h₁, within (pass platform startBlock stopBlock generation) h = .ok (.inr first) h₁ →
    ∃ h₂, request stopBlock chunkBlocks native first h₁ = .ok () h₂

/-- Nothing fails in the passes from a point on. -/
def Faultless (n : ℕ) (ids : ℕ → String) (h : Host Replaying) : Prop :=
  ∀ k < n, ∀ h', replayLoop platform startBlock stopBlock chunkBlocks native k ids h = .ok none h' →
    Served platform startBlock stopBlock chunkBlocks native (ids k) h'

end Faultless

theorem pass_returns (hstop : stopBlock < 2^64) {generation : String} {h : Host Replaying}
    (hserved : Served platform startBlock stopBlock chunkBlocks native generation h)
    (hle : nextBlock startBlock h.state.1 ≤ stopBlock) :
    ∃ outcome h', within (pass platform startBlock stopBlock generation) h = .ok outcome h' := by
  obtain ⟨found,h₁,hfound,hcompact⟩ := hserved.compaction
  have hcursor := ((observe_finds h.state.1).ok (h := ⟨h.state.1,h.script⟩) rfl hfound).2.1
  suffices ∃ outcome h', pass platform startBlock stopBlock generation ⟨h.state.1,h.script⟩ =
      .ok outcome h' by
    obtain ⟨outcome,h',hp⟩ := this
    exact ⟨outcome,_,within_ok hp⟩
  unfold pass
  rw [prog_bind_returns hfound]
  cases found with
  | none => exact ⟨_,h₁,rfl⟩
  | some position =>
    have hnext : position.number+1 ≤ stopBlock := by
      rw [nextBlock, hcursor] at hle
      exact hle
    obtain ⟨p,h₂,hp⟩ := hcompact position rfl hnext
    simp only []
    have hsmall : ensure (position.number+1 < 2^64) "bootstrap block overflow" = .ok () :=
      ensure_ok.mpr (by omega)
    have hbound : ensure (position.number+1 ≤ stopBlock)
        "bootstrap stop precedes the already ingested cursor" = .ok () := ensure_ok.mpr hnext
    rw [hsmall, hbound]
    refine ⟨if position.number+1 = stopBlock then .inl p else .inr (position.number+1),h₂,?_⟩
    show (compactLocked platform generation none >>= fun p => pure
      (if position.number+1 = stopBlock then Sum.inl p else Sum.inr (position.number+1))) h₁ = _
    rw [prog_bind_returns hp]
    rfl

theorem replayLoop_returns (hs : startBlock < stopBlock) (hstop : stopBlock < 2^64)
    (hc : 0 < chunkBlocks) {n : ℕ} {ids : ℕ → String} {h : Host Replaying}
    (hle : nextBlock startBlock h.state.1 ≤ stopBlock)
    (hf : Faultless platform startBlock stopBlock chunkBlocks native n ids h) :
    ∃ r h', replayLoop platform startBlock stopBlock chunkBlocks native n ids h = .ok r h' := by
  induction n generalizing h ids with
  | zero => exact ⟨none,h,rfl⟩
  | succ n ih =>
    have hserved := hf 0 (Nat.succ_pos n) h rfl
    obtain ⟨outcome,h₁,hp⟩ := pass_returns hstop hserved hle
    cases outcome with
    | inl p => exact ⟨some p,h₁,prog_bind_returns hp⟩
    | inr first =>
      obtain ⟨h₂,hq⟩ := hserved.ingest first h₁ hp
      have hgo : ∀ k, replayLoop platform startBlock stopBlock chunkBlocks native (k+1) ids h =
          replayLoop platform startBlock stopBlock chunkBlocks native k (fun i => ids (i+1)) h₂ :=
        fun k => (prog_bind_returns hp).trans (prog_bind_returns hq)
      have hlt : first < stopBlock := ((triple_within (l := h.state.2) (pass_outcome hs h.state.1
        (ids 0))).ok ⟨rfl,rfl⟩ hp).1.2.2
      have hnext := ((@request_spec startBlock stopBlock chunkBlocks native hc hstop _ hlt
        h₁.state).ok rfl hq).2.1
      rw [hgo]
      refine ih (hnext ▸ (chunkStop_bounds hc hstop hlt).2.2) (fun k hk h' hr => ?_)
      exact hf (k+1) (Nat.succ_lt_succ hk) h' ((hgo k).trans hr)

theorem served_of {generation : String} {outcome : Prefix ⊕ ℕ} {h h₁ : Host Replaying}
    (hp : within (pass platform startBlock stopBlock generation) h = .ok outcome h₁)
    (hq : ∀ first, outcome = .inr first →
      ∃ h₂, request stopBlock chunkBlocks native first h₁ = .ok () h₂) :
    Served platform startBlock stopBlock chunkBlocks native generation h := by
  refine ⟨?_,fun first h₁' hp' => ?_⟩
  · obtain ⟨_,hpass,-⟩ := within_returned hp
    obtain ⟨found,w₁,hfound,hrest⟩ := prog_bind_ok hpass
    refine ⟨found,w₁,hfound,?_⟩
    rintro position rfl -
    obtain ⟨_,w₂,hsmall,hrest⟩ := prog_bind_ok hrest
    obtain ⟨_,w₃,hbound,hrest⟩ := prog_bind_ok hrest
    obtain ⟨p,w₄,hcompact,-⟩ := prog_bind_ok hrest
    obtain rfl := check_returned hsmall
    obtain rfl := check_returned hbound
    exact ⟨p,w₄,hcompact⟩
  · rw [hp'] at hp
    cases hp
    exact hq first rfl

theorem faultless_of {n : ℕ} {ids : ℕ → String} {h h' : Host Replaying} {r : Option Prefix}
    (hr : replayLoop platform startBlock stopBlock chunkBlocks native n ids h = .ok r h') :
    Faultless platform startBlock stopBlock chunkBlocks native n ids h := by
  induction n generalizing h ids with
  | zero => exact fun k hk => absurd hk (Nat.not_lt_zero k)
  | succ n ih =>
    obtain ⟨outcome,h₁,hp,hrest⟩ := prog_bind_ok hr
    intro k hk h'' hk'
    cases outcome with
    | inl p =>
      cases k with
      | zero =>
        cases hk'
        exact served_of hp nofun
      | succ k =>
        have : replayLoop platform startBlock stopBlock chunkBlocks native (k+1) ids h =
            .ok (some p) h₁ := prog_bind_returns hp
        rw [this] at hk'
        cases hk'
    | inr first =>
      obtain ⟨_,h₂,hq,hrest⟩ := prog_bind_ok hrest
      cases k with
      | zero =>
        cases hk'
        refine served_of hp ?_
        rintro _ ⟨⟩
        exact ⟨h₂,hq⟩
      | succ k =>
        have : replayLoop platform startBlock stopBlock chunkBlocks native (k+1) ids h =
            replayLoop platform startBlock stopBlock chunkBlocks native k (fun i => ids (i+1)) h₂ :=
          (prog_bind_returns hp).trans (prog_bind_returns hq)
        exact ih hrest k (Nat.lt_of_succ_lt_succ hk) h'' (this ▸ hk')

end Loop

section Replay
variable (platform : Platform) (startBlock stopBlock chunkBlocks budgetBytes : ℕ)
variable (native : ℕ → SourceWorld → List Event × Option String)

theorem enter_keeps (v : SourceWorld) : Triple (fun w => w = v)
    (enter platform startBlock stopBlock chunkBlocks budgetBytes) (fun _ w => w = v) (fun w => w = v) := by
  refine triple_check_then (fun _ h => h) (fun _ _ => triple_check_then (fun _ h => h) (fun _ _ => ?_))
  exact triple_next_then (fun _ h => h) (triple_query (fun _ _ h _ => h) (fun _ h => h))

/-- A whole replay in which nothing fails. -/
def Unfailing (ids : ℕ → String) (n : ℕ) (start : SourceWorld) (script : List (Option String)) : Prop :=
  ∃ h, enter platform startBlock stopBlock chunkBlocks budgetBytes ⟨start,script⟩ = .ok () h ∧
    Faultless platform startBlock stopBlock chunkBlocks native n ids ⟨(h.state,[]),h.script⟩

/-- Where a replay can stop, and what it returns. -/
theorem replay_spec (hs : startBlock < stopBlock) (hstop : stopBlock < 2^64) (hc : 0 < chunkBlocks)
    (ids : ℕ → String) (n : ℕ) (start : SourceWorld) :
    Triple (fun s => s = (start,[]))
      (replay platform startBlock stopBlock chunkBlocks native ids budgetBytes n)
      (Left startBlock stopBlock chunkBlocks (nextBlock startBlock start) start.run n)
      (Asked stopBlock chunkBlocks (nextBlock startBlock start)) := by
  have henter := triple_within (l := ([] : List (ℕ × ℕ)))
    (enter_keeps platform startBlock stopBlock chunkBlocks budgetBytes start)
  refine triple_bind (henter.weaken ?_ (fun _ _ h => h) ?_) (fun _ => triple_from (fun t ht => ?_))
  · rintro s rfl
    exact ⟨rfl,rfl⟩
  · rintro t ⟨-,ht⟩
    exact ⟨_,by rw [ht]; rfl,fun h => absurd ht h⟩
  · obtain rfl : t = (start,[]) := Prod.ext ht.1 ht.2
    have := @replayLoop_spec platform startBlock stopBlock chunkBlocks native hs hstop hc
      (nextBlock startBlock start) n ids (start,[]) ⟨rfl,fun h => absurd rfl h⟩
    simpa using this

theorem unfailing_of {ids : ℕ → String} {n : ℕ} {start : SourceWorld} {script : List (Option String)}
    {r : Option Prefix} {h : Host Replaying} (hr : replay platform startBlock stopBlock chunkBlocks
      native ids budgetBytes n ⟨(start,[]),script⟩ = .ok r h) :
    Unfailing platform startBlock stopBlock chunkBlocks budgetBytes native ids n start script := by
  obtain ⟨_,h₁,henter,hloop⟩ := prog_bind_ok hr
  obtain ⟨h₂,hinner,rfl⟩ := within_returned henter
  exact ⟨h₂,hinner,faultless_of hloop⟩

def requests (ids : ℕ → String) (n : ℕ) (start : SourceWorld) (script : List (Option String)) :
    List (ℕ × ℕ) :=
  (ends (replay platform startBlock stopBlock chunkBlocks native ids budgetBytes n)
    ⟨(start,[]),script⟩).2

theorem requests_asked (hs : startBlock < stopBlock) (hstop : stopBlock < 2^64) (hc : 0 < chunkBlocks)
    (ids : ℕ → String) (n : ℕ) (start : SourceWorld) (script : List (Option String)) :
    Asked stopBlock chunkBlocks (nextBlock startBlock start) (start,requests platform startBlock
      stopBlock chunkBlocks budgetBytes native ids n start script) := by
  have hasked : Triple (fun s => s = (start,[]))
      (replay platform startBlock stopBlock chunkBlocks native ids budgetBytes n)
      (fun _ => Asked stopBlock chunkBlocks (nextBlock startBlock start))
      (Asked stopBlock chunkBlocks (nextBlock startBlock start)) := by
    refine (replay_spec platform startBlock stopBlock chunkBlocks budgetBytes native hs hstop hc
      ids n start).weaken (fun _ h => h) (fun r s h => ?_) (fun _ h => h)
    cases r with
    | some p => exact ⟨stopBlock,h.1,fun _ => le_refl _⟩
    | none => exact h.1.asked rfl
  exact hasked.ends (h := ⟨(start,[]),script⟩) rfl

theorem requests_ok {ids : ℕ → String} {n : ℕ} {start : SourceWorld} {script : List (Option String)}
    {r : Option Prefix} {h : Host Replaying} (hr : replay platform startBlock stopBlock chunkBlocks
      native ids budgetBytes n ⟨(start,[]),script⟩ = .ok r h) :
    requests platform startBlock stopBlock chunkBlocks budgetBytes native ids n start script =
      h.state.2 := by
  unfold requests ends
  rw [hr]

theorem replay_returns (hs : startBlock < stopBlock) (hstop : stopBlock < 2^64) (hc : 0 < chunkBlocks)
    {ids : ℕ → String} {n : ℕ} {start : SourceWorld} {script : List (Option String)}
    (hf : Unfailing platform startBlock stopBlock chunkBlocks budgetBytes native ids n start script)
    (hle : nextBlock startBlock start ≤ stopBlock) :
    ∃ r h, replay platform startBlock stopBlock chunkBlocks native ids budgetBytes n
      ⟨(start,[]),script⟩ = .ok r h := by
  obtain ⟨h₁,henter,hfault⟩ := hf
  have hstate : h₁.state = start :=
    (enter_keeps platform startBlock stopBlock chunkBlocks budgetBytes start).ok rfl henter
  obtain ⟨r,h,hr⟩ := replayLoop_returns hs hstop hc (by rw [hstate]; exact hle) hfault
  exact ⟨r,h,(prog_bind_returns (within_ok henter)).trans hr⟩

/-- A replay that returns without its prefix has used up its passes, each on one request. -/
theorem replay_unfinished (hs : startBlock < stopBlock) (hstop : stopBlock < 2^64) (hc : 0 < chunkBlocks)
    {ids : ℕ → String} {n : ℕ} {start : SourceWorld} {script : List (Option String)}
    {h : Host Replaying} (hr : replay platform startBlock stopBlock chunkBlocks native ids budgetBytes n
      ⟨(start,[]),script⟩ = .ok none h) :
    (requests platform startBlock stopBlock chunkBlocks budgetBytes native ids n start
      script).length = n ∧
    Consecutive chunkBlocks (nextBlock startBlock start) (requests platform startBlock stopBlock
      chunkBlocks budgetBytes native ids n start script) (nextBlock startBlock h.state.1) ∧
    n ≤ stopBlock-nextBlock startBlock start := by
  obtain ⟨hcovered,hlen⟩ := (replay_spec platform startBlock stopBlock chunkBlocks budgetBytes native hs
    hstop hc ids n start).ok (h := ⟨(start,[]),script⟩) rfl hr
  rw [requests_ok platform startBlock stopBlock chunkBlocks budgetBytes native hr]
  refine ⟨hlen,hcovered.requests,?_⟩
  rcases Nat.eq_zero_or_pos n with rfl | hn
  · exact Nat.zero_le _
  · have hsum := consecutive_length hcovered.requests
    have hle := hcovered.bound (fun h => by rw [h] at hlen; exact absurd hlen hn.ne)
    omega

theorem replay_finished (hs : startBlock < stopBlock) (hstop : stopBlock < 2^64) (hc : 0 < chunkBlocks)
    {ids : ℕ → String} {n : ℕ} {start : SourceWorld} {script : List (Option String)}
    {h : Host Replaying} {p : Prefix} (hr : replay platform startBlock stopBlock chunkBlocks native ids
      budgetBytes n ⟨(start,[]),script⟩ = .ok (some p) h) :
    Consecutive chunkBlocks (nextBlock startBlock start) (requests platform startBlock stopBlock
      chunkBlocks budgetBytes native ids n start script) stopBlock ∧
    p.startBlock = start.run.startBlock ∧ p.header.number+1 = stopBlock := by
  rw [requests_ok platform startBlock stopBlock chunkBlocks budgetBytes native hr]
  exact (replay_spec platform startBlock stopBlock chunkBlocks budgetBytes native hs hstop hc ids n
    start).ok (h := ⟨(start,[]),script⟩) rfl hr

/-- Nothing is requested of a source that is at or beyond the stop. -/
theorem requests_beyond (hs : startBlock < stopBlock) (hstop : stopBlock < 2^64) (hc : 0 < chunkBlocks)
    (ids : ℕ → String) (n : ℕ) {start : SourceWorld} (script : List (Option String))
    (hbeyond : stopBlock < nextBlock startBlock start) :
    requests platform startBlock stopBlock chunkBlocks budgetBytes native ids n start script = [] := by
  obtain ⟨m,hcon,hbound⟩ := requests_asked platform startBlock stopBlock chunkBlocks budgetBytes
    native hs hstop hc ids n start script
  by_contra hne
  have hsum := consecutive_length hcon
  have hle := hbound hne
  omega

/-- Replay covers its range once and ends, from whatever world an earlier
replay has left and with whatever fails on the way. -/
theorem replay_covers (hs : startBlock < stopBlock) (hstop : stopBlock < 2^64) (hc : 0 < chunkBlocks)
    (ids : ℕ → String) (n : ℕ) (start : SourceWorld) (hrun : start.run.startBlock = startBlock)
    (script : List (Option String)) :
    (∃ m, Consecutive chunkBlocks (nextBlock startBlock start) (requests platform startBlock stopBlock
        chunkBlocks budgetBytes native ids n start script) m ∧
      (requests platform startBlock stopBlock chunkBlocks budgetBytes native ids n start
          script).flatMap (fun c => List.range' c.1 (c.2-c.1)) =
        List.range' (nextBlock startBlock start) (m-nextBlock startBlock start) ∧
      ∀ c ∈ requests platform startBlock stopBlock chunkBlocks budgetBytes native ids n start script,
        c.1 < c.2 ∧ c.2 ≤ c.1+chunkBlocks ∧ c.2 ≤ stopBlock ∧ stopBlock-c.2 < stopBlock-c.1) ∧
    (∀ p h, replay platform startBlock stopBlock chunkBlocks native ids budgetBytes n
        ⟨(start,[]),script⟩ = .ok (some p) h →
      p.startBlock = startBlock ∧ p.header.number = stopBlock-1 ∧
      (requests platform startBlock stopBlock chunkBlocks budgetBytes native ids n start
          script).flatMap (fun c => List.range' c.1 (c.2-c.1)) =
        List.range' (nextBlock startBlock start) (stopBlock-nextBlock startBlock start)) ∧
    (∀ h, replay platform startBlock stopBlock chunkBlocks native ids budgetBytes n
        ⟨(start,[]),script⟩ = .ok none h →
      (requests platform startBlock stopBlock chunkBlocks budgetBytes native ids n start
        script).length = n ∧
      Consecutive chunkBlocks (nextBlock startBlock start) (requests platform startBlock stopBlock
        chunkBlocks budgetBytes native ids n start script) (nextBlock startBlock h.state.1) ∧
      n ≤ stopBlock-nextBlock startBlock start) ∧
    (Unfailing platform startBlock stopBlock chunkBlocks budgetBytes native ids n start script →
      nextBlock startBlock start ≤ stopBlock → stopBlock-nextBlock startBlock start < n →
      ∃ p h, replay platform startBlock stopBlock chunkBlocks native ids budgetBytes n
        ⟨(start,[]),script⟩ = .ok (some p) h) ∧
    (∀ q, start.cursor = some q → stopBlock ≤ q.number → 0 < n →
      requests platform startBlock stopBlock chunkBlocks budgetBytes native ids n start script = [] ∧
      ∃ e h, replay platform startBlock stopBlock chunkBlocks native ids budgetBytes n
        ⟨(start,[]),script⟩ = .error e h) := by
  obtain ⟨m,hcon,hbound⟩ := requests_asked platform startBlock stopBlock chunkBlocks budgetBytes
    native hs hstop hc ids n start script
  refine ⟨⟨m,hcon,consecutive_range hcon,fun c hm => ?_⟩,fun p h hr => ?_,fun h hr =>
    replay_unfinished platform startBlock stopBlock chunkBlocks budgetBytes native hs hstop hc hr,
    fun hf hle hn => ?_,fun q hq hle hn => ?_⟩
  · obtain ⟨hlt,hsize,hend⟩ := consecutive_mem hcon c hm
    have := hbound (List.ne_nil_of_mem hm)
    exact ⟨hlt,hsize,by omega,by omega⟩
  · obtain ⟨hall,hstart,hend⟩ := replay_finished platform startBlock stopBlock chunkBlocks budgetBytes
      native hs hstop hc hr
    exact ⟨hstart.trans hrun,by omega,consecutive_range hall⟩
  · obtain ⟨r,h,hr⟩ := replay_returns platform startBlock stopBlock chunkBlocks budgetBytes native hs
      hstop hc hf hle
    cases r with
    | some p => exact ⟨p,h,hr⟩
    | none =>
      have hfew := (replay_unfinished platform startBlock stopBlock chunkBlocks budgetBytes native hs
        hstop hc hr).2.2
      omega
  · have hnext : nextBlock startBlock start = q.number+1 := by
      rw [nextBlock, hq]
      rfl
    have hempty := requests_beyond platform startBlock stopBlock chunkBlocks budgetBytes native hs hstop
      hc ids n script (hnext ▸ Nat.lt_succ_of_le hle : stopBlock < nextBlock startBlock start)
    refine ⟨hempty,?_⟩
    cases hr : replay platform startBlock stopBlock chunkBlocks native ids budgetBytes n
        ⟨(start,[]),script⟩ with
    | error e h => exact ⟨e,h,rfl⟩
    | ok r h =>
      cases r with
      | some p =>
        have hsum := consecutive_length (replay_finished platform startBlock stopBlock chunkBlocks
          budgetBytes native hs hstop hc hr).1
        omega
      | none =>
        have hlen := (replay_unfinished platform startBlock stopBlock chunkBlocks budgetBytes native hs
          hstop hc hr).1
        rw [hempty] at hlen
        exact absurd hlen hn.ne

end Replay

/-!
The two sample blocks, ingested one a chunk into an empty source.
-/

section Sample
open EvmState.Replay

def sampleEmpty : SourceWorld :=
  { sampleWorld with db := ⟨.empty,.empty,[],[]⟩, cursor := none, progress := none }

def sampleNative (stop : ℕ) (_ : SourceWorld) : List Event × Option String :=
  ((sampleRows.filter (fun b => b.number+1 = stop)).flatMap (fun b => [.block b,
    .marker ⟨b.number,b.hash,b.timestamp⟩,.cursor (some ⟨b.number,b.hash⟩)]),none)

def sampleIds (n : ℕ) : String := String.ofList (List.replicate 32 (Hex.digit n))

theorem replay_covers_sample :
    (∃ p h, replay samplePlatform 100 102 1 sampleNative sampleIds 1 3 ⟨(sampleEmpty,[]),[]⟩ =
        .ok (some p) h ∧ p.startBlock = 100 ∧ p.header.number = 101) ∧
    (requests samplePlatform 100 102 1 1 sampleNative sampleIds 3 sampleEmpty []).flatMap
      (fun c => List.range' c.1 (c.2-c.1)) = [100,101] ∧
    requests samplePlatform 100 101 1 1 sampleNative sampleIds 3 sampleWorld [] = [] := by
  have hreturns : returns (replay samplePlatform 100 102 1 sampleNative sampleIds 1 3)
      ⟨(sampleEmpty,[]),[]⟩ = true := by decide +kernel
  obtain ⟨r,h,hr⟩ := returns_ok hreturns
  obtain ⟨-,hcovers,-,hends,-⟩ := replay_covers samplePlatform 100 102 1 1 sampleNative (by omega)
    (by omega) (by omega) sampleIds 3 sampleEmpty rfl []
  obtain ⟨p,h',hp⟩ := hends (unfailing_of samplePlatform 100 102 1 1 sampleNative hr) (by decide)
    (by decide)
  obtain ⟨hstart,hheader,hrange⟩ := hcovers p h' hp
  refine ⟨⟨p,h',hp,hstart,hheader⟩,hrange,?_⟩
  exact ((replay_covers samplePlatform 100 101 1 1 sampleNative (by omega) (by omega) (by omega)
    sampleIds 3 sampleWorld rfl []).2.2.2.2 _ rfl (by decide) (by omega)).1

end Sample
end EvmState.Chunks
