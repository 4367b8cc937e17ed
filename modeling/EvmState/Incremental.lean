import EvmState.Preflight

/-!
# The candidate of a build over a base checkpoint

The union of the base rows, the prefix rows and the raw rows is compared with
the state that the base slots have after all recorded changes, in their
order. A prefix has no rows for slots that its blocks left at zero, so a base
slot that was cleared there and is not touched later still has its base row.
-/

set_option autoImplicit false

namespace EvmState.Incremental
open EvmState.Hex EvmState.Fallible EvmState.OrderedMap EvmState.Params EvmState.BlockProjection
open EvmState.Timeline EvmState.Store EvmState.Queries EvmState.Encoding EvmState.Interval
open EvmState.Bootstrap EvmState.Summary EvmState.Compaction EvmState.Preflight EvmState.Reference
open EvmState.BlockRows

def Touches (b : BlockState) (a k : String) : Prop :=
  (∃ v ∈ b.storage, v.address = a ∧ v.slot = k) ∨
    ∃ e ∈ b.lifecycle, e.kind = .storageReset ∧ e.address = a

def Mentions (b : BlockState) (a : String) : Prop := ∃ k, Touches b a k

theorem joinAccounts_injective {l m : List String} (hl : Canonical l) (hm : Canonical m)
    (h : joinAccounts l = joinAccounts m) : l = m := by
  have hfree : ∀ {n : List String}, Canonical n → ∀ t ∈ n.map String.toList, ',' ∉ t := by
    intro n hn t ht
    obtain ⟨a,ha,rfl⟩ := List.mem_map.mp ht
    obtain ⟨b,-,rfl⟩ := hn.address a ha
    have hlist : (hex b).toList = '0' :: 'x' :: encodeChars b := by simp [hex, encode]
    rw [hlist]
    intro hc
    simp only [List.mem_cons] at hc
    rcases hc with hc | hc | hc
    · exact absurd hc (by decide)
    · exact absurd hc (by decide)
    · exact absurd (encodeChars_lower hc) (by decide)
  have hsplit : ∀ {n : List String}, Canonical n →
      (joinAccounts n).toList.splitOn ',' = n.map String.toList := by
    intro n hn
    have hne : n.map String.toList ≠ [] := by simpa using hn.nonempty
    have := List.splitOn_intercalate ',' (hfree hn) hne
    rw [← this, joinAccounts, String.toList_intercalate]
    rfl
  have hmap : l.map String.toList = m.map String.toList := by rw [← hsplit hl, ← hsplit hm, h]
  exact List.map_injective_iff.mpr (fun _ _ he => String.toList_injective he) hmap

theorem canonical_filter (f : Filter) (hf : f.isEmpty = false) :
    ∃ l, Canonical l ∧ f.canonical = joinAccounts l ∧ ∀ a, a ∈ f.accounts → hex a ∈ l := by
  refine ⟨(f.accounts.map hex).insertionSort (· ≤ ·),⟨?_,?_,?_⟩,rfl,?_⟩
  · have hsorted := List.pairwise_insertionSort (· ≤ ·) (f.accounts.map hex)
    have hnodup : ((f.accounts.map hex).insertionSort (· ≤ ·)).Nodup :=
      (List.perm_insertionSort _ _).nodup_iff.mpr (f.nodup.map hex_injective)
    exact (hsorted.and hnodup).imp (fun h => lt_of_le_of_ne h.1 h.2)
  · intro a ha
    obtain ⟨b,hb,rfl⟩ := List.mem_map.mp ((List.mem_insertionSort (· ≤ ·)).mp ha)
    exact ⟨b,f.twenty b hb,rfl⟩
  · intro he
    have hlen := congrArg List.length he
    rw [List.length_insertionSort, List.length_map, List.length_nil] at hlen
    rw [Filter.isEmpty, List.length_eq_zero_iff.mp hlen] at hf
    cases hf
  · intro a ha
    exact (List.mem_insertionSort (· ≤ ·)).mpr (List.mem_map_of_mem ha)

theorem projected_accounts {b : BlockState} (hb : Projected b) :
    ∃ l, Canonical l ∧ b.accounts = joinAccounts l ∧ ∀ a, Mentions b a → a ∈ l := by
  obtain ⟨params,block,h⟩ := hb
  obtain ⟨filter,hf,hrest⟩ := bind_ok.mp h
  obtain ⟨_,hcheck,-⟩ := bind_ok.mp hrest
  obtain ⟨_,hne,-⟩ := bind_ok.mp hcheck
  have hne := ensure_ok.mp hne
  obtain ⟨-,htext,records,ds,-,hmade⟩ := project_made hf h
  obtain ⟨l,hl,hcanon,hin⟩ := canonical_filter filter hne
  refine ⟨l,hl,htext.trans hcanon,?_⟩
  have hevent : ∀ o e, (o,e) ∈ events filter records block → hex e.account ∈ l := by
    intro o e he
    exact hin _ ((Filter.matches_mem hne).mp (mem_events.mp he).2)
  rintro a ⟨k,⟨v,hv,rfl,-⟩ | ⟨e,he,hk,rfl⟩⟩
  · obtain ⟨m,lst,ht,hlst,hs⟩ := hmade.storage
    obtain ⟨o,c,j,x,hget,rfl,-⟩ := (mem_storage ht hlst hs v).mp hv
    obtain ⟨o',c',j',x',hmem,-,heq⟩ := (hlst _ _).mp ((ht _).1 _ hget)
    have hsame : (slotValue o c j x).address = hex c' := by rw [heq]; rfl
    rw [hsame]
    exact hevent o' _ hmem
  · obtain ⟨addr,kind,o⟩ := e
    obtain rfl : kind = .storageReset := hk
    obtain ⟨d,hd,rfl,-⟩ := (hmade.resets o addr).mp he
    exact hevent d.2 _ (hmade.deletions.sound d hd)

/-- A base slot that the prefix of a source hides: its blocks touched the
slot, no row of the prefix has it and no later raw row touches it. -/
def Lost (db : SourceDb) (source : Source) (rows : List BlockState) (a k : String) : Prop :=
  ∃ p, source.bootstrap = some p ∧
    (∃ b ∈ rows, b.number ≤ p.header.number ∧ Touches b a k) ∧
    (∀ r ∈ generationRows db p.generation, ¬(r.address = a ∧ r.slot = k)) ∧
    ∀ b ∈ rows, p.header.number < b.number → ¬Touches b a k

section Source
variable (databases : String → SourceDb) (last : ℕ)

def recorded (rows : List BlockState) : History Position String String String :=
  stack BlockState.number blockStorage rows

def sourceHistory (source : Source) : History Position String String String :=
  unionHistory (sourceStorage databases last source) (sourceResets databases last source)

variable {databases last}

theorem recorded_append (before after : List BlockState) :
    recorded (before++after) = join (recorded before) (recorded after) := stack_append _

theorem recorded_untouched {rows : List BlockState} {a k : String} :
    Untouched (recorded rows) a k ↔ ∀ b ∈ rows, ¬Touches b a k := by
  constructor
  · rintro ⟨hw,hz⟩ b hb (⟨v,hv,rfl,rfl⟩ | ⟨⟨_,_,o⟩,he,rfl,rfl⟩)
    · exact hw (toLex (b.number,v.ordinal)) v.value ⟨b,hb,rfl,hv⟩
    · exact hz (toLex (b.number,o)) ⟨b,hb,rfl,he⟩
  · intro h
    refine ⟨?_,?_⟩
    · rintro p v ⟨b,hb,-,hv⟩
      exact h b hb (Or.inl ⟨_,hv,rfl,rfl⟩)
    · rintro p ⟨b,hb,-,he⟩
      exact h b hb (Or.inr ⟨_,he,rfl,rfl⟩)

structure Part (databases : String → SourceDb) (last : ℕ) (source : Source) (cohort : List String)
    (rows : List BlockState) : Prop where
  records : Records (databases source.database) source last rows
  delta : source.deltaStart = source.bootstrap.map (fun p => p.header.number+1)
  linked : Linked source.startBlock none rows
  wellFormed : ∀ b ∈ rows, WellFormed b
  mentions : ∀ b ∈ rows, ∀ a, Mentions b a → a ∈ cohort

variable {source : Source} {cohort : List String} {rows : List BlockState}

theorem part_distinct (h : Part databases last source cohort rows) : Distinct rows :=
  (linked_sorted h.linked).imp (fun h => h.ne)

/-- The rows of a source with a prefix, cut at its end. -/
structure Cut (databases : String → SourceDb) (last : ℕ) (source : Source) (p : Prefix)
    (before after : List BlockState) : Prop where
  history : sourceHistory databases last source =
    join (summary (toLex (p.header.number,0)) (· ≠ zero) (recorded before)) (recorded after)
  early : ∀ b ∈ before, b.number ≤ p.header.number
  late : ∀ b ∈ after, p.header.number < b.number
  stored : ∀ a k, (∃ r ∈ generationRows (databases source.database) p.generation,
    r.address = a ∧ r.slot = k) ↔ ∃ v, Holds (recorded before) a k v ∧ v ≠ zero
  start : source.startBlock ≤ p.header.number

theorem part_none (h : Part databases last source cohort rows) (hb : source.bootstrap = none) :
    sourceHistory databases last source = recorded rows := by
  have hr := h.records
  simp only [Records, hb] at hr
  have hd := h.delta
  rw [hb, Option.map_none] at hd
  rw [sourceHistory, sourceStorage, sourceResets, sourceBlocks, Source.rawStart, hb, hd,
    Option.getD_none, ← hr, List.nil_append, unionHistory_raw]
  rfl

theorem part_some (h : Part databases last source cohort rows) {p : Prefix}
    (hb : source.bootstrap = some p) :
    ∃ before after, rows = before++after ∧ Cut databases last source p before after := by
  have hr := h.records
  simp only [Records, hb] at hr
  obtain ⟨before,hsum,rfl⟩ := hr
  have hd := h.delta
  rw [hb, Option.map_some] at hd
  have hdist : Distinct before := (List.pairwise_append.mp (part_distinct h)).1
  have hwell : ∀ b ∈ before, WellFormed b := fun b hm => h.wellFormed b (List.mem_append_left _ hm)
  refine ⟨before,_,rfl,?_,?_,between_above,?_,?_⟩
  · rw [sourceHistory, sourceStorage, sourceResets, sourceBlocks, Source.rawStart, hb, hd,
      Option.getD_some]
    simp only [prefixStorage_summary hsum.rows]
    exact summary_history p.header.number _ hdist hwell
  · intro b hm
    have hn := linked_number hsum.linked b hm
    have := hsum.complete
    omega
  · intro a k
    have hget : ∀ v, (Holds (recorded before) a k v ∧ v ≠ zero) ↔
        ((toLex (a,k) : SlotKey),v) ∈
          (generationRows (databases source.database) p.generation).map rowEntry := by
      intro v
      rw [hsum.rows, SortedMap.mem_entries]
      exact (directSlots_holds hdist hwell).symm
    simp only [hget, List.mem_map, rowEntry, Prod.mk.injEq, toLex_inj]
    constructor
    · rintro ⟨r,hr,rfl,rfl⟩
      exact ⟨r.value,r,hr,⟨rfl,rfl⟩,rfl⟩
    · rintro ⟨v,r,hr,⟨rfl,rfl⟩,rfl⟩
      exact ⟨r,hr,rfl,rfl⟩
  · have hlink := (linked_append.mp h.linked).1
    have hne := summarises_ne_nil hsum
    obtain ⟨b,hm⟩ := List.exists_mem_of_ne_nil _ hne
    have h1 := (linked_number hlink b hm).1
    have h2 := linked_number hsum.linked b hm
    have := hsum.complete
    omega

theorem part_holds (h : Part databases last source cohort rows) {a k v : String} (hv : v ≠ zero) :
    Holds (sourceHistory databases last source) a k v ↔ Holds (recorded rows) a k v := by
  cases hb : source.bootstrap with
  | none => rw [part_none h hb]
  | some p =>
    obtain ⟨before,after,rfl,hc⟩ := part_some h hb
    rw [hc.history, recorded_append]
    exact holds_summary_join (· ≠ zero) lt_next (stack_below blockStorage hc.early)
      (stack_from blockStorage hc.late) a k hv

theorem part_untouched (h : Part databases last source cohort rows) {a k : String} :
    Untouched (sourceHistory databases last source) a k ↔
      Untouched (recorded rows) a k ∨ Lost (databases source.database) source rows a k := by
  cases hb : source.bootstrap with
  | none =>
    rw [part_none h hb]
    simp [Lost, hb]
  | some p =>
    obtain ⟨before,after,rfl,hc⟩ := part_some h hb
    have hsplit : Untouched (sourceHistory databases last source) a k ↔
        (¬∃ v, Holds (recorded before) a k v ∧ v ≠ zero) ∧ Untouched (recorded after) a k := by
      rw [hc.history]
      simp only [Untouched, join, summary, not_or, not_and, not_exists, forall_and,
        not_false_eq_true, true_and]
      tauto
    have hall : Untouched (recorded (before++after)) a k ↔
        Untouched (recorded before) a k ∧ Untouched (recorded after) a k := by
      simp only [recorded_untouched, List.mem_append, or_imp, forall_and]
    have hheld : Untouched (recorded before) a k →
        ¬∃ v, Holds (recorded before) a k v ∧ v ≠ zero := by
      rintro hu ⟨v,hv,_⟩
      exact untouched_not_holds hu hv
    have hlost : Lost (databases source.database) source (before++after) a k ↔
        ¬Untouched (recorded before) a k ∧ (¬∃ v, Holds (recorded before) a k v ∧ v ≠ zero) ∧
          Untouched (recorded after) a k := by
      rw [← hc.stored, recorded_untouched, recorded_untouched]
      simp only [Lost, hb, Option.some.injEq, exists_eq_left', not_forall, not_not, exists_prop,
        not_exists, not_and, List.mem_append]
      refine and_congr ⟨?_,?_⟩ (and_congr Iff.rfl ⟨?_,?_⟩)
      · rintro ⟨b,hm | hm,hn,ht⟩
        · exact ⟨b,hm,ht⟩
        · exact absurd hn (not_le.mpr (hc.late b hm))
      · rintro ⟨b,hm,ht⟩
        exact ⟨b,Or.inl hm,hc.early b hm,ht⟩
      · exact fun hn b hm => hn b (Or.inr hm) (hc.late b hm)
      · rintro hn b (hm | hm) hlt
        · exact absurd (hc.early b hm) (not_le.mpr hlt)
        · exact hn b hm
    rw [hsplit, hall, hlost]
    tauto

theorem part_from (h : Part databases last source cohort rows) :
    From (sourceHistory databases last source) (toLex (source.startBlock,0)) := by
  have hle : ∀ {n o : ℕ}, source.startBlock ≤ n →
      (toLex (source.startBlock,0) : Position) ≤ toLex (n,o) := by
    intro n o hn
    rw [Prod.Lex.toLex_le_toLex]
    rcases Nat.eq_or_lt_of_le hn with he | hlt
    · exact Or.inr ⟨he,Nat.zero_le _⟩
    · exact Or.inl hlt
  have hraw : From (recorded rows) (toLex (source.startBlock,0)) := by
    refine ⟨?_,?_⟩
    · rintro p a k v ⟨b,hb,hn,-⟩
      exact hle (n := (ofLex p).1) (o := (ofLex p).2) (hn ▸ (linked_number h.linked b hb).1)
    · rintro p a ⟨b,hb,hn,-⟩
      exact hle (n := (ofLex p).1) (o := (ofLex p).2) (hn ▸ (linked_number h.linked b hb).1)
  cases hb : source.bootstrap with
  | none =>
    rw [part_none h hb]
    exact hraw
  | some p =>
    obtain ⟨before,after,rfl,hc⟩ := part_some h hb
    rw [hc.history]
    refine ⟨?_,?_⟩
    · rintro q a k v (⟨rfl,-⟩ | ⟨b,hm,hw⟩)
      · exact hle hc.start
      · exact hraw.1 q a k v ⟨b,List.mem_append_right _ hm,hw⟩
    · rintro q a (hf | ⟨b,hm,hw⟩)
      · exact hf.elim
      · exact hraw.2 q a ⟨b,List.mem_append_right _ hm,hw⟩

theorem recorded_functional (h : Part databases last source cohort rows) :
    Functional (recorded rows) :=
  storage_functional (part_distinct h) h.wellFormed

theorem part_functional (h : Part databases last source cohort rows) :
    Functional (sourceHistory databases last source) := by
  cases hb : source.bootstrap with
  | none =>
    rw [part_none h hb]
    exact recorded_functional h
  | some p =>
    have hf := recorded_functional h
    obtain ⟨before,after,rfl,hc⟩ := part_some h hb
    have hbefore : Functional (recorded before) := fun q a k v w ⟨b,hm,hv⟩ ⟨c,hn,hw⟩ =>
      hf q a k v w ⟨b,List.mem_append_left _ hm,hv⟩ ⟨c,List.mem_append_left _ hn,hw⟩
    have hafter : Functional (recorded after) := fun q a k v w ⟨b,hm,hv⟩ ⟨c,hn,hw⟩ =>
      hf q a k v w ⟨b,List.mem_append_right _ hm,hv⟩ ⟨c,List.mem_append_right _ hn,hw⟩
    have hfrom := stack_from blockStorage hc.late
    rw [hc.history]
    rintro q a k v w (⟨rfl,hv,-⟩ | hv) (⟨hq,hw,-⟩ | hw)
    · exact holds_unique hbefore hv hw
    · exact absurd (hfrom.1 _ a k w hw) (not_le.mpr lt_next)
    · exact absurd (hfrom.1 _ a k v hv) (not_le.mpr (hq ▸ lt_next))
    · exact hafter q a k v w hv hw

theorem part_accounts (h : Part databases last source cohort rows) {a : String}
    (ha : a ∉ cohort) (k : String) : Untouched (sourceHistory databases last source) a k := by
  refine (part_untouched h).mpr (Or.inl (recorded_untouched.mpr (fun b hb ht => ?_)))
  exact ha (h.mentions b hb a ⟨k,ht⟩)

end Source
def baseSlot (checkpoints : CheckpointDb) (base : Base) (a k : String) : Option String :=
  (checkpoints.storage.rows.find? (fun r => r.snapshotId = base.snapshotId && r.address = a &&
    r.slot = k)).map (·.value)

def blockChanges (b : BlockState) : List (Position × Change String String String) :=
  b.storage.map (fun v => (toLex (b.number,v.ordinal),.write v.address v.slot v.value)) ++
    (b.lifecycle.filter (fun e => e.kind = .storageReset)).map
      (fun e => (toLex (b.number,e.ordinal),.reset e.address))

/-- All recorded storage changes, in the order of their positions. -/
def changes (histories : List (List BlockState)) : List (Position × Change String String String) :=
  (histories.flatten.flatMap blockChanges).insertionSort (fun x y => x.1 ≤ y.1)

/-- The base slots after all recorded changes. -/
def applied (checkpoints : CheckpointDb) (base : Base) (histories : List (List BlockState)) :
    String → String → Option String :=
  replay (baseSlot checkpoints base) (changes histories)

theorem ofList_changes (histories : List (List BlockState)) :
    ofList (changes histories) = recorded histories.flatten := by
  have hw : ∀ p a k v, (p,Change.write a k v) ∈ changes histories ↔
      (recorded histories.flatten).wrote p a k v := by
    intro p a k v
    rw [changes, List.mem_insertionSort]
    simp only [List.mem_flatMap, blockChanges, List.mem_append, List.mem_map, Prod.mk.injEq,
      Change.write.injEq, reduceCtorEq, and_false, exists_false, or_false]
    refine exists_congr (fun b => and_congr_right (fun _ => ⟨?_,?_⟩))
    · rintro ⟨⟨a',k',v',o⟩,hv,rfl,rfl,rfl,rfl⟩
      exact ⟨rfl,hv⟩
    · rintro ⟨hn,hv⟩
      exact ⟨_,hv,by rw [hn]; rfl,rfl,rfl,rfl⟩
  have hr : ∀ p a, (p,Change.reset (K := String) (V := String) a) ∈ changes histories ↔
      (recorded histories.flatten).wiped p a := by
    intro p a
    rw [changes, List.mem_insertionSort]
    simp only [List.mem_flatMap, blockChanges, List.mem_append, List.mem_map, Prod.mk.injEq,
      Change.reset.injEq, reduceCtorEq, and_false, exists_false, false_or, List.mem_filter,
      decide_eq_true_eq]
    refine exists_congr (fun b => and_congr_right (fun _ => ⟨?_,?_⟩))
    · rintro ⟨⟨a',kind,o⟩,⟨he,rfl⟩,rfl,rfl⟩
      exact ⟨rfl,he⟩
    · rintro ⟨hn,he⟩
      exact ⟨_,⟨he,rfl⟩,by rw [hn]; rfl,rfl⟩
  simp only [ofList, hw, hr]

def baseHistory (checkpoints : CheckpointDb) (base : Base) :
    History Position String String String where
  wrote p a k v := ⟨a,k,v,p⟩ ∈ baseStorage checkpoints base
  wiped _ _ := False

section Base
variable {checkpoints : CheckpointDb} {base : Base}

theorem mem_baseStorage {p : Position} {a k v : String} :
    ⟨a,k,v,p⟩ ∈ baseStorage checkpoints base ↔
      p = toLex (base.number,0) ∧ baseSlot checkpoints base a k = some v := by
  have hfind : ∀ r, checkpoints.storage.rows.find? (fun r => r.snapshotId = base.snapshotId &&
      r.address = a && r.slot = k) = some r ↔ r ∈ checkpoints.storage.rows ∧
      r.snapshotId = base.snapshotId ∧ r.address = a ∧ r.slot = k := by
    intro r
    constructor
    · intro h
      have hp := List.find?_some h
      simp only [Bool.and_eq_true, decide_eq_true_eq] at hp
      exact ⟨List.mem_of_find?_eq_some h,hp.1.1,hp.1.2,hp.2⟩
    · rintro ⟨hr,hs,ha,hk⟩
      cases hf : checkpoints.storage.rows.find? (fun r => r.snapshotId = base.snapshotId &&
          r.address = a && r.slot = k) with
      | none => exact absurd (List.find?_eq_none.mp hf r hr) (by simp [hs, ha, hk])
      | some q =>
        have hp := List.find?_some hf
        simp only [Bool.and_eq_true, decide_eq_true_eq] at hp
        have hq := List.mem_of_find?_eq_some hf
        have : q = r := checkpoints.storage.key_unique hq hr
          (by simp only [storageKey, hp.1.1, hp.1.2, hp.2, hs, ha, hk])
        rw [this]
  simp only [baseStorage, List.mem_map, List.mem_filter, decide_eq_true_eq, UnionRow.mk.injEq,
    baseSlot, Option.map_eq_some_iff, hfind]
  constructor
  · rintro ⟨r,⟨hr,hs⟩,rfl,rfl,rfl,rfl⟩
    exact ⟨rfl,r,⟨hr,hs,rfl,rfl⟩,rfl⟩
  · rintro ⟨rfl,r,⟨hr,hs,rfl,rfl⟩,rfl⟩
    exact ⟨r,⟨hr,hs⟩,rfl,rfl,rfl,rfl⟩

theorem baseHistory_holds {a k v : String} :
    Holds (baseHistory checkpoints base) a k v ↔ baseSlot checkpoints base a k = some v := by
  constructor
  · rintro ⟨p,hw,-,-⟩
    exact (mem_baseStorage.mp hw).2
  · intro h
    refine ⟨toLex (base.number,0),mem_baseStorage.mpr ⟨rfl,h⟩,fun q w hq => ?_,fun _ hf => hf.elim⟩
    rw [(mem_baseStorage.mp hq).1]

theorem baseSlot_some {a k v : String} (h : baseSlot checkpoints base a k = some v) :
    ∃ r ∈ checkpoints.storage.rows, r.snapshotId = base.snapshotId ∧ r.address = a ∧ r.slot = k ∧
      r.value = v := by
  have hm : ⟨a,k,v,toLex (base.number,0)⟩ ∈ baseStorage checkpoints base :=
    mem_baseStorage.mpr ⟨rfl,h⟩
  obtain ⟨r,hr,he⟩ := List.mem_map.mp hm
  obtain ⟨hr,hs⟩ := List.mem_filter.mp hr
  cases he
  exact ⟨r,hr,by simpa using hs,rfl,rfl,rfl⟩

theorem baseSlot_row {r : StorageRow} (hr : r ∈ checkpoints.storage.rows)
    (hs : r.snapshotId = base.snapshotId) :
    baseSlot checkpoints base r.address r.slot = some r.value := by
  have hm : ⟨r.address,r.slot,r.value,toLex (base.number,0)⟩ ∈ baseStorage checkpoints base :=
    List.mem_map.mpr ⟨r,List.mem_filter.mpr ⟨hr,by simp [hs]⟩,rfl⟩
  exact (mem_baseStorage.mp hm).2

end Base

section Whole
variable {databases : String → SourceDb} {last : ℕ} {checkpoints : CheckpointDb} {base : Base}
  {parts : List (Source × List String × List BlockState)}

/-- The changes of a base checkpoint and of checked sources, as the union
query takes them. -/
def wholeHistory (databases : String → SourceDb) (last : ℕ) (checkpoints : CheckpointDb)
    (base : Base) (sources : List Source) : History Position String String String :=
  unionHistory (sources.flatMap (sourceStorage databases last) ++ baseStorage checkpoints base)
    (sources.flatMap (sourceResets databases last))

/-- What the preflight leaves: parts with disjoint cohorts, those that meet
the base accounts right after the base. -/
structure Parts (databases : String → SourceDb) (last : ℕ) (checkpoints : CheckpointDb)
    (base : Base) (parts : List (Source × List String × List BlockState)) : Prop where
  part : ∀ x ∈ parts, Part databases last x.1 x.2.1 x.2.2
  disjoint : parts.Pairwise (fun x y => ∀ a ∈ x.2.1, a ∉ y.2.1)
  continues : ∀ x ∈ parts, ∀ a ∈ x.2.1, a ∈ base.accounts → x.1.startBlock = base.number+1
  ready : ∀ r ∈ checkpoints.storage.rows, r.snapshotId = base.snapshotId → r.address ∈ base.accounts

theorem Parts.unique (h : Parts databases last checkpoints base parts)
    {x y : Source × List String × List BlockState} (hx : x ∈ parts) (hy : y ∈ parts) {a : String}
    (ha : a ∈ x.2.1) (hb : a ∈ y.2.1) : x = y := by
  by_contra hne
  have hsymm : Std.Symm (fun x y : Source × List String × List BlockState =>
      ∀ a ∈ x.2.1, a ∉ y.2.1) := ⟨fun _ _ h a ha hb => h a hb ha⟩
  exact h.disjoint.forall hx hy hne a ha hb

theorem whole_wrote {p : Position} {a k v : String} :
    (wholeHistory databases last checkpoints base (parts.map Prod.fst)).wrote p a k v ↔
      (∃ x ∈ parts, (sourceHistory databases last x.1).wrote p a k v) ∨
        (baseHistory checkpoints base).wrote p a k v := by
  simp [wholeHistory, unionHistory, sourceHistory, baseHistory]

theorem whole_wiped {p : Position} {a : String} :
    (wholeHistory databases last checkpoints base (parts.map Prod.fst)).wiped p a ↔
      ∃ x ∈ parts, (sourceHistory databases last x.1).wiped p a := by
  simp [wholeHistory, unionHistory, sourceHistory]

theorem Parts.base_outside (h : Parts databases last checkpoints base parts) {a : String}
    (ha : a ∉ base.accounts) (k : String) : baseSlot checkpoints base a k = none := by
  refine Option.eq_none_iff_forall_ne_some.mpr (fun v hv => ha ?_)
  obtain ⟨r,hr,hs,rfl,-,-⟩ := baseSlot_some hv
  exact h.ready r hr hs

/-- At an account of a cohort the whole is the base followed by that source. -/
theorem Parts.agree (h : Parts databases last checkpoints base parts)
    {x : Source × List String × List BlockState} (hx : x ∈ parts) {a : String} (ha : a ∈ x.2.1) :
    Agree (wholeHistory databases last checkpoints base (parts.map Prod.fst))
      (join (baseHistory checkpoints base) (sourceHistory databases last x.1)) a := by
  have hother : ∀ y ∈ parts, (∃ k, ¬Untouched (sourceHistory databases last y.1) a k) → y = x := by
    rintro y hy ⟨k,hk⟩
    by_contra hne
    refine hk (part_accounts (h.part y hy) (fun hb => hne (h.unique hy hx hb ha)) k)
  constructor
  · intro p k v
    rw [whole_wrote]
    constructor
    · rintro (⟨y,hy,hw⟩ | hw)
      · obtain rfl := hother y hy ⟨k,fun hu => hu.1 p v hw⟩
        exact Or.inr hw
      · exact Or.inl hw
    · rintro (hw | hw)
      · exact Or.inr hw
      · exact Or.inl ⟨x,hx,hw⟩
  · intro p
    rw [whole_wiped]
    constructor
    · rintro ⟨y,hy,hw⟩
      obtain rfl := hother y hy ⟨"",fun hu => hu.2 p hw⟩
      exact Or.inr hw
    · rintro (hw | hw)
      · exact hw.elim
      · exact ⟨x,hx,hw⟩

theorem Parts.agree_base (h : Parts databases last checkpoints base parts) {a : String}
    (ha : ∀ x ∈ parts, a ∉ x.2.1) :
    Agree (wholeHistory databases last checkpoints base (parts.map Prod.fst))
      (baseHistory checkpoints base) a := by
  constructor
  · intro p k v
    rw [whole_wrote]
    constructor
    · rintro (⟨y,hy,hw⟩ | hw)
      · exact absurd hw ((part_accounts (h.part y hy) (ha y hy) k).1 p v)
      · exact hw
    · exact Or.inr
  · intro p
    rw [whole_wiped]
    constructor
    · rintro ⟨y,hy,hw⟩
      exact absurd hw ((part_accounts (h.part y hy) (ha y hy) "").2 p)
    · exact fun hf => hf.elim

theorem Parts.ordered (h : Parts databases last checkpoints base parts)
    {x : Source × List String × List BlockState} (hx : x ∈ parts) {a : String} (ha : a ∈ x.2.1)
    (hb : a ∈ base.accounts) :
    Below (baseHistory checkpoints base) (toLex (base.number+1,0) : Position) ∧
      From (sourceHistory databases last x.1) (toLex (base.number+1,0)) := by
  refine ⟨⟨fun p b k v hw => ?_,fun _ _ hf => hf.elim⟩,?_⟩
  · rw [(mem_baseStorage.mp hw).1]
    exact lt_next
  · rw [← h.continues x hx a ha hb]
    exact part_from (h.part x hx)

theorem Parts.functional (h : Parts databases last checkpoints base parts) :
    Functional (wholeHistory databases last checkpoints base (parts.map Prod.fst)) := by
  intro p a k v w hv hw
  have hbase : (baseHistory checkpoints base).wrote p a k v →
      (baseHistory checkpoints base).wrote p a k w → v = w := fun hv hw =>
    Option.some.inj ((mem_baseStorage.mp hv).2.symm.trans (mem_baseStorage.mp hw).2)
  by_cases ha : ∃ x ∈ parts, a ∈ x.2.1
  · obtain ⟨x,hx,ha⟩ := ha
    rw [(h.agree hx ha).wrote] at hv hw
    have hmixed : ∀ u t, (baseHistory checkpoints base).wrote p a k u →
        ¬(sourceHistory databases last x.1).wrote p a k t := by
      intro u t hu ht
      obtain ⟨hp,hs⟩ := mem_baseStorage.mp hu
      obtain ⟨r,hr,hid,rfl,-,-⟩ := baseSlot_some hs
      obtain ⟨hbelow,hfrom⟩ := h.ordered hx ha (h.ready r hr hid)
      exact absurd (hbelow.1 p _ k u hu) (not_lt.mpr (hfrom.1 p _ k t ht))
    rcases hv with hv | hv <;> rcases hw with hw | hw
    · exact hbase hv hw
    · exact absurd hw (hmixed v w hv)
    · exact absurd hv (hmixed w v hw)
    · exact part_functional (h.part x hx) p a k v w hv hw
  · push Not at ha
    rw [(h.agree_base ha).wrote] at hv hw
    exact hbase hv hw

/-- What the union holds at an account of a cohort. -/
theorem Parts.whole_holds (h : Parts databases last checkpoints base parts)
    {x : Source × List String × List BlockState} (hx : x ∈ parts) {a : String} (ha : a ∈ x.2.1)
    {k v : String} :
    Holds (wholeHistory databases last checkpoints base (parts.map Prod.fst)) a k v ↔
      Holds (sourceHistory databases last x.1) a k v ∨
        (Untouched (sourceHistory databases last x.1) a k ∧
          baseSlot checkpoints base a k = some v) := by
  rw [(h.agree hx ha).holds]
  by_cases hb : a ∈ base.accounts
  · obtain ⟨hbelow,hfrom⟩ := h.ordered hx ha hb
    rw [holds_join hbelow hfrom, baseHistory_holds]
  · have hnone := h.base_outside hb
    have hagree : Agree (join (baseHistory checkpoints base) (sourceHistory databases last x.1))
        (sourceHistory databases last x.1) a := by
      refine ⟨fun p j w => ⟨?_,Or.inr⟩,fun p => ⟨?_,Or.inr⟩⟩
      · rintro (hw | hw)
        · have := (mem_baseStorage.mp hw).2
          rw [hnone j] at this
          cases this
        · exact hw
      · rintro (hf | hw)
        · exact hf.elim
        · exact hw
    rw [hagree.holds, hnone k]
    simp

theorem recorded_agree (h : Parts databases last checkpoints base parts)
    {x : Source × List String × List BlockState} (hx : x ∈ parts) {a : String} (ha : a ∈ x.2.1) :
    Agree (recorded (parts.map (·.2.2)).flatten) (recorded x.2.2) a := by
  have hmem : ∀ b ∈ (parts.map (·.2.2)).flatten, Mentions b a → b ∈ x.2.2 := by
    intro b hb hm
    obtain ⟨rows,hrows,hb⟩ := List.mem_flatten.mp hb
    obtain ⟨y,hy,rfl⟩ := List.mem_map.mp hrows
    obtain rfl := h.unique hy hx ((h.part y hy).mentions b hb a hm) ha
    exact hb
  have hin : ∀ b ∈ x.2.2, b ∈ (parts.map (·.2.2)).flatten := fun b hb =>
    List.mem_flatten.mpr ⟨_,List.mem_map_of_mem hx,hb⟩
  constructor
  · rintro p k v
    constructor
    · rintro ⟨b,hb,hn,hv⟩
      exact ⟨b,hmem b hb ⟨k,Or.inl ⟨_,hv,rfl,rfl⟩⟩,hn,hv⟩
    · rintro ⟨b,hb,hn,hv⟩
      exact ⟨b,hin b hb,hn,hv⟩
  · rintro p
    constructor
    · rintro ⟨b,hb,hn,he⟩
      exact ⟨b,hmem b hb ⟨"",Or.inr ⟨_,he,rfl,rfl⟩⟩,hn,he⟩
    · rintro ⟨b,hb,hn,he⟩
      exact ⟨b,hin b hb,hn,he⟩

theorem recorded_outside (h : Parts databases last checkpoints base parts) {a : String}
    (ha : ∀ x ∈ parts, a ∉ x.2.1) (k : String) :
    Untouched (recorded (parts.map (·.2.2)).flatten) a k := by
  refine recorded_untouched.mpr (fun b hb ht => ?_)
  obtain ⟨rows,hrows,hb⟩ := List.mem_flatten.mp hb
  obtain ⟨y,hy,rfl⟩ := List.mem_map.mp hrows
  exact ha y hy ((h.part y hy).mentions b hb a ⟨k,ht⟩)

theorem mem_changes_write {histories : List (List BlockState)} {p : Position} {a k v : String} :
    (p,Change.write a k v) ∈ changes histories ↔ (recorded histories.flatten).wrote p a k v := by
  rw [← ofList_changes]
  rfl

theorem mem_changes_reset {histories : List (List BlockState)} {p : Position} {a : String} :
    (p,Change.reset (K := String) (V := String) a) ∈ changes histories ↔
      (recorded histories.flatten).wiped p a := by
  rw [← ofList_changes]
  rfl

theorem Parts.owner (h : Parts databases last checkpoints base parts) {a k : String}
    (hu : ¬Untouched (recorded (parts.map (·.2.2)).flatten) a k) : ∃ x ∈ parts, a ∈ x.2.1 := by
  by_contra hn
  push Not at hn
  exact hu (recorded_outside h hn k)

theorem Parts.separate (h : Parts databases last checkpoints base parts) {p : Position}
    {a k v : String} (hw : (recorded (parts.map (·.2.2)).flatten).wrote p a k v) :
    ¬(recorded (parts.map (·.2.2)).flatten).wiped p a := by
  intro hz
  obtain ⟨x,hx,ha⟩ := h.owner (fun hu => hu.1 p v hw)
  obtain ⟨b,hb,hn,hv⟩ := ((recorded_agree h hx ha).wrote p k v).mp hw
  obtain ⟨c,hc,hm,he⟩ := ((recorded_agree h hx ha).wiped p).mp hz
  obtain rfl := distinct_unique (part_distinct (h.part x hx)) hb hc (hn.trans hm.symm)
  exact absurd (((h.part x hx).wellFormed b hb).kept _ hv _ he rfl rfl) (lt_irrefl _)

theorem Parts.apart (h : Parts databases last checkpoints base parts)
    {e f : Position × Change String String String}
    (he : e ∈ changes (parts.map (·.2.2))) (hf : f ∈ changes (parts.map (·.2.2)))
    (hc : Clash e.2 f.2) : e.1 ≠ f.1 := by
  obtain ⟨p,c⟩ := e
  obtain ⟨q,d⟩ := f
  intro hpq
  obtain rfl : p = q := hpq
  cases c with
  | write a k v =>
    have hw := mem_changes_write.mp he
    cases d with
    | write b j w =>
      obtain ⟨rfl,rfl,hne⟩ := hc
      obtain ⟨x,hx,ha⟩ := h.owner (fun hu => hu.1 p v hw)
      have hag := recorded_agree h hx ha
      exact hne (recorded_functional (h.part x hx) p a k v w ((hag.wrote p k v).mp hw)
        ((hag.wrote p k w).mp (mem_changes_write.mp hf)))
    | reset b =>
      obtain rfl : a = b := hc
      exact h.separate hw (mem_changes_reset.mp hf)
  | reset a =>
    cases d with
    | write b j w =>
      obtain rfl : a = b := hc
      exact h.separate (mem_changes_write.mp hf) (mem_changes_reset.mp he)
    | reset b => exact hc

theorem Parts.applied_iff (h : Parts databases last checkpoints base parts) {a k v : String} :
    applied checkpoints base (parts.map (·.2.2)) a k = some v ↔
      Holds (recorded (parts.map (·.2.2)).flatten) a k v ∨
        (Untouched (recorded (parts.map (·.2.2)).flatten) a k ∧
          baseSlot checkpoints base a k = some v) := by
  have hord : Ordered (changes (parts.map (·.2.2))) := by
    have hsorted := List.pairwise_insertionSort
      (fun x y : Position × Change String String String => x.1 ≤ y.1)
      ((parts.map (·.2.2)).flatten.flatMap blockChanges)
    refine hsorted.imp_of_mem (fun {e f} he hf hle => ⟨hle,fun hc => ?_⟩)
    exact lt_of_le_of_ne hle (h.apart he hf hc)
  rw [applied, replay_holds _ _ hord, ofList_changes]

/-- The union and the changed base differ only in the lost slots. -/
theorem Parts.exact_iff (h : Parts databases last checkpoints base parts) :
    (∀ a k v, (Holds (wholeHistory databases last checkpoints base (parts.map Prod.fst)) a k v ∧
        v ≠ zero) ↔ applied checkpoints base (parts.map (·.2.2)) a k = some v ∧ v ≠ zero) ↔
      ∀ x ∈ parts, ∀ r ∈ checkpoints.storage.rows, r.snapshotId = base.snapshotId →
        r.value ≠ zero → ¬Lost (databases x.1.database) x.1 x.2.2 r.address r.slot := by
  have hat : ∀ x ∈ parts, ∀ a ∈ x.2.1, ∀ k v, v ≠ zero →
      ((Holds (wholeHistory databases last checkpoints base (parts.map Prod.fst)) a k v ↔
        Holds (recorded x.2.2) a k v ∨
          ((Untouched (recorded x.2.2) a k ∨ Lost (databases x.1.database) x.1 x.2.2 a k) ∧
            baseSlot checkpoints base a k = some v)) ∧
      (applied checkpoints base (parts.map (·.2.2)) a k = some v ↔
        Holds (recorded x.2.2) a k v ∨
          (Untouched (recorded x.2.2) a k ∧ baseSlot checkpoints base a k = some v))) := by
    intro x hx a ha k v hv
    have hag := recorded_agree h hx ha
    rw [h.whole_holds hx ha, part_holds (h.part x hx) hv, part_untouched (h.part x hx),
      h.applied_iff, hag.holds, hag.untouched]
    exact ⟨Iff.rfl,Iff.rfl⟩
  constructor
  · intro heq x hx r hr hs hz hlost
    have hb := baseSlot_row hr hs
    have ha : r.address ∈ x.2.1 := by
      obtain ⟨p,-,⟨b,hb,-,ht⟩,-⟩ := hlost
      exact (h.part x hx).mentions b hb _ ⟨_,ht⟩
    obtain ⟨hcode,happ⟩ := hat x hx r.address ha r.slot r.value hz
    have hvalue := (heq r.address r.slot r.value).mp ⟨hcode.mpr (Or.inr ⟨Or.inr hlost,hb⟩),hz⟩
    -- the union holds the base value, and the changes hold something else
    have hun := (part_untouched (h.part x hx)).mpr (Or.inr hlost)
    rcases happ.mp hvalue.1 with hh | ⟨hu,-⟩
    · exact untouched_not_holds hun ((part_holds (h.part x hx) hz).mpr hh)
    · obtain ⟨p,-,⟨b,hb,-,ht⟩,-⟩ := hlost
      exact recorded_untouched.mp hu b hb ht
  · intro hno a k v
    refine and_congr_left (fun hv => ?_)
    by_cases ha : ∃ x ∈ parts, a ∈ x.2.1
    · obtain ⟨x,hx,ha⟩ := ha
      obtain ⟨hcode,happ⟩ := hat x hx a ha k v hv
      rw [hcode, happ]
      refine or_congr_right (and_congr_left (fun hb => or_iff_left (fun hlost => ?_)))
      obtain ⟨r,hr,hs,rfl,rfl,rfl⟩ := baseSlot_some hb
      exact hno x hx r hr hs hv hlost
    · push Not at ha
      have hu := recorded_outside h ha k
      rw [(h.agree_base ha).holds, baseHistory_holds, h.applied_iff]
      simp only [hu, true_and]
      exact (or_iff_right (fun hh => untouched_not_holds hu hh)).symm

end Whole
section Preflight
variable {platform : Platform} {worlds : String → SourceWorld} {base : Base} {accounts : List String}
  {header : Target} {sources checked : List Source} {histories : List (List BlockState)}
  {checkpoints : CheckpointDb}

theorem parts_of_related {cohorts : List (List String)} {R : Source → List String → Prop}
    {S : Source → List BlockState → Prop} (hr : List.Forall₂ R checked cohorts)
    (hs : List.Forall₂ S checked histories) :
    ∃ parts : List (Source × List String × List BlockState), parts.map Prod.fst = checked ∧
      parts.map (·.2.1) = cohorts ∧ parts.map (·.2.2) = histories ∧
      ∀ x ∈ parts, R x.1 x.2.1 ∧ S x.1 x.2.2 := by
  induction hr generalizing histories with
  | nil =>
    cases hs
    exact ⟨[],rfl,rfl,rfl,by simp⟩
  | cons h _ ih =>
    cases hs with
    | cons g gs =>
      obtain ⟨parts,rfl,rfl,rfl,hall⟩ := ih gs
      refine ⟨(_,_,_)::parts,rfl,rfl,rfl,?_⟩
      rintro x hx
      rcases List.mem_cons.mp hx with rfl | hx
      · exact ⟨h,g⟩
      · exact hall x hx

theorem preflight_ok (hp : preflight platform worlds (some base) accounts header sources =
    .ok checked) :
    ∃ cohorts, List.Forall₂ (Checked worlds (some base) header) checked cohorts ∧
      cohorts.Pairwise (fun c d => ∀ a ∈ c, a ∉ d) ∧
      ∀ c ∈ checked, c.deltaStart = c.bootstrap.map (fun p => p.header.number+1) ∧
        ∃ s ∈ sources, c.accounts = s.accounts ∧ c.database = s.database ∧
          ∀ p, c.bootstrap = some p → p.accounts = (worlds s.database).run.accounts := by
  obtain ⟨_,-,hp⟩ := bind_ok.mp hp
  obtain ⟨picked,hm,hp⟩ := bind_ok.mp hp
  obtain ⟨⟨out,seen⟩,hacc,hp⟩ := bind_ok.mp hp
  obtain ⟨_,-,hp⟩ := bind_ok.mp hp
  obtain rfl := pure_ok.mp hp
  obtain ⟨cohorts,hall,hdis,-,-,hkept⟩ := acceptSources_ok hacc
  refine ⟨cohorts,hall,hdis,fun c hc => ?_⟩
  obtain ⟨q,hq,hd,ha,hb,hdelta⟩ := (exists_related hkept).2 c hc
  obtain ⟨s,hs,hsel⟩ := (exists_related (mapM_ok.mp hm)).2 q hq
  obtain ⟨hdb,hac,hst,hpre⟩ := selectPrefix_ok hsel
  refine ⟨by rw [hdelta, hb, hst],s,hs,ha.trans hac,hd.trans hdb,fun p hp => hpre p (hb ▸ hp)⟩

theorem preflight_parts
    (hp : preflight platform worlds (some base) accounts header sources = .ok checked)
    (hverified : ∀ s ∈ sources, verifiedSource (worlds s.database) s = .ok ())
    (hrecords : List.Forall₂
      (fun s rows => Records (worlds s.database).db s header.number rows) checked histories)
    (hprojected : ∀ rows ∈ histories, ∀ b ∈ rows, Projected b)
    (hready : ∀ r ∈ checkpoints.storage.rows, r.snapshotId = base.snapshotId →
      r.address ∈ base.accounts) :
    ∃ parts, Parts (fun d => (worlds d).db) header.number checkpoints base parts ∧
      parts.map Prod.fst = checked ∧ parts.map (·.2.2) = histories := by
  obtain ⟨cohorts,hall,hdis,hgiven⟩ := preflight_ok hp
  obtain ⟨parts,rfl,rfl,rfl,hparts⟩ := parts_of_related hall hrecords
  refine ⟨parts,⟨fun x hx => ?_,List.pairwise_map.mp hdis,fun x hx a ha hb => ?_,hready⟩,rfl,rfl⟩
  · obtain ⟨hcheck,hrec⟩ := hparts x hx
    obtain ⟨hdelta,s,hs,hacc,hdb,hpre⟩ := hgiven x.1 (List.mem_map_of_mem hx)
    have hcanon := accountSet_canonical hcheck.accounts
    have hrun : x.2.1 = (worlds s.database).run.accounts := by
      obtain ⟨selected,hsel,hv⟩ := bind_ok.mp (hverified s hs)
      obtain ⟨_,heq,-⟩ := bind_ok.mp hv
      have := hcheck.accounts
      rw [hacc, hsel] at this
      exact (Except.ok.inj this).symm.trans (ensure_ok.mp heq)
    have hsound := records_sound hcheck hrec (fun p hb => by
      rw [hpre p hb, ← hrun]
      exact accountSet_self hcanon)
    have hmem : ∀ b ∈ x.2.2, Projected b := hprojected _ (List.mem_map_of_mem hx)
    refine ⟨hrec,hdelta,(records_reach hcheck hrec).1.linked,fun b hb => ?_,fun b hb a ha => ?_⟩
    · obtain ⟨params,block,h⟩ := hmem b hb
      exact project_wellFormed h
    · obtain ⟨l,hl,htext,hin⟩ := projected_accounts (hmem b hb)
      obtain rfl := joinAccounts_injective hl hcanon (htext.symm.trans (hsound b hb).accounts)
      exact hin a ha
  · exact ((hparts x hx).1.continues base rfl a ha hb).1

end Preflight

def storageRows (snapshotId : String) (slots : SortedMap SlotKey String) : List StorageRow :=
  slots.entries.map (fun e => ⟨snapshotId,(ofLex e.1).1,(ofLex e.1).2,e.2⟩)

theorem mem_storageRows {snapshotId a k v : String} {slots : SortedMap SlotKey String} :
    ⟨snapshotId,a,k,v⟩ ∈ storageRows snapshotId slots ↔ slots.get? (toLex (a,k)) = some v := by
  rw [← SortedMap.mem_entries, storageRows, List.mem_map]
  constructor
  · rintro ⟨e,he,h⟩
    cases h
    exact he
  · exact fun h => ⟨_,h,rfl⟩

/-- The candidate rows over a base are the nonzero slots of the changed base
exactly when no source with a compacted prefix hides a base slot: one that
its compacted blocks touched and left at zero, and no later raw row touches. -/
theorem incremental_candidate (platform : Platform) (worlds : String → SourceWorld) (base : Base)
    (accounts : List String) (header : Target) (sources checked : List Source)
    (histories : List (List BlockState)) (checkpoints : CheckpointDb) (union : List UnionRow)
    (snapshotId : String)
    (hpreflight : preflight platform worlds (some base) accounts header sources = .ok checked)
    (hverified : ∀ s ∈ sources, verifiedSource (worlds s.database) s = .ok ())
    (hrecords : List.Forall₂
      (fun s rows => Records (worlds s.database).db s header.number rows) checked histories)
    (hprojected : ∀ rows ∈ histories, ∀ b ∈ rows, Projected b)
    (hready : ∀ r ∈ checkpoints.storage.rows, r.snapshotId = base.snapshotId →
      r.address ∈ base.accounts)
    (hunion : unionStorage (fun d => (worlds d).db) checkpoints checked (some base) header.number =
      .ok union) :
    (∀ a k v, ⟨snapshotId,a,k,v⟩ ∈ storageRows snapshotId (finalStorage union) ↔
      applied checkpoints base histories a k = some v ∧ v ≠ zero) ↔
    ∀ x ∈ checked.zip histories, ∀ r ∈ checkpoints.storage.rows,
      r.snapshotId = base.snapshotId → r.value ≠ zero →
        ¬Lost (worlds x.1.database).db x.1 x.2 r.address r.slot := by
  obtain ⟨parts,hparts,rfl,rfl⟩ :=
    preflight_parts hpreflight hverified hrecords hprojected hready
  have hmerged : union = joinResets ((parts.map Prod.fst).flatMap
      (sourceStorage (fun d => (worlds d).db) header.number) ++ baseStorage checkpoints base)
      ((parts.map Prod.fst).flatMap (sourceResets (fun d => (worlds d).db) header.number)) := by
    obtain ⟨_,-,hunion⟩ := bind_ok.mp hunion
    obtain ⟨_,-,hunion⟩ := bind_ok.mp hunion
    exact (pure_ok.mp hunion).symm
  have hvalue : ∀ a k v, ⟨snapshotId,a,k,v⟩ ∈ storageRows snapshotId (finalStorage union) ↔
      Holds (wholeHistory (fun d => (worlds d).db) header.number checkpoints base
        (parts.map Prod.fst)) a k v ∧ v ≠ zero := by
    intro a k v
    rw [mem_storageRows, hmerged]
    exact finalStorage_holds hparts.functional
  have hzip : (parts.map Prod.fst).zip (parts.map (·.2.2)) = parts.map (fun x => (x.1,x.2.2)) := by
    simp [List.zip_map']
  rw [hzip]
  simp only [hvalue, List.mem_map, forall_exists_index, and_imp, forall_apply_eq_imp_iff₂]
  exact hparts.exact_iff

/-!
The folded sample run, in whose second block the account is deleted. A base
checkpoint of the block before the run has a slot of it.
-/

section Sample
open EvmState.Crash EvmState.Replay

def sampleStale : StorageRow :=
  ⟨sampleParent.snapshotId,sampleParams,sampleWord "5",sampleWord "7"⟩

def sampleCheckpoints : CheckpointDb := ⟨Table.empty.upsert sampleStale,.empty,.empty⟩

theorem sampleSources_records :
    List.Forall₂ (fun s rows => Records ((fun _ => sampleFolded) s.database).db s 101 rows)
      [sampleContinued] [sampleHistory] :=
  .cons sampleContinued_records .nil

theorem sampleContinued_preflight :
    preflight samplePlatform (fun _ => sampleFolded) (some sampleParent) [sampleParams] sampleTarget
      [sampleInput] = .ok [sampleContinued] := by
  have haccept : acceptSources (fun _ => sampleFolded) (some sampleParent) sampleTarget []
      [samplePicked] = .ok ([sampleContinued],[sampleParams]) := by decide +kernel
  refine bind_ok.mpr ⟨(),ensure_ok.mpr (by decide),
    bind_ok.mpr ⟨[samplePicked],mapM_ok.mpr (.cons sample_select .nil),?_⟩⟩
  exact bind_ok.mpr ⟨_,haccept,bind_ok.mpr ⟨(),ensure_ok.mpr (by simp),rfl⟩⟩

def sampleUnion : List UnionRow :=
  (unionStorage (fun _ => sampleFolded.db) sampleCheckpoints [sampleContinued] (some sampleParent)
    101).toOption.getD []

theorem sampleUnion_ok : unionStorage (fun _ => sampleFolded.db) sampleCheckpoints
    [sampleContinued] (some sampleParent) 101 = .ok sampleUnion := by decide +kernel

/-- The deleted account keeps a slot of the base. -/
theorem incremental_candidate_stale :
    preflight samplePlatform (fun _ => sampleFolded) (some sampleParent) [sampleParams] sampleTarget
      [sampleInput] = .ok [sampleContinued] ∧
    List.Forall₂ (fun s rows => Records ((fun _ => sampleFolded) s.database).db s 101 rows)
      [sampleContinued] [sampleHistory] ∧
    unionStorage (fun _ => sampleFolded.db) sampleCheckpoints [sampleContinued] (some sampleParent)
      101 = .ok sampleUnion ∧
    ⟨"new",sampleParams,sampleWord "5",sampleWord "7"⟩ ∈ storageRows "new" (finalStorage sampleUnion) ∧
    applied sampleCheckpoints sampleParent [sampleHistory] sampleParams (sampleWord "5") = none :=
  ⟨sampleContinued_preflight,sampleSources_records,sampleUnion_ok,by decide +kernel,
    by decide +kernel⟩

def sampleRewritten : CheckpointDb :=
  ⟨Table.empty.upsert ⟨sampleParent.snapshotId,sampleParams,sampleWord "2",sampleWord "7"⟩,.empty,.empty⟩

def sampleRewrites : List UnionRow :=
  (unionStorage (fun _ => sampleFolded.db) sampleRewritten [sampleContinued] (some sampleParent)
    101).toOption.getD []

theorem sampleHistory_projected : ∀ rows ∈ [sampleHistory], ∀ b ∈ rows, Projected b := by
  intro rows hrows b hb
  obtain rfl := List.mem_singleton.mp hrows
  have hmem : b ∈ sampleWorld.db.stateBlocks.rows := by
    rcases List.mem_append.mp hb with hb | hb
    · exact (mem_between.mp hb).1
    · exact sampleFolded_sim.rows b (mem_between.mp hb).1
  exact sampleRows_projected b (sampleWorld_rows ▸ hmem)

theorem incremental_candidate_sample :
    (¬∀ a k v, ⟨"new",a,k,v⟩ ∈ storageRows "new" (finalStorage sampleUnion) ↔
      applied sampleCheckpoints sampleParent [sampleHistory] a k = some v ∧ v ≠ zero) ∧
    ∀ a k v, ⟨"new",a,k,v⟩ ∈ storageRows "new" (finalStorage sampleRewrites) ↔
      applied sampleRewritten sampleParent [sampleHistory] a k = some v ∧ v ≠ zero := by
  have hrewrites : unionStorage (fun _ => sampleFolded.db) sampleRewritten [sampleContinued]
      (some sampleParent) 101 = .ok sampleRewrites := by decide +kernel
  have hlost := incremental_candidate samplePlatform (fun _ => sampleFolded) sampleParent
    [sampleParams] sampleTarget [sampleInput] [sampleContinued] [sampleHistory] sampleCheckpoints
    sampleUnion "new" sampleContinued_preflight (by decide +kernel) sampleSources_records
    sampleHistory_projected (by decide +kernel) sampleUnion_ok
  have hkept := incremental_candidate samplePlatform (fun _ => sampleFolded) sampleParent
    [sampleParams] sampleTarget [sampleInput] [sampleContinued] [sampleHistory] sampleRewritten
    sampleRewrites "new" sampleContinued_preflight (by decide +kernel) sampleSources_records
    sampleHistory_projected (by decide +kernel) hrewrites
  constructor
  · intro h
    have happlied := (h sampleParams (sampleWord "5") (sampleWord "7")).mp (by decide +kernel)
    have hnone : applied sampleCheckpoints sampleParent [sampleHistory] sampleParams
        (sampleWord "5") = none := by decide +kernel
    rw [hnone] at happlied
    cases happlied.1
  · refine hkept.mpr (fun x hx r hr _ _ hlost => ?_)
    obtain rfl := List.mem_singleton.mp hx
    obtain rfl := List.mem_singleton.mp hr
    obtain ⟨p,hp,-,hnone,-⟩ := hlost
    obtain rfl := Option.some.inj hp
    exact hnone ⟨sampleFoldedPrefix.generation,sampleParams,sampleWord "2",sampleWord "9"⟩
      (by decide +kernel) ⟨rfl,rfl⟩

end Sample
end EvmState.Incremental
