import EvmState.Preflight

/-!
# Which intervals are accepted

The scan keeps the number it expects, a count and the hash of the row before.
That is enough: it accepts an interval exactly when its rows are one a block,
each of them sound, linked to one another, to what comes before them and to
the target.
-/

set_option autoImplicit false

namespace EvmState.Continuity
open EvmState.Fallible EvmState.OrderedMap EvmState.BlockProjection EvmState.Store EvmState.Queries
open EvmState.Encoding EvmState.Interval EvmState.Compaction

/-- What the scan checks of one row by itself. -/
structure Valid (accounts : String) (row : BlockState) : Prop extends Sound accounts row where
  hash : ∃ bytes, fixed 32 row.hash = .ok bytes
  parentHash : ∃ bytes, fixed 32 row.parentHash = .ok bytes

/-- The rows from `first` to the header are one a block, sound and linked. -/
structure Continues (rows : List BlockState) (header : Target) (accounts : String) (first : ℕ)
    (parent : Option String) : Prop where
  single : ∀ n, first ≤ n → n ≤ header.number → ∃! row, row ∈ rows ∧ row.number = n
  valid : ∀ row ∈ rows, first ≤ row.number → row.number ≤ header.number → Valid accounts row
  linked : ∀ row ∈ rows, ∀ next ∈ rows, first ≤ row.number → next.number ≤ header.number →
    next.number = row.number+1 → next.parentHash = row.hash
  start : ∀ row ∈ rows, row.number ≤ header.number → row.number = first →
    ∀ h, parent = some h → row.parentHash = h
  target : ∀ row ∈ rows, first ≤ row.number → row.number = header.number →
    row.hash = header.hash ∧ row.stateRoot = header.stateRoot

section Scans
variable {source : Source} {header : Target} {accounts : String}

theorem scanBlock_iff {s t : Scan} {row : BlockState} :
    scanBlock source header accounts s row = .ok t ↔
      row.number = s.expected ∧ Valid accounts row ∧
      (∀ p, s.previous = some p → row.parentHash = p) ∧
      (row.number = header.number → row.hash = header.hash ∧ row.stateRoot = header.stateRoot) ∧
      (s.count = 0 → ∀ p, source.parentHash = some p → row.parentHash = p) ∧
      t = ⟨s.expected+1,s.count+1,some row.hash⟩ := by
  constructor
  · intro h
    obtain ⟨hn,hs,hp,ht,hc,rfl⟩ := scanBlock_ok h
    obtain ⟨_,-,h⟩ := bind_ok.mp h
    obtain ⟨_,-,h⟩ := bind_ok.mp h
    obtain ⟨_,-,h⟩ := bind_ok.mp h
    obtain ⟨b,hb,h⟩ := bind_ok.mp h
    obtain ⟨c,hc',-⟩ := bind_ok.mp h
    exact ⟨hn,⟨hs,⟨b,hb⟩,⟨c,hc'⟩⟩,hp,ht,hc,rfl⟩
  · rintro ⟨hn,hv,hp,ht,hc,rfl⟩
    obtain ⟨b,hb⟩ := hv.hash
    obtain ⟨c,hc'⟩ := hv.parentHash
    have hprev : s.previous.all (row.parentHash = ·) = true := by
      simpa [Option.all_eq_true] using hp
    have hpar : s.count = 0 → source.parentHash.all (row.parentHash = ·) = true := by
      simpa [Option.all_eq_true] using hc
    exact bind_ok.mpr ⟨(),ensure_ok.mpr hn,bind_ok.mpr ⟨(),ensure_ok.mpr ⟨hv.accounts,hv.schema⟩,
      bind_ok.mpr ⟨(),ensure_ok.mpr hv.producer,bind_ok.mpr ⟨b,hb,bind_ok.mpr ⟨c,hc',
      bind_ok.mpr ⟨(),ensure_ok.mpr hprev,bind_ok.mpr ⟨(),ensure_ok.mpr ht,
      bind_ok.mpr ⟨(),ensure_ok.mpr hpar,rfl⟩⟩⟩⟩⟩⟩⟩⟩

theorem scan_iff {rows : List BlockState} {s t : Scan} :
    rows.foldlM (scanBlock source header accounts) s = .ok t ↔
      Linked s.expected s.previous rows ∧ (∀ row ∈ rows, Valid accounts row) ∧
      (∀ row ∈ rows, row.number = header.number →
        row.hash = header.hash ∧ row.stateRoot = header.stateRoot) ∧
      (s.count = 0 → ∀ p, source.parentHash = some p → ∀ row ∈ rows.head?, row.parentHash = p) ∧
      t = ⟨s.expected+rows.length,s.count+rows.length,lastHash s.previous rows⟩ := by
  induction rows generalizing s with
  | nil =>
    simp only [List.foldlM_nil, pure_ok]
    simp [Linked, eq_comm]
  | cons row rows ih =>
    rw [List.foldlM_cons, bind_ok]
    constructor
    · rintro ⟨u,hu,h⟩
      obtain ⟨hn,hv,hp,ht,hc,rfl⟩ := scanBlock_iff.mp hu
      obtain ⟨hl,hvs,hts,-,rfl⟩ := ih.mp h
      refine ⟨⟨hn,hp,hl⟩,List.forall_mem_cons.mpr ⟨hv,hvs⟩,List.forall_mem_cons.mpr ⟨ht,hts⟩,?_,?_⟩
      · rintro hz p hpar r hr
        obtain rfl : row = r := by simpa using hr
        exact hc hz p hpar
      · simp only [lastHash_cons, List.length_cons, Scan.mk.injEq]
        exact ⟨by omega,by omega,trivial⟩
    · rintro ⟨⟨hn,hp,hl⟩,hvs,hts,hc,rfl⟩
      obtain ⟨hv,hvs⟩ := List.forall_mem_cons.mp hvs
      obtain ⟨ht,hts⟩ := List.forall_mem_cons.mp hts
      refine ⟨_,scanBlock_iff.mpr ⟨hn,hv,hp,ht,fun hz p hpar => hc hz p hpar row rfl,rfl⟩,
        ih.mpr ⟨hl,hvs,hts,fun hz => absurd hz (Nat.succ_ne_zero _),?_⟩⟩
      simp only [lastHash_cons, List.length_cons, Scan.mk.injEq]
      exact ⟨by omega,by omega,trivial⟩

theorem validateInterval_iff {db : SourceDb} {count : ℕ} :
    validateInterval db source header = .ok count ↔
      (source.startBlock ≤ header.number ∧ header.number < 2^64-1) ∧ ∃ cohort,
      accountSet source.accounts = .ok cohort ∧ ∃ first, scanStart source header = .ok first ∧
      ∃ last, (between db first.expected header.number).foldlM
        (scanBlock source header (joinAccounts cohort)) first = .ok last ∧
      last.expected = header.number+1 ∧ last.count = count := by
  simp only [validateInterval, bind_ok, ensure_ok, pure_ok]
  constructor
  · rintro ⟨_,hr,cohort,ha,first,hs,last,hf,_,hc,hcount⟩
    exact ⟨hr,cohort,ha,first,hs,last,hf,hc,hcount⟩
  · rintro ⟨hr,cohort,ha,first,hs,last,hf,hc,hcount⟩
    exact ⟨(),hr,cohort,ha,first,hs,last,hf,(),hc,hcount⟩

end Scans

theorem linked_numbers {n : ℕ} {parent : Option String} {l : List BlockState}
    (h : Linked n parent l) : l.map BlockState.number = List.range' n l.length := by
  induction l generalizing n parent with
  | nil => rfl
  | cons b l ih => simp [List.range'_succ, h.1, ih h.2.2]

theorem linked_next {n : ℕ} {parent : Option String} {l : List BlockState}
    (h : Linked n parent l) : ∀ row ∈ l, ∀ next ∈ l, next.number = row.number+1 →
      next.parentHash = row.hash := by
  induction l generalizing n parent with
  | nil => simp
  | cons b l ih =>
    intro row hrow next hnext heq
    have hnum := linked_number h.2.2
    rcases List.mem_cons.mp hnext with rfl | hin
    · -- the first row follows none of them
      rcases List.mem_cons.mp hrow with rfl | hrow
      · omega
      · have := (hnum row hrow).1
        have := h.1
        omega
    · rcases List.mem_cons.mp hrow with rfl | hrow
      · obtain ⟨c,l,rfl⟩ := List.exists_cons_of_ne_nil (List.ne_nil_of_mem hin)
        rcases List.mem_cons.mp hin with rfl | hin
        · exact h.2.2.2.1 _ rfl
        · have := (linked_number h.2.2.2.2 next hin).1
          have := h.1
          omega
      · exact ih h.2.2 row hrow next hin heq

theorem linked_of_numbers {n : ℕ} {parent : Option String} {l : List BlockState}
    (hn : l.map BlockState.number = List.range' n l.length)
    (hp : ∀ row ∈ l.head?, ∀ h, parent = some h → row.parentHash = h)
    (hl : ∀ row ∈ l, ∀ next ∈ l, next.number = row.number+1 → next.parentHash = row.hash) :
    Linked n parent l := by
  induction l generalizing n parent with
  | nil => trivial
  | cons b l ih =>
    simp only [List.map_cons, List.length_cons, List.range'_succ, List.cons.injEq] at hn
    refine ⟨hn.1,hp b rfl,ih hn.2 (fun row hrow h he => ?_)
      (fun row hrow next hnext => hl row (List.mem_cons_of_mem _ hrow) next
        (List.mem_cons_of_mem _ hnext))⟩
    obtain rfl := Option.some.inj he
    obtain ⟨m,rfl⟩ := List.head?_eq_some_iff.mp hrow
    have hnext := hn.2
    simp only [List.map_cons, List.length_cons, List.range'_succ, List.cons.injEq] at hnext
    exact hl b List.mem_cons_self row (by simp) (by omega)

theorem numbers_of_single {db : SourceDb} {first last : ℕ} (hle : first ≤ last+1)
    (h : ∀ n, first ≤ n → n ≤ last → ∃! row, row ∈ db.stateBlocks.rows ∧ row.number = n) :
    (between db first last).map BlockState.number = List.range' first (last+1-first) := by
  have hsorted : (between db first last).Pairwise (fun a b => a.number < b.number) := by
    have hkey := db.stateBlocks.sorted.filter (fun b => first ≤ b.number && b.number ≤ last)
    refine hkey.imp_of_mem (fun {a b} ha hb hlt => ?_)
    obtain ⟨ha,ha'⟩ := mem_between.mp ha
    obtain ⟨hb,-⟩ := mem_between.mp hb
    rcases Prod.Lex.toLex_lt_toLex.mp hlt with hlt | ⟨heq,hlt⟩
    · exact hlt
    · -- two rows of one number are the same row
      obtain rfl := (h a.number ha'.1 ha'.2).unique ⟨ha,rfl⟩ ⟨hb,heq.symm⟩
      exact absurd hlt (lt_irrefl _)
  refine (List.pairwise_map.mpr hsorted).eq_of_mem_iff List.pairwise_lt_range' (fun n => ?_)
  rw [List.mem_map, List.mem_range'_1]
  constructor
  · rintro ⟨b,hb,rfl⟩
    have := (mem_between.mp hb).2
    omega
  · intro hn
    obtain ⟨b,⟨hb,hbn⟩,-⟩ := h n (by omega) (by omega)
    exact ⟨b,mem_between.mpr ⟨hb,by omega,by omega⟩,hbn⟩

theorem continues_iff {db : SourceDb} {header : Target} {accounts : String} {first : ℕ}
    {parent : Option String} (hle : first ≤ header.number+1) :
    Continues db.stateBlocks.rows header accounts first parent ↔
      Linked first parent (between db first header.number) ∧
      (∀ row ∈ between db first header.number, Valid accounts row) ∧
      (∀ row ∈ between db first header.number, row.number = header.number →
        row.hash = header.hash ∧ row.stateRoot = header.stateRoot) ∧
      first+(between db first header.number).length = header.number+1 := by
  constructor
  · intro h
    have hnum := numbers_of_single hle h.single
    have hlen : (between db first header.number).length = header.number+1-first := by
      have := congrArg List.length hnum
      simpa using this
    refine ⟨linked_of_numbers (by rw [hlen]; exact hnum) ?_ ?_,?_,?_,by omega⟩
    · intro row hrow p hp
      obtain ⟨m,hm⟩ := List.head?_eq_some_iff.mp hrow
      have hmem := mem_between.mp (show row ∈ between db first header.number by simp [hm])
      rw [hm, List.map_cons] at hnum
      obtain ⟨k,hk⟩ : ∃ k, header.number+1-first = k+1 := ⟨header.number-first,by omega⟩
      rw [hk, List.range'_succ, List.cons.injEq] at hnum
      exact h.start row hmem.1 hmem.2.2 hnum.1 p hp
    · intro row hrow next hnext heq
      have hrow := mem_between.mp hrow
      have hnext := mem_between.mp hnext
      exact h.linked row hrow.1 next hnext.1 hrow.2.1 hnext.2.2 heq
    · intro row hrow
      obtain ⟨hmem,hlo,hhi⟩ := mem_between.mp hrow
      exact h.valid row hmem hlo hhi
    · intro row hrow heq
      obtain ⟨hmem,hlo,-⟩ := mem_between.mp hrow
      exact h.target row hmem hlo heq
  · rintro ⟨hl,hv,ht,hlen⟩
    have hnum := linked_numbers hl
    refine ⟨fun n hlo hhi => ?_,fun row hrow hlo hhi => hv row (mem_between.mpr ⟨hrow,hlo,hhi⟩),
      fun row hrow next hnext hlo hhi heq => linked_next hl row
        (mem_between.mpr ⟨hrow,hlo,by omega⟩) next (mem_between.mpr ⟨hnext,by omega,hhi⟩) heq,?_,
      fun row hrow hlo heq => ht row (mem_between.mpr ⟨hrow,hlo,by omega⟩) heq⟩
    · have hmem : n ∈ (between db first header.number).map BlockState.number := by
        rw [hnum, List.mem_range'_1]
        omega
      obtain ⟨row,hrow,rfl⟩ := List.mem_map.mp hmem
      refine ⟨row,⟨(mem_between.mp hrow).1,rfl⟩,fun other ho => ?_⟩
      have heq := ho.2
      have hother : other ∈ between db first header.number :=
        mem_between.mpr ⟨ho.1,by omega,by omega⟩
      have hnodup : ((between db first header.number).map BlockState.number).Nodup := by
        rw [hnum]
        exact List.nodup_range'
      exact List.inj_on_of_nodup_map hnodup hother hrow ho.2
    · intro row hrow hhi heq p hp
      have hmem := mem_between.mpr ⟨hrow,heq.ge,hhi⟩
      cases hb : between db first header.number with
      | nil => rw [hb] at hmem; cases hmem
      | cons b l =>
        rw [hb] at hl hmem
        rcases List.mem_cons.mp hmem with rfl | hmem
        · exact hl.2.1 p hp
        · have := (linked_number hl.2.2 row hmem).1
          omega

theorem linked_parent {n : ℕ} {parent : Option String} {l : List BlockState} :
    Linked n parent l ↔
      Linked n none l ∧ ∀ p, parent = some p → ∀ row ∈ l.head?, row.parentHash = p := by
  cases l with
  | nil => simp [Linked]
  | cons b l =>
    simp only [Linked, reduceCtorEq, false_imp_iff, implies_true, true_and, List.head?_cons,
      Option.mem_some_iff, forall_eq']
    tauto

section Exact
variable {db : SourceDb} {source : Source} {header : Target} {count : ℕ}

theorem interval_start (hb : source.bootstrap = none) :
    validateInterval db source header = .ok count ↔
      (source.startBlock ≤ header.number ∧ header.number < 2^64-1) ∧ (∃ cohort,
        accountSet source.accounts = .ok cohort ∧ Continues db.stateBlocks.rows header
          (joinAccounts cohort) source.startBlock source.parentHash) ∧
      count = header.number-source.startBlock+1 := by
  rw [validateInterval_iff]
  have hstart : ∀ first, scanStart source header = .ok first ↔ first = ⟨source.startBlock,0,none⟩ := by
    intro first
    simp only [scanStart, hb, Except.ok.injEq]
    exact eq_comm
  simp only [hstart, exists_eq_left, scan_iff, zero_add, forall_const]
  constructor
  · rintro ⟨hr,cohort,ha,last,⟨hl,hv,ht,hp,rfl⟩,he,rfl⟩
    have hlen : source.startBlock+(between db source.startBlock header.number).length =
        header.number+1 := he
    exact ⟨hr,⟨cohort,ha,(continues_iff (by omega)).mpr ⟨linked_parent.mpr ⟨hl,hp⟩,hv,ht,hlen⟩⟩,by
      dsimp only; omega⟩
  · rintro ⟨hr,⟨cohort,ha,hc⟩,rfl⟩
    obtain ⟨hl,hv,ht,hlen⟩ := (continues_iff (by omega)).mp hc
    obtain ⟨hl,hp⟩ := linked_parent.mp hl
    exact ⟨hr,cohort,ha,_,⟨hl,hv,ht,hp,rfl⟩,hlen,by dsimp only; omega⟩

theorem interval_prefix {p : Prefix} (hb : source.bootstrap = some p)
    (hs : p.startBlock = source.startBlock) (hp : source.startBlock ≤ p.header.number)
    (hle : p.header.number ≤ header.number) :
    validateInterval db source header = .ok count ↔
      header.number < 2^64-1 ∧ (∃ cohort,
        accountSet source.accounts = .ok cohort ∧ Continues db.stateBlocks.rows header
          (joinAccounts cohort) (p.header.number+1) (some p.header.hash)) ∧
      (p.header.number = header.number →
        p.header.hash = header.hash ∧ p.header.stateRoot = header.stateRoot) ∧
      count = header.number-source.startBlock+1 := by
  rw [validateInterval_iff]
  have hstart : ∀ first, scanStart source header = .ok first ↔
      (p.header.number = header.number →
        p.header.hash = header.hash ∧ p.header.stateRoot = header.stateRoot) ∧
      first = ⟨p.header.number+1,p.header.number+1-source.startBlock,some p.header.hash⟩ := by
    intro first
    simp only [scanStart, hb, bind_ok, ensure_ok, pure_ok, Nat.add_right_cancel_iff]
    constructor
    · rintro ⟨_,-,_,he,rfl⟩
      exact ⟨he,rfl⟩
    · rintro ⟨he,rfl⟩
      exact ⟨(),⟨hs.symm,hle⟩,(),he,rfl⟩
  -- a prefix has at least one block, so the parent of the source is not read again
  have hcount : p.header.number+1-source.startBlock ≠ 0 := by omega
  constructor
  · rintro ⟨⟨-,hr⟩,cohort,ha,first,hfirst,last,hf,hlen,rfl⟩
    obtain ⟨he,rfl⟩ := (hstart first).mp hfirst
    obtain ⟨hl,hv,ht,-,rfl⟩ := scan_iff.mp hf
    have hlen : p.header.number+1+(between db (p.header.number+1) header.number).length =
        header.number+1 := hlen
    exact ⟨hr,⟨cohort,ha,(continues_iff (by omega)).mpr ⟨hl,hv,ht,hlen⟩⟩,he,by dsimp only; omega⟩
  · rintro ⟨hr,⟨cohort,ha,hc⟩,he,rfl⟩
    obtain ⟨hl,hv,ht,hlen⟩ := (continues_iff (by omega)).mp hc
    exact ⟨⟨by omega,hr⟩,cohort,ha,_,(hstart _).mpr ⟨he,rfl⟩,_,
      scan_iff.mpr ⟨hl,hv,ht,fun hz => absurd hz hcount,rfl⟩,hlen,by dsimp only; omega⟩

end Exact

/-- Interval validation is exact, from the start and after a prefix. -/
theorem interval_exact (db : SourceDb) (source : Source) (header : Target) :
    (source.bootstrap = none → ∀ count, validateInterval db source header = .ok count ↔
      (source.startBlock ≤ header.number ∧ header.number < 2^64-1) ∧ (∃ cohort,
        accountSet source.accounts = .ok cohort ∧ Continues db.stateBlocks.rows header
          (joinAccounts cohort) source.startBlock source.parentHash) ∧
      count = header.number-source.startBlock+1) ∧
    (∀ p, source.bootstrap = some p → p.startBlock = source.startBlock →
      source.startBlock ≤ p.header.number → p.header.number ≤ header.number → ∀ count,
      validateInterval db source header = .ok count ↔
        header.number < 2^64-1 ∧ (∃ cohort,
          accountSet source.accounts = .ok cohort ∧ Continues db.stateBlocks.rows header
            (joinAccounts cohort) (p.header.number+1) (some p.header.hash)) ∧
        (p.header.number = header.number →
          p.header.hash = header.hash ∧ p.header.stateRoot = header.stateRoot) ∧
        count = header.number-source.startBlock+1) :=
  ⟨fun hb _ => interval_start hb,fun _ hb hs hp hle _ => interval_prefix hb hs hp hle⟩

section Sample
open EvmState.Replay EvmState.Preflight

/-- The sample run from its start, and after the prefix that it was folded into. -/
theorem interval_exact_sample :
    (∃ cohort, accountSet sampleInput.accounts = .ok cohort ∧
      Continues sampleWorld.db.stateBlocks.rows sampleTarget (joinAccounts cohort) 100
        sampleInput.parentHash) ∧
    ∃ cohort, accountSet sampleChecked.accounts = .ok cohort ∧
      Continues sampleFolded.db.stateBlocks.rows sampleTarget (joinAccounts cohort)
        (sampleFoldedPrefix.header.number+1) (some sampleFoldedPrefix.header.hash) := by
  have hstart := (interval_exact sampleWorld.db sampleInput sampleTarget).1 rfl 2
  have hseam := (interval_exact sampleFolded.db sampleChecked sampleTarget).2 sampleFoldedPrefix rfl
    rfl (by decide) (by decide) 2
  exact ⟨(hstart.mp (by decide +kernel)).2.1, (hseam.mp (by decide +kernel)).2.1⟩

end Sample
end EvmState.Continuity
