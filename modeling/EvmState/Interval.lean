import EvmState.Queries
import EvmState.Encoding

/-!
# Continuity of an interval

`validateInterval` scans the raw rows of a source from its start, or from
the end of its compacted prefix, and requires one row a block, each naming
the hash of the row before, up to the target header.
-/

set_option autoImplicit false

namespace EvmState.Interval
open EvmState.Fallible EvmState.OrderedMap EvmState.BlockProjection EvmState.Store EvmState.Queries
open EvmState.Encoding

structure Scan where
  expected : ℕ
  count : ℕ
  previous : Option String
  deriving DecidableEq

def joinAccounts (accounts : List String) : String := ",".intercalate accounts

/-- Where the scan starts: at the start of the source, or after its prefix. -/
def scanStart (source : Source) (header : Target) : Except String Scan :=
  match source.bootstrap with
  | none => .ok ⟨source.startBlock,0,none⟩
  | some p => do
    ensure (source.startBlock = p.startBlock ∧ p.header.number ≤ header.number)
      "checkpoint range cannot use this compacted bootstrap prefix"
    ensure (p.header.number+1 = header.number+1 →
        p.header.hash = header.hash ∧ p.header.stateRoot = header.stateRoot)
      "bootstrap checkpoint differs from proof header"
    return ⟨p.header.number+1,p.header.number+1-source.startBlock,some p.header.hash⟩

def scanBlock (source : Source) (header : Target) (accounts : String) (s : Scan) (row : BlockState) :
    Except String Scan := do
  ensure (row.number = s.expected) ("missing or conflicting block at " ++ toString s.expected)
  ensure (row.accounts = accounts ∧ row.schemaVersion = 1)
    ("account filter or schema changed at block " ++ toString row.number)
  ensure (3 ≤ row.producerVersion ∧ row.producerVersion ≤ 5)
    ("unsupported producer version at block " ++ toString row.number)
  let _ ← fixed 32 row.hash
  let _ ← fixed 32 row.parentHash
  ensure (s.previous.all (row.parentHash = ·))
    ("broken parent continuity at block " ++ toString row.number)
  ensure (row.number = header.number → row.hash = header.hash ∧ row.stateRoot = header.stateRoot)
    "stream checkpoint differs from proof header"
  ensure (s.count = 0 → source.parentHash.all (row.parentHash = ·))
    "stream does not continue the base checkpoint"
  return ⟨s.expected+1,s.count+1,some row.hash⟩

def validateInterval (db : SourceDb) (source : Source) (header : Target) : Except String ℕ := do
  ensure (source.startBlock ≤ header.number ∧ header.number < 2^64-1) "invalid checkpoint input range"
  let accounts ← accountSet source.accounts
  let start ← scanStart source header
  let final ← (between db start.expected header.number).foldlM
    (scanBlock source header (joinAccounts accounts)) start
  ensure (final.expected = header.number+1)
    ("incomplete stream: expected through block " ++ toString header.number ++
      ", got through block " ++ toString (final.expected-1))
  return final.count

/-- Consecutive blocks from `n`, each naming the hash of the block before,
the first one naming `parent` where that is known. -/
def Linked : ℕ → Option String → List BlockState → Prop
  | _, _, [] => True
  | n, parent, b::l => b.number = n ∧ (∀ h, parent = some h → b.parentHash = h) ∧
      Linked (n+1) (some b.hash) l

/-- The hash at which a chain ends, after a chain that ended at `parent`. -/
def lastHash (parent : Option String) (blocks : List BlockState) : Option String :=
  (blocks.getLast?.map BlockState.hash).or parent

@[simp] theorem lastHash_nil (parent : Option String) : lastHash parent [] = parent := rfl

@[simp] theorem lastHash_cons (parent : Option String) (b : BlockState) (l : List BlockState) :
    lastHash parent (b::l) = lastHash (some b.hash) l := by
  cases l with
  | nil => rfl
  | cons c l => simp [lastHash, List.getLast?_cons]

theorem linked_append {n : ℕ} {parent : Option String} {l m : List BlockState} :
    Linked n parent (l++m) ↔ Linked n parent l ∧ Linked (n+l.length) (lastHash parent l) m := by
  induction l generalizing n parent with
  | nil => simp [Linked]
  | cons b l ih =>
    simp only [List.cons_append, Linked, ih, lastHash_cons, List.length_cons,
      show n+(l.length+1) = n+1+l.length by omega]
    tauto

theorem linked_number {n : ℕ} {parent : Option String} {l : List BlockState}
    (h : Linked n parent l) : ∀ b ∈ l, n ≤ b.number ∧ b.number < n+l.length := by
  induction l generalizing n parent with
  | nil => simp
  | cons c l ih =>
    intro b hb
    rcases List.mem_cons.mp hb with rfl | hb
    · simp [h.1]
    · have := ih h.2.2 b hb
      simp only [List.length_cons]
      omega

theorem linked_sorted {n : ℕ} {parent : Option String} {l : List BlockState}
    (h : Linked n parent l) : l.Pairwise (fun a b => a.number < b.number) := by
  induction l generalizing n parent with
  | nil => exact List.Pairwise.nil
  | cons c l ih =>
    refine List.pairwise_cons.mpr ⟨fun b hb => ?_,ih h.2.2⟩
    have := linked_number h.2.2 b hb
    have := h.1
    omega

/-- What the scan checks of every row. -/
structure Sound (accounts : String) (row : BlockState) : Prop where
  accounts : row.accounts = accounts
  schema : row.schemaVersion = 1
  producer : 3 ≤ row.producerVersion ∧ row.producerVersion ≤ 5

theorem scanBlock_ok {source : Source} {header : Target} {accounts : String} {s t : Scan}
    {row : BlockState} (h : scanBlock source header accounts s row = .ok t) :
    row.number = s.expected ∧ Sound accounts row ∧
      (∀ p, s.previous = some p → row.parentHash = p) ∧
      (row.number = header.number → row.hash = header.hash ∧ row.stateRoot = header.stateRoot) ∧
      (s.count = 0 → ∀ p, source.parentHash = some p → row.parentHash = p) ∧
      t = ⟨s.expected+1,s.count+1,some row.hash⟩ := by
  obtain ⟨_,hn,h⟩ := bind_ok.mp h
  obtain ⟨_,ha,h⟩ := bind_ok.mp h
  obtain ⟨_,hv,h⟩ := bind_ok.mp h
  obtain ⟨_,-,h⟩ := bind_ok.mp h
  obtain ⟨_,-,h⟩ := bind_ok.mp h
  obtain ⟨_,hp,h⟩ := bind_ok.mp h
  obtain ⟨_,ht,h⟩ := bind_ok.mp h
  obtain ⟨_,hc,h⟩ := bind_ok.mp h
  have ha := ensure_ok.mp ha
  have hp := ensure_ok.mp hp
  refine ⟨ensure_ok.mp hn,⟨ha.1,ha.2,ensure_ok.mp hv⟩,?_,?_,?_,(pure_ok.mp h).symm⟩
  · intro p hs
    simpa [hs] using hp
  · exact ensure_ok.mp ht
  · intro hz p hs
    simpa [hs] using ensure_ok.mp hc hz

theorem scan_ok {source : Source} {header : Target} {accounts : String} {rows : List BlockState}
    {s t : Scan} (h : rows.foldlM (scanBlock source header accounts) s = .ok t) :
    Linked s.expected s.previous rows ∧ (∀ row ∈ rows, Sound accounts row) ∧
      (∀ row ∈ rows, row.number = header.number →
        row.hash = header.hash ∧ row.stateRoot = header.stateRoot) ∧
      (s.count = 0 → ∀ p, source.parentHash = some p → ∀ row ∈ rows.head?, row.parentHash = p) ∧
      t = ⟨s.expected+rows.length,s.count+rows.length,lastHash s.previous rows⟩ := by
  induction rows generalizing s with
  | nil =>
    obtain rfl := pure_ok.mp h
    simp [Linked]
  | cons row rows ih =>
    obtain ⟨u,hu,h⟩ := bind_ok.mp h
    obtain ⟨hn,hs,hp,ht,hc,rfl⟩ := scanBlock_ok hu
    obtain ⟨hl,hsr,htr,-,rfl⟩ := ih h
    refine ⟨⟨hn,hp,hl⟩,?_,?_,?_,?_⟩
    · rintro r hr
      rcases List.mem_cons.mp hr with rfl | hr
      · exact hs
      · exact hsr r hr
    · rintro r hr
      rcases List.mem_cons.mp hr with rfl | hr
      · exact ht
      · exact htr r hr
    · rintro hz p hpar r hr
      obtain rfl : row = r := by simpa using hr
      exact hc hz p hpar
    · simp only [lastHash_cons, List.length_cons, Scan.mk.injEq]
      exact ⟨by omega,by omega,trivial⟩

/-- An accepted interval: the cohort, where the scan started, and the raw
rows that it read. -/
structure Accepted (source : Source) (header : Target) (cohort : List String) (first : Scan)
    (rows : List BlockState) : Prop where
  accounts : accountSet source.accounts = .ok cohort
  start : scanStart source header = .ok first
  linked : Linked first.expected first.previous rows
  sound : ∀ row ∈ rows, Sound (joinAccounts cohort) row
  target : ∀ row ∈ rows, row.number = header.number →
    row.hash = header.hash ∧ row.stateRoot = header.stateRoot
  parent : first.count = 0 → ∀ p, source.parentHash = some p → ∀ row ∈ rows.head?, row.parentHash = p
  complete : first.expected+rows.length = header.number+1
  range : source.startBlock ≤ header.number

theorem validateInterval_ok {db : SourceDb} {source : Source} {header : Target} {count : ℕ}
    (h : validateInterval db source header = .ok count) :
    ∃ cohort first, Accepted source header cohort first
      (between db first.expected header.number) := by
  obtain ⟨_,hr,h⟩ := bind_ok.mp h
  obtain ⟨cohort,ha,h⟩ := bind_ok.mp h
  obtain ⟨first,hs,h⟩ := bind_ok.mp h
  obtain ⟨final,hf,h⟩ := bind_ok.mp h
  obtain ⟨_,hc,-⟩ := bind_ok.mp h
  obtain ⟨hl,hsr,ht,hp,rfl⟩ := scan_ok hf
  exact ⟨cohort,first,ha,hs,hl,hsr,ht,hp,ensure_ok.mp hc,(ensure_ok.mp hr).1⟩

theorem scanStart_none {source : Source} {header : Target} {start : Scan}
    (hb : source.bootstrap = none) (h : scanStart source header = .ok start) :
    start = ⟨source.startBlock,0,none⟩ := by
  simp only [scanStart, hb] at h
  exact (Except.ok.inj h).symm

theorem scanStart_some {source : Source} {header : Target} {start : Scan} {p : Prefix}
    (hb : source.bootstrap = some p) (h : scanStart source header = .ok start) :
    source.startBlock = p.startBlock ∧ p.header.number ≤ header.number ∧
      (p.header.number = header.number →
        p.header.hash = header.hash ∧ p.header.stateRoot = header.stateRoot) ∧
      start = ⟨p.header.number+1,p.header.number+1-source.startBlock,some p.header.hash⟩ := by
  simp only [scanStart, hb] at h
  obtain ⟨_,hr,h⟩ := bind_ok.mp h
  obtain ⟨_,he,h⟩ := bind_ok.mp h
  have hr := ensure_ok.mp hr
  exact ⟨hr.1,hr.2,fun hn => ensure_ok.mp he (by omega),(pure_ok.mp h).symm⟩

theorem accepted_last {source : Source} {header : Target} {cohort : List String} {first : Scan}
    {rows : List BlockState} (h : Accepted source header cohort first rows) :
    lastHash first.previous rows = some header.hash := by
  rcases List.eq_nil_or_concat rows with rfl | ⟨l,row,rfl⟩
  · have hc := h.complete
    simp only [List.length_nil, Nat.add_zero] at hc
    cases hb : source.bootstrap with
    | none =>
      obtain rfl := scanStart_none hb h.start
      have := h.range
      simp only at hc
      omega
    | some p =>
      obtain ⟨-,-,he,rfl⟩ := scanStart_some hb h.start
      simp only at hc
      simp [(he (by omega)).1]
  · have hl := h.linked
    rw [List.concat_eq_append] at hl
    have hn := (linked_append.mp hl).2.1
    have hc := h.complete
    simp only [List.length_concat] at hc
    have ht := h.target row (by simp) (by omega)
    simp [lastHash, ht.1]

end EvmState.Interval
