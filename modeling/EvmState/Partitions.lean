import EvmState.Lib.Fallible

/-!
# Range partitions of the event tables

A call makes the partitions of a block range in steps, table by table. A
partition is named after its table and its first block, and a name that exists
is taken for a partition that covers its step. What no partition covers goes
to the DEFAULT partition.
-/

set_option autoImplicit false

namespace EvmState.Partitions
open EvmState.Fallible

inductive EventTable
  | storageChanges
  | balanceChanges
  | nonceChanges
  | codeChanges
  | setCodeAuthorizations
  deriving DecidableEq

def eventTables : List EventTable :=
  [.storageChanges,.balanceChanges,.nonceChanges,.codeChanges,.setCodeAuthorizations]

/-- `FROM lo TO hi`, named after the table and `lo`. -/
structure Partition where
  lo : ℤ
  hi : ℤ
  deriving DecidableEq

/-- The range partitions of each table, besides its DEFAULT partition. -/
abbrev Schema := EventTable → List Partition

def Schema.empty : Schema := fun _ => []

/-- A call, and whatever else the database refuses a partition for while the
call runs, such as rows of its range in the DEFAULT partition. -/
structure Call where
  fromBlock : ℤ
  toBlock : ℤ
  step : ℤ
  refused : EventTable → Partition → Bool

def toRegclass (s : Schema) (t : EventTable) (lo : ℤ) : Option Partition :=
  (s t).find? (fun p => p.lo = lo)

/-- The partition that a row goes to, none for DEFAULT. -/
def route (s : Schema) (t : EventTable) (block : ℤ) : Option Partition :=
  (s t).find? (fun p => p.lo ≤ block && block < p.hi)

def addBigint (a b : ℤ) : Except String ℤ := do
  ensure (a+b < 2^63) "bigint out of range"
  return a+b

section Create
variable (c : Call)

def createTable (s : Schema) (t : EventTable) (p : Partition) : Except String Schema := do
  ensure (p.lo < p.hi) "empty range bound specified for partition"
  ensure (∀ q ∈ s t, q.hi ≤ p.lo ∨ p.hi ≤ q.lo) "partition would overlap partition"
  ensure (c.refused t p = false)
    "updated partition constraint for default partition would be violated by some row"
  return Function.update s t (p::s t)

def createMissing (t : EventTable) (lo : ℤ) (state : Schema × ℕ) : Except String (Schema × ℕ) :=
  match toRegclass state.1 t lo with
  | some _ => .ok state
  | none => do
    let hi ← addBigint lo c.step
    let s ← createTable c state.1 t ⟨lo,hi⟩
    ensure (state.2+1 < 2^31) "integer out of range"
    return (s,state.2+1)

/-- The WHILE loop; every round moves `lo` by a step of at least one block. -/
def fill (t : EventTable) : ℕ → ℤ → Schema × ℕ → Except String (Schema × ℕ)
  | 0, lo, state => if lo < c.toBlock then .error "partition loop does not end" else .ok state
  | rounds+1, lo, state =>
    if lo < c.toBlock then do
      let state ← createMissing c t lo state
      let lo ← addBigint lo c.step
      fill t rounds lo state
    else .ok state

def start : ℤ := c.fromBlock-c.fromBlock.tmod c.step

def fillTable (state : Schema × ℕ) (t : EventTable) : Except String (Schema × ℕ) :=
  fill c t (c.toBlock-start c).toNat (start c) state

def createEventPartitions (s : Schema) : Except String (Schema × ℕ) :=
  eventTables.foldlM (fillTable c) (s,0)

def apply (s : Schema) : Schema :=
  match createEventPartitions c s with
  | .ok (s',_) => s'
  | .error _ => s

end Create

def run (calls : List Call) : Schema := calls.foldl (fun s c => apply c s) Schema.empty

section Invariant

def Disjoint (p q : Partition) : Prop := p.hi ≤ q.lo ∨ q.hi ≤ p.lo

structure Apart (s : Schema) : Prop where
  disjoint : ∀ t, (s t).Pairwise Disjoint
  proper : ∀ t, ∀ p ∈ s t, p.lo < p.hi

def Covered (s : Schema) (t : EventTable) (block : ℤ) : Prop := ∃ p, route s t block = some p

theorem covered_iff {s : Schema} {t : EventTable} {block : ℤ} :
    Covered s t block ↔ ∃ p ∈ s t, p.lo ≤ block ∧ block < p.hi := by
  unfold Covered route
  constructor
  · rintro ⟨p,hp⟩
    have h := List.find?_some hp
    simp only [Bool.and_eq_true,decide_eq_true_eq] at h
    exact ⟨p,List.mem_of_find?_eq_some hp,h⟩
  · rintro ⟨p,hp,h⟩
    rw [← Option.isSome_iff_exists,List.find?_isSome]
    exact ⟨p,hp,by simpa using h⟩

def Named (partitions : List Partition) (lo : ℤ) : Prop := ∃ p ∈ partitions, p.lo = lo

theorem toRegclass_some {s : Schema} {t : EventTable} {lo : ℤ} :
    (∃ p, toRegclass s t lo = some p) ↔ Named (s t) lo := by
  rw [← Option.isSome_iff_exists,toRegclass,List.find?_isSome]
  simp only [decide_eq_true_eq]
  rfl

theorem toRegclass_none {s : Schema} {t : EventTable} {lo : ℤ} :
    toRegclass s t lo = none ↔ ¬Named (s t) lo := by
  rw [← toRegclass_some,← Option.isSome_iff_exists,Option.not_isSome_iff_eq_none]

end Invariant

section Rounds
variable {c : Call} {t : EventTable}

theorem addBigint_ok {a b r : ℤ} : addBigint a b = .ok r ↔ a+b < 2^63 ∧ r = a+b := by
  unfold addBigint
  rw [bind_ok]
  simp only [ensure_ok,pure_ok]
  constructor
  · rintro ⟨_,h,rfl⟩
    exact ⟨h,rfl⟩
  · rintro ⟨h,rfl⟩
    exact ⟨(),h,rfl⟩

/-- What a round at `lo` does: the partition of its step is made unless the
name is taken. -/
theorem createMissing_spec {lo : ℤ} {before after : Schema × ℕ}
    (h : createMissing c t lo before = .ok after) :
    Named (before.1 t) lo ∧ after = before ∨
      ¬Named (before.1 t) lo ∧ lo < lo+c.step ∧
        (∀ q ∈ before.1 t, q.hi ≤ lo ∨ lo+c.step ≤ q.lo) ∧
        after = (Function.update before.1 t (⟨lo,lo+c.step⟩::before.1 t),before.2+1) := by
  unfold createMissing at h
  cases hn : toRegclass before.1 t lo with
  | some p =>
    rw [hn] at h
    exact .inl ⟨toRegclass_some.mp ⟨p,hn⟩,(Except.ok.inj h).symm⟩
  | none =>
    rw [hn] at h
    obtain ⟨hi,hhi,h⟩ := bind_ok.mp h
    obtain ⟨-,rfl⟩ := addBigint_ok.mp hhi
    obtain ⟨s,hs,h⟩ := bind_ok.mp h
    obtain ⟨_,-,h⟩ := bind_ok.mp h
    obtain ⟨_,hproper,hs⟩ := bind_ok.mp hs
    obtain ⟨_,hover,hs⟩ := bind_ok.mp hs
    obtain ⟨_,-,hs⟩ := bind_ok.mp hs
    obtain rfl := pure_ok.mp hs
    exact .inr ⟨toRegclass_none.mp hn,ensure_ok.mp hproper,ensure_ok.mp hover,(pure_ok.mp h).symm⟩

/-- What the rounds on one table come to, from `lo` on. -/
structure Filled (c : Call) (lo : ℤ) (before after : List Partition) : Prop where
  kept : ∀ p ∈ before, p ∈ after
  named : ∀ k : ℕ, lo+k*c.step < c.toBlock → Named after (lo+k*c.step)
  made : ∀ k : ℕ, lo+k*c.step < c.toBlock → ¬Named before (lo+k*c.step) →
    ⟨lo+k*c.step,lo+k*c.step+c.step⟩ ∈ after
  new : ∀ p ∈ after, p ∈ before ∨ ¬Named before p.lo ∧
    ∃ k : ℕ, p = ⟨lo+k*c.step,lo+k*c.step+c.step⟩
  bounded : ∀ k : ℕ, lo+k*c.step < c.toBlock → lo+k*c.step+c.step < 2^63

theorem named_mono {before after : List Partition} (h : ∀ p ∈ before, p ∈ after) {lo : ℤ}
    (hn : Named before lo) : Named after lo := by
  obtain ⟨p,hp,hlo⟩ := hn
  exact ⟨p,h p hp,hlo⟩

theorem later_start (k : ℕ) (lo step : ℤ) : lo+step+k*step = lo+((k+1:ℕ):ℤ)*step := by
  push_cast
  ring

theorem filled_none {lo : ℤ} (l : List Partition) (hs : 1 ≤ c.step) (hlo : ¬lo < c.toBlock) :
    Filled c lo l l := by
  have hnone : ∀ k : ℕ, ¬lo+k*c.step < c.toBlock := by
    intro k hk
    have : 0 ≤ (k:ℤ)*c.step := by positivity
    omega
  exact ⟨fun _ h => h,fun k h => absurd h (hnone k),fun k h => absurd h (hnone k),
    fun _ h => .inl h,fun k h => absurd h (hnone k)⟩

theorem filled_round {lo : ℤ} {before middle after : List Partition} (hs : 1 ≤ c.step)
    (hb : lo+c.step < 2^63) (hround : Named before lo ∧ middle = before ∨
      ¬Named before lo ∧ middle = ⟨lo,lo+c.step⟩::before)
    (h : Filled c (lo+c.step) middle after) : Filled c lo before after := by
  have hsub : ∀ p ∈ before, p ∈ middle := by
    intro p hp
    rcases hround with ⟨-,rfl⟩ | ⟨-,rfl⟩
    · exact hp
    · exact List.mem_cons_of_mem _ hp
  refine ⟨fun p hp => h.kept p (hsub p hp),fun k hk => ?_,fun k hk hn => ?_,fun p hp => ?_,
    fun k hk => ?_⟩
  · cases k with
    | zero =>
      have hnamed : Named middle lo := by
        rcases hround with ⟨hn,rfl⟩ | ⟨-,rfl⟩
        · exact hn
        · exact ⟨⟨lo,lo+c.step⟩,List.mem_cons_self,rfl⟩
      simpa using named_mono h.kept hnamed
    | succ k =>
      rw [← later_start] at hk ⊢
      exact h.named k hk
  · cases k with
    | zero =>
      rcases hround with ⟨hn',-⟩ | ⟨-,rfl⟩
      · simp [hn'] at hn
      · simpa using h.kept _ List.mem_cons_self
    | succ k =>
      rw [← later_start] at hk hn ⊢
      refine h.made k hk (fun hm => hn ?_)
      rcases hround with ⟨-,rfl⟩ | ⟨-,rfl⟩
      · exact hm
      · obtain ⟨p,hp,hplo⟩ := hm
        rcases List.mem_cons.mp hp with rfl | hp
        · have : 0 ≤ (k:ℤ)*c.step := by positivity
          simp only at hplo
          omega
        · exact ⟨p,hp,hplo⟩
  · rcases h.new p hp with hm | ⟨hn,k,rfl⟩
    · rcases hround with ⟨-,rfl⟩ | ⟨hn,rfl⟩
      · exact .inl hm
      · rcases List.mem_cons.mp hm with rfl | hm
        · exact .inr ⟨hn,0,by simp⟩
        · exact .inl hm
    · exact .inr ⟨fun hm => hn (named_mono hsub hm),k+1,by rw [← later_start]⟩
  · cases k with
    | zero => simpa using hb
    | succ k =>
      rw [← later_start] at hk ⊢
      exact h.bounded k hk

theorem fill_spec (hs : 1 ≤ c.step) (rounds : ℕ) {lo : ℤ} {before after : Schema × ℕ}
    (h : fill c t rounds lo before = .ok after) :
    Filled c lo (before.1 t) (after.1 t) ∧ ∀ u, u ≠ t → after.1 u = before.1 u := by
  induction rounds generalizing lo before with
  | zero =>
    rw [fill] at h
    split_ifs at h with hlo
    cases h
    exact ⟨filled_none _ hs hlo,fun _ _ => rfl⟩
  | succ rounds ih =>
    rw [fill] at h
    split_ifs at h with hlo
    · obtain ⟨middle,hround,h⟩ := bind_ok.mp h
      obtain ⟨lo',hadd,h⟩ := bind_ok.mp h
      obtain ⟨hb,rfl⟩ := addBigint_ok.mp hadd
      obtain ⟨hfill,hothers⟩ := ih h
      rcases createMissing_spec hround with ⟨hn,rfl⟩ | ⟨hn,-,-,rfl⟩
      · exact ⟨filled_round hs hb (.inl ⟨hn,rfl⟩) hfill,hothers⟩
      · simp only [Function.update_self] at hfill
        refine ⟨filled_round hs hb (.inr ⟨hn,rfl⟩) hfill,fun u hu => ?_⟩
        rw [hothers u hu]
        exact Function.update_of_ne hu _ _
    · cases h
      exact ⟨filled_none _ hs hlo,fun _ _ => rfl⟩

theorem createMissing_apart {lo : ℤ} {before after : Schema × ℕ}
    (h : createMissing c t lo before = .ok after) (ha : Apart before.1) : Apart after.1 := by
  rcases createMissing_spec h with ⟨-,rfl⟩ | ⟨-,hproper,hover,rfl⟩
  · exact ha
  · refine ⟨fun u => ?_,fun u p hp => ?_⟩
    · by_cases hu : u = t
      · subst hu
        simp only [Function.update_self]
        exact List.pairwise_cons.mpr ⟨fun q hq => (hover q hq).symm,ha.disjoint u⟩
      · simp only [Function.update_of_ne hu]
        exact ha.disjoint u
    · by_cases hu : u = t
      · subst hu
        simp only [Function.update_self,List.mem_cons] at hp
        rcases hp with rfl | hp
        · exact hproper
        · exact ha.proper u p hp
      · simp only [Function.update_of_ne hu] at hp
        exact ha.proper u p hp

theorem fill_apart (rounds : ℕ) {lo : ℤ} {before after : Schema × ℕ}
    (h : fill c t rounds lo before = .ok after) (ha : Apart before.1) : Apart after.1 := by
  induction rounds generalizing lo before with
  | zero =>
    rw [fill] at h
    split_ifs at h
    cases h
    exact ha
  | succ rounds ih =>
    rw [fill] at h
    split_ifs at h
    · obtain ⟨middle,hround,h⟩ := bind_ok.mp h
      obtain ⟨lo',-,h⟩ := bind_ok.mp h
      exact ih h (createMissing_apart hround ha)
    · cases h
      exact ha

theorem fill_idle (hs : 1 ≤ c.step) (rounds : ℕ) {lo : ℤ} (state : Schema × ℕ)
    (hr : (c.toBlock-lo).toNat ≤ rounds)
    (hn : ∀ k : ℕ, lo+k*c.step < c.toBlock → Named (state.1 t) (lo+k*c.step))
    (hb : ∀ k : ℕ, lo+k*c.step < c.toBlock → lo+k*c.step+c.step < 2^63) :
    fill c t rounds lo state = .ok state := by
  induction rounds generalizing lo with
  | zero =>
    rw [fill,if_neg (by omega)]
  | succ rounds ih =>
    rw [fill]
    split_ifs with hlo
    · have hname : Named (state.1 t) lo := by simpa using hn 0 (by simpa using hlo)
      obtain ⟨p,hp⟩ := toRegclass_some.mpr hname
      have hbound : lo+c.step < 2^63 := by simpa using hb 0 (by simpa using hlo)
      refine bind_ok.mpr ⟨state,?_,bind_ok.mpr ⟨lo+c.step,addBigint_ok.mpr ⟨hbound,rfl⟩,ih ?_ ?_ ?_⟩⟩
      · rw [createMissing,hp]
      · omega
      · intro k hk
        rw [later_start] at hk ⊢
        exact hn (k+1) hk
      · intro k hk
        rw [later_start] at hk ⊢
        exact hb (k+1) hk
    · rfl

theorem fillTables_spec (hs : 1 ≤ c.step) (ts : List EventTable) (hn : ts.Nodup)
    {before after : Schema × ℕ} (h : ts.foldlM (fillTable c) before = .ok after) :
    (∀ t ∈ ts, Filled c (start c) (before.1 t) (after.1 t)) ∧
      ∀ u, u ∉ ts → after.1 u = before.1 u := by
  induction ts generalizing before with
  | nil =>
    rw [List.foldlM_nil,pure_ok] at h
    subst h
    exact ⟨by simp,fun _ _ => rfl⟩
  | cons t ts ih =>
    rw [List.foldlM_cons] at h
    obtain ⟨middle,hstep,h⟩ := bind_ok.mp h
    obtain ⟨ht,hts⟩ := List.nodup_cons.mp hn
    obtain ⟨hfill,hothers⟩ := fill_spec hs _ hstep
    obtain ⟨hrest,hrest'⟩ := ih hts h
    refine ⟨fun u hu => ?_,fun u hu => ?_⟩
    · rcases List.mem_cons.mp hu with rfl | hu
      · rw [hrest' u ht]
        exact hfill
      · rw [← hothers u (fun h => ht (h ▸ hu))]
        exact hrest u hu
    · rw [List.mem_cons,not_or] at hu
      rw [hrest' u hu.2,hothers u hu.1]

theorem mem_eventTables (t : EventTable) : t ∈ eventTables := by
  cases t <;> decide

theorem create_spec (hs : 1 ≤ c.step) {s : Schema} {after : Schema × ℕ}
    (h : createEventPartitions c s = .ok after) (t : EventTable) :
    Filled c (start c) (s t) (after.1 t) :=
  (fillTables_spec hs eventTables (by decide) h).1 t (mem_eventTables t)

theorem create_apart {s : Schema} {after : Schema × ℕ} (h : createEventPartitions c s = .ok after)
    (ha : Apart s) : Apart after.1 := by
  have hfold : ∀ (ts : List EventTable) (before : Schema × ℕ),
      ts.foldlM (fillTable c) before = .ok after → Apart before.1 → Apart after.1 := by
    intro ts
    induction ts with
    | nil =>
      intro before h ha
      rw [List.foldlM_nil,pure_ok] at h
      exact h ▸ ha
    | cons t ts ih =>
      intro before h ha
      rw [List.foldlM_cons] at h
      obtain ⟨middle,hstep,h⟩ := bind_ok.mp h
      exact ih middle h (fill_apart _ hstep ha)
  exact hfold eventTables (s,0) h ha

theorem create_idle (hs : 1 ≤ c.step) {s : Schema}
    (hn : ∀ t, ∀ k : ℕ, start c+k*c.step < c.toBlock → Named (s t) (start c+k*c.step))
    (hb : ∀ k : ℕ, start c+k*c.step < c.toBlock → start c+k*c.step+c.step < 2^63) :
    createEventPartitions c s = .ok (s,0) := by
  have hfold : ∀ ts : List EventTable, ts.foldlM (fillTable c) (s,0) = .ok (s,0) := by
    intro ts
    induction ts with
    | nil => rfl
    | cons t ts ih =>
      rw [List.foldlM_cons]
      exact bind_ok.mpr ⟨(s,0),fill_idle hs _ (s,0) (le_refl _) (hn t) hb,ih⟩
  exact hfold eventTables

end Rounds

section Calls

def Call.Valid (c : Call) : Prop := 0 ≤ c.fromBlock ∧ 1 ≤ c.step

def Call.Requests (c : Call) (block : ℤ) : Prop := c.fromBlock ≤ block ∧ block < c.toBlock

/-- Where a partition stands already at an aligned start of the call, the
partitions from before the call reach as far as that step is requested. -/
def Fits (s : Schema) (c : Call) : Prop :=
  ∀ t, ∀ k : ℕ, start c+k*c.step < c.toBlock → Named (s t) (start c+k*c.step) →
    ∀ block, c.Requests block → start c+k*c.step ≤ block → block < start c+k*c.step+c.step →
      Covered s t block

variable {c : Call}

theorem start_le (hv : c.Valid) : start c ≤ c.fromBlock := by
  have h := Int.emod_nonneg c.fromBlock (show c.step ≠ 0 by have := hv.2; omega)
  rw [start,Int.tmod_eq_emod_of_nonneg hv.1]
  omega

theorem request_step (hv : c.Valid) {block : ℤ} (hr : c.Requests block) :
    ∃ k : ℕ, start c+k*c.step ≤ block ∧ block < start c+k*c.step+c.step := by
  have hle : 0 ≤ block-start c := by
    have := start_le hv
    have := hr.1
    omega
  have hpos : 0 < c.step := by
    have := hv.2
    omega
  refine ⟨((block-start c)/c.step).toNat,?_⟩
  rw [Int.toNat_of_nonneg (Int.ediv_nonneg hle (le_of_lt hpos))]
  have hdiv := Int.emod_add_mul_ediv (block-start c) c.step
  have hlt := Int.emod_lt_of_pos (block-start c) hpos
  have hnonneg := Int.emod_nonneg (block-start c) (ne_of_gt hpos)
  rw [Int.mul_comm] at hdiv
  omega

theorem step_unique (hv : c.Valid) {j k : ℕ} {block : ℤ}
    (hj : start c+j*c.step ≤ block ∧ block < start c+j*c.step+c.step)
    (hk : start c+k*c.step ≤ block ∧ block < start c+k*c.step+c.step) : j = k := by
  have hpos := hv.2
  by_contra hne
  rcases Nat.lt_or_gt_of_ne hne with hlt | hlt
  · have : ((j:ℤ)+1)*c.step ≤ k*c.step := by
      apply mul_le_mul_of_nonneg_right _ (by omega)
      exact_mod_cast hlt
    rw [add_mul,one_mul] at this
    omega
  · have : ((k:ℤ)+1)*c.step ≤ j*c.step := by
      apply mul_le_mul_of_nonneg_right _ (by omega)
      exact_mod_cast hlt
    rw [add_mul,one_mul] at this
    omega

/-- A call that returns covers what it was asked for exactly when it fits. -/
theorem create_covers (hv : c.Valid) {s : Schema} {after : Schema × ℕ}
    (h : createEventPartitions c s = .ok after) :
    (∀ t block, c.Requests block → Covered after.1 t block) ↔ Fits s c := by
  have hfill := create_spec hv.2 h
  constructor
  · intro hcov t k _ hname block hr hlo hhi
    obtain ⟨p,hp,hin⟩ := covered_iff.mp (hcov t block hr)
    rcases (hfill t).new p hp with hold | ⟨hn,j,rfl⟩
    · exact covered_iff.mpr ⟨p,hold,hin⟩
    · -- a new partition stands at a start whose name was free
      obtain rfl := step_unique hv hin ⟨hlo,hhi⟩
      exact absurd hname hn
  · intro hfit t block hr
    obtain ⟨k,hlo,hhi⟩ := request_step hv hr
    have hk : start c+k*c.step < c.toBlock := lt_of_le_of_lt hlo hr.2
    by_cases hname : Named (s t) (start c+k*c.step)
    · obtain ⟨p,hp,hin⟩ := covered_iff.mp (hfit t k hk hname block hr hlo hhi)
      exact covered_iff.mpr ⟨p,(hfill t).kept p hp,hin⟩
    · exact covered_iff.mpr ⟨_,(hfill t).made k hk hname,hlo,hhi⟩

theorem apply_apart {s : Schema} (ha : Apart s) : Apart (apply c s) := by
  unfold apply
  cases h : createEventPartitions c s with
  | error e => exact ha
  | ok after => exact create_apart h ha

theorem apply_kept (hv : c.Valid) (s : Schema) (t : EventTable) : ∀ p ∈ s t, p ∈ apply c s t := by
  intro p hp
  unfold apply
  cases h : createEventPartitions c s with
  | error e => exact hp
  | ok after => exact (create_spec hv.2 h t).kept p hp

theorem run_kept (calls : List Call) (hv : ∀ c ∈ calls, c.Valid) (s : Schema) (t : EventTable) :
    ∀ p ∈ s t, p ∈ calls.foldl (fun s c => apply c s) s t := by
  induction calls generalizing s with
  | nil => exact fun p hp => hp
  | cons c calls ih =>
    intro p hp
    exact ih (fun c hc => hv c (List.mem_cons_of_mem _ hc)) _ p
      (apply_kept (hv c List.mem_cons_self) s t p hp)

theorem run_apart (calls : List Call) : Apart (run calls) := by
  have hfold : ∀ s, Apart s → Apart (calls.foldl (fun s c => apply c s) s) := by
    induction calls with
    | nil => exact fun s h => h
    | cons c calls ih => exact fun s h => ih _ (apply_apart h)
  exact hfold _ ⟨fun _ => List.Pairwise.nil,fun _ p hp => by cases hp⟩

/-- Repeated at any later time, a call that returned makes nothing. -/
theorem create_again (hv : c.Valid) {s : Schema} {after : Schema × ℕ}
    (h : createEventPartitions c s = .ok after) (later : List Call) (hl : ∀ c ∈ later, c.Valid) :
    createEventPartitions c (later.foldl (fun s c => apply c s) after.1) =
      .ok (later.foldl (fun s c => apply c s) after.1,0) := by
  have hfill := create_spec hv.2 h
  exact create_idle hv.2 (fun t k hk => named_mono (run_kept later hl after.1 t) ((hfill t).named k hk))
    (hfill .storageChanges).bounded

end Calls

/-- What the calls of a run are to achieve: disjoint partitions, every range
covered when its call returns, and nothing made when it is repeated. -/
structure Serves (calls : List Call) : Prop where
  disjoint : ∀ t, (run calls t).Pairwise Disjoint
  covered : ∀ before c later, calls = before++c::later → ∀ after,
    createEventPartitions c (run before) = .ok after →
    ∀ t block, c.Requests block → Covered after.1 t block
  repeated : ∀ before c middle later, calls = before++c::(middle++later) → ∀ after,
    createEventPartitions c (run before) = .ok after →
    createEventPartitions c (run (before++c::middle)) = .ok (run (before++c::middle),0)

theorem fits_serves {calls : List Call} (hv : ∀ c ∈ calls, c.Valid)
    (h : ∀ before c later, calls = before++c::later →
      (∃ after, createEventPartitions c (run before) = .ok after) → Fits (run before) c) :
    Serves calls := by
  refine ⟨(run_apart calls).disjoint,fun before c later hcalls after hafter => ?_,
    fun before c middle later hcalls after hafter => ?_⟩
  · have hc : c.Valid := hv c (by simp [hcalls])
    exact (create_covers hc hafter).mpr (h before c later hcalls ⟨after,hafter⟩)
  · have hc : c.Valid := hv c (by simp [hcalls])
    have hrun : run (before++c::middle) = middle.foldl (fun s c => apply c s) after.1 := by
      have happly : apply c (run before) = after.1 := by
        unfold apply
        rw [hafter]
      rw [run,List.foldl_append,List.foldl_cons]
      show middle.foldl _ (apply c (run before)) = _
      rw [happly]
    rw [hrun]
    exact create_again hc hafter middle (fun d hd => hv d (by simp [hcalls,hd]))

/-- A run serves its calls exactly when every call that returns fits the
partitions it finds. -/
theorem serves_iff (calls : List Call) (hv : ∀ c ∈ calls, c.Valid) :
    Serves calls ↔ ∀ before c later, calls = before++c::later →
      (∃ after, createEventPartitions c (run before) = .ok after) → Fits (run before) c := by
  refine ⟨?_,fits_serves hv⟩
  rintro h before c later hcalls ⟨after,hafter⟩
  have hc : c.Valid := hv c (by simp [hcalls])
  exact (create_covers hc hafter).mp (h.covered before c later hcalls after hafter)

/-- Two calls with one step fit: the second finds the partition of its first
step as long as it needs it. -/
theorem serves_same_step :
    Serves [⟨0,10,10,fun _ _ => false⟩,⟨5,30,10,fun _ _ => false⟩] := by
  refine (serves_iff _ ?_).mpr ?_
  · intro c hc
    rcases List.mem_cons.mp hc with rfl | hc
    · exact ⟨by decide,by decide⟩
    · obtain rfl := List.mem_singleton.mp hc
      exact ⟨by decide,by decide⟩
  · intro before c later hcalls _ t k _ hname block hr hlo hhi
    rcases before with - | ⟨c1,before⟩
    · obtain ⟨p,hp,-⟩ := hname
      cases hp
    · obtain ⟨rfl,hrest⟩ := List.cons.inj hcalls
      rcases before with - | ⟨c2,before⟩
      · obtain ⟨rfl,-⟩ := List.cons.inj hrest
        have hrun : run [⟨0,10,10,fun _ _ => false⟩] t = [⟨0,10⟩] := by cases t <;> rfl
        have hstart : start ⟨5,30,10,fun _ _ => false⟩ = 0 := rfl
        rw [hrun] at hname
        obtain ⟨p,hp,hk⟩ := hname
        obtain rfl := List.mem_singleton.mp hp
        simp only [hstart] at hk hlo hhi
        exact covered_iff.mpr ⟨⟨0,10⟩,by rw [hrun]; exact hp,by simp only; omega⟩
      · obtain ⟨-,hrest⟩ := List.cons.inj hrest
        simp at hrest

theorem run_made (calls : List Call) (hv : ∀ c ∈ calls, c.Valid) (t : EventTable) :
    ∀ p ∈ run calls t, ∃ d ∈ calls, p.hi = p.lo+d.step := by
  induction calls using List.reverseRecOn with
  | nil =>
    intro p hp
    cases hp
  | append_singleton calls c ih =>
    intro p hp
    have hrun : run (calls++[c]) = apply c (run calls) := by
      rw [run,List.foldl_append]
      rfl
    have hold : p ∈ run calls t → ∃ d ∈ calls++[c], p.hi = p.lo+d.step := by
      intro hp
      obtain ⟨d,hd,hstep⟩ := ih (fun c hc => hv c (List.mem_append_left _ hc)) p hp
      exact ⟨d,List.mem_append_left _ hd,hstep⟩
    rw [hrun,apply] at hp
    cases h : createEventPartitions c (run calls) with
    | error e =>
      rw [h] at hp
      exact hold hp
    | ok after =>
      rw [h] at hp
      rcases (create_spec (hv c (by simp)).2 h t).new p hp with hp | ⟨-,k,rfl⟩
      · exact hold hp
      · exact ⟨c,by simp,rfl⟩

/-- Whatever the steps are, a run serves its calls when no partition of a
smaller step stands at an aligned start of a later call. -/
theorem serves_wide {calls : List Call} (hv : ∀ c ∈ calls, c.Valid)
    (h : ∀ before c later, calls = before++c::later → ∀ t, ∀ p ∈ run before t,
      p.hi < p.lo+c.step → ∀ k : ℕ, p.lo ≠ start c+k*c.step) : Serves calls := by
  refine fits_serves hv (fun before c later hcalls _ t k _ hname block _ hlo hhi => ?_)
  obtain ⟨p,hp,hplo⟩ := hname
  refine covered_iff.mpr ⟨p,hp,by omega,?_⟩
  by_contra hshort
  exact h before c later hcalls t p hp (by omega) k hplo

/-- Calls with one step are always served. -/
theorem serves_one_step {calls : List Call} {step : ℤ} (hv : ∀ c ∈ calls, c.Valid)
    (h : ∀ c ∈ calls, c.step = step) : Serves calls := by
  refine serves_wide hv (fun before c later hcalls t p hp hshort => ?_)
  have hbefore : ∀ d ∈ before, d ∈ calls := fun d hd => by simp [hcalls,hd]
  obtain ⟨d,hd,hstep⟩ := run_made before (fun d hd => hv d (hbefore d hd)) t p hp
  have hsame : d.step = c.step := (h d (hbefore d hd)).trans (h c (by simp [hcalls])).symm
  omega

def shortThenLong : List Call := [⟨0,10,10,fun _ _ => false⟩,⟨0,100,100,fun _ _ => false⟩]

theorem short_then_long : (∀ c ∈ shortThenLong, c.Valid) ∧ ¬Serves shortThenLong := by
  refine ⟨fun c hc => ?_,fun h => ?_⟩
  · simp only [shortThenLong,List.mem_cons,List.not_mem_nil,or_false] at hc
    rcases hc with rfl | rfl
    · exact ⟨by decide,by decide⟩
    · exact ⟨by decide,by decide⟩
  · have hcov := h.covered [⟨0,10,10,fun _ _ => false⟩] ⟨0,100,100,fun _ _ => false⟩ [] rfl _ rfl
      .storageChanges 50 ⟨by decide,by decide⟩
    obtain ⟨p,hp⟩ := hcov
    have hnone : route (run [⟨0,10,10,fun _ _ => false⟩]) .storageChanges 50 = none := rfl
    cases hp.symm.trans hnone

end EvmState.Partitions
