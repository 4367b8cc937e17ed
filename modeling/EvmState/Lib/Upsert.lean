import EvmState.Lib.OrderedMap

/-!
# Tables under upserts

A statement names a row by its key and writes some of its columns. A write
replaces the value, or supplies it only where the column is still empty.
Statements are first gathered into one set of writes for each key and then
applied to a stored table. Two applications in turn are one application of
the combined writes, so applying a sequence of them twice changes nothing
after the first time.
-/

set_option autoImplicit false

namespace EvmState.Upsert
open EvmState.OrderedMap

inductive Write (V : Type) where
  | set (v : V)
  | setIfNull (v : V)
  deriving DecidableEq, Repr

variable {K V : Type} [LinearOrder K]

def Write.apply : Write V → Option V → V
  | .set v, _ => v
  | .setIfNull v, old => old.getD v

/-- Two writes of one column in turn. -/
def Write.andThen : Write V → Write V → Write V
  | _, .set v => .set v
  | w, .setIfNull _ => w

theorem Write.apply_apply (w x : Write V) (old : Option V) :
    x.apply (some (w.apply old)) = (w.andThen x).apply old := by
  cases x <;> cases w <;> rfl

theorem Write.apply_again (w : Write V) (old : Option V) :
    w.apply (some (w.apply old)) = w.apply old := by
  cases w <;> rfl

abbrev Columns (V : Type) := SortedMap String (Write V)
abbrev Row (V : Type) := SortedMap String V

abbrev Rows (K V : Type) [LinearOrder K] := SortedMap K (Columns V)

abbrev Stored (K V : Type) [LinearOrder K] := SortedMap K (Row V)

structure Statement (K V : Type) where
  key : K
  sets : List (String × Write V)
  deriving DecidableEq

/-- Later writes of a column replace earlier ones. -/
def upsertRow (t : Rows K V) (s : Statement K V) : Rows K V :=
  t.insert s.key (((t.get? s.key).getD .empty).insertAll s.sets)

def gather (l : List (Statement K V)) : Rows K V := l.foldl upsertRow .empty

def writeColumns (r : Row V) (c : Columns V) : Row V := r.mergeWith (fun old w => w.apply old) c

def upsert (d : Stored K V) (t : Rows K V) : Stored K V :=
  d.mergeWith (fun old c => writeColumns (old.getD .empty) c) t

def run (d : Stored K V) (ts : List (Rows K V)) : Stored K V := ts.foldl upsert d

theorem run_append (d : Stored K V) (ts us : List (Rows K V)) :
    run d (ts++us) = run (run d ts) us := List.foldl_append

def combineColumns (c d : Columns V) : Columns V :=
  c.mergeWith (fun old w => old.elim w (·.andThen w)) d

def combine (t u : Rows K V) : Rows K V :=
  t.mergeWith (fun old c => combineColumns (old.getD .empty) c) u

theorem writeColumns_combine (r : Row V) (c d : Columns V) :
    writeColumns (writeColumns r c) d = writeColumns r (combineColumns c d) := by
  ext j : 1
  simp only [writeColumns, combineColumns, SortedMap.get?_mergeWith]
  cases d.get? j with
  | none => rfl
  | some w => cases c.get? j <;> simp [Write.apply_apply]

theorem writeColumns_again (r : Row V) (c : Columns V) :
    writeColumns (writeColumns r c) c = writeColumns r c := by
  ext j : 1
  simp only [writeColumns, SortedMap.get?_mergeWith]
  cases c.get? j with
  | none => rfl
  | some w => simp [Write.apply_again]

theorem upsert_combine (d : Stored K V) (t u : Rows K V) :
    upsert (upsert d t) u = upsert d (combine t u) := by
  ext k : 1
  simp only [upsert, combine, SortedMap.get?_mergeWith]
  cases u.get? k with
  | none => rfl
  | some c =>
    cases t.get? k with
    | none =>
      have hempty : combineColumns .empty c = c := by
        ext j : 1
        simp only [combineColumns, SortedMap.get?_mergeWith, SortedMap.get?_empty]
        cases c.get? j <;> rfl
      simp [hempty]
    | some b => simp [writeColumns_combine]

theorem upsert_again (d : Stored K V) (t : Rows K V) : upsert (upsert d t) t = upsert d t := by
  ext k : 1
  simp only [upsert, SortedMap.get?_mergeWith]
  cases t.get? k with
  | none => rfl
  | some c => simp [writeColumns_again]

theorem run_combine (d : Stored K V) (t : Rows K V) (ts : List (Rows K V)) :
    run (upsert d t) ts = upsert d (ts.foldl combine t) := by
  induction ts generalizing t with
  | nil => rfl
  | cons u ts ih => exact (congrArg (run · ts) (upsert_combine d t u)).trans (ih (combine t u))

theorem run_again (d : Stored K V) (ts : List (Rows K V)) : run (run d ts) ts = run d ts := by
  cases ts with
  | nil => rfl
  | cons t ts =>
    have hrun : ∀ e : Stored K V, run e (t::ts) = upsert e (ts.foldl combine t) := fun e =>
      run_combine e t ts
    rw [hrun, hrun, upsert_again]

/-- A sequence of upserts resumed anywhere and applied to its end again. -/
theorem run_resume (ts : List (Rows K V)) (n : ℕ) (d : Stored K V) :
    run (run d ts) (ts.drop n) = run d ts := by
  have hsplit : run d ts = run (run d (ts.take n)) (ts.drop n) := by
    rw [← run_append, List.take_append_drop]
  rw [hsplit, run_again]

def written (t : Rows K V) (k : K) (j : String) : Option (Write V) := (t.get? k).bind (·.get? j)

def cell (d : Stored K V) (k : K) (j : String) : Option V := (d.get? k).bind (·.get? j)

theorem cell_upsert (d : Stored K V) (t : Rows K V) (k : K) (j : String) :
    cell (upsert d t) k j = (written t k j).elim (cell d k j) (fun w => some (w.apply (cell d k j))) := by
  rw [cell, upsert, SortedMap.get?_mergeWith, written]
  cases ht : t.get? k with
  | none => rfl
  | some c =>
    simp only [Option.elim_some, Option.bind_some, writeColumns, SortedMap.get?_mergeWith]
    cases hd : d.get? k with
    | none => cases c.get? j <;> simp [cell, hd]
    | some r => cases c.get? j <;> simp [cell, hd]

theorem stored_upsert (d : Stored K V) (t : Rows K V) (k : K) :
    ((upsert d t).get? k).isSome = ((t.get? k).isSome || (d.get? k).isSome) := by
  rw [upsert, SortedMap.get?_mergeWith]
  cases t.get? k <;> rfl

theorem stored_run (d : Stored K V) (ts : List (Rows K V)) (k : K) :
    ((run d ts).get? k).isSome = (ts.any (fun t => (t.get? k).isSome) || (d.get? k).isSome) := by
  induction ts generalizing d with
  | nil => rfl
  | cons t ts ih =>
    rw [run, List.foldl_cons, ← run, ih, stored_upsert, List.any_cons]
    rw [← Bool.or_assoc, Bool.or_comm (ts.any _)]

theorem cell_run {ι : Type} {k : K} {j : String} (table : ι → Rows K V) (value : ι → Option V)
    (l : List ι) (h : ∀ i ∈ l, written (table i) k j = (value i).map .set) (d : Stored K V) :
    cell (run d (l.map table)) k j = ((l.filterMap value).getLast?).or (cell d k j) := by
  induction l generalizing d with
  | nil => rfl
  | cons i l ih =>
    rw [List.map_cons, run, List.foldl_cons, ← run, ih (fun u hu => h u (by simp [hu])), cell_upsert,
      h i (by simp), List.filterMap_cons]
    cases value i with
    | none => rfl
    | some v =>
      rw [List.getLast?_cons]
      cases (l.filterMap value).getLast? <;> rfl

/-- Writes that set every column of the row that they replace. -/
structure Overwrites (names : List String) (c : Columns V) : Prop where
  sets : ∀ j w, c.get? j = some w → ∃ v, w = .set v
  named : ∀ j, (c.get? j).isSome ↔ j ∈ names

theorem writeColumns_overwrites {names : List String} {b c : Columns V} (hb : Overwrites names b)
    (hc : Overwrites names c) :
    writeColumns (writeColumns .empty b) c = writeColumns .empty c := by
  ext j : 1
  simp only [writeColumns, SortedMap.get?_mergeWith]
  cases hj : c.get? j with
  | some w =>
    obtain ⟨v,rfl⟩ := hc.sets j w hj
    rfl
  | none =>
    have hbj : b.get? j = none := by
      rw [← Option.not_isSome_iff_eq_none, hb.named j, ← hc.named j, hj]
      simp
    rw [hbj]
    rfl

/-- A row that every batch overwrites is what the last batch makes it. -/
theorem row_run {names : List String} {k : K} (ts : List (Rows K V))
    (h : ∀ t ∈ ts, ∀ c, t.get? k = some c → Overwrites names c) :
    (run .empty ts).get? k = ((ts.filterMap (·.get? k)).getLast?).map (writeColumns .empty) := by
  induction ts using List.reverseRecOn with
  | nil => rfl
  | append_singleton ts t ih =>
    have ih := ih (fun u hu => h u (by simp [hu]))
    rw [run_append, run, List.foldl_cons, List.foldl_nil, upsert, SortedMap.get?_mergeWith, ih,
      List.filterMap_append, List.getLast?_append]
    cases ht : t.get? k with
    | none => simp [ht]
    | some c =>
      cases hlast : (ts.filterMap (·.get? k)).getLast? with
      | none => simp [ht]
      | some b =>
        obtain ⟨u,hu,hub⟩ := List.mem_filterMap.mp (List.mem_of_getLast? hlast)
        simp only [Option.elim_some, Option.map_some, Option.getD_some, List.filterMap_cons, ht,
          List.filterMap_nil, List.getLast?_singleton, Option.some_or, Option.some.injEq]
        exact writeColumns_overwrites (h u (by simp [hu]) b hub) (h t (by simp) c ht)

theorem get?_upsertRow (t : Rows K V) (s : Statement K V) (k : K) :
    (upsertRow t s).get? k =
      if k = s.key then some (((t.get? k).getD .empty).insertAll s.sets) else t.get? k := by
  rw [upsertRow, SortedMap.get?_insert]
  by_cases hk : k = s.key
  · rw [if_pos hk, if_pos hk, hk]
  · rw [if_neg hk, if_neg hk]

theorem insertAll_overwritten {β : Type} {l m : List (String × β)}
    (h : l.map Prod.fst = m.map Prod.fst) (c : SortedMap String β) :
    (c.insertAll l).insertAll m = c.insertAll m := by
  ext j : 1
  rw [SortedMap.get?_insertAll_last, SortedMap.get?_insertAll_last, SortedMap.get?_insertAll_last]
  cases hm : SortedMap.lastOf j m with
  | some v => rfl
  | none =>
    have hnone : ∀ n : List (String × β), SortedMap.lastOf j n = none ↔ j ∉ n.map Prod.fst := by
      intro n
      simp only [SortedMap.lastOf, Option.map_eq_none_iff, List.getLast?_eq_none_iff,
        List.filter_eq_nil_iff, decide_eq_true_eq, List.mem_map, not_exists, not_and]
    have hl : SortedMap.lastOf j l = none := by
      rw [hnone, h, ← hnone]
      exact hm
    rw [hl]
    rfl

def columnsOf (s : Statement K V) : Columns V := SortedMap.empty.insertAll s.sets

omit [LinearOrder K] in
theorem get?_columnsOf (s : Statement K V) (j : String) :
    (columnsOf s).get? j = SortedMap.lastOf j s.sets := by
  rw [columnsOf, SortedMap.get?_insertAll_last]
  exact Option.or_none

omit [LinearOrder K] in
theorem columnsOf_overwrites {s : Statement K V} (h : ∀ e ∈ s.sets, ∃ v, e.2 = .set v) :
    Overwrites (s.sets.map Prod.fst) (columnsOf s) := by
  constructor
  · intro j w hw
    rw [get?_columnsOf] at hw
    exact h _ (SortedMap.mem_of_lastOf hw)
  · intro j
    rw [get?_columnsOf]
    constructor
    · intro hj
      obtain ⟨w,hw⟩ := Option.isSome_iff_exists.mp hj
      exact List.mem_map.mpr ⟨_,SortedMap.mem_of_lastOf hw,rfl⟩
    · intro hj
      obtain ⟨e,he,rfl⟩ := List.mem_map.mp hj
      exact Option.isSome_iff_exists.mpr (SortedMap.lastOf_isSome he)

/-- Statements that all write the same columns: the last one of a key says
what its row becomes. -/
theorem gather_uniform {names : List String} {l : List (Statement K V)}
    (h : ∀ s ∈ l, s.sets.map Prod.fst = names) (k : K) :
    (gather l).get? k = ((l.filter (fun s => s.key = k)).getLast?).map columnsOf := by
  induction l using List.reverseRecOn with
  | nil => rfl
  | append_singleton l s ih =>
    have ih := ih (fun q hq => h q (by simp [hq]))
    rw [gather, List.foldl_append, List.foldl_cons, List.foldl_nil, ← gather, get?_upsertRow,
      List.filter_append, List.getLast?_append, ih]
    by_cases hk : k = s.key
    · subst hk
      simp only [if_true, List.filter_cons, decide_true, List.filter_nil, List.getLast?_singleton,
        Option.some_or, Option.map_some, Option.some.injEq]
      cases hl : (l.filter (fun q => q.key = s.key)).getLast? with
      | none => rfl
      | some q =>
        have hq := (List.mem_filter.mp (List.mem_of_getLast? hl)).1
        refine insertAll_overwritten ?_ .empty
        rw [h q (by simp [hq]), h s (by simp)]
    · simp [hk, Ne.symm hk]

theorem gather_last {names : List String} {l : List (Statement K V)} {k : K} {p : Statement K V → Bool}
    (h : ∀ s ∈ l, s.sets.map Prod.fst = names) (hp : ∀ s ∈ l, p s = true ↔ s.key = k) :
    (gather l).get? k = ((l.filter p).getLast?).map columnsOf := by
  have hfilter : l.filter (fun s => s.key = k) = l.filter p :=
    List.filter_congr (fun s hs => by rw [Bool.eq_iff_iff, hp s hs, decide_eq_true_iff])
  rw [gather_uniform h, hfilter]

theorem gather_lastly {names : List String} {l m : List (Statement K V)} {s : Statement K V}
    (h : ∀ q ∈ l++m, q.sets.map Prod.fst = names) (hm : ∀ q ∈ m, q.key = s.key)
    (hs : m.getLast? = some s) : (gather (l++m)).get? s.key = some (columnsOf s) := by
  have hkeep : m.filter (fun q => q.key = s.key) = m := by
    rw [List.filter_eq_self]
    exact fun q hq => decide_eq_true (hm q hq)
  rw [gather_uniform h, List.filter_append, hkeep, List.getLast?_append, hs]
  rfl

theorem gather_distinct {l : List (Statement K V)} (h : l.Pairwise (fun s t => s.key ≠ t.key))
    {k : K} {c : Columns V} :
    (gather l).get? k = some c ↔ ∃ s ∈ l, s.key = k ∧ columnsOf s = c := by
  induction l using List.reverseRecOn generalizing c with
  | nil => simp [gather]
  | append_singleton l s ih =>
    obtain ⟨hl,-,hs⟩ := List.pairwise_append.mp h
    rw [gather, List.foldl_append, List.foldl_cons, List.foldl_nil, ← gather, get?_upsertRow]
    by_cases hk : k = s.key
    · subst hk
      have hnone : (gather l).get? s.key = none := by
        rw [Option.eq_none_iff_forall_ne_some]
        intro d hd
        obtain ⟨q,hq,hqs,-⟩ := (ih hl).mp hd
        exact hs q hq s (by simp) hqs
      rw [if_pos rfl, hnone]
      constructor
      · intro hc
        exact ⟨s,by simp,rfl,Option.some.inj hc⟩
      · rintro ⟨q,hq,hqs,rfl⟩
        rcases List.mem_append.mp hq with hq | hq
        · exact absurd hqs (hs q hq s (by simp))
        · obtain rfl := List.mem_singleton.mp hq
          rfl
    · rw [if_neg hk, ih hl]
      constructor
      · rintro ⟨q,hq,hqk,hqc⟩
        exact ⟨q,by simp [hq],hqk,hqc⟩
      · rintro ⟨q,hq,hqk,hqc⟩
        rcases List.mem_append.mp hq with hq | hq
        · exact ⟨q,hq,hqk,hqc⟩
        · obtain rfl := List.mem_singleton.mp hq
          exact absurd hqk.symm hk

theorem run_distinct {ls : List (List (Statement K V))}
    (h : ls.flatten.Pairwise (fun s t => s.key ≠ t.key)) {k : K} {r : Row V} :
    (run .empty (ls.map gather)).get? k = some r ↔
      ∃ s ∈ ls.flatten, s.key = k ∧ writeColumns .empty (columnsOf s) = r := by
  induction ls using List.reverseRecOn generalizing r with
  | nil => simp [run]
  | append_singleton ls l ih =>
    rw [List.flatten_append] at h
    obtain ⟨hls,hl,hcross⟩ := List.pairwise_append.mp h
    rw [List.flatten_singleton] at hl hcross
    rw [List.map_append, run_append, List.map_singleton, run, List.foldl_cons, List.foldl_nil, upsert,
      SortedMap.get?_mergeWith, List.flatten_append, List.flatten_singleton]
    cases hg : (gather l).get? k with
    | none =>
      have hnone : ∀ s ∈ l, s.key ≠ k := by
        intro s hs hk
        have := (gather_distinct hl).mpr ⟨s,hs,hk,rfl⟩
        rw [hg] at this
        cases this
      rw [Option.elim_none, ih hls]
      constructor
      · rintro ⟨s,hs,hk,hr⟩
        exact ⟨s,by simp [hs],hk,hr⟩
      · rintro ⟨s,hs,hk,hr⟩
        rcases List.mem_append.mp hs with hs | hs
        · exact ⟨s,hs,hk,hr⟩
        · exact absurd hk (hnone s hs)
    | some c =>
      obtain ⟨s,hs,rfl,rfl⟩ := (gather_distinct hl).mp hg
      have hnone : (run .empty (ls.map gather)).get? s.key = none := by
        rw [Option.eq_none_iff_forall_ne_some]
        intro b hb
        obtain ⟨q,hq,hqs,-⟩ := (ih hls).mp hb
        exact hcross q hq s hs hqs
      rw [Option.elim_some, hnone, Option.getD_none, Option.some.injEq]
      constructor
      · rintro rfl
        exact ⟨s,by simp [hs],rfl,rfl⟩
      · rintro ⟨q,hq,hqs,rfl⟩
        rcases List.mem_append.mp hq with hq | hq
        · exact absurd hqs (hcross q hq s hs)
        · have hcq := (gather_distinct hl).mpr ⟨q,hq,hqs,rfl⟩
          rw [hg] at hcq
          rw [Option.some.inj hcq]

/-- Statements of distinct keys may come in any order. -/
theorem gather_perm {l m : List (Statement K V)} (h : l.Pairwise (fun s t => s.key ≠ t.key))
    (hp : l.Perm m) : gather l = gather m := by
  have hm : m.Pairwise (fun s t => s.key ≠ t.key) := (hp.pairwise_iff (fun h => h.symm)).mp h
  ext k c
  rw [gather_distinct h, gather_distinct hm]
  simp only [hp.mem_iff]

end EvmState.Upsert
