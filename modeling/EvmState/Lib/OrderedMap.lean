import Mathlib

/-!
# Ordered maps as strictly sorted entry lists

A map over a linearly ordered key type is its list of entries in ascending
key order. The order is a field of the structure, so an unsorted or
duplicated map cannot be built and two maps with the same lookups are equal.
The raw operations on entry lists need no order and are shared with callers
that nest entry lists inside other inductive types.
-/

set_option autoImplicit false

namespace EvmState.OrderedMap

section Raw
variable {α β : Type*} [LinearOrder α]

def lookup (k : α) : List (α × β) → Option β
  | [] => none
  | (a,b)::l => if k = a then some b else lookup k l

def put (k : α) (v : β) : List (α × β) → List (α × β)
  | [] => [(k,v)]
  | (a,b)::l =>
    if k < a then (k,v)::(a,b)::l
    else if k = a then (k,v)::l
    else (a,b)::put k v l

theorem lookup_put_self (k : α) (v : β) (l : List (α × β)) :
    lookup k (put k v l) = some v := by
  induction l with
  | nil => simp [put, lookup]
  | cons e l ih =>
    obtain ⟨a,b⟩ := e
    rw [put]
    split_ifs with h h'
    · simp [lookup]
    · simp [lookup]
    · simp [lookup, h', ih]

theorem lookup_put_ne {j k : α} (v : β) (l : List (α × β)) (h : j ≠ k) :
    lookup j (put k v l) = lookup j l := by
  induction l with
  | nil => simp [put, lookup, h]
  | cons e l ih =>
    obtain ⟨a,b⟩ := e
    rw [put]
    split_ifs with h1 h2
    · simp [lookup, h]
    · subst h2
      simp [lookup, h]
    · simp [lookup, ih]

theorem length_put_new {k : α} {v : β} {l : List (α × β)} (h : lookup k l = none) :
    (put k v l).length = l.length+1 := by
  induction l with
  | nil => rfl
  | cons e l ih =>
    obtain ⟨a,b⟩ := e
    rw [lookup] at h
    split_ifs at h with hk
    rw [put, if_neg hk]
    split_ifs
    · rfl
    · exact congrArg (·+1) (ih h)

theorem mem_put {k : α} {v : β} {e : α × β} {l : List (α × β)}
    (h : e ∈ put k v l) : e = (k,v) ∨ e ∈ l := by
  induction l with
  | nil => simpa [put] using h
  | cons d l ih =>
    obtain ⟨a,b⟩ := d
    rw [put] at h
    split_ifs at h with h1 h2
    · simpa using h
    · rcases List.mem_cons.mp h with h | h
      · exact Or.inl h
      · exact Or.inr (List.mem_cons_of_mem _ h)
    · rcases List.mem_cons.mp h with h | h
      · exact Or.inr (by simp [h])
      · exact (ih h).imp_right (List.mem_cons_of_mem _)

theorem mem_of_lookup {k : α} {v : β} {l : List (α × β)} (h : lookup k l = some v) :
    (k,v) ∈ l := by
  induction l with
  | nil => simp [lookup] at h
  | cons e l ih =>
    obtain ⟨a,b⟩ := e
    rw [lookup] at h
    split_ifs at h with hk
    · subst hk
      simp_all
    · exact List.mem_cons_of_mem _ (ih h)

theorem lookup_eq_none_iff {k : α} {l : List (α × β)} :
    lookup k l = none ↔ ∀ e ∈ l, k ≠ e.1 := by
  induction l with
  | nil => simp [lookup]
  | cons e l ih =>
    obtain ⟨a,b⟩ := e
    by_cases h : k = a <;> simp [lookup, h, ih]

abbrev Sorted (l : List (α × β)) : Prop := l.Pairwise (fun a b => a.1 < b.1)

theorem put_sorted (k : α) (v : β) {l : List (α × β)} (h : Sorted l) :
    Sorted (put k v l) := by
  induction l with
  | nil => simp [put, Sorted]
  | cons e l ih =>
    obtain ⟨a,b⟩ := e
    obtain ⟨ha,hl⟩ := List.pairwise_cons.mp h
    rw [put]
    split_ifs with h1 h2
    · refine List.pairwise_cons.mpr ⟨?_,h⟩
      intro d hd
      rcases List.mem_cons.mp hd with rfl | hd
      · exact h1
      · exact h1.trans (ha d hd)
    · subst h2
      exact List.pairwise_cons.mpr ⟨ha,hl⟩
    · refine List.pairwise_cons.mpr ⟨?_,ih hl⟩
      intro d hd
      rcases mem_put hd with rfl | hd
      · exact lt_of_le_of_ne (not_lt.mp h1) (Ne.symm h2)
      · exact ha d hd

theorem lookup_of_mem {k : α} {v : β} {l : List (α × β)} (hs : Sorted l)
    (h : (k,v) ∈ l) : lookup k l = some v := by
  induction l with
  | nil => simp at h
  | cons e l ih =>
    obtain ⟨a,b⟩ := e
    obtain ⟨ha,hl⟩ := List.pairwise_cons.mp hs
    rcases List.mem_cons.mp h with h | h
    · cases h
      simp [lookup]
    · rw [lookup, if_neg (ne_of_gt (ha _ h)), ih hl h]

theorem sorted_ext {l m : List (α × β)} (hl : Sorted l) (hm : Sorted m)
    (h : ∀ k, lookup k l = lookup k m) : l = m := by
  have hmem : ∀ e, e ∈ l ↔ e ∈ m := by
    rintro ⟨k,v⟩
    constructor
    · intro he
      exact mem_of_lookup ((h k).symm.trans (lookup_of_mem hl he))
    · intro he
      exact mem_of_lookup ((h k).trans (lookup_of_mem hm he))
  have nodup : ∀ {n : List (α × β)}, Sorted n → n.Nodup := fun hn =>
    hn.imp (fun hab he => absurd (he ▸ hab) (lt_irrefl _))
  have hp : l.Perm m := (List.perm_ext_iff_of_nodup (nodup hl) (nodup hm)).mpr hmem
  exact hp.eq_of_pairwise (fun a b _ _ hab hba => absurd (hab.trans hba) (lt_irrefl _)) hl hm

end Raw

structure SortedMap (α β : Type*) [LinearOrder α] where
  entries : List (α × β)
  sorted : Sorted entries

variable {α β : Type*} [LinearOrder α]

instance [DecidableEq β] : DecidableEq (SortedMap α β) := fun a b =>
  decidable_of_iff (a.entries = b.entries) (by cases a; cases b; simp)

instance : Inhabited (SortedMap α β) := ⟨⟨[],List.Pairwise.nil⟩⟩

namespace SortedMap

def empty : SortedMap α β := ⟨[],List.Pairwise.nil⟩

def get? (m : SortedMap α β) (k : α) : Option β := lookup k m.entries

def insert (m : SortedMap α β) (k : α) (v : β) : SortedMap α β :=
  ⟨put k v m.entries,put_sorted k v m.sorted⟩

def retain (m : SortedMap α β) (p : α → β → Bool) : SortedMap α β :=
  ⟨m.entries.filter (fun e => p e.1 e.2),m.sorted.filter _⟩

def keys (m : SortedMap α β) : List α := m.entries.map Prod.fst

def values (m : SortedMap α β) : List β := m.entries.map Prod.snd

@[ext] theorem ext {m n : SortedMap α β} (h : ∀ k, m.get? k = n.get? k) : m = n := by
  cases m with
  | mk l hl =>
    cases n with
    | mk l' hl' =>
      obtain rfl : l = l' := sorted_ext hl hl' h
      rfl

@[simp] theorem get?_empty (k : α) : (empty : SortedMap α β).get? k = none := rfl

@[simp] theorem get?_insert (m : SortedMap α β) (j k : α) (v : β) :
    (m.insert k v).get? j = if j = k then some v else m.get? j := by
  by_cases h : j = k
  · subst h
    simp [get?, insert, lookup_put_self]
  · simp [get?, insert, lookup_put_ne v m.entries h, h]

theorem mem_entries {m : SortedMap α β} {k : α} {v : β} :
    (k,v) ∈ m.entries ↔ m.get? k = some v :=
  ⟨lookup_of_mem m.sorted,mem_of_lookup⟩

theorem mem_values {m : SortedMap α β} {v : β} : v ∈ m.values ↔ ∃ k, m.get? k = some v := by
  simp only [values, List.mem_map, Prod.exists, exists_eq_right, mem_entries]

theorem mem_keys {m : SortedMap α β} {k : α} : k ∈ m.keys ↔ ∃ v, m.get? k = some v := by
  simp only [keys, List.mem_map, Prod.exists, exists_and_right, exists_eq_right, mem_entries]

theorem keys_sorted (m : SortedMap α β) : m.keys.Pairwise (· < ·) :=
  List.pairwise_map.mpr m.sorted

theorem get?_retain (m : SortedMap α β) (p : α → β → Bool) (k : α) :
    (m.retain p).get? k = (m.get? k).filter (p k) := by
  ext v
  rw [← mem_entries, Option.filter_eq_some_iff, ← mem_entries]
  simp [retain]

def mapValues {γ : Type*} (f : β → γ) (m : SortedMap α β) : SortedMap α γ :=
  ⟨m.entries.map (fun e => (e.1,f e.2)),List.pairwise_map.mpr m.sorted⟩

theorem get?_mapValues {γ : Type*} (f : β → γ) (m : SortedMap α β) (k : α) :
    (m.mapValues f).get? k = (m.get? k).map f := by
  ext v
  rw [← mem_entries, Option.map_eq_some_iff]
  simp only [mapValues, List.mem_map, Prod.exists, Prod.mk.injEq, ← mem_entries]
  constructor
  · rintro ⟨j,w,h,rfl,rfl⟩
    exact ⟨w,h,rfl⟩
  · rintro ⟨w,h,rfl⟩
    exact ⟨k,w,h,rfl,rfl⟩

def insertAll (m : SortedMap α β) (l : List (α × β)) : SortedMap α β :=
  l.foldl (fun n e => n.insert e.1 e.2) m

/-- A pass over entries of distinct keys, whose steps change only what is
read at their own key, changes each key once. -/
theorem read_foldl {σ τ : Type*} {step : σ → α × β → σ} (read : σ → α → τ) (update : τ → β → τ)
    (h : ∀ s e k, read (step s e) k = if k = e.1 then update (read s k) e.2 else read s k)
    {l : List (α × β)} (hl : l.Pairwise (fun a b => a.1 ≠ b.1)) (s : σ) (k : α) :
    read (l.foldl step s) k = (lookup k l).elim (read s k) (update (read s k)) := by
  induction l generalizing s with
  | nil => rfl
  | cons e l ih =>
    obtain ⟨he,hl⟩ := List.pairwise_cons.mp hl
    rw [List.foldl_cons, ih hl, h]
    by_cases hk : k = e.1
    · have hnone : lookup k l = none := by
        rw [lookup_eq_none_iff]
        exact fun d hd => hk ▸ he d hd
      simp [lookup, hk ▸ hnone, hk]
    · simp [lookup, hk]

theorem entries_distinct (m : SortedMap α β) : m.entries.Pairwise (fun a b => a.1 ≠ b.1) :=
  m.sorted.imp (fun h => h.ne)

theorem get?_insertAll (m : SortedMap α β) {l : List (α × β)}
    (hl : l.Pairwise (fun a b => a.1 ≠ b.1)) (k : α) :
    (m.insertAll l).get? k = (lookup k l).or (m.get? k) := by
  rw [insertAll, read_foldl get? (fun _ v => some v) (fun s e k => get?_insert s k e.1 e.2) hl]
  cases lookup k l <;> rfl

theorem insertAll_empty_entries (n : SortedMap α β) : empty.insertAll n.entries = n := by
  ext k : 1
  rw [get?_insertAll _ n.entries_distinct, get?_empty, Option.or_none]
  rfl

/-- The part of a map under the keys that a predicate selects. -/
def restrict (m : SortedMap α β) (p : α → Bool) : SortedMap α β := m.retain (fun k _ => p k)

theorem get?_restrict (m : SortedMap α β) (p : α → Bool) (k : α) :
    (m.restrict p).get? k = if p k then m.get? k else none := by
  rw [restrict, get?_retain]
  cases m.get? k <;> by_cases h : p k <;> simp [h]

@[simp] theorem restrict_empty (p : α → Bool) : (empty : SortedMap α β).restrict p = empty := by
  ext k : 1
  simp [get?_restrict]

theorem restrict_insert (m : SortedMap α β) (p : α → Bool) (k : α) (v : β) :
    (m.insert k v).restrict p = if p k then (m.restrict p).insert k v else m.restrict p := by
  ext j : 1
  by_cases hk : p k
  · by_cases hj : j = k <;> simp [get?_restrict, hk, hj]
  · by_cases hj : j = k <;> simp [get?_restrict, hk, hj]

theorem restrict_retain (m : SortedMap α β) (p : α → Bool) (q : α → β → Bool) :
    (m.retain q).restrict p = (m.restrict p).retain q := by
  ext k : 1
  rw [get?_restrict, get?_retain, get?_retain, get?_restrict]
  split <;> rfl

theorem restrict_insertAll (m : SortedMap α β) (p : α → Bool) (l : List (α × β)) :
    (m.insertAll l).restrict p = (m.restrict p).insertAll (l.filter (fun e => p e.1)) := by
  induction l generalizing m with
  | nil => rfl
  | cons e l ih =>
    rw [insertAll, List.foldl_cons, ← insertAll, ih, restrict_insert]
    by_cases he : p e.1 <;> simp [he, insertAll]

/-- Every entry of the map meets a relation between keys and values. -/
def Entrywise (R : α → β → Prop) (m : SortedMap α β) : Prop := ∀ k v, m.get? k = some v → R k v

section Entrywise
variable {R : α → β → Prop} {m : SortedMap α β}

theorem Entrywise.empty : Entrywise R (SortedMap.empty : SortedMap α β) := by simp [Entrywise]

theorem Entrywise.insert (h : Entrywise R m) {k : α} {v : β} (hv : R k v) :
    Entrywise R (m.insert k v) := by
  intro j w hw
  rw [get?_insert] at hw
  split_ifs at hw with hj
  · cases hw
    exact hj ▸ hv
  · exact h j w hw

theorem Entrywise.insertAll (h : Entrywise R m) {l : List (α × β)} (hl : ∀ e ∈ l, R e.1 e.2) :
    Entrywise R (m.insertAll l) := by
  induction l generalizing m with
  | nil => exact h
  | cons e l ih => exact ih (h.insert (hl e (by simp))) (fun d hd => hl d (by simp [hd]))

theorem Entrywise.retain (h : Entrywise R m) (p : α → β → Bool) : Entrywise R (m.retain p) := by
  intro k v hv
  rw [get?_retain, Option.filter_eq_some_iff] at hv
  exact h k v hv.1

theorem values_restrict {p : α → Bool} {q : β → Bool}
    (h : Entrywise (fun k v => q v = p k) m) : (m.restrict p).values = m.values.filter q := by
  rw [values, values, restrict, SortedMap.retain, List.filter_map]
  refine congrArg _ (List.filter_congr (fun e he => ?_))
  exact (h e.1 e.2 (mem_entries.mp he)).symm

end Entrywise

def lastOf (k : α) (l : List (α × β)) : Option β :=
  ((l.filter (fun e => e.1 = k)).getLast?).map Prod.snd

@[simp] theorem lastOf_nil (k : α) : lastOf k ([] : List (α × β)) = none := rfl

theorem lastOf_append (k : α) (l m : List (α × β)) :
    lastOf k (l++m) = (lastOf k m).or (lastOf k l) := by
  rw [lastOf, List.filter_append, List.getLast?_append, Option.map_or]
  rfl

theorem lastOf_cons (k : α) (e : α × β) (l : List (α × β)) :
    lastOf k (e::l) = (lastOf k l).or (if e.1 = k then some e.2 else none) := by
  rw [← List.singleton_append, lastOf_append]
  by_cases he : e.1 = k <;> simp [lastOf, he]

theorem mem_of_lastOf {k : α} {l : List (α × β)} {v : β} (h : lastOf k l = some v) : (k,v) ∈ l := by
  obtain ⟨e,he,rfl⟩ := Option.map_eq_some_iff.mp h
  obtain ⟨hm,hk⟩ := List.mem_filter.mp (List.mem_of_getLast? he)
  exact of_decide_eq_true hk ▸ hm

theorem lastOf_isSome {k : α} {v : β} {l : List (α × β)} (h : (k,v) ∈ l) : ∃ w, lastOf k l = some w := by
  rw [← Option.isSome_iff_exists, lastOf, Option.isSome_map, List.getLast?_isSome]
  exact List.ne_nil_of_mem (List.mem_filter.mpr ⟨h,decide_eq_true rfl⟩)

theorem lastOf_items {ι : Type*} {f : ι → α} (g : ι → β) {k : α} {p : ι → Bool} {l : List ι}
    (hp : ∀ c ∈ l, p c = true ↔ f c = k) :
    lastOf k (l.map (fun c => (f c,g c))) = ((l.filter p).getLast?).map g := by
  rw [lastOf, List.filter_map, List.getLast?_map, Option.map_map]
  have hfilter : l.filter ((fun e : α × β => decide (e.1 = k)) ∘ (fun c => (f c,g c))) = l.filter p :=
    List.filter_congr (fun c hc => by rw [Bool.eq_iff_iff, hp c hc]; simp)
  rw [hfilter]
  rfl

/-- Keys of another form that tell the same elements apart. -/
theorem lastOf_congr {κ ι : Type*} [LinearOrder κ] {f : ι → α × β} {g : ι → κ × β} {k : α} {j : κ}
    {l : List ι} (hk : ∀ c ∈ l, (f c).1 = k ↔ (g c).1 = j) (hv : ∀ c ∈ l, (f c).2 = (g c).2) :
    lastOf k (l.map f) = lastOf j (l.map g) := by
  induction l with
  | nil => rfl
  | cons c l ih =>
    rw [List.map_cons, List.map_cons, lastOf_cons, lastOf_cons, hv c (by simp),
      ih (fun d hd => hk d (by simp [hd])) (fun d hd => hv d (by simp [hd]))]
    by_cases hc : (f c).1 = k
    · rw [if_pos hc, if_pos ((hk c (by simp)).mp hc)]
    · rw [if_neg hc, if_neg (mt (hk c (by simp)).mpr hc)]

theorem lastOf_map {κ γ : Type*} [LinearOrder κ] {f : α → κ} (hf : f.Injective) (g : α → β → γ)
    (k : α) (l : List (α × β)) :
    lastOf (f k) (l.map (fun e => (f e.1,g e.1 e.2))) = (lastOf k l).map (g k) := by
  induction l with
  | nil => rfl
  | cons e l ih =>
    rw [List.map_cons, lastOf_cons, lastOf_cons, ih, Option.map_or]
    by_cases he : e.1 = k
    · subst he
      simp
    · simp [he, hf.ne he]

theorem get?_insertAll_last (m : SortedMap α β) (l : List (α × β)) (k : α) :
    (m.insertAll l).get? k = (lastOf k l).or (m.get? k) := by
  induction l generalizing m with
  | nil => rfl
  | cons e l ih =>
    rw [insertAll, List.foldl_cons, ← insertAll, ih, lastOf_cons, get?_insert]
    by_cases he : k = e.1
    · subst he
      cases lastOf e.1 l <;> simp
    · cases lastOf k l <;> simp [he, Ne.symm he]

/-- The entries of a second map combined into a first. -/
def mergeWith {γ : Type*} (f : Option β → γ → β) (m : SortedMap α β) (n : SortedMap α γ) :
    SortedMap α β :=
  n.entries.foldl (fun m e => m.insert e.1 (f (m.get? e.1) e.2)) m

theorem get?_mergeWith {γ : Type*} (f : Option β → γ → β) (m : SortedMap α β) (n : SortedMap α γ)
    (k : α) : (m.mergeWith f n).get? k =
      (n.get? k).elim (m.get? k) (fun c => some (f (m.get? k) c)) := by
  have hstep : ∀ (s : SortedMap α β) (e : α × γ) (j : α),
      (s.insert e.1 (f (s.get? e.1) e.2)).get? j =
        if j = e.1 then some (f (s.get? j) e.2) else s.get? j := by
    intro s e j
    by_cases hj : j = e.1
    · subst hj
      simp
    · simp [hj]
  exact read_foldl get? (fun o c => some (f o c)) hstep n.entries_distinct m k

section Greatest
variable {γ : Type*} [LinearOrder γ]

/-- Insert a value unless the map has one of at least the same rank. -/
def keepGreatest (rank : β → γ) (m : SortedMap α β) (k : α) (v : β) : SortedMap α β :=
  if (m.get? k).all (fun old => rank old < rank v) then m.insert k v else m

theorem Entrywise.keepGreatest {R : α → β → Prop} {rank : β → γ} {m : SortedMap α β}
    (h : Entrywise R m) {k : α} {v : β} (hv : R k v) :
    Entrywise R (keepGreatest rank m k v) := by
  rw [SortedMap.keepGreatest]
  split
  · exact h.insert hv
  · exact h

theorem restrict_keepGreatest (rank : β → γ) (m : SortedMap α β) (p : α → Bool) (k : α) (v : β) :
    (keepGreatest rank m k v).restrict p =
      if p k then keepGreatest rank (m.restrict p) k v else m.restrict p := by
  by_cases hk : p k
  · rw [if_pos hk, SortedMap.keepGreatest, SortedMap.keepGreatest, get?_restrict, if_pos hk]
    split
    · rw [restrict_insert, if_pos hk]
    · rfl
  · rw [if_neg hk, SortedMap.keepGreatest]
    split
    · rw [restrict_insert, if_neg hk]
    · rfl

/-- The value of the greatest rank under each key of a list. -/
def argMax (rank : β → γ) (l : List (α × β)) : SortedMap α β :=
  l.foldl (fun m e => keepGreatest rank m e.1 e.2) empty

/-- Each key of the map has an entry of the list, of the greatest rank that
the list gives the key. -/
def Tops (rank : β → γ) (m : SortedMap α β) (l : List (α × β)) : Prop :=
  ∀ k, (∀ v, m.get? k = some v → (k,v) ∈ l) ∧
    ∀ w, (k,w) ∈ l → ∃ v, m.get? k = some v ∧ rank w ≤ rank v

theorem tops_empty (rank : β → γ) : Tops rank (empty : SortedMap α β) [] :=
  fun _ => ⟨by simp,by simp⟩

theorem tops_insert {rank : β → γ} {m : SortedMap α β} {l : List (α × β)} (h : Tops rank m l)
    {k : α} {v : β} (hv : ∀ w, (k,w) ∈ l → rank w ≤ rank v) :
    Tops rank (m.insert k v) (l++[(k,v)]) := by
  intro j
  obtain ⟨hsome,hmem⟩ := h j
  by_cases hj : j = k
  · subst hj
    refine ⟨by simp,fun w hw => ⟨v,by simp,?_⟩⟩
    rcases List.mem_append.mp hw with hw | hw
    · exact hv w hw
    · simp_all
  · rw [get?_insert, if_neg hj]
    refine ⟨fun w hw => List.mem_append_left _ (hsome w hw),fun w hw => ?_⟩
    rcases List.mem_append.mp hw with hw | hw
    · exact hmem w hw
    · simp_all

theorem tops_keepGreatest {rank : β → γ} {m : SortedMap α β} {l : List (α × β)}
    (h : Tops rank m l) (k : α) (v : β) : Tops rank (keepGreatest rank m k v) (l++[(k,v)]) := by
  unfold keepGreatest
  split
  · rename_i hall
    refine tops_insert h (fun w hw => ?_)
    obtain ⟨u,hu,hwu⟩ := (h k).2 w hw
    have : rank u < rank v := by simpa [hu] using hall
    exact hwu.trans this.le
  · rename_i hall
    intro j
    refine ⟨fun w hw => List.mem_append_left _ ((h j).1 w hw),fun w hw => ?_⟩
    rcases List.mem_append.mp hw with hw | hw
    · exact (h j).2 w hw
    · obtain ⟨rfl,rfl⟩ : j = k ∧ w = v := by simpa using hw
      cases hm : m.get? j with
      | none => simp [hm] at hall
      | some u => exact ⟨u,rfl,by simpa [hm] using hall⟩

theorem argMax_tops (rank : β → γ) (l : List (α × β)) : Tops rank (argMax rank l) l := by
  induction l using List.reverseRecOn with
  | nil => exact tops_empty rank
  | append_singleton l e ih =>
    rw [argMax, List.foldl_append]
    exact tops_keepGreatest ih e.1 e.2

/-- Insertions in ascending rank keep the last value of each key. -/
theorem insertAll_tops {rank : β → γ} {m : SortedMap α β} {l k : List (α × β)}
    (h : Tops rank m l) (ho : (l++k).Pairwise (fun a b => rank a.2 ≤ rank b.2)) :
    Tops rank (m.insertAll k) (l++k) := by
  induction k generalizing m l with
  | nil => simpa [insertAll] using h
  | cons e k ih =>
    have hle : ∀ w, (e.1,w) ∈ l → rank w ≤ rank e.2 := fun w hw =>
      (List.pairwise_append.mp ho).2.2 _ hw e (by simp)
    have := ih (tops_insert h hle) (by simpa using ho)
    simpa [insertAll] using this

end Greatest

end SortedMap

/-- A table whose rows are in strictly ascending order of their key, so that
no key has two rows. -/
structure Table {ρ : Type*} (key : ρ → α) where
  rows : List ρ
  sorted : rows.Pairwise (fun a b => key a < key b)

namespace Table
variable {ρ : Type*} {key : ρ → α}

instance [DecidableEq ρ] : DecidableEq (Table key) := fun s t =>
  decidable_of_iff (s.rows = t.rows) (by cases s; cases t; simp)

def empty : Table key := ⟨[],List.Pairwise.nil⟩

def upsert (t : Table key) (r : ρ) : Table key where
  rows := t.rows.filter (fun a => key a < key r) ++ r::t.rows.filter (fun a => key r < key a)
  sorted := by
    refine List.pairwise_append.mpr ⟨t.sorted.filter _,List.pairwise_cons.mpr ⟨?_,t.sorted.filter _⟩,?_⟩
    · intro a ha
      simpa using (List.mem_filter.mp ha).2
    · intro a ha b hb
      have har : key a < key r := by simpa using (List.mem_filter.mp ha).2
      rcases List.mem_cons.mp hb with rfl | hb
      · exact har
      · exact har.trans (by simpa using (List.mem_filter.mp hb).2)

def insertRows (t : Table key) (rs : List ρ) : Table key := rs.foldl upsert t

def select (t : Table key) (p : ρ → Bool) : Table key := ⟨t.rows.filter p,t.sorted.filter _⟩

theorem key_unique (t : Table key) {a b : ρ} (ha : a ∈ t.rows) (hb : b ∈ t.rows)
    (h : key a = key b) : a = b := by
  by_contra hne
  have hsymm : Std.Symm (fun x y : ρ => key x ≠ key y) := ⟨fun _ _ h => h.symm⟩
  exact (t.sorted.imp (S := fun x y => key x ≠ key y) (fun h => h.ne)).forall ha hb hne h

@[ext] theorem ext {s t : Table key} (h : ∀ r, r ∈ s.rows ↔ r ∈ t.rows) : s = t := by
  cases s with
  | mk l hl =>
    cases t with
    | mk m hm =>
      have nodup : ∀ {n : List ρ}, n.Pairwise (fun a b => key a < key b) → n.Nodup := fun hn =>
        hn.imp (fun hab he => absurd (he ▸ hab) (lt_irrefl _))
      have hp : l.Perm m := (List.perm_ext_iff_of_nodup (nodup hl) (nodup hm)).mpr h
      obtain rfl : l = m :=
        hp.eq_of_pairwise (fun a b _ _ hab hba => absurd (hab.trans hba) (lt_irrefl _)) hl hm
      rfl

@[simp] theorem mem_empty {r : ρ} : r ∈ (empty : Table key).rows ↔ False := by simp [empty]

@[simp] theorem mem_select {t : Table key} {p : ρ → Bool} {r : ρ} :
    r ∈ (t.select p).rows ↔ r ∈ t.rows ∧ p r = true := by simp [select]

@[simp] theorem mem_upsert {t : Table key} {r s : ρ} :
    s ∈ (t.upsert r).rows ↔ s = r ∨ (s ∈ t.rows ∧ key s ≠ key r) := by
  simp only [upsert, List.mem_append, List.mem_cons, List.mem_filter, decide_eq_true_eq, ne_iff_lt_or_gt]
  tauto

theorem upsert_of_mem {t : Table key} {r : ρ} (h : r ∈ t.rows) : t.upsert r = t := by
  ext s
  rw [mem_upsert]
  constructor
  · rintro (rfl | ⟨hs,-⟩)
    · exact h
    · exact hs
  · intro hs
    by_cases hk : key s = key r
    · exact Or.inl (t.key_unique hs h hk)
    · exact Or.inr ⟨hs,hk⟩

theorem select_upsert {t : Table key} {r : ρ} {p : ρ → Bool}
    (h : ∀ s, key s = key r → p s = false) : (t.upsert r).select p = t.select p := by
  ext s
  simp only [mem_select, mem_upsert]
  constructor
  · rintro ⟨rfl | ⟨hs,-⟩,hp⟩
    · rw [h _ rfl] at hp
      cases hp
    · exact ⟨hs,hp⟩
  · rintro ⟨hs,hp⟩
    refine ⟨Or.inr ⟨hs,fun hk => ?_⟩,hp⟩
    rw [h _ hk] at hp
    cases hp

theorem select_insertRows {t : Table key} {rs : List ρ} {p : ρ → Bool}
    (h : ∀ r ∈ rs, ∀ s, key s = key r → p s = false) : (t.insertRows rs).select p = t.select p := by
  induction rs generalizing t with
  | nil => rfl
  | cons r rs ih =>
    rw [insertRows, List.foldl_cons, ← insertRows, ih (fun q hq => h q (by simp [hq])),
      select_upsert (h r (by simp))]

/-- Rows with keys of their own: each is there afterwards, and every other
row stays as it was. -/
theorem mem_insertRows {t : Table key} {rs : List ρ}
    (hd : rs.Pairwise (fun a b => key a ≠ key b))
    (hn : ∀ r ∈ rs, ∀ a ∈ t.rows, key r ≠ key a) {s : ρ} :
    s ∈ (t.insertRows rs).rows ↔ s ∈ t.rows ∨ s ∈ rs := by
  induction rs generalizing t with
  | nil => simp [insertRows]
  | cons r rs ih =>
    obtain ⟨hr,hd⟩ := List.pairwise_cons.mp hd
    have hn' : ∀ q ∈ rs, ∀ a ∈ (t.upsert r).rows, key q ≠ key a := by
      intro q hq a ha
      rcases mem_upsert.mp ha with rfl | ⟨ha,-⟩
      · exact (hr q hq).symm
      · exact hn q (by simp [hq]) a ha
    have hs : s ∈ (t.upsert r).rows ↔ s = r ∨ s ∈ t.rows := by
      rw [mem_upsert]
      exact or_congr_right (and_iff_left_of_imp (fun hs => (hn r (by simp) s hs).symm))
    rw [insertRows, List.foldl_cons, ← insertRows, ih hd hn', hs, List.mem_cons]
    tauto

end Table
end EvmState.OrderedMap
