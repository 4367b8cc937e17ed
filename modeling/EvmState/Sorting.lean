import EvmState.Proof

/-!
# Storage sorting over any sequence of insertions

A workspace is fed slots one after another and goes on after a failure. It
accepts a slot exactly when nothing failed before and the slot is new, and
what it returns in the end depends on the set of slots only.
-/

set_option autoImplicit false

namespace EvmState.Sorting
open EvmState.Hex EvmState.Fallible EvmState.OrderedMap EvmState.Params EvmState.Encoding
open EvmState.Proof EvmState.Proof.StorageSort

section Run
variable (alloy : Alloy)

def run : StorageSort → List (String × String) → StorageSort
  | s, [] => s
  | s, e::l => run (s.insert alloy e.1 e.2).2 l

def AllSucceed : StorageSort → List (String × String) → Prop
  | _, [] => True
  | s, e::l => (s.insert alloy e.1 e.2).1 = .ok () ∧ AllSucceed (s.insert alloy e.1 e.2).2 l

/-- A slot and a nonzero value of 32 bytes each, and no earlier one of these
slot bytes. -/
def Fresh (l : List (String × String)) (slot value : String) : Prop :=
  ∃ key bytes, fixed 32 slot = .ok key ∧ fixed 32 value = .ok bytes ∧ Rlp.ofBytes bytes ≠ 0 ∧
    ∀ e ∈ l, fixed 32 e.1 ≠ .ok key

def pairs (l : List (String × String)) : Set (Bytes × Bytes) :=
  {p | ∃ e ∈ l, fixed 32 e.1 = .ok p.1 ∧ fixed 32 e.2 = .ok p.2}

end Run

section Steps
variable {alloy : Alloy}

theorem run_append (s : StorageSort) (l m : List (String × String)) :
    run alloy s (l++m) = run alloy (run alloy s l) m := by
  induction l generalizing s with
  | nil => rfl
  | cons e l ih => exact ih _

theorem allSucceed_append (s : StorageSort) (l m : List (String × String)) :
    AllSucceed alloy s (l++m) ↔ AllSucceed alloy s l ∧ AllSucceed alloy (run alloy s l) m := by
  induction l generalizing s with
  | nil => simp [AllSucceed, run]
  | cons e l ih => simp [AllSucceed, run, ih, and_assoc]

theorem insert_ok {s : StorageSort} {slot value : String} :
    (s.insert alloy slot value).1 = .ok () ↔
      s.failed = false ∧ ∃ row, s.stage alloy slot value = .ok row := by
  rw [StorageSort.insert]
  cases hf : s.failed with
  | true => simp
  | false => cases hs : s.stage alloy slot value <;> simp

theorem insert_state {s : StorageSort} {slot value : String} {row : Bytes × Bytes}
    (hf : s.failed = false) (hs : s.stage alloy slot value = .ok row) :
    (s.insert alloy slot value).2 = ⟨s.storage.insert row.1 row.2,s.count+1,false⟩ := by
  simp [StorageSort.insert, hf, hs]

theorem insert_failed {s : StorageSort} {slot value : String} :
    (s.insert alloy slot value).2.failed = false ↔ (s.insert alloy slot value).1 = .ok () := by
  rw [StorageSort.insert]
  cases hf : s.failed with
  | true => simp [hf]
  | false => cases hs : s.stage alloy slot value <;> simp

theorem run_failed (s : StorageSort) (l : List (String × String)) :
    (run alloy s l).failed = false ↔ s.failed = false ∧ AllSucceed alloy s l := by
  induction l generalizing s with
  | nil => simp [run, AllSucceed]
  | cons e l ih =>
    rw [run, ih, AllSucceed, insert_failed]
    constructor
    · rintro ⟨ho,hl⟩
      exact ⟨(insert_ok.mp ho).1,ho,hl⟩
    · rintro ⟨-,ho,hl⟩
      exact ⟨ho,hl⟩

theorem leaf_ok {slot value : String} {row : Bytes × Bytes} :
    leaf alloy slot value = .ok row ↔ ∃ key bytes, fixed 32 slot = .ok key ∧
      fixed 32 value = .ok bytes ∧ Rlp.ofBytes bytes ≠ 0 ∧
      row = (alloy.keccak256 key,Rlp.encodeUint (Rlp.ofBytes bytes)) := by
  simp only [leaf, bind_ok, ensure_ok, pure_ok]
  constructor
  · rintro ⟨key,hk,bytes,hb,_,hz,rfl⟩
    exact ⟨key,bytes,hk,hb,hz,rfl⟩
  · rintro ⟨key,bytes,hk,hb,hz,rfl⟩
    exact ⟨key,hk,bytes,hb,(),hz,rfl⟩

/-- What a workspace holds after a sequence of successful insertions. -/
structure Stores (alloy : Alloy) (l : List (String × String)) (s : StorageSort) : Prop where
  count : s.count = l.length
  size : s.storage.entries.length = l.length
  leaves : ∀ e ∈ l, ∃ row, leaf alloy e.1 e.2 = .ok row
  rows : ∀ k v, s.storage.get? k = some v ↔ ∃ e ∈ l, leaf alloy e.1 e.2 = .ok (k,v)

theorem stores_new : Stores alloy [] StorageSort.new where
  count := rfl
  size := rfl
  leaves := by simp
  rows := by simp [StorageSort.new, SortedMap.get?_empty]

theorem stores_insert {l : List (String × String)} {s : StorageSort} {e : String × String}
    {row : Bytes × Bytes} (h : Stores alloy l s) (hs : s.stage alloy e.1 e.2 = .ok row) :
    Stores alloy (l++[e]) ⟨s.storage.insert row.1 row.2,s.count+1,false⟩ := by
  obtain ⟨hleaf,hnew⟩ := stage_ok.mp hs
  refine ⟨by simp [h.count],?_,?_,fun k v => ?_⟩
  · rw [List.length_append, List.length_singleton, ← h.size]
    exact length_put_new hnew
  · intro d hd
    rcases List.mem_append.mp hd with hd | hd
    · exact h.leaves d hd
    · obtain rfl := List.mem_singleton.mp hd
      exact ⟨row,hleaf⟩
  · rw [SortedMap.get?_insert]
    constructor
    · intro hk
      split_ifs at hk with heq
      · obtain rfl := Option.some.inj hk
        exact ⟨e,by simp,by rw [hleaf, heq]⟩
      · obtain ⟨d,hd,hl⟩ := (h.rows k v).mp hk
        exact ⟨d,by simp [hd],hl⟩
    · rintro ⟨d,hd,hl⟩
      rcases List.mem_append.mp hd with hd | hd
      · have hget := (h.rows k v).mpr ⟨d,hd,hl⟩
        rw [if_neg (fun heq => by rw [heq, hnew] at hget; cases hget)]
        exact hget
      · obtain rfl := List.mem_singleton.mp hd
        rw [hleaf, Except.ok.injEq] at hl
        rw [hl, if_pos rfl]

theorem stores_run {l : List (String × String)} (h : AllSucceed alloy StorageSort.new l) :
    Stores alloy l (run alloy StorageSort.new l) := by
  induction l using List.reverseRecOn with
  | nil => exact stores_new
  | append_singleton l e ih =>
    obtain ⟨hl,he,-⟩ := (allSucceed_append _ _ _).mp h
    obtain ⟨hf,row,hs⟩ := insert_ok.mp he
    rw [run_append, run, run, insert_state hf hs]
    exact stores_insert (ih hl) hs

theorem finish_stores {l : List (String × String)} {s : StorageSort} (h : Stores alloy l s)
    (hf : s.failed = false) :
    s.finish alloy = .ok (alloy.hashBuilder s.storage.entries,s.storage.entries.length) := by
  have hkeys : ∀ e ∈ s.storage.entries, e.1.length = 32 := by
    intro e he
    obtain ⟨d,-,hl⟩ := (h.rows e.1 e.2).mp (SortedMap.mem_entries.mp he)
    obtain ⟨key,bytes,-,-,-,hrow⟩ := leaf_ok.mp hl
    rw [(Prod.mk.inj hrow).1]
    exact alloy.keccak256_length key
  exact bind_ok.mpr ⟨(),ensure_ok.mpr hf,bind_ok.mpr ⟨(),ensure_ok.mpr hkeys,
    bind_ok.mpr ⟨(),ensure_ok.mpr s.storage.sorted,
      bind_ok.mpr ⟨(),ensure_ok.mpr (h.size.trans h.count.symm),rfl⟩⟩⟩⟩

theorem stores_same {l m : List (String × String)} {s t : StorageSort} (hs : Stores alloy l s)
    (ht : Stores alloy m t) (h : pairs l = pairs m) : s.storage = t.storage := by
  have hleaf : ∀ {l m : List (String × String)} {k v : Bytes}, pairs l = pairs m →
      (∃ e ∈ l, leaf alloy e.1 e.2 = .ok (k,v)) → ∃ e ∈ m, leaf alloy e.1 e.2 = .ok (k,v) := by
    rintro l m k v h ⟨e,he,hl⟩
    obtain ⟨key,bytes,hk,hb,hz,hrow⟩ := leaf_ok.mp hl
    have hmem : (key,bytes) ∈ pairs m := h ▸ ⟨e,he,hk,hb⟩
    obtain ⟨d,hd,hk',hb'⟩ := hmem
    exact ⟨d,hd,leaf_ok.mpr ⟨key,bytes,hk',hb',hz,hrow⟩⟩
  refine SortedMap.ext (fun k => Option.ext (fun v => ?_))
  rw [hs.rows, ht.rows]
  exact ⟨hleaf h,hleaf h.symm⟩

theorem insert_exact (hk : Set.InjOn alloy.keccak256 {b | b.length = 32})
    {l : List (String × String)} {slot value : String} :
    ((run alloy StorageSort.new l).insert alloy slot value).1 = .ok () ↔
      AllSucceed alloy StorageSort.new l ∧ Fresh l slot value := by
  rw [insert_ok, run_failed]
  constructor
  · rintro ⟨⟨-,hl⟩,row,hs⟩
    obtain ⟨hleaf,hnew⟩ := stage_ok.mp hs
    obtain ⟨key,bytes,hkey,hb,hz,rfl⟩ := leaf_ok.mp hleaf
    have hst := stores_run hl
    refine ⟨hl,key,bytes,hkey,hb,hz,fun e he hsame => ?_⟩
    -- an equal slot was stored under the same hash
    obtain ⟨row,hrow⟩ := hst.leaves e he
    obtain ⟨k,b,hk',-,-,rfl⟩ := leaf_ok.mp hrow
    obtain rfl := Except.ok.inj (hk'.symm.trans hsame)
    have hget := (hst.rows _ _).mpr ⟨e,he,hrow⟩
    rw [hnew] at hget
    cases hget
  · rintro ⟨hl,key,bytes,hkey,hb,hz,hfresh⟩
    have hst := stores_run hl
    refine ⟨⟨rfl,hl⟩,_,stage_ok.mpr ⟨leaf_ok.mpr ⟨key,bytes,hkey,hb,hz,rfl⟩,?_⟩⟩
    rw [Option.eq_none_iff_forall_not_mem]
    intro v hv
    obtain ⟨e,he,hrow⟩ := (hst.rows _ _).mp hv
    obtain ⟨k,b,hk',-,-,hrow⟩ := leaf_ok.mp hrow
    have hsame := hk (fixed_ok.mp hkey).2 (fixed_ok.mp hk').2 (Prod.mk.inj hrow).1
    exact hfresh e he (hsame ▸ hk')

theorem finish_exact {l : List (String × String)} :
    (∃ r, (run alloy StorageSort.new l).finish alloy = .ok r) ↔
      AllSucceed alloy StorageSort.new l := by
  constructor
  · rintro ⟨r,hr⟩
    obtain ⟨_,hf,-⟩ := bind_ok.mp hr
    exact ((run_failed _ _).mp (ensure_ok.mp hf)).2
  · intro hl
    exact ⟨_,finish_stores (stores_run hl) ((run_failed _ _).mpr ⟨rfl,hl⟩)⟩

theorem finish_pairs {l m : List (String × String)} (hl : AllSucceed alloy StorageSort.new l)
    (hm : AllSucceed alloy StorageSort.new m) (h : pairs l = pairs m) :
    (run alloy StorageSort.new l).finish alloy = (run alloy StorageSort.new m).finish alloy := by
  rw [finish_stores (stores_run hl) ((run_failed _ _).mpr ⟨rfl,hl⟩),
    finish_stores (stores_run hm) ((run_failed _ _).mpr ⟨rfl,hm⟩),
    stores_same (stores_run hl) (stores_run hm) h]

/-- After a failure nothing succeeds any more. -/
theorem failure_sticks {l : List (String × String)} (more : List (String × String))
    (slot value : String) (h : ¬AllSucceed alloy StorageSort.new l) :
    (∃ e, ((run alloy StorageSort.new (l++more)).insert alloy slot value).1 = .error e) ∧
      ∃ e, (run alloy StorageSort.new (l++more)).finish alloy = .error e := by
  have hall : ¬AllSucceed alloy StorageSort.new (l++more) := fun hn =>
    h ((allSucceed_append _ _ _).mp hn).1
  have hf : (run alloy StorageSort.new (l++more)).failed = true := by
    cases hf : (run alloy StorageSort.new (l++more)).failed with
    | true => rfl
    | false => exact absurd ((run_failed _ _).mp hf).2 hall
  refine ⟨⟨"storage sorting workspace has failed",?_⟩,⟨"storage sorting workspace has failed",?_⟩⟩
  · rw [StorageSort.insert, hf, if_pos rfl]
  · rw [StorageSort.finish, hf]
    rfl

end Steps

theorem storage_sort_exact (alloy : Alloy) (hk : Set.InjOn alloy.keccak256 {b | b.length = 32}) :
    (∀ l slot value, ((run alloy new l).insert alloy slot value).1 = .ok () ↔
      AllSucceed alloy new l ∧ Fresh l slot value) ∧
    (∀ l, (∃ r, (run alloy new l).finish alloy = .ok r) ↔ AllSucceed alloy new l) ∧
    (∀ l m, AllSucceed alloy new l → AllSucceed alloy new m → pairs l = pairs m →
      (run alloy new l).finish alloy = (run alloy new m).finish alloy) ∧
    (∀ l more slot value, ¬AllSucceed alloy new l →
      (∃ e, ((run alloy new (l++more)).insert alloy slot value).1 = .error e) ∧
        ∃ e, (run alloy new (l++more)).finish alloy = .error e) :=
  ⟨fun _ _ _ => insert_exact hk,fun _ => finish_exact,fun _ _ => finish_pairs,
    fun _ => failure_sticks⟩

theorem sampleKeccak_injective : Set.InjOn (sampleAlloy []).keccak256 {b | b.length = 32} := by
  intro a ha b hb h
  have hslot : ∀ c : Bytes, c.length = 32 → sampleKeccak [] c = sampleSlotHash c :=
    fun c hc => if_pos hc
  have he : sampleSlotHash a = sampleSlotHash b := by
    rw [← hslot a ha, ← hslot b hb]
    exact h
  exact sampleSlotHash.injective he

/-- The two slots of the sample are accepted in either order, with one root. -/
theorem storage_sort_exact_sample :
    (run (sampleAlloy []) new sampleSlots).finish (sampleAlloy []) = .ok (sampleStorageRoot,2) ∧
    (run (sampleAlloy []) new sampleSlots.reverse).finish (sampleAlloy []) =
      .ok (sampleStorageRoot,2) := by
  obtain ⟨-,hfinish,hpairs,-⟩ := storage_sort_exact (sampleAlloy []) sampleKeccak_injective
  have hroot : (run (sampleAlloy []) new sampleSlots).finish (sampleAlloy []) =
      .ok (sampleStorageRoot,2) := by decide +kernel
  have hreverse : ((run (sampleAlloy []) new sampleSlots.reverse).finish (sampleAlloy [])).isOk := by
    decide +kernel
  have hset : pairs sampleSlots.reverse = pairs sampleSlots := by
    simp only [pairs, List.mem_reverse]
  obtain ⟨r,hr⟩ := exists_of_isOk hreverse
  exact ⟨hroot,(hpairs _ _ ((hfinish _).mp ⟨r,hr⟩) ((hfinish _).mp ⟨_,hroot⟩) hset).trans hroot⟩

end EvmState.Sorting
