import EvmState.BlockRows
import EvmState.Bootstrap

/-!
# Summaries of raw rows

What the queries compute from raw rows alone, and that a compacted prefix
with the raw rows after it gives the same. A prefix keeps no zero writes and
no resets, and this loses nothing that a later row could need.
-/

set_option autoImplicit false

namespace EvmState.Summary
open EvmState.Hex EvmState.Fallible EvmState.OrderedMap EvmState.Params EvmState.BlockProjection
open EvmState.Timeline EvmState.Store EvmState.Queries EvmState.BlockRows

/-- A row has one value for each key, and none that one of its resets drops. -/
structure WellFormed (row : BlockState) : Prop where
  storage : row.storage.Pairwise (fun v w => v.key ≠ w.key)
  balances : row.balances.Pairwise (fun v w => v.address ≠ w.address)
  nonces : row.nonces.Pairwise (fun v w => v.address ≠ w.address)
  codes : row.codes.Pairwise (fun v w => v.address ≠ w.address)
  kept : ∀ v ∈ row.storage, ∀ e ∈ row.lifecycle, e.kind = .storageReset → e.address = v.address →
    e.ordinal < v.ordinal

def directSlots (rows : List BlockState) : SortedMap SlotKey String :=
  finalStorage (joinResets (rawStorage rows) (rawResets rows))

def directFields (rows : List BlockState) : Fields := streamFields .empty rows

abbrev Distinct (rows : List BlockState) : Prop := rows.Pairwise (fun a b => a.number ≠ b.number)

section Functional
variable {rows : List BlockState}

theorem distinct_unique (hd : Distinct rows) {a b : BlockState} (ha : a ∈ rows) (hb : b ∈ rows)
    (h : a.number = b.number) : a = b := by
  by_contra hne
  have hsymm : Std.Symm (fun a b : BlockState => a.number ≠ b.number) := ⟨fun _ _ h => h.symm⟩
  exact hd.forall ha hb hne h

theorem storage_functional (hd : Distinct rows) (hw : ∀ r ∈ rows, WellFormed r) :
    Functional (stack BlockState.number blockStorage rows) := by
  rintro p a k v w ⟨b,hb,hn,hv⟩ ⟨c,hc,hm,hw'⟩
  obtain rfl := distinct_unique hd hb hc (hn.trans hm.symm)
  by_contra hne
  have hsymm : Std.Symm (fun v w : StorageValue => v.key ≠ w.key) := ⟨fun _ _ h => h.symm⟩
  exact (hw b hb).storage.forall hv hw' (by simpa using hne) rfl

theorem group_functional {α β : Type} {group : BlockState → List α} {address : α → String}
    (ordinal : α → ℕ) (value : α → β) (hd : Distinct rows)
    (hw : ∀ r ∈ rows, (group r).Pairwise (fun v w => address v ≠ address w)) :
    Functional (groupHistory group address ordinal value rows) := by
  rintro p a k x y ⟨b,hb,hn,v,hv,hva,-,rfl⟩ ⟨c,hc,hm,w,hwc,hwa,-,rfl⟩
  obtain rfl := distinct_unique hd hb hc (hn.trans hm.symm)
  by_cases hne : v = w
  · rw [hne]
  · have hsymm : Std.Symm (fun v w : α => address v ≠ address w) := ⟨fun _ _ h => h.symm⟩
    exact absurd (hva.trans hwa.symm) ((hw b hb).forall hv hwc hne)

theorem directSlots_holds (hd : Distinct rows) (hw : ∀ r ∈ rows, WellFormed r) {a k v : String} :
    (directSlots rows).get? (toLex (a,k)) = some v ↔
      Holds (stack BlockState.number blockStorage rows) a k v ∧ v ≠ zero := by
  rw [directSlots, finalStorage_holds, unionHistory_raw]
  rw [unionHistory_raw]
  exact storage_functional hd hw

end Functional

section Split
variable {before after : List BlockState} {last : ℕ}

theorem stack_append {A K V : Type} (h : BlockState → History ℕ A K V) :
    stack BlockState.number h (before++after) =
      join (stack BlockState.number h before) (stack BlockState.number h after) := by
  simp only [stack, join, List.mem_append, or_and_right, exists_or]

theorem stack_below {A K V : Type} (h : BlockState → History ℕ A K V)
    (hb : ∀ b ∈ before, b.number ≤ last) :
    Below (stack BlockState.number h before) (toLex (last+1,0) : Position) := by
  have hlt : ∀ p : Position, ∀ b ∈ before, b.number = (ofLex p).1 → p < toLex (last+1,0) := by
    intro p b hm hn
    refine Prod.Lex.lt_iff.mpr (Or.inl ?_)
    have := hb b hm
    simp only [ofLex_toLex]
    omega
  exact ⟨fun p a k v ⟨b,hm,hn,_⟩ => hlt p b hm hn,fun p a ⟨b,hm,hn,_⟩ => hlt p b hm hn⟩

theorem stack_from {A K V : Type} (h : BlockState → History ℕ A K V)
    (ha : ∀ b ∈ after, last < b.number) :
    From (stack BlockState.number h after) (toLex (last+1,0) : Position) := by
  have hle : ∀ p : Position, ∀ b ∈ after, b.number = (ofLex p).1 → toLex (last+1,0) ≤ p := by
    intro p b hm hn
    rw [Prod.Lex.le_iff]
    have := ha b hm
    simp only [ofLex_toLex]
    omega
  exact ⟨fun p a k v ⟨b,hm,hn,_⟩ => hle p b hm hn,fun p a ⟨b,hm,hn,_⟩ => hle p b hm hn⟩

def summaryRows (last : ℕ) (slots : SortedMap SlotKey String) : List UnionRow :=
  slots.entries.map (fun e => ⟨(ofLex e.1).1,(ofLex e.1).2,e.2,toLex (last,0)⟩)

theorem mem_summaryRows {slots : SortedMap SlotKey String} {a k v : String} {p : Position} :
    ⟨a,k,v,p⟩ ∈ summaryRows last slots ↔ p = toLex (last,0) ∧ slots.get? (toLex (a,k)) = some v := by
  simp only [summaryRows, List.mem_map, UnionRow.mk.injEq, Prod.exists, ← SortedMap.mem_entries]
  constructor
  · rintro ⟨key,w,h,rfl,rfl,rfl,rfl⟩
    exact ⟨rfl,h⟩
  · rintro ⟨rfl,h⟩
    exact ⟨_,_,h,rfl,rfl,rfl,rfl⟩

theorem lt_next : (toLex (last,0) : Position) < toLex (last+1,0) :=
  Prod.Lex.toLex_lt_toLex.mpr (Or.inl (Nat.lt_succ_self last))

/-- The prefix rows, the later raw rows and their resets are the summary of
the earlier history, joined with the later one. -/
theorem summary_history (last : ℕ) (after : List BlockState) (hd : Distinct before)
    (hw : ∀ r ∈ before, WellFormed r) :
    unionHistory (summaryRows last (directSlots before)++rawStorage after) (rawResets after) =
      join (summary (toLex (last,0)) (· ≠ zero) (stack BlockState.number blockStorage before))
        (stack BlockState.number blockStorage after) := by
  rw [← unionHistory_raw after]
  simp only [unionHistory, join, summary, List.mem_append, mem_summaryRows,
    directSlots_holds hd hw, false_or]

theorem slots_append (hd : Distinct (before++after)) (hw : ∀ r ∈ before++after, WellFormed r)
    (hb : ∀ b ∈ before, b.number ≤ last) (ha : ∀ b ∈ after, last < b.number) :
    finalStorage (joinResets (summaryRows last (directSlots before)++rawStorage after)
      (rawResets after)) = directSlots (before++after) := by
  have hdb : Distinct before := (List.pairwise_append.mp hd).1
  have hwb : ∀ r ∈ before, WellFormed r := fun r hr => hw r (List.mem_append_left _ hr)
  have hda : Distinct after := (List.pairwise_append.mp hd).2.1
  have hwa : ∀ r ∈ after, WellFormed r := fun r hr => hw r (List.mem_append_right _ hr)
  have hfrom := stack_from blockStorage ha
  have hfun : Functional (join (summary (toLex (last,0)) (· ≠ zero)
      (stack BlockState.number blockStorage before)) (stack BlockState.number blockStorage after)) := by
    rintro p a k v w (⟨rfl,hv,-⟩ | hv) (⟨hp,hw',-⟩ | hw')
    · exact holds_unique (storage_functional hdb hwb) hv hw'
    · exact absurd (hfrom.1 _ a k w hw') (not_le.mpr lt_next)
    · exact absurd (hfrom.1 _ a k v hv) (not_le.mpr (hp ▸ lt_next))
    · exact storage_functional hda hwa p a k v w hv hw'
  ext key v : 2
  obtain ⟨a,k⟩ := key
  change _ = _ ↔ (directSlots (before++after)).get? (toLex (a,k)) = some v
  rw [directSlots_holds hd hw, stack_append]
  have hlhs := finalStorage_holds (a := a) (k := k) (v := v)
    (summary_history last after hdb hwb ▸ hfun)
  rw [summary_history last after hdb hwb] at hlhs
  refine hlhs.trans (and_congr_left (fun hz => ?_))
  exact holds_summary_join (· ≠ zero) lt_next (stack_below blockStorage hb) hfrom a k hz

theorem latestField_append {α β : Type} {group : BlockState → List α} {address : α → String}
    {ordinal : α → ℕ} {value : α → β} (hd : Distinct (before++after))
    (hw : ∀ r ∈ before++after, (group r).Pairwise (fun v w => address v ≠ address w))
    (hb : ∀ b ∈ before, b.number ≤ last) (ha : ∀ b ∈ after, last < b.number) (a : String) :
    (latestField (before++after) group address ordinal value).get? a =
      ((latestField after group address ordinal value).get? a).or
        ((latestField before group address ordinal value).get? a) := by
  have hfun := group_functional ordinal value hd hw
  have hfb := group_functional ordinal value (List.pairwise_append.mp hd).1
    (fun r hr => hw r (List.mem_append_left _ hr))
  have hfa := group_functional ordinal value (List.pairwise_append.mp hd).2.1
    (fun r hr => hw r (List.mem_append_right _ hr))
  have hjoin : groupHistory group address ordinal value (before++after) =
      join (groupHistory group address ordinal value before)
        (groupHistory group address ordinal value after) := stack_append _
  have hfrom : From (groupHistory group address ordinal value after) (toLex (last+1,0)) :=
    stack_from _ ha
  have hbelow : Below (groupHistory group address ordinal value before) (toLex (last+1,0)) :=
    stack_below _ hb
  ext x
  rw [latestField_holds _ _ _ _ hfun, hjoin, holds_join hbelow hfrom]
  rw [Option.or_eq_some_iff, latestField_holds _ _ _ _ hfa, latestField_holds _ _ _ _ hfb]
  refine or_congr_right (and_congr_left (fun _ => ?_))
  constructor
  · intro hu
    refine Option.eq_none_iff_forall_ne_some.mpr (fun y hy => ?_)
    exact untouched_not_holds hu ((latestField_holds _ _ _ _ hfa).mp hy)
  · intro hn
    refine ⟨fun p y hp => ?_,fun p ⟨_,_,_,h⟩ => h⟩
    obtain ⟨y,hy⟩ := latestField_some _ _ _ _ hp
    rw [hn] at hy
    cases hy

theorem fields_append (hd : Distinct (before++after)) (hw : ∀ r ∈ before++after, WellFormed r)
    (hb : ∀ b ∈ before, b.number ≤ last) (ha : ∀ b ∈ after, last < b.number) :
    streamFields (addGroup .empty (directFields before) SortedMap.entries) after =
      directFields (before++after) := by
  ext a : 1
  have hfields : overlay (SortedMap.empty.get? a) ((directFields before).get? a)
      SortedMap.entries = (directFields before).get? a := by
    cases (directFields before).get? a <;>
      simp [overlay, SortedMap.insertAll_empty_entries]
  have hbal : (latestBalances (before++after)).get? a =
      ((latestBalances after).get? a).or ((latestBalances before).get? a) :=
    latestField_append hd (fun r hr => (hw r hr).balances) hb ha a
  have hnon : (latestNonces (before++after)).get? a =
      ((latestNonces after).get? a).or ((latestNonces before).get? a) :=
    latestField_append hd (fun r hr => (hw r hr).nonces) hb ha a
  have hcod : (latestCodes (before++after)).get? a =
      ((latestCodes after).get? a).or ((latestCodes before).get? a) :=
    latestField_append hd (fun r hr => (hw r hr).codes) hb ha a
  rw [get?_streamFields, get?_addGroup, hfields, directFields, directFields, get?_streamFields,
    get?_streamFields, hbal, hnon, hcod]
  exact overlayAll_overlayAll _ _ _ _ _ _ _

end Split

theorem values_distinct {α β : Type} [LinearOrder α] {m : SortedMap α β} {key : β → α}
    (h : ∀ k v, m.get? k = some v → key v = k) :
    m.values.Pairwise (fun v w => key v ≠ key w) := by
  refine List.pairwise_map.mpr (m.entries_distinct.imp_of_mem (fun {a b} ha hb hne he => hne ?_))
  rw [← h _ _ (SortedMap.mem_entries.mp ha), ← h _ _ (SortedMap.mem_entries.mp hb), he]

theorem Group.distinct {V ν β : Type} (g : Group V ν β) {values : List ν} {ds : List (Bytes × ℕ)}
    {es : List (ℕ × Reference.Effect)} (hf : g.Fills values ds es) :
    values.Pairwise (fun v w => g.address v ≠ g.address w) := by
  obtain ⟨m,l,ht,hl,rfl⟩ := hf
  refine values_distinct (fun k v hv => ?_)
  rcases List.mem_append.mp ((ht k).1 v hv) with h | h
  · obtain ⟨o,e,a,x,-,-,rfl,rfl⟩ := (hl k v).mp h
    exact g.address_entry _ _ _
  · obtain ⟨d,-,he⟩ := List.mem_map.mp h
    obtain ⟨rfl,rfl⟩ := Prod.mk.inj he
    exact g.address_entry _ _ _

theorem made_wellFormed {row : BlockState} {es : List (ℕ × Reference.Effect)}
    {ds : List (Bytes × ℕ)} (h : Made row es ds) : WellFormed row := by
  obtain ⟨m,l,ht,hl,hs⟩ := h.storage
  refine ⟨?_,Group.distinct _ h.balances,Group.distinct _ h.nonces,Group.distinct _ h.codes,?_⟩
  · rw [hs]
    refine values_distinct (fun k v hv => ?_)
    rw [SortedMap.get?_retain, Option.filter_eq_some_iff] at hv
    obtain ⟨o,a,j,x,-,rfl,rfl⟩ := (hl k v).mp ((ht k).1 v hv.1)
    rfl
  · rintro v hv ⟨a,k,o⟩ he rfl ha
    obtain ⟨d,hd,rfl,rfl⟩ := (h.resets o a).mp he
    obtain ⟨p,b,j,x,-,rfl,-,hall⟩ := (mem_storage ht hl hs v).mp hv
    exact hall d hd ha.symm

theorem project_wellFormed {params : String} {block : Eth.Block} {row : BlockState}
    (h : project params block = .ok row) : WellFormed row := by
  obtain ⟨filter,hf,-⟩ := bind_ok.mp h
  obtain ⟨-,-,records,ds,-,hmade⟩ := project_made hf h
  exact made_wellFormed hmade

end EvmState.Summary
