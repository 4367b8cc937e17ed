import Mathlib

/-!
# The last entry of an ordered log

In a log of strictly ascending positions, the last entry of a kind is the one
of the greatest position.
-/

set_option autoImplicit false

namespace EvmState.Log

section Greatest
variable {ι P : Type} [LinearOrder P] {pos : ι → P}

/-- The entry of the greatest position among those that a predicate selects. -/
structure Greatest (pos : ι → P) (mine : ι → Prop) (l : List ι) (e : ι) : Prop where
  mem : e ∈ l
  selected : mine e
  greatest : ∀ d ∈ l, mine d → pos d ≤ pos e

theorem getLast?_greatest {mine : ι → Prop} [DecidablePred mine] {l : List ι} {e : ι}
    (hl : l.Pairwise (fun a b => pos a < pos b)) (h : (l.filter (fun x => mine x)).getLast? = some e) :
    Greatest pos mine l e := by
  induction l using List.reverseRecOn with
  | nil => simp at h
  | append_singleton l x ih =>
    obtain ⟨hl,-,hx⟩ := List.pairwise_append.mp hl
    rw [List.filter_append, List.getLast?_append] at h
    by_cases hm : mine x
    · obtain rfl : x = e := by simpa [hm] using h
      refine ⟨by simp,hm,fun d hd _ => ?_⟩
      rcases List.mem_append.mp hd with hd | hd
      · exact (hx d hd x (by simp)).le
      · exact (List.mem_singleton.mp hd ▸ le_refl _)
    · obtain ⟨hmem,hsel,hgreat⟩ := ih hl (by simpa [hm] using h)
      refine ⟨by simp [hmem],hsel,fun d hd hdm => ?_⟩
      rcases List.mem_append.mp hd with hd | hd
      · exact hgreat d hd hdm
      · exact absurd (List.mem_singleton.mp hd ▸ hdm) hm

theorem Greatest.unique {mine : ι → Prop} {l : List ι} {d e : ι}
    (hl : l.Pairwise (fun a b => pos a < pos b)) (hd : Greatest pos mine l d)
    (he : Greatest pos mine l e) : d = e := by
  by_contra hne
  have hpos : pos d = pos e := le_antisymm (he.greatest d hd.mem hd.selected)
    (hd.greatest e he.mem he.selected)
  have hsymm : Std.Symm (fun a b : ι => pos a ≠ pos b) := ⟨fun _ _ h => h.symm⟩
  exact (hl.imp (S := fun a b => pos a ≠ pos b) (fun h => h.ne)).forall hd.mem he.mem hne hpos

/-- A register shows the entry of the greatest position, and nothing if there is none. -/
structure Shows {V : Type} (pos : ι → P) (mine : ι → Prop) (l : List ι) (cell : Option V)
    (value : ι → V) : Prop where
  some_of : ∀ e, Greatest pos mine l e → cell = some (value e)
  none_of : (∀ e ∈ l, ¬mine e) → cell = none

theorem shows_last {V : Type} {mine : ι → Prop} [DecidablePred mine] {l : List ι} {cell : Option V}
    {value : ι → V} (hl : l.Pairwise (fun a b => pos a < pos b))
    (h : cell = ((l.filter (fun x => mine x)).getLast?).map value) : Shows pos mine l cell value := by
  constructor
  · intro e he
    cases hlast : (l.filter (fun x => mine x)).getLast? with
    | none =>
      have hnil := List.filter_eq_nil_iff.mp (List.getLast?_eq_none_iff.mp hlast)
      exact absurd he.selected (by simpa using hnil e he.mem)
    | some d =>
      rw [h, hlast, (getLast?_greatest hl hlast).unique hl he]
      rfl
  · intro hnone
    have hnil : l.filter (fun x => mine x) = [] := by
      rw [List.filter_eq_nil_iff]
      exact fun e he => by simpa using hnone e he
    rw [h, hnil]
    rfl

end Greatest

section Batches
variable {β γ V : Type}

/-- The entries of a sequence of batches, each with its batch. -/
def entries (f : β → List γ) (bs : List β) : List (β × γ) := bs.flatMap (fun b => (f b).map (fun c => (b,c)))

theorem mem_entries {f : β → List γ} {bs : List β} {e : β × γ} :
    e ∈ entries f bs ↔ e.1 ∈ bs ∧ e.2 ∈ f e.1 := by
  simp only [entries, List.mem_flatMap, List.mem_map]
  constructor
  · rintro ⟨b,hb,c,hc,rfl⟩
    exact ⟨hb,hc⟩
  · rintro ⟨hb,hc⟩
    exact ⟨e.1,hb,e.2,hc,rfl⟩

theorem entries_concat (f : β → List γ) (bs : List β) (b : β) :
    entries f (bs++[b]) = entries f bs ++ (f b).map (fun c => (b,c)) := by
  simp [entries]

theorem getLast?_batch (f : β → List γ) (p : β × γ → Bool) (b : β) :
    (((f b).map (fun c => (b,c))).filter p).getLast? =
      (((f b).filter (fun c => p (b,c))).getLast?).map (fun c => (b,c)) := by
  rw [List.filter_map, List.getLast?_map]
  rfl

/-- The last batch that has an entry of a kind holds the last such entry. -/
theorem getLast?_batches (f : β → List γ) (p : β × γ → Bool) (value : β × γ → V) (bs : List β) :
    (bs.filterMap (fun b =>
      (((f b).filter (fun c => p (b,c))).getLast?).map (fun c => value (b,c)))).getLast? =
      (((entries f bs).filter p).getLast?).map value := by
  induction bs using List.reverseRecOn with
  | nil => rfl
  | append_singleton bs b ih =>
    rw [entries_concat, List.filterMap_append, List.filter_append, List.getLast?_append, List.getLast?_append,
      ih, Option.map_or, getLast?_batch, List.filterMap_cons, List.filterMap_nil]
    cases ((f b).filter (fun c => p (b,c))).getLast? <;> rfl

theorem getLast?_entry {f : β → List γ} {p : β × γ → Bool} {bs : List β} {e : β × γ}
    (h : ((entries f bs).filter p).getLast? = some e) :
    ((f e.1).filter (fun c => p (e.1,c))).getLast? = some e.2 := by
  induction bs using List.reverseRecOn with
  | nil => simp [entries] at h
  | append_singleton bs b ih =>
    rw [entries_concat, List.filter_append, List.getLast?_append, getLast?_batch] at h
    cases hlast : ((f b).filter (fun c => p (b,c))).getLast? with
    | none =>
      rw [hlast] at h
      exact ih h
    | some c =>
      rw [hlast] at h
      cases h
      exact hlast

/-- Batches of ascending numbers with ascending entries make an ascending log. -/
theorem entries_ascending {P O : Type} [LinearOrder P] [LinearOrder O] {f : β → List γ} {num : β → P}
    {ord : γ → O} {bs : List β} (hb : bs.Pairwise (fun a b => num a < num b))
    (hf : ∀ b ∈ bs, (f b).Pairwise (fun c d => ord c < ord d)) :
    (entries f bs).Pairwise (fun d e =>
      toLex (num d.1,ord d.2) < toLex (num e.1,ord e.2)) := by
  rw [entries, List.flatMap, List.pairwise_flatten]
  constructor
  · intro l hl
    obtain ⟨b,hbm,rfl⟩ := List.mem_map.mp hl
    refine List.pairwise_map.mpr ((hf b hbm).imp (fun hcd => ?_))
    exact Prod.Lex.toLex_lt_toLex.mpr (Or.inr ⟨rfl,hcd⟩)
  · refine List.pairwise_map.mpr (hb.imp (fun {a b} hab => ?_))
    intro d hd e he
    obtain ⟨c,-,rfl⟩ := List.mem_map.mp hd
    obtain ⟨x,-,rfl⟩ := List.mem_map.mp he
    exact Prod.Lex.toLex_lt_toLex.mpr (Or.inl hab)

end Batches
end EvmState.Log
