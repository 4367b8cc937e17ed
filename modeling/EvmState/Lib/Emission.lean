import EvmState.Lib.Fallible

/-!
# Emitted positions

A pass over nested lists emits some of the elements that it finds. Each
element has a position, and the output is exact for a set of positions when it
has the element of each of them once and no other element.
-/

set_option autoImplicit false

namespace EvmState.Emission

variable {ι α β : Type*}

/-- The output has the elements at the positions with `P`, each once. -/
def Emits (look : ι → Option β) (P : ι → Prop) (out : List β) : Prop :=
  ∃ sites : List ι, sites.Nodup ∧ (∀ s, s ∈ sites ↔ P s) ∧ out.map some = sites.map look

variable {look : ι → Option β} {P Q : ι → Prop} {out more : List β}

theorem Emits.congr (h : Emits look P out) (hq : ∀ s, P s ↔ Q s) : Emits look Q out := by
  obtain ⟨sites,hn,hs,hout⟩ := h
  exact ⟨sites,hn,fun s => (hs s).trans (hq s),hout⟩

theorem emits_nil (h : ∀ s, ¬P s) : Emits look P [] :=
  ⟨[],List.nodup_nil,fun s => by simp [h s],rfl⟩

theorem emits_one {s : ι} {b : β} (h : look s = some b) : Emits look (· = s) [b] :=
  ⟨[s],List.nodup_singleton s,fun _ => List.mem_singleton,by simp [h]⟩

theorem emits_append (h : Emits look P out) (h' : Emits look Q more) (hd : ∀ s, P s → ¬Q s) :
    Emits look (fun s => P s ∨ Q s) (out++more) := by
  obtain ⟨sites,hn,hs,hout⟩ := h
  obtain ⟨sites',hn',hs',hout'⟩ := h'
  refine ⟨sites++sites',List.nodup_append'.mpr ⟨hn,hn',fun s hm hm' => ?_⟩,fun s => ?_,?_⟩
  · exact hd s ((hs s).mp hm) ((hs' s).mp hm')
  · rw [List.mem_append, hs, hs']
  · rw [List.map_append, List.map_append, hout, hout']

theorem emits_if {s : ι} {b : β} {c : Prop} [Decidable c] (h : look s = some b) :
    Emits look (fun t => c ∧ t = s) (if c then [b] else []) := by
  split_ifs with hc
  · exact (emits_one h).congr (fun t => by simp [hc])
  · exact emits_nil (fun t => by simp [hc])

theorem emits_zipIdx {l : List α} {g : α × ℕ → List β} {R : ℕ → α → ι → Prop}
    (h : ∀ i a, l[i]? = some a → Emits look (R i a) (g (a,i)))
    (hd : ∀ i j a b s, l[i]? = some a → l[j]? = some b → R i a s → R j b s → i = j) :
    Emits look (fun s => ∃ i a, l[i]? = some a ∧ R i a s) (l.zipIdx.flatMap g) := by
  induction l using List.reverseRecOn with
  | nil => exact emits_nil (fun s => by simp)
  | append_singleton l a ih =>
    have hold : ∀ (i : ℕ) (b : α), l[i]? = some b → (l++[a])[i]? = some b := by
      intro i b hi
      rw [List.getElem?_append_left (List.getElem?_eq_some_iff.mp hi).1, hi]
    have hnew : (l++[a])[l.length]? = some a := by simp
    have hpre := ih (fun i b hi => h i b (hold i b hi))
      (fun i j b c s hi hj => hd i j b c s (hold i b hi) (hold j c hj))
    have hlast : Emits look (R l.length a) ([(a,l.length)].flatMap g) := by
      simpa using h l.length a hnew
    have hapart : ∀ s, (∃ (i : ℕ) (b : α), l[i]? = some b ∧ R i b s) → ¬R l.length a s := by
      rintro s ⟨i,b,hi,hr⟩ hr'
      have := hd i l.length b a s (hold i b hi) hnew hr hr'
      have := (List.getElem?_eq_some_iff.mp hi).1
      omega
    have hzip : (l++[a]).zipIdx.flatMap g = l.zipIdx.flatMap g++[(a,l.length)].flatMap g := by
      rw [List.zipIdx_append, List.flatMap_append]
      simp
    rw [hzip]
    refine (emits_append hpre hlast hapart).congr (fun s => ?_)
    constructor
    · rintro (⟨i,b,hi,hr⟩ | hr)
      · exact ⟨i,b,hold i b hi,hr⟩
      · exact ⟨l.length,a,hnew,hr⟩
    · rintro ⟨i,b,hi,hr⟩
      rcases Nat.lt_or_ge i l.length with hlt | hge
      · rw [List.getElem?_append_left hlt] at hi
        exact .inl ⟨i,b,hi,hr⟩
      · have hlen := (List.getElem?_eq_some_iff.mp hi).1
        rw [List.length_append, List.length_singleton] at hlen
        obtain rfl : i = l.length := by omega
        rw [hnew] at hi
        obtain rfl := Option.some.inj hi
        exact .inr hr

theorem emits_flatMap {l : List α} {g : α → List β} {R : ℕ → α → ι → Prop}
    (h : ∀ i a, l[i]? = some a → Emits look (R i a) (g a))
    (hd : ∀ i j a b s, l[i]? = some a → l[j]? = some b → R i a s → R j b s → i = j) :
    Emits look (fun s => ∃ i a, l[i]? = some a ∧ R i a s) (l.flatMap g) := by
  have hzip : l.flatMap g = l.zipIdx.flatMap (fun e => g e.1) := by
    rw [← List.flatMap_map Prod.fst, List.zipIdx_map_fst]
  rw [hzip]
  exact emits_zipIdx h hd

theorem filter_map_flatMap {γ : Type*} (l : List α) (p : α → Bool) (g : α → γ) :
    (l.filter p).map g = l.flatMap (fun a => if p a then [g a] else []) := by
  induction l with
  | nil => rfl
  | cons a l ih => by_cases h : p a <;> simp [h, ih]

theorem filter_flatMap {γ : Type*} (l : List α) (p : α → Bool) (g : α → List γ) :
    (l.filter p).flatMap g = l.flatMap (fun a => if p a then g a else []) := by
  induction l with
  | nil => rfl
  | cons a l ih => by_cases h : p a <;> simp [h, ih]

theorem emits_filterIdx {l : List α} {p : α × ℕ → Bool} {g : α × ℕ → β} {site : ℕ → ι}
    (hs : Function.Injective site) (hlook : ∀ i a, l[i]? = some a → look (site i) = some (g (a,i))) :
    Emits look (fun s => ∃ i a, l[i]? = some a ∧ p (a,i) ∧ s = site i)
      ((l.zipIdx.filter p).map g) := by
  rw [filter_map_flatMap]
  refine emits_zipIdx (fun i a hi => emits_if (hlook i a hi)) ?_
  rintro i j a b s - - ⟨-,rfl⟩ ⟨-,he⟩
  exact hs he

theorem emits_filter {l : List α} {p : α → Bool} {g : α → β} {site : ℕ → ι}
    (hs : Function.Injective site) (hlook : ∀ i, look (site i) = l[i]?.map g) :
    Emits look (fun s => ∃ i a, l[i]? = some a ∧ p a ∧ s = site i) ((l.filter p).map g) := by
  rw [filter_map_flatMap]
  refine emits_flatMap (fun i a hi => emits_if (by rw [hlook, hi]; rfl)) ?_
  rintro i j a b s - - ⟨-,rfl⟩ ⟨-,he⟩
  exact hs he

end EvmState.Emission
