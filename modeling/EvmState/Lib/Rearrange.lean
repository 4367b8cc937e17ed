import EvmState.Lib.Timeline

/-!
# Shuffled lists

Two lists whose elements are related one to one, in any order. Shuffles nest:
the related elements may hold shuffled lists themselves.
-/

set_option autoImplicit false

namespace EvmState.Rearrange
open EvmState.Timeline

/-- Every element has its own partner in the other list. -/
def Shuffle {α β : Type*} (R : α → β → Prop) (l : List α) (m : List β) : Prop :=
  ∃ k, List.Forall₂ R l k ∧ k.Perm m

/-- A shuffle that leaves the first element in its place. -/
def HeadShuffle {α β : Type*} (R : α → β → Prop) : List α → List β → Prop
  | [], [] => True
  | a::l, b::m => R a b ∧ Shuffle R l m
  | _, _ => False

section Relation
variable {α β γ δ : Type*} {R S : α → β → Prop} {l : List α} {m : List β}

theorem Shuffle.imp (hRS : ∀ a b, R a b → S a b) (h : Shuffle R l m) : Shuffle S l m := by
  obtain ⟨k,hk,hm⟩ := h
  exact ⟨k,hk.imp hRS,hm⟩

theorem Shuffle.flip (h : Shuffle R l m) : Shuffle (flip R) m l := by
  obtain ⟨k,hk,hm⟩ := h
  exact List.perm_comp_forall₂ hm.symm hk.flip

theorem Shuffle.symm {R : α → α → Prop} (hR : ∀ a b, R a b → R b a) {l m : List α}
    (h : Shuffle R l m) : Shuffle R m l :=
  h.flip.imp (fun a b hab => hR b a hab)

theorem Shuffle.partner (h : Shuffle R l m) {a : α} (ha : a ∈ l) : ∃ b ∈ m, R a b := by
  obtain ⟨k,hk,hm⟩ := h
  obtain ⟨b,hb,hab⟩ := (exists_related hk).1 a ha
  exact ⟨b,hm.mem_iff.mp hb,hab⟩

theorem Shuffle.cons {a : α} {b : β} (hab : R a b) (h : Shuffle R l m) : Shuffle R (a::l) (b::m) := by
  obtain ⟨k,hk,hm⟩ := h
  exact ⟨b::k,.cons hab hk,hm.cons b⟩

theorem Shuffle.map_perm {f : α → γ} {g : β → γ} (hfg : ∀ a b, R a b → f a = g b)
    (h : Shuffle R l m) : (l.map f).Perm (m.map g) := by
  obtain ⟨k,hk,hm⟩ := h
  have heq : l.map f = k.map g := by
    clear hm
    induction hk with
    | nil => rfl
    | cons hab _ ih => rw [List.map_cons, List.map_cons, hfg _ _ hab, ih]
  rw [heq]
  exact hm.map g

theorem Shuffle.flatMap_perm {f : α → List γ} {g : β → List γ}
    (hfg : ∀ a b, R a b → (f a).Perm (g b)) (h : Shuffle R l m) :
    (l.flatMap f).Perm (m.flatMap g) := by
  obtain ⟨k,hk,hm⟩ := h
  have heq : (l.flatMap f).Perm (k.flatMap g) := by
    clear hm
    induction hk with
    | nil => exact .nil
    | cons hab _ ih =>
      rw [List.flatMap_cons, List.flatMap_cons]
      exact (hfg _ _ hab).append ih
  exact heq.trans (hm.flatMap_right g)

theorem HeadShuffle.shuffle (h : HeadShuffle R l m) : Shuffle R l m := by
  cases l with
  | nil =>
    cases m with
    | nil => exact ⟨[],.nil,.nil⟩
    | cons b m => exact h.elim
  | cons a l =>
    cases m with
    | nil => exact h.elim
    | cons b m => exact h.2.cons h.1

theorem HeadShuffle.symm {R : α → α → Prop} (hR : ∀ a b, R a b → R b a) {l m : List α}
    (h : HeadShuffle R l m) : HeadShuffle R m l := by
  cases l with
  | nil =>
    cases m with
    | nil => trivial
    | cons b m => exact h.elim
  | cons a l =>
    cases m with
    | nil => exact h.elim
    | cons b m => exact ⟨hR a b h.1,h.2.symm hR⟩

theorem HeadShuffle.head (h : HeadShuffle R l m) : Option.Rel R l.head? m.head? := by
  cases l with
  | nil =>
    cases m with
    | nil => exact .none
    | cons b m => exact h.elim
  | cons a l =>
    cases m with
    | nil => exact h.elim
    | cons b m => exact .some h.1

end Relation

theorem zipIdx_filter_ne {α : Type*} (l : List α) (i : ℕ) :
    (l.zipIdx.filter (fun e => e.2 ≠ i)).map Prod.fst = l.eraseIdx i := by
  suffices h : ∀ n i, ((l.zipIdx n).filter (fun e => e.2 ≠ n+i)).map Prod.fst = l.eraseIdx i by
    simpa using h 0 i
  clear i
  induction l with
  | nil => intro n i; rfl
  | cons a l ih =>
    intro n i
    rw [List.zipIdx_cons]
    cases i with
    | zero =>
      have hall : ∀ e ∈ l.zipIdx (n+1), e.2 ≠ n+0 := by
        intro e he
        have := List.le_snd_of_mem_zipIdx he
        omega
      rw [List.filter_cons_of_neg (by simp), List.filter_eq_self.mpr (by simpa using hall),
        List.zipIdx_map_fst, List.eraseIdx_cons_zero]
    | succ i =>
      have hn : n+(i+1) = n+1+i := by omega
      rw [List.filter_cons_of_pos (by simp), List.map_cons, List.eraseIdx_cons_succ, hn, ih]

end EvmState.Rearrange
