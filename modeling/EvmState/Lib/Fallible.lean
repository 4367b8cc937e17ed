import Mathlib

/-!
# Fallible computations

Pure fallible functions return `Except String`. Programs with effects are
`EStateM String`, whose state survives a failure, so that a run that fails
half way still shows what it had done. The rules here invert a successful
run one bind at a time and carry a relation between the states before and
after through every step of a run, whether it succeeds or not.
-/

set_option autoImplicit false

namespace EvmState.Fallible

section Pure
variable {ε α β : Type}

def ensure (c : Prop) [Decidable c] (message : String) : Except String Unit :=
  if c then .ok () else .error message

@[simp] theorem ensure_ok {c : Prop} [Decidable c] {m : String} {u : Unit} :
    ensure c m = .ok u ↔ c := by
  unfold ensure
  split <;> simp [*]

def context (o : Option α) (message : String) : Except String α :=
  match o with
  | some a => .ok a
  | none => .error message

@[simp] theorem context_ok {o : Option α} {m : String} {a : α} :
    context o m = .ok a ↔ o = some a := by
  cases o <;> simp [context]

theorem bind_ok {x : Except ε α} {f : α → Except ε β} {b : β} :
    (x >>= f) = .ok b ↔ ∃ a, x = .ok a ∧ f a = .ok b := by
  cases x <;> simp [bind, Except.bind]

theorem pure_ok {a b : α} : (pure a : Except ε α) = .ok b ↔ a = b := by
  simp [pure, Except.pure]

theorem mapError_ok {ε' : Type} {x : Except ε α} {f : ε → ε'} {a : α} :
    x.mapError f = .ok a ↔ x = .ok a := by
  cases x <;> simp [Except.mapError]

theorem exists_of_isOk {x : Except ε α} (h : x.isOk = true) : ∃ a, x = .ok a := by
  cases x with
  | error _ => cases h
  | ok a => exact ⟨a,rfl⟩

theorem mapM_ok {f : α → Except ε β} {l : List α} {m : List β} :
    l.mapM f = .ok m ↔ List.Forall₂ (fun a b => f a = .ok b) l m := by
  induction l generalizing m with
  | nil => simp [pure, Except.pure, eq_comm]
  | cons x l ih =>
    rw [List.mapM_cons]
    constructor
    · intro h
      obtain ⟨b,hb,h⟩ := bind_ok.mp h
      obtain ⟨n,hn,h⟩ := bind_ok.mp h
      obtain rfl := pure_ok.mp h
      exact .cons hb (ih.mp hn)
    · intro h
      cases h with
      | cons hb hl => exact bind_ok.mpr ⟨_,hb,bind_ok.mpr ⟨_,ih.mpr hl,rfl⟩⟩

/-- A pass over the part of a list that a predicate of the results selects. -/
theorem mapM_filter {f : α → Except ε β} {p : α → Bool} {q : β → Bool} {l : List α} {m : List β}
    (h : l.mapM f = .ok m) (hq : ∀ a b, f a = .ok b → q b = p a) :
    (l.filter p).mapM f = .ok (m.filter q) := by
  rw [mapM_ok] at h ⊢
  induction h with
  | nil => exact .nil
  | @cons a b l m hab _ ih =>
    rw [List.filter_cons, List.filter_cons, hq a b hab]
    by_cases hp : p a
    · rw [if_pos hp, if_pos hp]
      exact .cons hab ih
    · rw [if_neg hp, if_neg hp]
      exact ih

theorem mapM_image {γ : Type} {f : α → Except ε β} {g : α → Except ε γ} {h : β → γ} {l : List α}
    {m : List β} (hm : l.mapM f = .ok m) (hg : ∀ a b, f a = .ok b → g a = .ok (h b)) :
    l.mapM g = .ok (m.map h) := by
  rw [mapM_ok] at hm ⊢
  exact List.forall₂_map_right_iff.mpr (hm.imp hg)

theorem mapM_eq_map {f : α → Except ε β} {g : α → β} {l : List α} {m : List β}
    (h : l.mapM f = .ok m) (hg : ∀ a b, f a = .ok b → b = g a) : m = l.map g := by
  rw [mapM_ok] at h
  induction h with
  | nil => rfl
  | cons hab _ ih => rw [List.map_cons, ih, hg _ _ hab]

theorem mapM_succeeds {f : α → Except ε β} {l : List α} :
    (∃ m, l.mapM f = .ok m) ↔ ∀ a ∈ l, ∃ b, f a = .ok b := by
  simp only [mapM_ok]
  induction l with
  | nil => simp
  | cons a l ih =>
    rw [List.forall_mem_cons, ← ih]
    constructor
    · rintro ⟨m,hm⟩
      obtain ⟨b,rest,hb,hrest,-⟩ := List.forall₂_cons_left_iff.mp hm
      exact ⟨⟨b,hb⟩,rest,hrest⟩
    · rintro ⟨⟨b,hb⟩,m,hm⟩
      exact ⟨b::m,.cons hb hm⟩

theorem forM_ok {f : α → Except ε Unit} {l : List α} :
    l.forM f = .ok () ↔ ∀ a ∈ l, f a = .ok () := by
  induction l with
  | nil => simp [pure, Except.pure]
  | cons a l ih =>
    rw [List.forall_mem_cons, ← ih]
    show (f a >>= fun _ => l.forM f) = .ok () ↔ _
    rw [bind_ok]
    exact ⟨fun ⟨_,ha,hl⟩ => ⟨ha,hl⟩,fun ⟨ha,hl⟩ => ⟨(),ha,hl⟩⟩

/-- A fold whose steps never ask what the earlier ones left. -/
theorem foldlM_succeeds {σ : Type} {f : σ → α → Except ε σ} {P : α → Prop} {l : List α}
    (h : ∀ s a, (∃ t, f s a = .ok t) ↔ P a) (s : σ) :
    (∃ t, l.foldlM f s = .ok t) ↔ ∀ a ∈ l, P a := by
  induction l generalizing s with
  | nil => simp [pure, Except.pure]
  | cons a l ih =>
    rw [List.foldlM_cons, List.forall_mem_cons]
    constructor
    · rintro ⟨t,ht⟩
      obtain ⟨u,hu,ht⟩ := bind_ok.mp ht
      exact ⟨(h s a).mp ⟨u,hu⟩,(ih u).mp ⟨t,ht⟩⟩
    · rintro ⟨ha,hl⟩
      obtain ⟨u,hu⟩ := (h s a).mpr ha
      obtain ⟨t,ht⟩ := (ih u).mpr hl
      exact ⟨t,bind_ok.mpr ⟨u,hu,ht⟩⟩

end Pure

end EvmState.Fallible
