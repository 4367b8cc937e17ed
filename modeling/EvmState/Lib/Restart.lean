import EvmState.Lib.Crash

/-!
# Calls that die and are made again

A program is called again and again on one durable state and may die in each
call. Some deaths tear the state so that no later call returns; without them
the states between the calls stay sound.
-/

set_option autoImplicit false

namespace EvmState.Restart
open EvmState.Crash

section Calls
variable {σ α κ : Type} (prog : κ → Prog σ α) (start : σ)

def after (s : σ) (c : κ) : σ := ends (prog c) ⟨s,[]⟩

def reached (calls : List κ) : σ := calls.foldl (after prog) start

theorem reached_concat (calls : List κ) (c : κ) :
    reached prog start (calls++[c]) = after prog (reached prog start calls) c := by
  rw [reached, List.foldl_append]
  rfl

/-- No call of the list tears the state that it finds. -/
def Untorn (torn : σ → κ → Prop) (calls : List κ) : Prop :=
  ∀ earlier c later, calls = earlier++c::later → ¬torn (reached prog start earlier) c

theorem Untorn.earlier {torn : σ → κ → Prop} {earlier later : List κ}
    (h : Untorn prog start torn (earlier++later)) : Untorn prog start torn earlier :=
  fun first c rest he => h first c (rest++later) (by rw [he]; simp)

/-- What one call does to sound, torn and stuck states. -/
structure Restartable (sound stuck : σ → Prop) (torn : σ → κ → Prop) : Prop where
  begins : sound start
  keeps : ∀ s c, sound s → ¬torn s c → sound (after prog s c)
  tears : ∀ s c, sound s → torn s c → stuck (after prog s c)
  blocked : ∀ s c, stuck s → ∀ a h, prog c ⟨s,[]⟩ ≠ .ok a h

variable {prog start} {sound stuck : σ → Prop} {torn : σ → κ → Prop}

theorem Restartable.holds (h : Restartable prog start sound stuck torn) {calls : List κ}
    (hu : Untorn prog start torn calls) : sound (reached prog start calls) := by
  induction calls using List.reverseRecOn with
  | nil => exact h.begins
  | append_singleton calls c ih =>
    rw [reached_concat]
    exact h.keeps _ c (ih hu.earlier) (hu calls c [] rfl)

/-- When some call would return after every part of a list, nothing in the
list was torn. -/
theorem Restartable.untorn (h : Restartable prog start sound stuck torn) {calls : List κ}
    (hr : ∀ earlier later, calls = earlier++later →
      ∃ c a s, prog c ⟨reached prog start earlier,[]⟩ = .ok a s) :
    Untorn prog start torn calls := by
  induction calls using List.reverseRecOn with
  | nil => exact fun earlier c later he => by simp at he
  | append_singleton calls c ih =>
    have hbefore : Untorn prog start torn calls := ih (fun earlier later he =>
      hr earlier (later++[c]) (by rw [he]; simp))
    intro earlier d later he
    rcases List.eq_nil_or_concat later with rfl | ⟨later,e,rfl⟩
    · obtain ⟨rfl,hd⟩ := List.append_inj' he rfl
      obtain rfl : c = d := (List.cons.inj hd).1
      intro ht
      obtain ⟨c',a,s,hok⟩ := hr (calls++[c]) [] (by simp)
      rw [reached_concat] at hok
      exact h.blocked _ c' (h.tears _ c (h.holds hbefore) ht) a s hok
    · refine hbefore earlier d later ?_
      rw [List.concat_eq_append, ← List.cons_append, ← List.append_assoc] at he
      exact (List.append_inj' he rfl).1

/-- What every call of an untorn list keeps of the state that it finds, the
rest of the list keeps. -/
theorem Restartable.keeps_later (h : Restartable prog start sound stuck torn) {keep : σ → Prop}
    (hk : ∀ s c, sound s → ¬torn s c → keep s → keep (after prog s c)) {earlier later : List κ}
    (hu : Untorn prog start torn (earlier++later)) (hs : keep (reached prog start earlier)) :
    keep (reached prog start (earlier++later)) := by
  induction later using List.reverseRecOn with
  | nil => simpa using hs
  | append_singleton later c ih =>
    rw [← List.append_assoc] at hu ⊢
    rw [reached_concat]
    exact hk _ c (h.holds hu.earlier) (hu (earlier++later) c [] rfl) (ih hu.earlier)

end Calls
end EvmState.Restart
