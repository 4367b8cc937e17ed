import EvmState.Lib.Fallible

/-!
# Lines of a stream

A stream delivers its items in order and then ends, or breaks off with a
fault. Reading until a delimiter returns what it found up to and with it, but
no more than a limit; a fault is seen by the read that runs into it.
-/

set_option autoImplicit false

namespace EvmState.Lines
open EvmState.Fallible

structure Stream (β : Type) where
  items : List β
  fault : Option String

section Read
variable {β : Type} [DecidableEq β] (delim : β)

/-- At most `limit` items, up to and with the first delimiter, and the rest. -/
def upTo : ℕ → List β → List β × List β
  | 0, l => ([],l)
  | _+1, [] => ([],[])
  | n+1, b::l => if b = delim then ([b],l) else (b::(upTo n l).1,(upTo n l).2)

def readUntil (limit : ℕ) (s : Stream β) : Except String (List β × Stream β) :=
  let (line,rest) := upTo delim limit s.items
  match s.fault with
  | some e =>
    if rest = [] ∧ line.length < limit ∧ line.getLast? ≠ some delim then .error e
    else .ok (line,⟨rest,s.fault⟩)
  | none => .ok (line,⟨rest,none⟩)

variable {delim}

theorem upTo_append {limit : ℕ} {l : List β} : (upTo delim limit l).1++(upTo delim limit l).2 = l := by
  induction limit generalizing l with
  | zero => rfl
  | succ n ih =>
    cases l with
    | nil => rfl
    | cons b l =>
      rw [upTo]
      split_ifs
      · rfl
      · exact congrArg (b::·) ih

theorem upTo_length (limit : ℕ) (l : List β) : (upTo delim limit l).1.length ≤ limit := by
  induction limit generalizing l with
  | zero => rfl
  | succ n ih =>
    cases l with
    | nil => exact Nat.zero_le _
    | cons b l =>
      rw [upTo]
      split_ifs
      · exact Nat.succ_le_succ (Nat.zero_le _)
      · exact Nat.succ_le_succ (ih l)

theorem upTo_line {limit : ℕ} {line rest : List β} (hd : delim ∉ line) (hl : line.length < limit) :
    upTo delim limit (line++delim::rest) = (line++[delim],rest) := by
  induction line generalizing limit with
  | nil =>
    obtain ⟨n,rfl⟩ := Nat.exists_eq_succ_of_ne_zero (Nat.ne_of_gt hl)
    exact if_pos rfl
  | cons b line ih =>
    obtain ⟨n,rfl⟩ := Nat.exists_eq_succ_of_ne_zero (Nat.ne_of_gt (Nat.zero_lt_of_lt hl))
    have hne : b ≠ delim := fun h => hd (by simp [h])
    have hrest := @ih n (fun h => hd (List.mem_cons_of_mem _ h)) (Nat.lt_of_succ_lt_succ hl)
    rw [List.cons_append, upTo, if_neg hne, hrest]
    rfl

theorem readUntil_line {limit : ℕ} {line rest : List β} (hd : delim ∉ line)
    (hl : line.length < limit) :
    readUntil delim limit ⟨line++delim::rest,none⟩ = .ok (line++[delim],⟨rest,none⟩) := by
  rw [readUntil, upTo_line hd hl]

theorem readUntil_end {limit : ℕ} :
    readUntil delim limit ⟨[],none⟩ = .ok ([],⟨[],none⟩) := by
  cases limit <;> rfl

/-- What is read and what is left is what was there. -/
theorem readUntil_ok {limit : ℕ} {s t : Stream β} {line : List β}
    (h : readUntil delim limit s = .ok (line,t)) :
    line++t.items = s.items ∧ t.fault = s.fault ∧ line.length ≤ limit := by
  have happend := @upTo_append β _ delim limit s.items
  have hlength := @upTo_length β _ delim limit s.items
  unfold readUntil at h
  cases hf : s.fault with
  | none =>
    rw [hf] at h
    obtain ⟨rfl,rfl⟩ := Prod.mk.inj (Except.ok.inj h)
    exact ⟨happend,rfl,hlength⟩
  | some e =>
    simp only [hf] at h
    split_ifs at h
    obtain ⟨rfl,rfl⟩ := Prod.mk.inj (Except.ok.inj h)
    exact ⟨happend,rfl,hlength⟩

theorem upTo_nil {limit : ℕ} {l : List β} (hl : 0 < limit) (h : (upTo delim limit l).1 = []) :
    l = [] := by
  cases limit with
  | zero => exact absurd hl (lt_irrefl _)
  | succ n =>
    cases l with
    | nil => rfl
    | cons b l =>
      rw [upTo] at h
      split_ifs at h

end Read
end EvmState.Lines
