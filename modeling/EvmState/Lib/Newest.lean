import Mathlib.Data.List.Sort
import Mathlib.Order.Lattice

/-!
# The newest of a collection

A collection in descending order of its ranks shows its newest items first.
A filter that lets them pass changes neither the first items nor the first
item of any kind.
-/

set_option autoImplicit false

namespace EvmState.Newest
variable {α β : Type*} [LinearOrder β] {rank : α → β} {p q : α → Bool} {a b : α} {l : List α}

/-- The items by descending rank; those of one rank keep their order. -/
def newest (rank : α → β) (l : List α) : List α := l.insertionSort (fun a b => rank b ≤ rank a)

@[simp] theorem mem_newest : a ∈ newest rank l ↔ a ∈ l := List.mem_insertionSort _

theorem newest_perm : (newest rank l).Perm l := List.perm_insertionSort _ l

theorem newest_descending (rank : α → β) (l : List α) :
    (newest rank l).Pairwise (fun a b => rank b ≤ rank a) := by
  have : IsTrans α (fun a b => rank b ≤ rank a) := ⟨fun _ _ _ h h' => h'.trans h⟩
  have : Std.Total (fun a b : α => rank b ≤ rank a) := ⟨fun a b => le_total (rank b) (rank a)⟩
  exact List.pairwise_insertionSort _ l

theorem filter_inserted (p : α → Bool) (a : α) (h : l.Pairwise (fun a b => rank b ≤ rank a)) :
    (l.orderedInsert (fun a b => rank b ≤ rank a) a).filter p =
      if p a then (l.filter p).orderedInsert (fun a b => rank b ≤ rank a) a else l.filter p := by
  induction l with
  | nil => cases ha : p a <;> simp [ha]
  | cons b l ih =>
    obtain ⟨hb,hl⟩ := List.pairwise_cons.mp h
    rw [List.orderedInsert_cons]
    by_cases hab : rank b ≤ rank a
    · have hfront : ((b::l).filter p).orderedInsert (fun a b => rank b ≤ rank a) a =
          a::(b::l).filter p := by
        cases hc : (b::l).filter p with
        | nil => rfl
        | cons c m =>
          have hm : c ∈ (b::l).filter p := by rw [hc]; exact List.mem_cons_self
          have hca : rank c ≤ rank a := by
            rcases List.mem_cons.mp (List.mem_filter.mp hm).1 with rfl | hm
            · exact hab
            · exact (hb c hm).trans hab
          rw [List.orderedInsert_cons, if_pos hca]
      rw [if_pos hab, hfront, List.filter_cons]
    · rw [if_neg hab, List.filter_cons, ih hl]
      cases hpa : p a <;> cases hpb : p b <;> simp [hpb, hab]

theorem newest_filter (p : α → Bool) (l : List α) :
    (newest rank l).filter p = newest rank (l.filter p) := by
  induction l with
  | nil => rfl
  | cons a l ih =>
    change ((newest rank l).orderedInsert (fun a b => rank b ≤ rank a) a).filter p = _
    rw [filter_inserted p a (newest_descending rank l), ih, List.filter_cons]
    split_ifs <;> rfl

theorem take_filter {k : ℕ} (h : ∀ a ∈ l.take k, p a = true) : (l.filter p).take k = l.take k := by
  induction l generalizing k with
  | nil => simp
  | cons a l ih =>
    cases k with
    | zero => rfl
    | succ k =>
      rw [List.take_succ_cons] at h ⊢
      obtain ⟨ha,hl⟩ := List.forall_mem_cons.mp h
      rw [List.filter_cons_of_pos ha, List.take_succ_cons, ih hl]

theorem find?_filter (h : ∀ a, l.find? q = some a → p a = true) : (l.filter p).find? q = l.find? q := by
  induction l with
  | nil => rfl
  | cons a l ih =>
    cases hq : q a with
    | true =>
      have ha : p a = true := h a (by rw [List.find?_cons_of_pos hq])
      rw [List.filter_cons_of_pos ha, List.find?_cons_of_pos hq, List.find?_cons_of_pos hq]
    | false =>
      have hn : ¬q a = true := by simp [hq]
      have hl := ih (fun b hb => h b (by rw [List.find?_cons_of_neg hn, hb]))
      rw [List.find?_cons_of_neg hn, ← hl]
      cases hp : p a with
      | true => rw [List.filter_cons_of_pos hp, List.find?_cons_of_neg hn]
      | false => rw [List.filter_cons_of_neg (by simp [hp])]

theorem find?_newest (h : (newest rank l).find? q = some a) (hb : b ∈ l) (hq : q b = true) :
    rank b ≤ rank a := by
  obtain ⟨-,as,bs,hl,has⟩ := List.find?_eq_some_iff_append.mp h
  have hsorted := newest_descending rank l
  rw [hl] at hsorted
  have hm : b ∈ as ++ a::bs := hl ▸ mem_newest.mpr hb
  rcases List.mem_append.mp hm with hm | hm
  · simpa [hq] using has b hm
  · rcases List.mem_cons.mp hm with rfl | hm
    · exact le_rfl
    · exact (List.pairwise_cons.mp (List.pairwise_append.mp hsorted).2.1).1 b hm

theorem find?_some_of_mem (rank : α → β) (hb : b ∈ l) (hq : q b = true) :
    ∃ a, (newest rank l).find? q = some a := by
  exact Option.isSome_iff_exists.mp (List.find?_isSome.mpr ⟨b,mem_newest.mpr hb,hq⟩)

/-- An item that few others are as new as is among the first ones. -/
theorem mem_take_newest {k : ℕ} (ha : a ∈ l)
    (hk : (l.filter (fun b => rank a ≤ rank b)).length ≤ k) : a ∈ (newest rank l).take k := by
  obtain ⟨as,bs,hl⟩ := List.append_of_mem (mem_newest.mpr ha : a ∈ newest rank l)
  have hsorted := newest_descending rank l
  rw [hl] at hsorted
  have hall : ∀ b ∈ as++[a], decide (rank a ≤ rank b) = true := by
    intro b hb
    rcases List.mem_append.mp hb with hb | hb
    · exact decide_eq_true ((List.pairwise_append.mp hsorted).2.2 b hb a List.mem_cons_self)
    · rw [List.mem_singleton.mp hb]
      exact decide_eq_true le_rfl
  have hsplit : newest rank l = (as++[a])++bs := by rw [hl, List.append_assoc, List.singleton_append]
  have hcount : (as++[a]).length ≤ k := by
    have hlen := ((@newest_perm _ _ _ rank l).filter (fun b => rank a ≤ rank b)).length_eq
    rw [hsplit, List.filter_append, List.filter_eq_self.mpr hall, List.length_append] at hlen
    omega
  rw [hsplit, List.take_append, List.take_of_length_le hcount]
  simp

end EvmState.Newest
