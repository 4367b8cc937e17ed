import Mathlib

/-!
# Keyed writes and account-wide resets on a timeline

A history says which values were written under which account and key, and
which accounts were wiped, each at a position of a linear order. A key holds
the value of its greatest write when no wipe of its account is at or after
that write. Replaying an ordered list of changes computes exactly that value,
and a history may be collapsed, cut and summarised without changing it.
-/

set_option autoImplicit false

namespace EvmState.Timeline

variable {P A K V : Type*}

structure History (P A K V : Type*) where
  wrote : P → A → K → V → Prop
  wiped : P → A → Prop

section Values
variable [LinearOrder P]

/-- The write at `p` is the greatest of its key and no wipe of its account
stands at or after it. -/
def Latest (h : History P A K V) (p : P) (a : A) (k : K) (v : V) : Prop :=
  h.wrote p a k v ∧ (∀ q w, h.wrote q a k w → q ≤ p) ∧ ∀ q, h.wiped q a → q < p

def Holds (h : History P A K V) (a : A) (k : K) (v : V) : Prop := ∃ p, Latest h p a k v

def Untouched (h : History P A K V) (a : A) (k : K) : Prop :=
  (∀ p v, ¬h.wrote p a k v) ∧ ∀ p, ¬h.wiped p a

/-- One position never gives one key two values. -/
def Functional (h : History P A K V) : Prop :=
  ∀ p a k v w, h.wrote p a k v → h.wrote p a k w → v = w

theorem holds_unique {h : History P A K V} (hf : Functional h) {a : A} {k : K} {v w : V}
    (hv : Holds h a k v) (hw : Holds h a k w) : v = w := by
  obtain ⟨p,hp,hpm,-⟩ := hv
  obtain ⟨q,hq,hqm,-⟩ := hw
  obtain rfl : p = q := le_antisymm (hqm p v hp) (hpm q w hq)
  exact hf p a k v w hp hq

theorem untouched_not_holds {h : History P A K V} {a : A} {k : K} {v : V}
    (hu : Untouched h a k) : ¬Holds h a k v := fun ⟨p,hp,_⟩ => hu.1 p v hp

def join (h g : History P A K V) : History P A K V where
  wrote p a k v := h.wrote p a k v ∨ g.wrote p a k v
  wiped p a := h.wiped p a ∨ g.wiped p a

def Below (h : History P A K V) (c : P) : Prop :=
  (∀ p a k v, h.wrote p a k v → p < c) ∧ ∀ p a, h.wiped p a → p < c

def From (g : History P A K V) (c : P) : Prop :=
  (∀ p a k v, g.wrote p a k v → c ≤ p) ∧ ∀ p a, g.wiped p a → c ≤ p

/-- A later part decides every key that it touches and leaves the others. -/
theorem holds_join {h g : History P A K V} {c : P} (hh : Below h c) (hg : From g c)
    (a : A) (k : K) (v : V) :
    Holds (join h g) a k v ↔ Holds g a k v ∨ (Untouched g a k ∧ Holds h a k v) := by
  constructor
  · rintro ⟨p,hp | hp,hm,hr⟩
    · right
      have hpc := hh.1 p a k v hp
      have ⟨hw,hz⟩ : Untouched g a k :=
        ⟨fun q w hq => absurd ((hm q w (Or.inr hq)).trans_lt hpc) (not_lt.mpr (hg.1 q a k w hq)),
          fun q hq => absurd ((hr q (Or.inr hq)).trans hpc) (not_lt.mpr (hg.2 q a hq))⟩
      exact ⟨⟨hw,hz⟩,p,hp,fun q w hq => hm q w (Or.inl hq),fun q hq => hr q (Or.inl hq)⟩
    · exact Or.inl ⟨p,hp,fun q w hq => hm q w (Or.inr hq),fun q hq => hr q (Or.inr hq)⟩
  · rintro (⟨p,hp,hm,hr⟩ | ⟨⟨hw,hz⟩,p,hp,hm,hr⟩)
    · have hcp := hg.1 p a k v hp
      refine ⟨p,Or.inr hp,?_,?_⟩
      · rintro q w (hq | hq)
        · exact ((hh.1 q a k w hq).trans_le hcp).le
        · exact hm q w hq
      · rintro q (hq | hq)
        · exact (hh.2 q a hq).trans_le hcp
        · exact hr q hq
    · refine ⟨p,Or.inl hp,?_,?_⟩
      · rintro q w (hq | hq)
        · exact hm q w hq
        · exact absurd hq (hw q w)
      · rintro q (hq | hq)
        · exact hr q hq
        · exact absurd hq (hz q)

structure Agree (h g : History P A K V) (a : A) : Prop where
  wrote : ∀ p k v, h.wrote p a k v ↔ g.wrote p a k v
  wiped : ∀ p, h.wiped p a ↔ g.wiped p a

theorem Agree.holds {h g : History P A K V} {a : A} (e : Agree h g a) (k : K) (v : V) :
    Holds h a k v ↔ Holds g a k v := by
  simp only [Holds, Latest, e.wrote, e.wiped]

omit [LinearOrder P] in
theorem Agree.untouched {h g : History P A K V} {a : A} (e : Agree h g a) (k : K) :
    Untouched h a k ↔ Untouched g a k := by
  simp only [Untouched, e.wrote, e.wiped]

/-- The kept values of `h`, all written again at one position `c`. Wipes and
the values that are not kept leave no trace. -/
def summary (c : P) (keep : V → Prop) (h : History P A K V) : History P A K V where
  wrote p a k v := p = c ∧ Holds h a k v ∧ keep v
  wiped _ _ := False

theorem holds_summary (c : P) (keep : V → Prop) (h : History P A K V) (a : A) (k : K) (v : V) :
    Holds (summary c keep h) a k v ↔ Holds h a k v ∧ keep v := by
  constructor
  · rintro ⟨p,⟨-,hv⟩,-⟩
    exact hv
  · intro hv
    exact ⟨c,⟨rfl,hv⟩,fun q w hq => hq.1.le,fun q hq => hq.elim⟩

theorem summary_below {c d : P} (hcd : c < d) (keep : V → Prop) (h : History P A K V) :
    Below (summary c keep h) d :=
  ⟨fun _ _ _ _ hp => hp.1 ▸ hcd,fun _ _ hp => hp.elim⟩

/-- Replacing the part before a cut by its summary changes no kept value,
although the wipes and the dropped values of that part are gone. -/
theorem holds_summary_join {h g : History P A K V} {c d : P} (keep : V → Prop) (hcd : c < d)
    (hh : Below h d) (hg : From g d) (a : A) (k : K) {v : V} (hv : keep v) :
    Holds (join (summary c keep h) g) a k v ↔ Holds (join h g) a k v := by
  rw [holds_join (summary_below hcd keep h) hg, holds_join hh hg, holds_summary]
  tauto

/-- `h` keeps of `raw` a write or a wipe at or after each write, and a wipe
at or after each wipe. -/
structure Collapses (h raw : History P A K V) : Prop where
  wrote : ∀ p a k v, h.wrote p a k v → raw.wrote p a k v
  wiped : ∀ p a, h.wiped p a → raw.wiped p a
  covered : ∀ p a k v, raw.wrote p a k v →
    (∃ q w, p ≤ q ∧ h.wrote q a k w) ∨ ∃ q, p ≤ q ∧ h.wiped q a
  swept : ∀ p a, raw.wiped p a → ∃ q, p ≤ q ∧ h.wiped q a

theorem holds_of_collapses {h raw : History P A K V} (hc : Collapses h raw)
    (hf : Functional raw) (a : A) (k : K) (v : V) : Holds h a k v ↔ Holds raw a k v := by
  constructor
  · rintro ⟨p,hp,hm,hr⟩
    refine ⟨p,hc.wrote p a k v hp,?_,?_⟩
    · intro q w hq
      rcases hc.covered q a k w hq with ⟨r,x,hqr,hx⟩ | ⟨r,hqr,hx⟩
      · exact hqr.trans (hm r x hx)
      · exact hqr.trans (hr r hx).le
    · intro q hq
      obtain ⟨r,hqr,hx⟩ := hc.swept q a hq
      exact hqr.trans_lt (hr r hx)
  · rintro ⟨p,hp,hm,hr⟩
    refine ⟨p,?_,fun q w hq => hm q w (hc.wrote q a k w hq),fun q hq => hr q (hc.wiped q a hq)⟩
    rcases hc.covered p a k v hp with ⟨q,w,hpq,hw⟩ | ⟨q,hpq,hw⟩
    · have hraw := hc.wrote q a k w hw
      obtain rfl : p = q := le_antisymm hpq (hm q w hraw)
      exact hf p a k v w hp hraw ▸ hw
    · exact absurd (hr q (hc.wiped q a hw)) (not_lt.mpr hpq)

theorem functional_of_collapses {h raw : History P A K V} (hc : Collapses h raw)
    (hf : Functional raw) : Functional h := fun p a k v w hv hw =>
  hf p a k v w (hc.wrote p a k v hv) (hc.wrote p a k w hw)

/-- The history under other names for accounts, keys and values. -/
def image {A' K' V' : Type*} (f : A → A') (g : K → K') (t : V → V') (h : History P A K V) :
    History P A' K' V' where
  wrote p a k v := ∃ b j w, f b = a ∧ g j = k ∧ t w = v ∧ h.wrote p b j w
  wiped p a := ∃ b, f b = a ∧ h.wiped p b

theorem holds_image {A' K' V' : Type*} {f : A → A'} {g : K → K'} (hf : f.Injective)
    (hg : g.Injective) (t : V → V') (h : History P A K V) (a : A') (k : K') (v : V') :
    Holds (image f g t h) a k v ↔ ∃ b j w, f b = a ∧ g j = k ∧ t w = v ∧ Holds h b j w := by
  constructor
  · rintro ⟨p,⟨b,j,w,rfl,rfl,rfl,hp⟩,hm,hr⟩
    exact ⟨b,j,w,rfl,rfl,rfl,p,hp,fun q x hq => hm q (t x) ⟨b,j,x,rfl,rfl,rfl,hq⟩,
      fun q hq => hr q ⟨b,rfl,hq⟩⟩
  · rintro ⟨b,j,w,rfl,rfl,rfl,p,hp,hm,hr⟩
    refine ⟨p,⟨b,j,w,rfl,rfl,rfl,hp⟩,?_,?_⟩
    · rintro q x ⟨b',j',w',hb,hj,-,hq⟩
      obtain rfl := hf hb
      obtain rfl := hg hj
      exact hm q w' hq
    · rintro q ⟨b',hb,hq⟩
      obtain rfl := hf hb
      exact hr q hq

omit [LinearOrder P] in
theorem functional_image {A' K' V' : Type*} {f : A → A'} {g : K → K'} (hf : f.Injective)
    (hg : g.Injective) (t : V → V') {h : History P A K V} (hh : Functional h) :
    Functional (image f g t h) := by
  rintro p a k v w ⟨b,j,x,rfl,rfl,rfl,hx⟩ ⟨b',j',y,hb,hj,rfl,hy⟩
  obtain rfl := hf hb
  obtain rfl := hg hj
  rw [hh p _ _ x y hx hy]

end Values

section Stack
variable {N O B C : Type*} [LinearOrder N] [LinearOrder O]

/-- Blocks with histories of their own, each at its number. -/
def stack (num : B → N) (h : B → History O A K V) (l : List B) : History (N ×ₗ O) A K V where
  wrote p a k v := ∃ b ∈ l, num b = (ofLex p).1 ∧ (h b).wrote (ofLex p).2 a k v
  wiped p a := ∃ b ∈ l, num b = (ofLex p).1 ∧ (h b).wiped (ofLex p).2 a

omit [LinearOrder N] [LinearOrder O] in
theorem exists_related {R : B → C → Prop} {l : List B} {m : List C} (h : List.Forall₂ R l m) :
    (∀ b ∈ l, ∃ c ∈ m, R b c) ∧ ∀ c ∈ m, ∃ b ∈ l, R b c := by
  induction h with
  | nil => simp
  | cons hr _ ih =>
    refine ⟨?_,?_⟩
    · intro b hb
      rcases List.mem_cons.mp hb with rfl | hb
      · exact ⟨_,List.mem_cons_self,hr⟩
      · obtain ⟨c,hc,hbc⟩ := ih.1 b hb
        exact ⟨c,List.mem_cons_of_mem _ hc,hbc⟩
    · intro c hc
      rcases List.mem_cons.mp hc with rfl | hc
      · exact ⟨_,List.mem_cons_self,hr⟩
      · obtain ⟨b,hb,hbc⟩ := ih.2 c hc
        exact ⟨b,List.mem_cons_of_mem _ hb,hbc⟩

theorem le_of_snd {p q : N ×ₗ O} (h1 : (ofLex p).1 = (ofLex q).1)
    (h2 : (ofLex p).2 ≤ (ofLex q).2) : p ≤ q := Prod.Lex.le_iff.mpr (Or.inr ⟨h1,h2⟩)

/-- Blocks that collapse one by one collapse as a whole. -/
theorem stack_collapses {num : B → N} {num' : C → N} {h : B → History O A K V}
    {g : C → History O A K V} {l : List B} {m : List C}
    (hlm : List.Forall₂ (fun b c => num b = num' c ∧ Collapses (h b) (g c)) l m) :
    Collapses (stack num h l) (stack num' g m) := by
  obtain ⟨hl,hm⟩ := exists_related hlm
  refine ⟨?_,?_,?_,?_⟩
  · rintro p a k v ⟨b,hb,hn,hw⟩
    obtain ⟨c,hc,hbc,hcol⟩ := hl b hb
    exact ⟨c,hc,hbc ▸ hn,hcol.wrote _ a k v hw⟩
  · rintro p a ⟨b,hb,hn,hw⟩
    obtain ⟨c,hc,hbc,hcol⟩ := hl b hb
    exact ⟨c,hc,hbc ▸ hn,hcol.wiped _ a hw⟩
  · rintro p a k v ⟨c,hc,hn,hw⟩
    obtain ⟨b,hb,hbc,hcol⟩ := hm c hc
    rcases hcol.covered _ a k v hw with ⟨q,w,hq,hw⟩ | ⟨q,hq,hw⟩
    · exact Or.inl ⟨toLex ((ofLex p).1,q),w,le_of_snd rfl hq,b,hb,hbc.trans hn,hw⟩
    · exact Or.inr ⟨toLex ((ofLex p).1,q),le_of_snd rfl hq,b,hb,hbc.trans hn,hw⟩
  · rintro p a ⟨c,hc,hn,hw⟩
    obtain ⟨b,hb,hbc,hcol⟩ := hm c hc
    obtain ⟨q,hq,hw⟩ := hcol.swept _ a hw
    exact ⟨toLex ((ofLex p).1,q),le_of_snd rfl hq,b,hb,hbc.trans hn,hw⟩

end Stack

inductive Change (A K V : Type*) where
  | write (a : A) (k : K) (v : V)
  | reset (a : A)
  deriving DecidableEq, Repr

section Replay
variable [DecidableEq A] [DecidableEq K]

def apply (s : A → K → Option V) : Change A K V → A → K → Option V
  | .write a k v => fun b j => if b = a ∧ j = k then some v else s b j
  | .reset a => fun b j => if b = a then none else s b j

def replay (s : A → K → Option V) (l : List (P × Change A K V)) : A → K → Option V :=
  l.foldl (fun s e => apply s e.2) s

theorem replay_append (s : A → K → Option V) (l m : List (P × Change A K V)) :
    replay s (l++m) = replay (replay s l) m := by
  simp [replay]

def ofList (l : List (P × Change A K V)) : History P A K V where
  wrote p a k v := (p,.write a k v) ∈ l
  wiped p a := (p,.reset a) ∈ l

omit [DecidableEq A] [DecidableEq K] in
theorem ofList_append (l m : List (P × Change A K V)) :
    ofList (l++m) = join (ofList l) (ofList m) := by
  simp [ofList, join]

/-- Two changes whose order matters: two values of one key, or a write and a
reset of one account. -/
def Clash : Change A K V → Change A K V → Prop
  | .write a k v, .write b j w => a = b ∧ k = j ∧ v ≠ w
  | .write a _ _, .reset b => a = b
  | .reset a, .write b _ _ => a = b
  | .reset _, .reset _ => False

omit [DecidableEq A] [DecidableEq K] in
theorem clash_symm {x y : Change A K V} (h : Clash x y) : Clash y x := by
  cases x <;> cases y <;> simp_all [Clash, ne_comm]

variable [LinearOrder P]

/-- Ascending positions, strictly so between changes that clash. -/
def Ordered (l : List (P × Change A K V)) : Prop :=
  l.Pairwise (fun x y => x.1 ≤ y.1 ∧ (Clash x.2 y.2 → x.1 < y.1))

omit [DecidableEq A] [DecidableEq K] in
theorem functional_ofList {l : List (P × Change A K V)} (ho : Ordered l) :
    Functional (ofList l) := by
  intro p a k v w hv hw
  by_contra hne
  let apart (x y : P × Change A K V) : Prop := Clash x.2 y.2 → x.1 ≠ y.1
  have hsymm : Std.Symm apart := ⟨fun _ _ h hc he => h (clash_symm hc) he.symm⟩
  have hl : l.Pairwise apart := ho.imp (fun h hc => (h.2 hc).ne)
  exact hl.forall hv hw (by simpa using hne) ⟨rfl,rfl,hne⟩ rfl

/-- The run of the fold. The induction is on the last change: it decides the
key it writes or wipes, and every other key keeps the value and the history
it had. -/
theorem replay_holds (s : A → K → Option V) (l : List (P × Change A K V)) (ho : Ordered l)
    (a : A) (k : K) (v : V) :
    replay s l a k = some v ↔
      Holds (ofList l) a k v ∨ (Untouched (ofList l) a k ∧ s a k = some v) := by
  induction l using List.reverseRecOn with
  | nil => simp [replay, Holds, Latest, Untouched, ofList]
  | append_singleton l e ih =>
    obtain ⟨hl,-,hlast⟩ := List.pairwise_append.mp ho
    have ih := ih hl
    obtain ⟨p,c⟩ := e
    have hle : ∀ x ∈ l, x.1 ≤ p ∧ (Clash x.2 c → x.1 < p) := fun x hx => hlast x hx (p,c) (by simp)
    rw [replay_append]
    cases c with
    | write b j w =>
      by_cases h : a = b ∧ k = j
      · obtain ⟨rfl,rfl⟩ := h
        have hnew : Latest (ofList (l++[(p,Change.write a k w)])) p a k w := by
          refine ⟨by simp [ofList],?_,?_⟩
          · intro q x hq
            rcases List.mem_append.mp hq with hq | hq
            · exact (hle _ hq).1
            · simp_all
          · intro q hq
            rcases List.mem_append.mp hq with hq | hq
            · exact (hle _ hq).2 rfl
            · simp_all
        have hval : ∀ x, Holds (ofList (l++[(p,Change.write a k w)])) a k x → x = w := by
          rintro x ⟨q,hq,hqm,-⟩
          rcases List.mem_append.mp hq with hq | hq
          · by_contra hx
            exact absurd (hqm p w hnew.1) (not_le.mpr ((hle _ hq).2 ⟨rfl,rfl,hx⟩))
          · simp_all
        simp only [replay, List.foldl_cons, List.foldl_nil, apply, and_self, if_true,
          Option.some.injEq]
        constructor
        · rintro rfl
          exact Or.inl ⟨p,hnew⟩
        · rintro (hx | ⟨hx,-⟩)
          · exact (hval v hx).symm
          · exact absurd hnew.1 (hx.1 p w)
      · have happ : replay (replay s l) [(p,Change.write b j w)] a k = replay s l a k := by
          simp [replay, apply, h]
        have hw : ∀ q x, (ofList (l++[(p,Change.write b j w)])).wrote q a k x ↔
            (ofList l).wrote q a k x := by
          intro q x
          simp only [ofList, List.mem_append, List.mem_singleton, Prod.mk.injEq, Change.write.injEq]
          tauto
        have hz : ∀ q, (ofList (l++[(p,Change.write b j w)])).wiped q a ↔
            (ofList l).wiped q a := by simp [ofList]
        rw [happ, ih]
        simp only [Holds, Latest, Untouched, hw, hz]
    | reset b =>
      by_cases h : a = b
      · subst h
        have hnone : replay (replay s l) [(p,Change.reset (K := K) (V := V) a)] a k = none := by
          simp [replay, apply]
        have hwiped : (ofList (l++[(p,Change.reset (K := K) (V := V) a)])).wiped p a := by
          simp [ofList]
        rw [hnone]
        constructor
        · simp
        · rintro (⟨q,hq,-,hqr⟩ | ⟨hu,-⟩)
          · have hq' : (q,Change.write a k v) ∈ l := by simpa [ofList] using hq
            exact absurd (hqr p hwiped) (not_lt.mpr (hle _ hq').1)
          · exact absurd hwiped (hu.2 p)
      · have happ : replay (replay s l) [(p,Change.reset (K := K) (V := V) b)] a k =
            replay s l a k := by
          simp [replay, apply, h]
        have hw : ∀ q x, (ofList (l++[(p,Change.reset (K := K) (V := V) b)])).wrote q a k x ↔
            (ofList l).wrote q a k x := by simp [ofList]
        have hz : ∀ q, (ofList (l++[(p,Change.reset (K := K) (V := V) b)])).wiped q a ↔
            (ofList l).wiped q a := by
          intro q
          simp only [ofList, List.mem_append, List.mem_singleton, Prod.mk.injEq, Change.reset.injEq]
          tauto
        rw [happ, ih]
        simp only [Holds, Latest, Untouched, hw, hz]

end Replay

end EvmState.Timeline
