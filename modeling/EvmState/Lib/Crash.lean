import EvmState.Lib.Fallible

/-!
# Programs with failing steps

A program works on a durable state. Each external step consumes one outcome
of a script: it succeeds, or it fails or the process dies and the program
ends with the state that its earlier steps left. A triple states what a run
ensures when it returns and what holds in every state where it can stop.
-/

set_option autoImplicit false

namespace EvmState.Crash
open EvmState.Fallible

structure Host (σ : Type) where
  state : σ
  /-- The outcomes of the steps to come; a missing one is a success. -/
  script : List (Option String)

abbrev Prog (σ α : Type) := EStateM String (Host σ) α

section Steps
variable {σ α β : Type}

def next : Prog σ Unit := fun h =>
  match h.script with
  | some e::rest => .error e ⟨h.state,rest⟩
  | none::rest => .ok () ⟨h.state,rest⟩
  | [] => .ok () h

def perform (f : σ → σ) : Prog σ Unit := do
  next
  modify (fun h => ⟨f h.state,h.script⟩)

def query (g : σ → Except String α) : Prog σ α := do
  next
  let h ← get
  match g h.state with
  | .ok a => return a
  | .error e => throw e

def check (x : Except String α) : Prog σ α :=
  match x with
  | .ok a => return a
  | .error e => throw e

/-- From a state with `P`, a run that returns ends in a state with `Q`, and a
run that stops earlier leaves a state with `C`. -/
def Triple (P : σ → Prop) (p : Prog σ α) (Q : α → σ → Prop) (C : σ → Prop) : Prop :=
  ∀ h, P h.state → match p h with
    | .ok a h' => Q a h'.state
    | .error _ h' => C h'.state

variable {P P' : σ → Prop} {Q Q' : α → σ → Prop} {C C' : σ → Prop}

theorem Triple.ok {p : Prog σ α} (ht : Triple P p Q C) {h h' : Host σ} {a : α}
    (hp : P h.state) (hr : p h = .ok a h') : Q a h'.state := by
  have := ht h hp
  rwa [hr] at this

theorem Triple.error {p : Prog σ α} (ht : Triple P p Q C) {h h' : Host σ} {e : String}
    (hp : P h.state) (hr : p h = .error e h') : C h'.state := by
  have := ht h hp
  rwa [hr] at this

theorem Triple.weaken {p : Prog σ α} (ht : Triple P p Q C) (hP : ∀ s, P' s → P s)
    (hQ : ∀ a s, Q a s → Q' a s) (hC : ∀ s, C s → C' s) : Triple P' p Q' C' := by
  intro h hp
  have := ht h (hP _ hp)
  cases hr : p h with
  | ok a h' => exact hQ a _ (by simpa [hr] using this)
  | error e h' => exact hC _ (by simpa [hr] using this)

theorem Triple.and {p : Prog σ α} (ht : Triple P p Q C) (ht' : Triple P p Q' C') :
    Triple P p (fun a s => Q a s ∧ Q' a s) (fun s => C s ∧ C' s) := by
  intro h hp
  have := ht h hp
  have := ht' h hp
  cases hr : p h <;> simp_all

theorem triple_trivial (P : σ → Prop) (p : Prog σ α) :
    Triple P p (fun _ _ => True) (fun _ => True) := by
  intro h _
  cases p h <;> trivial

theorem triple_pure (a : α) (hQ : ∀ s, P s → Q a s) : Triple P (pure a : Prog σ α) Q C :=
  fun _ hp => hQ _ hp

theorem triple_bind {p : Prog σ α} {f : α → Prog σ β} {M : α → σ → Prop} {R : β → σ → Prop}
    (hp : Triple P p M C) (hf : ∀ a, Triple (M a) (f a) R C) : Triple P (p >>= f) R C := by
  intro h hP
  have hph := hp h hP
  show match EStateM.bind p f h with | .ok b h' => R b h'.state | .error _ h' => C h'.state
  unfold EStateM.bind
  cases hr : p h with
  | ok a h' => exact hf a h' (by simpa [hr] using hph)
  | error e h' => simpa [hr] using hph

theorem triple_next (hC : ∀ s, P s → C s) : Triple P next (fun _ => P) C := by
  intro h hP
  unfold next
  cases hs : h.script with
  | nil => exact hP
  | cons o rest =>
    cases o with
    | none => exact hP
    | some e => exact hC _ hP

/-- The step may not happen; when it happens it is complete. -/
theorem triple_perform {f : σ → σ} {R : Unit → σ → Prop} (hQ : ∀ s, P s → R () (f s))
    (hC : ∀ s, P s → C s) : Triple P (perform f) R C :=
  triple_bind (triple_next hC) (fun _ _ hP => hQ _ hP)

theorem triple_query {g : σ → Except String α} (hQ : ∀ s a, P s → g s = .ok a → Q a s)
    (hC : ∀ s, P s → C s) : Triple P (query g) Q C := by
  refine triple_bind (triple_next hC) (fun _ h hP => ?_)
  show match (match g h.state with
    | .ok a => (pure a : Prog σ α)
    | .error e => throw e) h with | .ok a h' => Q a h'.state | .error _ h' => C h'.state
  cases hg : g h.state with
  | ok a => exact hQ _ a hP hg
  | error e => exact hC _ hP

theorem triple_check {x : Except String α} (hQ : ∀ s a, P s → x = .ok a → Q a s)
    (hC : ∀ s, P s → C s) : Triple P (check x) Q C := by
  intro h hP
  cases x with
  | ok a => exact hQ _ a hP rfl
  | error e => exact hC _ hP

theorem triple_from {p : Prog σ α} (hf : ∀ s, P s → Triple (fun t => t = s) p Q C) :
    Triple P p Q C := fun h hP => hf h.state hP h rfl

/-- A check says what it found to the rest of the program. -/
theorem triple_check_then {x : Except String α} {f : α → Prog σ β} {R : β → σ → Prop}
    (hC : ∀ s, P s → C s) (hf : ∀ a, x = .ok a → Triple P (f a) R C) :
    Triple P (check x >>= f) R C := by
  refine triple_bind (M := fun a s => P s ∧ x = .ok a)
    (triple_check (fun s a hP hx => ⟨hP,hx⟩) hC) (fun a h hM => hf a hM.2 h hM.1)

theorem triple_query_then {g : σ → Except String α} {f : α → Prog σ β} {R : β → σ → Prop}
    (hC : ∀ s, P s → C s) (hf : ∀ s a, P s → g s = .ok a → Triple (fun t => t = s) (f a) R C) :
    Triple P (query g >>= f) R C := by
  refine triple_bind (M := fun a s => P s ∧ g s = .ok a)
    (triple_query (fun s a hP hg => ⟨hP,hg⟩) hC) (fun a h hM => hf h.state a hM.1 hM.2 h rfl)

theorem triple_next_then {f : Unit → Prog σ β} {R : β → σ → Prop} (hC : ∀ s, P s → C s)
    (hf : Triple P (f ()) R C) : Triple P (next >>= f) R C :=
  triple_bind (triple_next hC) (fun _ => hf)

theorem triple_perform_then {g : σ → σ} {f : Unit → Prog σ β} {R : β → σ → Prop}
    (hC : ∀ s, P s → C s) (hf : ∀ s, P s → Triple (fun t => t = g s) (f ()) R C) :
    Triple P (perform g >>= f) R C := by
  refine triple_bind (M := fun _ t => ∃ s, P s ∧ t = g s)
    (triple_perform (fun s hP => ⟨s,hP,rfl⟩) hC) (fun _ h hM => ?_)
  obtain ⟨s,hP,ht⟩ := hM
  exact hf s hP h ht

theorem triple_forM {l : List α} {f : α → Prog σ Unit}
    (hf : ∀ a ∈ l, Triple P (f a) (fun _ => P) C) : Triple P (l.forM f) (fun _ => P) C := by
  induction l with
  | nil => exact triple_pure () (fun _ hP => hP)
  | cons a l ih =>
    exact triple_bind (hf a (by simp)) (fun _ => ih (fun b hb => hf b (by simp [hb])))

/-- A check that is known to succeed is no step. -/
theorem triple_ready {x : Except String α} {a : α} {f : α → Prog σ β} {R : β → σ → Prop}
    (hx : x = .ok a) (hf : Triple P (f a) R C) : Triple P (check x >>= f) R C := by
  subst hx
  exact fun h hP => hf h hP

/-- The outcome of a program, whose state survives its failure. -/
def attempt (p : Prog σ α) : Prog σ (Except String α) := fun h =>
  match p h with
  | .ok a h' => .ok (.ok a) h'
  | .error e h' => .ok (.error e) h'

theorem triple_attempt {p : Prog σ α} {K : σ → Prop} (hp : Triple P p Q C) :
    Triple P (attempt p) (fun r s => match r with
      | .ok a => Q a s
      | .error _ => C s) K := by
  intro h hP
  have hph := hp h hP
  unfold attempt
  cases hr : p h with
  | ok a h' => simpa [hr] using hph
  | error e h' => simpa [hr] using hph

section Within
variable {η : Type} {l : η}

/-- A program on the first part of a state. -/
def within (p : Prog σ α) : Prog (σ × η) α := fun h =>
  match p ⟨h.state.1,h.script⟩ with
  | .ok a h' => .ok a ⟨(h'.state,h.state.2),h'.script⟩
  | .error e h' => .error e ⟨(h'.state,h.state.2),h'.script⟩

theorem triple_within {p : Prog σ α} (hp : Triple P p Q C) :
    Triple (fun s : σ × η => P s.1 ∧ s.2 = l) (within p) (fun a s => Q a s.1 ∧ s.2 = l)
      (fun s => C s.1 ∧ s.2 = l) := by
  rintro h ⟨hP,hl⟩
  have hph := hp ⟨h.state.1,h.script⟩ hP
  unfold within
  cases hr : p ⟨h.state.1,h.script⟩ with
  | ok a h' =>
    rw [hr] at hph
    exact ⟨hph,hl⟩
  | error e h' =>
    rw [hr] at hph
    exact ⟨hph,hl⟩

theorem within_ok {p : Prog σ α} {h : Host (σ × η)} {a : α} {h' : Host σ}
    (hp : p ⟨h.state.1,h.script⟩ = .ok a h') :
    within p h = .ok a ⟨(h'.state,h.state.2),h'.script⟩ := by
  unfold within
  rw [hp]

theorem within_returned {p : Prog σ α} {h : Host (σ × η)} {a : α} {h' : Host (σ × η)}
    (hp : within p h = .ok a h') :
    ∃ h₁, p ⟨h.state.1,h.script⟩ = .ok a h₁ ∧ h' = ⟨(h₁.state,h.state.2),h₁.script⟩ := by
  unfold within at hp
  cases hr : p ⟨h.state.1,h.script⟩ with
  | ok b h₁ =>
    rw [hr] at hp
    cases hp
    exact ⟨h₁,rfl,rfl⟩
  | error e h₁ =>
    rw [hr] at hp
    cases hp

end Within

/-!
What a program that returns has gone through.
-/

theorem prog_bind_ok {p : Prog σ α} {f : α → Prog σ β} {h h'' : Host σ} {b : β}
    (hb : (p >>= f) h = .ok b h'') : ∃ a h', p h = .ok a h' ∧ f a h' = .ok b h'' := by
  change EStateM.bind p f h = .ok b h'' at hb
  unfold EStateM.bind at hb
  cases hp : p h with
  | ok a h' => exact ⟨a,h',rfl,by simpa [hp] using hb⟩
  | error e h' => simp [hp] at hb

theorem prog_bind_returns {p : Prog σ α} {f : α → Prog σ β} {h h' : Host σ} {a : α}
    (hp : p h = .ok a h') : (p >>= f) h = f a h' := by
  show EStateM.bind p f h = _
  unfold EStateM.bind
  rw [hp]

theorem check_returned {x : Except String α} {a : α} {h h' : Host σ} (hc : check x h = .ok a h') :
    h' = h := by
  cases x with
  | ok b =>
    cases hc
    rfl
  | error e => cases hc

def ends (p : Prog σ α) (h : Host σ) : σ :=
  match p h with
  | .ok _ h' => h'.state
  | .error _ h' => h'.state

theorem Triple.ends {p : Prog σ α} (ht : Triple P p (fun _ => C) C) {h : Host σ} (hp : P h.state) :
    C (ends p h) := by
  have := ht h hp
  unfold Crash.ends
  cases hr : p h <;> simpa [hr] using this

def returns (p : Prog σ α) (h : Host σ) : Bool :=
  match p h with
  | .ok _ _ => true
  | .error _ _ => false

theorem returns_ok {p : Prog σ α} {h : Host σ} (hr : returns p h = true) :
    ∃ a h', p h = .ok a h' := by
  unfold returns at hr
  split at hr
  · exact ⟨_,_,‹_›⟩
  · cases hr

def Runs (p : Prog σ α) (s : σ) (a : α) (t : σ) : Prop := p ⟨s,[]⟩ = .ok a ⟨t,[]⟩

section Runs
variable {s t u : σ} {a : α} {b : β}

theorem runs_pure (a : α) (s : σ) : Runs (pure a) s a s := rfl

theorem runs_bind {p : Prog σ α} {f : α → Prog σ β} (hp : Runs p s a t) (hf : Runs (f a) t b u) :
    Runs (p >>= f) s b u := by
  show EStateM.bind p f ⟨s,[]⟩ = _
  unfold EStateM.bind
  rw [hp]
  exact hf

theorem runs_next {f : Unit → Prog σ β} (hf : Runs (f ()) s b u) : Runs (next >>= f) s b u :=
  @runs_bind _ _ _ s s u () b next f rfl hf

theorem runs_check {x : Except String α} {f : α → Prog σ β} (hx : x = .ok a)
    (hf : Runs (f a) s b u) : Runs (check x >>= f) s b u := by
  subst hx
  exact @runs_bind _ _ _ s s u a b _ f rfl hf

theorem runs_ensure {c : Prop} [Decidable c] {e : String} {f : Unit → Prog σ β} (hc : c)
    (hf : Runs (f ()) s b u) : Runs (check (ensure c e) >>= f) s b u :=
  runs_check (ensure_ok.mpr hc) hf

theorem runs_query {g : σ → Except String α} {f : α → Prog σ β} (hg : g s = .ok a)
    (hf : Runs (f a) s b u) : Runs (query g >>= f) s b u := by
  refine runs_bind (t := s) (a := a) ?_ hf
  show (match g s with
    | .ok a => (pure a : Prog σ α)
    | .error e => throw e) ⟨s,[]⟩ = _
  rw [hg]
  rfl

theorem runs_perform {g : σ → σ} {f : Unit → Prog σ β} (hf : Runs (f ()) (g s) b u) :
    Runs (perform g >>= f) s b u := @runs_bind _ _ _ s (g s) u () b (perform g) f rfl hf

end Runs
end Steps

/-!
## Named points

A program may name the points that it visits. Its faults say by name where it
dies, the steps themselves consume no script, and the first fault among the
visited points tells how a run ends.
-/

section Points
variable {σ α β ι : Type}

def arrive (faults : ι → Option String) (point : ι) : Prog σ Unit :=
  match faults point with
  | some e => throw e
  | none => return ()

def write (f : σ → σ) : Prog σ Unit := modify (fun h => ⟨f h.state,h.script⟩)

def read (g : σ → Except String α) : Prog σ α := do
  let h ← get
  check (g h.state)

def firstFault (faults : ι → Option String) (points : List ι) : Option ι :=
  points.find? (fun p => (faults p).isSome)

/-- From a state with `P` the program visits the points in order. It returns
with `Q` when none of them is a fault, and dies at the first one that is, in a
state that `C` allows there. -/
def Visits (faults : ι → Option String) (points : List ι) (C : ι → σ → Prop) (P : σ → Prop)
    (p : Prog σ α) (Q : α → σ → Prop) : Prop :=
  Triple P p (fun a s => firstFault faults points = none ∧ Q a s)
    (fun s => ∃ point, firstFault faults points = some point ∧ C point s)

variable {faults : ι → Option String} {points more : List ι} {point : ι} {C C' : ι → σ → Prop}
  {P P' : σ → Prop} {Q Q' : α → σ → Prop}

theorem firstFault_append : firstFault faults (points++more) =
    (firstFault faults points).or (firstFault faults more) := List.find?_append

theorem Visits.returns {p : Prog σ α} (hv : Visits faults points C P p Q) {h : Host σ}
    (hP : P h.state) (hf : firstFault faults points = none) :
    ∃ a h', p h = .ok a h' ∧ Q a h'.state := by
  have := hv h hP
  cases hr : p h with
  | ok a h' =>
    rw [hr] at this
    exact ⟨a,h',rfl,this.2⟩
  | error e h' =>
    rw [hr] at this
    obtain ⟨q,hq,-⟩ := this
    rw [hf] at hq
    cases hq

theorem Visits.dies {p : Prog σ α} (hv : Visits faults points C P p Q) {h : Host σ}
    (hP : P h.state) (hf : firstFault faults points = some point) :
    ∃ e h', p h = .error e h' ∧ C point h'.state := by
  have := hv h hP
  cases hr : p h with
  | ok a h' =>
    rw [hr] at this
    rw [this.1] at hf
    cases hf
  | error e h' =>
    rw [hr] at this
    obtain ⟨q,hq,hc⟩ := this
    obtain rfl := Option.some.inj (hf.symm.trans hq)
    exact ⟨e,h',rfl,hc⟩

theorem Visits.weaken {p : Prog σ α} (hv : Visits faults points C P p Q) (hP : ∀ s, P' s → P s)
    (hQ : ∀ a s, Q a s → Q' a s) : Visits faults points C P' p Q' :=
  Triple.weaken hv hP (fun a s h => ⟨h.1,hQ a s h.2⟩) (fun _ h => h)

theorem visits_of {p : Prog σ α} (hv : ∀ s, P s → Visits faults points C (fun t => t = s) p Q) :
    Visits faults points C P p Q := fun h hP => hv h.state hP h rfl

theorem visits_pure (a : α) (hQ : ∀ s, P s → Q a s) :
    Visits faults [] C P (pure a : Prog σ α) Q := triple_pure a (fun s h => ⟨rfl,hQ s h⟩)

theorem visits_bind {p : Prog σ α} {f : α → Prog σ β} {M : α → σ → Prop} {R : β → σ → Prop}
    (hp : Visits faults points C P p M) (hf : ∀ a, Visits faults more C (M a) (f a) R) :
    Visits faults (points++more) C P (p >>= f) R := by
  refine triple_bind (M := fun a s => firstFault faults points = none ∧ M a s)
    (Triple.weaken hp (fun _ h => h) (fun _ _ h => h) (fun s h => ?_)) (fun a h hM => ?_)
  · obtain ⟨q,hq,hc⟩ := h
    exact ⟨q,by rw [firstFault_append, hq]; rfl,hc⟩
  · have ht := hf a h hM.2
    cases hr : f a h with
    | ok b h' =>
      rw [hr] at ht
      exact ⟨by rw [firstFault_append, hM.1, ht.1]; rfl,ht.2⟩
    | error e h' =>
      rw [hr] at ht
      obtain ⟨q,hq,hc⟩ := ht
      exact ⟨q,by rw [firstFault_append, hM.1, hq]; rfl,hc⟩

theorem visits_arrive (hC : ∀ s, P s → C point s) :
    Visits faults [point] C P (arrive faults point) (fun _ => P) := by
  intro h hP
  unfold arrive
  cases hf : faults point with
  | none => exact ⟨by simp [firstFault, hf],hP⟩
  | some e => exact ⟨point,by simp [firstFault, hf],hC _ hP⟩

theorem visits_point {k : Unit → Prog σ β} {R : β → σ → Prop} (hC : ∀ s, P s → C point s)
    (hk : Visits faults points C P (k ()) R) :
    Visits faults (point::points) C P (arrive faults point >>= k) R :=
  visits_bind (visits_arrive hC) (fun _ => hk)

theorem visits_step {p : Prog σ α} {f : α → Prog σ β} {M : α → σ → Prop} {R : β → σ → Prop}
    (hp : Visits faults [] C P p M) (hf : ∀ a, Visits faults points C (M a) (f a) R) :
    Visits faults points C P (p >>= f) R := visits_bind hp hf

theorem visits_seq {p : Prog σ α} {f : α → Prog σ β} {M : α → σ → Prop} {R : β → σ → Prop}
    {all : List ι} (hp : Visits faults points C P p M)
    (hf : ∀ a, Visits faults more C (M a) (f a) R) (he : points++more = all) :
    Visits faults all C P (p >>= f) R := he ▸ visits_bind hp hf

theorem visits_last {p : Prog σ α} {f : α → Prog σ β} {M : α → σ → Prop} {R : β → σ → Prop}
    (hp : Visits faults points C P p M) (hf : ∀ a, Visits faults [] C (M a) (f a) R) :
    Visits faults points C P (p >>= f) R := by
  have h := visits_bind hp hf
  rwa [List.append_nil] at h

theorem visits_write {f : σ → σ} {R : Unit → σ → Prop} (hQ : ∀ s, P s → R () (f s)) :
    Visits faults [] C P (write f) R := fun h hP => ⟨rfl,hQ h.state hP⟩

/-- What the program reads or checks on its way is as it expects it. -/
theorem visits_read {g : σ → Except String α} (hg : ∀ s, P s → ∃ a, g s = .ok a ∧ Q a s) :
    Visits faults [] C P (read g) Q := by
  intro h hP
  obtain ⟨a,ha,hq⟩ := hg h.state hP
  have hr : read g h = .ok a h := by
    show check (g h.state) h = _
    rw [ha]
    rfl
  rw [hr]
  exact ⟨rfl,hq⟩

theorem visits_check {x : Except String α} (hx : ∀ s, P s → ∃ a, x = .ok a ∧ Q a s) :
    Visits faults [] C P (check x) Q := by
  intro h hP
  obtain ⟨a,rfl,hq⟩ := hx h.state hP
  exact ⟨rfl,hq⟩

theorem triple_arrive {K : σ → Prop} {R : Unit → σ → Prop} (hQ : ∀ s, P s → R () s)
    (hC : ∀ s, P s → K s) : Triple P (arrive faults point) R K := by
  intro h hP
  unfold arrive
  cases hf : faults point with
  | none => exact hQ _ hP
  | some e => exact hC _ hP

theorem triple_write {K : σ → Prop} {f : σ → σ} {R : Unit → σ → Prop}
    (hQ : ∀ s, P s → R () (f s)) : Triple P (write f) R K := fun h hP => hQ h.state hP

theorem triple_read {K : σ → Prop} {g : σ → Except String α}
    (hQ : ∀ s a, P s → g s = .ok a → Q a s) (hC : ∀ s, P s → K s) : Triple P (read g) Q K := by
  intro h hP
  show match check (g h.state) h with | .ok a h' => Q a h'.state | .error _ h' => K h'.state
  cases hg : g h.state with
  | ok a => exact hQ _ a hP hg
  | error e => exact hC _ hP

end Points
end EvmState.Crash
