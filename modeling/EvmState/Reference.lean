import EvmState.Collect
import EvmState.Lifecycle
import EvmState.Lib.Timeline

/-!
# The reference state

The meaning of a chain of blocks, without rows or queries: every persisted
change of a selected account is applied in execution order, and an account
deletion at transaction end wipes its slots, balance, nonce and code.
-/

set_option autoImplicit false

namespace EvmState.Reference
open EvmState.Hex EvmState.Params EvmState.Timeline

inductive Kind where
  | storage
  | balance
  | nonce
  | code
  | delete
  deriving DecidableEq, Repr

inductive Effect where
  | storage (account slot value : Bytes)
  | balance (account : Bytes) (value : ℕ)
  | nonce (account : Bytes) (value : ℕ)
  | code (account hash code : Bytes)
  | delete (account : Bytes)
  deriving DecidableEq, Repr

def Effect.account : Effect → Bytes
  | .storage a _ _ | .balance a _ | .nonce a _ | .code a _ _ | .delete a => a

def Effect.kind : Effect → Kind
  | .storage .. => .storage
  | .balance .. => .balance
  | .nonce .. => .nonce
  | .code .. => .code
  | .delete .. => .delete

def zeroWord : Bytes := List.replicate 32 0

def emptyHash : Bytes :=
  [0xc5,0xd2,0x46,0x01,0x86,0xf7,0x23,0x3c,0x92,0x7e,0x7d,0xb2,0xdc,0xc7,0x03,0xc0,
    0xe5,0x00,0xb6,0x53,0xca,0x82,0x27,0x3b,0x7b,0xfa,0xd8,0x04,0x5d,0x85,0xa4,0x70]

/-- The state that a walk computes. A field that was never written or wiped
is absent, and a slot that was never written is zero. -/
structure World where
  slots : Bytes → Bytes → Bytes
  balance : Bytes → Option ℕ
  nonce : Bytes → Option ℕ
  code : Bytes → Option (Bytes × Bytes)

namespace World

def initial : World := ⟨fun _ _ => zeroWord,fun _ => none,fun _ => none,fun _ => none⟩

def wipe (w : World) (a : Bytes) : World where
  slots := Function.update w.slots a (fun _ => zeroWord)
  balance := Function.update w.balance a (some 0)
  nonce := Function.update w.nonce a (some 0)
  code := Function.update w.code a (some (emptyHash,[]))

def apply (w : World) : Effect → World
  | .storage a k v => { w with slots := Function.update w.slots a (Function.update (w.slots a) k v) }
  | .balance a v => { w with balance := Function.update w.balance a (some v) }
  | .nonce a v => { w with nonce := Function.update w.nonce a (some v) }
  | .code a h c => { w with code := Function.update w.code a (some (h,c)) }
  | .delete a => w.wipe a

end World

def walk (w : World) (es : List Effect) : World := es.foldl World.apply w

/-- A storage word is the bytes on the left of which zeros complete it. -/
def pad (b : Bytes) : Bytes := b.leftpad 32 0

def effectOf : Persist.Record → ℕ × Effect
  | .storage c _ => (c.ordinal,.storage c.address (pad c.key) (pad c.newValue))
  | .balance c _ => (c.ordinal,.balance c.address (Collect.balanceValue c.newValue))
  | .nonce c _ => (c.ordinal,.nonce c.address c.newValue)
  | .code c _ => (c.ordinal,.code c.address (if c.newHash.isEmpty then emptyHash else c.newHash) c.newCode)

def deletionEffect (d : Bytes × ℕ) : ℕ × Effect := (d.2,.delete d.1)

def timestamp (block : Eth.Block) : ℕ := (Collect.blockInfo block).timestamp

/-- Everything that happens to accounts in a block, in no order. -/
def occurrences (records : List Persist.Record) (block : Eth.Block) : List (ℕ × Effect) :=
  records.map effectOf ++ (Lifecycle.deletionEvents block (timestamp block)).map deletionEffect

/-- What happens to the selected accounts of a block, by ordinal. -/
def events (filter : Filter) (records : List Persist.Record) (block : Eth.Block) :
    List (ℕ × Effect) :=
  Collect.sortByOrdinal Prod.fst
    ((occurrences records block).filter (fun e => filter.matchesAccount e.2.account))

def blockEvents (filter : Filter) (block : Eth.Block) : List (ℕ × Effect) :=
  match Persist.collectBlock block with
  | .ok records => events filter records block
  | .error _ => []

def walkBlock (filter : Filter) (w : World) (block : Eth.Block) : World :=
  walk w ((blockEvents filter block).map Prod.snd)

def walkChain (filter : Filter) (blocks : List Eth.Block) : World :=
  blocks.foldl (walkBlock filter) World.initial

/-- Changes of one kind, or a change and a deletion: their order matters. -/
def Conflict (x y : Effect) : Prop :=
  (x.kind = y.kind ∧ x.kind ≠ .delete) ∨ (x.kind = .delete ∧ y.kind ≠ .delete) ∨
    (x.kind ≠ .delete ∧ y.kind = .delete)

/-- The ordinals of the persisted changes of one kind are pairwise distinct
and none is the ordinal of a deletion. -/
def DistinctOrdinals (block : Eth.Block) : Prop :=
  match Persist.collectBlock block with
  | .ok records =>
    records.Pairwise (fun r s => (effectOf r).2.kind = (effectOf s).2.kind →
      (effectOf r).1 ≠ (effectOf s).1) ∧
    ∀ r ∈ records, ∀ d ∈ Lifecycle.deletionEvents block (timestamp block), (effectOf r).1 ≠ d.2
  | .error _ => True

instance (block : Eth.Block) : Decidable (DistinctOrdinals block) := by
  unfold DistinctOrdinals
  cases Persist.collectBlock block <;> infer_instance

/-- Each block is the successor of the one before. -/
def Contiguous (blocks : List Eth.Block) : Prop := blocks.IsChain (fun a b => b.number = a.number+1)

instance (blocks : List Eth.Block) : Decidable (Contiguous blocks) := by
  unfold Contiguous
  infer_instance

theorem conflict_symm {x y : Effect} (h : Conflict x y) : Conflict y x := by
  unfold Conflict at *
  rcases h with ⟨h,hd⟩ | h | h
  · exact Or.inl ⟨h.symm,h ▸ hd⟩
  · exact Or.inr (Or.inr ⟨h.2,h.1⟩)
  · exact Or.inr (Or.inl ⟨h.2,h.1⟩)

theorem record_not_delete (r : Persist.Record) : (effectOf r).2.kind ≠ .delete := by
  cases r <;> simp [effectOf, Effect.kind]

theorem occurrences_distinct {block : Eth.Block} {records : List Persist.Record}
    (hd : DistinctOrdinals block) (hr : Persist.collectBlock block = .ok records) :
    (occurrences records block).Pairwise (fun x y => Conflict x.2 y.2 → x.1 ≠ y.1) := by
  obtain ⟨hsame,hdel⟩ := by simpa only [DistinctOrdinals, hr] using hd
  refine List.pairwise_append.mpr ⟨?_,?_,?_⟩
  · refine List.pairwise_map.mpr (hsame.imp (fun {r s} h hc => h ?_))
    rcases hc with ⟨hc,-⟩ | ⟨hc,-⟩ | ⟨-,hc⟩
    · exact hc
    · exact absurd hc (record_not_delete r)
    · exact absurd hc (record_not_delete s)
  · refine List.pairwise_map.mpr (List.pairwise_of_forall (fun d e hc => ?_))
    simp [Conflict, deletionEffect, Effect.kind] at hc
  · intro x hx y hy _
    obtain ⟨r,hr,rfl⟩ := List.mem_map.mp hx
    obtain ⟨d,hd,rfl⟩ := List.mem_map.mp hy
    exact hdel r hr d hd

theorem events_ordered {filter : Filter} {block : Eth.Block} {records : List Persist.Record}
    (hd : DistinctOrdinals block) (hr : Persist.collectBlock block = .ok records) :
    (events filter records block).Pairwise
      (fun x y => x.1 ≤ y.1 ∧ (Conflict x.2 y.2 → x.1 < y.1)) := by
  have hsymm : Std.Symm (fun x y : ℕ × Effect => Conflict x.2 y.2 → x.1 ≠ y.1) :=
    ⟨fun _ _ h hc => (h (conflict_symm hc)).symm⟩
  have hperm := List.perm_insertionSort (fun a b : ℕ × Effect => a.1 ≤ b.1)
    ((occurrences records block).filter (fun e => filter.matchesAccount e.2.account))
  have hne : (events filter records block).Pairwise (fun x y => Conflict x.2 y.2 → x.1 ≠ y.1) :=
    (hperm.pairwise_iff (fun h => hsymm.symm _ _ h)).mpr ((occurrences_distinct hd hr).filter _)
  exact (Collect.sortByOrdinal_ordered Prod.fst _).imp₂
    (fun _ _ h hc => ⟨h,fun hx => lt_of_le_of_ne h (hc hx)⟩) hne

/-!
## One kind of change at a time

A view reads the changes of one kind out of the effects. The walk of the
state and the replay of the view agree on what the view shows.
-/

section View
variable {A K V : Type*} [DecidableEq A] [DecidableEq K] {P : Type*}

def view (f : Effect → Option (Change A K V)) (l : List (P × Effect)) : List (P × Change A K V) :=
  l.filterMap (fun e => (f e.2).map (Prod.mk e.1))

omit [DecidableEq A] [DecidableEq K] in
theorem mem_view {f : Effect → Option (Change A K V)} {l : List (P × Effect)} {p : P}
    {c : Change A K V} : (p,c) ∈ view f l ↔ ∃ e, (p,e) ∈ l ∧ f e = some c := by
  simp only [view, List.mem_filterMap, Option.map_eq_some_iff, Prod.mk.injEq, Prod.exists]
  constructor
  · rintro ⟨q,e,he,d,hd,rfl,rfl⟩
    exact ⟨e,he,hd⟩
  · rintro ⟨e,he,hd⟩
    exact ⟨p,e,he,c,hd,rfl,rfl⟩

/-- The step of the state and the step of its view keep `R`. -/
theorem walk_view {f : Effect → Option (Change A K V)} {R : World → (A → K → Option V) → Prop}
    (hstep : ∀ w s e, R w s → R (w.apply e) ((f e).elim s (Timeline.apply s)))
    (l : List (P × Effect)) {w : World} {s : A → K → Option V} (h : R w s) :
    R (walk w (l.map Prod.snd)) (replay s (view f l)) := by
  induction l generalizing w s with
  | nil => exact h
  | cons e l ih =>
    have he := ih (hstep w s e.2 h)
    cases hf : f e.2 with
    | none => simpa [view, walk, replay, hf] using he
    | some c => simpa [view, walk, replay, hf] using he

omit [DecidableEq A] [DecidableEq K] in
theorem view_ordered [LinearOrder P] {f : Effect → Option (Change A K V)} {l : List (P × Effect)}
    (hl : l.Pairwise (fun x y => x.1 ≤ y.1 ∧ (Conflict x.2 y.2 → x.1 < y.1)))
    (hf : ∀ x y c d, f x = some c → f y = some d → Clash c d → Conflict x y) :
    Ordered (view f l) := by
  refine List.Pairwise.filterMap _ ?_ hl
  rintro x y ⟨hle,hlt⟩ c hc d hd
  obtain ⟨c',hc',rfl⟩ := Option.map_eq_some_iff.mp hc
  obtain ⟨d',hd',rfl⟩ := Option.map_eq_some_iff.mp hd
  exact ⟨hle,fun h => hlt (hf _ _ _ _ hc' hd' h)⟩

end View

def storageView : Effect → Option (Change Bytes Bytes Bytes)
  | .storage a k v => some (.write a k v)
  | .delete a => some (.reset a)
  | _ => none

/-- For a field a deletion is one more write, of the field's empty value. -/
def fieldView {V : Type} (written : Effect → Option (Bytes × V)) (empty : V) :
    Effect → Option (Change Bytes Unit V)
  | .delete a => some (.write a () empty)
  | e => (written e).map (fun w => .write w.1 () w.2)

def writtenBalance : Effect → Option (Bytes × ℕ)
  | .balance a v => some (a,v)
  | _ => none

def writtenNonce : Effect → Option (Bytes × ℕ)
  | .nonce a v => some (a,v)
  | _ => none

def writtenCode : Effect → Option (Bytes × Bytes × Bytes)
  | .code a h c => some (a,h,c)
  | _ => none

def balanceView : Effect → Option (Change Bytes Unit ℕ) := fieldView writtenBalance 0

def nonceView : Effect → Option (Change Bytes Unit ℕ) := fieldView writtenNonce 0

def codeView : Effect → Option (Change Bytes Unit (Bytes × Bytes)) :=
  fieldView writtenCode (emptyHash,[])

theorem storageView_step (w : World) (s : Bytes → Bytes → Option Bytes) (e : Effect)
    (h : ∀ a k, w.slots a k = (s a k).getD zeroWord) (a k : Bytes) :
    (w.apply e).slots a k = (((storageView e).elim s (Timeline.apply s)) a k).getD zeroWord := by
  cases e with
  | storage b j v =>
    by_cases hb : a = b
    · subst hb
      by_cases hj : k = j <;> simp [World.apply, storageView, Timeline.apply, hj, h]
    · simp [World.apply, storageView, Timeline.apply, hb, h]
  | delete b =>
    by_cases hb : a = b <;> simp [World.apply, World.wipe, storageView, Timeline.apply, hb, h]
  | _ => exact h a k

/-- The state keeps a field as a view of single writes shows it. -/
def Reads {V : Type} (f : Effect → Option (Change Bytes Unit V)) (read : World → Bytes → Option V) :
    Prop :=
  ∀ w e, (f e = none ∧ read (w.apply e) = read w) ∨
    ∃ a v, f e = some (.write a () v) ∧ read (w.apply e) = Function.update (read w) a (some v)

theorem field_step {V : Type} {f : Effect → Option (Change Bytes Unit V)}
    {read : World → Bytes → Option V} (hf : Reads f read) (w : World)
    (s : Bytes → Unit → Option V) (e : Effect) (h : ∀ a, read w a = s a ()) (a : Bytes) :
    read (w.apply e) a = ((f e).elim s (Timeline.apply s)) a () := by
  rcases hf w e with ⟨hn,hr⟩ | ⟨b,v,hs,hr⟩
  · simp [hn, hr, h]
  · by_cases hb : a = b <;> simp [hs, hr, Timeline.apply, hb, h]

theorem balance_reads : Reads balanceView World.balance := by
  intro w e
  cases e with
  | balance a v => exact Or.inr ⟨a,v,rfl,rfl⟩
  | delete a => exact Or.inr ⟨a,0,rfl,rfl⟩
  | _ => exact Or.inl ⟨rfl,rfl⟩

theorem nonce_reads : Reads nonceView World.nonce := by
  intro w e
  cases e with
  | nonce a v => exact Or.inr ⟨a,v,rfl,rfl⟩
  | delete a => exact Or.inr ⟨a,0,rfl,rfl⟩
  | _ => exact Or.inl ⟨rfl,rfl⟩

theorem code_reads : Reads codeView World.code := by
  intro w e
  cases e with
  | code a h c => exact Or.inr ⟨a,(h,c),rfl,rfl⟩
  | delete a => exact Or.inr ⟨a,(emptyHash,[]),rfl,rfl⟩
  | _ => exact Or.inl ⟨rfl,rfl⟩

theorem storageView_clash (x y : Effect) (c d : Change Bytes Bytes Bytes)
    (hc : storageView x = some c) (hd : storageView y = some d) (h : Clash c d) : Conflict x y := by
  cases x <;> cases y <;> simp [storageView] at hc hd <;> subst hc hd <;>
    simp_all [Clash, Conflict, Effect.kind]

theorem fieldView_some {V : Type} {written : Effect → Option (Bytes × V)} {empty : V}
    {e : Effect} {c : Change Bytes Unit V} (h : fieldView written empty e = some c) :
    (∃ a, e = .delete a ∧ c = .write a () empty) ∨
      (e.kind ≠ .delete ∧ ∃ w, written e = some w ∧ c = .write w.1 () w.2) := by
  cases e with
  | delete a => exact Or.inl ⟨a,rfl,by simpa [fieldView] using h.symm⟩
  | _ =>
    obtain ⟨w,hw,rfl⟩ := Option.map_eq_some_iff.mp h
    exact Or.inr ⟨by simp [Effect.kind],w,hw,rfl⟩

theorem fieldView_clash {V : Type} {written : Effect → Option (Bytes × V)} {empty : V}
    {k : Kind} (hk : ∀ e w, written e = some w → e.kind = k) (x y : Effect)
    (c d : Change Bytes Unit V) (hc : fieldView written empty x = some c)
    (hd : fieldView written empty y = some d) (h : Clash c d) : Conflict x y := by
  rcases fieldView_some hc with ⟨a,rfl,rfl⟩ | ⟨hx,u,hu,rfl⟩ <;>
    rcases fieldView_some hd with ⟨b,rfl,rfl⟩ | ⟨hy,v,hv,rfl⟩
  · simp [Clash] at h
  · exact Or.inr (Or.inl ⟨rfl,hy⟩)
  · exact Or.inr (Or.inr ⟨hx,rfl⟩)
  · exact Or.inl ⟨(hk x u hu).trans (hk y v hv).symm,hx⟩

theorem writtenBalance_kind (e : Effect) (w : Bytes × ℕ) (h : writtenBalance e = some w) :
    e.kind = .balance := by
  cases e <;> simp_all [writtenBalance, Effect.kind]

theorem writtenNonce_kind (e : Effect) (w : Bytes × ℕ) (h : writtenNonce e = some w) :
    e.kind = .nonce := by
  cases e <;> simp_all [writtenNonce, Effect.kind]

theorem writtenCode_kind (e : Effect) (w : Bytes × Bytes × Bytes) (h : writtenCode e = some w) :
    e.kind = .code := by
  cases e <;> simp_all [writtenCode, Effect.kind]

end EvmState.Reference
