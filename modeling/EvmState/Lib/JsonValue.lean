import EvmState.Lib.JsonText

/-!
# Values and the texts that are read as them

An object may be written in any order: its value keeps the last field of every
key, in key order. Blanks may stand between the tokens of a text. Values of
whole numbers that are not nested too deep are those that every parser keeps.
-/

set_option autoImplicit false

namespace EvmState.Json
open EvmState.OrderedMap

mutual
def value : Json → Json
  | .null => .null
  | .bool b => .bool b
  | .num t => .num t
  | .str s => .str s
  | .arr l => .arr (valueItems l)
  | .obj l => ofPairs (valueFields l)

def valueItems : List Json → List Json
  | [] => []
  | a::l => a.value::valueItems l

def valueFields : List (String × Json) → List (String × Json)
  | [] => []
  | (k,a)::l => (k,a.value)::valueFields l
end

/-- A value as it is stored, with sorted maps. -/
structure Value where
  tree : Json
  sorted : tree.value = tree
  regular : tree.Regular

/-- A tree that is stored as it stands. -/
structure Stored (j : Json) : Prop where
  sorted : j.value = j
  regular : j.Regular

def Stored.toValue {j : Json} (h : Stored j) : Value := ⟨j,h.sorted,h.regular⟩

mutual
/-- Trees that differ in the order of the fields of their objects. -/
inductive Reordered : Json → Json → Prop
  | same (j : Json) : Reordered j j
  | arr {l m : List Json} (h : ReorderedItems l m) : Reordered (.arr l) (.arr m)
  | obj {l k m : List (String × Json)} (h : ReorderedFields l k)
      (hd : k.Pairwise (fun a b => a.1 ≠ b.1)) (hp : k.Perm m) : Reordered (.obj l) (.obj m)

inductive ReorderedItems : List Json → List Json → Prop
  | nil : ReorderedItems [] []
  | cons {a b : Json} {l m : List Json} (h : Reordered a b) (hl : ReorderedItems l m) :
      ReorderedItems (a::l) (b::m)

inductive ReorderedFields : List (String × Json) → List (String × Json) → Prop
  | nil : ReorderedFields [] []
  | cons {k : String} {a b : Json} {l m : List (String × Json)} (h : Reordered a b)
      (hl : ReorderedFields l m) : ReorderedFields ((k,a)::l) ((k,b)::m)
end

theorem valueFields_map (l : List (String × Json)) :
    valueFields l = l.map (fun e => (e.1,e.2.value)) := by
  induction l with
  | nil => rfl
  | cons e l ih =>
    obtain ⟨k,a⟩ := e
    rw [valueFields, ih]
    rfl

theorem ofPairs_perm {l m : List (String × Json)} (hd : l.Pairwise (fun a b => a.1 ≠ b.1))
    (h : l.Perm m) : ofPairs l = ofPairs m := by
  have hdm : m.Pairwise (fun a b => a.1 ≠ b.1) :=
    (h.pairwise_iff (fun hne => hne.symm)).mp hd
  have hmap : (SortedMap.empty : SortedMap String Json).insertAll l = SortedMap.empty.insertAll m := by
    have htop : ∀ {l : List (String × Json)}, (SortedMap.empty.insertAll l).Tops (fun _ => 0) l :=
      fun {l} => SortedMap.insertAll_tops (SortedMap.tops_empty _)
        (List.pairwise_of_forall (fun _ _ => le_refl _))
    have hkey : ∀ {l : List (String × Json)}, l.Pairwise (fun a b => a.1 ≠ b.1) → ∀ k v,
        (SortedMap.empty.insertAll l).get? k = some v ↔ (k,v) ∈ l := by
      intro l hd k v
      refine ⟨fun hk => (htop k).1 v hk,fun hmem => ?_⟩
      obtain ⟨u,hu,-⟩ := (htop k).2 v hmem
      have hsame : (k,u) = (k,v) := by
        by_contra hne
        have : Std.Symm (fun a b : String × Json => a.1 ≠ b.1) := ⟨fun _ _ h => h.symm⟩
        exact hd.forall ((htop k).1 u hu) hmem hne rfl
      rw [hu, (Prod.mk.inj hsame).2]
    refine SortedMap.ext (fun k => Option.ext (fun v => ?_))
    rw [hkey hd, hkey hdm, h.mem_iff]
  rw [ofPairs, ofPairs, hmap]

theorem value_ofPairs {l : List (String × Json)} (h : ∀ e ∈ l, e.2.value = e.2) :
    (ofPairs l).value = ofPairs l := by
  have hall : SortedMap.Entrywise (fun _ v => v.value = v)
      ((SortedMap.empty : SortedMap String Json).insertAll l) :=
    SortedMap.Entrywise.empty.insertAll h
  have hfields : valueFields (SortedMap.empty.insertAll l).entries =
      (SortedMap.empty.insertAll l).entries := by
    rw [valueFields_map]
    refine (List.map_congr_left (fun e he => ?_)).trans (List.map_id _)
    exact Prod.ext rfl (hall e.1 e.2 (SortedMap.mem_entries.mp he))
  rw [ofPairs, value, hfields, ofPairs, SortedMap.insertAll_empty_entries]

mutual
theorem value_value : ∀ j : Json, j.value.value = j.value
  | .null => rfl
  | .bool _ => rfl
  | .num _ => rfl
  | .str _ => rfl
  | .arr l => congrArg Json.arr (valueItems_value l)
  | .obj l => value_ofPairs (valueFields_value l)

theorem valueItems_value : ∀ l : List Json, valueItems (valueItems l) = valueItems l
  | [] => rfl
  | a::l => by rw [valueItems, valueItems, value_value a, valueItems_value l]

theorem valueFields_value : ∀ l : List (String × Json), ∀ e ∈ valueFields l, e.2.value = e.2
  | [] => by simp [valueFields]
  | (_,a)::l => List.forall_mem_cons.mpr ⟨value_value a,valueFields_value l⟩
end

theorem stored_arr {l : List Json} (h : ∀ a ∈ l, Stored a) : Stored (.arr l) := by
  have hitems : valueItems l = l ∧ RegularItems l := by
    induction l with
    | nil => exact ⟨rfl,trivial⟩
    | cons a l ih =>
      obtain ⟨ha,hl⟩ := List.forall_mem_cons.mp h
      obtain ⟨hv,hr⟩ := ih hl
      exact ⟨by rw [valueItems, ha.sorted, hv],ha.regular,hr⟩
  exact ⟨congrArg arr hitems.1,hitems.2⟩

mutual
theorem value_reordered : ∀ {j k : Json}, Reordered j k → j.value = k.value
  | _, _, .same _ => rfl
  | _, _, .arr h => by rw [value, value, valueItems_reordered h]
  | _, _, .obj h hd hp => by
    rw [value, value, valueFields_reordered h, valueFields_map, valueFields_map]
    exact ofPairs_perm (List.pairwise_map.mpr hd) (hp.map _)

theorem valueItems_reordered : ∀ {l m : List Json}, ReorderedItems l m → valueItems l = valueItems m
  | _, _, .nil => rfl
  | _, _, .cons h hl => by rw [valueItems, valueItems, value_reordered h, valueItems_reordered hl]

theorem valueFields_reordered : ∀ {l m : List (String × Json)}, ReorderedFields l m →
    valueFields l = valueFields m
  | _, _, .nil => rfl
  | _, _, .cons h hl => by rw [valueFields, valueFields, value_reordered h, valueFields_reordered hl]
end

/-- Keys with a dollar sign in front are left to the libraries that read JSON. -/
def PlainKey (k : String) : Prop := k.toList.head? ≠ some '$'

instance : DecidablePred PlainKey := fun k => inferInstanceAs (Decidable (k.toList.head? ≠ some '$'))

mutual
/-- Whole numbers, plain keys, and no value nested deeper. -/
def Nested : ℕ → Json → Prop
  | _, .num t => ∃ n : ℕ, t = toString n
  | 0, .arr _ => False
  | 0, .obj _ => False
  | d+1, .arr l => NestedItems d l
  | d+1, .obj l => NestedFields d l
  | _, _ => True

def NestedItems : ℕ → List Json → Prop
  | _, [] => True
  | d, a::l => Nested d a ∧ NestedItems d l

def NestedFields : ℕ → List (String × Json) → Prop
  | _, [] => True
  | d, (k,a)::l => (PlainKey k ∧ Nested d a) ∧ NestedFields d l
end

/-- A stored value with whole numbers, plain keys and a bound on its nesting. -/
structure Simple (d : ℕ) (j : Json) : Prop where
  sorted : j.value = j
  nested : Nested d j

theorem nestedItems_iff {d : ℕ} {l : List Json} : NestedItems d l ↔ ∀ a ∈ l, Nested d a := by
  induction l with
  | nil => simp [NestedItems]
  | cons a l ih => simp [NestedItems, ih]

theorem nestedFields_iff {d : ℕ} {l : List (String × Json)} :
    NestedFields d l ↔ ∀ e ∈ l, PlainKey e.1 ∧ Nested d e.2 := by
  induction l with
  | nil => simp [NestedFields]
  | cons e l ih =>
    obtain ⟨k,a⟩ := e
    simp [NestedFields, ih]

theorem nested_ofNat (d n : ℕ) : Nested d (ofNat n) := by
  cases d <;> exact ⟨n,rfl⟩

theorem nested_str (d : ℕ) (s : String) : Nested d (.str s) := by
  cases d <;> trivial

mutual
theorem nested_mono : ∀ {d e : ℕ} {j : Json}, d ≤ e → Nested d j → Nested e j
  | _, e, .null, _, _ => by cases e <;> trivial
  | _, e, .bool _, _, _ => by cases e <;> trivial
  | d, e, .num t, _, h => by
    have hwhole : ∃ n : ℕ, t = toString n := by
      cases d <;> exact h
    cases e <;> exact hwhole
  | _, e, .str s, _, _ => nested_str e s
  | d+1, e+1, .arr _, hle, h => nestedItems_mono (Nat.le_of_succ_le_succ hle) h
  | d+1, e+1, .obj _, hle, h => nestedFields_mono (Nat.le_of_succ_le_succ hle) h

theorem nestedItems_mono : ∀ {d e : ℕ} {l : List Json}, d ≤ e → NestedItems d l → NestedItems e l
  | _, _, [], _, _ => trivial
  | _, _, _::_, hle, h => ⟨nested_mono hle h.1,nestedItems_mono hle h.2⟩

theorem nestedFields_mono : ∀ {d e : ℕ} {l : List (String × Json)}, d ≤ e → NestedFields d l →
    NestedFields e l
  | _, _, [], _, _ => trivial
  | _, _, (_,_)::_, hle, h => ⟨⟨h.1.1,nested_mono hle h.1.2⟩,nestedFields_mono hle h.2⟩
end

theorem nested_arr {d : ℕ} {l : List Json} (h : ∀ a ∈ l, Nested d a) : Nested (d+1) (.arr l) :=
  nestedItems_iff.mpr h

theorem nested_ofPairs {d : ℕ} {l : List (String × Json)}
    (h : ∀ e ∈ l, PlainKey e.1 ∧ Nested d e.2) : Nested (d+1) (ofPairs l) := by
  have hall : SortedMap.Entrywise (fun k v => PlainKey k ∧ Nested d v)
      ((SortedMap.empty : SortedMap String Json).insertAll l) :=
    SortedMap.Entrywise.empty.insertAll h
  exact nestedFields_iff.mpr (fun e he => hall e.1 e.2 (SortedMap.mem_entries.mp he))

mutual
theorem regular_nested : ∀ (d : ℕ) (j : Json), Nested d j → j.Regular
  | _, .null, _ => trivial
  | _, .bool _, _ => trivial
  | d, .num t, h => by
    have hwhole : ∃ n : ℕ, t = toString n := by
      cases d <;> exact h
    obtain ⟨n,rfl⟩ := hwhole
    exact regular_ofNat n
  | _, .str _, _ => trivial
  | 0, .arr _, h => h.elim
  | 0, .obj _, h => h.elim
  | d+1, .arr l, h => regularItems_nested d l h
  | d+1, .obj l, h => regularFields_nested d l h

theorem regularItems_nested : ∀ (d : ℕ) (l : List Json), NestedItems d l → RegularItems l
  | _, [], _ => trivial
  | d, a::l, h => ⟨regular_nested d a h.1,regularItems_nested d l h.2⟩

theorem regularFields_nested : ∀ (d : ℕ) (l : List (String × Json)), NestedFields d l →
    RegularFields l
  | _, [], _ => trivial
  | d, (_,a)::l, h => ⟨regular_nested d a h.1.2,regularFields_nested d l h.2⟩
end

theorem Simple.stored {d : ℕ} {j : Json} (h : Simple d j) : Stored j :=
  ⟨h.sorted,regular_nested d j h.nested⟩

theorem simple_null (d : ℕ) : Simple d .null := by
  cases d <;> exact ⟨rfl,trivial⟩

theorem simple_bool (d : ℕ) (b : Bool) : Simple d (.bool b) := by
  cases d <;> exact ⟨rfl,trivial⟩

theorem simple_str (d : ℕ) (s : String) : Simple d (.str s) := ⟨rfl,nested_str d s⟩

theorem simple_ofNat (d n : ℕ) : Simple d (ofNat n) := ⟨rfl,nested_ofNat d n⟩

theorem simple_arr {d : ℕ} {l : List Json} (h : ∀ a ∈ l, Simple d a) : Simple (d+1) (.arr l) :=
  ⟨(stored_arr (fun a ha => (h a ha).stored)).sorted,nested_arr (fun a ha => (h a ha).nested)⟩

theorem simple_ofPairs {d : ℕ} {l : List (String × Json)} (hk : ∀ k ∈ l.map Prod.fst, PlainKey k)
    (h : ∀ e ∈ l, Simple d e.2) : Simple (d+1) (ofPairs l) :=
  ⟨value_ofPairs (fun e he => (h e he).sorted),
    nested_ofPairs (fun e he => ⟨hk e.1 (List.mem_map_of_mem he),(h e he).nested⟩)⟩

theorem Simple.index {d : ℕ} {j : Json} (h : Simple d j) (name : String) :
    Simple d (j.index name) := by
  cases j with
  | obj l =>
    cases hv : lookup name l with
    | none =>
      rw [Json.index, Json.get?, asObject, Option.bind_some, hv]
      exact simple_null d
    | some v =>
      have hmem : (name,v) ∈ l := mem_of_lookup hv
      have hall : SortedMap.Entrywise (fun _ v => v.value = v)
          ((SortedMap.empty : SortedMap String Json).insertAll (valueFields l)) :=
        SortedMap.Entrywise.empty.insertAll (valueFields_value l)
      have hentries : (SortedMap.empty.insertAll (valueFields l)).entries = l :=
        Json.obj.inj h.sorted
      rw [Json.index, Json.get?, asObject, Option.bind_some, hv, Option.getD_some]
      refine ⟨hall name v (SortedMap.mem_entries.mp (hentries.symm ▸ hmem)),?_⟩
      cases d with
      | zero => exact absurd h.nested id
      | succ d => exact nested_mono (Nat.le_succ d) (nestedFields_iff.mp h.nested _ hmem).2
  | _ => exact simple_null d
def isBlank (c : Char) : Bool := c = ' ' || c = '\t' || c = '\n' || c = '\r'

/-- Inside a string, and just behind a backslash there. -/
abbrev Quoting := Bool × Bool

def scan (s : Quoting) (c : Char) : Quoting :=
  if s.1 then
    if s.2 then (true,false)
    else if c = '\\' then (true,true)
    else if c = '"' then (false,false)
    else (true,false)
  else if c = '"' then (true,false)
  else s

/-- What is behind the reader: the end of a word, a word and blanks, or
neither. -/
inductive Behind where
  | token
  | word
  | gap
  deriving DecidableEq, Repr

def isToken (c : Char) : Bool :=
  c = '"' || c = '[' || c = ']' || c = '\x7b' || c = '\x7d' || c = ':' || c = ','

/-- A text without the blanks outside its strings. Two words do not become
one. -/
def strip : Quoting → Behind → List Char → Option (List Char)
  | _, _, [] => some []
  | s, b, c::l =>
    if s.1 || isToken c then (strip (scan s c) .token l).map (c::·)
    else if isBlank c then strip s (if b = .token then .token else .gap) l
    else if b = .gap then none
    else (strip s .word l).map (c::·)

/-- The value of a text whose numbers are kept as they are written. -/
def readText (text : String) : Option Json :=
  ((strip (false,false) .token text.toList).bind (fun l => read (String.ofList l))).map value

def Dense : Quoting → List Char → Prop
  | _, [] => True
  | s, c::l => (s.1 = false → isBlank c = false) ∧ Dense (scan s c) l

theorem dense_append (s : Quoting) (l m : List Char) :
    Dense s (l++m) ↔ Dense s l ∧ Dense (l.foldl scan s) m := by
  induction l generalizing s with
  | nil => simp [Dense]
  | cons c l ih => simp [Dense, ih, and_assoc]

def Closed (l : List Char) : Prop :=
  Dense (false,false) l ∧ l.foldl scan (false,false) = (false,false)

theorem closed_append {l m : List Char} (hl : Closed l) (hm : Closed m) : Closed (l++m) := by
  refine ⟨(dense_append _ l m).mpr ⟨hl.1,?_⟩,?_⟩
  · rw [hl.2]
    exact hm.1
  · rw [List.foldl_append, hl.2, hm.2]

theorem closed_nil : Closed [] := ⟨trivial,rfl⟩

theorem closed_one {c : Char} (hq : c ≠ '"') (hb : isBlank c = false) : Closed [c] := by
  refine ⟨⟨fun _ => hb,trivial⟩,?_⟩
  simp [scan, hq]

theorem closed_cons {c : Char} {l : List Char} (hq : c ≠ '"') (hb : isBlank c = false)
    (hl : Closed l) : Closed (c::l) := closed_append (closed_one hq hb) hl

theorem closed_all {l : List Char} (h : ∀ c ∈ l, c ≠ '"' ∧ isBlank c = false) : Closed l := by
  induction l with
  | nil => exact closed_nil
  | cons c l ih =>
    have hc := h c (by simp)
    exact closed_cons hc.1 hc.2 (ih (fun d hd => h d (List.mem_cons_of_mem _ hd)))

/-- What stands inside a string and leaves the reader there. -/
def Inside (l : List Char) : Prop := Dense (true,false) l ∧ l.foldl scan (true,false) = (true,false)

theorem inside_append {l m : List Char} (hl : Inside l) (hm : Inside m) : Inside (l++m) := by
  refine ⟨(dense_append _ l m).mpr ⟨hl.1,?_⟩,?_⟩
  · rw [hl.2]
    exact hm.1
  · rw [List.foldl_append, hl.2, hm.2]

theorem inside_plain {l : List Char} (h : ∀ c ∈ l, c ≠ '"' ∧ c ≠ '\\') : Inside l := by
  induction l with
  | nil => exact ⟨trivial,rfl⟩
  | cons c l ih =>
    obtain ⟨hq,hb⟩ := h c (by simp)
    have hc : Inside [c] := ⟨⟨fun hs => absurd hs (by simp),trivial⟩,by simp [scan, hq, hb]⟩
    exact inside_append hc (ih (fun d hd => h d (List.mem_cons_of_mem _ hd)))

theorem inside_pair (c : Char) : Inside ['\\',c] :=
  ⟨⟨fun hs => absurd hs (by simp),fun hs => absurd hs (by simp [scan]),trivial⟩,rfl⟩

theorem digit_plain : ∀ n < 16, Hex.digit n ≠ '"' ∧ Hex.digit n ≠ '\\' := by decide

theorem inside_unicode (n : ℕ) : Inside (unicodeEscape n) := by
  refine inside_append (inside_pair 'u') (inside_plain (fun c hc => ?_))
  simp only [List.mem_cons, List.not_mem_nil, or_false] at hc
  rcases hc with rfl | rfl | rfl | rfl
  · exact digit_plain _ (by omega)
  · exact digit_plain _ (by omega)
  · exact digit_plain _ (by omega)
  · exact digit_plain _ (by omega)

theorem inside_escape (c : Char) : Inside (escape c) := by
  simp only [escape]
  split_ifs with hq hb
  · exact inside_pair _
  · exact inside_pair _
  · exact inside_pair _
  · exact inside_pair _
  · exact inside_pair _
  · exact inside_pair _
  · exact inside_pair _
  · exact inside_unicode _
  · exact inside_plain (by simp [hq, hb])
  · exact inside_unicode _
  · exact inside_append (inside_unicode _) (inside_unicode _)

theorem closed_quote (s : String) : Closed (quote s) := by
  have hinside : Inside (s.toList.flatMap escape) := by
    induction s.toList with
    | nil => exact ⟨trivial,rfl⟩
    | cons c l ih =>
      rw [List.flatMap_cons]
      exact inside_append (inside_escape c) ih
  have hopen : scan (false,false) '"' = (true,false) := rfl
  have hend : Dense (true,false) ['"'] := ⟨fun hs => absurd hs (by simp),trivial⟩
  constructor
  · rw [quote, List.cons_append]
    refine ⟨fun _ => by decide,?_⟩
    rw [hopen, dense_append, hinside.2]
    exact ⟨hinside.1,hend⟩
  · rw [quote, List.cons_append, List.foldl_cons, hopen, List.foldl_append, hinside.2]
    rfl

theorem number_dense {c : Char} (h : isNumberChar c = true) : c ≠ '"' ∧ isBlank c = false := by
  have hother : ∀ d, isNumberChar d = false → c ≠ d := by
    rintro d hd rfl
    rw [h] at hd
    cases hd
  refine ⟨hother _ (by decide),?_⟩
  simp [isBlank, hother ' ' (by decide), hother '\t' (by decide), hother '\n' (by decide),
    hother '\r' (by decide)]

mutual
theorem closed_compact : ∀ j : Json, j.Regular → Closed j.compact
  | .null, _ => closed_all (by simp [compact, isBlank])
  | .bool b, _ => by cases b <;> exact closed_all (by simp [compact, isBlank])
  | .num _, h => closed_all (fun c hc => number_dense ((number_chars h).2 c hc))
  | .str s, _ => closed_quote s
  | .arr l, h => by
    rw [compact]
    exact closed_append (closed_cons (by decide) (by decide) (closed_items l h))
      (closed_one (by decide) (by decide))
  | .obj l, h => by
    rw [compact]
    exact closed_append (closed_cons (by decide) (by decide) (closed_fields l h))
      (closed_one (by decide) (by decide))

theorem closed_items : ∀ l : List Json, RegularItems l → Closed (compactItems l)
  | [], _ => closed_nil
  | a::l, h => by
    rw [compactItems_cons]
    refine closed_append (closed_compact a h.1) ?_
    split_ifs
    · exact closed_nil
    · exact closed_cons (by decide) (by decide) (closed_items l h.2)

theorem closed_fields : ∀ l : List (String × Json), RegularFields l → Closed (compactFields l)
  | [], _ => closed_nil
  | (k,a)::l, h => by
    rw [compactFields_cons]
    refine closed_append (closed_quote k) (closed_cons (by decide) (by decide)
      (closed_append (closed_compact a h.1) ?_))
    split_ifs
    · exact closed_nil
    · exact closed_cons (by decide) (by decide) (closed_fields l h.2)
end

theorem strip_dense {s : Quoting} {b : Behind} {l : List Char} (h : Dense s l) (hb : b ≠ .gap) :
    strip s b l = some l := by
  induction l generalizing s b with
  | nil => rfl
  | cons c l ih =>
    obtain ⟨hc,hl⟩ := h
    rw [strip]
    by_cases ht : (s.1 || isToken c) = true
    · rw [if_pos ht, ih hl (by decide)]
      rfl
    · rw [Bool.not_eq_true, Bool.or_eq_false_iff] at ht
      have hsame : scan s c = s := by
        have hq : c ≠ '"' := by
          rintro rfl
          exact absurd ht.2 (by decide)
        simp [scan, ht.1, hq]
      rw [hsame] at hl
      rw [if_neg (by simp [ht.1, ht.2]), hc ht.1, if_neg (by simp), if_neg hb, ih hl (by decide)]
      rfl

theorem read_value {v : Value} : (read (String.ofList v.tree.compact)).map value = some v.tree := by
  have hread := read_canonicalJson v.regular
  rw [canonicalJson] at hread
  rw [hread, Option.map_some, v.sorted]

theorem escape_line (c : Char) : '\n' ∉ escape c := by
  have hhex : ∀ n, '\n' ∉ unicodeEscape n := by
    intro n hm
    have hdigit : ∀ m < 16, Hex.digit m ≠ '\n' := by decide
    simp only [unicodeEscape, hexDigits, List.mem_cons, List.not_mem_nil, or_false] at hm
    rcases hm with hm | hm | hm | hm | hm | hm
    · exact absurd hm (by decide)
    · exact absurd hm (by decide)
    all_goals exact hdigit _ (Nat.mod_lt _ (by norm_num)) hm.symm
  unfold escape
  dsimp only
  split_ifs with h1 h2 h3 h4 h5 h6 h7 h8 h9 h10
  · decide
  · decide
  · decide
  · decide
  · decide
  · decide
  · decide
  · exact hhex _
  · intro hm
    rw [← List.mem_singleton.mp hm] at h5
    exact h5 rfl
  · exact hhex _
  · intro hm
    rcases List.mem_append.mp hm with hm | hm
    · exact hhex _ hm
    · exact hhex _ hm

theorem quote_line (s : String) : '\n' ∉ quote s := by
  simp only [quote, List.mem_append, List.mem_cons, List.not_mem_nil, or_false, List.mem_flatMap]
  rintro ((hm | ⟨c,-,hm⟩) | hm)
  · exact absurd hm (by decide)
  · exact escape_line c hm
  · exact absurd hm (by decide)

mutual
theorem compact_line : ∀ j : Json, j.Regular → '\n' ∉ j.compact
  | .null, _ => by decide
  | .bool true, _ => by decide
  | .bool false, _ => by decide
  | .num _, h => fun hm => absurd ((number_chars h).2 _ hm) (by decide)
  | .str s, _ => quote_line s
  | .arr l, h => by
    have hl := compactItems_line l h
    simp [compact, hl]
  | .obj l, h => by
    have hl := compactFields_line l h
    simp [compact, hl]

theorem compactItems_line : ∀ l : List Json, RegularItems l → '\n' ∉ compactItems l
  | [], _ => by simp [compactItems]
  | a::l, h => by
    have ha := compact_line a h.1
    have hl := compactItems_line l h.2
    cases l with
    | nil => simpa [compactItems] using ha
    | cons b l => simp [compactItems, ha, hl]

theorem compactFields_line : ∀ l : List (String × Json), RegularFields l → '\n' ∉ compactFields l
  | [], _ => by simp [compactFields]
  | (k,a)::l, h => by
    have hk := quote_line k
    have ha := compact_line a h.1
    have hl := compactFields_line l h.2
    cases l with
    | nil => simp [compactFields, hk, ha]
    | cons b l => simp [compactFields, hk, ha, hl]
end

end EvmState.Json
