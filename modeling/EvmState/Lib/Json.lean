import EvmState.Lib.OrderedMap
import EvmState.Lib.Hex

/-!
# JSON values

Objects keep their entries in key order. A number is its text, so a value
that is read and written again is unchanged and two numbers are equal when
their texts are.
-/

set_option autoImplicit false

namespace EvmState
open EvmState.OrderedMap

inductive Json where
  | null
  | bool (b : Bool)
  | num (text : String)
  | str (text : String)
  | arr (items : List Json)
  | obj (fields : List (String × Json))
  deriving Repr, Inhabited

namespace Json

mutual
def eqb : Json → Json → Bool
  | .null, .null => true
  | .bool a, .bool b => a = b
  | .num a, .num b => a = b
  | .str a, .str b => a = b
  | .arr a, .arr b => eqbItems a b
  | .obj a, .obj b => eqbFields a b
  | _, _ => false

def eqbItems : List Json → List Json → Bool
  | [], [] => true
  | a::as, b::bs => eqb a b && eqbItems as bs
  | _, _ => false

def eqbFields : List (String × Json) → List (String × Json) → Bool
  | [], [] => true
  | (k,a)::as, (j,b)::bs => k = j && eqb a b && eqbFields as bs
  | _, _ => false
end

mutual
theorem eqb_iff : ∀ a b : Json, a.eqb b = true ↔ a = b
  | .null, b => by cases b <;> simp [eqb]
  | .bool _, b => by cases b <;> simp [eqb]
  | .num _, b => by cases b <;> simp [eqb]
  | .str _, b => by cases b <;> simp [eqb]
  | .arr as, b => by cases b <;> simp [eqb, eqbItems_iff as]
  | .obj as, b => by cases b <;> simp [eqb, eqbFields_iff as]

theorem eqbItems_iff : ∀ a b : List Json, eqbItems a b = true ↔ a = b
  | [], b => by cases b <;> simp [eqbItems]
  | a::as, b => by cases b <;> simp [eqbItems, eqb_iff a, eqbItems_iff as]

theorem eqbFields_iff : ∀ a b : List (String × Json), eqbFields a b = true ↔ a = b
  | [], b => by cases b <;> simp [eqbFields]
  | (k,a)::as, b => by
    rcases b with _ | ⟨⟨j,c⟩,bs⟩ <;> simp [eqbFields, eqb_iff a, eqbFields_iff as, and_assoc]
end

instance : DecidableEq Json := fun a b => decidable_of_iff _ (eqb_iff a b)

def decimal (text : String) : Option ℕ :=
  if text ≠ "" ∧ text.toList.all Char.isDigit then some (Nat.ofDigitChars 10 text.toList 0) else none

theorem decimal_toString (n : ℕ) : decimal (toString n) = some n := by
  have htext : (toString n).toList = Nat.toDigits 10 n := by
    simp [toString, Nat.repr]
  have hdigits : (Nat.toDigits 10 n).all Char.isDigit := by
    rw [List.all_eq_true]
    exact fun c hc => Nat.isDigit_of_mem_toDigits (by omega) (by omega) hc
  have hne : toString n ≠ "" := by
    intro h
    have := congrArg String.toList h
    rw [htext] at this
    simp at this
  rw [decimal, htext, if_pos ⟨hne,hdigits⟩, Nat.ofDigitChars_ten_toDigits]

theorem digitChar_toNat {c : Char} (h : c.isDigit = true) :
    c.toNat-48 < 10 ∧ Nat.digitChar (c.toNat-48) = c := by
  obtain ⟨hlo,hhi⟩ := Char.isDigit_iff_toNat.mp h
  have hlo : 48 ≤ c.toNat := hlo
  have hhi : c.toNat ≤ 57 := hhi
  refine ⟨by omega,Char.toNat_inj.mp ?_⟩
  rw [Nat.toNat_digitChar_of_lt_ten (by omega)]
  omega

theorem toDigits_ofDigitChars {l : List Char} (hd : ∀ c ∈ l, c.isDigit = true)
    (hz : l.head? ≠ some '0') (hl : l ≠ []) :
    0 < Nat.ofDigitChars 10 l 0 ∧ Nat.toDigits 10 (Nat.ofDigitChars 10 l 0) = l := by
  induction l using List.reverseRecOn with
  | nil => exact absurd rfl hl
  | append_singleton l c ih =>
    obtain ⟨hlt,hc⟩ := digitChar_toNat (hd c (by simp))
    have hvalue : Nat.ofDigitChars 10 (l++[c]) 0 = 10*Nat.ofDigitChars 10 l 0+(c.toNat-48) := by
      rw [Nat.ofDigitChars_append, Nat.ofDigitChars_cons, Nat.ofDigitChars_nil]
      rfl
    rw [hvalue]
    by_cases hnil : l = []
    · subst hnil
      have hne : c ≠ '0' := by simpa using hz
      have hpos : 0 < c.toNat-48 := by
        by_contra hzero
        obtain h0 : c.toNat-48 = 0 := by omega
        exact hne (hc ▸ h0 ▸ rfl)
      rw [Nat.ofDigitChars_nil, mul_zero, zero_add, Nat.toDigits_of_lt_base hlt, hc]
      exact ⟨hpos,rfl⟩
    · have hhead : l.head? ≠ some '0' := by
        rwa [List.head?_append_of_ne_nil l hnil] at hz
      obtain ⟨hpos,hdigits⟩ := ih (fun d hd' => hd d (by simp [hd'])) hhead hnil
      rw [← Nat.toDigits_append_toDigits (by decide) hpos hlt, hdigits,
        Nat.toDigits_of_lt_base hlt, hc]
      exact ⟨by omega,rfl⟩

theorem decimal_exact {text : String} {n : ℕ} (h : decimal text = some n)
    (hz : text = "0" ∨ text.toList.head? ≠ some '0') : text = toString n := by
  rcases hz with rfl | hz
  · rw [show decimal "0" = some 0 from rfl] at h
    obtain rfl := Option.some.inj h
    rfl
  · unfold decimal at h
    split_ifs at h with hd
    obtain rfl := Option.some.inj h
    obtain ⟨hne,hall⟩ := hd
    have hl : text.toList ≠ [] := fun he => hne (String.toList_injective he)
    obtain ⟨-,hdigits⟩ := toDigits_ofDigitChars (List.all_eq_true.mp hall) hz hl
    apply String.toList_injective
    simp [toString, Nat.repr, hdigits]

theorem toDigits_head {n : ℕ} (h : n ≠ 0) : (Nat.toDigits 10 n).head? ≠ some '0' := by
  induction n using Nat.strong_induction_on with
  | _ n ih =>
    by_cases hlt : n < 10
    · rw [Nat.toDigits_of_lt_base hlt]
      simpa using h
    · rw [Nat.toDigits_of_base_le (by omega) (by omega),
        List.head?_append_of_ne_nil _ Nat.toDigits_ne_nil]
      exact ih (n/10) (by omega) (by omega)

theorem toString_nat_injective : Function.Injective (toString : ℕ → String) := by
  intro a b h
  have ha := decimal_toString a
  rw [h, decimal_toString] at ha
  exact (Option.some.inj ha).symm

def ofNat (n : ℕ) : Json := .num (toString n)

theorem ofNat_injective : Function.Injective ofNat := fun _ _ h =>
  toString_nat_injective (Json.num.inj h)

def asStr : Json → Option String
  | .str s => some s
  | _ => none

def asU64 : Json → Option ℕ
  | .num t => (decimal t).filter (· < 2^64)
  | _ => none

def asArray : Json → Option (List Json)
  | .arr items => some items
  | _ => none

def asObject : Json → Option (List (String × Json))
  | .obj fields => some fields
  | _ => none

/-- A missing field and a field of a value that is no object are absent. -/
def get? (j : Json) (k : String) : Option Json := j.asObject.bind (lookup k)

/-- Reading a missing field yields null. -/
def index (j : Json) (k : String) : Json := (j.get? k).getD .null

def ofMap (m : SortedMap String Json) : Json := .obj m.entries

def ofPairs (l : List (String × Json)) : Json := .obj (SortedMap.empty.insertAll l).entries

theorem get?_ofPairs {l : List (String × Json)} (h : l.Pairwise (fun a b => a.1 ≠ b.1)) (k : String) :
    (ofPairs l).get? k = lookup k l := by
  have := SortedMap.get?_insertAll (SortedMap.empty : SortedMap String Json) h k
  rwa [SortedMap.get?_empty, Option.or_none] at this

theorem index_ofPairs {l : List (String × Json)} (h : l.Pairwise (fun a b => a.1 ≠ b.1))
    (k : String) : (ofPairs l).index k = (lookup k l).getD .null := by
  rw [index, get?_ofPairs h]

def set (j : Json) (k : String) (v : Json) : Json :=
  match j with
  | .obj fields => .obj (put k v fields)
  | j => j

def extend (j : Json) (fields : List (String × Json)) : Json := fields.foldl (fun j e => j.set e.1 e.2) j

theorem get?_set {fields : List (String × Json)} {k : String} (v : Json) (name : String) :
    ((obj fields).set k v).get? name = if name = k then some v else (obj fields).get? name := by
  show lookup name (put k v fields) = if name = k then some v else lookup name fields
  split_ifs with h
  · rw [h, lookup_put_self]
  · exact lookup_put_ne v fields h

theorem get?_extend {fields : List (String × Json)} {l : List (String × Json)}
    (h : l.Pairwise (fun a b => a.1 ≠ b.1)) (name : String) :
    ((obj fields).extend l).get? name = (lookup name l).or ((obj fields).get? name) := by
  induction l generalizing fields with
  | nil => rfl
  | cons e l ih =>
    obtain ⟨he,hl⟩ := List.pairwise_cons.mp h
    show ((obj (put e.1 e.2 fields)).extend l).get? name = _
    rw [ih hl]
    show (lookup name l).or (((obj fields).set e.1 e.2).get? name) = _
    rw [get?_set]
    by_cases hn : name = e.1
    · have hnone : lookup name l = none := lookup_eq_none_iff.mpr (fun d hd => hn ▸ he d hd)
      rw [if_pos hn, hnone, hn]
      simp [lookup]
    · rw [if_neg hn]
      simp [lookup, hn]

theorem asU64_ofNat {n : ℕ} (h : n < 2^64) : (ofNat n).asU64 = some n := by
  rw [ofNat, asU64, decimal_toString, Option.filter_some, if_pos (decide_eq_true h)]

/-- Numbers arrive as JSON numbers or, from the database, as decimal texts. -/
def uint (j : Json) : Option ℕ :=
  match j.asU64 with
  | some n => some n
  | none => (j.asStr.bind decimal).filter (· < 2^64)

theorem uint_ofNat {n : ℕ} (h : n < 2^64) : (ofNat n).uint = some n := by
  simp [uint, asU64_ofNat h]

theorem uint_lt {j : Json} {n : ℕ} (h : j.uint = some n) : n < 2^64 := by
  unfold uint at h
  split at h
  · rename_i m hm
    cases j <;> simp_all [asU64, Option.filter_eq_some_iff]
  · exact of_decide_eq_true (Option.filter_eq_some_iff.mp h).2

/-!
## Text

Compact text in which every character is ASCII.
-/

def hexDigits (n : ℕ) : List Char :=
  [Hex.digit (n/4096%16),Hex.digit (n/256%16),Hex.digit (n/16%16),Hex.digit (n%16)]

def unicodeEscape (n : ℕ) : List Char := '\\' :: 'u' :: hexDigits n

def escape (c : Char) : List Char :=
  let n := c.toNat
  if c = '"' then ['\\', '"']
  else if c = '\\' then ['\\', '\\']
  else if n = 8 then ['\\', 'b']
  else if n = 9 then ['\\', 't']
  else if n = 10 then ['\\', 'n']
  else if n = 12 then ['\\', 'f']
  else if n = 13 then ['\\', 'r']
  else if n < 32 then unicodeEscape n
  else if n < 128 then [c]
  else if n < 0x10000 then unicodeEscape n
  else unicodeEscape (0xD800+(n-0x10000)/1024) ++ unicodeEscape (0xDC00+(n-0x10000)%1024)

def quote (s : String) : List Char := '"' :: s.toList.flatMap escape ++ ['"']

mutual
def compact : Json → List Char
  | .null => "null".toList
  | .bool b => if b then "true".toList else "false".toList
  | .num t => t.toList
  | .str s => quote s
  | .arr l => '[' :: compactItems l ++ [']']
  | .obj l => '\x7b' :: compactFields l ++ ['\x7d']

def compactItems : List Json → List Char
  | [] => []
  | [a] => compact a
  | a::l => compact a ++ ',' :: compactItems l

def compactFields : List (String × Json) → List Char
  | [] => []
  | [(k,a)] => quote k ++ ':' :: compact a
  | (k,a)::l => quote k ++ ':' :: compact a ++ ',' :: compactFields l
end

def canonicalJson (j : Json) : String := String.ofList j.compact

end Json
end EvmState
