import EvmState.Lib.Json

/-!
# Reading compact JSON

A reader of the compact text of a value. It stops where the value ends, so
values written one after another are told apart.
-/

set_option autoImplicit false

namespace EvmState.Json
open EvmState.OrderedMap

def unit (a b c d : Char) : Option ℕ := do
  let a ← Hex.digitValue a
  let b ← Hex.digitValue b
  let c ← Hex.digitValue c
  let d ← Hex.digitValue d
  return a*4096+b*256+c*16+d

/-- The character of an escape that is not a unit. -/
def unescape (c : Char) : Option Char :=
  if c = '"' ∨ c = '\\' ∨ c = '/' then some c
  else if c = 'b' then some (Char.ofNat 8)
  else if c = 't' then some (Char.ofNat 9)
  else if c = 'n' then some (Char.ofNat 10)
  else if c = 'f' then some (Char.ofNat 12)
  else if c = 'r' then some (Char.ofNat 13)
  else none

def readLow : List Char → Option (ℕ × List Char)
  | s::u::a::b::c::d::l =>
    if s = '\\' ∧ u = 'u' then
      ((unit a b c d).filter (fun n => 0xDC00 ≤ n ∧ n < 0xE000)).map (fun n => (n-0xDC00,l))
    else none
  | _ => none

def readUnit : List Char → Option (Char × List Char)
  | a::b::c::d::l => do
    let n ← unit a b c d
    if 0xD800 ≤ n ∧ n < 0xE000 then
      if n < 0xDC00 then do
        let (low,l) ← readLow l
        return (Char.ofNat (0x10000+(n-0xD800)*1024+low),l)
      else none
    else return (Char.ofNat n,l)
  | _ => none

def readChar : List Char → Option (Char × List Char)
  | [] => none
  | c::l =>
    if c = '\\' then
      match l with
      | [] => none
      | e::l => if e = 'u' then readUnit l else (unescape e).map (fun c => (c,l))
    else if c.toNat < 32 then none
    else some (c,l)

def readString : ℕ → List Char → Option (List Char × List Char)
  | 0, _ => none
  | _+1, [] => none
  | n+1, c::l =>
    if c = '"' then some ([],l)
    else do
      let (d,l) ← readChar (c::l)
      let (s,l) ← readString n l
      return (d::s,l)

def isNumberChar (c : Char) : Bool := c.isDigit || c = '-' || c = '+' || c = '.' || c = 'e' || c = 'E'

def scanDigits (l : List Char) : Option (List Char) :=
  if l.takeWhile Char.isDigit = [] then none else some (l.dropWhile Char.isDigit)

/-- What follows the digits of an integer, which has no leading zero. -/
def scanInteger (l : List Char) : Option (List Char) :=
  if l.head? = some '0' then some l.tail else scanDigits l

def scanFraction (l : List Char) : Option (List Char) :=
  if l.head? = some '.' then scanDigits l.tail else some l

def scanExponent (l : List Char) : Option (List Char) :=
  if l.head? = some 'e' ∨ l.head? = some 'E' then
    scanDigits (if l.tail.head? = some '+' ∨ l.tail.head? = some '-' then l.tail.tail else l.tail)
  else some l

def isNumber (l : List Char) : Bool :=
  ((scanInteger (if l.head? = some '-' then l.tail else l)).bind (fun l =>
    (scanFraction l).bind scanExponent)) = some []

def readLiteral (text : String) (value : Json) (l : List Char) : Option (Json × List Char) :=
  if text.toList.isPrefixOf l then some (value,l.drop text.toList.length) else none

mutual
def readValue : ℕ → List Char → Option (Json × List Char)
  | 0, _ => none
  | _+1, [] => none
  | n+1, c::l =>
    if c = '"' then (readString (l.length+1) l).map (fun e => (.str (String.ofList e.1),e.2))
    else if c = '[' then
      if l.head? = some ']' then some (.arr [],l.tail)
      else (readItems n l).map (fun e => (.arr e.1,e.2))
    else if c = '\x7b' then
      if l.head? = some '\x7d' then some (.obj [],l.tail)
      else (readFields n l).map (fun e => (.obj e.1,e.2))
    else if isNumberChar c then
      if isNumber (c::l.takeWhile isNumberChar) then
        some (.num (String.ofList (c::l.takeWhile isNumberChar)),l.dropWhile isNumberChar)
      else none
    else ((readLiteral "null" .null (c::l)).or (readLiteral "true" (.bool true) (c::l))).or
      (readLiteral "false" (.bool false) (c::l))

def readItems : ℕ → List Char → Option (List Json × List Char)
  | 0, _ => none
  | n+1, l => do
    let (a,l) ← readValue n l
    if l.head? = some ',' then do
      let (items,l) ← readItems n l.tail
      return (a::items,l)
    else if l.head? = some ']' then return ([a],l.tail)
    else none

def readFields : ℕ → List Char → Option (List (String × Json) × List Char)
  | 0, _ => none
  | n+1, l => do
    if l.head? = some '"' then do
      let (k,l) ← readString (l.length+1) l.tail
      if l.head? = some ':' then do
        let (a,l) ← readValue n l.tail
        if l.head? = some ',' then do
          let (fields,l) ← readFields n l.tail
          return ((String.ofList k,a)::fields,l)
        else if l.head? = some '\x7d' then return ([(String.ofList k,a)],l.tail)
        else none
      else none
    else none
end

def read (text : String) : Option Json :=
  match readValue (2*text.length+1) text.toList with
  | some (value,[]) => some value
  | _ => none

theorem unit_hexDigits {n : ℕ} (h : n < 65536) :
    unit (Hex.digit (n/4096%16)) (Hex.digit (n/256%16)) (Hex.digit (n/16%16)) (Hex.digit (n%16)) =
      some n := by
  rw [unit, Hex.digitValue_digit (by omega), Hex.digitValue_digit (by omega),
    Hex.digitValue_digit (by omega), Hex.digitValue_digit (by omega)]
  simp only [Option.bind_eq_bind, Option.bind_some, Option.pure_def, Option.some.injEq]
  omega

theorem readUnit_hexDigits {n : ℕ} (h : n < 65536) (hs : n < 0xD800 ∨ 0xE000 ≤ n) (l : List Char) :
    readUnit (hexDigits n ++ l) = some (Char.ofNat n,l) := by
  rw [hexDigits]
  simp only [List.cons_append, List.nil_append, readUnit, unit_hexDigits h, Option.bind_eq_bind,
    Option.bind_some, Option.pure_def]
  rw [if_neg (by omega)]

theorem readUnit_pair {high low : ℕ} (hh : high < 1024) (hl : low < 1024) (l : List Char) :
    readUnit (hexDigits (0xD800+high) ++ unicodeEscape (0xDC00+low) ++ l) =
      some (Char.ofNat (0x10000+high*1024+low),l) := by
  have hlow : readLow (unicodeEscape (0xDC00+low) ++ l) = some (low,l) := by
    rw [unicodeEscape, hexDigits]
    simp only [List.cons_append, List.nil_append, readLow, and_self, if_true,
      unit_hexDigits (show 0xDC00+low < 65536 by omega)]
    rw [Option.filter_some, if_pos (by simp only [decide_eq_true_eq]; omega), Option.map_some]
    simp
  rw [hexDigits, List.append_assoc]
  simp only [List.cons_append, List.nil_append, readUnit,
    unit_hexDigits (show 0xD800+high < 65536 by omega), Option.bind_eq_bind, Option.bind_some,
    Option.pure_def]
  rw [if_pos (by omega), if_pos (by omega), hlow]
  simp

theorem readChar_unicode (l : List Char) (n : ℕ) :
    readChar (unicodeEscape n ++ l) = readUnit (hexDigits n ++ l) := by
  rw [unicodeEscape, List.cons_append, List.cons_append, readChar, if_pos rfl]
  exact if_pos rfl

theorem readChar_escape (c : Char) (l : List Char) : readChar (escape c ++ l) = some (c,l) := by
  have hofNat : ∀ n, c.toNat = n → Char.ofNat n = c := by
    rintro n rfl
    exact Char.ofNat_toNat c
  have hvalid : c.toNat < 0xD800 ∨ (0xDFFF < c.toNat ∧ c.toNat < 0x110000) := c.valid
  have hshort : ∀ e d, unescape e = some d → e ≠ 'u' → readChar (['\\',e] ++ l) = some (d,l) := by
    intro e d he hu
    rw [List.cons_append, List.cons_append, List.nil_append, readChar, if_pos rfl]
    show (if e = 'u' then readUnit l else (unescape e).map (fun c => (c,l))) = _
    rw [if_neg hu, he]
    rfl
  simp only [escape]
  split_ifs with hq hb h8 h9 h10 h12 h13 h32 h128 hbmp
  · rw [hq]
    exact hshort _ _ rfl (by decide)
  · rw [hb]
    exact hshort _ _ rfl (by decide)
  · rw [← hofNat _ h8]
    exact hshort _ _ rfl (by decide)
  · rw [← hofNat _ h9]
    exact hshort _ _ rfl (by decide)
  · rw [← hofNat _ h10]
    exact hshort _ _ rfl (by decide)
  · rw [← hofNat _ h12]
    exact hshort _ _ rfl (by decide)
  · rw [← hofNat _ h13]
    exact hshort _ _ rfl (by decide)
  · rw [readChar_unicode, readUnit_hexDigits (by omega) (by omega), hofNat _ rfl]
  · exact (if_neg hb).trans (if_neg h32)
  · rw [readChar_unicode, readUnit_hexDigits (by omega) (by omega), hofNat _ rfl]
  · -- a character beyond the basic plane is a pair of units
    rw [List.append_assoc, readChar_unicode, ← List.append_assoc,
      readUnit_pair (by omega) (by omega), hofNat _ (by omega)]

theorem escape_head (c : Char) : ∃ d l, escape c = d::l ∧ d ≠ '"' := by
  simp only [escape]
  split_ifs with hq <;> first
    | exact ⟨_,_,rfl,by decide⟩
    | exact ⟨_,_,rfl,hq⟩

theorem readString_quote (s l : List Char) {n : ℕ} (h : s.length < n) :
    readString n (s.flatMap escape ++ '"'::l) = some (s,l) := by
  induction s generalizing n with
  | nil =>
    obtain ⟨n,rfl⟩ : ∃ m, n = m+1 := ⟨n-1,by simp at h; omega⟩
    rw [List.flatMap_nil, List.nil_append, readString, if_pos rfl]
  | cons c s ih =>
    obtain ⟨n,rfl⟩ : ∃ m, n = m+1 := ⟨n-1,by simp at h; omega⟩
    obtain ⟨d,m,he,hd⟩ := escape_head c
    have hread := readChar_escape c (s.flatMap escape ++ '"'::l)
    rw [List.flatMap_cons, List.append_assoc]
    rw [he, List.cons_append] at hread ⊢
    rw [readString, if_neg hd, hread]
    simp only [Option.bind_eq_bind, Option.bind_some, Option.pure_def]
    rw [ih (by simp at h; omega)]
    rfl

theorem length_le_flatMap (s : List Char) : s.length ≤ (s.flatMap escape).length := by
  induction s with
  | nil => simp
  | cons c s ih =>
    obtain ⟨d,m,he,-⟩ := escape_head c
    simp only [List.flatMap_cons, he, List.length_append, List.length_cons]
    omega

/-- A scan takes characters of a number off the front of a text. -/
def Scans (l m : List Char) : Prop := ∃ p, l = p++m ∧ ∀ c ∈ p, isNumberChar c = true

theorem scans_refl (l : List Char) : Scans l l := ⟨[],rfl,by simp⟩

theorem Scans.trans {l m n : List Char} (h : Scans l m) (h' : Scans m n) : Scans l n := by
  obtain ⟨p,rfl,hp⟩ := h
  obtain ⟨q,rfl,hq⟩ := h'
  refine ⟨p++q,(List.append_assoc ..).symm,fun c hc => ?_⟩
  exact (List.mem_append.mp hc).elim (hp c) (hq c)

theorem scans_head {l : List Char} {c : Char} (h : l.head? = some c) (hc : isNumberChar c = true) :
    Scans l l.tail := by
  obtain ⟨m,rfl⟩ := List.head?_eq_some_iff.mp h
  exact ⟨[c],rfl,by simpa using hc⟩

theorem scanDigits_some {l m : List Char} (h : scanDigits l = some m) :
    Scans l m ∧ l.head?.isSome := by
  unfold scanDigits at h
  split_ifs at h with hd
  obtain rfl := Option.some.inj h
  refine ⟨⟨_,(List.takeWhile_append_dropWhile).symm,fun c hc => ?_⟩,?_⟩
  · simp [isNumberChar, List.mem_takeWhile_imp hc]
  · cases l with
    | nil => exact absurd rfl hd
    | cons c l => rfl

theorem scanInteger_some {l m : List Char} (h : scanInteger l = some m) :
    Scans l m ∧ l.head?.isSome := by
  unfold scanInteger at h
  split_ifs at h with hz
  · obtain rfl := Option.some.inj h
    exact ⟨scans_head hz (by decide),by simp [hz]⟩
  · exact scanDigits_some h

theorem scanFraction_some {l m : List Char} (h : scanFraction l = some m) : Scans l m := by
  unfold scanFraction at h
  split_ifs at h with hp
  · exact (scans_head hp (by decide)).trans (scanDigits_some h).1
  · obtain rfl := Option.some.inj h
    exact scans_refl l

theorem scanExponent_some {l m : List Char} (h : scanExponent l = some m) : Scans l m := by
  unfold scanExponent at h
  split_ifs at h with he hs
  · have hhead : Scans l l.tail := by
      rcases he with he | he <;> exact scans_head he (by decide)
    have hsign : Scans l.tail l.tail.tail := by
      rcases hs with hs | hs <;> exact scans_head hs (by decide)
    exact (hhead.trans hsign).trans (scanDigits_some h).1
  · have hhead : Scans l l.tail := by
      rcases he with he | he <;> exact scans_head he (by decide)
    exact hhead.trans (scanDigits_some h).1
  · obtain rfl := Option.some.inj h
    exact scans_refl l

theorem number_chars {l : List Char} (h : isNumber l = true) :
    l ≠ [] ∧ ∀ c ∈ l, isNumberChar c = true := by
  obtain ⟨a,hinteger,h⟩ := Option.bind_eq_some_iff.mp (of_decide_eq_true h)
  obtain ⟨b,hfraction,hexponent⟩ := Option.bind_eq_some_iff.mp h
  obtain ⟨hscan,hsome⟩ := scanInteger_some hinteger
  have hsign : Scans l (if l.head? = some '-' then l.tail else l) := by
    split_ifs with hm
    · exact scans_head hm (by decide)
    · exact scans_refl l
  obtain ⟨p,hl,hp⟩ := ((hsign.trans hscan).trans (scanFraction_some hfraction)).trans
    (scanExponent_some hexponent)
  rw [List.append_nil] at hl
  refine ⟨?_,hl ▸ hp⟩
  rintro rfl
  cases hsome

theorem digits_number {l : List Char} (hne : l ≠ []) (hd : ∀ c ∈ l, c.isDigit = true)
    (hz : l.head? = some '0' → l = ['0']) : isNumber l = true := by
  by_cases h0 : l.head? = some '0'
  · rw [hz h0]
    decide
  · have htake : l.takeWhile Char.isDigit = l := List.takeWhile_eq_self_iff.mpr hd
    have hdrop : l.dropWhile Char.isDigit = [] := List.dropWhile_eq_nil_iff.mpr hd
    have hminus : l.head? ≠ some '-' := by
      intro hm
      exact absurd (hd '-' (List.mem_of_head? hm)) (by decide)
    have hinteger : scanInteger l = some [] := by
      rw [scanInteger, if_neg h0, scanDigits, htake, if_neg hne, hdrop]
    rw [isNumber, if_neg hminus, hinteger]
    decide

mutual
def Regular : Json → Prop
  | .num t => isNumber t.toList = true
  | .arr l => RegularItems l
  | .obj l => RegularFields l
  | _ => True

def RegularItems : List Json → Prop
  | [] => True
  | a::l => a.Regular ∧ RegularItems l

def RegularFields : List (String × Json) → Prop
  | [] => True
  | (_,a)::l => a.Regular ∧ RegularFields l
end

def Ends (l : List Char) : Prop := ∀ c ∈ l.head?, isNumberChar c = false

/-- Only a number needs what follows it to end it. -/
def Stops (j : Json) (l : List Char) : Prop := ∀ t, j = .num t → Ends l

theorem stops_cons {j : Json} {c : Char} {l : List Char} (h : isNumberChar c = false) :
    Stops j (c::l) := by
  intro t _ d hd
  obtain rfl := Option.some.inj hd
  exact h

theorem takeWhile_number {t l : List Char} (h : ∀ c ∈ t, isNumberChar c = true) (hl : Ends l) :
    (t++l).takeWhile isNumberChar = t ∧ (t++l).dropWhile isNumberChar = l := by
  rw [List.takeWhile_append_of_pos h, List.dropWhile_append_of_pos h]
  cases l with
  | nil => simp
  | cons c l =>
    have hc := hl c rfl
    simp [hc]

theorem compact_head {j : Json} (h : j.Regular) : ∃ c l, j.compact = c::l ∧ c ≠ ']' ∧ c ≠ '\x7d' := by
  cases j with
  | null => exact ⟨_,_,rfl,by decide,by decide⟩
  | bool b => cases b <;> exact ⟨_,_,rfl,by decide,by decide⟩
  | num t =>
    obtain ⟨hne,hall⟩ := number_chars h
    obtain ⟨c,l,hl⟩ := List.exists_cons_of_ne_nil hne
    have hc := hall c (by simp [hl])
    refine ⟨c,l,by rw [compact, hl],?_,?_⟩ <;>
    · rintro rfl
      exact absurd hc (by decide)
  | str s => exact ⟨_,_,rfl,by decide,by decide⟩
  | arr l => exact ⟨_,_,rfl,by decide,by decide⟩
  | obj l => exact ⟨_,_,rfl,by decide,by decide⟩

theorem compactItems_cons (a : Json) (l : List Json) :
    compactItems (a::l) = a.compact ++ if l = [] then [] else ','::compactItems l := by
  cases l with
  | nil => simp [compactItems]
  | cons b l => simp [compactItems]

theorem compactFields_cons (k : String) (a : Json) (l : List (String × Json)) :
    compactFields ((k,a)::l) =
      quote k ++ ':'::(a.compact ++ if l = [] then [] else ','::compactFields l) := by
  cases l with
  | nil => simp [compactFields]
  | cons b l => simp [compactFields]

theorem readQuote (s : String) (l : List Char) {n : ℕ} (h : (s.toList.flatMap escape).length ≤ n) :
    readString (n+1) (s.toList.flatMap escape ++ '"'::l) = some (s.toList,l) :=
  readString_quote _ _ (by have := length_le_flatMap s.toList; omega)

mutual
theorem readValue_compact : ∀ (j : Json) (l : List Char) (n : ℕ), j.Regular → Stops j l →
    2*j.compact.length < n → readValue n (j.compact ++ l) = some (j,l)
  | .null, l, n, _, _, hn => by
    obtain ⟨n,rfl⟩ : ∃ m, n = m+1 := ⟨n-1,by omega⟩
    rfl
  | .bool b, l, n, _, _, hn => by
    obtain ⟨n,rfl⟩ : ∃ m, n = m+1 := ⟨n-1,by omega⟩
    cases b <;> rfl
  | .num t, l, n, h, hl, hn => by
    obtain ⟨n,rfl⟩ : ∃ m, n = m+1 := ⟨n-1,by omega⟩
    obtain ⟨hne,hall⟩ := number_chars h
    obtain ⟨c,m,hm⟩ := List.exists_cons_of_ne_nil hne
    have hc := hall c (by simp [hm])
    obtain ⟨htake,hdrop⟩ := takeWhile_number (fun d hd => hall d (by simp [hm, hd])) (hl t rfl) (t := m)
    have hother : ∀ d, isNumberChar d = false → c ≠ d := by
      rintro d hd rfl
      rw [hc] at hd
      cases hd
    rw [compact, hm, List.cons_append, readValue, if_neg (hother _ (by decide)),
      if_neg (hother _ (by decide)), if_neg (hother _ (by decide)), if_pos hc, htake, hdrop, ← hm,
      if_pos (show isNumber t.toList = true from h), String.ofList_toList]
  | .str s, l, n, _, _, hn => by
    obtain ⟨n,rfl⟩ : ∃ m, n = m+1 := ⟨n-1,by omega⟩
    have hread := readQuote s l (n := (s.toList.flatMap escape ++ '"'::l).length) (by simp)
    rw [compact, quote, List.cons_append, List.cons_append, List.append_assoc, readValue, if_pos rfl]
    rw [List.singleton_append, hread]
    simp
  | .arr items, l, n, h, _, hn => by
    obtain ⟨n,rfl⟩ : ∃ m, n = m+1 := ⟨n-1,by omega⟩
    cases items with
    | nil => rfl
    | cons a items =>
      have hread := readItems_compact (a::items) l n (List.cons_ne_nil _ _) h
        (by simp only [compact, List.length_cons, List.length_append] at hn; omega)
      have hhead : (compactItems (a::items) ++ ']'::l).head? ≠ some ']' := by
        obtain ⟨c,m,hm,hc,-⟩ := compact_head h.1
        rw [compactItems_cons, hm]
        simpa using hc
      rw [compact, List.cons_append, List.cons_append, List.append_assoc, List.singleton_append,
        readValue, if_neg (by decide), if_pos rfl, if_neg hhead, hread]
      rfl
  | .obj fields, l, n, h, _, hn => by
    obtain ⟨n,rfl⟩ : ∃ m, n = m+1 := ⟨n-1,by omega⟩
    cases fields with
    | nil => rfl
    | cons e fields =>
      have hread := readFields_compact (e::fields) l n (List.cons_ne_nil _ _) h
        (by simp only [compact, List.length_cons, List.length_append] at hn; omega)
      have hhead : (compactFields (e::fields) ++ '\x7d'::l).head? ≠ some '\x7d' := by
        obtain ⟨k,a⟩ := e
        rw [compactFields_cons, quote]
        simp
      rw [compact, List.cons_append, List.cons_append, List.append_assoc, List.singleton_append,
        readValue, if_neg (by decide), if_neg (by decide), if_pos rfl, if_neg hhead, hread]
      rfl

theorem readItems_compact : ∀ (items : List Json) (l : List Char) (n : ℕ), items ≠ [] →
    RegularItems items → 2*(compactItems items).length+1 < n →
    readItems n (compactItems items ++ ']'::l) = some (items,l)
  | [], _, _, hne, _, _ => absurd rfl hne
  | a::items, l, n, _, h, hn => by
    obtain ⟨n,rfl⟩ : ∃ m, n = m+1 := ⟨n-1,by omega⟩
    rw [compactItems_cons] at hn ⊢
    rw [List.length_append] at hn
    rw [List.append_assoc, readItems]
    by_cases hnil : items = []
    · subst hnil
      have hread := readValue_compact a (']'::l) n h.1 (stops_cons (by decide)) (by omega)
      rw [if_pos rfl, List.nil_append, hread]
      simp
    · rw [if_neg hnil, List.length_cons] at hn
      have hread := readValue_compact a (','::(compactItems items ++ ']'::l)) n h.1
        (stops_cons (by decide)) (by omega)
      have hrest := readItems_compact items l n hnil h.2 (by omega)
      rw [if_neg hnil, List.cons_append, hread]
      simp [hrest]

theorem readFields_compact : ∀ (fields : List (String × Json)) (l : List Char) (n : ℕ), fields ≠ [] →
    RegularFields fields → 2*(compactFields fields).length+1 < n →
    readFields n (compactFields fields ++ '\x7d'::l) = some (fields,l)
  | [], _, _, hne, _, _ => absurd rfl hne
  | (k,a)::fields, l, n, _, h, hn => by
    obtain ⟨n,rfl⟩ : ∃ m, n = m+1 := ⟨n-1,by omega⟩
    rw [compactFields_cons, quote] at hn ⊢
    simp only [List.length_append, List.length_cons, List.length_nil] at hn
    have hkey : ∀ m, readString (('"'::(k.toList.flatMap escape ++ '"'::m)).length+1)
        (k.toList.flatMap escape ++ '"'::m) = some (k.toList,m) :=
      fun m => readQuote k m (by simp; omega)
    rw [readFields]
    by_cases hnil : fields = []
    · subst hnil
      have hread := readValue_compact a ('\x7d'::l) n h.1 (stops_cons (by decide)) (by omega)
      simp only [if_true, List.append_nil, List.cons_append, List.append_assoc, List.nil_append,
        List.head?_cons, List.tail_cons, hkey, hread, Option.bind_eq_bind, Option.bind_some,
        String.ofList_toList]
      rfl
    · rw [if_neg hnil, List.length_cons] at hn
      have hread := readValue_compact a (','::(compactFields fields ++ '\x7d'::l)) n h.1
        (stops_cons (by decide)) (by omega)
      have hrest := readFields_compact fields l n hnil h.2 (by omega)
      simp only [if_neg hnil, if_true, List.cons_append, List.append_assoc, List.nil_append,
        List.head?_cons, List.tail_cons, hkey, hread, hrest, Option.bind_eq_bind, Option.bind_some,
        String.ofList_toList]
      rfl
end

/-- Texts of values followed by different rests are told apart. -/
theorem compact_append_injective {a b : Json} {l m : List Char} (ha : a.Regular) (hb : b.Regular)
    (hl : Stops a l) (hm : Stops b m) (h : a.compact ++ l = b.compact ++ m) : a = b ∧ l = m := by
  have hfst := readValue_compact a l (2*a.compact.length+2*b.compact.length+1) ha hl (by omega)
  have hsnd := readValue_compact b m (2*a.compact.length+2*b.compact.length+1) hb hm (by omega)
  rw [h, hsnd] at hfst
  exact ⟨(Prod.mk.inj (Option.some.inj hfst)).1.symm,(Prod.mk.inj (Option.some.inj hfst)).2.symm⟩

theorem read_canonicalJson {j : Json} (h : j.Regular) : read (canonicalJson j) = some j := by
  have hread := readValue_compact j [] (2*j.compact.length+1) h (fun _ _ => by simp [Ends]) (by omega)
  rw [List.append_nil] at hread
  rw [read, canonicalJson, String.length_ofList, String.toList_ofList, hread]

theorem regularFields_iff {l : List (String × Json)} :
    RegularFields l ↔ ∀ e ∈ l, e.2.Regular := by
  induction l with
  | nil => simp [RegularFields]
  | cons e l ih =>
    obtain ⟨k,a⟩ := e
    simp [RegularFields, ih]

theorem regular_set {j v : Json} {k : String} (hj : j.Regular) (hv : v.Regular) :
    (j.set k v).Regular := by
  cases j with
  | obj fields =>
    refine regularFields_iff.mpr (fun e he => ?_)
    rcases mem_put he with rfl | he
    · exact hv
    · exact regularFields_iff.mp hj e he
  | _ => exact hj

theorem regular_ofPairs {l : List (String × Json)} (h : ∀ e ∈ l, e.2.Regular) :
    (ofPairs l).Regular := by
  have hall : SortedMap.Entrywise (fun _ v => v.Regular) (SortedMap.empty.insertAll l) :=
    SortedMap.Entrywise.empty.insertAll h
  exact regularFields_iff.mpr (fun e he => hall e.1 e.2 (SortedMap.mem_entries.mp he))

theorem regular_ofNat (n : ℕ) : (ofNat n).Regular := by
  have htext : (toString n).toList = Nat.toDigits 10 n := by
    simp
  show isNumber (toString n).toList = true
  rw [htext]
  refine digits_number Nat.toDigits_ne_nil
    (fun c hc => Nat.isDigit_of_mem_toDigits (by omega) (by omega) hc) (fun hz => ?_)
  by_cases h0 : n = 0
  · rw [h0]
    decide
  · exact absurd hz (toDigits_head h0)

end EvmState.Json
