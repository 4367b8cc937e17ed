import EvmState.Lib.JsonValue

/-!
# Canonical JSON

Identity hashes are over the compact text of a sorted value with every other
character than ASCII written as UTF-16 escapes. Capacity hashes are over the
same text with a space behind every separator. Both are made from the text of
the serializer, one character at a time.
-/

set_option autoImplicit false

namespace EvmState.CanonicalJson
open EvmState.Json

/-- The compact serializer and the parser of a JSON library. -/
structure Library where
  toText : Json → String
  parse : String → Option Json

def encodeUtf16 (c : Char) : List ℕ :=
  let n := c.toNat
  if n < 0x10000 then [n] else [0xD800+(n-0x10000)/1024,0xDC00+(n-0x10000)%1024]

/-- The escapes of a character that is not ASCII. -/
def units (c : Char) : List Char := (encodeUtf16 c).flatMap unicodeEscape

def asciiJson (text : List Char) : List Char :=
  text.flatMap (fun c => if c.toNat < 128 then [c] else units c)

/-- The loop over the canonical text with its two flags. -/
def spaces (quoted escaped : Bool) : List Char → List Char
  | [] => []
  | c::l =>
    if quoted then
      if escaped then c::spaces quoted false l
      else if c = '\\' then c::spaces quoted true l
      else if c = '"' then c::spaces false escaped l
      else c::spaces quoted escaped l
    else if c = '"' then c::spaces true escaped l
    else if c = ':' ∨ c = ',' then c :: ' ' :: spaces quoted escaped l
    else c::spaces quoted escaped l

section Functions
variable (lib : Library)

def canonicalJson (value : Json) : String := String.ofList (asciiJson (lib.toText value).toList)

def spacedJson (value : Json) : String :=
  String.ofList (spaces false false (canonicalJson lib value).toList)

/-- What JSON says of the texts that a parser reads: a blank may stand behind
a separator, a character that is not ASCII stands in a string and not behind a
backslash, and there its escapes may stand for it. -/
structure Lawful : Prop where
  blank : ∀ {l m : List Char} {c : Char} {v : Json}, lib.parse (String.ofList (l ++ c::m)) = some v →
    l.foldl scan (false,false) = (false,false) → c = ':' ∨ c = ',' →
      lib.parse (String.ofList (l ++ c :: ' ' :: m)) = some v
  quoted : ∀ {l m : List Char} {c : Char} {v : Json}, lib.parse (String.ofList (l ++ c::m)) = some v →
    128 ≤ c.toNat → l.foldl scan (false,false) = (true,false)
  escaped : ∀ {l m : List Char} {c : Char} {v : Json}, lib.parse (String.ofList (l ++ c::m)) = some v →
    l.foldl scan (false,false) = (true,false) → 128 ≤ c.toNat →
      lib.parse (String.ofList (l ++ (units c ++ m))) = some v

/-- The parser undoes the serializer. -/
def Inverse (value : Json) : Prop := lib.parse (lib.toText value) = some value

end Functions

def serdeEscape (c : Char) : List Char :=
  let n := c.toNat
  if c = '"' then ['\\', '"']
  else if c = '\\' then ['\\', '\\']
  else if n = 8 then ['\\', 'b']
  else if n = 9 then ['\\', 't']
  else if n = 10 then ['\\', 'n']
  else if n = 12 then ['\\', 'f']
  else if n = 13 then ['\\', 'r']
  else if n < 32 then unicodeEscape n
  else [c]

def serdeString (s : String) : List Char := '"' :: s.toList.flatMap serdeEscape ++ ['"']

mutual
def toText : Json → List Char
  | .null => "null".toList
  | .bool b => if b then "true".toList else "false".toList
  | .num t => t.toList
  | .str s => serdeString s
  | .arr l => '[' :: itemsText l ++ [']']
  | .obj l => '\x7b' :: fieldsText l ++ ['\x7d']

def itemsText : List Json → List Char
  | [] => []
  | [a] => toText a
  | a::l => toText a ++ ',' :: itemsText l

def fieldsText : List (String × Json) → List Char
  | [] => []
  | [(k,a)] => serdeString k ++ ':' :: toText a
  | (k,a)::l => serdeString k ++ ':' :: toText a ++ ',' :: fieldsText l
end

theorem asciiJson_append (l m : List Char) : asciiJson (l++m) = asciiJson l ++ asciiJson m :=
  List.flatMap_append

theorem asciiJson_plain {l : List Char} (h : ∀ c ∈ l, c.toNat < 128) : asciiJson l = l := by
  induction l with
  | nil => rfl
  | cons c l ih =>
    have hrest := ih (fun d hd => h d (List.mem_cons_of_mem _ hd))
    rw [asciiJson, List.flatMap_cons, if_pos (h c (by simp))]
    exact congrArg (c::·) hrest

theorem digit_ascii : ∀ n < 16, (Hex.digit n).toNat < 128 := by decide

theorem unicodeEscape_ascii (n : ℕ) : ∀ c ∈ unicodeEscape n, c.toNat < 128 := by
  intro c hc
  simp only [unicodeEscape, hexDigits, List.mem_cons, List.not_mem_nil, or_false] at hc
  rcases hc with rfl | rfl | rfl | rfl | rfl | rfl
  · decide
  · decide
  · exact digit_ascii _ (by omega)
  · exact digit_ascii _ (by omega)
  · exact digit_ascii _ (by omega)
  · exact digit_ascii _ (by omega)

theorem units_ascii (c : Char) : ∀ d ∈ units c, d.toNat < 128 := by
  intro d hd
  obtain ⟨n,-,hn⟩ := List.mem_flatMap.mp hd
  exact unicodeEscape_ascii n d hn

theorem asciiJson_ascii (l : List Char) : ∀ c ∈ asciiJson l, c.toNat < 128 := by
  intro c hc
  obtain ⟨d,-,hd⟩ := List.mem_flatMap.mp hc
  split_ifs at hd with h
  · obtain rfl := List.mem_singleton.mp hd
    exact h
  · exact units_ascii d c hd

theorem asciiJson_escape (c : Char) : asciiJson (serdeEscape c) = escape c := by
  have hpair : ∀ d : Char, d.toNat < 128 → asciiJson ['\\',d] = ['\\',d] := by
    intro d hd
    refine asciiJson_plain (fun e he => ?_)
    rcases List.mem_cons.mp he with rfl | he
    · decide
    · obtain rfl := List.mem_singleton.mp he
      exact hd
  simp only [serdeEscape, escape]
  split_ifs with hq hb h8 h9 h10 h12 h13 h32 h128 hbmp
  · exact hpair _ (by decide)
  · exact hpair _ (by decide)
  · exact hpair _ (by decide)
  · exact hpair _ (by decide)
  · exact hpair _ (by decide)
  · exact hpair _ (by decide)
  · exact hpair _ (by decide)
  · exact asciiJson_plain (unicodeEscape_ascii _)
  · exact asciiJson_plain (by simpa using h128)
  · simp [asciiJson, units, encodeUtf16, h128, hbmp]
  · simp [asciiJson, units, encodeUtf16, h128, hbmp]

theorem asciiJson_string (s : String) : asciiJson (serdeString s) = quote s := by
  have hbody : asciiJson (s.toList.flatMap serdeEscape) = s.toList.flatMap escape := by
    induction s.toList with
    | nil => rfl
    | cons c l ih => rw [List.flatMap_cons, List.flatMap_cons, asciiJson_append, asciiJson_escape, ih]
  have hquote : asciiJson ['"'] = ['"'] := asciiJson_plain (by simp)
  rw [serdeString, quote, ← List.singleton_append, List.append_assoc, asciiJson_append,
    asciiJson_append, hquote, hbody]
  rfl

theorem itemsText_cons (a : Json) (l : List Json) :
    itemsText (a::l) = toText a ++ if l = [] then [] else ','::itemsText l := by
  cases l with
  | nil => simp [itemsText]
  | cons b l => simp [itemsText]

theorem fieldsText_cons (k : String) (a : Json) (l : List (String × Json)) :
    fieldsText ((k,a)::l) =
      serdeString k ++ ':'::(toText a ++ if l = [] then [] else ','::fieldsText l) := by
  cases l with
  | nil => simp [fieldsText]
  | cons b l => simp [fieldsText]

theorem asciiJson_cons {c : Char} (h : c.toNat < 128) (l : List Char) :
    asciiJson (c::l) = c::asciiJson l := by
  rw [asciiJson, List.flatMap_cons, if_pos h]
  rfl

theorem asciiJson_units {c : Char} (h : ¬c.toNat < 128) (l : List Char) :
    asciiJson (c::l) = units c ++ asciiJson l := by
  rw [asciiJson, List.flatMap_cons, if_neg h]
  rfl

theorem number_ascii {c : Char} (h : isNumberChar c = true) : c.toNat < 128 := by
  simp only [isNumberChar, Char.isDigit, Bool.or_eq_true, Bool.and_eq_true, decide_eq_true_eq] at h
  rcases h with ((((h | rfl) | rfl) | rfl) | rfl) | rfl
  · have h9 : '9'.val.toNat = 57 := rfl
    have := UInt32.le_iff_toNat_le.mp h.2
    have hc : c.toNat = c.val.toNat := rfl
    omega
  all_goals decide

mutual
theorem asciiJson_toText : ∀ j : Json, j.Regular → asciiJson (toText j) = j.compact
  | .null, _ => asciiJson_plain (by simp [toText])
  | .bool b, _ => by cases b <;> exact asciiJson_plain (by simp [toText])
  | .num t, h => asciiJson_plain (fun c hc => number_ascii ((number_chars h).2 c hc))
  | .str s, _ => asciiJson_string s
  | .arr l, h => by
    rw [toText, compact, List.cons_append, asciiJson_cons (by decide), asciiJson_append,
      asciiJson_items l h, asciiJson_cons (by decide)]
    rfl
  | .obj l, h => by
    rw [toText, compact, List.cons_append, asciiJson_cons (by decide), asciiJson_append,
      asciiJson_fields l h, asciiJson_cons (by decide)]
    rfl

theorem asciiJson_items : ∀ l : List Json, RegularItems l → asciiJson (itemsText l) = compactItems l
  | [], _ => rfl
  | a::l, h => by
    rw [itemsText_cons, compactItems_cons, asciiJson_append, asciiJson_toText a h.1]
    split_ifs
    · rfl
    · rw [asciiJson_cons (by decide), asciiJson_items l h.2]

theorem asciiJson_fields : ∀ l : List (String × Json), RegularFields l →
    asciiJson (fieldsText l) = compactFields l
  | [], _ => rfl
  | (k,a)::l, h => by
    rw [fieldsText_cons, compactFields_cons, asciiJson_append, asciiJson_string,
      asciiJson_cons (by decide), asciiJson_append, asciiJson_toText a h.1]
    split_ifs
    · rfl
    · rw [asciiJson_cons (by decide), asciiJson_fields l h.2]
end

/-- Outside a string nothing is escaped. -/
def Valid (s : Quoting) : Prop := s.1 = false → s.2 = false

theorem valid_scan {s : Quoting} (h : Valid s) (c : Char) : Valid (scan s c) := by
  unfold Valid scan
  split_ifs <;> simp_all [Valid]

theorem spaces_cons {s : Quoting} (h : Valid s) (c : Char) (l : List Char) :
    spaces s.1 s.2 (c::l) = c::(if s.1 = false ∧ (c = ':' ∨ c = ',') then
      ' ' :: spaces (scan s c).1 (scan s c).2 l else spaces (scan s c).1 (scan s c).2 l) := by
  obtain ⟨quoted,escaped⟩ := s
  cases quoted with
  | true => cases escaped <;> by_cases hb : c = '\\' <;> by_cases hq : c = '"' <;>
      simp [spaces, scan, hb, hq]
  | false =>
    obtain rfl : escaped = false := h rfl
    by_cases hq : c = '"'
    · subst hq
      simp [spaces, scan]
    · by_cases hs : c = ':' ∨ c = ','
      · simp [spaces, scan, hq, hs]
      · simp [spaces, scan, hq, hs]

section Parsing
variable {lib : Library} {v w : Json}

/-- The escapes are put in from the left, and each of them leaves a text that
is read as the same value. -/
theorem parse_asciiJson (hl : Lawful lib) {done rest : List Char}
    (h : lib.parse (String.ofList (done++rest)) = some v) :
    lib.parse (String.ofList (done ++ asciiJson rest)) = some v := by
  induction rest generalizing done with
  | nil => exact h
  | cons c rest ih =>
    by_cases hc : c.toNat < 128
    · rw [asciiJson_cons hc, ← List.singleton_append, ← List.append_assoc]
      exact ih (by rwa [List.append_assoc])
    · rw [asciiJson_units hc, ← List.append_assoc]
      refine ih ?_
      rw [List.append_assoc]
      exact hl.escaped h (hl.quoted h (by omega)) (by omega)

theorem parse_spaces (hl : Lawful lib) {s : Quoting} {done rest : List Char} (hv : Valid s)
    (hs : done.foldl scan (false,false) = s) (h : lib.parse (String.ofList (done++rest)) = some v) :
    lib.parse (String.ofList (done ++ spaces s.1 s.2 rest)) = some v := by
  induction rest generalizing done s with
  | nil => exact h
  | cons c rest ih =>
    rw [spaces_cons hv]
    split_ifs with hsep
    · -- behind a separator outside the strings the blank changes no flag
      obtain rfl : s = (false,false) := Prod.ext hsep.1 (hv hsep.1)
      have hsame : scan (false,false) c = (false,false) := by
        rcases hsep.2 with rfl | rfl <;> rfl
      have hblank := hl.blank h hs hsep.2
      have hshift : ∀ l, done ++ c :: ' ' :: l = (done++[c,' ']) ++ l := fun l => by simp
      rw [hsame, hshift]
      refine @ih (false,false) _ hv ?_ ?_
      · rw [List.foldl_append, hs, List.foldl_cons, hsame]
        rfl
      · rwa [List.append_assoc]
    · rw [List.append_cons]
      refine @ih (scan s c) _ (valid_scan hv c) ?_ ?_
      · rw [List.foldl_append, hs]
        rfl
      · rwa [List.append_assoc]

theorem parse_canonicalJson (hl : Lawful lib) (h : Inverse lib v) :
    lib.parse (canonicalJson lib v) = some v := by
  have htext : lib.parse (String.ofList ([] ++ (lib.toText v).toList)) = some v := by
    rw [List.nil_append, String.ofList_toList]
    exact h
  have hread := parse_asciiJson hl htext
  rwa [List.nil_append] at hread

theorem parse_spacedJson (hl : Lawful lib) (h : Inverse lib v) :
    lib.parse (spacedJson lib v) = some v := by
  have htext : lib.parse (String.ofList ([] ++ (canonicalJson lib v).toList)) = some v := by
    rw [List.nil_append, String.ofList_toList]
    exact parse_canonicalJson hl h
  have hread := parse_spaces hl (s := (false,false)) (fun _ => rfl) rfl htext
  rwa [List.nil_append] at hread

end Parsing

theorem canonicalJson_compact {parse : String → Option Json} {j : Json} (h : j.Regular) :
    canonicalJson ⟨fun v => String.ofList (toText v),parse⟩ j = j.canonicalJson := by
  rw [canonicalJson, String.toList_ofList, asciiJson_toText j h, Json.canonicalJson]

section Sample

def inStrings : Quoting → List Char → Bool
  | _, [] => true
  | s, c::l => (c.toNat < 128 || s = (true,false)) && inStrings (scan s c) l

theorem inStrings_append (s : Quoting) (l m : List Char) :
    inStrings s (l++m) = (inStrings s l && inStrings (l.foldl scan s) m) := by
  induction l generalizing s with
  | nil => rfl
  | cons c l ih => simp [inStrings, ih, Bool.and_assoc]

theorem inStrings_ascii (s : Quoting) {l : List Char} (h : ∀ c ∈ l, c.toNat < 128) :
    inStrings s l = true := by
  induction l generalizing s with
  | nil => rfl
  | cons c l ih =>
    obtain ⟨hc,hl⟩ := List.forall_mem_cons.mp h
    simp [inStrings, hc, ih _ hl]

theorem scan_units (c : Char) : (units c).foldl scan (true,false) = (true,false) := by
  have hescape : ∀ n, (unicodeEscape n).foldl scan (true,false) = (true,false) :=
    fun n => (inside_unicode n).2
  unfold units encodeUtf16
  dsimp only
  split_ifs
  · simp [hescape]
  · simp [hescape]

theorem scan_beyond {c : Char} (h : ¬c.toNat < 128) : scan (true,false) c = (true,false) := by
  have hne : ∀ d : Char, d.toNat < 128 → c ≠ d := by
    rintro d hd rfl
    exact h hd
  simp [scan, hne '"' (by decide), hne '\\' (by decide)]

theorem scan_asciiJson {s : Quoting} {l : List Char} (h : inStrings s l = true) :
    (asciiJson l).foldl scan s = l.foldl scan s := by
  induction l generalizing s with
  | nil => rfl
  | cons c l ih =>
    obtain ⟨hc,hl⟩ := Bool.and_eq_true_iff.mp h
    by_cases hascii : c.toNat < 128
    · rw [asciiJson_cons hascii, List.foldl_cons, List.foldl_cons, ih hl]
    · obtain rfl : s = (true,false) := by simpa [hascii] using hc
      rw [scan_beyond hascii] at hl
      rw [asciiJson_units hascii, List.foldl_append, scan_units, ih hl, List.foldl_cons,
        scan_beyond hascii]

theorem strip_separator {s : Quoting} {b : Behind} {l m : List Char} {c : Char}
    (hs : l.foldl scan s = (false,false)) (hc : c = ':' ∨ c = ',') :
    strip s b (l ++ c :: ' ' :: m) = strip s b (l ++ c::m) := by
  induction l generalizing s b with
  | nil =>
    obtain rfl : s = (false,false) := hs
    rcases hc with rfl | rfl <;> rfl
  | cons d l ih =>
    rw [List.cons_append, List.cons_append, strip, strip]
    by_cases ht : (s.1 || isToken d) = true
    · rw [if_pos ht, if_pos ht, ih hs]
    · have hsame : scan s d = s := by
        rw [Bool.not_eq_true, Bool.or_eq_false_iff] at ht
        have hq : d ≠ '"' := by
          rintro rfl
          exact absurd ht.2 (by decide)
        simp [scan, ht.1, hq]
      rw [List.foldl_cons, hsame] at hs
      rw [if_neg ht, if_neg ht, ih hs, ih hs]

def sampleLibrary : Library where
  toText v := String.ofList (toText v)
  parse text := if inStrings (false,false) text.toList then
    readText (String.ofList (asciiJson text.toList)) else none

theorem sampleLibrary_parse {l : List Char} {v : Json} :
    sampleLibrary.parse (String.ofList l) = some v ↔
      inStrings (false,false) l = true ∧ readText (String.ofList (asciiJson l)) = some v := by
  simp [sampleLibrary]

theorem sample_lawful : Lawful sampleLibrary where
  blank h hs hc := by
    obtain ⟨hin,hread⟩ := sampleLibrary_parse.mp h
    rw [inStrings_append, Bool.and_eq_true_iff, hs] at hin
    refine sampleLibrary_parse.mpr ⟨?_,?_⟩
    · rw [inStrings_append, hs, hin.1]
      rcases hc with rfl | rfl <;> exact hin.2
    · have hascii : ∀ d : Char, d = ':' ∨ d = ',' → d.toNat < 128 := by
        rintro d (rfl | rfl) <;> decide
      rw [asciiJson_append, asciiJson_cons (hascii _ hc)] at hread ⊢
      rw [asciiJson_cons (by decide)]
      rw [readText, String.toList_ofList] at hread ⊢
      rwa [strip_separator ((scan_asciiJson hin.1).trans hs) hc]
  quoted h hc := by
    obtain ⟨hin,-⟩ := sampleLibrary_parse.mp h
    rw [inStrings_append, Bool.and_eq_true_iff, inStrings, Bool.and_eq_true_iff] at hin
    simpa [show ¬_ < 128 from Nat.not_lt.mpr hc] using hin.2.1
  escaped h hs hc := by
    obtain ⟨hin,hread⟩ := sampleLibrary_parse.mp h
    rw [inStrings_append, Bool.and_eq_true_iff, hs, inStrings, Bool.and_eq_true_iff,
      scan_beyond (Nat.not_lt.mpr hc)] at hin
    refine sampleLibrary_parse.mpr ⟨?_,?_⟩
    · rw [inStrings_append, hs, hin.1, inStrings_append, scan_units, hin.2.2, Bool.true_and,
        Bool.and_true]
      exact inStrings_ascii _ (units_ascii _)
    · rw [asciiJson_append, asciiJson_units (Nat.not_lt.mpr hc)] at hread
      rwa [asciiJson_append, asciiJson_append, asciiJson_plain (units_ascii _)]

def sampleValue : Json := .obj [("a:b",.str "\"\\, 😀"),("c",.arr [.num "1",.null])]

end Sample
end EvmState.CanonicalJson
