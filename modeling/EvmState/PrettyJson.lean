import EvmState.CanonicalJson
import EvmState.Lib.Text

/-!
# Indented JSON

Metadata files hold the indented text of a value, in ASCII and with a line end
behind it. A line holds one item of an array or one field of an object, and an
empty one has no lines. A parser reads simple values back as they were written.
-/

set_option autoImplicit false

namespace EvmState.PrettyJson
open EvmState.Json EvmState.CanonicalJson EvmState.Text
open EvmState.Hex (Bytes)

def line (depth : ℕ) : List Char := '\n' :: List.replicate (2*depth) ' '

section Text
variable (string : String → List Char)

mutual
def pretty (depth : ℕ) : Json → List Char
  | .null => "null".toList
  | .bool b => if b then "true".toList else "false".toList
  | .num t => t.toList
  | .str s => string s
  | .arr [] => ['[', ']']
  | .arr l => '[' :: prettyItems (depth+1) l ++ (line depth ++ [']'])
  | .obj [] => ['\x7b', '\x7d']
  | .obj l => '\x7b' :: prettyFields (depth+1) l ++ (line depth ++ ['\x7d'])

def prettyItems (depth : ℕ) : List Json → List Char
  | [] => []
  | [a] => line depth ++ pretty depth a
  | a::l => line depth ++ pretty depth a ++ ',' :: prettyItems depth l

def prettyFields (depth : ℕ) : List (String × Json) → List Char
  | [] => []
  | [(k,a)] => line depth ++ string k ++ ':' :: ' ' :: pretty depth a
  | (k,a)::l => line depth ++ string k ++ ':' :: ' ' :: pretty depth a ++ ',' :: prettyFields depth l
end

theorem prettyItems_cons (depth : ℕ) (a : Json) (l : List Json) : prettyItems string depth (a::l) =
    line depth ++ (pretty string depth a ++
      if l = [] then [] else ',' :: prettyItems string depth l) := by
  cases l with
  | nil => simp [prettyItems]
  | cons b l => simp [prettyItems]

theorem prettyFields_cons (depth : ℕ) (k : String) (a : Json) (l : List (String × Json)) :
    prettyFields string depth ((k,a)::l) = line depth ++ (string k ++ ':' :: ' ' ::
      (pretty string depth a ++ if l = [] then [] else ',' :: prettyFields string depth l)) := by
  cases l with
  | nil => simp [prettyFields]
  | cons b l => simp [prettyFields]

theorem pretty_arr (depth : ℕ) {l : List Json} (hl : l ≠ []) : pretty string depth (.arr l) =
    '[' :: (prettyItems string (depth+1) l ++ (line depth ++ [']'])) := by
  cases l with
  | nil => exact absurd rfl hl
  | cons a l => rfl

theorem pretty_obj (depth : ℕ) {l : List (String × Json)} (hl : l ≠ []) :
    pretty string depth (.obj l) =
      '\x7b' :: (prettyFields string (depth+1) l ++ (line depth ++ ['\x7d'])) := by
  cases l with
  | nil => exact absurd rfl hl
  | cons a l => rfl

end Text

def metadataText (value : Json) : String :=
  String.ofList (asciiJson (pretty serdeString 0 value) ++ ['\n'])

/-- A parser of bytes keeps simple values in the forms in which they are
written: compact, compact with a line end behind, and indented. -/
structure ReadsBack (fromSlice : Bytes → Option Json) : Prop where
  compact : ∀ {v : Json}, Simple 127 v → fromSlice (utf8 v.canonicalJson) = some v
  line : ∀ {v : Json}, Simple 127 v → fromSlice (utf8 (v.canonicalJson ++ "\n")) = some v
  metadata : ∀ {v : Json}, Simple 127 v → fromSlice (utf8 (metadataText v)) = some v

theorem line_ascii (depth : ℕ) : asciiJson (line depth) = line depth := by
  refine asciiJson_plain (fun c hc => ?_)
  rcases List.mem_cons.mp hc with rfl | hc
  · decide
  · rw [List.eq_of_mem_replicate hc]
    decide

mutual
theorem asciiJson_pretty : ∀ (depth : ℕ) (j : Json), j.Regular →
    asciiJson (pretty serdeString depth j) = pretty quote depth j
  | _, .null, _ => asciiJson_plain (by simp [pretty])
  | _, .bool b, _ => by cases b <;> exact asciiJson_plain (by simp [pretty])
  | _, .num _, h => asciiJson_plain (fun c hc => number_ascii ((number_chars h).2 c hc))
  | _, .str s, _ => asciiJson_string s
  | _, .arr [], _ => asciiJson_plain (by simp [pretty])
  | depth, .arr (a::l), h => by
    rw [pretty_arr _ _ (by simp), pretty_arr _ _ (by simp), asciiJson_cons (by decide),
      asciiJson_append, asciiJson_append, asciiJson_prettyItems _ _ h, line_ascii,
      asciiJson_cons (by decide)]
    rfl
  | _, .obj [], _ => asciiJson_plain (by simp [pretty])
  | depth, .obj (a::l), h => by
    rw [pretty_obj _ _ (by simp), pretty_obj _ _ (by simp), asciiJson_cons (by decide),
      asciiJson_append, asciiJson_append, asciiJson_prettyFields _ _ h, line_ascii,
      asciiJson_cons (by decide)]
    rfl

theorem asciiJson_prettyItems : ∀ (depth : ℕ) (l : List Json), RegularItems l →
    asciiJson (prettyItems serdeString depth l) = prettyItems quote depth l
  | _, [], _ => rfl
  | depth, a::l, h => by
    rw [prettyItems_cons, prettyItems_cons, asciiJson_append, asciiJson_append, line_ascii,
      asciiJson_pretty depth a h.1]
    split_ifs
    · rfl
    · rw [asciiJson_cons (by decide), asciiJson_prettyItems depth l h.2]

theorem asciiJson_prettyFields : ∀ (depth : ℕ) (l : List (String × Json)), RegularFields l →
    asciiJson (prettyFields serdeString depth l) = prettyFields quote depth l
  | _, [], _ => rfl
  | depth, (k,a)::l, h => by
    rw [prettyFields_cons, prettyFields_cons, asciiJson_append, asciiJson_append, line_ascii,
      asciiJson_string, asciiJson_cons (by decide), asciiJson_cons (by decide), asciiJson_append,
      asciiJson_pretty depth a h.1]
    split_ifs
    · rfl
    · rw [asciiJson_cons (by decide), asciiJson_prettyFields depth l h.2]
end

/-- The reader keeps a text that it reads up to the end of a word or a token,
and goes on behind it. -/
def Kept (text kept : List Char) : Prop :=
  ∀ rest, ∃ b, b ≠ Behind.gap ∧
    strip (false,false) .token (text++rest) = (strip (false,false) b rest).map (kept++·)

theorem strip_token {c : Char} (hc : isToken c = true) (b : Behind) (l : List Char) :
    strip (false,false) b (c::l) = (strip (scan (false,false) c) .token l).map (c::·) := by
  rw [strip, if_pos (by simp [hc])]

theorem strip_blanks {l : List Char} (h : ∀ c ∈ l, isBlank c = true ∧ isToken c = false)
    (rest : List Char) :
    strip (false,false) .token (l++rest) = strip (false,false) .token rest := by
  induction l with
  | nil => rfl
  | cons c l ih =>
    obtain ⟨hb,ht⟩ := h c (by simp)
    rw [List.cons_append, strip, if_neg (by simp [ht]), if_pos hb, if_pos rfl]
    exact ih (fun d hd => h d (by simp [hd]))

theorem strip_close {c : Char} (hc : isToken c = true) {l : List Char}
    (h : ∀ d ∈ l, isBlank d = true ∧ isToken d = false) (b : Behind) (rest : List Char) :
    strip (false,false) b (l++c::rest) =
      (strip (scan (false,false) c) .token rest).map (c::·) := by
  induction l generalizing b with
  | nil => exact strip_token hc b rest
  | cons d l ih =>
    obtain ⟨hb,ht⟩ := h d (by simp)
    rw [List.cons_append, strip, if_neg (by simp [ht]), if_pos hb]
    exact ih (fun e he => h e (by simp [he])) _

theorem line_blank (depth : ℕ) : ∀ c ∈ line depth, isBlank c = true ∧ isToken c = false := by
  intro c hc
  rcases List.mem_cons.mp hc with rfl | hc
  · decide
  · rw [List.eq_of_mem_replicate hc]
    decide

theorem strip_append {s : Quoting} {b : Behind} {l : List Char} (h : Dense s l) (hb : b ≠ .gap)
    (rest : List Char) : ∃ b', b' ≠ Behind.gap ∧
      strip s b (l++rest) = (strip (l.foldl scan s) b' rest).map (l++·) := by
  induction l generalizing s b with
  | nil => exact ⟨b,hb,by simp⟩
  | cons c l ih =>
    obtain ⟨hc,hl⟩ := h
    by_cases ht : (s.1 || isToken c) = true
    · obtain ⟨b',hb',he⟩ := @ih (scan s c) .token hl (by decide)
      refine ⟨b',hb',?_⟩
      rw [List.cons_append, strip, if_pos ht, he, Option.map_map, List.foldl_cons]
      rfl
    · rw [Bool.not_eq_true, Bool.or_eq_false_iff] at ht
      have hsame : scan s c = s := by
        have hq : c ≠ '"' := by
          rintro rfl
          exact absurd ht.2 (by decide)
        simp [scan, ht.1, hq]
      rw [hsame] at hl
      obtain ⟨b',hb',he⟩ := @ih s .word hl (by decide)
      refine ⟨b',hb',?_⟩
      rw [List.cons_append, strip, if_neg (by simp [ht.1, ht.2]), hc ht.1, if_neg (by simp),
        if_neg hb, he, Option.map_map, List.foldl_cons, hsame]
      rfl

theorem kept_closed {l : List Char} (h : Closed l) : Kept l l := by
  intro rest
  obtain ⟨b,hb,he⟩ := strip_append h.1 (by decide : Behind.token ≠ .gap) rest
  rw [h.2] at he
  exact ⟨b,hb,he⟩

theorem kept_between {o c : Char} (ho : isToken o = true) (hc : isToken c = true)
    (hq : o ≠ '"' ∧ c ≠ '"') {inner kept : List Char} (h : Kept inner kept) (depth : ℕ) :
    Kept (o :: (inner ++ (line depth ++ [c]))) (o :: (kept ++ [c])) := by
  intro rest
  obtain ⟨b,-,he⟩ := h (line depth ++ (c::rest))
  have hscan : ∀ d : Char, d ≠ '"' → scan (false,false) d = (false,false) := by
    intro d hd
    simp [scan, hd]
  refine ⟨.token,by decide,?_⟩
  rw [List.cons_append, List.append_assoc, List.append_assoc, List.singleton_append,
    strip_token ho, hscan o hq.1, he, strip_close hc (line_blank depth), hscan c hq.2,
    Option.map_map, Option.map_map]
  congr 1
  funext l
  simp

mutual
theorem kept_pretty : ∀ (depth : ℕ) (j : Json), j.Regular → Kept (pretty quote depth j) j.compact
  | _, .null, h => kept_closed (closed_compact .null h)
  | _, .bool b, h => kept_closed (closed_compact (.bool b) h)
  | _, .num t, h => kept_closed (closed_compact (.num t) h)
  | _, .str s, h => kept_closed (closed_compact (.str s) h)
  | _, .arr [], h => kept_closed (closed_compact (.arr []) h)
  | depth, .arr (a::l), h => by
    rw [pretty_arr _ _ (by simp), compact, List.cons_append]
    exact kept_between (by decide) (by decide) (by decide) (kept_prettyItems (depth+1) (a::l) h) depth
  | _, .obj [], h => kept_closed (closed_compact (.obj []) h)
  | depth, .obj (a::l), h => by
    rw [pretty_obj _ _ (by simp), compact, List.cons_append]
    exact kept_between (by decide) (by decide) (by decide) (kept_prettyFields (depth+1) (a::l) h) depth

theorem kept_prettyItems : ∀ (depth : ℕ) (l : List Json), RegularItems l →
    Kept (prettyItems quote depth l) (compactItems l)
  | _, [], _ => kept_closed closed_nil
  | depth, a::l, h => by
    intro rest
    rw [prettyItems_cons, compactItems_cons, List.append_assoc, strip_blanks (line_blank depth),
      List.append_assoc]
    obtain ⟨b,hb,he⟩ := kept_pretty depth a h.1 ((if l = [] then [] else
      ',' :: prettyItems quote depth l) ++ rest)
    rw [he]
    split_ifs with hl
    · exact ⟨b,hb,by simp⟩
    · obtain ⟨b',hb',he'⟩ := kept_prettyItems depth l h.2 rest
      refine ⟨b',hb',?_⟩
      rw [List.cons_append, strip_token (by decide), show scan (false,false) ',' = (false,false)
        from rfl, he', Option.map_map, Option.map_map]
      simp [Function.comp_def]

theorem kept_prettyFields : ∀ (depth : ℕ) (l : List (String × Json)), RegularFields l →
    Kept (prettyFields quote depth l) (compactFields l)
  | _, [], _ => kept_closed closed_nil
  | depth, (k,a)::l, h => by
    intro rest
    rw [prettyFields_cons, compactFields_cons, List.append_assoc, strip_blanks (line_blank depth),
      List.append_assoc, List.cons_append, List.cons_append, List.append_assoc]
    obtain ⟨b,-,hk⟩ := kept_closed (closed_quote k) (':' :: ' ' :: (pretty quote depth a ++
      ((if l = [] then [] else ',' :: prettyFields quote depth l) ++ rest)))
    have hblank : strip (false,false) .token ([' '] ++ (pretty quote depth a ++
        ((if l = [] then [] else ',' :: prettyFields quote depth l) ++ rest))) =
        strip (false,false) .token (pretty quote depth a ++
          ((if l = [] then [] else ',' :: prettyFields quote depth l) ++ rest)) :=
      strip_blanks (by simp; decide) _
    rw [hk, strip_token (by decide), show scan (false,false) ':' = (false,false) from rfl,
      ← List.singleton_append, hblank]
    obtain ⟨b,hb,he⟩ := kept_pretty depth a h.1 ((if l = [] then [] else
      ',' :: prettyFields quote depth l) ++ rest)
    rw [he]
    split_ifs with hl
    · exact ⟨b,hb,by simp [Function.comp_def]⟩
    · obtain ⟨b',hb',he'⟩ := kept_prettyFields depth l h.2 rest
      refine ⟨b',hb',?_⟩
      rw [List.cons_append, strip_token (by decide), show scan (false,false) ',' = (false,false)
        from rfl, he']
      simp [Function.comp_def]
end

theorem readText_metadataText (v : Value) : readText (metadataText v.tree) = some v.tree := by
  obtain ⟨b,-,he⟩ := kept_pretty 0 v.tree v.regular ['\n']
  have hend : strip (false,false) b ['\n'] = some [] := by
    cases b <;> rfl
  rw [metadataText, asciiJson_pretty 0 v.tree v.regular, readText, String.toList_ofList, he, hend]
  simp only [Option.map_some, List.append_nil, Option.bind_some]
  exact read_value

example : metadataText (.obj [("a",.arr [.num "1",.arr []]),("b",.str "é")]) =
    "\x7b\n  \"a\": [\n    1,\n    []\n  ],\n  \"b\": \"\\u00e9\"\n\x7d\n" := by decide +kernel

theorem readText_line (v : Value) : readText (v.tree.canonicalJson ++ "\n") = some v.tree := by
  obtain ⟨b,-,he⟩ := kept_closed (closed_compact v.tree v.regular) ['\n']
  have hend : strip (false,false) b ['\n'] = some [] := by
    cases b <;> rfl
  rw [readText, Json.canonicalJson, String.toList_append, String.toList_ofList,
    show "\n".toList = ['\n'] from rfl, he, hend]
  simp only [Option.map_some, List.append_nil, Option.bind_some]
  exact read_value

theorem readText_compact (v : Value) : readText v.tree.canonicalJson = some v.tree := by
  have hdense := (closed_compact v.tree v.regular).1
  rw [readText, Json.canonicalJson, String.toList_ofList, strip_dense hdense (by decide),
    Option.bind_some, read_value]

/-- A parser that keeps the numbers as they are written. -/
def readBytes (bytes : Bytes) : Option Json := (ofUtf8 bytes).bind readText

theorem readBytes_readsBack : ReadsBack readBytes where
  compact h := by
    rw [readBytes, ofUtf8_utf8]
    exact readText_compact h.stored.toValue
  line h := by
    rw [readBytes, ofUtf8_utf8]
    exact readText_line h.stored.toValue
  metadata h := by
    rw [readBytes, ofUtf8_utf8]
    exact readText_metadataText h.stored.toValue

end EvmState.PrettyJson
