import EvmState.Lib.Json

/-!
# Texts

A text and its UTF-8 bytes, characters of one byte, and decimal numbers
written without a leading zero, whose text their value determines.
-/

set_option autoImplicit false

namespace EvmState.Text
open EvmState.Hex

def utf8 (s : String) : Bytes := s.toByteArray.data.toList

def ofUtf8 (b : Bytes) : Option String := String.fromUTF8? ⟨b.toArray⟩

theorem ofUtf8_utf8 (s : String) : ofUtf8 (utf8 s) = some s := by
  have hb : (⟨(utf8 s).toArray⟩ : ByteArray) = s.toByteArray := by simp [utf8]
  rw [ofUtf8, hb, String.fromUTF8?, dif_pos s.isValidUTF8]
  rfl

theorem utf8_of_ofUtf8 {b : Bytes} {s : String} (h : ofUtf8 b = some s) : utf8 s = b := by
  unfold ofUtf8 String.fromUTF8? at h
  split_ifs at h with hv
  obtain rfl := Option.some.inj h
  simp [utf8, String.fromUTF8]

theorem utf8_injective : Function.Injective utf8 := by
  intro s t h
  have hs := ofUtf8_utf8 s
  rw [h, ofUtf8_utf8] at hs
  exact (Option.some.inj hs).symm

theorem utf8_length (s : String) : (utf8 s).length = s.utf8ByteSize := rfl

theorem utf8ByteSize_ofList (l : List Char) :
    (String.ofList l).utf8ByteSize = (l.map Char.utf8Size).sum := by
  induction l with
  | nil => rfl
  | cons c l ih =>
    rw [← List.singleton_append, String.ofList_append, String.utf8ByteSize_append, ih,
      ← String.singleton_eq_ofList, String.utf8ByteSize_singleton]
    simp

theorem utf8ByteSize_le (l : List Char) : (String.ofList l).utf8ByteSize ≤ 4*l.length := by
  rw [utf8ByteSize_ofList]
  induction l with
  | nil => simp
  | cons c l ih =>
    have := c.utf8Size_le_four
    simp only [List.map_cons, List.sum_cons, List.length_cons]
    omega

theorem utf8ByteSize_ascii {l : List Char} (h : ∀ c ∈ l, c.utf8Size = 1) :
    (String.ofList l).utf8ByteSize = l.length := by
  rw [utf8ByteSize_ofList, List.map_congr_left h]
  simp

theorem alphanum_size {c : Char} (h : c.isAlphanum = true) : c.utf8Size = 1 := by
  have hlt : c.val ≤ 127 := by
    simp only [Char.isAlphanum, Char.isAlpha, Char.isUpper, Char.isLower, Char.isDigit,
      Bool.or_eq_true, Bool.and_eq_true, decide_eq_true_eq, UInt32.le_iff_toNat_le, ge_iff_le] at h
    rw [UInt32.le_iff_toNat_le]
    have : 'Z'.val.toNat = 90 := rfl
    have : 'z'.val.toNat = 122 := rfl
    have : '9'.val.toNat = 57 := rfl
    have : (127 : UInt32).toNat = 127 := rfl
    omega
  exact Char.utf8Size_eq_one_iff.mpr hlt

theorem digit_alphanum {c : Char} (h : c.isDigit = true) : c.isAlphanum = true := by
  simp [Char.isAlphanum, h]

theorem lower_alphanum {c : Char} (h : IsLowerDigit c) : c.isAlphanum = true := by
  simp only [IsLowerDigit, Char.le_def, UInt32.le_iff_toNat_le] at h
  simp only [Char.isAlphanum, Char.isAlpha, Char.isUpper, Char.isLower, Char.isDigit,
    Bool.or_eq_true, Bool.and_eq_true, decide_eq_true_eq, UInt32.le_iff_toNat_le, ge_iff_le]
  have : 'f'.val.toNat = 102 := rfl
  have : 'z'.val.toNat = 122 := rfl
  omega

/-- Digits without a leading zero, or zero itself. -/
def IsCanonical (l : List Char) : Prop :=
  l = ['0'] ∨ (l ≠ [] ∧ l.head? ≠ some '0' ∧ ∀ c ∈ l, c.isDigit = true)

theorem toString_of_canonical {l : List Char} {n : ℕ} (hl : IsCanonical l)
    (h : Json.decimal (String.ofList l) = some n) : (toString n).toList = l := by
  have hn : n = Nat.ofDigitChars 10 l 0 := by
    unfold Json.decimal at h
    split_ifs at h
    rw [String.toList_ofList] at h
    exact (Option.some.inj h).symm
  have htext : (toString n).toList = Nat.toDigits 10 n := by
    simp
  rw [htext, hn]
  rcases hl with rfl | ⟨hne,h0,hd⟩
  · decide
  · exact (Json.toDigits_ofDigitChars hd h0 hne).2

theorem canonical_toString (n : ℕ) : IsCanonical (toString n).toList := by
  have htext : (toString n).toList = Nat.toDigits 10 n := by
    simp
  rw [htext]
  by_cases h0 : n = 0
  · subst h0
    exact .inl (by decide)
  · exact .inr ⟨Nat.toDigits_ne_nil,Json.toDigits_head h0,fun c hc =>
      Nat.isDigit_of_mem_toDigits (by omega) (by omega) hc⟩

section Concatenation
variable {α β : Type*} {code : α → List β} {valid : α → Prop}

/-- Codes followed by different rests are told apart. -/
def Splits (code : α → List β) (valid : α → Prop) : Prop :=
  ∀ a b l m, valid a → valid b → code a ++ l = code b ++ m → a = b ∧ l = m

theorem Splits.flatMap_injective (hs : Splits code valid) (hne : ∀ a, valid a → code a ≠ []) :
    ∀ {l m : List α}, (∀ a ∈ l, valid a) → (∀ a ∈ m, valid a) →
      l.flatMap code = m.flatMap code → l = m
  | [], [], _, _, _ => rfl
  | [], b::m, _, hm, h => by
    have := hne b (hm b (by simp))
    simp_all
  | a::l, [], hl, _, h => by
    have := hne a (hl a (by simp))
    simp_all
  | a::l, b::m, hl, hm, h => by
    rw [List.flatMap_cons, List.flatMap_cons] at h
    obtain ⟨rfl,hrest⟩ := hs a b _ _ (hl a (by simp)) (hm b (by simp)) h
    have hrest := hs.flatMap_injective hne (fun c hc => hl c (by simp [hc]))
      (fun c hc => hm c (by simp [hc])) hrest
    rw [hrest]

end Concatenation
end EvmState.Text
