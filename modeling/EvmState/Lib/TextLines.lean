import EvmState.Lib.Lines
import EvmState.Lib.Text

/-!
# Texts, one a line

A text without a line break that is written with one behind it is read back
as it was, when it fits the reader's limit; one that does not fit shows no
line break.
-/

set_option autoImplicit false

namespace EvmState.TextLines
open EvmState.Hex EvmState.Text EvmState.Lines

def newline : UInt8 := 10

def lines (texts : List String) : Bytes := texts.flatMap (fun t => utf8 t ++ [newline])

theorem utf8_chars (s : String) : utf8 s = s.toList.flatMap String.utf8EncodeChar := by
  rw [utf8, ← String.ofList_toList (s := s), String.toByteArray_ofList, String.toList_ofList]
  simp [List.utf8Encode]

theorem utf8_append (s t : String) : utf8 (s++t) = utf8 s ++ utf8 t := by
  rw [utf8_chars, String.toList_append, List.flatMap_append, ← utf8_chars, ← utf8_chars]

theorem utf8_newline : utf8 "\n" = [newline] := by
  rw [utf8_chars]
  decide

theorem newline_char {c : Char} (h : newline ∈ String.utf8EncodeChar c) : c = '\n' := by
  have hbyte : ∀ n : ℕ, newline = UInt8.ofNat n → n % 256 = 10 := by
    intro n he
    have hnat := congrArg UInt8.toNat he
    rw [UInt8.toNat_ofNat'] at hnat
    exact hnat.symm
  have hlow : c.val.toNat = 10 := by
    simp only [String.utf8EncodeChar] at h
    split_ifs at h with h1 h2 h3
    · have := hbyte _ (List.mem_singleton.mp h)
      omega
    · simp only [List.mem_cons, List.not_mem_nil, or_false] at h
      rcases h with h | h <;> have := hbyte _ h <;> omega
    · simp only [List.mem_cons, List.not_mem_nil, or_false] at h
      rcases h with h | h | h <;> have := hbyte _ h <;> omega
    · simp only [List.mem_cons, List.not_mem_nil, or_false] at h
      rcases h with h | h | h | h <;> have := hbyte _ h <;> omega
  exact Char.ext (UInt32.toNat_inj.mp hlow)

theorem newline_utf8 {s : String} (h : '\n' ∉ s.toList) : newline ∉ utf8 s := by
  rw [utf8_chars]
  intro hm
  obtain ⟨c,hc,hb⟩ := List.mem_flatMap.mp hm
  exact h (newline_char hb ▸ hc)

theorem lines_cons (t : String) (ts : List String) : lines (t::ts) = utf8 t ++ newline::lines ts := by
  rw [lines, List.flatMap_cons, List.append_assoc, List.singleton_append, ← lines]

theorem readUntil_text {limit : ℕ} {t : String} {ts : List String} (ht : '\n' ∉ t.toList)
    (hl : (utf8 t).length < limit) : readUntil newline limit ⟨lines (t::ts),none⟩ =
      .ok (utf8 t ++ [newline],⟨lines ts,none⟩) := by
  rw [lines_cons]
  exact readUntil_line (newline_utf8 ht) hl

theorem readUntil_long {limit : ℕ} {t : String} {ts : List String} (ht : '\n' ∉ t.toList)
    (hl : limit ≤ (utf8 t).length) {bytes : Bytes} {rest : Stream UInt8}
    (h : readUntil newline limit ⟨lines (t::ts),none⟩ = .ok (bytes,rest)) :
    bytes.getLast? ≠ some newline := by
  obtain ⟨happend,-,hlength⟩ := readUntil_ok h
  rw [lines_cons] at happend
  have hstart : bytes <+: utf8 t := by
    have htake := congrArg (List.take bytes.length) happend
    rw [List.take_left', List.take_append_of_le_length (hlength.trans hl)] at htake
    · exact htake ▸ List.take_prefix _ _
    · rfl
  exact fun hlast => newline_utf8 ht (hstart.subset (List.mem_of_getLast? hlast))

end EvmState.TextLines
