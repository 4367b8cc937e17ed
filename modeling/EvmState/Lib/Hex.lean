import Mathlib

/-!
# Hexadecimal text of byte strings

Encoding writes two lowercase digits a byte. Decoding also accepts uppercase
digits, so one byte string has several spellings and exactly one of them is
lowercase.
-/

set_option autoImplicit false

namespace EvmState.Hex

abbrev Bytes := List UInt8

instance byteOrder : LinearOrder UInt8 where
  le_refl := UInt8.le_refl
  le_trans _ _ _ := UInt8.le_trans
  le_antisymm _ _ := UInt8.le_antisymm
  le_total := UInt8.le_total
  lt_iff_le_not_ge a b := by
    rw [UInt8.lt_iff_toNat_lt, UInt8.le_iff_toNat_le, UInt8.le_iff_toNat_le]
    omega
  min_def a b := by rfl
  max_def a b := by rfl
  toDecidableLE := inferInstance

instance bytes_lawful : LawfulBEq Bytes := inferInstance

def digit (n : ℕ) : Char := if n < 10 then Char.ofNat (48+n) else Char.ofNat (87+n)

def digitValue (c : Char) : Option ℕ :=
  if '0' ≤ c ∧ c ≤ '9' then some (c.toNat-48)
  else if 'a' ≤ c ∧ c ≤ 'f' then some (c.toNat-87)
  else if 'A' ≤ c ∧ c ≤ 'F' then some (c.toNat-55)
  else none

/-- The digits that encoding writes. -/
def IsLowerDigit (c : Char) : Prop := ('0' ≤ c ∧ c ≤ '9') ∨ ('a' ≤ c ∧ c ≤ 'f')

instance (c : Char) : Decidable (IsLowerDigit c) := by unfold IsLowerDigit; infer_instance

theorem digit_cases : ∀ n < 16, digitValue (digit n) = some n ∧ IsLowerDigit (digit n) := by
  decide

theorem digitValue_digit {n : ℕ} (h : n < 16) : digitValue (digit n) = some n :=
  (digit_cases n h).1

theorem digit_lower {n : ℕ} (h : n < 16) : IsLowerDigit (digit n) := (digit_cases n h).2

theorem le_iff_toNat {c d : Char} : c ≤ d ↔ c.toNat ≤ d.toNat := by
  simp only [Char.le_def, Char.toNat, UInt32.le_iff_toNat_le]

def encodeChars : Bytes → List Char
  | [] => []
  | b::bs => digit (b.toNat/16)::digit (b.toNat%16)::encodeChars bs

def decodeChars : List Char → Option Bytes
  | [] => some []
  | [_] => none
  | c::d::cs => do
    let hi ← digitValue c
    let lo ← digitValue d
    let bs ← decodeChars cs
    some (UInt8.ofNat (16*hi+lo)::bs)

def encode (bs : Bytes) : String := String.ofList (encodeChars bs)

theorem encodeChars_append (as bs : Bytes) :
    encodeChars (as++bs) = encodeChars as++encodeChars bs := by
  induction as with
  | nil => rfl
  | cons a as ih => simp [encodeChars, ih]

theorem encodeChars_length (bs : Bytes) : (encodeChars bs).length = 2*bs.length := by
  induction bs with
  | nil => rfl
  | cons b bs ih => simp only [encodeChars, List.length_cons, ih]; omega

theorem encodeChars_lower {bs : Bytes} {c : Char} (h : c ∈ encodeChars bs) : IsLowerDigit c := by
  induction bs with
  | nil => simp [encodeChars] at h
  | cons b bs ih =>
    have hb := b.toNat_lt
    simp only [encodeChars, List.mem_cons] at h
    rcases h with rfl | rfl | h
    · exact digit_lower (by omega)
    · exact digit_lower (by omega)
    · exact ih h

theorem encodeChars_replicate_zero (n : ℕ) :
    encodeChars (List.replicate n 0) = List.replicate (2*n) '0' := by
  induction n with
  | zero => rfl
  | succ n ih =>
    rw [List.replicate_succ, encodeChars, ih, show 2*(n+1) = 2*n+1+1 by omega,
      List.replicate_succ, List.replicate_succ]
    rfl

@[simp] theorem decodeChars_encodeChars (bs : Bytes) : decodeChars (encodeChars bs) = some bs := by
  induction bs with
  | nil => rfl
  | cons b bs ih =>
    have hb := b.toNat_lt
    have hd : 16*(b.toNat/16)+b.toNat%16 = b.toNat := by omega
    rw [encodeChars, decodeChars, digitValue_digit (show b.toNat/16 < 16 by omega),
      digitValue_digit (show b.toNat%16 < 16 by omega), ih]
    simp only [Option.bind_eq_bind, Option.bind_some, hd, UInt8.ofNat_toNat]

theorem encodeChars_injective : Function.Injective encodeChars := by
  intro as bs h
  have ha := decodeChars_encodeChars as
  rw [h, decodeChars_encodeChars] at ha
  exact (Option.some.inj ha).symm

theorem encode_injective : Function.Injective encode := fun _ _ h =>
  encodeChars_injective (String.ofList_injective h)

theorem decodeChars_cons {c d : Char} {cs : List Char} {bs : Bytes}
    (h : decodeChars (c::d::cs) = some bs) :
    ∃ hi lo rest, digitValue c = some hi ∧ digitValue d = some lo ∧
      decodeChars cs = some rest ∧ bs = UInt8.ofNat (16*hi+lo)::rest := by
  simp only [decodeChars, Option.bind_eq_bind, Option.bind_eq_some_iff, Option.some.injEq] at h
  obtain ⟨hi,hh,lo,hl,rest,hr,rfl⟩ := h
  exact ⟨hi,lo,rest,hh,hl,hr,rfl⟩

theorem decodeChars_length {cs : List Char} {bs : Bytes} (h : decodeChars cs = some bs) :
    cs.length = 2*bs.length := by
  induction cs using decodeChars.induct generalizing bs with
  | case1 => simp_all [decodeChars]
  | case2 => simp [decodeChars] at h
  | case3 c d cs ih =>
    obtain ⟨hi,lo,rest,-,-,hr,rfl⟩ := decodeChars_cons h
    simp only [List.length_cons, ih hr]
    omega

theorem letter_cases : ∀ n < 26, digitValue (Char.ofNat (65+n)).toLower =
    digitValue (Char.ofNat (65+n)) ∧
      (Char.ofNat (65+n)).toLower.utf8Size = (Char.ofNat (65+n)).utf8Size := by
  decide

theorem toLower_digit (c : Char) :
    digitValue c.toLower = digitValue c ∧ c.toLower.utf8Size = c.utf8Size := by
  by_cases h : 65 ≤ c.toNat ∧ c.toNat ≤ 90
  · have hn := letter_cases (c.toNat-65) (by omega)
    rwa [show 65+(c.toNat-65) = c.toNat by omega, Char.ofNat_toNat] at hn
  · have hc : c.toLower = c := by
      unfold Char.toLower
      rw [dif_neg]
      intro hn
      exact h ⟨UInt32.le_iff_toNat_le.mp hn.1,UInt32.le_iff_toNat_le.mp hn.2⟩
    rw [hc]
    exact ⟨rfl,rfl⟩

theorem decodeChars_toLower (cs : List Char) : decodeChars (cs.map Char.toLower) = decodeChars cs := by
  induction cs using decodeChars.induct with
  | case1 => rfl
  | case2 => rfl
  | case3 c d cs ih =>
    rw [List.map_cons, List.map_cons, decodeChars, decodeChars, ih, (toLower_digit c).1,
      (toLower_digit d).1]

end EvmState.Hex
