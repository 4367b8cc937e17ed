import EvmState.Lib.Hex

/-!
# Base64

The URL-safe alphabet with padding. Three bytes are four symbols; a shorter
group at the end is padded and its unused bits are zero, so that every text
that decodes is the one its bytes encode to.
-/

set_option autoImplicit false

namespace EvmState.Base64
open EvmState.Hex

def symbol (n : ℕ) : Char :=
  if n < 26 then Char.ofNat (65+n)
  else if n < 52 then Char.ofNat (71+n)
  else if n < 62 then Char.ofNat (n-4)
  else if n = 62 then '-'
  else '_'

def value (c : Char) : Option ℕ :=
  let n := c.toNat
  if 65 ≤ n ∧ n ≤ 90 then some (n-65)
  else if 97 ≤ n ∧ n ≤ 122 then some (n-71)
  else if 48 ≤ n ∧ n ≤ 57 then some (n+4)
  else if c = '-' then some 62
  else if c = '_' then some 63
  else none

theorem value_symbol : ∀ n < 64, value (symbol n) = some n := by decide

theorem value_pad : value '=' = none := by decide

def encode : Bytes → List Char
  | [] => []
  | [a] => [symbol (a.toNat/4),symbol (a.toNat%4*16),'=','=']
  | [a,b] => [symbol (a.toNat/4),symbol (a.toNat%4*16+b.toNat/16),symbol (b.toNat%16*4),'=']
  | a::b::c::l =>
    symbol (a.toNat/4)::symbol (a.toNat%4*16+b.toNat/16)::symbol (b.toNat%16*4+c.toNat/64)::
      symbol (c.toNat%64)::encode l

def group (w x y z : Char) : Option Bytes := do
  let w ← value w
  let x ← value x
  let y ← value y
  let z ← value z
  return [UInt8.ofNat (w*4+x/16),UInt8.ofNat (x%16*16+y/4),UInt8.ofNat (y%4*64+z)]

def lastGroup (w x y z : Char) : Option Bytes :=
  if z = '=' then
    if y = '=' then do
      let w ← value w
      let x ← value x
      if x%16 = 0 then return [UInt8.ofNat (w*4+x/16)] else none
    else do
      let w ← value w
      let x ← value x
      let y ← value y
      if y%4 = 0 then return [UInt8.ofNat (w*4+x/16),UInt8.ofNat (x%16*16+y/4)] else none
  else group w x y z

def decode : List Char → Option Bytes
  | [] => some []
  | [w,x,y,z] => lastGroup w x y z
  | w::x::y::z::l => do
    let first ← group w x y z
    let rest ← decode l
    return first ++ rest
  | _ => none

theorem symbol_ne_pad {n : ℕ} (h : n < 64) : symbol n ≠ '=' := by
  intro he
  have := value_symbol n h
  rw [he, value_pad] at this
  cases this

theorem toNat_ofNat_of_eq {n : ℕ} {a : UInt8} (h : n = a.toNat) : UInt8.ofNat n = a := by
  rw [h, UInt8.ofNat_toNat]

theorem group_symbols (a b c : UInt8) :
    group (symbol (a.toNat/4)) (symbol (a.toNat%4*16+b.toNat/16)) (symbol (b.toNat%16*4+c.toNat/64))
      (symbol (c.toNat%64)) = some [a,b,c] := by
  have ha := a.toNat_lt
  have hb := b.toNat_lt
  have hc := c.toNat_lt
  rw [group, value_symbol _ (by omega), value_symbol _ (by omega), value_symbol _ (by omega),
    value_symbol _ (by omega)]
  simp only [Option.bind_eq_bind, Option.bind_some, Option.pure_def, Option.some.injEq,
    List.cons.injEq, and_true]
  exact ⟨toNat_ofNat_of_eq (by omega),toNat_ofNat_of_eq (by omega),toNat_ofNat_of_eq (by omega)⟩

theorem lastGroup_whole {w x y z : Char} (h : z ≠ '=') : lastGroup w x y z = group w x y z :=
  if_neg h

theorem decode_more {w x y z : Char} {l : List Char} (h : l ≠ []) :
    decode (w::x::y::z::l) = (do
      let first ← group w x y z
      let rest ← decode l
      return first ++ rest) := by
  cases l with
  | nil => exact absurd rfl h
  | cons v l => rw [decode]; simp

theorem decode_cons {w x y z : Char} {l : List Char} (hz : z ≠ '=') :
    decode (w::x::y::z::l) = (do
      let first ← group w x y z
      let rest ← decode l
      return first ++ rest) := by
  cases l with
  | nil =>
    show lastGroup w x y z = _
    rw [lastGroup_whole hz, decode]
    cases group w x y z with
    | none => rfl
    | some b => simp
  | cons v l => exact decode_more (List.cons_ne_nil v l)

theorem decode_encode (b : Bytes) : decode (encode b) = some b := by
  induction b using encode.induct with
  | case1 => rfl
  | case2 a =>
    have ha := a.toNat_lt
    rw [encode, decode, lastGroup, if_pos rfl, if_pos rfl, value_symbol _ (by omega),
      value_symbol _ (by omega)]
    simp only [Option.bind_eq_bind, Option.bind_some, Option.pure_def]
    rw [if_pos (by omega), toNat_ofNat_of_eq (show _ = a.toNat by omega)]
  | case3 a b =>
    have ha := a.toNat_lt
    have hb := b.toNat_lt
    rw [encode, decode, lastGroup, if_pos rfl, if_neg (symbol_ne_pad (by omega)),
      value_symbol _ (by omega), value_symbol _ (by omega), value_symbol _ (by omega)]
    simp only [Option.bind_eq_bind, Option.bind_some, Option.pure_def]
    rw [if_pos (by omega), toNat_ofNat_of_eq (show _ = a.toNat by omega),
      toNat_ofNat_of_eq (show _ = b.toNat by omega)]
  | case4 a b c l ih =>
    have hc := c.toNat_lt
    rw [encode, decode_cons (symbol_ne_pad (by omega)), group_symbols, ih]
    rfl

theorem encode_length (b : Bytes) : (encode b).length = (b.length+2)/3*4 := by
  induction b using encode.induct with
  | case1 => rfl
  | case2 a => simp [encode]
  | case3 a b => simp [encode]
  | case4 a b c l ih =>
    simp only [encode, List.length_cons, ih]
    omega

def IsSymbol (c : Char) : Prop := ∃ n < 64, symbol n = c

theorem encode_shape (b : Bytes) : ∃ bare k, encode b = bare ++ List.replicate k '=' ∧ k ≤ 2 ∧
    (∀ c ∈ bare, IsSymbol c) ∧ (b ≠ [] → bare ≠ []) := by
  induction b using encode.induct with
  | case1 => exact ⟨[],0,rfl,by omega,by simp,by simp⟩
  | case2 a =>
    have ha := a.toNat_lt
    refine ⟨[symbol (a.toNat/4),symbol (a.toNat%4*16)],2,rfl,by omega,?_,by simp⟩
    simp only [List.mem_cons, List.not_mem_nil, or_false, forall_eq_or_imp, forall_eq]
    exact ⟨⟨_,by omega,rfl⟩,⟨_,by omega,rfl⟩⟩
  | case3 a b =>
    have ha := a.toNat_lt
    have hb := b.toNat_lt
    refine ⟨[symbol (a.toNat/4),symbol (a.toNat%4*16+b.toNat/16),symbol (b.toNat%16*4)],1,rfl,
      by omega,?_,by simp⟩
    simp only [List.mem_cons, List.not_mem_nil, or_false, forall_eq_or_imp, forall_eq]
    exact ⟨⟨_,by omega,rfl⟩,⟨_,by omega,rfl⟩,⟨_,by omega,rfl⟩⟩
  | case4 a b c l ih =>
    obtain ⟨bare,k,he,hk,hs,-⟩ := ih
    have ha := a.toNat_lt
    have hb := b.toNat_lt
    have hc := c.toNat_lt
    refine ⟨symbol (a.toNat/4)::symbol (a.toNat%4*16+b.toNat/16)::
      symbol (b.toNat%16*4+c.toNat/64)::symbol (c.toNat%64)::bare,k,?_,hk,?_,by simp⟩
    · rw [encode, he]
      rfl
    · simp only [List.mem_cons, forall_eq_or_imp]
      exact ⟨⟨_,by omega,rfl⟩,⟨_,by omega,rfl⟩,⟨_,by omega,rfl⟩,⟨_,by omega,rfl⟩,hs⟩

theorem symbol_ascii : ∀ n < 64, (symbol n).utf8Size = 1 := by decide

theorem encode_ascii {b : Bytes} {c : Char} (h : c ∈ encode b) : c.utf8Size = 1 := by
  obtain ⟨bare,k,hshape,-,hsym,-⟩ := encode_shape b
  rw [hshape] at h
  rcases List.mem_append.mp h with h | h
  · obtain ⟨n,hn,rfl⟩ := hsym c h
    exact symbol_ascii n hn
  · obtain rfl := List.eq_of_mem_replicate h
    decide

end EvmState.Base64
