import EvmState.Lib.Hex

/-!
# Recursive length prefix

A byte string or a list is its payload behind a header that gives its kind
and its length. Decoding accepts the shortest header only: a single byte
below `0x80` stands for itself, and a long length has no leading zero and is
at least 56.
-/

set_option autoImplicit false

namespace EvmState.Rlp
open EvmState.Hex

def toBytes (n : ℕ) : Bytes := ((Nat.digits 256 n).map UInt8.ofNat).reverse

def ofBytes (b : Bytes) : ℕ := b.foldl (fun n x => 256*n+x.toNat) 0

def header (list : Bool) (length : ℕ) : Bytes :=
  let short := if list then 0xC0 else 0x80
  if length < 56 then [UInt8.ofNat (short+length)]
  else UInt8.ofNat (short+55+(toBytes length).length) :: toBytes length

def encode : Bytes → Bytes
  | [b] => if b.toNat < 0x80 then [b] else header false 1 ++ [b]
  | b => header false b.length ++ b

def encodeUint (n : ℕ) : Bytes := encode (toBytes n)

/-- A payload of a given length must be there. -/
def complete (list : Bool) (length : ℕ) (rest : Bytes) : Option (Bool × ℕ × Bytes) :=
  if length ≤ rest.length then some (list,length,rest) else none

def decodeLong (list : Bool) (size : ℕ) (rest : Bytes) : Option (Bool × ℕ × Bytes) :=
  if rest.length < size ∨ rest.head? = some 0 then none
  else
    let length := ofBytes (rest.take size)
    if length < 56 then none else complete list length (rest.drop size)

/-- The kind, the payload length and the input from the payload on. -/
def decodeHeader : Bytes → Option (Bool × ℕ × Bytes)
  | [] => none
  | b::rest =>
    let n := b.toNat
    if n < 0x80 then some (false,1,b::rest)
    else if n ≤ 0xB7 then
      if n = 0x81 ∧ rest.head?.all (·.toNat < 0x80) then none
      else complete false (n-0x80) rest
    else if n ≤ 0xBF then decodeLong false (n-0xB7) rest
    else if n ≤ 0xF7 then complete true (n-0xC0) rest
    else decodeLong true (n-0xF7) rest

/-- The payload of an item of the expected kind and the input after it. -/
def decodeBytes (input : Bytes) (list : Bool) : Option (Bytes × Bytes) :=
  (decodeHeader input).bind (fun h =>
    if h.1 = list then some (h.2.2.take h.2.1,h.2.2.drop h.2.1) else none)

theorem ofBytes_reverse (l : List ℕ) (h : ∀ d ∈ l, d < 256) :
    ofBytes (l.map UInt8.ofNat).reverse = Nat.ofDigits 256 l := by
  induction l with
  | nil => rfl
  | cons d l ih =>
    have hd := h d (by simp)
    have hn : (UInt8.ofNat d).toNat = d := by
      simp only [UInt8.toNat_ofNat']
      omega
    rw [List.map_cons, List.reverse_cons, ofBytes, List.foldl_append, List.foldl_cons,
      List.foldl_nil, hn, Nat.ofDigits_cons]
    change 256*ofBytes (l.map UInt8.ofNat).reverse+d = _
    rw [ih (fun e he => h e (by simp [he]))]
    simp [Nat.add_comm]

theorem ofBytes_toBytes (n : ℕ) : ofBytes (toBytes n) = n := by
  rw [toBytes, ofBytes_reverse _ (fun d hd => Nat.digits_lt_base (by omega) hd),
    Nat.ofDigits_digits]

theorem toBytes_injective : Function.Injective toBytes := fun m n h => by
  rw [← ofBytes_toBytes m, h, ofBytes_toBytes]

theorem toBytes_length {n k : ℕ} : (toBytes n).length ≤ k ↔ n < 256^k := by
  rw [toBytes, List.length_reverse, List.length_map, Nat.digits_length_le_iff (by omega)]

theorem toBytes_head (n : ℕ) : (toBytes n).head? ≠ some 0 := by
  rw [toBytes, List.head?_reverse, List.getLast?_map]
  intro h
  obtain ⟨d,hd,h0⟩ := Option.map_eq_some_iff.mp h
  have hlt := Nat.digits_lt_base (by omega) (List.mem_of_getLast? hd)
  have hn : n ≠ 0 := by
    rintro rfl
    simp at hd
  have hne := Nat.getLast_digit_ne_zero 256 hn
  rw [List.getLast?_eq_some_getLast (Nat.digits_ne_nil_iff_ne_zero.mpr hn), Option.some.injEq] at hd
  rw [hd] at hne
  have := congrArg UInt8.toNat h0
  simp only [UInt8.toNat_ofNat'] at this
  simp at this
  omega

theorem decode_short (list : Bool) {payload rest : Bytes} (hl : payload.length < 56)
    (hs : list = false → ∀ b, payload = [b] → 0x80 ≤ b.toNat) :
    decodeBytes (header list payload.length ++ (payload ++ rest)) list = some (payload,rest) := by
  have hn : (UInt8.ofNat ((if list then 0xC0 else 0x80)+payload.length)).toNat =
      (if list then 0xC0 else 0x80)+payload.length := by
    simp only [UInt8.toNat_ofNat']
    cases list <;> simp <;> omega
  have hc : complete list payload.length (payload++rest) =
      some (list,payload.length,payload++rest) := by
    rw [complete, if_pos (by simp)]
  have hd : decodeHeader (header list payload.length ++ (payload ++ rest)) =
      some (list,payload.length,payload++rest) := by
    rw [header, if_pos hl, List.singleton_append, decodeHeader, hn]
    cases list with
    | true =>
      simp only [if_true]
      rw [if_neg (by omega), if_neg (by omega), if_neg (by omega), if_pos (by omega),
        Nat.add_sub_cancel_left]
      exact hc
    | false =>
      simp only [Bool.false_eq_true, if_false]
      have hone : ¬(0x80+payload.length = 0x81 ∧
          (payload++rest).head?.all (·.toNat < 0x80)) := by
        rintro ⟨h1,h2⟩
        obtain ⟨b,rfl⟩ := List.length_eq_one_iff.mp (show payload.length = 1 by omega)
        have := hs rfl b rfl
        simp at h2
        omega
      rw [if_neg (by omega), if_pos (by omega), if_neg hone, Nat.add_sub_cancel_left]
      exact hc
  rw [decodeBytes, hd]
  simp

theorem decode_long (list : Bool) {payload rest : Bytes} (hl : 56 ≤ payload.length)
    (hb : payload.length < 2^64) :
    decodeBytes (header list payload.length ++ (payload ++ rest)) list = some (payload,rest) := by
  have hk : (toBytes payload.length).length ≤ 8 := toBytes_length.mpr (by norm_num; omega)
  have hpos : 0 < (toBytes payload.length).length := by
    rw [Nat.pos_iff_ne_zero]
    intro h
    have := toBytes_length.mp h.le
    omega
  have hn : (UInt8.ofNat ((if list then 0xC0 else 0x80)+55+(toBytes payload.length).length)).toNat =
      (if list then 0xC0 else 0x80)+55+(toBytes payload.length).length := by
    simp only [UInt8.toNat_ofNat']
    cases list <;> simp <;> omega
  have hhead : (toBytes payload.length ++ (payload++rest)).head? ≠ some 0 := by
    have := toBytes_head payload.length
    cases hb : toBytes payload.length with
    | nil => simp [hb] at hpos
    | cons x l => rwa [hb] at this
  have hlong : decodeLong list (toBytes payload.length).length
      (toBytes payload.length ++ (payload++rest)) = some (list,payload.length,payload++rest) := by
    rw [decodeLong, if_neg (by simp only [List.length_append, not_or]; exact ⟨by omega,hhead⟩),
      List.take_left, List.drop_left, ofBytes_toBytes, if_neg (by omega), complete,
      if_pos (by simp)]
  have hd : decodeHeader (header list payload.length ++ (payload ++ rest)) =
      some (list,payload.length,payload++rest) := by
    rw [header, if_neg (by omega), List.cons_append, decodeHeader, hn]
    cases list with
    | true =>
      simp only [if_true]
      rw [if_neg (by omega), if_neg (by omega), if_neg (by omega), if_neg (by omega),
        show 0xC0+55+(toBytes payload.length).length-0xF7 = (toBytes payload.length).length by omega]
      exact hlong
    | false =>
      simp only [Bool.false_eq_true, if_false]
      rw [if_neg (by omega), if_neg (by omega), if_pos (by omega),
        show 0x80+55+(toBytes payload.length).length-0xB7 = (toBytes payload.length).length by omega]
      exact hlong
  rw [decodeBytes, hd]
  simp

theorem decode_header (list : Bool) {payload rest : Bytes} (hb : payload.length < 2^64)
    (hs : list = false → ∀ b, payload = [b] → 0x80 ≤ b.toNat) :
    decodeBytes (header list payload.length ++ (payload ++ rest)) list = some (payload,rest) := by
  by_cases hl : payload.length < 56
  · exact decode_short list hl hs
  · exact decode_long list (by omega) hb

theorem decode_encode {b : Bytes} (rest : Bytes) (hb : b.length < 2^64) :
    decodeBytes (encode b ++ rest) false = some (b,rest) := by
  match b with
  | [] =>
    rw [encode, List.append_assoc]
    exact decode_header false hb (by simp)
    simp
  | [x] =>
    rw [encode]
    split_ifs with hx
    · simp [decodeBytes, decodeHeader, hx]
    · rw [List.append_assoc]
      exact decode_header false hb (fun _ c hc => by
        obtain rfl := List.singleton_inj.mp hc
        omega)
  | x::y::l =>
    rw [encode, List.append_assoc]
    exact decode_header false hb (by simp)
    simp

theorem toBytes_ofBytes {b : Bytes} (h : b.head? ≠ some 0) : toBytes (ofBytes b) = b := by
  have hdigits : ∀ d ∈ b.reverse.map UInt8.toNat, d < 256 := by
    intro d hd
    obtain ⟨x,-,rfl⟩ := List.mem_map.mp hd
    exact x.toNat_lt
  have hcast : (b.reverse.map UInt8.toNat).map UInt8.ofNat = b.reverse := by
    simp [Function.comp_def]
  have hof := ofBytes_reverse _ hdigits
  rw [hcast, List.reverse_reverse] at hof
  rw [toBytes, hof, Nat.digits_ofDigits 256 (by omega) _ hdigits, hcast, List.reverse_reverse]
  intro hne hzero
  rw [List.getLast_map, List.getLast_reverse] at hzero
  have hb : b ≠ [] := by simpa using hne
  rw [List.head?_eq_some_head hb] at h
  exact h (congrArg some (UInt8.toNat_inj.mp hzero))

theorem encode_eq {b : Bytes} (h : ∀ x, b = [x] → 0x80 ≤ x.toNat) :
    encode b = header false b.length ++ b := by
  match b with
  | [] => rfl
  | [x] => rw [encode, if_neg (not_lt.mpr (h x rfl))]; rfl
  | x::y::l => rfl

def item (list : Bool) (payload : Bytes) : Bytes :=
  if list then header true payload.length ++ payload else encode payload

theorem item_eq {list : Bool} {payload : Bytes} (h : list = false → ∀ x, payload = [x] → 0x80 ≤ x.toNat) :
    item list payload = header list payload.length ++ payload := by
  cases list with
  | true => rfl
  | false => exact encode_eq (h rfl)

theorem complete_some {list l : Bool} {length n : ℕ} {rest r : Bytes}
    (h : complete list length rest = some (l,n,r)) :
    l = list ∧ n = length ∧ r = rest ∧ length ≤ rest.length := by
  unfold complete at h
  split_ifs at h with hle
  obtain ⟨rfl,rfl,rfl⟩ : list = l ∧ length = n ∧ rest = r := by simpa using h
  exact ⟨rfl,rfl,rfl,hle⟩

theorem decodeLong_some {list l : Bool} {size n : ℕ} {rest r : Bytes}
    (h : decodeLong list size rest = some (l,n,r)) :
    l = list ∧ 56 ≤ n ∧ n ≤ r.length ∧ rest = toBytes n ++ r ∧ (toBytes n).length = size := by
  unfold decodeLong at h
  split_ifs at h with hbad
  dsimp only at h
  split_ifs at h with hshort
  obtain ⟨rfl,rfl,rfl,hle⟩ := complete_some h
  obtain ⟨hsize,hhead⟩ := not_or.mp hbad
  have hpre : (rest.take size).head? ≠ some 0 := by
    intro hz
    refine hhead ?_
    cases rest with
    | nil => simp at hz
    | cons x rest =>
      cases size with
      | zero => simp at hz
      | succ size => simpa using hz
  refine ⟨rfl,not_lt.mp hshort,hle,?_,?_⟩
  · rw [toBytes_ofBytes hpre, List.take_append_drop]
  · rw [toBytes_ofBytes hpre, List.length_take]
    omega

theorem header_short (list : Bool) {n : ℕ} (b : UInt8) (h : n < 56)
    (hb : b.toNat = (if list then 0xC0 else 0x80)+n) : header list n = [b] := by
  rw [header, if_pos h, ← hb, UInt8.ofNat_toNat]

theorem header_long (list : Bool) {n : ℕ} (b : UInt8) (h : 56 ≤ n)
    (hb : b.toNat = (if list then 0xC0 else 0x80)+55+(toBytes n).length) :
    header list n = b::toBytes n := by
  rw [header, if_neg (not_lt.mpr h), ← hb, UInt8.ofNat_toNat]

theorem item_announced {list : Bool} {n : ℕ} {h r input : Bytes} (hn : n ≤ r.length)
    (hh : header list n = h) (hi : h++r = input)
    (hs : list = false → n = 1 → r.head?.all (·.toNat < 0x80) = false) :
    item list (r.take n) ++ r.drop n = input := by
  have hlen : (r.take n).length = n := by
    rw [List.length_take]
    omega
  rw [item_eq, hlen, hh, List.append_assoc, List.take_append_drop, hi]
  intro hl x hx
  rw [hx] at hlen
  have hsmall := hs hl hlen.symm
  obtain rfl : n = 1 := hlen.symm
  cases r with
  | nil => cases hx
  | cons y r =>
    obtain rfl : y = x := by simpa using hx
    simpa using hsmall

/-- The item that a header announces is the one that the input starts with. -/
theorem decodeHeader_some {input r : Bytes} {list : Bool} {n : ℕ}
    (h : decodeHeader input = some (list,n,r)) : item list (r.take n) ++ r.drop n = input := by
  cases input with
  | nil => cases h
  | cons b rest =>
    unfold decodeHeader at h
    dsimp only at h
    split_ifs at h with h1 h2 h3 h4 h5
    · obtain ⟨rfl,rfl,rfl⟩ : false = list ∧ 1 = n ∧ b::rest = r := by simpa using h
      simp [item, encode, h1]
    · obtain ⟨rfl,hn,rfl,hle⟩ := complete_some h
      refine item_announced (by omega) (header_short false b (by omega) (by simp; omega)) rfl ?_
      intro _ hone
      have := not_and.mp h3 (by omega)
      simpa using this
    · obtain ⟨rfl,hge,hle,hrest,hsize⟩ := decodeLong_some h
      have hhead := header_long false b hge (by
        rw [hsize]
        simp only [Bool.false_eq_true, if_false]
        omega)
      exact item_announced hle hhead (by rw [hrest, List.cons_append])
        (fun _ hone => absurd hone (by omega))
    · obtain ⟨rfl,hn,rfl,hle⟩ := complete_some h
      exact item_announced (by omega) (header_short true b (by omega) (by simp; omega)) rfl
        (fun hl => absurd hl (by simp))
    · obtain ⟨rfl,hge,hle,hrest,hsize⟩ := decodeLong_some h
      have hhead := header_long true b hge (by
        rw [hsize]
        simp only [if_true]
        omega)
      exact item_announced hle hhead (by rw [hrest, List.cons_append])
        (fun hl => absurd hl (by simp))

/-- Decoding accepts no other encoding. -/
theorem decodeBytes_canonical {input payload rest : Bytes} {list : Bool}
    (h : decodeBytes input list = some (payload,rest)) : input = item list payload ++ rest := by
  obtain ⟨⟨l,n,r⟩,hd,hs⟩ := Option.bind_eq_some_iff.mp h
  split_ifs at hs with hl
  obtain rfl : l = list := hl
  obtain ⟨rfl,rfl⟩ : r.take n = payload ∧ r.drop n = rest := by simpa using hs
  exact (decodeHeader_some hd).symm

theorem encode_append_injective {a b rest more : Bytes} (ha : a.length < 2^64)
    (hb : b.length < 2^64) (h : encode a ++ rest = encode b ++ more) : a = b ∧ rest = more := by
  have hd := decode_encode rest ha
  rw [h, decode_encode more hb, Option.some.injEq, Prod.mk.injEq] at hd
  exact ⟨hd.1.symm,hd.2.symm⟩

theorem encode_injective {a b : Bytes} (ha : a.length < 2^64) (hb : b.length < 2^64)
    (h : encode a = encode b) : a = b := by
  have happ : encode a ++ ([] : Bytes) = encode b ++ [] := by rw [h]
  exact (encode_append_injective ha hb happ).1

theorem header_length (list : Bool) {n : ℕ} (h : n < 2^64) : (header list n).length ≤ 9 := by
  have hn : (toBytes n).length ≤ 8 := toBytes_length.mpr (by norm_num; omega)
  rw [header]
  split_ifs
  all_goals
    simp only [List.length_cons, List.length_nil]
    omega

theorem length_le_encode (b : Bytes) : b.length ≤ (encode b).length := by
  match b with
  | [] => exact Nat.zero_le _
  | [x] =>
    rw [encode]
    split_ifs <;> simp
  | x::y::l => simp [encode]

theorem encode_length {b : Bytes} (h : b.length < 2^64) : (encode b).length ≤ b.length+9 := by
  have hh := header_length false h
  match b with
  | [] => simpa [encode] using hh
  | [x] =>
    have h1 := header_length false (show 1 < 2^64 by omega)
    rw [encode]
    split_ifs
    · simp
    · simp only [List.length_append, List.length_cons, List.length_nil]
      omega
  | x::y::l =>
    simp only [encode, List.length_append, List.length_cons] at hh ⊢
    omega

end EvmState.Rlp
