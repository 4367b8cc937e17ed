import EvmState.Params
import EvmState.Lib.Json
import EvmState.Lib.Timeline

/-!
# Texts of bytes, addresses and account sets

Texts arrive with a hexadecimal prefix in any letter case. Addresses are
normalised; other values are decoded where they are compared.
-/

set_option autoImplicit false

namespace EvmState.Encoding
open EvmState.Hex EvmState.Fallible EvmState.OrderedMap EvmState.Params

def unhex (value : String) : Except String Bytes :=
  match value.toList with
  | '0' :: 'x' :: raw => do
    ensure ((raw.map Char.utf8Size).sum % 2 = 0) "expected even-length hex"
    context (decodeChars raw) "invalid hex"
  | _ => .error "expected 0x-prefixed hex"

def fixed (n : ℕ) (value : String) : Except String Bytes := do
  let bytes ← unhex value
  ensure (bytes.length = n) ("expected " ++ toString n ++ " bytes")
  return bytes

def string (value : Json) (field : String) : Except String String :=
  context ((value.get? field).bind Json.asStr) ("missing string field " ++ field)

def address (value : String) : Except String String := do
  let bytes ← fixed 20 value
  return hex bytes

def uint (value : Json) : Except String ℕ := context value.uint "expected unsigned integer"

/-- A sorted set of normalised addresses. -/
def accountSet (values : List String) : Except String (List String) := do
  let accounts ← values.mapM address
  let result := (SortedMap.empty.insertAll (accounts.map (fun a => (a,())))).keys
  ensure (result ≠ []) "selected account list is empty"
  return result

def accountValues (values : Json) : Except String (List String) :=
  match values with
  | .str text => .ok (((text.toList.splitOnP isSeparator).filter (· ≠ [])).map String.ofList)
  | .obj fields => .ok (fields.map Prod.fst)
  | .arr items => items.mapM (fun v => context v.asStr "invalid account address")
  | _ => .error "account filter must be a list"

def canonicalAccounts (values : Json) : Except String (List String) := do
  let values ← accountValues values
  accountSet values

theorem digit_size {c : Char} (h : IsLowerDigit c) : c.utf8Size = 1 := by
  have h9 : '9'.toNat = 57 := rfl
  have hf : 'f'.toNat = 102 := rfl
  have hlt : c.toNat ≤ 127 := by
    rcases h with ⟨-,h⟩ | ⟨-,h⟩ <;> rw [le_iff_toNat] at h <;> omega
  rw [Char.utf8Size_eq_one_iff]
  exact UInt32.le_iff_toNat_le.mpr hlt

theorem unhex_hex (b : Bytes) : unhex (hex b) = .ok b := by
  have hlist : (hex b).toList = '0' :: 'x' :: encodeChars b := by
    simp [hex, encode]
  have hsize : (encodeChars b).map Char.utf8Size = List.replicate (encodeChars b).length 1 :=
    List.eq_replicate_iff.mpr ⟨by simp,by
      intro n hn
      obtain ⟨c,hc,rfl⟩ := List.mem_map.mp hn
      exact digit_size (encodeChars_lower hc)⟩
  rw [unhex, hlist]
  refine bind_ok.mpr ⟨(),ensure_ok.mpr ?_,context_ok.mpr (decodeChars_encodeChars b)⟩
  rw [hsize, List.sum_replicate, encodeChars_length]
  simp

theorem unhex_text {v : String} {b : Bytes} (h : unhex v = .ok b) :
    ∃ raw, v.toList = '0' :: 'x' :: raw ∧ decodeChars raw = some b := by
  unfold unhex at h
  split at h
  · rename_i raw hraw
    obtain ⟨_,-,h⟩ := bind_ok.mp h
    exact ⟨raw,hraw,context_ok.mp h⟩
  · cases h

theorem fixed_ok {n : ℕ} {v : String} {b : Bytes} :
    fixed n v = .ok b ↔ unhex v = .ok b ∧ b.length = n := by
  constructor
  · intro h
    obtain ⟨c,hc,h⟩ := bind_ok.mp h
    obtain ⟨_,hl,h⟩ := bind_ok.mp h
    obtain rfl := pure_ok.mp h
    exact ⟨hc,ensure_ok.mp hl⟩
  · rintro ⟨hu,hl⟩
    exact bind_ok.mpr ⟨b,hu,bind_ok.mpr ⟨(),ensure_ok.mpr hl,rfl⟩⟩

def lower (text : String) : String := String.ofList (text.toList.map Char.toLower)

theorem unhex_lower {v : String} {b : Bytes} (h : unhex v = .ok b) : unhex (lower v) = .ok b := by
  obtain ⟨raw,hv,hd⟩ := unhex_text h
  have hlist : (lower v).toList = '0' :: 'x' :: raw.map Char.toLower := by
    rw [lower, String.toList_ofList, hv]
    rfl
  have hsize : (raw.map Char.toLower).map Char.utf8Size = raw.map Char.utf8Size := by
    rw [List.map_map]
    exact List.map_congr_left (fun c _ => (toLower_digit c).2)
  unfold unhex at h ⊢
  rw [hv] at h
  rw [hlist]
  obtain ⟨_,he,-⟩ := bind_ok.mp h
  refine bind_ok.mpr ⟨(),?_,context_ok.mpr ((decodeChars_toLower raw).trans hd)⟩
  rwa [hsize]

theorem fixed_lower {n : ℕ} {v : String} {b : Bytes} (h : fixed n v = .ok b) :
    fixed n (lower v) = .ok b := by
  obtain ⟨hu,hl⟩ := fixed_ok.mp h
  exact fixed_ok.mpr ⟨unhex_lower hu,hl⟩

theorem fixed_hex {n : ℕ} {b : Bytes} (h : b.length = n) : fixed n (hex b) = .ok b :=
  fixed_ok.mpr ⟨unhex_hex b,h⟩

theorem string_ok {value : Json} {field text : String} (h : value.get? field = some (.str text)) :
    string value field = .ok text := by
  rw [string, h]
  rfl

theorem address_ok {v t : String} :
    address v = .ok t ↔ ∃ b : Bytes, unhex v = .ok b ∧ b.length = 20 ∧ t = hex b := by
  constructor
  · intro h
    obtain ⟨b,hb,h⟩ := bind_ok.mp h
    obtain ⟨hu,hl⟩ := fixed_ok.mp hb
    exact ⟨b,hu,hl,(pure_ok.mp h).symm⟩
  · rintro ⟨b,hu,hl,rfl⟩
    exact bind_ok.mpr ⟨b,fixed_ok.mpr ⟨hu,hl⟩,rfl⟩

/-- Canonical account sets are strictly ascending lists of address texts. -/
structure Canonical (accounts : List String) : Prop where
  sorted : accounts.Pairwise (· < ·)
  address : ∀ a ∈ accounts, ∃ b : Bytes, b.length = 20 ∧ a = hex b
  nonempty : accounts ≠ []

theorem accountSet_canonical {values accounts : List String} (h : accountSet values = .ok accounts) :
    Canonical accounts := by
  obtain ⟨l,hl,h⟩ := bind_ok.mp h
  obtain ⟨_,hne,h⟩ := bind_ok.mp h
  obtain rfl := pure_ok.mp h
  refine ⟨SortedMap.keys_sorted _,fun a ha => ?_,ensure_ok.mp hne⟩
  obtain ⟨u,hu⟩ := SortedMap.mem_keys.mp ha
  have ht := SortedMap.insertAll_tops (k := l.map (fun a => (a,()))) (SortedMap.tops_empty (fun _ => 0))
    (List.pairwise_of_forall (fun _ _ => le_refl _))
  obtain ⟨b,hb,he⟩ := List.mem_map.mp ((ht a).1 u hu)
  cases he
  obtain ⟨v,-,hv⟩ := (Timeline.exists_related (mapM_ok.mp hl)).2 a hb
  obtain ⟨c,-,hc,rfl⟩ := address_ok.mp hv
  exact ⟨c,hc,rfl⟩

theorem address_hex {b : Bytes} (h : b.length = 20) : address (hex b) = .ok (hex b) :=
  address_ok.mpr ⟨b,unhex_hex b,h,rfl⟩

theorem accountSet_self {accounts : List String} (h : Canonical accounts) :
    accountSet accounts = .ok accounts := by
  have hmap : accounts.mapM address = .ok accounts := by
    rw [mapM_ok, List.forall₂_same]
    intro a ha
    obtain ⟨b,hb,rfl⟩ := h.address a ha
    exact address_hex hb
  let m : SortedMap String Unit := ⟨accounts.map (fun a => (a,())),List.pairwise_map.mpr h.sorted⟩
  have hkeys : (SortedMap.empty.insertAll (accounts.map (fun a => (a,())))).keys = accounts := by
    have := SortedMap.insertAll_empty_entries m
    rw [show accounts.map (fun a => (a,())) = m.entries from rfl, this]
    rw [SortedMap.keys, List.map_map]
    exact List.map_id _
  refine bind_ok.mpr ⟨accounts,hmap,bind_ok.mpr ⟨(),ensure_ok.mpr ?_,?_⟩⟩
  · rw [hkeys]
    exact h.nonempty
  · rw [hkeys]
    rfl

end EvmState.Encoding
