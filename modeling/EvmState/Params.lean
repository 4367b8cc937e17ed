import EvmState.Lib.Hex
import EvmState.Lib.Fallible

/-!
# The account filter of the mapper

A filter is a set of 20-byte accounts parsed from a comma or whitespace
separated list. The empty filter lets every account pass.
-/

set_option autoImplicit false

namespace EvmState.Params
open EvmState.Hex EvmState.Fallible

/-- Unicode White_Space. -/
def isWhitespace (c : Char) : Bool :=
  let n := c.toNat
  (9 ≤ n && n ≤ 13) || n = 0x20 || n = 0x85 || n = 0xA0 || n = 0x1680 ||
    (0x2000 ≤ n && n ≤ 0x200A) || n = 0x2028 || n = 0x2029 || n = 0x202F ||
    n = 0x205F || n = 0x3000

def isSeparator (c : Char) : Bool := c = ',' || isWhitespace c

def trim (cs : List Char) : List Char :=
  ((cs.dropWhile isWhitespace).reverse.dropWhile isWhitespace).reverse

def hex (bs : Bytes) : String := "0x" ++ encode bs

theorem hex_injective : Function.Injective hex := by
  intro a b h
  have h' := congrArg String.toList h
  simp only [hex, String.toList_append] at h'
  exact encode_injective (String.toList_injective (List.append_cancel_left h'))

/-- A set of distinct 20-byte accounts. -/
structure Filter where
  accounts : List Bytes
  nodup : accounts.Nodup
  twenty : ∀ a ∈ accounts, a.length = 20

namespace Filter

def empty : Filter := ⟨[],List.nodup_nil,by simp⟩

def insert (f : Filter) (a : Bytes) (h : a.length = 20) : Filter where
  accounts := f.accounts.insert a
  nodup := f.nodup.insert
  twenty b hb := by
    rcases List.mem_insert_iff.mp hb with rfl | hb
    · exact h
    · exact f.twenty b hb

def stripHexPrefix : List Char → List Char
  | '0' :: 'x' :: cs => cs
  | '0' :: 'X' :: cs => cs
  | cs => cs

def parseAccount (raw : List Char) : Except String {a : Bytes // a.length = 20} := do
  let bytes ← context (decodeChars (stripHexPrefix raw))
    ("invalid address " ++ String.ofList raw ++ ": invalid hex")
  if h : bytes.length = 20 then return ⟨bytes,h⟩
  else .error ("invalid address " ++ String.ofList raw ++ ": expected 20 bytes")

def parseToken (f : Filter) (raw : List Char) : Except String Filter := do
  let raw := trim raw
  if raw.isEmpty then return f
  let a ← parseAccount raw
  return f.insert a.1 a.2

def parse (params : String) : Except String Filter :=
  (params.toList.splitOnP isSeparator).foldlM parseToken empty

def isEmpty (f : Filter) : Bool := f.accounts.isEmpty

def canonical (f : Filter) : String :=
  ",".intercalate ((f.accounts.map hex).insertionSort (· ≤ ·))

def matchesAccount (f : Filter) (address : Bytes) : Bool :=
  if f.accounts.isEmpty then true
  else if address.length = 20 then address ∈ f.accounts
  else false

theorem matches_mem {f : Filter} (hf : f.isEmpty = false) {a : Bytes} :
    f.matchesAccount a = true ↔ a ∈ f.accounts := by
  rw [matchesAccount, if_neg (by simpa [isEmpty] using hf)]
  split
  · simp
  · rename_i h
    simp only [Bool.false_eq_true, false_iff]
    exact fun ha => h (f.twenty a ha)

end Filter
end EvmState.Params
