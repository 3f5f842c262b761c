/-!
# Hexadecimal

Bytes written as two lower case digits each; reading takes digits of either
case. Reading undoes writing.
-/

namespace Conform.Hex

def digits : List Char :=
  ['0', '1', '2', '3', '4', '5', '6', '7', '8', '9', 'a', 'b', 'c', 'd', 'e', 'f']

def digit (value : Nat) : Char := digits.getD value '0'

def value? (c : Char) : Option Nat := digits.findIdx? (· == c.toLower)

/-- Two digits for each byte, the high one first. -/
def encode : List UInt8 → List Char
  | [] => []
  | byte :: rest => digit (byte.toNat / 16) :: digit (byte.toNat % 16) :: encode rest

/-- Pairs of digits read as bytes; none when a digit stands alone or is no digit. -/
def decode? : List Char → Option (List UInt8)
  | [] => some []
  | [_] => none
  | high :: low :: rest => do
    let h ← value? high
    let l ← value? low
    let bytes ← decode? rest
    return UInt8.ofNat (h * 16 + l) :: bytes

private theorem value?_digit : ∀ n ∈ List.range 16, value? (digit n) = some n := by decide

@[simp] theorem decode?_encode (bytes : List UInt8) : decode? (encode bytes) = some bytes := by
  induction bytes with
  | nil => rfl
  | cons byte rest ih =>
    have hbyte : byte.toNat < 256 := byte.toNat_lt
    have hhigh := value?_digit (byte.toNat / 16) (List.mem_range.mpr (by omega))
    have hlow := value?_digit (byte.toNat % 16) (List.mem_range.mpr (by omega))
    have hsum : byte.toNat / 16 * 16 + byte.toNat % 16 = byte.toNat := by omega
    simp only [encode, decode?, hhigh, hlow, ih, Option.bind_eq_bind, Option.bind_some, hsum,
      UInt8.ofNat_toNat, Option.pure_def]

def text (bytes : List UInt8) : String := String.ofList (encode bytes)

end Conform.Hex
