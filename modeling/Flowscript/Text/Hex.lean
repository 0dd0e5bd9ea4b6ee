/-! # Hexadecimal text

Identifiers are shown as eight and bit patterns as sixteen lower-case hexadecimal digits.
-/
namespace Flowscript.Text

/-- The `count` low hexadecimal digits of `n`, most significant first. -/
def hexDigits (count n : Nat) : List Char :=
  (List.range count).reverse.map fun i => Nat.digitChar (n >>> (4 * i) % 16)

def hex32 (n : UInt32) : String := String.ofList (hexDigits 8 n.toNat)

def hex64 (n : UInt64) : String := String.ofList (hexDigits 16 n.toNat)

def hexValue? (c : Char) : Option Nat :=
  if '0' ≤ c ∧ c ≤ '9' then some (c.toNat - '0'.toNat)
  else if 'a' ≤ c ∧ c ≤ 'f' then some (c.toNat - 'a'.toNat + 10)
  else if 'A' ≤ c ∧ c ≤ 'F' then some (c.toNat - 'A'.toNat + 10)
  else none

end Flowscript.Text
