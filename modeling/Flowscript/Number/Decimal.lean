import Flowscript.Number.Shortest

/-! # Decimal text of floating-point numbers

The shortest digits are laid out positionally while the decimal point stays within reach, and in
scientific notation otherwise; how far that is differs with the precision. Reading goes the other way:
the digits are collected in a 64-bit significand, and one multiplication or division by a power of ten
follows.
-/
namespace Flowscript

/-- How decimal digits are laid out. -/
structure DecimalLayout where
  /-- The least decimal exponent still written positionally. -/
  leastPositional : Int
  /-- The first decimal exponent no longer written positionally. -/
  firstScientific : Int
  /-- Written before a nonnegative exponent. -/
  exponentPlus : String

namespace Number

/-- Double precision: positional from `1e-5` up to below `1e16`, a plus sign before exponents. -/
def doubleLayout : DecimalLayout := ⟨-5, 16, "+"⟩

/-- Single precision: positional from `1e-6` up to below `1e13`, a plus sign before exponents. -/
def singleLayout : DecimalLayout := ⟨-6, 13, "+"⟩

def zeros (n : Nat) : String := String.ofList (List.replicate n '0')

/-- Lays out a positive decimal; a whole number keeps `.0`. -/
def layOut (style : DecimalLayout) (d : Decimal) : String :=
  let text := toString d.digits
  let size : Int := text.length
  let lead := size - 1 + d.exponent
  if style.leastPositional ≤ lead ∧ lead < style.firstScientific then
    if 0 ≤ d.exponent then text ++ zeros d.exponent.toNat ++ ".0"
    else if 0 ≤ lead then
      let whole := (size + d.exponent).toNat
      String.ofList (text.toList.take whole) ++ "." ++ String.ofList (text.toList.drop whole)
    else "0." ++ zeros (-lead - 1).toNat ++ text
  else
    let mantissa := match text.toList with
      | [] => ""
      | [c] => String.ofList [c]
      | c :: rest => String.ofList (c :: '.' :: rest)
    let exponent := if 0 ≤ lead then style.exponentPlus ++ toString lead.toNat
      else "-" ++ toString (-lead).toNat
    mantissa ++ "e" ++ exponent

def signed (negative : Bool) (text : String) : String := if negative then "-" ++ text else text

end Number

def F64.text (x : F64) : String :=
  Number.signed x.isNegative <|
    if x.dyadic.significand = 0 then "0.0" else Number.layOut Number.doubleLayout x.shortest

def F32.text (x : F32) : String :=
  Number.signed x.isNegative <|
    if x.dyadic.significand = 0 then "0.0" else Number.layOut Number.singleLayout x.shortest

/-- Whether a decimal rounds to infinity in double precision: the first such number is halfway
between the greatest finite one, `2 ^ 1024 - 2 ^ 971`, and `2 ^ 1024`. The comparison is exact;
decimals far from it are told by the place of their leading digit. -/
def Decimal.overflows (d : Decimal) : Bool :=
  let size : Int := (Nat.toDigits 10 d.digits).length
  let lead := size - 1 + d.exponent
  if d.digits = 0 || lead < 300 then false
  else if 310 < lead then true
  else (Nat.pow 2 1024 - Nat.pow 2 970) * Nat.pow 10 (-d.exponent).toNat
    ≤ d.digits * Nat.pow 10 d.exponent.toNat

def F64.powerOfTen (n : Nat) : F64 := F64.ofFloat (Float.ofScientific 1 false n)

/-- `significand * 10 ^ exponent`: the significand is rounded once, and the scaled result once
more. Exponents below the least power of ten are reached in steps of 308. `none` when the number
is too large. -/
def F64.ofDecimal? (significand : UInt64) (exponent : Int) : Option F64 :=
  go 4 (F64.ofFloat significand.toFloat) exponent
where
  go : Nat → F64 → Int → Option F64
    | 0, f, _ => some f
    | fuel + 1, f, e =>
      if e.natAbs ≤ 308 then
        if 0 ≤ e then
          let scaled := f.mul (.powerOfTen e.natAbs)
          if scaled.isFinite then some scaled else none
        else some (f.div (.powerOfTen e.natAbs))
      else if f.dyadic.significand = 0 then some f
      else if 0 ≤ e then none
      else go fuel (f.div (.powerOfTen 308)) (e + 308)

end Flowscript
