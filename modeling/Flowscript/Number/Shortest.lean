import Flowscript.Number.Binary

/-! # Shortest decimal digits

A finite number is written with the fewest significant digits that read back as the same number,
and with the nearest such digits. A decimal `digits * 10 ^ exponent` reads back when it lies in the
interval of reals that round to the number; the interval's ends belong to it exactly when the
significand is even. For each digit count the two neighbours of the number on that decimal grid are
tried in exact arithmetic.
-/
namespace Flowscript

/-- A decimal number `digits * 10 ^ exponent`. -/
structure Decimal where
  digits : Nat
  exponent : Int
deriving DecidableEq, Repr

namespace Shortest

/-- A positive binary number with the half-distances to its neighbours: the value is
`value / unit`, and everything strictly between `low / unit` and `high / unit` rounds to it. -/
structure Interval where
  value : Nat
  low : Nat
  high : Nat
  unit : Nat
  closed : Bool
deriving Repr

/-- The rounding interval of `significand * 2 ^ exponent`. At a power of two above the least
exponent the neighbour below is half as far away. -/
def interval (significand : Nat) (exponent least : Int) (hidden : Nat) : Interval :=
  let closed := significand % 2 = 0
  let uneven := significand = hidden ∧ least < exponent
  let scale := Nat.pow 2 (exponent - 2).toNat
  let unit := Nat.pow 2 (2 - exponent).toNat
  { value := 4 * significand * scale
    low := (4 * significand - if uneven then 1 else 2) * scale
    high := (4 * significand + 2) * scale
    unit
    closed }

def Interval.contains (i : Interval) (n d : Nat) : Bool :=
  if i.closed then i.low * d ≤ n * i.unit && n * i.unit ≤ i.high * d
  else i.low * d < n * i.unit && n * i.unit < i.high * d

/-- The neighbour of the value on the grid of multiples of `10 ^ exponent` that lies in the
interval, the nearer one if both do, the even one on a tie. -/
def Interval.onGrid? (i : Interval) (exponent : Int) : Option Decimal :=
  let up := Nat.pow 10 exponent.toNat
  let down := Nat.pow 10 (-exponent).toNat
  let below := i.value * down / (i.unit * up)
  let above := below + 1
  let fits k := i.contains (k * up) down
  let twice := 2 * i.value * down
  let middle := (below + above) * up * i.unit
  let first := if twice < middle ∨ (twice = middle ∧ below % 2 = 0) then below else above
  let second := if first = below then above else below
  if fits first then some ⟨first, exponent⟩
  else if fits second then some ⟨second, exponent⟩
  else none

/-- An estimate, never too large by more than one, of the decimal exponent of `n / d`. -/
def leadingExponent (n d : Nat) : Int :=
  let digits k := ((Nat.toDigits 10 k).length : Int)
  if d ≤ n then digits (n / d) - 1 else -(digits (d / n))

def trim : Nat → Decimal → Decimal
  | 0, d => d
  | fuel + 1, d =>
    if d.digits ≠ 0 ∧ d.digits % 10 = 0 then trim fuel ⟨d.digits / 10, d.exponent + 1⟩ else d

/-- Tries grids of `count`, `count + 1`, … significant digits. -/
def search (i : Interval) (lead : Int) : Nat → Nat → Decimal
  | 0, _ => ⟨i.value / i.unit, 0⟩
  | fuel + 1, count =>
    match i.onGrid? (lead - count + 1) with
    | some d => trim 20 d
    | none => search i lead fuel (count + 1)

def digits (significand : Nat) (exponent least : Int) (hidden : Nat) : Decimal :=
  let i := interval significand exponent least hidden
  search i (leadingExponent i.value i.unit + 1) 20 1

end Shortest

/-- Shortest digits of the magnitude of a finite double-precision number. -/
def F64.shortest (x : F64) : Decimal :=
  let d := x.dyadic
  if d.significand = 0 then ⟨0, 0⟩
  else Shortest.digits d.significand d.exponent (-1074) 0x10000000000000

/-- Shortest digits of the magnitude of a finite single-precision number. -/
def F32.shortest (x : F32) : Decimal :=
  let d := x.dyadic
  if d.significand = 0 then ⟨0, 0⟩
  else Shortest.digits d.significand d.exponent (-149) 0x800000

end Flowscript
