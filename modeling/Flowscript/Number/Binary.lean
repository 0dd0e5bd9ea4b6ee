/-! # Binary floating-point numbers

A number is its bit pattern, so equality of patterns is decidable and distinguishes the two zeros.
Arithmetic rounds to nearest, ties to even. The remainder is computed exactly on significands. An
operation hands on the first operand that is no number, made quiet; where numbers have no result, it is
always the same negative NaN.
-/
namespace Flowscript

/-- A double-precision number, as its bits. -/
structure F64 where
  bits : UInt64
deriving DecidableEq, Repr, Inhabited

/-- A single-precision number, as its bits. -/
structure F32 where
  bits : UInt32
deriving DecidableEq, Repr, Inhabited

/-- A finite number is `± significand * 2 ^ exponent`. -/
structure Dyadic where
  negative : Bool
  significand : Nat
  exponent : Int
deriving DecidableEq, Repr

/-- The number nearest to a dyadic one, the even one on a tie, an infinity when it is too large. The
result is a multiple of its unit in the last place, of which it takes less than `2 ^ 24`; a carry out of
the fraction falls into the exponent. -/
def F32.nearest (d : Dyadic) : F32 :=
  let unit := max (d.exponent + d.significand.log2 - 23) (-149)
  let scaled := d.significand * Nat.pow 2 (d.exponent - unit).toNat
  let divisor := Nat.pow 2 (unit - d.exponent).toNat
  let below := scaled / divisor
  let twice := 2 * (scaled % divisor)
  let rounded := if twice < divisor ∨ (twice = divisor ∧ below % 2 = 0) then below else below + 1
  let magnitude := if d.significand = 0 then 0
    else min 0x7f800000 ((unit + 149).toNat * 0x800000 + rounded)
  ⟨UInt32.ofNat (if d.negative then magnitude + 0x80000000 else magnitude)⟩

namespace F64

def zero : F64 := ⟨0⟩

def toFloat (x : F64) : Float := Float.ofBits x.bits

def ofFloat (x : Float) : F64 := ⟨x.toBits⟩

def isFinite (x : F64) : Bool := x.bits >>> 52 &&& 0x7ff != 0x7ff

def isNaN (x : F64) : Bool := !x.isFinite && x.bits &&& 0xfffffffffffff != 0

def isNegative (x : F64) : Bool := x.bits >>> 63 != 0

def dyadic (x : F64) : Dyadic :=
  let field := (x.bits >>> 52 &&& 0x7ff).toNat
  let fraction := (x.bits &&& 0xfffffffffffff).toNat
  if field = 0 then ⟨x.isNegative, fraction, -1074⟩
  else ⟨x.isNegative, fraction + 0x10000000000000, (field : Int) - 1075⟩

/-- The number with a significand below `2 ^ 53` that fits the format exactly. -/
def ofDyadic (d : Dyadic) : F64 :=
  let sign : UInt64 := if d.negative then 0x8000000000000000 else 0
  if d.significand = 0 then ⟨sign⟩
  else
    let size := d.significand.log2
    let up := min (52 - size) (d.exponent + 1074).toNat
    let significand := d.significand * Nat.pow 2 up
    let exponent := d.exponent - up
    if significand < 0x10000000000000 then ⟨sign ||| UInt64.ofNat significand⟩
    else ⟨sign ||| UInt64.ofNat ((exponent + 1075).toNat * 0x10000000000000 + (significand - 0x10000000000000))⟩

def ofInt (n : Int) : F64 :=
  if n < 0 then ofFloat (-(Float.ofNat n.natAbs)) else ofFloat (Float.ofNat n.natAbs)

def undefined : F64 := ⟨0xfff8000000000000⟩

def quiet (x : F64) : F64 := ⟨x.bits ||| 0x8000000000000⟩

/-- What an operation on `x` and `y` gives that computes `r` on numbers. -/
def settle (x y r : F64) : F64 :=
  if x.isNaN then x.quiet else if y.isNaN then y.quiet else if r.isNaN then undefined else r

def add (x y : F64) : F64 := settle x y (ofFloat (x.toFloat + y.toFloat))
def sub (x y : F64) : F64 := settle x y (ofFloat (x.toFloat - y.toFloat))
def mul (x y : F64) : F64 := settle x y (ofFloat (x.toFloat * y.toFloat))
def div (x y : F64) : F64 := settle x y (ofFloat (x.toFloat / y.toFloat))

/-- The exact remainder of truncated division; its sign is that of `x`. -/
def rem (x y : F64) : F64 :=
  if !x.isFinite || y.isNaN || y.bits &&& 0x7fffffffffffffff == 0 then settle x y undefined
  else if !y.isFinite then x
  else
    let a := x.dyadic
    let b := y.dyadic
    let least := min a.exponent b.exponent
    let r := (a.significand * Nat.pow 2 (a.exponent - least).toNat)
      % (b.significand * Nat.pow 2 (b.exponent - least).toNat)
    let shift := if r = 0 then 0 else (r.log2 - 52 : Nat)
    ofDyadic ⟨a.negative, r / Nat.pow 2 shift, least + shift⟩

/-- Numeric equality: the two zeros are equal, no NaN equals anything. -/
def same (x y : F64) : Bool := x.toFloat == y.toFloat

def less (x y : F64) : Bool := x.toFloat < y.toFloat

def narrow (x : F64) : F32 :=
  if x.isFinite then .nearest x.dyadic
  else if x.isNaN then ⟨0x7fc00000⟩
  else if x.isNegative then ⟨0xff800000⟩
  else ⟨0x7f800000⟩

end F64

namespace F32

def zero : F32 := ⟨0⟩

def widen (x : F32) : F64 := ⟨(Float32.ofBits x.bits).toFloat.toBits⟩

def toFloat32 (x : F32) : Float32 := Float32.ofBits x.bits

def ofFloat32 (x : Float32) : F32 := ⟨x.toBits⟩

def isFinite (x : F32) : Bool := x.bits >>> 23 &&& 0xff != 0xff

def isNaN (x : F32) : Bool := !x.isFinite && x.bits &&& 0x7fffff != 0

def isNegative (x : F32) : Bool := x.bits >>> 31 != 0

def dyadic (x : F32) : Dyadic :=
  let field := (x.bits >>> 23 &&& 0xff).toNat
  let fraction := (x.bits &&& 0x7fffff).toNat
  if field = 0 then ⟨x.isNegative, fraction, -149⟩
  else ⟨x.isNegative, fraction + 0x800000, (field : Int) - 150⟩

def ofInt (n : Int) : F32 := nearest ⟨n < 0, n.natAbs, 0⟩

def undefined : F32 := ⟨0xffc00000⟩

def quiet (x : F32) : F32 := ⟨x.bits ||| 0x400000⟩

/-- What an operation on `x` and `y` gives that computes `r` on numbers. -/
def settle (x y r : F32) : F32 :=
  if x.isNaN then x.quiet else if y.isNaN then y.quiet else if r.isNaN then undefined else r

def add (x y : F32) : F32 := settle x y (ofFloat32 (x.toFloat32 + y.toFloat32))
def sub (x y : F32) : F32 := settle x y (ofFloat32 (x.toFloat32 - y.toFloat32))
def mul (x y : F32) : F32 := settle x y (ofFloat32 (x.toFloat32 * y.toFloat32))
def div (x y : F32) : F32 := settle x y (ofFloat32 (x.toFloat32 / y.toFloat32))

/-- The remainder of two single-precision numbers is itself one, so nothing is lost in narrowing. -/
def rem (x y : F32) : F32 := settle x y (x.widen.rem y.widen).narrow

def same (x y : F32) : Bool := x.widen.same y.widen

def less (x y : F32) : Bool := x.widen.less y.widen

end F32

end Flowscript
