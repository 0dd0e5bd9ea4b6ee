import Flowscript.Layout
import Flowscript.Number.Binary
import Flowscript.Operator

/-! # Primitive data

The indivisible data of which every value consists, and the operations on them: equality, order and
arithmetic. A shape lists the primitive parts of a type that the host language provides.
-/
namespace Flowscript

inductive IntKind where
  | i32
  | i64
  | u32
  | u64
deriving DecidableEq, Repr

namespace IntKind

def text : IntKind → String
  | .i32 => "i32"
  | .i64 => "i64"
  | .u32 => "u32"
  | .u64 => "u64"

def width : IntKind → Nat
  | .i32 | .u32 => 32
  | .i64 | .u64 => 64

def signed : IntKind → Bool
  | .i32 | .i64 => true
  | .u32 | .u64 => false

def modulus : IntKind → Int
  | .i32 | .u32 => 0x100000000
  | .i64 | .u64 => 0x10000000000000000

def least (k : IntKind) : Int := if k.signed then -(k.modulus / 2) else 0

def greatest (k : IntKind) : Int := if k.signed then k.modulus / 2 - 1 else k.modulus - 1

def contains (k : IntKind) (n : Int) : Bool := k.least ≤ n && n ≤ k.greatest

/-- The number of the type that agrees with `n` in the low bits. -/
def wrap (k : IntKind) (n : Int) : Int :=
  let low := n % k.modulus
  if k.signed && k.modulus / 2 ≤ low then low - k.modulus else low

end IntKind

inductive Prim where
  | bool
  | int (kind : IntKind)
  | f32
  | f64
  | text
deriving DecidableEq, Repr

inductive Atom where
  | bool (b : Bool)
  | int (n : Int)
  | f32 (x : F32)
  | f64 (x : F64)
  | text (s : String)
deriving DecidableEq, Repr

namespace Prim

def layout : Prim → Layout
  | .bool => ⟨1, 1⟩
  | .int kind => ⟨kind.width / 8, kind.width / 8⟩
  | .f32 => ⟨4, 4⟩
  | .f64 => ⟨8, 8⟩
  | .text => ⟨24, 8⟩

def zero : Prim → Atom
  | .bool => .bool false
  | .int _ => .int 0
  | .f32 => .f32 .zero
  | .f64 => .f64 .zero
  | .text => .text ""

/-- The bit pattern of a datum in storage; a text has none. -/
def bits : Prim → Atom → Nat
  | .bool, .bool b => b.toNat
  | .int kind, .int n => (n % kind.modulus).toNat
  | .f32, .f32 x => x.bits.toNat
  | .f64, .f64 x => x.bits.toNat
  | _, _ => 0

def ofBits : Prim → Nat → Atom
  | .bool, n => .bool (n % 2 = 1)
  | .int kind, n => .int (kind.wrap n)
  | .f32, n => .f32 ⟨UInt32.ofNat n⟩
  | .f64, n => .f64 ⟨UInt64.ofNat n⟩
  | .text, _ => .text ""

end Prim

namespace Atom

def same : Atom → Atom → Bool
  | .bool a, .bool b => a == b
  | .int a, .int b => a == b
  | .f32 a, .f32 b => a.same b
  | .f64 a, .f64 b => a.same b
  | .text a, .text b => a == b
  | _, _ => false

/-- The order of two data of one type; numbers that are not comparable have none. -/
def compare? : Atom → Atom → Option Ordering
  | .bool a, .bool b => some (compare a b)
  | .int a, .int b => some (compare a b)
  | .f32 a, .f32 b =>
    if a.less b then some .lt else if b.less a then some .gt
    else if a.same b then some .eq else none
  | .f64 a, .f64 b =>
    if a.less b then some .lt else if b.less a then some .gt
    else if a.same b then some .eq else none
  | .text a, .text b => some (if a < b then .lt else if b < a then .gt else .eq)
  | _, _ => none

/-- Integer arithmetic; nothing when the result leaves the type or the divisor is zero. -/
def intArithmetic (kind : IntKind) (op : Operator) (a b : Int) : Option Int :=
  let checked (n : Int) := if kind.contains n then some n else none
  match op with
  | .add => checked (a + b)
  | .subtract => checked (a - b)
  | .multiply => checked (a * b)
  | .divide => if b = 0 then none else checked (a.tdiv b)
  | .remainder => if b = 0 ∨ !kind.contains (a.tdiv b) then none else checked (a.tmod b)
  | _ => none

def arithmetic (op : Operator) : Prim → Atom → Atom → Option Atom
  | .int kind, .int a, .int b => (intArithmetic kind op a b).map .int
  | .f32, .f32 a, .f32 b =>
    match op with
    | .add => some (.f32 (a.add b))
    | .subtract => some (.f32 (a.sub b))
    | .multiply => some (.f32 (a.mul b))
    | .divide => some (.f32 (a.div b))
    | .remainder => some (.f32 (a.rem b))
    | _ => none
  | .f64, .f64 a, .f64 b =>
    match op with
    | .add => some (.f64 (a.add b))
    | .subtract => some (.f64 (a.sub b))
    | .multiply => some (.f64 (a.mul b))
    | .divide => some (.f64 (a.div b))
    | .remainder => some (.f64 (a.rem b))
    | _ => none
  | _, _, _ => none

def compareList? : List Atom → List Atom → Option Ordering
  | a :: as, b :: bs =>
    match compare? a b with
    | some .eq => compareList? as bs
    | order => order
  | _, _ => some .eq

def sameList : List Atom → List Atom → Bool
  | a :: as, b :: bs => same a b && sameList as bs
  | [], [] => true
  | _, _ => false

def compareBy (op : Operator) (as bs : List Atom) : Bool :=
  match op with
  | .equal => sameList as bs
  | .notEqual => !sameList as bs
  | .less => compareList? as bs == some .lt
  | .lessEqual => compareList? as bs == some .lt || compareList? as bs == some .eq
  | .greater => compareList? as bs == some .gt
  | .greaterEqual => compareList? as bs == some .gt || compareList? as bs == some .eq
  | _ => false

end Atom

/-- The layout of a type and its primitive parts, each at its offset. -/
structure Shape where
  name : String
  layout : Layout
  leaves : List (Nat × Prim)
deriving DecidableEq, Repr

namespace Shape

def ofPrim (name : String) (p : Prim) : Shape := ⟨name, p.layout, [(0, p)]⟩

def defaults (s : Shape) : List Atom := s.leaves.map (·.2.zero)

end Shape

end Flowscript
