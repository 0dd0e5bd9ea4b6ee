/-! # Traits

What can be done with the values of a type, as a set of six capabilities.
-/
namespace Flowscript

structure Traits where
  default : Bool := false
  copy : Bool := false
  move : Bool := false
  copyAssign : Bool := false
  moveAssign : Bool := false
  trivial : Bool := false
deriving DecidableEq, Repr, Inhabited

namespace Traits

def zipWith (f : Bool → Bool → Bool) (a b : Traits) : Traits :=
  ⟨f a.default b.default, f a.copy b.copy, f a.move b.move, f a.copyAssign b.copyAssign,
    f a.moveAssign b.moveAssign, f a.trivial b.trivial⟩

def union (a b : Traits) : Traits := zipWith (· || ·) a b
def inter (a b : Traits) : Traits := zipWith (· && ·) a b
def without (a b : Traits) : Traits := zipWith (fun x y => x && !y) a b
def contains (a b : Traits) : Bool := a.inter b == b

def named (t : Traits) : List (String × Bool) :=
  [("DEFAULT_CONSTRUCTIBLE", t.default), ("COPY_CONSTRUCTIBLE", t.copy),
    ("MOVE_CONSTRUCTIBLE", t.move), ("COPY_ASSIGNABLE", t.copyAssign),
    ("MOVE_ASSIGNABLE", t.moveAssign), ("TRIVIALLY_DESTRUCTIBLE", t.trivial)]

def bits (t : Traits) : Nat :=
  t.named.foldr (fun entry n => 2 * n + entry.2.toNat) 0

def text (t : Traits) : String :=
  "TypeTraits(" ++ " | ".intercalate ((t.named.filter (·.2)).map (·.1)) ++ ")"

end Traits

end Flowscript
