import Std.Data.HashMap
import Flowscript.Memory.Block

/-! # Memory

Values live in blocks of storage. A place is an offset into a block, together with the address at
which it lies, because alignment and the extent of the stack are matters of addresses. A place where
nothing was written reads as zero.
-/
namespace Flowscript

/-- Where storage lies: on the stack of the interpreter, or apart from it. -/
inductive Address where
  | stack (offset : Nat)
  | apart (offset : Nat)
deriving DecidableEq, Repr, Inhabited

namespace Address

def offset : Address → Nat
  | .stack n => n
  | .apart n => n

def shift (n : Nat) : Address → Address
  | .stack k => .stack (k + n)
  | .apart k => .apart (k + n)

end Address

structure Place where
  block : Nat
  offset : Nat
  address : Address
deriving DecidableEq, Repr, Inhabited

namespace Place

def shift (p : Place) (n : Nat) : Place := ⟨p.block, p.offset + n, p.address.shift n⟩

def isAligned (p : Place) (align : Nat) : Bool := p.address.offset % align == 0

end Place

/-- Blocks of storage and the number of the next one. -/
structure Memory where
  blocks : Std.HashMap Nat Block := {}
  next : Nat := 0
deriving Inhabited

namespace Memory

def block (m : Memory) (b : Nat) : Block := m.blocks.getD b {}

def modifyBlock (m : Memory) (b : Nat) (f : Block → Block) : Memory :=
  { m with blocks := m.blocks.alter b fun block => some (f (block.getD {})) }

def read (m : Memory) (p : Place) (prim : Prim) : Atom := (m.block p.block).read p.offset prim

def write (m : Memory) (p : Place) (prim : Prim) (a : Atom) : Memory :=
  m.modifyBlock p.block (·.write p.offset prim a)

def readLeaves (m : Memory) (p : Place) (leaves : List (Nat × Prim)) : List Atom :=
  leaves.map fun (offset, prim) => m.read (p.shift offset) prim

def writeLeaves (m : Memory) (p : Place) (leaves : List (Nat × Prim)) (data : List Atom) : Memory :=
  (leaves.zip data).foldl (fun m ((offset, prim), a) => m.write (p.shift offset) prim a) m

def clear (m : Memory) (p : Place) (size : Nat) : Memory :=
  m.modifyBlock p.block (·.clear p.offset size)

def transfer (m : Memory) (source target : Place) (size : Nat) : Memory :=
  let origin := m.block source.block
  m.modifyBlock target.block (·.copy origin source.offset target.offset size)

def free (m : Memory) (b : Nat) : Memory := { m with blocks := m.blocks.erase b }

/-- Sets aside the numbers of `count` new blocks: the first of them. -/
def reserve (m : Memory) (count : Nat) : Nat × Memory := (m.next, { m with next := m.next + count })

end Memory

end Flowscript
