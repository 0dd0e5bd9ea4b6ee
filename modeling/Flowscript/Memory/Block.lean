import Flowscript.Type.Shape

/-! # Blocks of storage

A block is a row of bytes; bytes that were never written are zero. Numbers and truth values are kept
with the least significant byte first, so data that overlap share their bytes. A text is no row of
bytes: it is kept whole at the offset where it was written.
-/
namespace Flowscript

structure Block where
  bytes : Array UInt8 := #[]
  /-- Texts with their offsets, at most one at each. -/
  texts : List (Nat × String) := []
deriving DecidableEq, Repr, Inhabited

namespace Block

def byte (b : Block) (offset : Nat) : UInt8 := b.bytes.getD offset 0

def number (b : Block) : Nat → Nat → Nat
  | _, 0 => 0
  | offset, count + 1 => (b.byte offset).toNat + 256 * number b (offset + 1) count

/-- At least `size` bytes; those added are zero. -/
def grow (bytes : Array UInt8) (size : Nat) : Array UInt8 :=
  if size ≤ bytes.size then bytes else bytes ++ Array.replicate (size - bytes.size) 0

def putNumber : Nat → Nat → Nat → Array UInt8 → Array UInt8
  | _, 0, _, bytes => bytes
  | offset, count + 1, n, bytes =>
    putNumber (offset + 1) count (n / 256) (bytes.setIfInBounds offset (UInt8.ofNat n))

def inRange (start size offset : Nat) : Bool := start ≤ offset && offset < start + size

def read (b : Block) (offset : Nat) : Prim → Atom
  | .text => .text ((b.texts.lookup offset).getD "")
  | prim => prim.ofBits (b.number offset prim.layout.size)

def write (b : Block) (offset : Nat) (prim : Prim) (a : Atom) : Block :=
  match a with
  | .text s => { b with texts := (offset, s) :: b.texts.filter (·.1 != offset) }
  | a =>
    let size := prim.layout.size
    { b with bytes := putNumber offset size (prim.bits a) (grow b.bytes (offset + size)) }

def clear (b : Block) (offset size : Nat) : Block :=
  { bytes := putNumber offset size 0 b.bytes
    texts := b.texts.filter fun e => !inRange offset size e.1 }

def copyBytes (source : Block) : Nat → Nat → Nat → Array UInt8 → Array UInt8
  | _, _, 0, bytes => bytes
  | start, offset, count + 1, bytes =>
    copyBytes source (start + 1) (offset + 1) count
      (bytes.setIfInBounds offset (source.byte start))

def copy (b source : Block) (start offset size : Nat) : Block :=
  let moved := source.texts.filterMap fun (o, s) =>
    if inRange start size o then some (o - start + offset, s) else none
  { bytes := copyBytes source start offset size (grow b.bytes (offset + size))
    texts := moved ++ b.texts.filter fun e => !inRange offset size e.1 }

end Block

end Flowscript
