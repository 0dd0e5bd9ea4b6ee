import Flowscript.Text.Hex

/-! # Names and their hashes

Types, functions and fields are identified by a 32-bit hash of their name. Each byte is mixed in by
an exclusive or followed by a multiplication; the hash zero is reserved, so it is replaced by one
whenever a run of bytes ends there.
-/
namespace Flowscript

namespace NameHash

def basis : UInt32 := 0x811c9dc5
def prime : UInt32 := 0x01000193

def mix (hash : UInt32) (byte : UInt8) : UInt32 := (hash ^^^ byte.toUInt32) * prime

def extend (seed : UInt32) (bytes : List UInt8) : UInt32 :=
  let hash := bytes.foldl mix seed
  if hash = 0 then 1 else hash

def ofString (name : String) : UInt32 := extend basis name.toUTF8.toList

theorem extend_ne_zero (seed : UInt32) (bytes : List UInt8) : extend seed bytes ≠ 0 := by
  simp only [extend]
  split
  · decide
  · assumption

def wordBytes (n : UInt32) : List UInt8 :=
  [n.toUInt8, (n >>> 8).toUInt8, (n >>> 16).toUInt8, (n >>> 24).toUInt8]

end NameHash

/-- Identity of a type: the hash of its name. -/
structure TypeId where
  hash : UInt32
deriving DecidableEq, Hashable, Repr, Inhabited

namespace TypeId

def ofName (name : String) : TypeId := ⟨NameHash.ofString name⟩

def text (id : TypeId) : String := Text.hex32 id.hash

end TypeId

end Flowscript
