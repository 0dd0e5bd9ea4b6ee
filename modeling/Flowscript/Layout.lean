/-! # Layouts

The size and alignment of a value, the placing of values one after another, and a stack that hands
out aligned ranges from one block.
-/
namespace Flowscript

/-- `n` rounded up to a multiple of `align`; an alignment of zero asks for nothing. -/
def roundUp (n align : Nat) : Nat := if align = 0 then n else (n + align - 1) / align * align

structure Layout where
  size : Nat
  align : Nat
deriving DecidableEq, Repr, Inhabited

namespace Layout

def maxSize : Nat := 0x7fffffffffffffff

def empty : Layout := ⟨0, 1⟩

def isPowerOfTwo (n : Nat) : Bool := n != 0 && n &&& (n - 1) == 0

def ofSizeAlign? (size align : Nat) : Option Layout :=
  if isPowerOfTwo align && roundUp size align ≤ maxSize then some ⟨size, align⟩ else none

/-- Places `next` after what is laid out already: the larger layout and the offset of `next`. -/
def extend? (l next : Layout) : Option (Layout × Nat) :=
  let offset := roundUp l.size next.align
  (ofSizeAlign? (offset + next.size) (max l.align next.align)).map (·, offset)

def pad (l : Layout) : Layout := { l with size := roundUp l.size l.align }

def place? (ls : List Layout) : Option (Layout × List Nat) :=
  go empty ls |>.map fun (whole, offsets) => (whole.pad, offsets)
where
  go (whole : Layout) : List Layout → Option (Layout × List Nat)
    | [] => some (whole, [])
    | l :: rest => do
      let (whole, offset) ← whole.extend? l
      let (whole, offsets) ← go whole rest
      some (whole, offset :: offsets)

end Layout

/-- A stack of bytes: ranges are taken from the top and given back by rewinding. -/
structure BumpStack where
  capacity : Nat
  used : Nat := 0
  highWater : Nat := 0
deriving DecidableEq, Repr, Inhabited

namespace BumpStack

/-- An empty stack; it holds at least one byte. -/
def ofCapacity (capacity : Nat) : BumpStack := { capacity := max capacity 1 }

/-- Takes a range: its start, and the stack with the range in use. -/
def alloc? (s : BumpStack) (l : Layout) : Option (Nat × BumpStack) :=
  let start := roundUp s.used l.align
  let stop := start + l.size
  if stop ≤ s.capacity then some (start, { s with used := stop, highWater := max s.highWater stop })
  else none

/-- Gives back everything above a mark. A mark above the top changes nothing. -/
def rewind (s : BumpStack) (mark : Nat) : BumpStack := { s with used := min mark s.used }

def containsSince (s : BumpStack) (mark offset : Nat) : Bool := mark ≤ offset && offset < s.used

end BumpStack

end Flowscript
