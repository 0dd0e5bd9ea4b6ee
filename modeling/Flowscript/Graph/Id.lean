/-! # Graph identifiers

Nodes, pins and links of a graph are numbered from one. A number names the slot one below it; the
number zero names no slot.
-/
namespace Flowscript

/-- Number of a node within its graph. -/
@[ext] structure NodeId where
  val : Nat
deriving DecidableEq, Hashable, Repr, Inhabited

/-- Number of a pin within its graph. -/
@[ext] structure PinId where
  val : Nat
deriving DecidableEq, Hashable, Repr, Inhabited

/-- Number of a link within its graph. -/
@[ext] structure LinkId where
  val : Nat
deriving DecidableEq, Hashable, Repr, Inhabited

def NodeId.text (id : NodeId) : String := s!"node#{id.val}"
def PinId.text (id : PinId) : String := s!"pin#{id.val}"
def LinkId.text (id : LinkId) : String := s!"link#{id.val}"

def slot? {α : Type} (slots : Array (Option α)) (number : Nat) : Option α :=
  if number = 0 then none else (slots[number - 1]?).join

def live {α : Type} (slots : Array (Option α)) : List α := slots.toList.filterMap id

def setSlot {α : Type} (slots : Array (Option α)) (number : Nat) (value : Option α) :
    Array (Option α) :=
  if number = 0 then slots else slots.setIfInBounds (number - 1) value

end Flowscript
