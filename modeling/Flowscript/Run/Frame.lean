import Flowscript.Machine.State

/-! # Frames

A call of a program has a frame on the stack of its interpreter: a slot for every pin, and storage
for the values that pins hold. A slot is empty, holds a value in the pin's own storage, refers to
data elsewhere, or is a null pointer. It is stamped with the number of statements run before it was
filled.
-/
namespace Flowscript

inductive SlotState where
  | empty
  | owned
  | borrowed (place : Place)
  | null
deriving DecidableEq, Repr, Inhabited

/-- What a pin holds, and when it was filled. -/
structure Slot where
  state : SlotState := .empty
  stamp : UInt32 := 0
deriving DecidableEq, Repr, Inhabited

/-- A loop whose body is running. -/
inductive LoopMarker where
  | forLoop (node : NodeId)
  | whileLoop (node : NodeId)
deriving DecidableEq, Repr

namespace LoopMarker

def node : LoopMarker → NodeId
  | .forLoop id => id
  | .whileLoop id => id

end LoopMarker

structure Frame where
  slots : Array Slot
  /-- The block of memory of the first pin; the others follow. -/
  firstBlock : Nat
  /-- Where the storage starts on the stack. -/
  base : Nat
  /-- How much of the stack was in use before the call. -/
  mark : Nat
  /-- Enclosing loops, the innermost first. -/
  loops : List LoopMarker := []
  /-- Statements run so far; the count starts over after 32 bits. -/
  statements : UInt32 := 0
deriving Inhabited

namespace Frame

def slotLayout : Layout := ⟨24, 8⟩

/-- Takes the stack a call needs: where the storage starts. What was taken for slots is given back
when the storage does not fit, but stays part of the most ever used. -/
def take? (p : Program) (s : BumpStack) : Option Nat × BumpStack :=
  match s.alloc? ⟨slotLayout.size * p.pins.size, slotLayout.align⟩ with
  | none => (none, s)
  | some (_, s') =>
    match s'.alloc? p.storage with
    | none => (none, s'.rewind s.used)
    | some (base, s'') => (some base, s'')

def state (f : Frame) (id : PinId) : SlotState :=
  if id.val = 0 then .empty
  else match f.slots[id.val - 1]? with
    | some slot => slot.state
    | none => .empty

def stamp? (f : Frame) (id : PinId) : Option UInt32 :=
  if id.val = 0 then none else f.slots[id.val - 1]?.map (·.stamp)

def isFilled (f : Frame) (id : PinId) : Bool := f.state id != .empty

def set (f : Frame) (id : PinId) (state : SlotState) : Frame :=
  if id.val = 0 then f
  else { f with slots := f.slots.setIfInBounds (id.val - 1) ⟨state, f.statements⟩ }

def storage? (f : Frame) (p : Program) (id : PinId) : Option Place :=
  match p.pin? id with
  | some pin =>
    if pin.type.isSome then some ⟨f.firstBlock + (id.val - 1), 0, .stack (f.base + pin.storage)⟩
    else none
  | none => none

def charge? (f : Frame) (c : Catalogue) (p : Program) (id : PinId) : Option Charge :=
  match f.storage? p id, (p.pin? id).bind (·.type) with
  | some place, some h => some ⟨place, (c.info h).id⟩
  | _, _ => none

def value? (f : Frame) (p : Program) (id : PinId) : Option Place :=
  match f.state id with
  | .owned => f.storage? p id
  | .borrowed place => some place
  | .empty | .null => none

def owner? (f : Frame) (p : Program) (place : Place) : Option PinId :=
  ((List.range f.slots.size).map fun i => PinId.mk (i + 1)).find? fun id =>
    f.state id == .owned && (f.storage? p id).any (·.address == place.address)

def exitLoop (f : Frame) (id : NodeId) : Frame :=
  match f.loops.dropWhile (·.node != id) with
  | [] => f
  | _ :: outer => { f with loops := outer }

/-- Enters a loop, unless it is the innermost already. -/
def enterLoop (f : Frame) (marker : LoopMarker) : Frame :=
  if f.loops.head?.map (·.node) = some marker.node then f
  else { f with loops := marker :: f.loops }

end Frame

end Flowscript
