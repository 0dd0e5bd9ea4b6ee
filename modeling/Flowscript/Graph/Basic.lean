import Flowscript.Graph.Node

/-! # Graphs

A graph is the body of one script function: nodes, pins and links in arrays of slots. Removing
something empties its slot, so a number once handed out is never given to anything else.
-/
namespace Flowscript

/-- A script function: its name, signature and body. -/
structure Graph where
  name : String
  signature : GraphSignature := {}
  nodes : Array (Option Node) := #[]
  pins : Array (Option Pin) := #[]
  links : Array (Option Link) := #[]
deriving Inhabited, Repr

namespace Graph

def node? (g : Graph) (id : NodeId) : Option Node := slot? g.nodes id.val
def pin? (g : Graph) (id : PinId) : Option Pin := slot? g.pins id.val
def link? (g : Graph) (id : LinkId) : Option Link := slot? g.links id.val

def liveNodes (g : Graph) : List Node := live g.nodes
def livePins (g : Graph) : List Pin := live g.pins
def liveLinks (g : Graph) : List Link := live g.links

def pinRange (g : Graph) (n : Node) : List PinId :=
  let stop := min n.pinStop (g.pins.size + 1)
  (List.range' n.firstPin.val (stop - n.firstPin.val)).map PinId.mk

def pinsOf (g : Graph) (n : Node) : List Pin := (g.pinRange n).filterMap g.pin?

def nodePins (g : Graph) (id : NodeId) : List Pin :=
  match g.node? id with
  | some n => g.pinsOf n
  | none => []

def findPin? (g : Graph) (node : NodeId) (direction : Direction) (name : String) : Option PinId :=
  ((g.nodePins node).find? fun p => p.direction == direction && p.name == name).map (·.id)

def linksOf (g : Graph) (p : PinId) : List Link := g.liveLinks.filter (·.touches p)

def entries (g : Graph) : List Node := g.liveNodes.filter (·.kind == .entry)
def returns (g : Graph) : List Node := g.liveNodes.filter (·.kind == .ret)

def isPure (g : Graph) (id : NodeId) : Bool :=
  match g.node? id with
  | none => false
  | some n =>
    if n.kind.isAlwaysImpure then false
    else
      let pins := g.pinsOf n
      let leading := pins.find? Pin.isOutput
      !pins.any Pin.isFlow || !(leading.any Pin.isFlow)

def sameSlots {α : Type} (same : α → α → Bool) (a b : Array (Option α)) : Bool :=
  a.size == b.size && (a.toList.zip b.toList).all fun
    | (some x, some y) => same x y
    | (none, none) => true
    | _ => false

def sameNode (a b : Node) : Bool :=
  { a with position := {} } == { b with position := {} } && a.position.same b.position

def sameDefault : Option Json → Option Json → Bool
  | some a, some b => a.same b
  | none, none => true
  | _, _ => false

def samePin (a b : Pin) : Bool :=
  a.id == b.id && a.node == b.node && a.direction == b.direction && a.name == b.name
    && a.type == b.type && sameDefault a.default b.default

def same (a b : Graph) : Bool :=
  a.name == b.name && a.signature == b.signature && sameSlots sameNode a.nodes b.nodes
    && sameSlots samePin a.pins b.pins && sameSlots (· == ·) a.links b.links

end Graph

end Flowscript
