import Flowscript.Graph.Basic
import Flowscript.Trace

/-! # Editing graphs

Edits add, remove, link and refresh. A link joins an output to an input of another node, both flow
or both data; a flow output and a data input take at most one link.
-/
namespace Flowscript

/-- Why an edit was refused. -/
inductive EditError where
  | nodeNotFound (id : NodeId)
  | pinNotFound (id : PinId)
  | linkNotAllowed (reason : String)
  | unresolved (error : ResolveError)
deriving DecidableEq, Repr

namespace EditError

def message : EditError → String
  | .nodeNotFound id => s!"Node not found: {id.text}"
  | .pinNotFound id => s!"Pin not found: {id.text}"
  | .linkNotAllowed reason => s!"Link not allowed: {reason}"
  | .unresolved error => error.message

end EditError

/-- A graph being edited, and the notes taken of it, the latest first. -/
structure Editing where
  graph : Graph
  notes : List Trace := []

/-- An edit; one that fails midway keeps what it did until then. -/
abbrev Edit := EStateM EditError Editing

namespace Edit

def graph : Edit Graph := return (← get).graph

def setGraph (g : Graph) : Edit Unit := modify fun e => { e with graph := g }

def modifyGraph (f : Graph → Graph) : Edit Unit := modify fun e => { e with graph := f e.graph }

def note (message : String) (id : NodeId) (more : List (String × Json)) : Edit Unit :=
  modify fun e =>
    let fields := [("function", .str e.graph.name), ("node", .str id.text)] ++ more
    { e with notes := ⟨.debug, message, fields⟩ :: e.notes }

end Edit

namespace Graph

def pushPins (g : Graph) (node : NodeId) (specs : List PinSpec) : PinId × Graph :=
  let first := g.pins.size + 1
  let pins := specs.zipIdx.map fun (s, i) =>
    some { id := ⟨first + i⟩, node, direction := s.direction, name := s.name, type := s.type : Pin }
  (⟨first⟩, { g with pins := g.pins ++ pins.toArray })

def dropLinks (g : Graph) (condition : Link → Bool) : Graph :=
  { g with links := g.links.map fun slot => slot.filter fun l => !condition l }

def setPin (g : Graph) (id : PinId) (p : Option Pin) : Graph :=
  { g with pins := setSlot g.pins id.val p }

def setNode (g : Graph) (id : NodeId) (n : Option Node) : Graph :=
  { g with nodes := setSlot g.nodes id.val n }

end Graph

namespace Edit

def node (id : NodeId) : Edit Node := do
  match (← graph).node? id with
  | some n => return n
  | none => throw (.nodeNotFound id)

def pin (id : PinId) : Edit Pin := do
  match (← graph).pin? id with
  | some p => return p
  | none => throw (.pinNotFound id)

def expectedPins (c : Catalogue) (kind : NodeKind) : Edit (List PinSpec) := do
  match kind.expectedPins (← graph).signature c with
  | .ok specs => return specs
  | .error e => throw (.unresolved e)

def addNodeWithPins (kind : NodeKind) (specs : List PinSpec) : Edit NodeId := do
  let g ← graph
  let id : NodeId := ⟨g.nodes.size + 1⟩
  let (firstPin, g) := g.pushPins id specs
  note "Added node" id [("kind", .str kind.label)]
  setGraph { g with nodes := g.nodes.push (some { id, kind, firstPin, pinCount := specs.length }) }
  return id

def addNode (c : Catalogue) (kind : NodeKind) : Edit NodeId := do
  addNodeWithPins kind (← expectedPins c kind)

def removeNode (id : NodeId) : Edit Unit := do
  let n ← node id
  modifyGraph fun g =>
    let g' := g.dropLinks fun l => n.owns l.input || n.owns l.output
    ((g.pinRange n).foldl (fun g p => g.setPin p none) g').setNode id none
  note "Removed node" id []

/-- Removes one pin and its links; the node keeps its range. -/
def removePin (id : PinId) : Edit Unit := do
  let _ ← pin id
  modifyGraph fun g => (g.dropLinks (·.touches id)).setPin id none

def setDefault (id : PinId) (value : Option Json) : Edit Unit := do
  let p ← pin id
  modifyGraph (·.setPin id (some { p with default := value }))

def setPosition (id : NodeId) (position : Position) : Edit Unit := do
  let n ← node id
  modifyGraph (·.setNode id (some { n with position }))

def linkObstacle (g : Graph) (output input : PinId) (source target : Pin) : Option String :=
  if !source.isOutput || !target.isInput then
    some s!"{output.text} must be an output and {input.text} an input"
  else if source.node = target.node then some s!"{source.node.text} cannot link to itself"
  else if source.isFlow != target.isFlow then
    some s!"cannot connect {source.type.text} to {target.type.text}"
  else if source.isFlow && g.liveLinks.any (·.output == output) then
    some s!"flow output {output.text} is already linked"
  else if !target.isFlow && g.liveLinks.any (·.input == input) then
    some s!"data input {input.text} is already linked"
  else none

def addLink (output input : PinId) : Edit LinkId := do
  let source ← pin output
  let target ← pin input
  let g ← graph
  match linkObstacle g output input source target with
  | some reason => throw (.linkNotAllowed reason)
  | none =>
    let id : LinkId := ⟨g.links.size + 1⟩
    setGraph { g with links := g.links.push (some ⟨id, input, output⟩) }
    return id

def removeLink (id : LinkId) : Edit (Option Link) := do
  let g ← graph
  setGraph { g with links := setSlot g.links id.val none }
  return g.link? id

/-- The new pin that takes the place of an old one: same direction, name and flow or data. -/
def successor? (news : List Pin) (old : Pin) : Option PinId :=
  (news.find? fun p =>
    p.direction == old.direction && p.name == old.name && p.isFlow == old.isFlow).map (·.id)

def moveEnds (moves : List (PinId × PinId)) (l : Link) : Link :=
  moves.foldl (fun l (old, new) =>
    let l := if l.input = old then { l with input := new } else l
    if l.output = old then { l with output := new } else l) l

def moveDefault (g : Graph) (move : Pin × PinId) : Graph :=
  match g.pin? move.2 with
  | some p => g.setPin move.2 (some { p with default := move.1.default })
  | none => g

def moveDefaults (moves : List (Pin × PinId)) (g : Graph) : Graph := moves.foldl moveDefault g

def retirePins (ends : List (PinId × PinId)) (olds : List Pin) (g : Graph) : Graph :=
  olds.foldl (fun g old =>
    let g := if ends.any (·.1 == old.id) then g else g.dropLinks (·.touches old.id)
    g.setPin old.id none) g

/-- Gives a node new pins; links and defaults move to the pins that take the place of old ones. -/
def replacePins (id : NodeId) (n : Node) (olds : List Pin) (specs : List PinSpec) (g : Graph) :
    Graph :=
  let (firstPin, g) := g.pushPins id specs
  let news := (List.range' firstPin.val specs.length).filterMap fun i => g.pin? ⟨i⟩
  let moves := olds.filterMap fun old => (successor? news old).map (old, ·)
  let ends := moves.map fun (old, new) => (old.id, new)
  let g := moveDefaults moves g
  let g := { g with links := g.links.map (Option.map (moveEnds ends)) }
  let g := retirePins ends olds g
  match g.node? id with
  | some _ => g.setNode id (some { n with firstPin, pinCount := specs.length })
  | none => g

def refreshNode (c : Catalogue) (id : NodeId) : Edit Unit := do
  let n ← node id
  let specs ← expectedPins c n.kind
  let olds := (← graph).pinsOf n
  if olds.length == specs.length && (specs.zip olds).all fun (s, p) => s.fits p then return ()
  modifyGraph (replacePins id n olds specs)
  note "Refreshed node pins" id []

def setSignature (c : Catalogue) (signature : GraphSignature) : Edit Unit := do
  modifyGraph fun g => { g with signature }
  for n in (← graph).liveNodes do
    if n.kind == .entry || n.kind == .ret then refreshNode c n.id

def addEnds (c : Catalogue) : Edit Unit := do
  let _ ← addNode c .entry
  let signature := (← graph).signature
  if signature.result.isSome || signature.pure then
    let _ ← addNode c .ret

end Edit

end Flowscript
