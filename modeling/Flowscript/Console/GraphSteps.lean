import Flowscript.Console.Session

/-! # Steps on graphs

Making, editing, checking and showing graphs.
-/
namespace Flowscript.Console.Step

def editKind : EditError → String
  | .nodeNotFound _ => "NodeNotFound"
  | .pinNotFound _ => "PinNotFound"
  | .linkNotAllowed _ => "LinkNotAllowed"
  | .unresolved (.unknownType _) => "UnknownType"
  | .unresolved (.unknownFunction ..) => "UnknownFunction"
  | .unresolved (.signatureChanged ..) => "SignatureChanged"
  | .unresolved (.unknownField ..) => "UnknownField"

def noteAll (notes : List Trace) : Step Unit :=
  notes.reverse.forM fun t => modifyWorkspace (·.note t.severity t.message t.fields)

/-- Edits a graph; what an edit did before it was refused stays done. -/
def editGraph {α : Type} (g : Graph) (edit : Edit α) : Step (Except EditError α × Graph) := do
  match edit.run { graph := g } with
  | .ok a e =>
    noteAll e.notes
    return (.ok a, e.graph)
  | .error error e =>
    noteAll e.notes
    return (.error error, e.graph)

def orEditError {α : Type} : Except EditError α → Step α
  | .ok a => return a
  | .error e => refuseWith (editKind e) e.message

def edit {α : Type} (step : Json) (edit : Edit α) : Step α := do
  let name := textOf step "graph"
  let (outcome, g) ← editGraph (← graph name) edit
  setGraph name g
  orEditError outcome

def orReadFault {α : Type} : Except ReadFault α → Step α
  | .ok a => return a
  | .error fault => throw (readRefusal fault)

def signatureIn (step : Json) : Step GraphSignature :=
  match step.get? "signature" with
  | none => return {}
  | some j => orReadFault (GraphSignature.ofDraft .value (.ofJson j))

def newGraph (step : Json) : Step Json := do
  let signature ← signatureIn step
  let empty : Graph := { name := (optionalText step "name").getD "F", signature }
  let g ← if flagOf step "empty" then pure empty else do
    let (outcome, g) ← editGraph empty (Edit.addEnds (← catalogue))
    orEditError outcome
    pure g
  setGraph (textOf step "graph") g
  return .obj [("nodes", .nat g.nodes.size), ("pins", .nat g.pins.size)]

def load (step : Json) : Step Json := do
  let text := match step.get? "json" with
    | some j => j.compact
    | none => textOf step "text"
  let g ← orReadFault (Graph.parse text)
  setGraph (textOf step "graph") g
  return .null

def cloneGraph (step : Json) : Step Json := do
  let g ← graph (textOf step "graph")
  setGraph (textOf step "as") g
  return .null

def sameGraph (step : Json) : Step Json := do
  let g ← graph (textOf step "graph")
  let h ← graph (textOf step "other")
  return .bool (g.same h)

def rename (step : Json) : Step Json := do
  let name := textOf step "graph"
  let g ← graph name
  setGraph name { g with name := textOf step "name" }
  return .null

/-- The kind of node a document describes. A call without a signature takes an overload by its
position. -/
def kindOf (j : Json) : Step NodeKind := do
  if textOf j "kind" = "Call" && (j.get? "signature").isNone then
    let type := textOf j "type"
    let name := textOf j "function"
    let t ← typeInfo type
    match (t.functionsNamed name)[natOf j "overload"]? with
    | some f => return .call type name f.signature
    | none => refuse "NoSuchOverload"
  else orReadFault (NodeKind.ofDraft .value (.ofJson j))

def nodeJson (step : Json) : Json := (step.get? "node").getD .null

def addNode (step : Json) : Step Json := do
  let kind ← kindOf (nodeJson step)
  let id ← edit step (Edit.addNode (← catalogue) kind)
  return .nat id.val

/-- A pin that a document describes; without a form it is a flow pin. -/
def pinSpecOf (j : Json) : PinSpec :=
  { direction := if textOf j "direction" = "output" then .output else .input
    name := textOf j "name"
    type := match formOf j "form" with
      | some form => .data (textOf j "type") form
      | none => .flow }

def addPinsNode (step : Json) : Step Json := do
  let kind ← kindOf (nodeJson step)
  let id ← edit step (Edit.addNodeWithPins kind ((itemsOf step "pins").map pinSpecOf))
  return .nat id.val

def nodeOf (step : Json) : NodeId := ⟨natOf step "node"⟩

/-- The pin that a document names: by number, or by node, direction and name. -/
def pinOf (g : Graph) (direction : Direction) (j : Json) : Step PinId := do
  match j with
  | .arr [node, .str name] => find node direction name
  | .arr [node, .str "in", .str name] => find node .input name
  | .arr [node, .str "out", .str name] => find node .output name
  | j => return ⟨j.nat?.getD 0⟩
where
  find (node : Json) (direction : Direction) (name : String) : Step PinId :=
    match g.findPin? ⟨node.nat?.getD 0⟩ direction name with
    | some id => return id
    | none => refuse "NoSuchPin"

def pinIn (step : Json) (key : String) (direction : Direction) : Step PinId := do
  pinOf (← graph (textOf step "graph")) direction ((step.get? key).getD .null)

def removeNode (step : Json) : Step Json := do
  edit step (Edit.removeNode (nodeOf step))
  return .null

def removePin (step : Json) : Step Json := do
  edit step (Edit.removePin (← pinIn step "pin" .input))
  return .null

def refresh (step : Json) : Step Json := do
  edit step (Edit.refreshNode (← catalogue) (nodeOf step))
  return .null

def setSignature (step : Json) : Step Json := do
  let signature ← signatureIn step
  edit step (Edit.setSignature (← catalogue) signature)
  return .null

def setDefault (step : Json) : Step Json := do
  edit step (Edit.setDefault (← pinIn step "pin" .input) (step.get? "value"))
  return .null

/-- A coordinate. It is taken in double precision and then narrowed, so an integer is rounded
twice. -/
def coordinate (step : Json) (key : String) : F32 :=
  match step.get? key with
  | some (.num (.int n)) => (F64.ofInt n).narrow
  | some (.num (.double x)) => x.narrow
  | some (.num (.single x)) => x
  | _ => .zero

def setPosition (step : Json) : Step Json := do
  edit step (Edit.setPosition (nodeOf step) ⟨coordinate step "x", coordinate step "y"⟩)
  return .null

def link (step : Json) : Step Json := do
  let output ← pinIn step "from" .output
  let input ← pinIn step "to" .input
  let id ← edit step (Edit.addLink output input)
  return .nat id.val

def unlink (step : Json) : Step Json := do
  return optionJson Link.toJson (← edit step (Edit.removeLink ⟨natOf step "link"⟩))

def findPin (step : Json) : Step Json := do
  return .nat (← pinIn step "pin" .input).val

def linksOf (step : Json) : Step Json := do
  let g ← graph (textOf step "graph")
  let id ← pinIn step "pin" .input
  return .arr ((g.linksOf id).map fun l => .nat l.id.val)

def showNode (step : Json) : Step Json := do
  let g ← graph (textOf step "graph")
  let id := nodeOf step
  let n := g.node? id
  let pins := (g.nodePins id).map fun p =>
    Json.arr [.nat p.id.val, .str p.name, .str p.type.text, .bool p.isInput, .bool p.isFlow]
  return .obj [("label", optionJson (fun n => .str n.kind.label) n), ("pure", .bool (g.isPure id)),
    ("always_impure", optionJson (fun n => .bool n.kind.isAlwaysImpure) n), ("pins", .arr pins),
    ("owns", optionJson (fun j => .bool (n.any (·.owns ⟨j.nat?.getD 0⟩))) (step.get? "owns"))]

def getElements (step : Json) : Step Json := do
  let g ← graph (textOf step "graph")
  let pin ← match step.get? "pin" with
    | some j => do pure (g.pin? (← pinOf g .input j))
    | none => pure none
  let link := (step.get? "link").bind fun j => g.link? ⟨j.nat?.getD 0⟩
  return .obj [("pin", optionJson Pin.toJson pin), ("link", optionJson Link.toJson link)]

def counts (step : Json) : Step Json := do
  let g ← graph (textOf step "graph")
  let ids (nodes : List Node) : Json := .arr (nodes.map fun n => .nat n.id.val)
  return .obj [("nodes", .arr [.nat g.liveNodes.length, .nat g.nodes.size]),
    ("pins", .arr [.nat g.livePins.length, .nat g.pins.size]),
    ("links", .arr [.nat g.liveLinks.length, .nat g.links.size]),
    ("entries", ids g.entries), ("returns", ids g.returns)]

def dump (step : Json) : Step Json := do
  let g ← graph (textOf step "graph")
  return if flagOf step "text" then .str g.render else g.toJson

def errorsJson (errors : List ScriptError) : Json := .arr (errors.map fun e => .obj (scriptErrorJson e))

def errors (step : Json) : Step Json := do
  let g ← graph (textOf step "graph")
  match g.collect? (← catalogue) (optionalText step "script") with
  | some errors => return errorsJson errors
  | none => halt

def graphStep? (step : Json) : String → Option (Step Json)
  | "graph" => some (newGraph step)
  | "load" => some (load step)
  | "clone" => some (cloneGraph step)
  | "same" => some (sameGraph step)
  | "rename" => some (rename step)
  | "add_node" => some (addNode step)
  | "add_pins_node" => some (addPinsNode step)
  | "remove_node" => some (removeNode step)
  | "remove_pin" => some (removePin step)
  | "refresh" => some (refresh step)
  | "set_signature" => some (setSignature step)
  | "default" => some (setDefault step)
  | "position" => some (setPosition step)
  | "link" => some (link step)
  | "unlink" => some (unlink step)
  | "find_pin" => some (findPin step)
  | "links_of" => some (linksOf step)
  | "node" => some (showNode step)
  | "get" => some (getElements step)
  | "counts" => some (counts step)
  | "dump" => some (dump step)
  | "errors" => some (errors step)
  | _ => none

end Flowscript.Console.Step
