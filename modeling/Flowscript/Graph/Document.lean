import Flowscript.Graph.Basic
import Flowscript.Json.Decode
import Flowscript.Json.Printer

/-! # Graphs as documents

Graphs are kept as documents. A node's kind and a graph's signature are written among the entries of
the node or graph itself, so while such a record is read the entries that are not its own are set
aside and interpreted when the record has ended.
-/
namespace Flowscript

def entry? {α : Type} (key : String) (f : α → Json) (a : Option α) : List (String × Json) :=
  (a.map fun a => (key, f a)).toList

def Form.toJson (f : Form) : Json := .str f.tag

def Form.ofDraft (origin : Origin) (d : Draft) : Except ReadFault Form := do
  let i ← d.asChoice origin Form.tags
  Draft.need Form.all[i]?

namespace Draft

def asDocument (d : Draft) : Except ReadFault (Option Json) := d.asOption Draft.toJson

def asNode (d : Draft) : Except ReadFault NodeId := return ⟨(← d.asU32).toNat⟩
def asPin (d : Draft) : Except ReadFault PinId := return ⟨(← d.asU32).toNat⟩
def asLink (d : Draft) : Except ReadFault LinkId := return ⟨(← d.asU32).toNat⟩

/-- The tag of a tagged record and what stands beside it. -/
structure Tagged where
  tag : Nat
  rest : Draft

/-- One of several tags; among entries set aside also its position. -/
def asTag (origin : Origin) (tags : List String) : Draft → Except ReadFault Nat
  | .str s => need (tags.findIdx? (· == s))
  | .num (.int n) =>
    if origin = .setAside ∧ 0 ≤ n ∧ n.toNat < tags.length then .ok n.toNat else .error .mismatch
  | .broken b => .error b.fault
  | _ => .error .mismatch

/-- The parts of a tagged record found so far, the latest entry first. -/
structure Tagging where
  tag : Option Nat := none
  rest : List (String × Draft) := []

/-- A record with its tag under the key `kind`, or a list that starts with the tag. -/
def asTagged (origin : Origin) (tags : List String) : Draft → Except ReadFault Tagged
  | .obj entries ending => do
    let found ← walkEntries ["kind"]
      (fun _ d (s : Tagging) => return { s with tag := some (← d.asTag origin tags) })
      (fun key d s => return { s with rest := (key, ← setAside d) :: s.rest }) [] entries {}
    match ending with
    | some fault => .error fault
    | none => return ⟨← need found.tag, .record found.rest.reverse⟩
  | .arr [] (some fault) => .error fault
  | .arr [] none => .error .mismatch
  | .arr (d :: items) ending => do
    let tag ← d.asTag origin tags
    let items ← items.mapM setAside
    match ending with
    | some fault => .error fault
    | none => .ok ⟨tag, .arr items none⟩
  | .tooDeep _ => .error .malformed
  | .broken b => .error b.fault
  | _ => .error .mismatch

def asTexts (names : List String) (d : Draft) : Except ReadFault (List String) := do
  let found ← d.asRecord .setAside names
    (fun name d s => return (name, ← d.asText) :: s) ([] : List (String × String))
  names.mapM fun name => need (found.lookup name)

/-- A tag without fields: entries beside it are passed over, items are not. -/
def asNothing : Draft → Except ReadFault Unit
  | .obj _ _ => .ok ()
  | .arr [] _ => .ok ()
  | _ => .error .mismatch

end Draft

namespace PinType

def toJson : PinType → Json
  | .flow => .obj [("kind", .str "flow")]
  | .data type form => .obj [("kind", .str "data"), ("type", .str type), ("form", form.toJson)]

def ofDraft (origin : Origin) (d : Draft) : Except ReadFault PinType := do
  let t ← d.asTagged origin ["flow", "data"]
  if t.tag = 0 then
    t.rest.asNothing
    return .flow
  else
    let (type, form) ← t.rest.asRecord .setAside ["type", "form"]
      (fun name d (type, form) => do
        match name with
        | "type" => return (some (← d.asText), form)
        | _ => return (type, some (← Form.ofDraft .setAside d)))
      ((none : Option String), (none : Option Form))
    return .data (← Draft.need type) (← Draft.need form)

end PinType

namespace NodeKind

def entries : NodeKind → List (String × Json)
  | .call type function signature =>
    [("kind", .str "Call"), ("type", .str type), ("function", .str function),
      ("signature", .nat signature.hash.toNat)]
  | .fieldGet type field => [("kind", .str "FieldGet"), ("type", .str type), ("field", .str field)]
  | .fieldSet type field => [("kind", .str "FieldSet"), ("type", .str type), ("field", .str field)]
  | .comment text => [("kind", .str "Comment"), ("text", .str text)]
  | .reroute type => [("kind", .str "Reroute"), ("pin_type", type.toJson)]
  | kind => [("kind", .str kind.label)]

def tags : List String :=
  ["Entry", "Return", "Call", "FieldGet", "FieldSet", "Branch", "ForLoop", "WhileLoop", "Comment",
    "Reroute"]

def callOfDraft (d : Draft) : Except ReadFault NodeKind := do
  let (type, function, signature) ← d.asRecord .setAside ["type", "function", "signature"]
    (fun name d (type, function, signature) => do
      match name with
      | "type" => return (some (← d.asText), function, signature)
      | "function" => return (type, some (← d.asText), signature)
      | _ => return (type, function, some (← d.asU32)))
    ((none : Option String), (none : Option String), (none : Option UInt32))
  return .call (← Draft.need type) (← Draft.need function) ⟨← Draft.need signature⟩

def rerouteOfDraft (d : Draft) : Except ReadFault NodeKind := do
  let type ← d.asRecord .setAside ["pin_type"]
    (fun _ d _ => return some (← PinType.ofDraft .setAside d)) (none : Option PinType)
  return .reroute (← Draft.need type)

def ofDraft (origin : Origin) (d : Draft) : Except ReadFault NodeKind := do
  let t ← d.asTagged origin tags
  match tags.getD t.tag "" with
  | "Call" => callOfDraft t.rest
  | "FieldGet" => do
    match ← t.rest.asTexts ["type", "field"] with
    | [type, field] => return .fieldGet type field
    | _ => .error .mismatch
  | "FieldSet" => do
    match ← t.rest.asTexts ["type", "field"] with
    | [type, field] => return .fieldSet type field
    | _ => .error .mismatch
  | "Comment" => do
    match ← t.rest.asTexts ["text"] with
    | [text] => return .comment text
    | _ => .error .mismatch
  | "Reroute" => rerouteOfDraft t.rest
  | tag => do
    t.rest.asNothing
    return match tag with
      | "Entry" => .entry
      | "Return" => .ret
      | "Branch" => .branch
      | "ForLoop" => .forLoop
      | _ => .whileLoop

end NodeKind

namespace Position

def toJson (p : Position) : Json := .obj [("x", .single p.x), ("y", .single p.y)]

def ofDraft (origin : Origin) (d : Draft) : Except ReadFault Position := do
  let (x, y) ← d.asRecord origin ["x", "y"]
    (fun name d (x, y) => do
      match name with
      | "x" => return (some (← d.asF32), y)
      | _ => return (x, some (← d.asF32)))
    ((none : Option F32), (none : Option F32))
  return ⟨← Draft.need x, ← Draft.need y⟩

end Position

namespace Node

def toJson (n : Node) : Json :=
  .obj <| [("id", .nat n.id.val)] ++ n.kind.entries
    ++ [("first_pin", .nat n.firstPin.val), ("pin_count", .nat n.pinCount),
      ("position", n.position.toJson)]

/-- The parts of a node found so far. -/
structure Found where
  id : Option NodeId := none
  firstPin : Option PinId := none
  pinCount : Option UInt32 := none
  position : Option Position := none
  /-- Entries set aside, the latest first. -/
  rest : List (String × Draft) := []

def ofDraft (origin : Origin) : Draft → Except ReadFault Node
  | .obj entries ending => do
    let found ← Draft.walkEntries ["id", "first_pin", "pin_count", "position"]
      (fun name d (s : Found) => do
        match name with
        | "id" => return { s with id := some (← d.asNode) }
        | "first_pin" => return { s with firstPin := some (← d.asPin) }
        | "pin_count" => return { s with pinCount := some (← d.asU32) }
        | _ => return { s with position := some (← Position.ofDraft origin d) })
      (fun key d s => return { s with rest := (key, ← d.setAside) :: s.rest }) [] entries {}
    if let some fault := ending then .error fault
    return {
      id := ← Draft.need found.id
      kind := ← NodeKind.ofDraft .setAside (.record found.rest.reverse)
      firstPin := ← Draft.need found.firstPin
      pinCount := (← Draft.need found.pinCount).toNat
      position := found.position.getD {} }
  | .tooDeep _ => .error .malformed
  | .broken b => .error b.fault
  | _ => .error .mismatch

end Node

namespace Direction

def tag : Direction → String
  | .input => "input"
  | .output => "output"

def ofDraft (origin : Origin) (d : Draft) : Except ReadFault Direction := do
  let i ← d.asChoice origin ["input", "output"]
  return if i = 0 then .input else .output

end Direction

namespace Pin

def toJson (p : Pin) : Json :=
  .obj <| [("id", .nat p.id.val), ("node", .nat p.node.val), ("direction", .str p.direction.tag),
    ("name", .str p.name), ("type", p.type.toJson)] ++ entry? "default" (fun j => j) p.default

/-- The parts of a pin found so far. -/
structure Found where
  id : Option PinId := none
  node : Option NodeId := none
  direction : Option Direction := none
  name : Option String := none
  type : Option PinType := none
  default : Option Json := none

def ofDraft (origin : Origin) (d : Draft) : Except ReadFault Pin := do
  let found ← d.asRecord origin ["id", "node", "direction", "name", "type", "default"]
    (fun name d (s : Found) => do
      match name with
      | "id" => return { s with id := some (← d.asPin) }
      | "node" => return { s with node := some (← d.asNode) }
      | "direction" => return { s with direction := some (← Direction.ofDraft origin d) }
      | "name" => return { s with name := some (← d.asText) }
      | "type" => return { s with type := some (← PinType.ofDraft origin d) }
      | _ => return { s with default := ← d.asDocument }) {}
  return {
    id := ← Draft.need found.id
    node := ← Draft.need found.node
    direction := ← Draft.need found.direction
    name := ← Draft.need found.name
    type := ← Draft.need found.type
    default := found.default }

end Pin

namespace Link

def toJson (l : Link) : Json :=
  .obj [("id", .nat l.id.val), ("input", .nat l.input.val), ("output", .nat l.output.val)]

def ofDraft (origin : Origin) (d : Draft) : Except ReadFault Link := do
  let (id, input, output) ← d.asRecord origin ["id", "input", "output"]
    (fun name d (id, input, output) => do
      match name with
      | "id" => return (some (← d.asLink), input, output)
      | "input" => return (id, some (← d.asPin), output)
      | _ => return (id, input, some (← d.asPin)))
    ((none : Option LinkId), (none : Option PinId), (none : Option PinId))
  return ⟨← Draft.need id, ← Draft.need input, ← Draft.need output⟩

end Link

namespace ParamDecl

def toJson (p : ParamDecl) : Json :=
  .obj [("name", .str p.name), ("type", .str p.type), ("form", p.form.toJson)]

def ofDraft (origin : Origin) (d : Draft) : Except ReadFault ParamDecl := do
  let (name, type, form) ← d.asRecord origin ["name", "type", "form"]
    (fun key d (name, type, form) => do
      match key with
      | "name" => return (some (← d.asText), type, form)
      | "type" => return (name, some (← d.asText), form)
      | _ => return (name, type, some (← Form.ofDraft origin d)))
    ((none : Option String), (none : Option String), (none : Option Form))
  return ⟨← Draft.need name, ← Draft.need type, ← Draft.need form⟩

end ParamDecl

namespace ResultDecl

def toJson (r : ResultDecl) : Json := .obj [("type", .str r.type), ("form", r.form.toJson)]

def ofDraft (origin : Origin) (d : Draft) : Except ReadFault ResultDecl := do
  let (type, form) ← d.asRecord origin ["type", "form"]
    (fun key d (type, form) => do
      match key with
      | "type" => return (some (← d.asText), form)
      | _ => return (type, some (← Form.ofDraft origin d)))
    ((none : Option String), (none : Option Form))
  return ⟨← Draft.need type, ← Draft.need form⟩

end ResultDecl

namespace GraphSignature

def entries (s : GraphSignature) : List (String × Json) :=
  [("params", .arr (s.params.map ParamDecl.toJson))] ++ entry? "ret" ResultDecl.toJson s.result
    ++ [("pure", .bool s.pure), ("is_static", .bool s.isStatic)] ++ entry? "event" .str s.event

def ofDraft (origin : Origin) (d : Draft) : Except ReadFault GraphSignature :=
  d.asRecord origin ["params", "ret", "pure", "is_static", "event"]
    (fun name d (s : GraphSignature) => do
      match name with
      | "params" => return { s with params := ← d.asList (ParamDecl.ofDraft origin) }
      | "ret" => return { s with result := ← d.asOption (ResultDecl.ofDraft origin) }
      | "pure" => return { s with pure := ← d.asBool }
      | "is_static" => return { s with isStatic := ← d.asBool }
      | _ => return { s with event := ← d.asOption Draft.asText }) {}

end GraphSignature

namespace Graph

def slotsJson {α : Type} (f : α → Json) (slots : Array (Option α)) : Json :=
  .arr (slots.toList.map fun
    | some a => f a
    | none => .null)

def toJson (g : Graph) : Json :=
  .obj <| [("name", .str g.name)] ++ g.signature.entries
    ++ [("nodes", slotsJson Node.toJson g.nodes), ("pins", slotsJson Pin.toJson g.pins),
      ("links", slotsJson Link.toJson g.links)]

/-- The parts of a graph found so far. -/
structure Found where
  name : Option String := none
  nodes : List (Option Node) := []
  pins : List (Option Pin) := []
  links : List (Option Link) := []
  /-- Entries set aside, the latest first. -/
  rest : List (String × Draft) := []

def ofDraft (origin : Origin) : Draft → Except ReadFault Graph
  | .obj entries ending => do
    let found ← Draft.walkEntries ["name", "nodes", "pins", "links"]
      (fun name d (s : Found) => do
        match name with
        | "name" => return { s with name := some (← d.asText) }
        | "nodes" => return { s with nodes := ← d.asList (·.asOption (Node.ofDraft origin)) }
        | "pins" => return { s with pins := ← d.asList (·.asOption (Pin.ofDraft origin)) }
        | _ => return { s with links := ← d.asList (·.asOption (Link.ofDraft origin)) })
      (fun key d s => return { s with rest := (key, ← d.setAside) :: s.rest }) [] entries {}
    if let some fault := ending then .error fault
    return {
      name := ← Draft.need found.name
      signature := ← GraphSignature.ofDraft .setAside (.record found.rest.reverse)
      nodes := found.nodes.toArray
      pins := found.pins.toArray
      links := found.links.toArray }
  | .tooDeep _ => .error .malformed
  | .broken b => .error b.fault
  | _ => .error .mismatch

def render (g : Graph) : String := g.toJson.pretty

def parse (text : String) : Except ReadFault Graph := Draft.interpret (ofDraft .text) text

end Graph

end Flowscript
