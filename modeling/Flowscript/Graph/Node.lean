import Flowscript.Graph.Pin
import Flowscript.Number.Binary
import Flowscript.Type.Catalogue

/-! # Nodes

A node keeps only the names it needs to find what it refers to; the pins it should have follow from
its kind, the signature of its function and the catalogue.
-/
namespace Flowscript

structure ParamDecl where
  name : String
  type : String
  form : Form
deriving DecidableEq, Repr

structure ResultDecl where
  type : String
  form : Form
deriving DecidableEq, Repr

/-- Everything about a graph function except its body. -/
structure GraphSignature where
  params : List ParamDecl := []
  result : Option ResultDecl := none
  pure : Bool := false
  isStatic : Bool := false
  /-- The event the function answers. -/
  event : Option String := none
deriving DecidableEq, Repr, Inhabited

inductive NodeKind where
  /-- Where execution starts; offers the parameters. -/
  | entry
  /-- Ends execution with the result. -/
  | ret
  /-- Calls a function of a type. -/
  | call (type function : String) (signature : SignatureId)
  | fieldGet (type field : String)
  | fieldSet (type field : String)
  | branch
  | forLoop
  | whileLoop
  /-- Remarks, never executed. -/
  | comment (text : String)
  /-- Passes a wire on. -/
  | reroute (type : PinType)
deriving DecidableEq, Repr, Inhabited

/-- Why a node's references lead nowhere. -/
inductive ResolveError where
  | unknownType (type : String)
  | unknownFunction (type function : String)
  | signatureChanged (type function : String) (signature : SignatureId)
  | unknownField (type field : String)
deriving DecidableEq, Repr

namespace ResolveError

def message : ResolveError → String
  | .unknownType type => s!"type `{type}` is not registered"
  | .unknownFunction type function => s!"`{type}` has no function `{function}`"
  | .signatureChanged type function signature =>
    s!"`{type}::{function}` no longer has signature {signature.text}"
  | .unknownField type field => s!"`{type}` has no field `{field}`"

end ResolveError

namespace NodeKind

def label : NodeKind → String
  | .entry => "Entry"
  | .ret => "Return"
  | .call .. => "Call"
  | .fieldGet .. => "FieldGet"
  | .fieldSet .. => "FieldSet"
  | .branch => "Branch"
  | .forLoop => "ForLoop"
  | .whileLoop => "WhileLoop"
  | .comment _ => "Comment"
  | .reroute _ => "Reroute"

/-- Kinds that are statements whatever their pins look like. -/
def isAlwaysImpure : NodeKind → Bool
  | .entry | .ret | .branch | .forLoop | .whileLoop => true
  | _ => false

def isComment : NodeKind → Bool
  | .comment _ => true
  | _ => false

def resolveCall (c : Catalogue) (type function : String) (signature : SignatureId) :
    Except ResolveError Function :=
  match c.lookupName? type with
  | none => .error (.unknownType type)
  | some owner =>
    match owner.functionsNamed function with
    | [] => .error (.unknownFunction type function)
    | fs =>
      match fs.find? (·.signature == signature) with
      | some f => .ok f
      | none => .error (.signatureChanged type function signature)

def typeName (c : Catalogue) (id : TypeId) : Except ResolveError String :=
  match c.lookup? id with
  | some t => .ok t.name
  | none => .error (.unknownType id.text)

def resolveField (c : Catalogue) (type field : String) : Except ResolveError (FieldInfo × String) :=
  match c.lookupName? type with
  | none => .error (.unknownType type)
  | some owner =>
    match owner.field? field with
    | none => .error (.unknownField type field)
    | some info => do
      let name ← typeName c info.type
      .ok (info, name)

/-- The pins of a call: the flow pins frame the arguments unless the function is pure. -/
def callPins (c : Catalogue) (f : Function) : Except ResolveError (List PinSpec) := do
  let args ← f.params.mapM fun p => do
    let type ← typeName c p.type
    Except.ok (PinSpec.dataIn p.name type p.form)
  let result ← match f.result with
    | none => Except.ok []
    | some p => do
      let type ← typeName c p.type
      Except.ok [PinSpec.dataOut Function.resultName type p.form]
  .ok <| (if f.pure then [] else [.flowIn "Exec"]) ++ args
    ++ (if f.pure then [] else [.flowOut "Then"]) ++ result

def expectedPins (kind : NodeKind) (signature : GraphSignature) (c : Catalogue) :
    Except ResolveError (List PinSpec) :=
  match kind with
  | .entry =>
    .ok <| (if signature.pure then [] else [.flowOut "Then"])
      ++ signature.params.map fun p => .dataOut p.name p.type p.form
  | .ret =>
    .ok <| (if signature.pure then [] else [.flowIn "Exec"])
      ++ (signature.result.map fun r => .dataIn Function.resultName r.type r.form).toList
  | .call type function signature => do
    let f ← resolveCall c type function signature
    callPins c f
  | .fieldGet type field => do
    let (_, fieldType) ← resolveField c type field
    .ok [.dataIn "Target" type .constRef, .dataOut field fieldType .value]
  | .fieldSet type field => do
    let (_, fieldType) ← resolveField c type field
    .ok [.flowIn "Exec", .dataIn "Target" type .ref, .dataIn field fieldType .constRef,
      .flowOut "Then"]
  | .branch =>
    .ok [.flowIn "Exec", .dataIn "Condition" "bool" .value, .flowOut "True", .flowOut "False"]
  | .forLoop =>
    .ok [.flowIn "Exec", .flowIn "Break", .dataIn "Start" "i32" .value, .dataIn "End" "i32" .value,
      .flowOut "Loop Body", .flowOut "Completed", .dataOut "Index" "i32" .value]
  | .whileLoop =>
    .ok [.flowIn "Exec", .flowIn "Break", .dataIn "Condition" "bool" .value,
      .flowOut "Loop Body", .flowOut "Completed"]
  | .comment _ => .ok []
  | .reroute type => .ok [⟨.input, "In", type⟩, ⟨.output, "Out", type⟩]

end NodeKind

/-- Where an editor shows a node. -/
structure Position where
  x : F32 := .zero
  y : F32 := .zero
deriving DecidableEq, Repr, Inhabited

namespace Position

def same (p q : Position) : Bool := p.x.same q.x && p.y.same q.y

end Position

structure Node where
  id : NodeId
  kind : NodeKind
  firstPin : PinId
  pinCount : Nat
  position : Position := {}
deriving DecidableEq, Repr, Inhabited

namespace Node

/-- Whether the number after the last pin of the range leaves the 32 bits of pin numbers. -/
def overflows (n : Node) : Bool := 0x100000000 ≤ n.firstPin.val + n.pinCount

/-- The number after the last pin of the range, in the 32 bits of pin numbers. Where it leaves them,
checking a graph ends (`Graph.collect?`). -/
def pinStop (n : Node) : Nat := (n.firstPin.val + n.pinCount) % 0x100000000

def owns (n : Node) (p : PinId) : Bool := n.firstPin.val ≤ p.val && p.val < n.pinStop

end Node

end Flowscript
