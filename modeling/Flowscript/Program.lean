import Flowscript.Graph.Check

/-! # Programs

A graph without problems compiles to a program, in which everything that is named has been looked up:
the functions it calls, the fields it reads and writes, the types of its pins, where its links lead
and where each pin keeps its value.
-/
namespace Flowscript

/-- What a node of a program does. -/
inductive Op where
  | entry
  | ret
  | call (function : Function)
  | fieldGet (offset : Nat) (type : Handle)
  | fieldSet (offset : Nat) (type : Handle)
  | branch
  | forLoop
  | whileLoop
  | reroute
  | comment
deriving Repr

/-- A node of a program, its pins by direction and kind. -/
structure ProgramNode where
  id : NodeId
  label : String
  op : Op
  pure : Bool
  flowIn : List PinId := []
  flowOut : List PinId := []
  dataIn : List PinId := []
  dataOut : List PinId := []
deriving Repr

structure ProgramPin where
  node : NodeId
  /-- The type of a data pin. -/
  type : Option Handle
  form : Form
  default : Option Json
  /-- The output that feeds a data input. -/
  source : Option PinId := none
  /-- The input that a flow output leads to. -/
  target : Option PinId := none
  /-- Where the value of the pin lies in the storage of a call. -/
  storage : Nat
deriving Repr

structure Program where
  name : String
  script : Option String
  nodes : Array (Option ProgramNode)
  pins : Array (Option ProgramPin)
  entry : NodeId
  returnNode : Option NodeId
  result : Option (Handle × Form)
  pure : Bool
  params : Nat
  /-- Whether the first argument is the world. -/
  hasWorld : Bool
  /-- The type of the argument before the parameters that the function belongs to. -/
  thisType : Option TypeId
  storage : Layout
deriving Repr

/-- What a graph is compiled for. -/
structure Setting where
  script : Option String := none
  thisType : Option TypeId := none
  hasWorld : Bool := false
deriving Repr

/-- Why a graph does not compile. -/
inductive CompileFailure where
  /-- Errors were found. -/
  | errors (errors : List ScriptError)
  /-- Something live has a number that names no slot: compiling breaks off without an answer. -/
  | overrun
  /-- The checks overflow: they break off without an answer. -/
  | overflow
deriving Repr

namespace CompileFailure

def within (script : Option String) (function : String) : CompileFailure → CompileFailure
  | errors es => errors (es.map (·.within script function))
  | overrun => overrun
  | overflow => overflow

end CompileFailure

namespace Program

def node? (p : Program) (id : NodeId) : Option ProgramNode := slot? p.nodes id.val

def pin? (p : Program) (id : PinId) : Option ProgramPin := slot? p.pins id.val

def implicitArgs (p : Program) : Nat := p.hasWorld.toNat + p.thisType.isSome.toNat

def arity (p : Program) : Nat := p.implicitArgs + p.params

def thisIndex? (p : Program) : Option Nat := p.thisType.map fun _ => p.hasWorld.toNat

def bug (message : String) : ScriptError := { kind := .compilerBug, message }

def placePin (c : Catalogue) (storage : Layout) (p : Pin) :
    Except ScriptError (Layout × ProgramPin) :=
  match p.type with
  | .flow =>
    .ok (storage, { node := p.node, type := none, form := .value, default := p.default, storage := 0 })
  | .data type form =>
    match c.handleNamed? type with
    | none => .error (bug s!"type `{type}` vanished during compilation")
    | some h =>
      match storage.extend? (c.info h).layout with
      | none =>
        .error (bug "frame layout overflow: invalid parameters to Layout::from_size_align")
      | some (storage, offset) =>
        .ok (storage, { node := p.node, type := some h, form, default := p.default, storage := offset })

def orFail {α : Type} : Except ScriptError α → Except CompileFailure α
  | .ok a => .ok a
  | .error e => .error (.errors [e])

def store {α : Type} (slots : Array (Option α)) (number : Nat) (a : α) :
    Except CompileFailure (Array (Option α)) :=
  if 0 < number ∧ number ≤ slots.size then .ok (setSlot slots number (some a)) else .error .overrun

def placePins (c : Catalogue) : Layout → Array (Option ProgramPin) → List Pin →
    Except CompileFailure (Layout × Array (Option ProgramPin))
  | storage, pins, [] => .ok (storage, pins)
  | storage, pins, p :: rest => do
    let (storage, placed) ← orFail (placePin c storage p)
    let pins ← store pins p.id.val placed
    placePins c storage pins rest

/-- Records where a link leads: a flow output has a target, a data input a source. -/
def connect (g : Graph) (pins : Array (Option ProgramPin)) (l : Link) : Array (Option ProgramPin) :=
  if (g.pin? l.output).any Pin.isFlow then
    match slot? pins l.output.val with
    | some p => setSlot pins l.output.val (some { p with target := some l.input })
    | none => pins
  else
    match slot? pins l.input.val with
    | some p => setSlot pins l.input.val (some { p with source := some l.output })
    | none => pins

def fieldAccess (c : Catalogue) (type field : String) : Except ScriptError (Nat × Handle) :=
  match c.lookupName? type with
  | none => .error (bug s!"type `{type}` vanished during compilation")
  | some owner =>
    match owner.field? field with
    | none => .error (bug s!"field `{type}::{field}` vanished during compilation")
    | some info =>
      match c.handle? info.type with
      | none => .error (bug s!"type of field `{type}::{field}` is not registered")
      | some h => .ok (info.offset, h)

def opOf (c : Catalogue) (n : Node) : Except ScriptError Op :=
  match n.kind with
  | .entry => .ok .entry
  | .ret => .ok .ret
  | .call type function signature =>
    match NodeKind.resolveCall c type function signature with
    | .ok f => .ok (.call f)
    | .error e => .error ({ kind := e.kind, message := e.message : ScriptError }.atNode n.id)
  | .fieldGet type field => (fieldAccess c type field).map fun (offset, h) => .fieldGet offset h
  | .fieldSet type field => (fieldAccess c type field).map fun (offset, h) => .fieldSet offset h
  | .branch => .ok .branch
  | .forLoop => .ok .forLoop
  | .whileLoop => .ok .whileLoop
  | .comment _ => .ok .comment
  | .reroute _ => .ok .reroute

def compileNode (g : Graph) (c : Catalogue) (n : Node) : Except ScriptError ProgramNode := do
  let op ← opOf c n
  let pins := g.nodePins n.id
  let select (direction : Direction) (flow : Bool) : List PinId :=
    (pins.filter fun p => p.direction == direction && p.isFlow == flow).map (·.id)
  return {
    id := n.id, label := n.kind.label, op, pure := g.isPure n.id
    flowIn := select .input true, flowOut := select .output true
    dataIn := select .input false, dataOut := select .output false }

def compileNodes (g : Graph) (c : Catalogue) : Array (Option ProgramNode) → List Node →
    Except CompileFailure (Array (Option ProgramNode))
  | nodes, [] => .ok nodes
  | nodes, n :: rest => do
    let compiled ← orFail (compileNode g c n)
    let nodes ← store nodes n.id.val compiled
    compileNodes g c nodes rest

def assemble (g : Graph) (c : Catalogue) (s : Setting) : Except CompileFailure Program := do
  let (storage, pins) ← placePins c .empty (Array.replicate g.pins.size none) g.livePins
  let pins := g.liveLinks.foldl (connect g) pins
  let nodes ← compileNodes g c (Array.replicate g.nodes.size none) g.liveNodes
  let entry ← match g.entries.head? with
    | some n => Except.ok n.id
    | none => .error (.errors [bug "no Entry node"])
  let result ← match g.signature.result with
    | none => Except.ok none
    | some r =>
      match c.handleNamed? r.type with
      | some h => Except.ok (some (h, r.form))
      | none => .error (.errors [bug s!"return type `{r.type}` vanished during compilation"])
  return {
    name := g.name, script := s.script, nodes, pins, entry
    returnNode := g.returns.head?.map (·.id), result, pure := g.signature.pure
    params := g.signature.params.length, hasWorld := s.hasWorld, thisType := s.thisType
    storage := storage.pad }

def compile (g : Graph) (c : Catalogue) (s : Setting) : Except CompileFailure Program :=
  match g.collect? c s.script with
  | none => .error .overflow
  | some [] =>
    match assemble g c s with
    | .ok p => .ok p
    | .error e => .error (e.within s.script g.name)
  | some errors => .error (.errors errors)

end Program

end Flowscript
