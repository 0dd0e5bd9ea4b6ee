import Flowscript.Graph.Reach
import Flowscript.Diagnostic

/-! # Checking graphs

Every problem of a graph is reported, in the order signature, nodes, links, structure. A graph without
problems can be compiled.
-/
namespace Flowscript

/-- What can be wrong with a graph. -/
inductive Problem where
  | repeatedParam (name : String)
  | unknownType (type : String)
  | hiddenType (type : String)
  | unownableType (type : String)
  | unknownEvent (event : String)
  | changedEvent (event : String)
  | pinRange (node : NodeId)
  | strayPin (pin : PinId) (node owner : NodeId)
  | unresolved (error : ResolveError)
  | outdatedNode (kind : NodeKind)
  | danglingLink (link : LinkId)
  | misdirectedLink (link : LinkId)
  | mixedLink (output input : PinType)
  | linkedType (output input : String)
  | linkedForm (output input : Form)
  | crowdedPin (pin : PinId)
  | entryCount (count : Nat)
  | returnCount (count : Nat)
  | impureNode (kind : NodeKind)
  | selfDependent (node : NodeId)
  | idleOutput (input output : PinId)
deriving Repr

def ResolveError.kind : ResolveError → ErrorKind
  | .unknownType _ => .unreflectedType
  | .unknownFunction .. | .unknownField .. => .functionNoLongerExists
  | .signatureChanged .. => .nodeOutOfDate

namespace Problem

def kind : Problem → ErrorKind
  | .repeatedParam _ => .nameNotUnique
  | .unknownType _ => .unreflectedType
  | .hiddenType _ => .typeCannotBeReferenced
  | .unownableType _ => .typeCannotBeOwned
  | .unknownEvent _ => .functionNoLongerExists
  | .changedEvent _ | .outdatedNode _ => .nodeOutOfDate
  | .pinRange _ | .strayPin .. | .danglingLink _ | .misdirectedLink _ => .compilerBug
  | .unresolved error => error.kind
  | .entryCount _ | .returnCount _ => .notPossibleToEnter
  | .mixedLink .. | .linkedType .. | .linkedForm .. | .crowdedPin _ | .impureNode _
  | .selfDependent _ | .idleOutput .. => .linkNotAllowed

def message : Problem → String
  | .repeatedParam name => s!"parameter `{name}` is declared more than once"
  | .unknownType type => s!"type `{type}` is not registered"
  | .hiddenType type => s!"type `{type}` is hidden from scripts"
  | .unownableType type =>
    s!"type `{type}` can be neither copied nor moved, so scripts cannot hold it by value"
  | .unknownEvent event => s!"event `{event}` is not registered"
  | .changedEvent event => s!"signature no longer matches event `{event}`"
  | .pinRange node => s!"pin range of {node.text} is out of bounds"
  | .strayPin pin node owner =>
    s!"{pin.text} lies in the range of {node.text} but belongs to {owner.text}"
  | .unresolved error => error.message
  | .outdatedNode kind => s!"pins of {kind.label} node no longer match what it refers to"
  | .danglingLink link => s!"{link.text} has a dangling endpoint"
  | .misdirectedLink link => s!"{link.text} must run from an output to an input"
  | .mixedLink output input => s!"cannot connect {output.text} to {input.text}"
  | .linkedType output input => s!"cannot pass `{output}` to a `{input}` input"
  | .linkedForm output input => s!"a {input.text} input cannot take a {output.text} value"
  | .crowdedPin pin => s!"{pin.text} has more than one link"
  | .entryCount count => s!"expected one Entry node, found {count}"
  | .returnCount count => s!"a pure function needs exactly one Return node, found {count}"
  | .impureNode kind => s!"{kind.label} node cannot run in a pure function"
  | .selfDependent node => s!"{node.text} depends on its own output"
  | .idleOutput input output => s!"{input.text} reads {output.text} whose node never runs"

end Problem

structure Finding where
  problem : Problem
  location : Location := {}
deriving Repr

namespace Finding

def toError (f : Finding) : ScriptError := ⟨f.problem.kind, f.problem.message, f.location⟩

end Finding

namespace Graph

/-- A type named by a signature is registered, visible and, if held by value, ownable. -/
def checkType (c : Catalogue) (type : String) (form : Form) : List Finding :=
  match c.lookupName? type with
  | none => [⟨.unknownType type, {}⟩]
  | some t =>
    if !t.visible then [⟨.hiddenType type, {}⟩]
    else if form.isOwning && !t.isOwnable then [⟨.unownableType type, {}⟩]
    else []

def checkParams (c : Catalogue) : List String → List ParamDecl → List Finding
  | _, [] => []
  | seen, p :: rest =>
    (if seen.contains p.name then [⟨.repeatedParam p.name, {}⟩] else [])
      ++ checkType c p.type p.form ++ checkParams c (p.name :: seen) rest

def answersEvent (s : GraphSignature) (e : EventSignature) : Bool :=
  e.params.length == s.params.length
    && ((e.params.zip s.params).all fun (q, p) => q.type == .ofName p.type && q.form == p.form)
    && match e.result, s.result with
      | none, none => true
      | some q, some r => q.type == .ofName r.type && q.form == r.form
      | _, _ => false

def checkEvent (c : Catalogue) (s : GraphSignature) : List Finding :=
  match s.event with
  | none => []
  | some name =>
    match c.event? name with
    | none => [⟨.unknownEvent name, {}⟩]
    | some e => if answersEvent s e then [] else [⟨.changedEvent name, {}⟩]

def checkSignature (c : Catalogue) (s : GraphSignature) : List Finding :=
  checkParams c [] s.params
    ++ (match s.result with
        | some r => checkType c r.type r.form
        | none => [])
    ++ checkEvent c s

def rangeLeaves (g : Graph) (n : Node) : Bool :=
  n.firstPin.val == 0 || n.firstPin.val - 1 + n.pinCount > g.pins.size

/-- A node's pins are its own, live, what its kind asks for, and of registered types. -/
def checkNode (g : Graph) (c : Catalogue) (n : Node) : List Finding :=
  if g.rangeLeaves n then [⟨.pinRange n.id, { node := some n.id }⟩]
  else
    let pins := g.nodePins n.id
    match pins.find? (·.node != n.id) with
    | some stray =>
      [⟨.strayPin stray.id n.id stray.node, { node := some n.id, pin := some stray.id }⟩]
    | none =>
      match n.kind.expectedPins g.signature c with
      | .error e => [⟨.unresolved e, { node := some n.id }⟩]
      | .ok specs =>
        let fitting := pins.length == n.pinCount && specs.length == pins.length
          && (specs.zip pins).all fun (s, p) => s.fits p
        (if fitting then [] else [⟨.outdatedNode n.kind, { node := some n.id }⟩])
          ++ (if n.kind = .entry ∨ n.kind = .ret then []
              else pins.filterMap fun p =>
                p.type.type?.bind fun type =>
                  if (c.lookupName? type).isSome then none
                  else some ⟨.unknownType type, { node := some n.id, pin := some p.id }⟩)

/-- What keeps a value from travelling between two pins. An input that refers to its data also takes
a derived type. -/
def linkProblem (c : Catalogue) : PinType → PinType → Option Problem
  | .flow, .flow => none
  | .data outType outForm, .data inType inForm =>
    let upcast := (inForm.isReference || inForm.isPointer)
      && c.isDerivedFrom (.ofName outType) (.ofName inType)
    if TypeId.ofName outType ≠ .ofName inType && !upcast then some (.linkedType outType inType)
    else if !inForm.accepts outForm then some (.linkedForm outForm inForm)
    else none
  | output, input => some (.mixedLink output input)

def checkLink (g : Graph) (c : Catalogue) (l : Link) : List Finding :=
  match g.pin? l.output, g.pin? l.input with
  | some output, some input =>
    if !output.isOutput || !input.isInput then
      [⟨.misdirectedLink l.id, { link := some l.id }⟩]
    else
      match linkProblem c output.type input.type with
      | some problem => [⟨problem, { pin := some input.id, link := some l.id }⟩]
      | none => []
  | _, _ => [⟨.danglingLink l.id, { link := some l.id }⟩]

/-- The pin whose number of links a link adds to: a flow output or a data input. The flag tells
which. -/
def limitedEnd? (g : Graph) (l : Link) : Option (Bool × PinId) :=
  (g.pin? l.output).map fun output =>
    if output.isFlow then (true, l.output) else (false, l.input)

/-- Reports the second link of every pin that takes only one. -/
def checkFans (g : Graph) : List (Bool × PinId) → List Link → List Finding
  | _, [] => []
  | seen, l :: rest =>
    match g.limitedEnd? l with
    | none => g.checkFans seen rest
    | some e =>
      (if seen.count e = 1 then [⟨.crowdedPin e.2, { pin := some e.2, link := some l.id }⟩] else [])
        ++ g.checkFans (e :: seen) rest

def checkLinks (g : Graph) (c : Catalogue) : List Finding :=
  g.liveLinks.flatMap (g.checkLink c) ++ g.checkFans [] g.liveLinks

def fitsPure (g : Graph) (n : Node) : Bool :=
  n.kind == .entry || n.kind == .ret || n.kind.isComment || g.isPure n.id

def checkPure (g : Graph) : List Finding :=
  if g.signature.pure then
    (if g.returns.length = 1 then [] else [⟨.returnCount g.returns.length, {}⟩])
      ++ (g.liveNodes.filter fun n => !g.fitsPure n).map fun n =>
        ⟨.impureNode n.kind, { node := some n.id }⟩
  else []

/-- Data comes from expressions and from statements that can run. -/
def checkSources (g : Graph) : List Finding :=
  let reached := g.reachable (g.entries.map (·.id))
  g.liveLinks.filterMap fun l =>
    match g.pin? l.output with
    | none => none
    | some output =>
      if output.isFlow || g.isPure output.node || reached.contains output.node then none
      else some ⟨.idleOutput l.input l.output, { node := some output.node, link := some l.id }⟩

def checkStructure (g : Graph) : List Finding :=
  (if g.entries.length = 1 then [] else [⟨.entryCount g.entries.length, {}⟩])
    ++ g.checkPure
    ++ g.dataCycles.map (fun id => ⟨.selfDependent id, { node := some id }⟩)
    ++ g.checkSources

def findings (g : Graph) (c : Catalogue) : List Finding :=
  checkSignature c g.signature ++ g.liveNodes.flatMap (g.checkNode c) ++ g.checkLinks c
    ++ g.checkStructure

def errors (g : Graph) (c : Catalogue) (script : Option String) : List ScriptError :=
  (g.findings c).map fun f => f.toError.within script g.name

def pinsOverflow (g : Graph) (id : NodeId) : Bool := (g.node? id).any Node.overflows

/-- Whether asking if a node is an expression overflows. Some kinds never are, whatever their pins. -/
def purityOverflows (g : Graph) (id : NodeId) : Bool :=
  (g.node? id).any fun n => !n.kind.isAlwaysImpure && n.overflows

/-- Whether asking if the ends of a data link are expressions overflows. The reader is asked for only
where the source is one. -/
def linkOverflows (g : Graph) (l : Link) : Bool :=
  match g.pin? l.output with
  | none => false
  | some output =>
    !output.isFlow && (g.purityOverflows output.node
      || g.isPure output.node && (g.pin? l.input).any fun input => g.purityOverflows input.node)

/-- Whether the checks come to a node whose range leaves the 32 bits of pin numbers. Up to the first
one they find what `findings` says, so whatever follows it does not matter here. -/
def overflows (g : Graph) : Bool :=
  (g.liveNodes.any fun n => !g.rangeLeaves n && g.pinsOverflow n.id)
    || (g.signature.pure && g.liveNodes.any fun n =>
      !(n.kind == .entry || n.kind == .ret || n.kind.isComment) && g.purityOverflows n.id)
    || g.liveLinks.any g.linkOverflows
    || (g.reachable (g.entries.map (·.id))).any g.pinsOverflow

/-- Collects the errors of a graph; nothing where the checks overflow. -/
def collect? (g : Graph) (c : Catalogue) (script : Option String) : Option (List ScriptError) :=
  if g.overflows then none else some (g.errors c script)

end Graph

end Flowscript
