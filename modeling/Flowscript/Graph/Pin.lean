import Flowscript.Form
import Flowscript.Name
import Flowscript.Graph.Id
import Flowscript.Json.Basic

/-! # Pins and links

A node is connected through its pins. Flow pins carry the order of execution, data pins a value of a
type in a form. A link joins an output pin to an input pin.
-/
namespace Flowscript

inductive Direction where
  | input
  | output
deriving DecidableEq, Repr, Inhabited

/-- What travels through a pin. -/
inductive PinType where
  | flow
  | data (type : String) (form : Form)
deriving DecidableEq, Repr, Inhabited

namespace PinType

def isFlow : PinType → Bool
  | .flow => true
  | .data _ _ => false

def type? : PinType → Option String
  | .flow => none
  | .data type _ => some type

def text : PinType → String
  | .flow => "flow"
  | .data type form => s!"{type} ({form.text})"

end PinType

structure Pin where
  id : PinId
  node : NodeId
  direction : Direction
  name : String
  type : PinType
  /-- What an unlinked data input falls back to. -/
  default : Option Json := none
deriving Inhabited, Repr

namespace Pin

def isInput (p : Pin) : Bool := p.direction == .input
def isOutput (p : Pin) : Bool := p.direction == .output
def isFlow (p : Pin) : Bool := p.type.isFlow

end Pin

structure PinSpec where
  direction : Direction
  name : String
  type : PinType
deriving DecidableEq, Repr

namespace PinSpec

def flowIn (name : String) : PinSpec := ⟨.input, name, .flow⟩
def flowOut (name : String) : PinSpec := ⟨.output, name, .flow⟩
def dataIn (name type : String) (form : Form) : PinSpec := ⟨.input, name, .data type form⟩
def dataOut (name type : String) (form : Form) : PinSpec := ⟨.output, name, .data type form⟩

def fits (s : PinSpec) (p : Pin) : Bool :=
  p.direction == s.direction && p.name == s.name && p.type == s.type

end PinSpec

structure Link where
  id : LinkId
  input : PinId
  output : PinId
deriving DecidableEq, Repr, Inhabited

namespace Link

def touches (l : Link) (p : PinId) : Bool := l.input == p || l.output == p

end Link

end Flowscript
