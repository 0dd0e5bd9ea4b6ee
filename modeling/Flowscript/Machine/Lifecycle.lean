import Flowscript.Machine.State

/-! # The life of values

Values are constructed, copied, moved, compared and read from documents through the functions of
their types. How a function is called is a parameter here, because the functions of a type may in
turn need all of this.
-/
namespace Flowscript

/-- Calls a function with arguments, and with storage for the result if the caller has some. A result
that was constructed there is not returned. -/
abbrev Invoke := Function → List Value → Option Place → Exec CallError (Option Value)

namespace Exec

variable {ε : Type}

/-- Constructs a value in the storage of the caller, or in storage that the returned value owns. -/
def produce (type : TypeId) (layout : Layout) (destructor : Option Destructor) (ret : Option Place)
    (init : Place → Exec ε Unit) : Exec ε (Option Value) :=
  match ret with
  | some place => do
    init place
    return none
  | none => do
    let place ← allocate layout
    match ← attempt (init place) with
    | .ok () => return some (← adopt type place layout.size destructor)
    | .error e =>
      free place
      throw e

def giveBack (shape : Shape) (destructor : Option Destructor) (ret : Option Place)
    (data : List Atom) : Exec ε (Option Value) :=
  produce (.ofName shape.name) shape.layout destructor ret fun place =>
    modifyMemory (·.writeLeaves place shape.leaves data)

/-- Does what remains to be done after a value was constructed; the value ends again if that
fails. -/
def orEnd (destructor : Option Destructor) (place : Place) (rest : Exec ε Unit) : Exec ε Unit := do
  match ← attempt rest with
  | .ok () => pure ()
  | .error e =>
    destroy destructor place
    throw e

end Exec

namespace Invoke

open Exec

variable (invoke : Invoke)

def callKey (t : TypeInfo) (key : FunctionKey) (args : List Value) (ret : Option Place) :
    Exec CallError (Option Value) :=
  match t.resolve key (args.map Value.argument) with
  | .ok f => invoke f args ret
  | .error e => throw e

def callNamed (type : TypeId) (name : String) (args : List Value) :
    Exec CallError (Option Value) := do
  match (← catalogue).lookup? type with
  | some t => callKey invoke t (.ofName name) args none
  | none => throw (.unregistered type)

/-- Moves the result of a constructor to its place. A constructor that did not use the storage has to
hand back a value of its own. -/
def settleAt (t : TypeInfo) (target : Place) : Option Value → Exec CallError Unit
  | none => pure ()
  | some v => do
    if ← relocate v target then pure () else throw (.borrowedConstruction t.name)

def constructAt (t : TypeInfo) (target : Place) (args : List Value) : Exec CallError Unit :=
  if target.isAligned t.layout.align then do
    settleAt t target (← callKey invoke t (.operator .construct) args (some target))
  else throw (.misaligned t.name t.layout.align)

def defaultAt (t : TypeInfo) (target : Place) : Exec CallError Unit := constructAt invoke t target []

def copyAt (t : TypeInfo) (target source : Place) : Exec CallError Unit :=
  constructAt invoke t target [.borrowed t.id .constRef source]

/-- Moves a value; the source stays alive, with whatever moving leaves behind. -/
def moveAt (t : TypeInfo) (target source : Place) : Exec CallError Unit :=
  constructAt invoke t target [.borrowed t.id .rvalue source]

def construct (t : TypeInfo) (args : List Value) : Exec CallError (Option Value) :=
  produce t.id t.layout t.destructor none fun place => constructAt invoke t place args

def constructOf (type : TypeId) (args : List Value) : Exec CallError (Option Value) := do
  match (← catalogue).lookup? type with
  | some t => construct invoke t args
  | none => throw (.unregistered type)

/-- The equality of a type: the first overload that takes two values and yields a truth value. -/
def equality? (t : TypeInfo) : Option Function :=
  (t.overloads (.operator .equal)).find? fun f =>
    f.result.any (·.type == .ofName "bool") && f.params.length == 2

def equals {ε : Type} (t : TypeInfo) (a b : Place) : Exec ε (Option Bool) := do
  match equality? t with
  | none => return none
  | some f =>
    let out ← allocate ⟨1, 1⟩
    let args := [Value.borrowed t.id .constRef a, .borrowed t.id .constRef b]
    let outcome ← attempt (invoke f args (some out))
    let equal := (← memory).read out .bool
    free out
    match outcome with
    | .error _ => return none
    | .ok v =>
      v.forM drop
      return some (equal == .bool true)

/-- Initialises parts in order. When one fails, those before it end again, the last one first. -/
def buildParts {α : Type} (place : α → Place) (destructor : α → Option Destructor)
    (init : α → Exec CallError Unit) : List α → Exec CallError Unit
  | [] => pure ()
  | a :: rest => do
    init a
    orEnd (destructor a) (place a) (buildParts place destructor init rest)

mutual

def decode (codec : Codec) (j : Json) (target : Place) : Exec CallError Unit :=
  match codec with
  | .native c =>
    match c.decode j with
    | .ok data => modifyMemory (·.writeLeaves target c.leaves data)
    | .error e => throw e
  | .aggregate parts =>
    match j with
    | .obj entries => decodeParts parts entries target
    | _ => throw (.notObject j)

/-- Reads the parts of an object in order; a part that is left out gets its default. When one fails,
those before it end again, the last one first. -/
def decodeParts (parts : List (Part × Codec)) (entries : List (String × Json)) (target : Place) :
    Exec CallError Unit :=
  match parts with
  | [] => pure ()
  | (part, codec) :: rest => do
    let place := target.shift part.offset
    match entries.lookup part.name with
    | some j => mapError (.inField part.name) (decode codec j place)
    | none =>
      match part.default with
      | some j => mapError (.inDefault part.name) (decode codec j place)
      | none => do defaultAt invoke (← typeInfo part.type) place
    orEnd part.destructor place (decodeParts rest entries target)

end

def decodeAt (t : TypeInfo) (j : Json) (target : Place) : Exec CallError Unit :=
  match t.codec with
  | some codec => decode invoke codec j target
  | none => throw (.noCodec t.name)

def defaultPart (part : Part) (target : Place) : Exec CallError Unit := do
  let t ← typeInfo part.type
  match part.default with
  | some j => mapError (.inDefault part.name) (decodeAt invoke t j target)
  | none => defaultAt invoke t target

end Invoke

def Exec.document {ε : Type} (v : Value) : Exec ε Json := do
  match v.place? with
  | none => return .obj [("$null", .bool true)]
  | some place =>
    match ((← catalogue).lookup? v.type).bind (·.codec) with
    | some codec => return codec.encode (← memory) place
    | none => return .obj [("$opaque", .bool true)]

end Flowscript
