import Flowscript.Graph.Id
import Flowscript.Json.Decode
import Flowscript.Json.Printer

/-! # Script errors

Every failure of checking, compiling or running a script has a kind from a closed list, a message
and the place it is attributed to.
-/
namespace Flowscript

/-- Kinds of script errors. -/
inductive ErrorKind where
  | unreflectedType
  | typeCannotBeMember
  | typeCannotBeReferenced
  | typeCannotBeOwned
  | nameNotUnique
  | nodeOutOfDate
  | functionNoLongerExists
  | compilerBug
  | linkNotAllowed
  | notPossibleToEnter
  | executionTimeOut
  | functionCallFailed
  | valueWasNull
  | stackOverflow
deriving DecidableEq, Repr

namespace ErrorKind

def all : List ErrorKind :=
  [.unreflectedType, .typeCannotBeMember, .typeCannotBeReferenced, .typeCannotBeOwned,
    .nameNotUnique, .nodeOutOfDate, .functionNoLongerExists, .compilerBug, .linkNotAllowed,
    .notPossibleToEnter, .executionTimeOut, .functionCallFailed, .valueWasNull, .stackOverflow]

def text : ErrorKind → String
  | .unreflectedType => "UnreflectedType"
  | .typeCannotBeMember => "TypeCannotBeMember"
  | .typeCannotBeReferenced => "TypeCannotBeReferencedFromScripts"
  | .typeCannotBeOwned => "TypeCannotBeOwnedByScripts"
  | .nameNotUnique => "NameNotUnique"
  | .nodeOutOfDate => "NodeOutOfDate"
  | .functionNoLongerExists => "UnderlyingFunctionNoLongerExists"
  | .compilerBug => "CompilerBug"
  | .linkNotAllowed => "LinkNotAllowed"
  | .notPossibleToEnter => "NotPossibleToEnterFunction"
  | .executionTimeOut => "ExecutionTimeOut"
  | .functionCallFailed => "FunctionCallFailed"
  | .valueWasNull => "ValueWasNull"
  | .stackOverflow => "StackOverflow"

def isRuntime : ErrorKind → Bool
  | .executionTimeOut | .functionCallFailed | .valueWasNull | .stackOverflow => true
  | _ => false

def isBudget : ErrorKind → Bool
  | .executionTimeOut | .stackOverflow => true
  | _ => false

end ErrorKind

/-- Where an error happened, as far as known. -/
structure Location where
  script : Option String := none
  function : Option String := none
  node : Option NodeId := none
  pin : Option PinId := none
  link : Option LinkId := none
deriving DecidableEq, Repr, Inhabited

namespace Location

def parts (l : Location) : List String :=
  l.script.toList ++ l.function.toList ++ (l.node.map NodeId.text).toList
    ++ (l.pin.map PinId.text).toList ++ (l.link.map LinkId.text).toList

def text (l : Location) : String :=
  match l.parts with
  | [] => "<unknown>"
  | parts => "::".intercalate parts

def toJson (l : Location) : Json :=
  .obj <| (l.script.map fun s => ("script", .str s)).toList
    ++ (l.function.map fun s => ("function", .str s)).toList
    ++ (l.node.map fun n => ("node", .nat n.val)).toList
    ++ (l.pin.map fun p => ("pin", .nat p.val)).toList
    ++ (l.link.map fun k => ("link", .nat k.val)).toList

def ofDraft (origin : Origin) (d : Draft) : Except ReadFault Location :=
  d.asRecord origin ["script", "function", "node", "pin", "link"] (fun name d l => do
    match name with
    | "script" => .ok { l with script := ← d.asOption Draft.asText }
    | "function" => .ok { l with function := ← d.asOption Draft.asText }
    | "node" => .ok { l with node := (← d.asOption Draft.asU32).map (⟨·.toNat⟩) }
    | "pin" => .ok { l with pin := (← d.asOption Draft.asU32).map (⟨·.toNat⟩) }
    | _ => .ok { l with link := (← d.asOption Draft.asU32).map (⟨·.toNat⟩) }) {}

end Location

structure ScriptError where
  kind : ErrorKind
  message : String
  location : Location := {}
deriving DecidableEq, Repr

namespace ScriptError

def inScript (e : ScriptError) (script : String) : ScriptError :=
  { e with location.script := some script }

def inFunction (e : ScriptError) (function : String) : ScriptError :=
  { e with location.function := some function }

def atNode (e : ScriptError) (node : NodeId) : ScriptError :=
  { e with location.node := some node }

def atPin (e : ScriptError) (pin : PinId) : ScriptError :=
  { e with location.pin := some pin }

def atLink (e : ScriptError) (link : LinkId) : ScriptError :=
  { e with location.link := some link }

def within (e : ScriptError) (script : Option String) (function : String) : ScriptError :=
  { e with
    location.script := e.location.script.or script
    location.function := e.location.function.or (some function) }

def text (e : ScriptError) : String := s!"{e.kind.text} at {e.location.text}: {e.message}"

def toJson (e : ScriptError) : Json :=
  .obj [("kind", .str e.kind.text), ("message", .str e.message), ("location", e.location.toJson)]

def ofDraft (origin : Origin) (d : Draft) : Except ReadFault ScriptError := do
  let (kind, message, location) ← d.asRecord origin ["kind", "message", "location"]
    (fun name d (kind, message, location) => do
      match name with
      | "kind" =>
        let i ← d.asChoice origin (ErrorKind.all.map ErrorKind.text)
        .ok (ErrorKind.all[i]?, message, location)
      | "message" => .ok (kind, some (← d.asText), location)
      | _ => .ok (kind, message, some (← Location.ofDraft origin d)))
    ((none : Option ErrorKind), (none : Option String), (none : Option Location))
  .ok { kind := ← Draft.need kind, message := ← Draft.need message
        location := ← Draft.need location }

end ScriptError

end Flowscript
