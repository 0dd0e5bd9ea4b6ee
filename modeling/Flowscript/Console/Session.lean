import Flowscript.Console.Natives
import Flowscript.Console.Request
import Flowscript.Graph.Edit
import Flowscript.Loader

/-! # Sessions

A session works on one workspace, step by step. It keeps values, graphs and programs under names. A
step that fails answers why, and the next one goes on from there; one that breaks off ends the session.
-/
namespace Flowscript.Console

structure Session where
  workspace : Workspace := {}
  settings : Settings := {}
  values : List (String × Value) := []
  graphs : List (String × Graph) := []
  programs : List (String × Program) := []
  /-- How many changes of the catalogue the subscriber has seen. -/
  subscription : Option Nat := none
  loader : Option Loader := none
  /-- Errors of loading, in order. -/
  collected : List ScriptError := []
  /-- How many functions of the host were made. -/
  hosts : Nat := 0
  /-- Whether a step broke off. -/
  halted : Bool := false

abbrev Step := EStateM Answer Session

namespace Step

def catalogue : Step Catalogue := return (← get).workspace.catalogue

def modifyWorkspace (f : Workspace → Workspace) : Step Unit :=
  modify fun s => { s with workspace := f s.workspace }

def modifyGetWorkspace {α : Type} (f : Workspace → α × Workspace) : Step α := modifyGet fun s =>
  let (a, workspace) := f s.workspace
  (a, { s with workspace })

def run {ε α : Type} (x : Exec ε α) : Step (Except ε α) := modifyGetWorkspace (·.exec x)

def runTotal {α : Type} (x : Exec Empty α) : Step α := do
  match ← run x with
  | .ok a => return a

def refuse {α : Type} (kind : String) : Step α := throw (refusal kind)

def refuseWith {α : Type} (kind message : String) : Step α := throw (refusalWith kind message)

def halt {α : Type} : Step α := do
  modify fun s => { s with halted := true }
  refuse "Panic"

def handle (name : String) : Step Handle := do
  match (← catalogue).handleNamed? name with
  | some h => return h
  | none => refuseWith "NoSuchType" name

def typeInfo (name : String) : Step TypeInfo := do
  let h ← handle name
  return (← catalogue).info h

def value (name : String) : Step Value := do
  match (← get).values.lookup name with
  | some v => return v
  | none => refuseWith "NoSuchVar" name

def graph (name : String) : Step Graph := do
  match (← get).graphs.lookup name with
  | some g => return g
  | none => refuseWith "NoSuchGraph" name

def program (name : String) : Step Program := do
  match (← get).programs.lookup name with
  | some p => return p
  | none => refuseWith "NoSuchCompiled" name

def without {α : Type} (name : String) (entries : List (String × α)) : List (String × α) :=
  entries.filter (·.1 != name)

def setGraph (name : String) (g : Graph) : Step Unit := modify fun s =>
  { s with graphs := (name, g) :: without name s.graphs }

def setProgram (name : String) (p : Program) : Step Unit := modify fun s =>
  { s with programs := (name, p) :: without name s.programs }

def drop (v : Value) : Step Unit := runTotal (Exec.drop v)

def take? (name : String) : Step (Option Value) := modifyGet fun s =>
  (s.values.lookup name, { s with values := without name s.values })

def keep (name : String) (v : Value) : Step Unit := do
  let old ← take? name
  modify fun s => { s with values := (name, v) :: s.values }
  old.forM drop

def settle (name : Option String) (v : Value) : Step Unit :=
  match name with
  | some name => if v.isOwning then keep name v else drop v
  | none => drop v

def showType (c : Catalogue) (id : TypeId) : String :=
  match c.lookup? id with
  | some t => t.name
  | none => id.text

def document (v : Value) : Step Json := runTotal (Exec.document v)

def viewEntries (v : Value) : Step (List (String × Json)) := do
  let c ← catalogue
  return [("type", .str (showType c v.type)), ("form", v.form.toJson), ("owning", .bool v.isOwning),
    ("json", ← document v)]

def view (v : Value) : Step Json := return .obj (← viewEntries v)

def orCallError {α : Type} : Except CallError α → Step α
  | .ok a => return a
  | .error e => refuseWith "CallError" e.message

def decode (t : TypeInfo) (j : Json) : Step Value := do
  let outcome ← run (Exec.produce t.id t.layout t.destructor none fun place =>
    invoke.decodeAt t j place)
  match outcome with
  | .ok (some v) => return v
  | .ok none => refuse "DecodeError"
  | .error e => refuseWith "DecodeError" e.message

def optionalText (j : Json) (key : String) : Option String := (j.get? key).bind Json.str?

/-- Arguments of a call, and the values some of them refer to. -/
structure Arguments where
  args : List Value := []
  temporaries : List Value := []

def dropArguments (a : Arguments) : Step Unit := do
  a.args.forM drop
  a.temporaries.forM drop

def addFresh (a : Arguments) (v : Value) (form : Option Form) : Arguments :=
  match form with
  | none => { a with args := a.args ++ [v] }
  | some form => { args := a.args ++ [v.view form], temporaries := a.temporaries ++ [v] }

def addArgument (a : Arguments) (j : Json) : Step Arguments := do
  let form := formOf j "form"
  match optionalText j "var", optionalText j "take", optionalText j "null" with
  | some name, _, _ =>
    let v ← value name
    return { a with args := a.args ++ [v.view (form.getD .ref)] }
  | none, some name, _ =>
    match ← take? name with
    | some v => return { a with args := a.args ++ [v] }
    | none => refuseWith "NoSuchVar" name
  | none, none, some type =>
    return { a with args := a.args ++ [.null (.ofName type) (form.getD .ptr)] }
  | none, none, none =>
    let t ← typeInfo (textOf j "type")
    match j.get? "json" with
    | some document => return addFresh a (← decode t document) form
    | none =>
      match ← orCallError (← run (invoke.construct t [])) with
      | some v => return addFresh a v form
      | none => return a

/-- Makes the arguments of a step; when one cannot be made, those before it end. -/
def arguments (step : Json) : Step Arguments := go {} (itemsOf step "args")
where
  go (a : Arguments) : List Json → Step Arguments
    | [] => return a
    | j :: rest => fun s =>
      match addArgument a j s with
      | .ok a s => go a rest s
      | .error e s =>
        match dropArguments a s with
        | .ok _ s => .error e s
        | .error _ s => .error e s

/-- Finishes a step that called something: what the answer shows is taken first, then the arguments
end, then the result is kept or ends. -/
def conclude (step : Json) (a : Arguments) (outcome : Except Answer (Option Value)) : Step Json := do
  match outcome with
  | .error answer =>
    dropArguments a
    throw answer
  | .ok result =>
    let shown ← match result with
      | some v => view v
      | none => pure .null
    let answer ← if flagOf step "show_args" then do
        pure (Json.obj [("result", shown), ("args", .arr (← a.args.mapM document))])
      else pure shown
    dropArguments a
    result.forM (settle (optionalText step "as"))
    return answer

def callAnswer {α : Type} : Except CallError α → Except Answer α
  | .ok a => .ok a
  | .error e => .error (refusalWith "CallError" e.message)

def scriptAnswer {α : Type} : Except ScriptError α → Except Answer α
  | .ok a => .ok a
  | .error e => .error (scriptErrorJson e)

def intoStorage {ε : Type} (t : TypeInfo) (call : Place → Exec ε (Option Value)) :
    Exec ε (Option Value) := do
  let place ← Exec.allocate t.layout
  match ← Exec.attempt (call place) with
  | .ok none => return some (← Exec.adopt t.id place t.layout.size t.destructor)
  | .ok (some v) =>
    Exec.free place
    return some v
  | .error e =>
    Exec.free place
    throw e

end Step

end Flowscript.Console
