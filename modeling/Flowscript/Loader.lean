import Flowscript.Script
import Flowscript.Type.Aggregate
import Flowscript.Workspace

/-! # Loading scripts

Scripts become types in two phases. First every script declares its type, after the script types that
its fields name; where fields contain each other in a circle, a field that closes it is refused. Then
every function is declared, and only then are bodies compiled, so that scripts may call each other in
any order. A function whose body does not compile stays declared, and calling it fails.
-/
namespace Flowscript

structure Loader where
  worldType : String
  /-- Whether errors are noted; otherwise they are only reported. -/
  notesErrors : Bool := false
  /-- The numbers of the bodies loaded. -/
  bodies : List Nat := []
  types : List TypeId := []

structure LoadReport where
  /-- All errors in the order found. -/
  errors : List ScriptError := []
  /-- The declared types in the order of declaration. -/
  types : List TypeId := []

namespace Loader

def unload (l : Loader) (w : Workspace) : Loader × Workspace :=
  let bodies := l.bodies.foldl (fun bodies i =>
    bodies.modify i fun b => { b with state := .unloaded }) w.context.bodies
  let w := { w with context.bodies := bodies }
  let (removed, w) := w.removeAll l.types
  let w := if removed > 0 then w.note .debug "Unloaded script types" [("removed", .nat removed)] else w
  ({ l with bodies := [], types := [] }, w)

/-- A script and its position among those to load. -/
abbrev Candidate := Nat × Script

def screen (c : Catalogue) : List String → List Candidate → List Candidate × List ScriptError
  | _, [] => ([], [])
  | names, s :: rest =>
    let (kept, errors) := screen c (s.2.name :: names) rest
    if names.contains s.2.name || c.contains s.2.type then
      (kept, ({ kind := .nameNotUnique
                message := s!"type name `{s.2.name}` is already in use" : ScriptError }).inScript
                  s.2.name :: errors)
    else (s :: kept, errors)

/-- The pending scripts that a script's fields name, in order, itself excepted. -/
def waitsOn (pending : List Candidate) (s : Candidate) : List Candidate :=
  s.2.fields.filterMap fun f =>
    (pending.find? (·.2.name == f.type)).filter (·.1 != s.1)

def isReady (pending : List Candidate) (s : Candidate) : Bool :=
  s.2.fields.all fun f => f.type == s.2.name || !pending.any (·.2.name == f.type)

/-- Follows the first script that each script waits on, until one comes again. -/
def walk (pending : List Candidate) : Nat → List Nat → Candidate → Candidate
  | 0, _, s => s
  | fuel + 1, seen, s =>
    if seen.contains s.1 then s
    else match waitsOn pending s with
      | next :: _ => walk pending fuel (s.1 :: seen) next
      | [] => s

/-- Whether scripts lead to one along what they wait on. Each script is expanded once. -/
def leadsTo (pending : List Candidate) (goal : Nat) : Nat → List Nat → List Candidate → Bool
  | 0, _, _ => false
  | _ + 1, _, [] => false
  | fuel + 1, seen, s :: rest =>
    if s.1 = goal then true
    else if seen.contains s.1 then leadsTo pending goal fuel seen rest
    else leadsTo pending goal fuel (s.1 :: seen) (waitsOn pending s ++ rest)

/-- How many steps a search among scripts may take. -/
def searchBound (pending : List Candidate) : Nat :=
  pending.foldl (fun n s => n + s.2.fields.length + 1) 2

/-- A script on a circle of fields, and the names of the types that lead back to it. -/
def breakCycle (first : Candidate) (pending : List Candidate) : Candidate × List String :=
  let s := walk pending (pending.length + 1) [] first
  let blocked := (waitsOn pending s).filter fun d =>
    leadsTo pending s.1 (searchBound pending) [] [d]
  (s, blocked.map (·.2.name))

/-- The script to declare next, and the names its fields may not use. -/
def choose (first : Candidate) (pending : List Candidate) : Candidate × List String :=
  match pending.find? (isReady pending) with
  | some s => (s, [])
  | none => breakCycle first pending

def checkDefault (t : TypeInfo) (j : Json) : Exec CallError Unit := do
  let place ← Exec.allocate t.layout
  match ← Exec.attempt (invoke.decodeAt t j place) with
  | .ok () =>
    Exec.destroy t.destructor place
    Exec.free place
  | .error e =>
    Exec.free place
    throw e

/-- Why a field is refused without looking at its default. -/
def refuseField? (c : Catalogue) (script : String) (blocked names : List String) (f : FieldDecl) :
    Except (ErrorKind × String) Handle :=
  if names.contains f.name then
    .error (.nameNotUnique, s!"field `{f.name}` is declared more than once")
  else if f.type = script then .error (.typeCannotBeMember, s!"`{script}` cannot contain itself")
  else if blocked.contains f.type then
    .error (.typeCannotBeMember, s!"`{script}` and `{f.type}` contain each other")
  else match c.handleNamed? f.type with
    | none => .error (.unreflectedType, s!"type `{f.type}` is not registered")
    | some h =>
      if !(c.info h).visible then
        .error (.typeCannotBeReferenced, s!"type `{f.type}` is hidden from scripts")
      else if !(c.info h).isOwnable then
        .error (.typeCannotBeOwned, s!"type `{f.type}` cannot be held by value")
      else .ok h

structure Loading where
  workspace : Workspace
  /-- The errors found, the latest first. -/
  errors : List ScriptError := []

abbrev Load := StateM Loading

def report (e : ScriptError) : Load Unit := modify fun s => { s with errors := e :: s.errors }

def workspace : Load Workspace := return (← get).workspace

def modifyWorkspace (f : Workspace → Workspace) : Load Unit := modify fun ⟨w, errors⟩ => ⟨f w, errors⟩

def run {ε α : Type} (x : Exec ε α) : Load (Except ε α) := modifyGet fun ⟨w, errors⟩ =>
  let (outcome, w) := w.exec x
  (outcome, ⟨w, errors⟩)

def declareField (script : String) (blocked names : List String) (f : FieldDecl) :
    Load (Option Member) := do
  match refuseField? (← workspace).catalogue script blocked names f with
  | .error (kind, message) =>
    report (({ kind, message : ScriptError }).inScript script)
    return none
  | .ok h =>
    let member : Member := { name := f.name, type := h, default := f.default }
    match f.default with
    | none => return some member
    | some j =>
      match ← run (checkDefault ((← workspace).catalogue.info h) j) with
      | .ok () => return some member
      | .error e =>
        let message := s!"default of field `{f.name}` is not a valid `{f.type}`: {e.message}"
        report (({ kind := .typeCannotBeMember, message : ScriptError }).inScript script)
        return none

def declareFields (script : String) (blocked : List String) :
    List String → List FieldDecl → Load (List Member)
  | _, [] => return []
  | names, f :: rest => do
    let member ← declareField script blocked names f
    let members ← declareFields script blocked (f.name :: names) rest
    return member.toList ++ members

def declareType (s : Script) (blocked : List String) : Load Handle := do
  let members ← declareFields s.name blocked [] s.fields
  let c := (← workspace).catalogue
  let (layout, parts) ← match Aggregate.place? c members with
    | some placed => pure placed
    | none =>
      let message :=
        s!"layout of `{s.name}` overflowed: invalid parameters to Layout::from_size_align"
      report (({ kind := .compilerBug, message : ScriptError }).inScript s.name)
      pure (Layout.empty, [])
  let (h, w) := (← workspace).register (Aggregate.info c s.name layout parts)
  let t := w.catalogue.info h
  modifyWorkspace fun _ => w.note .debug "Declared script type"
    [("script", .str s.name), ("size", .nat t.layout.size), ("fields", .nat t.fields.length)]
  return h

/-- Declares the types of pending scripts, one in each round; the handle of each by its position. -/
def declareTypes : Nat → List Candidate → Load (List (Nat × Handle))
  | 0, _ => return []
  | _ + 1, [] => return []
  | fuel + 1, first :: rest => do
    let pending := first :: rest
    let (s, blocked) := choose first pending
    let h ← declareType s.2 blocked
    return (s.1, h) :: (← declareTypes fuel (pending.filter (·.1 != s.1)))

/-- A declared function whose body is still to be compiled. -/
structure PendingBody where
  number : Nat
  graph : Graph
  setting : Setting

def functionOf (worldType : String) (type : TypeId) (g : Graph) (number : Nat) : Function :=
  let s := g.signature
  { name := g.name
    params := (if s.event.isSome then [⟨"world", .ofName worldType, .ref⟩] else [])
      ++ (if s.isStatic then [] else [⟨"this", type, .ref⟩])
      ++ s.params.map fun p => ⟨p.name, .ofName p.type, p.form⟩
    result := s.result.map fun r => Function.resultParam (.ofName r.type) r.form
    pure := s.pure
    body := .script number }

def declareFunctions (worldType : String) (s : Script) (h : Handle) :
    List String → List Graph → Load (List PendingBody)
  | _, [] => return []
  | names, g :: rest => do
    if names.contains g.name then
      let message := s!"function `{g.name}` is declared more than once"
      report ((({ kind := .nameNotUnique, message : ScriptError }).inScript s.name).inFunction g.name)
      declareFunctions worldType s h names rest
    else
      let w ← workspace
      let number := w.context.bodies.size
      let type := (w.catalogue.info h).id
      let body : ScriptBody := { name := s!"{s.name}::{g.name}" }
      modifyWorkspace fun w =>
        ({ w with context.bodies := w.context.bodies.push body }).addFunction h
          (functionOf worldType type g number)
      let setting : Setting :=
        { script := some s.name, hasWorld := g.signature.event.isSome
          thisType := if g.signature.isStatic then none else some type }
      let bodies ← declareFunctions worldType s h (g.name :: names) rest
      return ⟨number, g, setting⟩ :: bodies

def declareAll (worldType : String) (handles : List (Nat × Handle)) :
    List Candidate → Load (List PendingBody)
  | [] => return []
  | s :: rest => do
    let bodies ← match handles.lookup s.1 with
      | some h => declareFunctions worldType s.2 h [] s.2.functions
      | none => pure []
    return bodies ++ (← declareAll worldType handles rest)

def reason : List ScriptError → String
  | [] => "unknown error"
  | [only] => only.text
  | first :: rest => s!"{first.text} (and {rest.length} more)"

def settleBody (number : Nat) (state : BodyState) : Load Unit := modifyWorkspace fun w =>
  { w with context.bodies := w.context.bodies.modify number fun body => { body with state } }

/-- Compiles a body; tells whether compiling got through. -/
def compileBody (b : PendingBody) : Load Bool := do
  match Program.compile b.graph (← workspace).catalogue b.setting with
  | .ok p =>
    settleBody b.number (.ready p)
    return true
  | .error (.errors errors) =>
    errors.forM report
    settleBody b.number (.failed (reason errors))
    return true
  | .error .overrun | .error .overflow => return false

/-- Compiles bodies in order, as far as compiling gets through. -/
def compileBodies : List PendingBody → Load Bool
  | [] => return true
  | b :: rest => do
    if ← compileBody b then compileBodies rest else return false

/-- What was declared, and whether everything was compiled. -/
structure Built where
  types : List TypeId
  bodies : List Nat
  through : Bool

def build (worldType : String) (scripts : List Script) : Load Built := do
  let candidates := scripts.zipIdx.map fun (s, i) => (i, s)
  let (pending, errors) := screen (← workspace).catalogue [] candidates
  errors.forM report
  let handles ← declareTypes pending.length pending
  let bodies ← declareAll worldType handles candidates
  let through ← compileBodies bodies
  let c := (← workspace).catalogue
  return ⟨handles.map fun (_, h) => (c.info h).id, bodies.map (·.number), through⟩

def noteError (w : Workspace) (e : ScriptError) : Workspace :=
  w.note .warn s!"Script error: {e.message}"
    [("kind", .str e.kind.text), ("location", .str e.location.text)]

/-- Replaces what was loaded by the given scripts. There is no report when compiling broke off, and
the loader does not know then which types it declared. -/
def load (l : Loader) (scripts : List Script) (w : Workspace) :
    Option LoadReport × Loader × Workspace :=
  let (l, w) := l.unload w
  let (built, s) := (build l.worldType scripts).run ⟨w, []⟩
  if built.through then
    let errors := s.errors.reverse
    let w := if l.notesErrors then errors.foldl noteError s.workspace else s.workspace
    let w := w.note .info "Compiled scripts" [("scripts", .nat scripts.length),
      ("types", .nat built.types.length), ("functions", .nat built.bodies.length),
      ("errors", .nat errors.length)]
    (some ⟨errors, built.types⟩, { l with bodies := built.bodies, types := built.types }, w)
  else (none, { l with bodies := built.bodies }, s.workspace)

end Loader

end Flowscript
