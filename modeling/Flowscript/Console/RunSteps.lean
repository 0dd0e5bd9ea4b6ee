import Flowscript.Console.GraphSteps
import Flowscript.Console.Shown

/-! # Steps that load and run

Loading scripts, compiling and executing single graphs, and looking at the interpreter.
-/
namespace Flowscript.Console.Step

def functionIn (j : Json) : Step Graph :=
  match j with
  | .str name => graph name
  | j => orReadFault (Graph.ofDraft .value (.ofJson j))

def scriptIn (j : Json) : Step Script := do
  let fields ← orReadFault ((itemsOf j "fields").mapM fun f => FieldDecl.ofDraft .value (.ofJson f))
  let functions ← (itemsOf j "functions").mapM functionIn
  return { name := textOf j "name", fields, functions }

def compile (step : Json) : Step Json := do
  let scripts ← (itemsOf step "scripts").mapM scriptIn
  let s ← get
  let loader := s.loader.getD
    { worldType := s.settings.worldType, notesErrors := flagOf step "default_sink" }
  let (report, loader) ← modifyGetWorkspace fun w =>
    let (report, loader, w) := loader.load scripts w
    ((report, loader), w)
  modify fun s => { s with loader := some loader }
  let some report := report | halt
  modify fun s =>
    { s with
      collected := if loader.notesErrors then s.collected else s.collected ++ report.errors }
  let c ← catalogue
  return .obj [("is_ok", .bool report.errors.isEmpty), ("errors", errorsJson report.errors),
    ("types", .arr (report.types.map fun id => .str (showType c id)))]

def unloadAll (loader : Loader) : Step Loader := modifyGetWorkspace (loader.unload ·)

def unload : Step Json := do
  match (← get).loader with
  | none => refuse "NoCompiler"
  | some loader =>
    let after ← unloadAll loader
    modify fun s => { s with loader := some after }
    return .arr [.nat loader.types.length, .nat after.types.length]

def dropLoader : Step Json := do
  match (← get).loader with
  | none => return .bool false
  | some loader =>
    let _ ← unloadAll loader
    modify fun s => { s with loader := none }
    return .bool true

def sink (step : Json) : Step Json := do
  let errors := (← get).collected
  if flagOf step "take" then modify fun s => { s with collected := [] }
  return errorsJson errors

def compileFunction (step : Json) : Step Json := do
  let name := textOf step "graph"
  let g ← graph name
  let setting : Setting :=
    { script := optionalText step "script"
      thisType := (optionalText step "this").map TypeId.ofName
      hasWorld := (optionalText step "world").isSome }
  match Program.compile g (← catalogue) setting with
  | .error (.errors errors) => throw (refusal "CompileErrors" ++ [("errors", errorsJson errors)])
  | .error .overrun | .error .overflow => halt
  | .ok p =>
    setProgram ((optionalText step "as").getD name) p
    return .obj [("name", .str p.name), ("script", optionJson .str p.script), ("pure", .bool p.pure),
      ("arity", .nat p.arity), ("implicit", .nat p.implicitArgs), ("pins", .nat p.pins.size),
      ("storage", .arr [.nat p.storage.size, .nat p.storage.align])]

def execute (step : Json) : Step Json := do
  let p ← program (textOf step "compiled")
  let a ← arguments step
  match optionalText step "into" with
  | none => conclude step a (scriptAnswer (← run (p.execute invoke .own a.args none)))
  | some into =>
    match (← catalogue).lookupName? into with
    | none => conclude step a (.error (refusalWith "NoSuchType" into))
    | some t =>
      conclude step a (scriptAnswer (← run (intoStorage t fun place =>
        p.execute invoke .own a.args (some place))))

def showStack : Step Json := do
  let stack := (← get).workspace.machine.own.stack
  return .obj [("used", .nat stack.used), ("high_water", .nat stack.highWater),
    ("capacity", .nat stack.capacity)]

def settingsOf (j : Json) : Settings :=
  let default : Settings := {}
  { stackSize := ((j.get? "stack_size").bind Json.nat?).getD default.stackSize
    maxSteps := ((j.get? "max_steps").bind Json.nat?).getD default.maxSteps
    worldType := (optionalText j "world_type").getD default.worldType }

def replaceInterpreter (step : Json) : Step Json := do
  let settings := settingsOf step
  modifyWorkspace fun w => { w with machine.own := .new settings }
  return settingsJson settings

def activeWorld : Step Json := do
  let s ← get
  let c ← catalogue
  return optionJson (fun w => .str (showType c w.1)) s.workspace.machine.own.world

def debug (step : Json) : Step Json := do
  let s ← get
  let name := textOf step "name"
  match textOf step "what" with
  | "interpreter" => return .str (Shown.interpreter s.workspace.machine.own)
  | "compiler" => return .str (Shown.option Shown.loader s.loader)
  | "compiled" => return .str (Shown.option Shown.program (s.programs.lookup name))
  | "type" => return .str (Shown.type (← typeInfo name))
  | "functions" =>
    let t ← typeInfo name
    return .str (Shown.list ((t.functionsNamed (textOf step "function")).map Shown.function))
  | "null" => return .str (Shown.null (.ofName name) ((formOf step "form").getD .ptr))
  | _ => return .null

def runStep? (step : Json) : String → Option (Step Json)
  | "compile" => some (compile step)
  | "unload" => some unload
  | "drop_compiler" => some dropLoader
  | "sink" => some (sink step)
  | "compile_function" => some (compileFunction step)
  | "execute" => some (execute step)
  | "stack" => some showStack
  | "interpreter" => some (replaceInterpreter step)
  | "active_world" => some activeWorld
  | "debug" => some (debug step)
  | _ => none

end Flowscript.Console.Step
