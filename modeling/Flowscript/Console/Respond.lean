import Flowscript.Console.RunSteps
import Flowscript.Console.TypeSteps
import Flowscript.Console.ValueSteps

/-! # Responding

A request for a session is answered with the answers of its steps, each with what was logged during
the step. Any other request is answered on its own.
-/
namespace Flowscript.Console

namespace Session

def eventJson? (c : Catalogue) : Event → Option Json
  | .called function args => some (.obj [("call", .str function), ("args", .arr args)])
  | .world type => some (.obj [("world", optionJson (fun id => .str (Step.showType c id)) type)])
  | .stackUsed bytes => some (.obj [("stack_used", .nat bytes)])
  | .tried none => some (.obj [("tried", .str "ok")])
  | .tried (some message) => some (.obj [("tried", .str "failed"), ("message", .str message)])
  | .destroyed (.number n) _ => if n = 0 then none else some (.obj [("drop", .int n)])
  | .destroyed (.label label) _ => some (.obj [("destroyed", .str label)])
  | .destroyed .nothing _ => none
  | .traced t => some (.obj [("trace", .str t.severity.text), ("message", .str t.message),
      ("fields", .obj t.fields)])

def takeLog (s : Session) : List Json × Session :=
  let entries := s.workspace.machine.journal.reverse.filterMap (eventJson? s.workspace.catalogue)
  (entries, { s with workspace.machine.journal := [] })

def step (s : Session) (request : Json) : Json × Session :=
  let name := textOf request "do"
  let action := (Step.typeStep? request name).orElse fun _ =>
    (Step.valueStep? request name).orElse fun _ =>
      (Step.graphStep? request name).orElse fun _ => Step.runStep? request name
  let (answer, s) := match action with
    | none => (refusalWith "BadInput" s!"unknown step {name}", s)
    | some action =>
      match EStateM.run action s with
      | .ok j s => (ok j, s)
      | .error answer s => (answer, s)
  let (log, s) := s.takeLog
  (.obj (answer ++ if log.isEmpty then [] else [("log", withBits (.arr log))]), s)

def start (request : Json) : Session :=
  let primitives := ((request.get? "builtins").bind Json.bool?).getD true
  let c := if primitives then Catalogue.withPrimitives else {}
  let c := (itemsOf request "natives").foldl (fun (c : Catalogue) j =>
    match native? (j.str?.getD "") with
    | some t => (c.registerNative t).2
    | none => c) c
  let settings := Step.settingsOf ((request.get? "config").getD .null)
  { settings
    workspace :=
      { context :=
          { catalogue := c, traceLimit := (Step.optionalText request "trace").bind Severity.ofText? }
        machine := { own := .new settings } } }

/-- Runs steps in order; there is no answer when one breaks off. -/
def steps : Session → List Json → Option (List Json)
  | _, [] => some []
  | s, request :: rest =>
    let (answer, s) := s.step request
    if s.halted then none else (steps s rest).map (answer :: ·)

end Session

def respond (request : Json) : Json :=
  .obj <| match (request.get? "op").bind Json.str? with
    | none => refusalWith "BadInput" "missing string `op`"
    | some "session" =>
      match (Session.start request).steps (itemsOf request "steps") with
      | some answers => [("steps", .arr answers)]
      | none => refusal "Panic"
    | some op =>
      match respondSingle? request op with
      | some answer => answer
      | none => refusalWith "BadInput" s!"unknown op {op}"

end Flowscript.Console
