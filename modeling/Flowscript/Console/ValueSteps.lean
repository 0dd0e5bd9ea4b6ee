import Flowscript.Console.Session

/-! # Steps on values

Constructing, reading, copying, comparing and ending values, and calling functions with them.
-/
namespace Flowscript.Console.Step

def valueType (v : Value) : Step TypeInfo := do
  let c ← catalogue
  match c.lookup? v.type with
  | some t => return t
  | none => refuseWith "NoSuchType" (showType c v.type)

def valuePlace (v : Value) : Step Place :=
  match v.place? with
  | some place => return place
  | none => refuseWith "CallError" CallError.nullSource.message

def new (step : Json) : Step Json := do
  let t ← typeInfo (textOf step "type")
  let a ← arguments step
  let outcome ← run (invoke.construct t a.args)
  conclude step a (callAnswer outcome)

def decodeStep (step : Json) : Step Json := do
  let t ← typeInfo (textOf step "type")
  let v ← decode t ((step.get? "json").getD .null)
  let shown ← view v
  settle (optionalText step "as") v
  return shown

def atom? (v : Value) (type : String) (prim : Prim) : Step Json := do
  match v.place? with
  | some place =>
    if v.type = .ofName type then
      return prim.encode ((← get).workspace.machine.memory.read place prim)
    else return .null
  | none => return .null

def info (step : Json) : Step Json := do
  let v ← value (textOf step "var")
  let entries ← viewEntries v
  return .obj (entries ++ [("is_null", .bool v.isNull), ("i32", ← atom? v "i32" (.int .i32)),
    ("string", ← atom? v "String" .text)])

def equals (step : Json) : Step Json := do
  let a ← value (textOf step "a")
  let b ← value (textOf step "b")
  if a.type ≠ b.type then refuse "TypeMismatch"
  let t ← valueType a
  let p ← valuePlace a
  let q ← valuePlace b
  return optionJson .bool (← runTotal (invoke.equals t p q))

def duplicate (step : Json) (construct : TypeInfo → Place → Place → Exec CallError Unit) :
    Step Json := do
  let v ← value (textOf step "var")
  let t ← valueType v
  let source ← valuePlace v
  let outcome ← run (Exec.produce t.id t.layout t.destructor none fun place =>
    construct t place source)
  conclude step {} (callAnswer outcome)

def dropStep (step : Json) : Step Json := do
  match ← take? (textOf step "var") with
  | some v =>
    drop v
    return .bool true
  | none => return .bool false

def intoInt (step : Json) : Step Json := do
  let name := textOf step "var"
  let v ← value name
  if v.isOwning && v.type == .ofName "i32" then
    let n ← atom? v "i32" (.int .i32)
    let _ ← take? name
    runTotal (v.place?.forM fun place => do
      Exec.modifyCare (·.lose ⟨place, v.type⟩)
      Exec.free place)
    return n
  else refuse "NotI32"

def misaligned (step : Json) : Step Json := do
  let t ← typeInfo (textOf step "type")
  let offset := natOf step "offset"
  let outcome ← run do
    let place ← Exec.allocate ⟨t.layout.size + offset, 8⟩
    let target : Place := ⟨place.block, offset, .apart offset⟩
    invoke.defaultAt t target
    Exec.destroy t.destructor target
    Exec.free place
  orCallError outcome
  return .null

def field (step : Json) : Step Json := do
  let v ← value (textOf step "var")
  let t ← valueType v
  match t.field? (textOf step "field") with
  | none => refuse "NoSuchField"
  | some f =>
    match v.place? with
    | none => document v
    | some place => document (.borrowed f.type .constRef (place.shift f.offset))

/-- Calls a function in the way the step asks for. The first two ways go by the type's number, and it
is the call that fails when there is no such type; the others need a type of the name. -/
def callVia (step : Json) (args : List Value) : Step (Except Answer (Option Value)) := do
  let type := textOf step "type"
  let name := textOf step "function"
  match optionalText step "via" with
  | some "registry" => return callAnswer (← run (invoke.callNamed (.ofName type) name args))
  | some "construct" => return callAnswer (← run (invoke.constructOf (.ofName type) args))
  | via =>
    match (← catalogue).lookupName? type, via with
    | none, _ => return .error (refusalWith "NoSuchType" type)
    | some t, some "descriptor" =>
      return callAnswer (← run (invoke.callKey t (.ofName name) args none))
    | some t, some "buffer" =>
      match (← catalogue).lookupName? (textOf step "into") with
      | none => return .error (refusalWith "NoSuchType" (textOf step "into"))
      | some into =>
        return callAnswer (← modifyGetWorkspace (·.execOn .own (intoStorage into fun place =>
          invoke.callKey t (.ofName name) args (some place))))
    | some t, _ =>
      return callAnswer
        (← modifyGetWorkspace (·.execOn .own (invoke.callKey t (.ofName name) args none)))

def call (step : Json) : Step Json := do
  let a ← arguments step
  conclude step a (← callVia step a.args)

def valueStep? (step : Json) : String → Option (Step Json)
  | "new" => some (new step)
  | "decode" => some (decodeStep step)
  | "info" => some (info step)
  | "equals" => some (equals step)
  | "copy" => some (duplicate step invoke.copyAt)
  | "move" => some (duplicate step invoke.moveAt)
  | "drop" => some (dropStep step)
  | "into_i32" => some (intoInt step)
  | "misaligned" => some (misaligned step)
  | "field" => some (field step)
  | "call" => some (call step)
  | _ => none

end Flowscript.Console.Step
