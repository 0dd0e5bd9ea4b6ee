import Flowscript.Console.Session

/-! # Steps on types

Registering, removing and describing types, their functions and events.
-/
namespace Flowscript.Console.Step

def paramRow (c : Catalogue) (p : Param) : Json :=
  .arr [.str p.name, .str (showType c p.type), p.form.toJson]

def functionJson (c : Catalogue) (f : Function) : Json :=
  .obj [("name", .str f.name), ("params", .arr (f.params.map (paramRow c))),
    ("ret", optionJson (fun r => .arr [.str (showType c r.type), r.form.toJson]) f.result),
    ("pure", .bool f.pure), ("signature", .nat f.signature.hash.toNat)]

def registerInfo (t : TypeInfo) : Step Json := do
  let before := (← catalogue).size
  let h ← modifyGetWorkspace (·.register t)
  let c ← catalogue
  return .obj [("added", .bool (c.size > before)), ("name", .str (c.info h).name)]

def register (step : Json) : Step Json := do
  match native? (textOf step "type") with
  | some t => registerInfo t.info
  | none => refuse "NoSuchNative"

def registerRaw (step : Json) : Step Json := do
  match Layout.ofSizeAlign? (natOf step "size") (natOf step "align") with
  | none => refuse "BadLayout"
  | some layout =>
    let t := TypeInfo.new (textOf step "name") layout
    let t := t.addTraits (traitsOf (itemsOf step "traits"))
    let t := if flagOf step "hidden" then { t with visible := false } else t
    let t := match optionalText step "script" with
      | some script => { t with source := .script script }
      | none => t
    let t := (itemsOf step "bases").foldl (fun t j => t.addBase (.ofName (j.str?.getD ""))) t
    let t := (itemsOf step "fields").foldl (fun t j =>
      t.addField (textOf j "name") (.ofName (textOf j "type")) (natOf j "offset")) t
    registerInfo <| match optionalText step "destructor" with
      | some label => t.setDestructor (some (.labelled label))
      | none => t

def remove (step : Json) : Step Json := do
  let removed ← modifyGetWorkspace (·.remove (.ofName (textOf step "type")))
  return optionJson (fun t => .str t.name) removed

def removeScripted : Step Json := do
  return .nat (← modifyGetWorkspace (·.removeScripted))

def types : Step Json := do
  let c ← catalogue
  return .obj [("names", .arr (c.types.map fun t => .str t.name)), ("len", .nat c.size),
    ("empty", .bool (c.size == 0))]

def describe (step : Json) : Step Json := do
  let t ← typeInfo (textOf step "type")
  let c ← catalogue
  let fields := t.fields.map fun f => Json.obj [("name", .str f.name), ("hash", .nat f.hash.toNat),
    ("type", .str (showType c f.type)), ("offset", .nat f.offset)]
  let derived := (t.derived.map (showType c)).mergeSort fun a b => a ≤ b
  return .obj [("name", .str t.name), ("id", .nat t.id.hash.toNat), ("size", .nat t.layout.size),
    ("align", .nat t.layout.align), ("traits", .str t.traits.text), ("visible", .bool t.visible),
    ("ownable", .bool t.isOwnable), ("scripted", .bool t.isScripted),
    ("source", match t.source with
      | .native => .str "native"
      | .script name => .obj [("script", .str name)]),
    ("fields", .arr fields), ("bases", .arr (t.bases.map fun b => .str (showType c b))),
    ("derived", .arr (derived.map .str)), ("codec", .bool t.codec.isSome),
    ("functions", .nat t.allFunctions.length)]

def functions (step : Json) : Step Json := do
  let t ← typeInfo (textOf step "type")
  let c ← catalogue
  let fs := match optionalText step "function" with
    | some name => t.functionsNamed name
    | none => t.allFunctions
  return .arr (fs.map (functionJson c))

def lookup (step : Json) : Step Json := do
  let c ← catalogue
  let name := textOf step "type"
  return .obj [("by_name", optionJson (fun t => .str t.name) (c.lookupName? name)),
    ("by_id", optionJson (fun t => .str t.name) (c.lookup? (.ofName name))),
    ("contains", .bool (c.contains (.ofName name)))]

def derivedFrom (step : Json) : Step Json := do
  return .bool ((← catalogue).isDerivedFrom (.ofName (textOf step "type")) (.ofName (textOf step "base")))

def subscribe : Step Json := do
  modify fun s => { s with subscription := some s.workspace.catalogue.history.size }
  return .null

def changeJson : TypeChange → Json
  | .added id name => .arr [.str "added", .str name, .nat id.hash.toNat]
  | .removed id name => .arr [.str "removed", .str name, .nat id.hash.toNat]

def changes (step : Json) : Step Json := do
  match (← get).subscription with
  | none => refuse "NotSubscribed"
  | some position =>
    let c ← catalogue
    let (lost, recent) := c.changesSince position
    modify fun s => { s with subscription := some c.history.size }
    let entries := (if lost > 0 then [.arr [.str "lagged", .nat lost]] else [])
      ++ recent.map changeJson
    return .arr (if flagOf step "sorted" then entries.mergeSort fun a b => a.compact ≤ b.compact
      else entries)

def eventJson (c : Catalogue) (e : EventSignature) : Json :=
  .obj [("name", .str e.name), ("params", .arr (e.params.map (paramRow c))),
    ("ret", optionJson (paramRow c) e.result)]

def paramsOf (step : Json) : List Param := (itemsOf step "params").map paramOf

def resultOf (step : Json) : Option Param :=
  match step.get? "ret" with
  | some (.obj entries) => some (paramOf (.obj entries))
  | _ => none

def event (step : Json) : Step Json := do
  let e : EventSignature :=
    ⟨textOf step "name", paramsOf step, (resultOf step).map fun r => { r with name := "" }⟩
  let e ← modifyGetWorkspace fun w =>
    let (e, c) := w.catalogue.registerEvent e
    (e, w.setCatalogue c)
  return eventJson (← catalogue) e

def getEvent (step : Json) : Step Json := do
  let c ← catalogue
  return optionJson (eventJson c) (c.event? (textOf step "name"))

def outcomeOf (b : Json) : HostOutcome :=
  let index := natOf b "index"
  let document := (b.get? "value").getD .null
  match textOf b "result" with
  | "json" => .decoded document
  | "owned" => .owned document
  | "copy" => .copy index
  | "zero" => .zeroed
  | "bytes" => .bytes index
  | "fail" => .fail (textOf b "message")
  | "null" => .null
  | "arg" => .argument index
  | "read" => .readInt index
  | "incr" => .increment index (((b.get? "by").bind Json.int?).getD 1)
  | "count" => .count
  | "world" => .world
  | "stack" => .stack
  | "callback" => .callback (.ofName (textOf b "type")) (textOf b "function")
  | "try_callback" =>
    .tryCallback (.ofName (textOf b "type")) (textOf b "function") (optionalText b "message")
  | _ => .nothing

/-- The function of the host that a step describes. An operator is pure unless told otherwise. -/
def hostFunction (step : Json) (counter : Nat) : Function :=
  let name := textOf step "name"
  let behavior := (step.get? "behavior").getD .null
  { name, params := paramsOf step
    result := (resultOf step).map fun r => Function.resultParam r.type r.form
    pure := ((step.get? "pure").bind Json.bool?).getD (Operator.ofFunctionName? name).isSome
    body := .host { record := flagOf behavior "record", outcome := outcomeOf behavior, counter } }

def addFunction (step : Json) : Step Json := do
  let counter ← modifyGet fun s => (s.hosts, { s with hosts := s.hosts + 1 })
  let f := hostFunction step counter
  let h ← handle (textOf step "type")
  modifyWorkspace (·.addFunction h f)
  return functionJson (← catalogue) f

def addPreset (step : Json) : Step Json := do
  match preset? (textOf step "preset") with
  | none => refuse "NoSuchPreset"
  | some (type, f) =>
    let h ← handle type
    modifyWorkspace (·.addFunction h f)
    return functionJson (← catalogue) f

def clearFunctions (step : Json) : Step Json := do
  let h ← handle (textOf step "type")
  modifyWorkspace fun w => w.setCatalogue (w.catalogue.modify h TypeInfo.clearFunctions)
  return .null

/-- What overload resolution is asked about: type, form, whether null. -/
def argumentOf (j : Json) : Function.Argument :=
  match j.items?.getD [] with
  | [.str type, .str form, .bool isNull] => ⟨.ofName type, (Form.ofTag? form).getD .value, isNull⟩
  | [.str type, .str form] => ⟨.ofName type, (Form.ofTag? form).getD .value, false⟩
  | _ => ⟨.ofName "", .value, false⟩

def resolve (step : Json) : Step Json := do
  let t ← typeInfo (textOf step "type")
  let args := (itemsOf step "args").map argumentOf
  let f ← orCallError (t.resolve (.ofName (textOf step "function")) args)
  return functionJson (← catalogue) f

def findFunction (step : Json) : Step Json := do
  let t ← typeInfo (textOf step "type")
  let c ← catalogue
  let signature : SignatureId := ⟨UInt32.ofNat (natOf step "signature")⟩
  return optionJson (functionJson c) (t.findFunction? (textOf step "function") signature)

def typeStep? (step : Json) : String → Option (Step Json)
  | "register" => some (register step)
  | "register_raw" => some (registerRaw step)
  | "remove" => some (remove step)
  | "remove_scripted" => some removeScripted
  | "types" => some types
  | "describe" => some (describe step)
  | "functions" => some (functions step)
  | "lookup" => some (lookup step)
  | "derived_from" => some (derivedFrom step)
  | "subscribe" => some subscribe
  | "changes" => some (changes step)
  | "event" => some (event step)
  | "get_event" => some (getEvent step)
  | "add_function" => some (addFunction step)
  | "add_preset" => some (addPreset step)
  | "clear_functions" => some (clearFunctions step)
  | "resolve" => some (resolve step)
  | "find_function" => some (findFunction step)
  | _ => none

end Flowscript.Console.Step
