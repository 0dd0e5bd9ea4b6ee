import Flowscript.Console.Answer
import Flowscript.Traits
import Flowscript.Signature
import Flowscript.Layout
import Flowscript.Settings
import Flowscript.Script

/-! # Single requests

Requests that need no session: hashes, forms, operators, traits, errors, settings and the byte
stack.
-/
namespace Flowscript.Console

def optionJson {α : Type} (f : α → Json) : Option α → Json
  | some a => f a
  | none => .null

def textOf (j : Json) (key : String) : String := ((j.get? key).bind Json.str?).getD ""

def itemsOf (j : Json) (key : String) : List Json := ((j.get? key).bind Json.items?).getD []

def natOf (j : Json) (key : String) : Nat := ((j.get? key).bind Json.nat?).getD 0

def flagOf (j : Json) (key : String) : Bool := ((j.get? key).bind Json.bool?).getD false

def formOf (j : Json) (key : String) : Option Form := ((j.get? key).bind Json.str?).bind Form.ofTag?

def paramOf (j : Json) : Param :=
  ⟨textOf j "name", .ofName (textOf j "type"), (formOf j "form").getD .value⟩

def hashes (request : Json) : Answer :=
  ok <| .arr <| (itemsOf request "names").map fun j =>
    let name := j.str?.getD ""
    let id := TypeId.ofName name
    .obj [("hash", .nat id.hash.toNat), ("text", .str id.text),
      ("debug", .str s!"TypeId({id.text})"),
      ("key", match FunctionKey.ofName name with
        | .operator op => .str op.label
        | .named hash => .nat hash.toNat)]

def byteHashes (request : Json) : Answer :=
  let chunks := (itemsOf request "chunks").map fun j =>
    (j.items?.getD []).map fun b => UInt8.ofNat (b.nat?.getD 0)
  let seed := UInt32.ofNat (natOf request "seed")
  let (_, results) := chunks.foldl (fun (hash, out) chunk =>
    let hash := NameHash.extend hash chunk
    (hash, out ++ [Json.nat hash.toNat])) (seed, [])
  ok (.arr results)

def signatureOf (request : Json) : Answer :=
  let params := (itemsOf request "params").map paramOf
  let result := match request.get? "ret" with
    | some (.obj entries) => some (paramOf (.obj entries))
    | _ => none
  let id := SignatureId.ofParams params result
  ok (.obj [("id", .nat id.hash.toNat), ("text", .str id.text)])

def formFacts (f : Form) : Json :=
  .obj [("text", .str f.text), ("reference", .bool f.isReference), ("pointer", .bool f.isPointer),
    ("owning", .bool f.isOwning), ("mutable", .bool f.isMutable), ("nullable", .bool f.isNullable),
    ("accepts", .arr ((Form.all.filter f.accepts).map (.str ·.tag)))]

def form (request : Json) : Answer :=
  match Form.ofDraft .value (.ofJson ((request.get? "form").getD .null)) with
  | .ok f => ok (formFacts f)
  | .error fault => readRefusal fault

def operator (request : Json) : Answer :=
  ok <| match Operator.ofFunctionName? (textOf request "name") with
    | none => .null
    | some op => .obj [("kind", .str op.label), ("name", .str op.functionName),
        ("position", .nat (Operator.all.idxOf op))]

def traitsOf (names : List Json) : Traits :=
  names.foldl (fun t j => t.union (match j.str?.getD "" with
    | "default" => { default := true }
    | "copy" => { copy := true }
    | "move" => { move := true }
    | "copy_assign" => { copyAssign := true }
    | "move_assign" => { moveAssign := true }
    | "trivial" => { trivial := true }
    | _ => {})) {}

def traits (request : Json) : Answer :=
  let a := traitsOf (itemsOf request "a")
  let b := traitsOf (itemsOf request "b")
  let set (t : Traits) : Json := .obj [("bits", .nat t.bits), ("debug", .str t.text)]
  ok (.obj [("a", set a), ("union", set (a.union b)), ("intersection", set (a.inter b)),
    ("without", set (a.without b)), ("contains", .bool (a.contains b))])

def relocate (e : ScriptError) : List Json → ScriptError
  | [.str "script", .str s] => e.inScript s
  | [.str "function", .str s] => e.inFunction s
  | [.str "node", n] => e.atNode ⟨n.nat?.getD 0⟩
  | [.str "pin", n] => e.atPin ⟨n.nat?.getD 0⟩
  | [.str "link", n] => e.atLink ⟨n.nat?.getD 0⟩
  | [.str "within", script, .str function] => e.within script.str? function
  | _ => e

def error (request : Json) : Answer :=
  match ScriptError.ofDraft .value (.ofJson ((request.get? "value").getD .null)) with
  | .error fault => readRefusal fault
  | .ok e =>
    let e := (itemsOf request "edits").foldl (fun e edit => relocate e (edit.items?.getD [])) e
    ok (.obj [("text", .str e.text), ("location", .str e.location.text),
      ("runtime", .bool e.kind.isRuntime), ("json", e.toJson)])

def settingsJson (s : Settings) : Json :=
  .obj [("max_steps", .nat s.maxSteps), ("stack_size", .nat s.stackSize),
    ("world_type", .str s.worldType)]

def config (request : Json) : Answer :=
  let read := if textOf request "via" = "missing" then .error .unreadable
    else Settings.parse (textOf request "toml")
  match read with
  | .ok s => ok (settingsJson s) ++ [("is_default", .bool (s == {}))]
  | .error .unreadable => refusal "ReadError"
  | .error .misspelled => refusal "TomlParseError"
  | .error e => refusalWith "Invalid" e.message

/-- The byte stack with the marks and ranges handed out so far. -/
structure StackTrial where
  stack : BumpStack
  marks : Array Nat := #[]
  starts : Array Nat := #[]

def stackStep (t : StackTrial) : List Json → StackTrial × Json
  | [.str "alloc", size, align] =>
    match Layout.ofSizeAlign? (size.nat?.getD 0) (align.nat?.getD 0) with
    | none => (t, .obj (refusal "BadLayout"))
    | some l =>
      match t.stack.alloc? l with
      | none => (t, .null)
      | some (start, stack) => ({ t with stack, starts := t.starts.push start }, .nat start)
  | [.str "mark"] => ({ t with marks := t.marks.push t.stack.used }, .nat t.marks.size)
  | [.str "rewind", i] =>
    match t.marks[i.nat?.getD 0]? with
    | some mark => ({ t with stack := t.stack.rewind mark }, .null)
    | none => (t, .null)
  | [.str "contains", i, n] =>
    match t.marks[i.nat?.getD 0]?, t.starts[n.nat?.getD 0]? with
    | some mark, some start => (t, .bool (t.stack.containsSince mark start))
    | _, _ => (t, .null)
  | _ => (t, .null)

def stack (request : Json) : Answer :=
  let start : StackTrial := { stack := .ofCapacity (natOf request "capacity") }
  let (t, results) := (itemsOf request "ops").foldl (fun (t, out) op =>
    let (t, result) := stackStep t (op.items?.getD [])
    (t, Json.obj [("result", result), ("used", .nat t.stack.used),
      ("high_water", .nat t.stack.highWater)] :: out)) (start, [])
  ok (.arr results.reverse) ++ [("capacity", .nat t.stack.capacity)]

/-- What a search for a function of a script finds: its numbers of slots. -/
def foundJson (g : Graph) : Json :=
  .arr [.nat g.nodes.size, .nat g.pins.size, .nat g.links.size]

def roundtripOf {α : Type} (parse : String → Except ReadFault α) (render : α → String)
    (same : α → α → Bool) (facts : α → Json) (text : String) : Answer :=
  let answer : Except ReadFault Answer := do
    let a ← parse text
    let once := render a
    let b ← parse once
    return ok (.obj [("text", .str once), ("stable", .bool (same a b && render b == once)),
      ("script", facts a)])
  match answer with
  | .ok answer => answer
  | .error fault => readRefusal fault

def roundtrip (request : Json) : Answer :=
  let text := textOf request "text"
  if textOf request "what" = "script" then
    roundtripOf Script.parse Script.render Script.same (fun s =>
      .obj [("type", .nat s.type.hash.toNat),
        ("found", optionJson foundJson (s.function? (textOf request "function")))]) text
  else roundtripOf Graph.parse Graph.render Graph.same (fun _ => .null) text

def respondSingle? (request : Json) (op : String) : Option Answer :=
  match op with
  | "hash" => some (hashes request)
  | "hash_bytes" => some (byteHashes request)
  | "func_id" => some (signatureOf request)
  | "form" => some (form request)
  | "operator" => some (operator request)
  | "traits" => some (traits request)
  | "error" => some (error request)
  | "config" => some (config request)
  | "stack" => some (stack request)
  | "roundtrip" => some (roundtrip request)
  | _ => none

end Flowscript.Console
