import Flowscript.Console.Session

/-! # Detailed texts

The texts in which interpreters, loaders, programs, types, functions and values show their parts.
-/
namespace Flowscript.Console.Shown

def record (name : String) (parts : List (String × String)) (isOpen : Bool) : String :=
  let shown := parts.map fun (k, v) => k ++ ": " ++ v
  let shown := if isOpen then shown ++ [".."] else shown
  name ++ " \x7b " ++ ", ".intercalate shown ++ " \x7d"

def list (items : List String) : String := "[" ++ ", ".intercalate items ++ "]"

def option {α : Type} (f : α → String) : Option α → String
  | some a => "Some(" ++ f a ++ ")"
  | none => "None"

def bool (b : Bool) : String := if b then "true" else "false"

def typeId (id : TypeId) : String := s!"TypeId({id.text})"

def form : Form → String
  | .value => "Value"
  | .ref => "Ref"
  | .constRef => "ConstRef"
  | .ptr => "Ptr"
  | .constPtr => "ConstPtr"
  | .rvalue => "RValue"

def layout (l : Layout) : String :=
  record "Layout" [("size", s!"{l.size}"), ("align", s!"{l.align} (1 << {l.align.log2})")] false

def settings (s : Settings) : String :=
  record "RuntimeConfig" [("stack_size", s!"{s.stackSize}"), ("max_steps", s!"{s.maxSteps}"),
    ("world_type", Text.shown s.worldType)] false

def interpreter (i : Interpreter) : String :=
  record "Interpreter" [("config", settings i.settings), ("stack_used", s!"{i.stack.used}"),
    ("depth", s!"{i.depth}")] true

def loader (l : Loader) : String :=
  record "ScriptCompiler" [("world_type", Text.shown l.worldType),
    ("functions", s!"{l.bodies.length}"), ("types", list (l.types.map typeId))] true

def program (p : Program) : String :=
  record "CompiledFunction" [("name", Text.shown p.name), ("script", option Text.shown p.script),
    ("nodes", s!"{(live p.nodes).length}"), ("pins", s!"{p.pins.size}"),
    ("storage", layout p.storage)] true

def source : TypeSource → String
  | .native => "Native"
  | .script name => record "Script" [("script", Text.shown name)] false

def field (f : FieldInfo) : String :=
  record "FieldDescriptor" [("name", Text.shown f.name), ("name_hash", s!"{f.hash.toNat}"),
    ("type_id", typeId f.type), ("offset", s!"{f.offset}")] false

def type (t : TypeInfo) : String :=
  record "TypeDescriptor" [("id", typeId t.id), ("name", Text.shown t.name),
    ("size", s!"{t.layout.size}"), ("align", s!"{t.layout.align}"), ("traits", t.traits.text),
    ("source", source t.source), ("fields", list (t.fields.map field))] true

def param (p : Param) : String :=
  record "ParamDesc" [("name", Text.shown p.name), ("type_id", typeId p.type),
    ("form", form p.form)] false

def function (f : Function) : String :=
  record "FunctionDescriptor" [("name", Text.shown f.name), ("params", list (f.params.map param)),
    ("ret", option param f.result), ("pure", bool f.pure),
    ("signature", s!"FuncId({f.signature.hash.toNat})")] true

def null (id : TypeId) (f : Form) : String :=
  record "DynamicValue" [("type_id", typeId id), ("form", form f), ("owning", "false"),
    ("data", "None")] false

end Flowscript.Console.Shown
