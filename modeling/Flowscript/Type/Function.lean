import Flowscript.Type.Codec

/-! # Functions

What a type can do: a function has a name, parameters, an optional result and a body. Bodies are
operations on primitive data, operations an aggregate composes from those of its fields, functions of
the host, or scripts.
-/
namespace Flowscript

/-- Operations on values that consist of primitive data. -/
inductive NativeOp where
  | default
  | moveConstruct
  | moveAssign
  | copyConstruct
  | copyAssign
  | compare (op : Operator)
  | arithmetic (prim : Prim) (op : Operator)
  | concat
  | largest
  | twice
  | byteLength
  | startsWith
deriving DecidableEq, Repr

/-- Operations an aggregate composes from those of its fields. -/
inductive AggregateOp where
  | default
  | copy
  | move
  | equal
  | notEqual
deriving DecidableEq, Repr

inductive HostOutcome where
  | nothing
  /-- A document read as the result. -/
  | decoded (value : Json)
  /-- The same, but never into the caller's storage. -/
  | owned (value : Json)
  | copy (index : Nat)
  | zeroed
  | bytes (index : Nat)
  | fail (message : String)
  | null
  /-- A view of an argument. -/
  | argument (index : Nat)
  | readInt (index : Nat)
  | increment (index : Nat) (amount : Int)
  /-- How often the function was called. -/
  | count
  /-- Tells the type of the active world. -/
  | world
  /-- Tells how much of the stack is in use. -/
  | stack
  | callback (type : TypeId) (function : String)
  | tryCallback (type : TypeId) (function : String) (message : Option String)
deriving Repr

structure HostFunction where
  /-- Tells each call with its arguments. -/
  record : Bool
  outcome : HostOutcome
  /-- Number under which calls are counted. -/
  counter : Nat
deriving Repr

/-- An aggregate whose operations are composed from those of its parts. -/
structure Aggregate where
  type : TypeId
  layout : Layout
  destructor : Option Destructor
  parts : List Part
deriving Repr

/-- What runs when a function is called. -/
inductive Body where
  | native (op : NativeOp) (shape : Shape) (destructor : Option Destructor)
  | aggregate (op : AggregateOp) (whole : Aggregate)
  | host (function : HostFunction)
  /-- The script body with a number. -/
  | script (number : Nat)
deriving Repr

structure Function where
  name : String
  params : List Param
  result : Option Param
  pure : Bool
  body : Body
deriving Repr

namespace Function

def key (f : Function) : FunctionKey := .ofName f.name

def signature (f : Function) : SignatureId := .ofParams f.params f.result

def resultName : String := "Return Value"

def resultParam (type : TypeId) (form : Form) : Param := ⟨resultName, type, form⟩

structure Argument where
  type : TypeId
  form : Form
  isNull : Bool
deriving DecidableEq, Repr

def checkArgument (f : Function) (index : Nat) (p : Param) (a : Argument) : Except CallError Unit :=
  if a.type ≠ p.type then .error (.argumentType index p.name f.name p.type a.type)
  else if !p.form.accepts a.form then .error (.argumentForm index p.name f.name p.form a.form)
  else if a.isNull && !p.form.isNullable then .error (.argumentNull index p.name f.name)
  else .ok ()

def checkFrom (f : Function) : Nat → List Param → List Argument → Except CallError Unit
  | index, p :: ps, a :: as => do
    f.checkArgument index p a
    f.checkFrom (index + 1) ps as
  | _, _, _ => .ok ()

/-- Checks an argument list: its length, then each argument's type, form and nullness. -/
def check (f : Function) (args : List Argument) : Except CallError Unit :=
  if args.length ≠ f.params.length then .error (.arity f.name f.params.length args.length)
  else f.checkFrom 0 f.params args

def exactForms (f : Function) (args : List Argument) : Nat :=
  ((f.params.zip args).filter fun (p, a) => p.form == a.form).length

end Function

end Flowscript
