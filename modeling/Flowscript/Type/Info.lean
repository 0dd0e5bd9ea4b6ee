import Flowscript.Traits
import Flowscript.Type.Function

/-! # Types

Everything known of a type: its layout, capabilities, fields, functions and relations to other types.
-/
namespace Flowscript

inductive TypeSource where
  | native
  | script (name : String)
deriving DecidableEq, Repr

/-- A data field at a fixed offset. -/
structure FieldInfo where
  name : String
  type : TypeId
  offset : Nat
deriving DecidableEq, Repr

namespace FieldInfo

def hash (f : FieldInfo) : UInt32 := NameHash.ofString f.name

end FieldInfo

structure TypeInfo where
  id : TypeId
  name : String
  layout : Layout
  traits : Traits := { trivial := true }
  visible : Bool := true
  source : TypeSource := .native
  fields : List FieldInfo := []
  /-- Overloads under their key, in the order they were added. -/
  functions : List (FunctionKey × List Function) := []
  bases : List TypeId := []
  derived : List TypeId := []
  destructor : Option Destructor := none
  codec : Option Codec := none
deriving Inhabited, Repr

namespace TypeInfo

def new (name : String) (layout : Layout) : TypeInfo := { id := .ofName name, name, layout }

def addTraits (t : TypeInfo) (traits : Traits) : TypeInfo :=
  { t with traits := t.traits.union traits }

def setDestructor (t : TypeInfo) (destructor : Option Destructor) : TypeInfo :=
  { t with destructor, traits := { t.traits with trivial := destructor.isNone } }

def addBase (t : TypeInfo) (base : TypeId) : TypeInfo :=
  if t.bases.contains base then t else { t with bases := t.bases ++ [base] }

def addField (t : TypeInfo) (name : String) (type : TypeId) (offset : Nat) : TypeInfo :=
  { t with fields := t.fields ++ [⟨name, type, offset⟩] }

def isOwnable (t : TypeInfo) : Bool := t.visible && (t.traits.copy || t.traits.move)

def isScripted (t : TypeInfo) : Bool :=
  match t.source with
  | .script _ => true
  | .native => false

def field? (t : TypeInfo) (name : String) : Option FieldInfo := t.fields.find? (·.name == name)

def overloads (t : TypeInfo) (key : FunctionKey) : List Function :=
  (t.functions.lookup key).getD []

def setOverloads (key : FunctionKey) (fs : List Function) :
    List (FunctionKey × List Function) → List (FunctionKey × List Function)
  | [] => [(key, fs)]
  | (k, gs) :: rest => if k = key then (k, fs) :: rest else (k, gs) :: setOverloads key fs rest

def addFunction (t : TypeInfo) (f : Function) : TypeInfo :=
  let kept := (t.overloads f.key).filter (·.signature != f.signature)
  { t with functions := setOverloads f.key (kept ++ [f]) t.functions }

def addFunctions (t : TypeInfo) (fs : List Function) : TypeInfo := fs.foldl addFunction t

def clearFunctions (t : TypeInfo) : TypeInfo := { t with functions := [] }

def functionsNamed (t : TypeInfo) (name : String) : List Function :=
  (t.overloads (.ofName name)).filter (·.name == name)

def allFunctions (t : TypeInfo) : List Function :=
  (t.functions.flatMap (·.2)).mergeSort fun f g =>
    f.name < g.name || (f.name == g.name && f.signature.hash ≤ g.signature.hash)

def findFunction? (t : TypeInfo) (name : String) (signature : SignatureId) : Option Function :=
  (t.functionsNamed name).find? (·.signature == signature)

/-- The better of two candidates: the earlier one unless the later matches more forms exactly. -/
def better (args : List Function.Argument) (best : Option Function) (f : Function) :
    Option Function :=
  match best with
  | some g => if g.exactForms args < f.exactForms args then some f else some g
  | none => some f

def walkOverloads (args : List Function.Argument) :
    List Function → Option Function → Option CallError → Option Function × Option CallError
  | [], best, last => (best, last)
  | f :: fs, best, last =>
    match f.check args with
    | .ok () => walkOverloads args fs (better args best f) last
    | .error e => walkOverloads args fs best (some e)

/-- The overload whose parameters accept the arguments, with as many exact forms as possible. -/
def resolve (t : TypeInfo) (key : FunctionKey) (args : List Function.Argument) :
    Except CallError Function :=
  match t.overloads key with
  | [] => .error (.noFunction t.name key)
  | fs =>
    match walkOverloads args fs none none with
    | (some f, _) => .ok f
    | (none, some e) => .error (.noOverload t.name key e)
    | (none, none) => .error (.noFunction t.name key)

end TypeInfo

end Flowscript
