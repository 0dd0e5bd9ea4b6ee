import Flowscript.Type.Catalogue

/-! # Types of the host language

The primitive types, and the records that a host program may describe to the interpreter. A
description lists which operations a type has; their functions are derived from the shape of its
data.
-/
namespace Flowscript

/-- Operations a described type may have. -/
structure Abilities where
  default : Bool := false
  clone : Bool := false
  equal : Bool := false
  order : Bool := false
  codec : Bool := false
  arithmetic : Option Prim := none

/-- A type described to the interpreter. -/
structure NativeType where
  name : String
  layout : Layout
  codec : NativeCodec
  abilities : Abilities
  destructor : Option Destructor := none
  /-- The fields shown to scripts. -/
  fields : List FieldInfo := []
  bases : List String := []
  visible : Bool := true

namespace NativeType

def id (t : NativeType) : TypeId := .ofName t.name

def shape (t : NativeType) : Shape := ⟨t.name, t.layout, t.codec.leaves⟩

def function (t : NativeType) (op : Operator) (params : List Param) (result : Option TypeId)
    (pure : Bool) (body : NativeOp) : Function :=
  { name := op.functionName, params, result := result.map (Function.resultParam · .value), pure
    body := .native body t.shape t.destructor }

def boolId : TypeId := .ofName "bool"

def binary (t : NativeType) (op : Operator) (result : TypeId) (body : NativeOp) : Function :=
  t.function op [⟨"a", t.id, .constRef⟩, ⟨"b", t.id, .constRef⟩] (some result) true body

def defaultFunctions (t : NativeType) : List Function :=
  [t.function .construct [] (some t.id) true .default,
    t.function .construct [⟨"other", t.id, .rvalue⟩] (some t.id) true .moveConstruct,
    t.function .assign [⟨"self", t.id, .ref⟩, ⟨"other", t.id, .rvalue⟩] none false .moveAssign]

def cloneFunctions (t : NativeType) : List Function :=
  [t.function .construct [⟨"other", t.id, .constRef⟩] (some t.id) true .copyConstruct,
    t.function .assign [⟨"self", t.id, .ref⟩, ⟨"other", t.id, .constRef⟩] none false .copyAssign]

def compareFunctions (t : NativeType) (ops : List Operator) : List Function :=
  ops.map fun op => t.binary op boolId (.compare op)

def arithmeticFunctions (t : NativeType) (prim : Prim) : List Function :=
  [Operator.add, .subtract, .multiply, .divide, .remainder].map fun op =>
    t.binary op t.id (.arithmetic prim op)

def traits (t : NativeType) : Traits :=
  { default := t.abilities.default
    copy := t.abilities.clone
    move := t.abilities.default
    copyAssign := t.abilities.clone
    moveAssign := t.abilities.default
    trivial := t.destructor.isNone }

def functions (t : NativeType) : List Function :=
  (if t.abilities.default then t.defaultFunctions else [])
    ++ (if t.abilities.clone then t.cloneFunctions else [])
    ++ (if t.abilities.equal then t.compareFunctions [.equal, .notEqual] else [])
    ++ (if t.abilities.order then
        t.compareFunctions [.less, .lessEqual, .greater, .greaterEqual] else [])
    ++ (match t.abilities.arithmetic with
        | some prim => t.arithmeticFunctions prim
        | none => [])

def info (t : NativeType) : TypeInfo :=
  TypeInfo.addFunctions
    { id := t.id, name := t.name, layout := t.layout, traits := t.traits, visible := t.visible
      fields := t.fields, bases := t.bases.map TypeId.ofName, destructor := t.destructor
      codec := if t.abilities.codec then some (.native t.codec) else none }
    t.functions

def ofPrim (name : String) (prim : Prim) (arithmetic : Bool) : NativeType :=
  { name, layout := prim.layout, codec := .scalar prim
    abilities := { default := true, clone := true, equal := true, order := true, codec := true
                   arithmetic := if arithmetic then some prim else none }
    destructor := if prim = .text then some .silent else none }

def primitives : List NativeType :=
  [ofPrim "bool" .bool false, ofPrim "i32" (.int .i32) true, ofPrim "i64" (.int .i64) true,
    ofPrim "u32" (.int .u32) true, ofPrim "u64" (.int .u64) true, ofPrim "f32" .f32 true,
    ofPrim "f64" .f64 true, ofPrim "String" .text false]

def textType : NativeType := ofPrim "String" .text false

def concatFunction : Function := textType.binary .add textType.id .concat

end NativeType

namespace Catalogue

def registerNative (c : Catalogue) (t : NativeType) : Handle × Catalogue := c.register t.info

def withPrimitives : Catalogue :=
  let c := NativeType.primitives.foldl (fun (c : Catalogue) t => (c.registerNative t).2) {}
  c.modifyId NativeType.textType.id (·.addFunction NativeType.concatFunction)

end Catalogue

end Flowscript
