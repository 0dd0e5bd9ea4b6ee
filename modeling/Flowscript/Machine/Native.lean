import Flowscript.Machine.Lifecycle

/-! # Functions of the host language and of aggregates

The functions that come with a type: construction, assignment, comparison and arithmetic on primitive
data, and the same composed from the parts of an aggregate.
-/
namespace Flowscript

open Exec

def readArgument (shape : Shape) (args : List Value) (index : Nat) : Exec CallError Place :=
  match args[index]? with
  | some v =>
    match v.place? with
    | some place =>
      if v.type = .ofName shape.name then return place else throw (.notReadable index shape.name)
    | none => throw (.notReadable index shape.name)
  | none => throw (.notReadable index shape.name)

def changeArgument (shape : Shape) (args : List Value) (index : Nat) : Exec CallError Place :=
  match args[index]? with
  | some v =>
    match v.place? with
    | some place =>
      if v.type = .ofName shape.name ∧ v.form.isMutable then return place
      else throw (.notWritable index shape.name)
    | none => throw (.notWritable index shape.name)
  | none => throw (.notWritable index shape.name)

namespace NativeOp

def boolShape : Shape := .ofPrim "bool" .bool
def u64Shape : Shape := .ofPrim "u64" (.int .u64)

def argumentData (shape : Shape) (args : List Value) (index : Nat) : Exec CallError (List Atom) := do
  let place ← readArgument shape args index
  return (← memory).readLeaves place shape.leaves

def takeData (shape : Shape) (args : List Value) (index : Nat) : Exec CallError (List Atom) := do
  let place ← changeArgument shape args index
  let data := (← memory).readLeaves place shape.leaves
  modifyMemory (·.writeLeaves place shape.leaves shape.defaults)
  return data

def assign (shape : Shape) (destructor : Option Destructor) (args : List Value) (data : List Atom) :
    Exec CallError (Option Value) := do
  let place ← changeArgument shape args 0
  destroy destructor place
  modifyMemory (·.writeLeaves place shape.leaves data)
  return none

def run (op : NativeOp) (shape : Shape) (destructor : Option Destructor) (args : List Value)
    (ret : Option Place) : Exec CallError (Option Value) :=
  match op with
  | .default => giveBack shape destructor ret shape.defaults
  | .moveConstruct => do giveBack shape destructor ret (← takeData shape args 0)
  | .moveAssign => do assign shape destructor args (← takeData shape args 1)
  | .copyConstruct => do giveBack shape destructor ret (← argumentData shape args 0)
  | .copyAssign => do assign shape destructor args (← argumentData shape args 1)
  | .compare op => do
    let a ← argumentData shape args 0
    let b ← argumentData shape args 1
    giveBack boolShape none ret [.bool (Atom.compareBy op a b)]
  | .arithmetic prim op => do
    let a ← argumentData shape args 0
    let b ← argumentData shape args 1
    match a, b with
    | [a], [b] =>
      match Atom.arithmetic op prim a b with
      | some c => giveBack shape destructor ret [c]
      | none => throw (.arithmetic shape.name op)
    | _, _ => throw (.arithmetic shape.name op)
  | .concat => do
    let a ← argumentData shape args 0
    let b ← argumentData shape args 1
    match a, b with
    | [.text a], [.text b] => giveBack shape destructor ret [.text (a ++ b)]
    | _, _ => giveBack shape destructor ret [.text ""]
  | .largest => do
    let a ← argumentData shape args 0
    let b ← argumentData shape args 1
    match a, b with
    | [.int a], [.int b] => giveBack shape destructor ret [.int (max a b)]
    | _, _ => giveBack shape destructor ret [.int 0]
  | .twice => do
    match ← argumentData shape args 0 with
    | [.int a] => giveBack shape destructor ret [.int (IntKind.i32.wrap (2 * a))]
    | _ => giveBack shape destructor ret [.int 0]
  | .byteLength => do
    match ← argumentData shape args 0 with
    | [.text s] => giveBack u64Shape none ret [.int s.utf8ByteSize]
    | _ => giveBack u64Shape none ret [.int 0]
  | .startsWith => do
    let a ← argumentData shape args 0
    let b ← argumentData shape args 1
    match a, b with
    | [.text a], [.text b] => giveBack boolShape none ret [.bool (b.toList.isPrefixOf a.toList)]
    | _, _ => giveBack boolShape none ret [.bool false]

end NativeOp

namespace AggregateOp

variable (invoke : Invoke)

def build (whole : Aggregate) (ret : Option Place) (init : Part → Place → Exec CallError Unit) :
    Exec CallError (Option Value) :=
  produce whole.type whole.layout whole.destructor ret fun target =>
    Invoke.buildParts (fun part => target.shift part.offset) (·.destructor)
      (fun part => init part (target.shift part.offset)) whole.parts

def source (args : List Value) : Exec CallError Place :=
  match args.head?.bind Value.place? with
  | some place => return place
  | none => throw .nullSource

def equalParts (a b : Place) : List Part → Exec CallError Bool
  | [] => return true
  | part :: rest => do
    let t ← typeInfo part.type
    match ← invoke.equals t (a.shift part.offset) (b.shift part.offset) with
    | none => throw (.incomparable part.name)
    | some false => return false
    | some true => equalParts a b rest

def compare (whole : Aggregate) (expected : Bool) (args : List Value) (ret : Option Place) :
    Exec CallError (Option Value) := do
  match args.map Value.place? with
  | [some a, some b] =>
    let equal ← equalParts invoke a b whole.parts
    giveBack NativeOp.boolShape none ret [.bool (equal == expected)]
  | _ => throw .comparisonArity

def run (op : AggregateOp) (whole : Aggregate) (args : List Value) (ret : Option Place) :
    Exec CallError (Option Value) :=
  match op with
  | .default => build whole ret (invoke.defaultPart)
  | .copy => do
    let src ← source args
    build whole ret fun part target => do
      invoke.copyAt (← typeInfo part.type) target (src.shift part.offset)
  | .move => do
    let src ← source args
    build whole ret fun part target => do
      let t ← typeInfo part.type
      if t.traits.move then invoke.moveAt t target (src.shift part.offset)
      else invoke.copyAt t target (src.shift part.offset)
  | .equal => compare invoke whole true args ret
  | .notEqual => compare invoke whole false args ret

end AggregateOp

end Flowscript
