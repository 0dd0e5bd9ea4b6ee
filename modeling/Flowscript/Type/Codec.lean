import Flowscript.CallError
import Flowscript.Memory

/-! # Codecs and destructors

A codec turns a value into a document and back; a destructor says what happens when a value ends.
Both are trees that follow the way types contain each other, so walking a value needs no other bound
than the tree.
-/
namespace Flowscript

/-- What happens when a value ends. -/
inductive Destructor where
  /-- Resources are given back, and nobody is told. -/
  | silent
  /-- The number at the place is told, unless it is zero. -/
  | counted
  /-- A label is told. -/
  | labelled (label : String)
  /-- The parts at their offsets end, the last one first. -/
  | parts (parts : List (Nat × Destructor))
deriving Repr

structure RecordField where
  name : String
  prim : Prim
  offset : Nat
  /-- The field may be left out and is then zero. -/
  optional : Bool := false
deriving DecidableEq, Repr

/-- Codecs of types that the host language provides. -/
inductive NativeCodec where
  | scalar (prim : Prim)
  | unit (name : String)
  | record (name : String) (fields : List RecordField)
deriving Repr

/-- Index of a type in a catalogue. -/
abbrev Handle := Nat

/-- A field of an aggregate, placed. -/
structure Part where
  name : String
  type : Handle
  offset : Nat
  default : Option Json
  destructor : Option Destructor
deriving Repr

/-- How values are written as documents. -/
inductive Codec where
  | native (codec : NativeCodec)
  | aggregate (parts : List (Part × Codec))
deriving Repr

namespace Prim

def expected : Prim → String
  | .bool => "a boolean"
  | .int kind => kind.text
  | .f32 => "f32"
  | .f64 => "f64"
  | .text => "a string"

def encode : Prim → Atom → Json
  | .bool, .bool b => .bool b
  | .int _, .int n => .int n
  | .f32, .f32 x => if x.isFinite then .double x.widen else .null
  | .f64, .f64 x => if x.isFinite then .double x else .null
  | .text, .text s => .str s
  | _, _ => .null

/-- Reads a datum; an integer is also a floating-point number. -/
def decode : Prim → Json → Except CallError Atom
  | .bool, .bool b => .ok (.bool b)
  | .int kind, .num (.int n) =>
    if kind.contains n then .ok (.int n) else .error (.outOfRange n kind.text)
  | .f32, .num (.int n) => .ok (.f32 (.ofInt n))
  | .f32, .num (.double x) => .ok (.f32 x.narrow)
  | .f32, .num (.single x) => .ok (.f32 x)
  | .f64, .num (.int n) => .ok (.f64 (.ofInt n))
  | .f64, .num (.double x) => .ok (.f64 x)
  | .f64, .num (.single x) => .ok (.f64 x.widen)
  | .text, .str s => .ok (.text s)
  | prim, j => .error (.unexpected j prim.expected)

end Prim

namespace NativeCodec

def leaves : NativeCodec → List (Nat × Prim)
  | .scalar prim => [(0, prim)]
  | .unit _ => []
  | .record _ fields => fields.map fun f => (f.offset, f.prim)

def encode (m : Memory) (p : Place) : NativeCodec → Json
  | .scalar prim => prim.encode (m.read p prim)
  | .unit _ => .null
  | .record _ fields =>
    .ofEntries (fields.map fun f => (f.name, f.prim.encode (m.read (p.shift f.offset) f.prim)))

/-- Reads the fields of an object in the object's order, so the first bad field in that order is
reported; then the first missing one in the order of the record. -/
def decodeEntries (fields : List RecordField) (entries : List (String × Json)) :
    Except CallError (List Atom) := do
  let read ← entries.filterMapM fun (key, j) =>
    match fields.find? (·.name == key) with
    | some f => do
      let a ← f.prim.decode j
      pure (some (key, a))
    | none => pure none
  fields.mapM fun f =>
    match read.lookup f.name with
    | some a => .ok a
    | none => if f.optional then .ok f.prim.zero else .error (.missingField f.name)

def decodeItems (name : String) (fields : List RecordField) (items : List Json) :
    Except CallError (List Atom) := do
  let data ← go 0 fields items
  if fields.length < items.length then .error (.tooLong items.length) else .ok data
where
  go (index : Nat) : List RecordField → List Json → Except CallError (List Atom)
    | [], _ => .ok []
    | f :: fs, j :: js => do
      let a ← f.prim.decode j
      let rest ← go (index + 1) fs js
      .ok (a :: rest)
    | f :: fs, [] => do
      if f.optional then
        let rest ← go (index + 1) fs []
        .ok (f.prim.zero :: rest)
      else .error (.tooShort index name fields.length)

/-- Reads the data of a value, in the order of `leaves`. -/
def decode : NativeCodec → Json → Except CallError (List Atom)
  | .scalar prim, j => (prim.decode j).map ([·])
  | .unit _, .null => .ok []
  | .unit name, j => .error (.unexpected j s!"unit struct {name}")
  | .record _ fields, .obj entries => decodeEntries fields entries
  | .record name fields, .arr items => decodeItems name fields items
  | .record name _, j => .error (.unexpected j s!"struct {name}")

end NativeCodec

namespace Codec

mutual

def encode (m : Memory) : Codec → Place → Json
  | .native codec, p => codec.encode m p
  | .aggregate parts, p => .ofEntries (encodeParts m parts p)

def encodeParts (m : Memory) : List (Part × Codec) → Place → List (String × Json)
  | [], _ => []
  | (part, codec) :: rest, p =>
    (part.name, encode m codec (p.shift part.offset)) :: encodeParts m rest p

end

end Codec

end Flowscript
