/-! # Forms

How a value is held when it is handed to a function: by value, by reference or by pointer, with or
without the right to change it.
-/
namespace Flowscript

/-- The ways a value can refer to its data. -/
inductive Form where
  /-- An owned value. -/
  | value
  /-- A reference that may change the data; never null. -/
  | ref
  /-- A reference that may not change the data; never null. -/
  | constRef
  /-- A pointer that may change the data; may be null. -/
  | ptr
  /-- A pointer that may not change the data; may be null. -/
  | constPtr
  /-- A value the receiver may move out of. -/
  | rvalue
deriving DecidableEq, Repr, Inhabited

namespace Form

def all : List Form := [.value, .ref, .constRef, .ptr, .constPtr, .rvalue]

def isReference : Form → Bool
  | .ref | .constRef => true
  | _ => false

def isPointer : Form → Bool
  | .ptr | .constPtr => true
  | _ => false

def isOwning : Form → Bool
  | .value | .rvalue => true
  | _ => false

def isMutable : Form → Bool
  | .constRef | .constPtr => false
  | _ => true

def isNullable (f : Form) : Bool := f.isPointer

/-- Whether a parameter of the first form takes an argument of the second. Values may be copied into
a value, anything that is not a pointer binds to a constant reference, and a parameter that may
change its data takes no constant argument. -/
def accepts : Form → Form → Bool
  | .value, .value | .value, .ref | .value, .constRef | .value, .rvalue => true
  | .rvalue, .value | .rvalue, .rvalue => true
  | .constRef, .value | .constRef, .ref | .constRef, .constRef | .constRef, .rvalue => true
  | .ref, .value | .ref, .ref => true
  | .ptr, .value | .ptr, .ref | .ptr, .ptr => true
  | .constPtr, .value | .constPtr, .ref | .constPtr, .constRef | .constPtr, .ptr
  | .constPtr, .constPtr => true
  | _, _ => false

def text : Form → String
  | .value => "value"
  | .ref => "ref"
  | .constRef => "const ref"
  | .ptr => "ptr"
  | .constPtr => "const ptr"
  | .rvalue => "rvalue"

def tag : Form → String
  | .value => "value"
  | .ref => "ref"
  | .constRef => "const_ref"
  | .ptr => "ptr"
  | .constPtr => "const_ptr"
  | .rvalue => "r_value"

def byte : Form → UInt8
  | .value => 0
  | .ref => 1
  | .constRef => 2
  | .ptr => 3
  | .constPtr => 4
  | .rvalue => 5

def tags : List String := all.map tag

def ofTag? (tag : String) : Option Form := all.find? (·.tag == tag)

end Form

end Flowscript
