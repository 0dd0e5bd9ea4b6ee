import Flowscript.Name

/-! # Operators and function keys

The functions of a type are found under a key: an operator, or the hash of an ordinary name.
-/
namespace Flowscript

inductive Operator where
  | construct
  | assign
  | equal
  | notEqual
  | less
  | lessEqual
  | greater
  | greaterEqual
  | add
  | subtract
  | multiply
  | divide
  | remainder
  | negate
  | not
deriving DecidableEq, Repr

namespace Operator

def all : List Operator :=
  [.construct, .assign, .equal, .notEqual, .less, .lessEqual, .greater, .greaterEqual,
    .add, .subtract, .multiply, .divide, .remainder, .negate, .not]

def functionName : Operator → String
  | .construct => "operator new"
  | .assign => "operator="
  | .equal => "operator=="
  | .notEqual => "operator!="
  | .less => "operator<"
  | .lessEqual => "operator<="
  | .greater => "operator>"
  | .greaterEqual => "operator>="
  | .add => "operator+"
  | .subtract => "operator-"
  | .multiply => "operator*"
  | .divide => "operator/"
  | .remainder => "operator%"
  | .negate => "operator neg"
  | .not => "operator!"

def label : Operator → String
  | .construct => "Constructor"
  | .assign => "Assign"
  | .equal => "Equal"
  | .notEqual => "NotEqual"
  | .less => "Less"
  | .lessEqual => "LessEqual"
  | .greater => "Greater"
  | .greaterEqual => "GreaterEqual"
  | .add => "Add"
  | .subtract => "Subtract"
  | .multiply => "Multiply"
  | .divide => "Divide"
  | .remainder => "Remainder"
  | .negate => "Negate"
  | .not => "Not"

def ofFunctionName? (name : String) : Option Operator := all.find? (·.functionName == name)

theorem mem_all (op : Operator) : op ∈ all := by cases op <;> decide

end Operator

/-- Where a type keeps its functions. -/
inductive FunctionKey where
  | operator (op : Operator)
  | named (hash : UInt32)
deriving DecidableEq, Repr

namespace FunctionKey

def ofName (name : String) : FunctionKey :=
  match Operator.ofFunctionName? name with
  | some op => .operator op
  | none => .named (NameHash.ofString name)

def describe : FunctionKey → String
  | .operator op => s!"`{op.functionName}`"
  | .named hash => s!"with name hash {Text.hex32 hash}"

end FunctionKey

end Flowscript
