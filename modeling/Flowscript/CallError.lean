import Flowscript.Diagnostic
import Flowscript.Signature
import Flowscript.Text.Shown

/-! # Failed calls

The causes for which calling a function, constructing a value or reading a value from a document
fails, and the wording of each.
-/
namespace Flowscript

inductive CallError where
  | arity (function : String) (expected got : Nat)
  | argumentType (index : Nat) (param function : String) (expected got : TypeId)
  | argumentForm (index : Nat) (param function : String) (expected got : Form)
  | argumentNull (index : Nat) (param function : String)
  | noFunction (type : String) (key : FunctionKey)
  | noOverload (type : String) (key : FunctionKey) (last : CallError)
  | unregistered (type : TypeId)
  | misaligned (type : String) (align : Nat)
  | borrowedConstruction (type : String)
  | notReadable (index : Nat) (type : String)
  | notWritable (index : Nat) (type : String)
  | arithmetic (type : String) (op : Operator)
  | incomparable (field : String)
  | comparisonArity
  | nullSource
  | noCodec (type : String)
  | unexpected (found : Json) (expected : String)
  | outOfRange (n : Int) (expected : String)
  | missingField (field : String)
  | tooShort (length : Nat) (record : String) (fields : Nat)
  | tooLong (length : Nat)
  | notObject (found : Json)
  | inField (field : String) (cause : CallError)
  | inDefault (field : String) (cause : CallError)
  | pending (function : String)
  | failedToCompile (function reason : String)
  | unloaded (function : String)
  | script (error : ScriptError)
  | host (message : String)
  | tooDeep
deriving Repr

namespace CallError

/-- What a document holds, as a message about it says. -/
def describe : Json → String
  | .null => "null"
  | .bool b => s!"boolean `{(Json.bool b).compact}`"
  | .num (.int n) => s!"integer `{n}`"
  | .num n => s!"floating point `{n.text}`"
  | .str s => s!"string {Text.shown s}"
  | .arr _ => "sequence"
  | .obj _ => "map"

def message : CallError → String
  | .arity f expected got => s!"`{f}` expects {expected} argument(s), got {got}"
  | .argumentType i p f expected got =>
    s!"argument {i} (`{p}`) of `{f}` expects type {expected.text}, got {got.text}"
  | .argumentForm i p f expected got =>
    s!"argument {i} (`{p}`) of `{f}` expects a {expected.text} argument, got {got.text}"
  | .argumentNull i p f => s!"argument {i} (`{p}`) of `{f}` must not be null"
  | .noFunction type key => s!"`{type}` has no function {key.describe}"
  | .noOverload type key last =>
    s!"no overload of {key.describe} on `{type}` accepts the arguments: {last.message}"
  | .unregistered type => s!"type {type.text} is not registered"
  | .misaligned type align => s!"buffer for `{type}` is not aligned to {align} bytes"
  | .borrowedConstruction type => s!"constructor of `{type}` returned a borrowed value"
  | .notReadable i type => s!"argument {i} is not a readable `{type}`"
  | .notWritable i type => s!"argument {i} is not a writable `{type}`"
  | .arithmetic type op => s!"`{type}` {op.functionName} overflowed or divided by zero"
  | .incomparable field => s!"field `{field}` cannot be compared"
  | .comparisonArity => "comparison needs two values"
  | .nullSource => "source value is null"
  | .noCodec type => s!"`{type}` cannot be read from JSON"
  | .unexpected found expected => s!"invalid type: {describe found}, expected {expected}"
  | .outOfRange n expected => s!"invalid value: integer `{n}`, expected {expected}"
  | .missingField field => s!"missing field `{field}`"
  | .tooShort length record fields =>
    s!"invalid length {length}, expected struct {record} with {fields} elements"
  | .tooLong length => s!"invalid length {length}, expected fewer elements in array"
  | .notObject found => s!"expected a JSON object, got {found.compact}"
  | .inField field cause => s!"field `{field}`: {cause.message}"
  | .inDefault field cause => s!"default of field `{field}`: {cause.message}"
  | .pending f => s!"`{f}` is not compiled yet"
  | .failedToCompile f reason => s!"`{f}` failed to compile: {reason}"
  | .unloaded f => s!"`{f}` was unloaded"
  | .script e => e.text
  | .host message => message
  | .tooDeep => "calls are nested too deeply"

end CallError

end Flowscript
