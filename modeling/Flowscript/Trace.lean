import Flowscript.Json.Basic

/-! # Traces

Notes about what the library is doing, each with a severity, a message and named details.
-/
namespace Flowscript

/-- Severity of a note, the most severe first. -/
inductive Severity where
  | error
  | warn
  | info
  | debug
deriving DecidableEq, Repr

namespace Severity

def rank : Severity → Nat
  | .error => 0
  | .warn => 1
  | .info => 2
  | .debug => 3

def text : Severity → String
  | .error => "ERROR"
  | .warn => "WARN"
  | .info => "INFO"
  | .debug => "DEBUG"

def ofText? : String → Option Severity
  | "error" => some .error
  | "warn" => some .warn
  | "info" => some .info
  | "debug" => some .debug
  | _ => none

/-- Whether a listener that asked for `limit` hears a note. -/
def reaches (s limit : Severity) : Bool := s.rank ≤ limit.rank

end Severity

structure Trace where
  severity : Severity
  message : String
  fields : List (String × Json)
deriving Repr

end Flowscript
