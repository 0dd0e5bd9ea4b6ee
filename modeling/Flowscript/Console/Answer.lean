import Flowscript.Diagnostic

/-! # Answers

A request is answered by an object with the key `ok`, or by one with the key `error` that names the
kind of failure. Floating-point numbers are answered by their bits, so that no digit is lost.
-/
namespace Flowscript.Console

mutual

/-- The document with every floating-point number replaced by its bits. -/
def withBits : Json → Json
  | .num (.double x) => bitsOf x
  | .num (.single x) => bitsOf x.widen
  | .arr items => .arr (withBitsItems items)
  | .obj entries => .obj (withBitsEntries entries)
  | j => j
where
  bitsOf (x : F64) : Json :=
    if x.isFinite then .obj [("$f", .str (Text.hex64 x.bits))] else .null

def withBitsItems : List Json → List Json
  | [] => []
  | j :: rest => withBits j :: withBitsItems rest

def withBitsEntries : List (String × Json) → List (String × Json)
  | [] => []
  | (k, j) :: rest => (k, withBits j) :: withBitsEntries rest

end

abbrev Answer := List (String × Json)

def ok (j : Json) : Answer := [("ok", withBits j)]

def refusal (kind : String) : Answer := [("error", .str kind)]

def refusalWith (kind message : String) : Answer :=
  [("error", .str kind), ("message", .str message)]

def readRefusal (fault : ReadFault) : Answer :=
  [("error", .str "Json"), ("category", .str (match fault with
    | .mismatch => "Data"
    | .malformed => "Syntax"
    | .truncated => "Eof"))]

def scriptErrorJson (e : ScriptError) : Answer :=
  [("error", .str e.kind.text), ("message", .str e.message), ("location", e.location.toJson),
    ("text", .str e.text)]

end Flowscript.Console
