import Flowscript.Form
import Flowscript.Operator

/-! # Signatures

A parameter has a name, a type and a form. The identity of a signature hashes the types and forms of
the parameters and of the result, but no names.
-/
namespace Flowscript

/-- A parameter of a function, or its result. -/
structure Param where
  name : String
  type : TypeId
  form : Form
deriving DecidableEq, Repr

structure SignatureId where
  hash : UInt32
deriving DecidableEq, Repr, Inhabited

namespace SignatureId

def mixParam (hash : UInt32) (p : Param) : UInt32 :=
  NameHash.extend (NameHash.extend hash (NameHash.wordBytes p.type.hash)) [p.form.byte]

def ofParams (params : List Param) (result : Option Param) : SignatureId :=
  let hash := params.foldl mixParam (NameHash.ofString "fn")
  let hash := NameHash.extend hash "->".toUTF8.toList
  ⟨match result with
    | some p => mixParam hash p
    | none => hash⟩

def text (id : SignatureId) : String := Text.hex32 id.hash

end SignatureId

end Flowscript
