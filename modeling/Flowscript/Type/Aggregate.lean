import Flowscript.Type.Catalogue

/-! # Aggregates

The type a script declares is an aggregate of its fields: laid out in the order of declaration, and
with those operations that all of its fields have.
-/
namespace Flowscript

/-- A field that an aggregate is going to have. -/
structure Member where
  name : String
  type : Handle
  default : Option Json
deriving Repr

namespace Aggregate

def place? (c : Catalogue) (members : List Member) : Option (Layout × List Part) :=
  (Layout.place? (members.map fun m => (c.info m.type).layout)).map fun (layout, offsets) =>
    (layout, (members.zip offsets).map fun (m, offset) =>
      { name := m.name, type := m.type, offset, default := m.default
        destructor := (c.info m.type).destructor })

/-- What happens when an aggregate ends: nothing if all parts are trivial. -/
def destructorOf (c : Catalogue) (parts : List Part) : Option Destructor :=
  if parts.all fun p => (c.info p.type).traits.trivial then none
  else some (.parts (parts.filterMap fun p => p.destructor.map (p.offset, ·)))

def codecOf? (c : Catalogue) (parts : List Part) : Option Codec :=
  (parts.mapM fun p => (c.info p.type).codec.map (p, ·)).map .aggregate

def function (whole : Aggregate) (key : Operator) (params : List Param) (result : TypeId)
    (op : AggregateOp) : Function :=
  { name := key.functionName, params, result := some (Function.resultParam result .value)
    pure := true, body := .aggregate op whole }

/-- Whether values can be made from nothing: every part has a default. -/
def hasDefault (c : Catalogue) (parts : List Part) : Bool :=
  parts.all fun p => p.default.isSome || (c.info p.type).traits.default

def canCopy (c : Catalogue) (parts : List Part) : Bool :=
  parts.all fun p => (c.info p.type).traits.copy

def canMove (c : Catalogue) (parts : List Part) : Bool :=
  parts.all fun p => (c.info p.type).traits.move || (c.info p.type).traits.copy

def canCompare (c : Catalogue) (parts : List Part) : Bool :=
  parts.all fun p => !((c.info p.type).overloads (.operator .equal)).isEmpty

def functions (c : Catalogue) (whole : Aggregate) : List Function :=
  let parts := whole.parts
  (if hasDefault c parts then [whole.function .construct [] whole.type .default] else [])
    ++ (if canCopy c parts then
        [whole.function .construct [⟨"other", whole.type, .constRef⟩] whole.type .copy] else [])
    ++ (if canMove c parts then
        [whole.function .construct [⟨"other", whole.type, .rvalue⟩] whole.type .move] else [])
    ++ (if canCompare c parts then
        let params := [⟨"a", whole.type, .constRef⟩, ⟨"b", whole.type, .constRef⟩]
        [whole.function .equal params (.ofName "bool") .equal,
          whole.function .notEqual params (.ofName "bool") .notEqual] else [])

def info (c : Catalogue) (script : String) (layout : Layout) (parts : List Part) : TypeInfo :=
  let destructor := destructorOf c parts
  let whole : Aggregate := { type := .ofName script, layout, destructor, parts }
  TypeInfo.addFunctions
    { id := .ofName script, name := script, layout, source := .script script, destructor
      traits :=
        { default := hasDefault c parts, copy := canCopy c parts, move := canMove c parts
          trivial := destructor.isNone }
      fields := parts.map fun p => ⟨p.name, (c.info p.type).id, p.offset⟩
      codec := codecOf? c parts }
    (functions c whole)

end Aggregate

end Flowscript
