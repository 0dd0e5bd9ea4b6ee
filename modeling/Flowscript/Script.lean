import Flowscript.Graph.Document

/-! # Scripts

A script declares a type: its fields and its functions.
-/
namespace Flowscript

structure FieldDecl where
  name : String
  type : String
  /-- The initial value, as a document. -/
  default : Option Json := none
deriving Repr

namespace FieldDecl

def toJson (f : FieldDecl) : Json :=
  .obj <| [("name", .str f.name), ("type", .str f.type)] ++ entry? "default" id f.default

def ofDraft (origin : Origin) (d : Draft) : Except ReadFault FieldDecl := do
  let (name, type, value) ← d.asRecord origin ["name", "type", "default"]
    (fun key d (name, type, value) => do
      match key with
      | "name" => return (some (← d.asText), type, value)
      | "type" => return (name, some (← d.asText), value)
      | _ => return (name, type, ← d.asDocument))
    ((none : Option String), (none : Option String), (none : Option Json))
  return ⟨← Draft.need name, ← Draft.need type, value⟩

def same (a b : FieldDecl) : Bool :=
  a.name == b.name && a.type == b.type && Graph.sameDefault a.default b.default

end FieldDecl

structure Script where
  name : String
  fields : List FieldDecl := []
  functions : List Graph := []
deriving Repr

namespace Script

def type (s : Script) : TypeId := .ofName s.name

def function? (s : Script) (name : String) : Option Graph := s.functions.find? (·.name == name)

def toJson (s : Script) : Json :=
  .obj [("name", .str s.name), ("fields", .arr (s.fields.map FieldDecl.toJson)),
    ("functions", .arr (s.functions.map Graph.toJson))]

def ofDraft (origin : Origin) (d : Draft) : Except ReadFault Script := do
  let (name, s) ← d.asRecord origin ["name", "fields", "functions"]
    (fun key d ((name : Option String), (s : Script)) => do
      match key with
      | "name" => return (some (← d.asText), s)
      | "fields" => return (name, { s with fields := ← d.asList (FieldDecl.ofDraft origin) })
      | _ => return (name, { s with functions := ← d.asList (Graph.ofDraft origin) }))
    (none, { name := "" })
  return { s with name := ← Draft.need name }

def sameAll {α : Type} (same : α → α → Bool) : List α → List α → Bool
  | a :: as, b :: bs => same a b && sameAll same as bs
  | [], [] => true
  | _, _ => false

def same (a b : Script) : Bool :=
  a.name == b.name && sameAll FieldDecl.same a.fields b.fields
    && sameAll Graph.same a.functions b.functions

def render (s : Script) : String := s.toJson.pretty

def parse (text : String) : Except ReadFault Script := Draft.interpret (ofDraft .text) text

end Script

end Flowscript
