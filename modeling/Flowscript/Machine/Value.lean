import Flowscript.Type.Function

/-! # Values

A value has a type, a form and data. It owns its data, or refers to data that something else owns; a
pointer may refer to nothing.
-/
namespace Flowscript

inductive Holding where
  /-- Storage of its own, given up when the value ends. -/
  | owned (place : Place) (size : Nat) (destructor : Option Destructor)
  | borrowed (place : Place)
  | pointer (place : Option Place)
deriving Repr

structure Value where
  type : TypeId
  form : Form
  held : Holding
deriving Repr

namespace Value

def owned (type : TypeId) (place : Place) (size : Nat) (destructor : Option Destructor) : Value :=
  ⟨type, .value, .owned place size destructor⟩

def borrowed (type : TypeId) (form : Form) (place : Place) : Value :=
  ⟨type, form, if form.isPointer then .pointer (some place) else .borrowed place⟩

def null (type : TypeId) (form : Form) : Value := ⟨type, form, .pointer none⟩

def place? (v : Value) : Option Place :=
  match v.held with
  | .owned place _ _ => some place
  | .borrowed place => some place
  | .pointer place => place

def isNull (v : Value) : Bool := v.place?.isNone

def isOwning (v : Value) : Bool :=
  match v.held with
  | .owned .. => true
  | _ => false

def view (v : Value) (form : Form) : Value :=
  match v.place? with
  | some place => borrowed v.type form place
  | none => null v.type form

def argument (v : Value) : Function.Argument := ⟨v.type, v.form, v.isNull⟩

end Value

end Flowscript
