import Flowscript.Json.Reader

/-! # Interpreting drafts

Interpreters walk a draft in text order and stop at the first misplaced value or break. Records are
written as objects with named fields or as lists of the fields in order. What differs with the origin
of a draft is stated once, in `Origin`.
-/
namespace Flowscript

/-- Where a draft comes from. -/
inductive Origin where
  /-- Straight from a text. -/
  | text
  /-- From a document that was read before. -/
  | value
  /-- From entries set aside while their record was still being read. -/
  | setAside
deriving DecidableEq, Repr

/-- A choice that is no text breaks the reading of a text, and is misplaced elsewhere. -/
def Origin.noChoice : Origin → ReadFault
  | .text => .malformed
  | _ => .mismatch

def Origin.surplus : Origin → ReadFault
  | .text => .malformed
  | _ => .mismatch

namespace Draft

def asText : Draft → Except ReadFault String
  | .str s => .ok s
  | .broken b => .error b.fault
  | _ => .error .mismatch

def asBool : Draft → Except ReadFault Bool
  | .bool b => .ok b
  | .broken b => .error b.fault
  | _ => .error .mismatch

def asU32 : Draft → Except ReadFault UInt32
  | .num (.int n) => if 0 ≤ n ∧ n < 0x100000000 then .ok (UInt32.ofNat n.toNat) else .error .mismatch
  | .broken b => .error b.fault
  | _ => .error .mismatch

def asF32 : Draft → Except ReadFault F32
  | .num (.int n) => .ok (.ofInt n)
  | .num (.double x) => .ok x.narrow
  | .num (.single x) => .ok x
  | .broken b => .error b.fault
  | _ => .error .mismatch

def asOption {α : Type} (decode : Draft → Except ReadFault α) : Draft → Except ReadFault (Option α)
  | .null => .ok none
  | d => (decode d).map some

def asList {α : Type} (decode : Draft → Except ReadFault α) : Draft → Except ReadFault (List α)
  | .arr items ending => do
    let out ← items.mapM decode
    match ending with
    | some fault => .error fault
    | none => .ok out
  | .tooDeep (.arr _ _) => .error .malformed
  | .broken b => .error b.fault
  | _ => .error .mismatch

/-- One of several names, also written as an object with the name as only key and null; among entries
set aside an empty object will do for null. -/
def asChoice (origin : Origin) (names : List String) : Draft → Except ReadFault Nat
  | .str s => pick s
  | .obj [] (some fault) => .error fault
  | .obj [] none => .error origin.noChoice
  | .obj ((.broken b, _) :: _) _ => .error b.choice
  | .obj ((.text key, d) :: rest) ending => do
    let i ← pick key
    match d with
    | .null => pure ()
    | .obj [] none => if origin = .setAside then pure () else .error .mismatch
    | .broken b => .error b.fault
    | _ => .error .mismatch
    match rest, ending with
    | [], none => .ok i
    | [], some fault => .error fault
    | _, _ => .error origin.noChoice
  | .broken b => .error b.choice
  | _ => .error origin.noChoice
where
  pick (s : String) : Except ReadFault Nat :=
    match names.findIdx? (· == s) with
    | some i => .ok i
    | none => .error .mismatch

/-- The parts of a record found so far. -/
abbrev Step (σ : Type) := String → Draft → σ → Except ReadFault σ

/-- Walks entries: a known name may come once, unknown ones go to `other`. -/
def walkEntries {σ : Type} (names : List String) (step other : Step σ) :
    List String → List (EntryKey × Draft) → σ → Except ReadFault σ
  | _, [], s => .ok s
  | _, (.broken b, _) :: _, _ => .error b.fault
  | seen, (.text key, d) :: rest, s =>
    if names.contains key then
      if seen.contains key then .error .mismatch
      else do
        let s ← step key d s
        walkEntries names step other (key :: seen) rest s
    else do
      let s ← other key d s
      walkEntries names step other seen rest s

/-- Unknown entries are only read past. -/
def ignore {σ : Type} : Step σ := fun _ d s => do
  d.skip
  .ok s

def walkItems {σ : Type} (origin : Origin) (step : Step σ) (ending : Option ReadFault) :
    List String → List Draft → σ → Except ReadFault σ
  | name :: names, d :: rest, s => do
    let s ← step name d s
    walkItems origin step ending names rest s
  | [], _ :: _, _ => .error origin.surplus
  | _, [], s =>
    match ending with
    | some fault => .error fault
    | none => .ok s

/-- Walks a record written as an object, or as a list of its fields in order. -/
def asRecord {σ : Type} (origin : Origin) (names : List String) (step : Step σ) (start : σ) :
    Draft → Except ReadFault σ
  | .obj entries ending => do
    let s ← walkEntries names step ignore [] entries start
    match ending with
    | some fault => .error fault
    | none => .ok s
  | .arr items ending => walkItems origin step ending names items start
  | .tooDeep _ => .error .malformed
  | .broken b => .error b.fault
  | _ => .error .mismatch

def setAside (d : Draft) : Except ReadFault Draft := do
  let _ ← d.toJson
  .ok d

def need {α : Type} : Option α → Except ReadFault α
  | some a => .ok a
  | none => .error .mismatch

end Draft

end Flowscript
