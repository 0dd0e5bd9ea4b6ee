import Flowscript.Settings.Toml

/-! # Interpreter settings

The size of the stack, the number of steps a call may take and the type that event functions receive
as their world. They are read from the `interpreter` table of a settings file; what is left out keeps
its default.
-/
namespace Flowscript

structure Settings where
  stackSize : Nat := 64 * 1024
  maxSteps : Nat := 1000000
  worldType : String := "World"
deriving DecidableEq, Repr, Inhabited

inductive SettingsError where
  | unreadable
  | misspelled
  | zeroStack
  | zeroSteps
  | emptyWorld
deriving DecidableEq, Repr

namespace SettingsError

def message : SettingsError → String
  | .unreadable => "Failed to read config file"
  | .misspelled => "Failed to parse TOML"
  | .zeroStack => "Invalid config: stack_size must be greater than zero"
  | .zeroSteps => "Invalid config: max_steps must be greater than zero"
  | .emptyWorld => "Invalid config: world_type must not be empty"

end SettingsError

namespace Settings

def validate (s : Settings) : Except SettingsError Settings :=
  if s.stackSize = 0 then .error .zeroStack
  else if s.maxSteps = 0 then .error .zeroSteps
  else if s.worldType = "" then .error .emptyWorld
  else .ok s

def natBelow (bound : Nat) : Toml.Node → Except SettingsError Nat
  | .int n => if 0 ≤ n ∧ n < bound then .ok n.toNat else .error .misspelled
  | _ => .error .misspelled

/-- Sets one setting; unknown names are left alone. -/
def set (s : Settings) (name : String) (value : Toml.Node) : Except SettingsError Settings :=
  match name with
  | "stack_size" => do
    let n ← natBelow 0x10000000000000000 value
    .ok { s with stackSize := n }
  | "max_steps" => do
    let n ← natBelow 0x100000000 value
    .ok { s with maxSteps := n }
  | "world_type" =>
    match value with
    | .text t => .ok { s with worldType := t }
    | _ => .error .misspelled
  | _ => .ok s

def names : List String := ["stack_size", "max_steps", "world_type"]

/-- Settings of a table, or of a list in the order of `names`. A date or time is a table without any
setting. -/
def ofNode : Toml.Node → Except SettingsError Settings
  | .table _ entries => entries.foldlM (fun s e => s.set e.1 e.2) {}
  | .inline entries => entries.foldlM (fun s e => s.set e.1 e.2) {}
  | .moment => .ok {}
  | .arr items => (names.zip items).foldlM (fun s e => s.set e.1 e.2) {}
  | _ => .error .misspelled

def parse (text : String) : Except SettingsError Settings :=
  match Toml.parse? text with
  | none => .error .misspelled
  | some root =>
    match root.lookup "interpreter" with
    | none => .ok {}
    | some node => do
      let s ← ofNode node
      s.validate

end Settings

end Flowscript
