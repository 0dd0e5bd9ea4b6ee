import Flowscript.Machine.Care
import Flowscript.Machine.Value
import Flowscript.Program
import Flowscript.Settings
import Flowscript.Trace

/-! # The machine

Everything that running code changes: memory, the interpreters with their stacks and counters, and
the journal of what can be observed. Computations on it either succeed or fail; what they did before
they failed stays done.
-/
namespace Flowscript

/-- What the end of a value tells. -/
inductive Notice where
  | nothing
  | number (n : Int)
  | label (text : String)
deriving DecidableEq, Repr

/-- What can be observed of a run. -/
inductive Event where
  /-- A function of the host was called. -/
  | called (function : String) (args : List Json)
  /-- The type of the active world, as the host sees it. -/
  | world (type : Option TypeId)
  | stackUsed (bytes : Nat)
  /-- How a call made by the host ended. -/
  | tried (failure : Option String)
  /-- A value with a destructor ended. -/
  | destroyed (notice : Notice) (place : Place)
  | traced (trace : Trace)

/-- What runs script code: a stack, a budget of steps and the world of the innermost event. -/
structure Interpreter where
  settings : Settings := {}
  stack : BumpStack := .ofCapacity ({} : Settings).stackSize
  steps : Nat := 0
  /-- How many steps were allowed since the budget was new. -/
  visits : Nat := 0
  depth : Nat := 0
  world : Option (TypeId × Place) := none
  /-- The error of the last nested call that failed. -/
  nestedFailure : Option ScriptError := none
deriving Inhabited

namespace Interpreter

def new (settings : Settings) : Interpreter :=
  { settings, stack := .ofCapacity settings.stackSize }

end Interpreter

/-- Which interpreter runs: that of the host, or the one used when no other does. -/
inductive Seat where
  | own
  | spare
deriving DecidableEq, Repr

structure Machine where
  memory : Memory := {}
  /-- What was observed, the latest first. -/
  journal : List Event := []
  own : Interpreter := {}
  spare : Interpreter := {}
  /-- The interpreter at work, if any. -/
  current : Option Seat := none
  /-- How often counting functions of the host were called. -/
  counts : List (Nat × Int) := []
  /-- The values somebody answers for. -/
  care : Care := {}
  /-- What inputs were given. -/
  watch : Watch := {}
deriving Inhabited

/-- The body behind a script function. -/
inductive BodyState where
  | pending
  | ready (program : Program)
  | failed (reason : String)
  | unloaded

/-- A script function's name and body. -/
structure ScriptBody where
  name : String
  state : BodyState := .pending

/-- What running code can look at but not change. -/
structure Context where
  catalogue : Catalogue := {}
  bodies : Array ScriptBody := #[]
  /-- The least severe notes that are kept. -/
  traceLimit : Option Severity := none

abbrev Exec (ε : Type) := ReaderT Context (EStateM ε Machine)

namespace Exec

variable {ε δ α : Type}

def mapError (f : ε → δ) (x : Exec ε α) : Exec δ α := fun w m =>
  match x w m with
  | .ok a m => .ok a m
  | .error e m => .error (f e) m

def attempt (x : Exec ε α) : Exec δ (Except ε α) := fun w m =>
  match x w m with
  | .ok a m => .ok (.ok a) m
  | .error e m => .ok (.error e) m

def ofTotal (x : Exec Empty α) : Exec ε α := fun w m =>
  match x w m with
  | .ok a m => .ok a m

def catalogue : Exec ε Catalogue := return (← read).catalogue

def typeInfo (h : Handle) : Exec ε TypeInfo := return (← catalogue).info h

def emit (e : Event) : Exec ε Unit := modify fun m => { m with journal := e :: m.journal }

def trace (severity : Severity) (note : Unit → Trace) : Exec ε Unit := do
  match (← read).traceLimit with
  | some limit => if severity.reaches limit then emit (.traced (note ())) else pure ()
  | none => pure ()

def modifyMemory (f : Memory → Memory) : Exec ε Unit := modify fun m =>
  { m with memory := f m.memory }

def memory : Exec ε Memory := return (← get).memory

def modifyCare (f : Care → Care) : Exec ε Unit := modify fun m => { m with care := f m.care }

/-- A new place apart from the stack. Storage of no size has no place of its own: its address is its
alignment. -/
def allocate (l : Layout) : Exec ε Place := modifyGet fun m =>
  let (block, memory) := m.memory.reserve 1
  (⟨block, 0, .apart (if l.size = 0 then l.align else 0)⟩, { m with memory })

def free (p : Place) : Exec ε Unit := modifyMemory (·.free p.block)

end Exec

namespace Machine

def interpreter (m : Machine) (seat : Seat) : Interpreter :=
  match seat with
  | .own => m.own
  | .spare => m.spare

def modifyInterpreter (m : Machine) (seat : Seat) (f : Interpreter → Interpreter) : Machine :=
  match seat, m with
  | .own, { memory, journal, own, spare, current, counts, care, watch } =>
    { memory, journal, own := f own, spare, current, counts, care, watch }
  | .spare, { memory, journal, own, spare, current, counts, care, watch } =>
    { memory, journal, own, spare := f spare, current, counts, care, watch }

def seat (m : Machine) : Seat := m.current.getD .spare

def watchUse (m : Machine) (place : Place) (type : TypeId) : Machine :=
  { m with watch.uses := ⟨place, type, m.care.alive⟩ :: m.watch.uses }

def watchReference (m : Machine) (place : Place) : Machine :=
  if m.care.covers place then m else { m with watch.dangling := place :: m.watch.dangling }

def watchResult (m : Machine) (result : Option Value) : Machine :=
  match result with
  | none => m
  | some v =>
    if v.isOwning then m
    else match v.place? with
      | some place => m.watchReference place
      | none => m

end Machine

mutual

/-- Ends a value: what its destructor tells, in order. -/
def Destructor.events (m : Memory) : Destructor → Place → List Event
  | .silent, p => [.destroyed .nothing p]
  | .counted, p =>
    match m.read p (.int .i32) with
    | .int n => [.destroyed (.number n) p]
    | _ => [.destroyed .nothing p]
  | .labelled label, p => [.destroyed (.label label) p]
  | .parts ds, p => partEvents m ds p

def Destructor.partEvents (m : Memory) : List (Nat × Destructor) → Place → List Event
  | [], _ => []
  | (offset, d) :: rest, p => partEvents m rest p ++ events m d (p.shift offset)

end

namespace Exec

variable {ε : Type}

def destroy (destructor : Option Destructor) (p : Place) : Exec ε Unit :=
  match destructor with
  | none => pure ()
  | some d => modify fun m =>
    { m with journal := (d.events m.memory p).reverse ++ m.journal }

def endCharge (destructor : Option Destructor) (v : Charge) : Exec ε Unit := do
  destroy destructor v.place
  modifyCare (·.lose v)

def drop (v : Value) : Exec ε Unit :=
  match v.held with
  | .owned place _ destructor => do
    endCharge destructor ⟨place, v.type⟩
    free place
  | _ => pure ()

/-- Moves an owned value's data to a place and gives up its storage; tells whether it was owned. -/
def relocate (v : Value) (target : Place) : Exec ε Bool :=
  match v.held with
  | .owned place size _ => do
    modifyMemory (·.transfer place target size)
    modifyCare (·.lose ⟨place, v.type⟩)
    free place
    return true
  | _ => return false

def adopt (type : TypeId) (p : Place) (size : Nat) (destructor : Option Destructor) :
    Exec ε Value := do
  modifyCare (·.take ⟨p, type⟩)
  return .owned type p size destructor

end Exec

end Flowscript
