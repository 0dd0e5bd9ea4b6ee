import Flowscript.Machine.Lifecycle
import Flowscript.Run.Frame

/-! # Activations

A running call: the program, its frame and the machine. Computations of a call fail with script
errors; the frame as it was when they failed is still there to be cleaned up.
-/
namespace Flowscript

structure Activation where
  frame : Frame
  machine : Machine

/-- What a running call can look at but not change. -/
structure Scope where
  context : Context
  program : Program
  /-- The interpreter the call runs on. -/
  seat : Seat
  /-- The data of the argument the function belongs to. -/
  this : Option Place

abbrev Run := ReaderT Scope (EStateM ScriptError Activation)

def callFailed (message : String) : ScriptError := { kind := .functionCallFailed, message }

def valueWasNull (message : String) : ScriptError := { kind := .valueWasNull, message }

def nullInput (id : PinId) : ScriptError := (valueWasNull "input had no value").atPin id

namespace Run

variable {ε α : Type}

def lift (f : ε → ScriptError) (x : Exec ε α) : Run α := fun s ⟨frame, machine⟩ =>
  match x s.context machine with
  | .ok a machine => .ok a ⟨frame, machine⟩
  | .error e machine => .error (f e) ⟨frame, machine⟩

def liftTotal (x : Exec Empty α) : Run α := fun s ⟨frame, machine⟩ =>
  match x s.context machine with
  | .ok a machine => .ok a ⟨frame, machine⟩

def andFinally (x : Run α) (after : Exec Empty Unit) : Run α := fun s a =>
  match x s a with
  | .ok r ⟨frame, machine⟩ =>
    match after s.context machine with
    | .ok _ machine => .ok r ⟨frame, machine⟩
  | .error e ⟨frame, machine⟩ =>
    match after s.context machine with
    | .ok _ machine => .error e ⟨frame, machine⟩

def mapError (f : ScriptError → ScriptError) (x : Run α) : Run α := fun s a =>
  match x s a with
  | .ok r a => .ok r a
  | .error e a => .error (f e) a

def attempt (x : Run α) : Run (Except ScriptError α) := fun s a =>
  match x s a with
  | .ok r a => .ok (.ok r) a
  | .error e a => .ok (.error e) a

def frame : Run Frame := return (← get).frame

def modifyFrame (f : Frame → Frame) : Run Unit := modify fun ⟨frame, machine⟩ => ⟨f frame, machine⟩

def program : Run Program := return (← read).program

def interpreter : Run Interpreter := do
  let s ← read
  return (← get).machine.interpreter s.seat

def modifyInterpreter (f : Interpreter → Interpreter) : Run Unit := do
  let s ← read
  modify fun ⟨frame, machine⟩ => ⟨frame, machine.modifyInterpreter s.seat f⟩

def memory : Run Memory := return (← get).machine.memory

def noteNode (message : String) (n : ProgramNode) : Run Unit := do
  let s ← read
  match s.context.traceLimit with
  | none => pure ()
  | some _ =>
    liftTotal (Exec.trace .debug fun _ => ⟨.debug, message,
      [("function", .str s.program.name), ("node", .str n.id.text), ("kind", .str n.label)]⟩)

def tick : Run Unit := do
  let i ← interpreter
  let steps := min (i.steps + 1) 0xffffffff
  if steps > i.settings.maxSteps then
    modifyInterpreter fun i => { i with steps }
    throw { kind := .executionTimeOut, message := s!"exceeded {i.settings.maxSteps} execution steps" }
  else
    modifyInterpreter fun i => { i with steps, visits := i.visits + 1 }

def node (id : NodeId) : Run ProgramNode := do
  match (← program).node? id with
  | some n => return n
  | none => throw (Program.bug s!"{id.text} is missing")

def pin (id : PinId) : Run ProgramPin := do
  match (← program).pin? id with
  | some p => return p
  | none => throw (Program.bug s!"{id.text} is missing")

def pinType (id : PinId) : Run TypeInfo := do
  match (← pin id).type with
  | some h => return (← read).context.catalogue.info h
  | none => throw ((Program.bug s!"{id.text} is not a data pin").atPin id)

def nth (pins : List PinId) (index : Nat) : Run PinId :=
  match pins[index]? with
  | some id => return id
  | none => throw (Program.bug s!"node is missing pin {index}")

def target (output : PinId) : Run (Option PinId) := return (← pin output).target

def storage? (id : PinId) : Run (Option Place) := do
  return (← frame).storage? (← program) id

def storage (id : PinId) (missing : String) : Run Place := do
  match ← storage? id with
  | some place => return place
  | none => throw (Program.bug missing)

def clear (id : PinId) : Run Unit := do
  let p ← program
  let f ← frame
  if f.state id = .owned then
    match f.storage? p id, (p.pin? id).bind (·.type) with
    | some place, some h =>
      let t := (← read).context.catalogue.info h
      liftTotal (Exec.endCharge t.destructor ⟨place, t.id⟩)
    | _, _ => pure ()
  modifyFrame (·.set id .empty)

/-- The value that a pin's own storage holds, or has room for. -/
def charge? (id : PinId) : Run (Option Charge) := do
  let s ← read
  return (← frame).charge? s.context.catalogue s.program id

def setOwned (id : PinId) : Run Unit := do
  match ← charge? id with
  | some v => liftTotal (Exec.modifyCare (·.take v))
  | none => pure ()
  modifyFrame (·.set id .owned)

def setBorrowed (id : PinId) (place : Place) : Run Unit := do
  clear id
  modifyFrame (·.set id (.borrowed place))

def setNull (id : PinId) : Run Unit := do
  clear id
  modifyFrame (·.set id .null)

def forget (id : PinId) : Run Unit := modifyFrame (·.set id .empty)

def readInt (id : PinId) : Run Int := do
  match (← frame).value? (← program) id with
  | some place =>
    match (← memory).read place (.int .i32) with
    | .int n => return n
    | _ => return 0
  | none => return 0

def writeInt (id : PinId) (n : Int) : Run Unit := do
  clear id
  match ← storage? id with
  | some place =>
    liftTotal (Exec.modifyMemory (·.write place (.int .i32) (.int n)))
    setOwned id
  | none => pure ()

def allocTemp (l : Layout) : Run (Option Place) := do
  match (← interpreter).stack.alloc? l with
  | none => return none
  | some (start, stack) =>
    modifyInterpreter fun i => { i with stack }
    modifyGet fun ⟨frame, machine⟩ =>
      let (block, memory) := machine.memory.reserve 1
      (some ⟨block, 0, .stack start⟩, ⟨frame, { machine with memory }⟩)

/-- Gives back the room taken on the stack by a computation, whether it failed or not. -/
def withStack (x : Run α) : Run α := do
  let mark := (← interpreter).stack.used
  let seat := (← read).seat
  x.andFinally (modify (·.modifyInterpreter seat fun i => { i with stack := i.stack.rewind mark }))

def copyTemp (invoke : Invoke) (t : TypeInfo) (source : Place) : Run Place := do
  match ← allocTemp t.layout with
  | none =>
    throw { kind := .stackOverflow, message := "interpreter stack exhausted by call arguments" }
  | some temp =>
    lift (fun e => callFailed s!"copying `{t.name}` failed: {e.message}")
      (invoke.copyAt t temp source)
    liftTotal (Exec.modifyCare (·.take ⟨temp, t.id⟩))
    return temp

end Run

end Flowscript
