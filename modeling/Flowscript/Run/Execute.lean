import Flowscript.Machine.Host
import Flowscript.Run.Statement

/-! # Executing programs and calling functions

A call takes a frame from the stack, runs, and gives everything back: the frame, the step in depth,
the world and the seat at the machine are afterwards what they were before.
-/
namespace Flowscript

open Exec

namespace Program

variable (invoke : Invoke)

def takeFrame (p : Program) (seat : Seat) : Exec ScriptError Frame := do
  let i := (← get).interpreter seat
  match Frame.take? p i.stack with
  | (none, stack) =>
    modify (·.modifyInterpreter seat fun i => { i with stack })
    throw { kind := .stackOverflow
            message := s!"interpreter stack exhausted ({stack.used} of {stack.capacity} bytes in use)" }
  | (some base, stack) =>
    modify (·.modifyInterpreter seat fun i => { i with stack })
    modifyGet fun m =>
      let (firstBlock, memory) := m.memory.reserve p.pins.size
      ({ slots := Array.replicate p.pins.size {}, firstBlock, base, mark := i.stack.used },
        { m with memory })

def giveFrame (seat : Seat) (f : Frame) (m : Machine) : Machine :=
  let m := m.modifyInterpreter seat fun i => { i with stack := i.stack.rewind f.mark }
  { m with memory := (List.range' f.firstBlock f.slots.size).foldl Memory.free m.memory }

/-- Empties the frame of a call that has ended and gives it back. -/
def closeFrame (scope : Scope) (a : Activation) : Machine :=
  match Run.clearAll scope.program.pins.size scope a with
  | .ok _ ⟨frame, machine⟩ => giveFrame scope.seat frame machine
  | .error _ ⟨frame, machine⟩ => giveFrame scope.seat frame machine

def scope (p : Program) (seat : Seat) (args : List Value) (context : Context) : Scope :=
  { context, program := p, seat, this := (p.thisIndex?.bind fun i => args[i]?).bind Value.place? }

def runIn (p : Program) (seat : Seat) (args : List Value) (ret : Option Place) (frame : Frame) :
    Exec ScriptError (Option Value) := fun context machine =>
  let scope := p.scope seat args context
  match Run.body invoke args ret scope ⟨frame, machine⟩ with
  | .ok v a => .ok v ((closeFrame scope a).watchResult v)
  | .error e a => .error e (closeFrame scope a)

def runFramed (p : Program) (seat : Seat) (args : List Value) (ret : Option Place) :
    Exec ScriptError (Option Value) := do
  if args.length ≠ p.arity then
    throw (callFailed s!"expects {p.arity} argument(s), got {args.length}")
  else
    let frame ← takeFrame p seat
    runIn invoke p seat args ret frame

/-- The world that a call's first argument is, if the function has one. -/
def worldOf (p : Program) (args : List Value) : Option (Option (TypeId × Place)) :=
  if p.hasWorld then args.head?.map fun v => v.place?.map (v.type, ·) else none

def recordFailure (p : Program) (seat : Seat) (nested : Bool) (e : ScriptError) :
    Exec Empty Unit := do
  if nested then
    trace .debug fun _ => ⟨.debug, "Nested call failed",
      [("function", .str p.name), ("kind", .str e.kind.text)]⟩
    modify (·.modifyInterpreter seat fun i => { i with nestedFailure := some e })
  else
    trace .error fun _ => ⟨.error, s!"Script execution failed: {e.message}",
      [("function", .str p.name), ("kind", .str e.kind.text), ("location", .str e.location.text)]⟩

/-- Takes the seat for a call. A call that is not nested starts with a new budget. -/
def enter (p : Program) (seat : Seat) (args : List Value) (m : Machine) : Machine :=
  { m.modifyInterpreter seat fun i =>
    { i with
      steps := if i.depth > 0 then i.steps else 0
      visits := if i.depth > 0 then i.visits else 0
      depth := i.depth + 1
      world := (p.worldOf args).getD i.world } with current := some seat }

def leave (seat : Seat) (current : Option Seat) (world : Option (TypeId × Place)) (m : Machine) :
    Machine :=
  { m.modifyInterpreter seat fun i => { i with depth := i.depth - 1, world } with current }

/-- Ends a call, which may have failed, and gives back what it took. -/
def conclude (p : Program) (seat : Seat) (current : Option Seat) (before : Interpreter)
    (outcome : Except ScriptError (Option Value)) : Exec ScriptError (Option Value) :=
  match outcome with
  | .ok v => do
    modify (leave seat current before.world)
    return v
  | .error e => do
    ofTotal (recordFailure p seat (before.depth > 0) e)
    modify (leave seat current before.world)
    throw e

/-- Executes a program on an interpreter. The arguments are the world and the owner of the function,
as far as it has them, then the parameters. -/
def execute (p : Program) (seat : Seat) (args : List Value) (ret : Option Place) :
    Exec ScriptError (Option Value) := do
  let current := (← get).current
  let before := (← get).interpreter seat
  modify (p.enter seat args)
  let outcome ← attempt (mapError (·.within p.script p.name) (runFramed invoke p seat args ret))
  conclude p seat current before outcome

end Program

def readyProgram (number : Nat) : Exec CallError Program := do
  match (← read).bodies[number]? with
  | none => throw .tooDeep
  | some body =>
    match body.state with
    | .pending => throw (.pending body.name)
    | .failed reason => throw (.failedToCompile body.name reason)
    | .unloaded => throw (.unloaded body.name)
    | .ready p => return p

def runScript (invoke : Invoke) (number : Nat) (args : List Value) (ret : Option Place) :
    Exec CallError (Option Value) := do
  let p ← readyProgram number
  let seat := (← get).seat
  mapError .script (p.execute invoke seat args ret)

def Function.run (invoke : Invoke) (f : Function) (args : List Value) (ret : Option Place) :
    Exec CallError (Option Value) :=
  match f.body with
  | .native op shape destructor => op.run shape destructor args ret
  | .aggregate op whole => op.run invoke whole args ret
  | .host h => h.run invoke f args ret
  | .script number => runScript invoke number args ret

/-- Checks the arguments of a function and calls it; calls nest at most so deep. -/
def invokeWithin : Nat → Invoke
  | 0 => fun _ _ _ => throw .tooDeep
  | depth + 1 => fun f args ret =>
    match f.check (args.map Value.argument) with
    | .ok () => f.run (invokeWithin depth) args ret
    | .error e => throw e

def callDepth : Nat := 0x1000000

def invoke : Invoke := invokeWithin callDepth

end Flowscript
