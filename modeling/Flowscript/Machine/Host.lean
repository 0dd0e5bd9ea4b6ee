import Flowscript.Machine.Lifecycle
import Flowscript.Machine.Native

/-! # Functions of the host

What the host does when it is called: it may note the call, then produces its result, fails, reads
or changes an argument, tells something about the interpreter, or calls back.
-/
namespace Flowscript.HostFunction

open Exec

variable (invoke : Invoke)

def resultType (f : Function) : Exec CallError TypeInfo := do
  let c ← catalogue
  match f.result.bind fun r => c.lookup? r.type with
  | some t => return t
  | none => throw (.host "host: return type is not registered")

def argumentPlace (args : List Value) (index : Nat) : Exec CallError Place :=
  match args[index]?.bind Value.place? with
  | some place => return place
  | none => throw (.host "host: argument is null")

def produceResult (f : Function) (ret : Option Place) (init : TypeInfo → Place → Exec CallError Unit) :
    Exec CallError (Option Value) := do
  let t ← resultType f
  produce t.id t.layout t.destructor ret (init t)

def countCall (counter : Nat) : Exec CallError Int := modifyGet fun m =>
  let n := (m.counts.lookup counter).getD 0 + 1
  (n, { m with counts := (counter, n) :: m.counts.filter (·.1 != counter) })

/-- Moves an owned result into the caller's storage. -/
def settle (ret : Option Place) (v : Option Value) : Exec CallError (Option Value) :=
  match ret, v with
  | some place, some v => do
    if ← relocate v place then return none else return some v
  | _, v => return v

def report (outcome : Except CallError (Option Value)) : Exec CallError Unit :=
  match outcome with
  | .ok v => do
    emit (.tried none)
    v.forM drop
  | .error e => emit (.tried (some e.message))

def i32Shape : Shape := .ofPrim "i32" (.int .i32)

def perform (h : HostFunction) (f : Function) (args : List Value) (ret : Option Place) :
    Exec CallError (Option Value) :=
  match h.outcome with
  | .nothing => return none
  | .decoded j => produceResult f ret fun t place => invoke.decodeAt t j place
  | .owned j => produceResult f none fun t place => invoke.decodeAt t j place
  | .copy index => do
    let source ← argumentPlace args index
    produceResult f ret fun t place => invoke.copyAt t place source
  | .zeroed => produceResult f ret fun t place => modifyMemory (·.clear place t.layout.size)
  | .bytes index => do
    let source ← argumentPlace args index
    produceResult f ret fun t place => modifyMemory (·.transfer source place t.layout.size)
  | .fail message => throw (.host message)
  | .null =>
    match f.result with
    | some r => return some (.null r.type r.form)
    | none => return none
  | .argument index =>
    match f.result, args[index]? with
    | some r, some v => return some (v.view r.form)
    | _, _ => return none
  | .readInt index => do
    let data ← NativeOp.argumentData i32Shape args index
    giveBack i32Shape none ret data
  | .increment index amount => do
    let place ← changeArgument i32Shape args index
    match (← memory).read place (.int .i32) with
    | .int n =>
      modifyMemory (·.write place (.int .i32) (.int (IntKind.i32.wrap (n + amount))))
      return none
    | _ => return none
  | .count => do
    let n ← countCall h.counter
    giveBack i32Shape none ret [.int (IntKind.i32.wrap n)]
  | .world => do
    let m ← get
    emit (.world ((m.interpreter m.seat).world.map (·.1)))
    return none
  | .stack => do
    let m ← get
    emit (.stackUsed (m.interpreter m.seat).stack.used)
    return none
  | .callback type function => do
    settle ret (← invoke.callNamed type function args)
  | .tryCallback type function message => do
    report (← attempt (invoke.callNamed type function args))
    match message with
    | some text => throw (.host text)
    | none => return none

def run (h : HostFunction) (f : Function) (args : List Value) (ret : Option Place) :
    Exec CallError (Option Value) := do
  if h.record then emit (.called f.name (← args.mapM document))
  h.perform invoke f args ret

end Flowscript.HostFunction
