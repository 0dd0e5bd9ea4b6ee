import Mathlib.Algebra.Group.Nat.Defs
import Flowscript.Proofs.Run.InputMeanings

/-! # Evaluation without a cache

An evaluator may reuse what a slot holds, or compute every expression anew. In an audited run, every
input that a statement pulls is also pulled by an evaluator that never reuses anything, in the state that
the statement has got to. Where the two are not given the same, the audited run breaks off.
-/
namespace Flowscript

open Exec

def Machine.unfailed (m : Machine) : Machine :=
  { m with
    own := { m.own with nestedFailure := none }
    spare := { m.spare with nestedFailure := none } }

/-- The call as if no nested call had failed. -/
def Activation.unfailed (a : Activation) : Activation := ⟨a.frame, a.machine.unfailed⟩

/-- A computation failed because a budget was used up. -/
def ScriptError.Starved (e : ScriptError) (m : Machine) : Prop := e.kind.isBudget = true ∨ m.Starved

namespace Run

section Pulls

variable (invoke : Invoke) (reuse : Frame → PinId → Bool) (pull : Pull)

/-- The data of an output, where expressions are computed unless `reuse` says otherwise. -/
def pullOutputBy (output : PinId) : Run (Option Place) := do
  let n ← node (← pin output).node
  match n.op with
  | .reroute => do pull (← nth n.dataIn 0)
  | _ =>
    if n.pure then
      if !reuse (← frame) output then evaluate invoke pull n
    else if !(← frame).isFilled output then
      throw ((({ kind := .linkNotAllowed
                 message := s!"output of {n.label} was read before the node ran" : ScriptError }).atNode
                n.id).atPin output)
    return (← frame).value? (← program) output

def supplyBy (id : PinId) : Run (Option Place) := do
  match (← pin id).source with
  | some output => pullOutputBy invoke reuse pull output
  | none => fallback invoke id

def pullStepBy (id : PinId) : Run (Option Place) := do
  let data ← supplyBy invoke reuse pull id
  watchInput id data
  return data

def pullWithinBy : Nat → Pull
  | 0 => fun id => throw ((Program.bug "pulls are nested too deeply").atPin id)
  | depth + 1 => pullStepBy invoke reuse (pullWithinBy depth)

/-- The data of an input, where every expression is computed anew. -/
def pullAfresh (id : PinId) : Run (Option Place) := do
  pullWithinBy invoke (fun _ _ => false) ((← program).pins.size + 1) id

end Pulls

section Audit

variable (N : Notion) (invoke : Invoke)

/-- An input is given the same in two ways, at the same place. One of them may use up a budget. -/
def Consistent (sc : Scope) (id : PinId) (x y : EStateM.Result ScriptError Activation (Option Place)) :
    Prop :=
  match x, y with
  | .ok data a, .ok data' b => data' = data ∧ ∀ place type, data = some place →
      sc.program.typeOf sc.context.catalogue id = some type →
        N.data b.machine.memory type place = N.data a.machine.memory type place
  | .ok _ _, .error e b => e.Starved b.machine
  | .error e a, .ok _ _ => e.Starved a.machine
  | .error _ _, .error _ _ => True

open Classical in
/-- Pulls an input, unless an evaluator without a cache would give it something else. What nested calls
have failed before does not count. -/
noncomputable def audit (pull : Pull) : Pull := fun id sc a =>
  if ∀ b, b = a ∨ b = a.unfailed → Consistent N sc id (pull id sc b) (pullAfresh invoke id sc b) then
    pull id sc a
  else .error ((Program.bug "the cache is out of date").atPin id) a

noncomputable def auditedWithin : Nat → Pull
  | 0 => pullWithin invoke 0
  | depth + 1 => audit N invoke (pullStep invoke (auditedWithin depth))

noncomputable def auditedInput : Pull := fun id => do
  auditedWithin N invoke ((← program).pins.size + 1) id

end Audit

section Statements

variable (invoke : Invoke) (pull : Pull)

def pullAtomBy (id : PinId) (name : String) (prim : Prim) : Run Atom := do
  match ← pull id with
  | none => throw (nullInput id)
  | some place =>
    expectType id name
    return (← memory).read place prim

def pullBoolBy (id : PinId) : Run Bool := return (← pullAtomBy pull id "bool" .bool) == .bool true

def visitWhileBy (n : ProgramNode) (via : Option PinId) : Run (Option PinId) := do
  let break' ← nth n.flowIn 1
  let body ← nth n.flowOut 0
  let completed ← nth n.flowOut 1
  if via = some break' then complete n completed
  else
    if via.isSome then modifyFrame (·.enterLoop (.whileLoop n.id))
    if ← pullBoolBy pull (← nth n.dataIn 0) then target body else complete n completed

def setFieldBy (n : ProgramNode) (offset : Nat) (type : Handle) : Run Unit := do
  let owner ← pullTarget pull n
  let id ← nth n.dataIn 1
  match ← pull id with
  | none => throw ((valueWasNull "no value to store").atPin id)
  | some source =>
    let t := (← read).context.catalogue.info type
    withStack do
      let temp ← (copyTemp invoke t source).mapError (·.atNode n.id)
      let field := owner.shift offset
      liftTotal do
        Exec.destroy t.destructor field
        Exec.modifyMemory (·.transfer temp field t.layout.size)
        Exec.modifyCare (·.lose ⟨temp, t.id⟩)
        Exec.free temp

def finishBy (n : ProgramNode) (ret : Option Place) : Run (Option Value) := do
  match (← program).result with
  | none => return none
  | some (h, form) =>
    let t := (← read).context.catalogue.info h
    let id ← nth n.dataIn 0
    let value ← pull id
    if form.isOwning then
      match value with
      | none => throw (nullInput id)
      | some source =>
        produce t ret fun place => (handOver invoke t source place).mapError (·.atNode n.id)
    else
      match value with
      | none => if form.isPointer then return some (.null t.id form) else throw (nullInput id)
      | some place =>
        if finish.endsWithCall (← interpreter).stack (← frame).mark place then
          throw ((({ kind := .linkNotAllowed
                     message := "returns a reference to a value that ends with the call"
                     : ScriptError }).atNode n.id).atPin id)
        else return some (.borrowed t.id form place)

/-- Runs one statement, which pulls its inputs by `pull` unless it visits a counting loop. -/
def statementBy (ret : Option Place) (arrival : Arrival) : Run Outcome := do
  match arrival with
  | .again marker =>
    let n ← node marker.node
    noteNode "Executing node" n
    match marker with
    | .forLoop _ => return .next (← visitFor invoke n none)
    | .whileLoop _ => return .next (← visitWhileBy pull n none)
  | .through id =>
    let n ← node (← pin id).node
    noteNode "Executing node" n
    match n.op with
    | .ret => return .done (← finishBy invoke pull n ret)
    | .call f =>
      callNode invoke pull n f
      return .next (← target (← nth n.flowOut 0))
    | .fieldSet offset type =>
      setFieldBy invoke pull n offset type
      return .next (← target (← nth n.flowOut 0))
    | .branch =>
      let condition ← pullBoolBy pull (← nth n.dataIn 0)
      return .next (← target (← nth n.flowOut (if condition then 0 else 1)))
    | .forLoop => return .next (← visitFor invoke n (some id))
    | .whileLoop => return .next (← visitWhileBy pull n (some id))
    | .reroute => return .next (← target (← nth n.flowOut 0))
    | .entry | .fieldGet .. | .comment =>
      throw ((Program.bug s!"{n.label} is not a statement").atNode n.id)

end Statements

section Run

variable (N : Notion) (invoke : Invoke)

open Classical in
/-- Chooses a pull at the beginning of a statement: audited if the count of statements has not started
over, and if no settled output holds a reference into storage that is filled anew. -/
noncomputable def auditing (k : Nat) (x : Pull → Run α) : Run α := fun sc a =>
  if k < 2 ^ 32 ∧ a.Detached sc then x (auditedInput N invoke) sc a else x (pullInput invoke) sc a

noncomputable def auditedStatements (ret : Option Place) : Nat → Nat → Option PinId → Run (Option Value)
  | 0, _, _ => throw { kind := .executionTimeOut, message := "exceeded the execution steps" }
  | fuel + 1, k, next => do
    match arrival? next (← frame) with
    | none => finishEmpty invoke ret
    | some arrival =>
      tick
      match ← auditing N invoke k fun pull => statementBy invoke pull ret arrival with
      | .done result => return result
      | .next next =>
        modifyFrame fun f => { f with statements := f.statements + 1 }
        auditedStatements ret fuel (k + 1) next

noncomputable def auditedBody (args : List Value) (ret : Option Place) : Run (Option Value) := do
  let p ← program
  let entry ← node p.entry
  bindArguments 0 entry.dataOut (args.drop p.implicitArgs)
  if p.pure then
    tick
    match p.returnNode with
    | none => throw (Program.bug "pure function without a Return node")
    | some id => do
      let n ← node id
      auditing N invoke 0 fun pull => finishBy invoke pull n ret
  else
    let next ← match entry.flowOut.head? with
      | some output => target output
      | none => pure none
    auditedStatements N invoke ret patience 0 next

end Run

section Same

variable {invoke : Invoke}

theorem pullStepBy_isFresh (pull : Pull) : pullStepBy invoke isFresh pull = pullStep invoke pull := rfl

theorem finishBy_pullInput (n : ProgramNode) (ret : Option Place) :
    finishBy invoke (pullInput invoke) n ret = finish invoke n ret := rfl

theorem statementBy_pullInput (ret : Option Place) (arrival : Arrival) :
    statementBy invoke (pullInput invoke) ret arrival = statement invoke ret arrival := rfl

end Same

end Run

namespace Program

variable (body : List Value → Option Place → Run (Option Value))

/-- Runs a body in a frame, which is given back afterwards. -/
def runInWith (p : Program) (seat : Seat) (args : List Value) (ret : Option Place) (frame : Frame) :
    Exec ScriptError (Option Value) := fun context machine =>
  let scope := p.scope seat args context
  match body args ret scope ⟨frame, machine⟩ with
  | .ok v a => .ok v ((closeFrame scope a).watchResult v)
  | .error e a => .error e (closeFrame scope a)

def runFramedWith (p : Program) (seat : Seat) (args : List Value) (ret : Option Place) :
    Exec ScriptError (Option Value) := do
  if args.length ≠ p.arity then
    throw (callFailed s!"expects {p.arity} argument(s), got {args.length}")
  else
    let frame ← takeFrame p seat
    runInWith body p seat args ret frame

def executeWith (p : Program) (seat : Seat) (args : List Value) (ret : Option Place) :
    Exec ScriptError (Option Value) := do
  let current := (← get).current
  let before := (← get).interpreter seat
  modify (p.enter seat args)
  let outcome ← attempt (mapError (·.within p.script p.name) (runFramedWith body p seat args ret))
  conclude p seat current before outcome

theorem executeWith_body (invoke : Invoke) (p : Program) (seat : Seat) (args : List Value)
    (ret : Option Place) : p.executeWith (Run.body invoke) seat args ret = p.execute invoke seat args ret :=
  rfl

end Program

end Flowscript
