import Flowscript.Run.Pull

/-! # Running statements

Statements run in the order of flow links. When a chain of statements ends inside a loop, the loop is
visited again; when it ends outside, the function returns.
-/
namespace Flowscript.Run

variable (invoke : Invoke)

def expectType (id : PinId) (name : String) : Run Unit := do
  let t ← pinType id
  if t.name ≠ name then
    throw ((Program.bug s!"expected a `{name}` pin, found `{t.name}`").atPin id)

def pullAtom (id : PinId) (name : String) (prim : Prim) : Run Atom := do
  match ← pullInput invoke id with
  | none => throw (nullInput id)
  | some place =>
    expectType id name
    return (← memory).read place prim

def pullBool (id : PinId) : Run Bool := return (← pullAtom invoke id "bool" .bool) == .bool true

def pullInt (id : PinId) : Run Int := do
  match ← pullAtom invoke id "i32" (.int .i32) with
  | .int n => return n
  | _ => return 0

def complete (n : ProgramNode) (completed : PinId) : Run (Option PinId) := do
  modifyFrame (·.exitLoop n.id)
  target completed

/-- Visits a counting loop, through one of its inputs or after its body. The index starts at the start
and grows by one on each visit after the body; the end is read on every visit. -/
def visitFor (n : ProgramNode) (via : Option PinId) : Run (Option PinId) := do
  let break' ← nth n.flowIn 1
  let index ← nth n.dataOut 0
  let body ← nth n.flowOut 0
  let completed ← nth n.flowOut 1
  if via = some break' then complete n completed
  else
    match via with
    | some _ =>
      let start ← pullInt invoke (← nth n.dataIn 0)
      writeInt index start
      modifyFrame (·.enterLoop (.forLoop n.id))
    | none =>
      let current ← readInt index
      writeInt index (min (current + 1) 0x7fffffff)
    let stop ← pullInt invoke (← nth n.dataIn 1)
    if (← readInt index) ≥ stop then complete n completed else target body

def visitWhile (n : ProgramNode) (via : Option PinId) : Run (Option PinId) := do
  let break' ← nth n.flowIn 1
  let body ← nth n.flowOut 0
  let completed ← nth n.flowOut 1
  if via = some break' then complete n completed
  else
    if via.isSome then modifyFrame (·.enterLoop (.whileLoop n.id))
    if ← pullBool invoke (← nth n.dataIn 0) then target body else complete n completed

/-- Writes a copy of a value into a field; the value that was there ends first. -/
def setField (n : ProgramNode) (offset : Nat) (type : Handle) : Run Unit := do
  let owner ← pullTarget (pullInput invoke) n
  let id ← nth n.dataIn 1
  match ← pullInput invoke id with
  | none => throw ((valueWasNull "no value to store").atPin id)
  | some source =>
    let t := (← read).context.catalogue.info type
    withStack do
      let temp ← (copyTemp invoke t source).mapError (·.atNode n.id)
      let field := owner.shift offset
      liftTotal do
        Exec.destroy t.destructor field
        Exec.modifyMemory (·.transfer temp field t.layout.size)
        Exec.modifyCare (·.lose ⟨temp, t.id⟩)
        Exec.free temp

/-- Moves the value at a place out of the frame, or copies one that the frame does not own. -/
def handOver (t : TypeInfo) (source target : Place) : Run Unit := do
  match (← frame).owner? (← program) source with
  | some owner =>
    let released ← charge? owner
    liftTotal do
      Exec.modifyMemory (·.transfer source target t.layout.size)
      Exec.modifyCare (·.handOver ⟨source, t.id⟩ released)
    forget owner
  | none =>
    lift (fun e => callFailed s!"returning `{t.name}` failed: {e.message}")
      (invoke.copyAt t target source)

/-- Constructs a result in the storage of the caller, or in storage of its own. -/
def produce (t : TypeInfo) (ret : Option Place) (init : Place → Run Unit) : Run (Option Value) := do
  match ret with
  | some place =>
    init place
    return none
  | none =>
    let place ← liftTotal (Exec.allocate t.layout)
    match ← attempt (init place) with
    | .ok () => return some (← liftTotal (Exec.adopt t.id place t.layout.size t.destructor))
    | .error e =>
      liftTotal (Exec.free place)
      throw e

def finish (n : ProgramNode) (ret : Option Place) : Run (Option Value) := do
  match (← program).result with
  | none => return none
  | some (h, form) =>
    let t := (← read).context.catalogue.info h
    let id ← nth n.dataIn 0
    let value ← pullInput invoke id
    if form.isOwning then
      match value with
      | none => throw (nullInput id)
      | some source =>
        produce t ret fun place => (handOver invoke t source place).mapError (·.atNode n.id)
    else
      match value with
      | none => if form.isPointer then return some (.null t.id form) else throw (nullInput id)
      | some place =>
        if endsWithCall (← interpreter).stack (← frame).mark place then
          throw ((({ kind := .linkNotAllowed
                     message := "returns a reference to a value that ends with the call"
                     : ScriptError }).atNode n.id).atPin id)
        else return some (.borrowed t.id form place)
where
  /-- Whether a place lies on the part of the stack that the call has taken. -/
  endsWithCall (stack : BumpStack) (mark : Nat) (place : Place) : Bool :=
    match place.address with
    | .stack offset => stack.containsSince mark offset
    | .apart _ => false

def finishEmpty (ret : Option Place) : Run (Option Value) := do
  match (← program).result with
  | none => return none
  | some (h, form) =>
    let t := (← read).context.catalogue.info h
    if form.isPointer then return some (.null t.id form)
    else if !form.isOwning || !t.traits.default then
      throw (valueWasNull s!"execution ended without returning a `{t.name}`")
    else
      produce t ret fun place =>
        lift (fun e => callFailed s!"constructing `{t.name}` failed: {e.message}")
          (invoke.defaultAt t place)

/-- How execution comes to a node. -/
inductive Arrival where
  | through (pin : PinId)
  | again (marker : LoopMarker)

inductive Outcome where
  | next (pin : Option PinId)
  | done (result : Option Value)

def statement (ret : Option Place) (arrival : Arrival) : Run Outcome := do
  match arrival with
  | .again marker =>
    let n ← node marker.node
    noteNode "Executing node" n
    match marker with
    | .forLoop _ => return .next (← visitFor invoke n none)
    | .whileLoop _ => return .next (← visitWhile invoke n none)
  | .through id =>
    let n ← node (← pin id).node
    noteNode "Executing node" n
    match n.op with
    | .ret => return .done (← finish invoke n ret)
    | .call f =>
      callNode invoke (pullInput invoke) n f
      return .next (← target (← nth n.flowOut 0))
    | .fieldSet offset type =>
      setField invoke n offset type
      return .next (← target (← nth n.flowOut 0))
    | .branch =>
      let condition ← pullBool invoke (← nth n.dataIn 0)
      return .next (← target (← nth n.flowOut (if condition then 0 else 1)))
    | .forLoop => return .next (← visitFor invoke n (some id))
    | .whileLoop => return .next (← visitWhile invoke n (some id))
    | .reroute => return .next (← target (← nth n.flowOut 0))
    | .entry | .fieldGet .. | .comment =>
      throw ((Program.bug s!"{n.label} is not a statement").atNode n.id)

/-- Where execution goes next: through a link, back to the innermost loop, or nowhere. -/
def arrival? (next : Option PinId) (f : Frame) : Option Arrival :=
  match next with
  | some id => some (.through id)
  | none => f.loops.head?.map .again

/-- For how many statements a call is followed: more than any budget allows. -/
def patience : Nat := 0x4000000000000000

def statements (ret : Option Place) : Nat → Option PinId → Run (Option Value)
  | 0, _ => throw { kind := .executionTimeOut, message := "exceeded the execution steps" }
  | fuel + 1, next => do
    match arrival? next (← frame) with
    | none => finishEmpty invoke ret
    | some arrival =>
      tick
      match ← statement invoke ret arrival with
      | .done result => return result
      | .next next =>
        modifyFrame fun f => { f with statements := f.statements + 1 }
        statements ret fuel next

def bindArgument (index : Nat) (id : PinId) (v : Value) : Run Unit := do
  let t ← pinType id
  if v.type ≠ t.id then
    throw ((callFailed s!"argument {index} must be a `{t.name}`").atPin id)
  else
    match v.place? with
    | some place => setBorrowed id place
    | none => if v.form.isPointer then setNull id else throw (nullInput id)

def bindArguments : Nat → List PinId → List Value → Run Unit
  | index, id :: ids, v :: vs => do
    bindArgument index id v
    bindArguments (index + 1) ids vs
  | _, _, _ => return ()

def body (args : List Value) (ret : Option Place) : Run (Option Value) := do
  let p ← program
  let entry ← node p.entry
  bindArguments 0 entry.dataOut (args.drop p.implicitArgs)
  if p.pure then
    tick
    match p.returnNode with
    | none => throw (Program.bug "pure function without a Return node")
    | some id => finish invoke (← node id) ret
  else
    let next ← match entry.flowOut.head? with
      | some output => target output
      | none => pure none
    statements invoke ret patience next

def clearAll : Nat → Run Unit
  | 0 => return ()
  | n + 1 => do
    clear ⟨n + 1⟩
    clearAll n

end Flowscript.Run
