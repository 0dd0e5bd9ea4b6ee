import Flowscript.Run.Activation

/-! # Pulling data

A statement pulls the data of its inputs. A linked input gets what its output holds, and an output of
an expression is computed first unless that happened since the last statement. An input that is not
linked falls back to its default, to the owner of the function, to the active world, or to a default
of its type.
-/
namespace Flowscript.Run

variable (invoke : Invoke)

def fillOwned (id : PinId) (missing : String) (init : Place → Run Unit) : Run (Option Place) := do
  clear id
  let place ← storage id missing
  init place
  setOwned id
  return some place

def fallback (id : PinId) : Run (Option Place) := do
  let info ← pin id
  let t ← pinType id
  let s ← read
  match info.default with
  | some j =>
    fillOwned id "data pin has no storage" fun place =>
      lift (fun e =>
        (callFailed s!"default value of `{t.name}` could not be read: {e.message}").atPin id)
        (invoke.decodeAt t j place)
  | none =>
    match s.this, (← interpreter).world with
    | some this, world =>
      if s.program.thisType = some t.id then return some this else constructed info t world
    | none, world => constructed info t world
where
  /-- The active world or a default of the type. -/
  constructed (info : ProgramPin) (t : TypeInfo) (world : Option (TypeId × Place)) :
      Run (Option Place) := do
    match world.filter (·.1 == t.id) with
    | some (_, place) => return some place
    | none =>
      if t.traits.default then
        fillOwned id "data pin has no storage" fun place =>
          lift (fun e => (callFailed s!"constructing `{t.name}` failed: {e.message}").atPin id)
            (invoke.defaultAt t place)
      else if info.form.isPointer then
        setNull id
        return none
      else
        throw (((valueWasNull
          s!"unlinked `{t.name}` input has no default and cannot be constructed").atNode
            info.node).atPin id)

abbrev Pull := PinId → Run (Option Place)

variable (pull : Pull)

/-- Pulls the arguments of a call, one after another, and goes on with them. Arguments taken by value
are copied to the stack; the copies end when the rest is done, the last one first. -/
def withArguments {α : Type} (n : ProgramNode) (f : Function) :
    List (Param × PinId) → (List Value → Run α) → Run α
  | [], k => k []
  | (p, id) :: rest, k => do
    let data ← pull id
    let t ← pinType id
    match data with
    | none =>
      if p.form.isPointer then
        withArguments n f rest fun args => k (.null p.type p.form :: args)
      else
        throw (((valueWasNull s!"`{p.name}` of `{f.name}` was null").atNode n.id).atPin id)
    | some source =>
      if p.form.isOwning then
        let temp ← (copyTemp invoke t source).mapError fun e => (e.atNode n.id).atPin id
        (withArguments n f rest fun args => k (.borrowed p.type p.form temp :: args)).andFinally do
          Exec.endCharge t.destructor ⟨temp, t.id⟩
          Exec.free temp
      else withArguments n f rest fun args => k (.borrowed p.type p.form source :: args)

def callFailure (f : Function) (e : CallError) : Run ScriptError := do
  let nested := (← interpreter).nestedFailure
  modifyInterpreter fun i => { i with nestedFailure := none }
  match nested with
  | some n => if n.kind.isBudget then return n else return plain
  | none => return plain
where
  plain : ScriptError := callFailed s!"`{f.name}` failed: {e.message}"

def storeResult (id : PinId) (form : Form) (result : Option Value) : Run Unit := do
  match ← storage? id, result with
  | none, result =>
    liftTotal (result.forM Exec.drop)
    throw (Program.bug "return pin has no storage")
  | some _, none =>
    if form.isOwning then setOwned id
    else throw ((callFailed "function returned no value").atPin id)
  | some place, some v =>
    if v.isOwning then
      clear id
      let _ ← liftTotal (Exec.relocate v place)
      setOwned id
    else
      liftTotal (modify (·.watchResult result))
      match v.place? with
      | some source => setBorrowed id source
      | none => setNull id

def resultStorage (out : Option PinId) (form : Option Form) : Run (Option Place) := do
  match out, form with
  | some id, some form =>
    if form.isOwning then
      clear id
      storage? id
    else return none
  | _, _ => return none

def callNode (n : ProgramNode) (f : Function) : Run Unit := do
  let out := n.dataOut.head?
  let form := f.result.map (·.form)
  let outcome ← withStack <| withArguments invoke pull n f (f.params.zip n.dataIn) fun args => do
    let buffer ← resultStorage out form
    modifyInterpreter fun i => { i with nestedFailure := none }
    liftTotal (Exec.attempt (invoke f args buffer))
  match outcome with
  | .error e => throw ((← callFailure f e).atNode n.id)
  | .ok result =>
    match out, form with
    | some id, some form => (storeResult id form result).mapError (·.atNode n.id)
    | _, _ => liftTotal (result.forM Exec.drop)

def pullTarget (n : ProgramNode) : Run Place := do
  let id ← nth n.dataIn 0
  match ← pull id with
  | some place => return place
  | none => throw (((valueWasNull "target was null").atNode n.id).atPin id)

def getField (n : ProgramNode) (offset : Nat) (type : Handle) : Run Unit := do
  let source ← pullTarget pull n
  let out ← nth n.dataOut 0
  let t := (← read).context.catalogue.info type
  let _ ← fillOwned out "field output has no storage" fun place =>
    lift (fun e => (callFailed s!"reading field failed: {e.message}").atNode n.id)
      (invoke.copyAt t place (source.shift offset))

/-- Whether the output of an expression was filled since the last statement. -/
def isFresh (f : Frame) (output : PinId) : Bool :=
  f.isFilled output && f.stamp? output == some f.statements

def evaluate (n : ProgramNode) : Run Unit := do
  tick
  noteNode "Evaluating pure node" n
  match n.op with
  | .call f => callNode invoke pull n f
  | .fieldGet offset type => getField invoke pull n offset type
  | _ => throw ((Program.bug s!"{n.label} has no pure outputs").atNode n.id)

def pullOutput (output : PinId) : Run (Option Place) := do
  let n ← node (← pin output).node
  match n.op with
  | .reroute => do pull (← nth n.dataIn 0)
  | _ =>
    if n.pure then
      if !isFresh (← frame) output then evaluate invoke pull n
    else if !(← frame).isFilled output then
      throw ((({ kind := .linkNotAllowed
                 message := s!"output of {n.label} was read before the node ran" : ScriptError }).atNode
                n.id).atPin output)
    return (← frame).value? (← program) output

def supply (id : PinId) : Run (Option Place) := do
  match (← pin id).source with
  | some output => pullOutput invoke pull output
  | none => fallback invoke id

def watchInput (id : PinId) (data : Option Place) : Run Unit := do
  let s ← read
  match data, (s.program.pin? id).bind (·.type) with
  | some place, some h => liftTotal (modify (·.watchUse place (s.context.catalogue.info h).id))
  | _, _ => pure ()

def pullStep (id : PinId) : Run (Option Place) := do
  let data ← supply invoke pull id
  watchInput id data
  return data

def pullWithin : Nat → Pull
  | 0 => fun id => throw ((Program.bug "pulls are nested too deeply").atPin id)
  | depth + 1 => pullStep invoke (pullWithin depth)

/-- The data of an input; nothing for a null pointer. In a checked graph no pin is pulled again while
it is being pulled, so the number of pins bounds the depth. -/
def pullInput (id : PinId) : Run (Option Place) := do
  pullWithin invoke ((← program).pins.size + 1) id

end Flowscript.Run
