import Flowscript.Proofs.Machine.OutcomeLogic

/-! # Told runs

The outcome of a running call does not tell what was done on the way: which outputs were asked for their
data, which expressions were computed, which calls the nodes made. A told run keeps a tale of this. Apart
from the tale it is the run: forgetting what is told gives back the computation that it is told of.
-/
namespace Flowscript

open Run

structure NodeCall where
  node : NodeId
  function : Function
  args : List Value
  ret : Option Place
  machine : Machine

/-- What is done in the course of a statement. -/
inductive Incident where
  /-- The data of an output is asked for, by an input that it feeds directly or through Reroutes. -/
  | asked (output : PinId)
  /-- An expression is computed. -/
  | computed (node : NodeId)
  /-- A node calls its function. -/
  | called (call : NodeCall)

/-- What is told of a running call, the latest first. -/
structure Tale where
  /-- The incidents of the statements that were completed, statement by statement. -/
  visits : List (List Incident) := []
  /-- The incidents of the statement under way. -/
  now : List Incident := []

/-- A running call and what is told of it. -/
structure Telling where
  act : Activation
  tale : Tale

/-- A computation of a running call of which is told. -/
abbrev Told := ReaderT Scope (EStateM ScriptError Telling)

variable {α β : Type}

namespace Told

/-- A computation of which there is nothing to tell. -/
def of (x : Run α) : Told α := fun s t =>
  match x s t.act with
  | .ok r a => .ok r ⟨a, t.tale⟩
  | .error e a => .error e ⟨a, t.tale⟩

def tell (d : Incident) : Told Unit := modify fun t => { t with tale.now := d :: t.tale.now }

/-- The statement under way is completed. -/
def close : Told Unit := modify fun t => { t with tale := ⟨t.tale.now :: t.tale.visits, []⟩ }

/-- Does something after a computation, whether it failed or not. -/
def andFinally (x : Told α) (after : Exec Empty Unit) : Told α := fun s t =>
  match x s t with
  | .ok r t =>
    match after s.context t.act.machine with
    | .ok _ machine => .ok r ⟨⟨t.act.frame, machine⟩, t.tale⟩
  | .error e t =>
    match after s.context t.act.machine with
    | .ok _ machine => .error e ⟨⟨t.act.frame, machine⟩, t.tale⟩

/-- Gives back the room taken on the stack by a computation, whether it failed or not. -/
def withStack (x : Told α) : Told α := do
  let mark := (← of interpreter).stack.used
  let seat := (← read).seat
  x.andFinally (modify (·.modifyInterpreter seat fun i => { i with stack := i.stack.rewind mark }))

section Pulls

variable (invoke : Invoke) (pull : PinId → Told (Option Place))

def withArguments (n : ProgramNode) (f : Function) :
    List (Param × PinId) → (List Value → Told α) → Told α
  | [], k => k []
  | (p, id) :: rest, k => do
    let data ← pull id
    let t ← of (pinType id)
    match data with
    | none =>
      if p.form.isPointer then
        withArguments n f rest fun args => k (.null p.type p.form :: args)
      else
        throw (((valueWasNull s!"`{p.name}` of `{f.name}` was null").atNode n.id).atPin id)
    | some source =>
      if p.form.isOwning then
        let temp ← of ((copyTemp invoke t source).mapError fun e => (e.atNode n.id).atPin id)
        (withArguments n f rest fun args => k (.borrowed p.type p.form temp :: args)).andFinally do
          Exec.endCharge t.destructor ⟨temp, t.id⟩
          Exec.free temp
      else withArguments n f rest fun args => k (.borrowed p.type p.form source :: args)

def makeCall (n : ProgramNode) (f : Function) (args : List Value) :
    Told (Except CallError (Option Value)) := do
  let buffer ← of (resultStorage n.dataOut.head? (f.result.map (·.form)))
  of (modifyInterpreter fun i => { i with nestedFailure := none })
  tell (.called ⟨n.id, f, args, buffer, (← get).act.machine⟩)
  of (liftTotal (Exec.attempt (invoke f args buffer)))

def settleCall (n : ProgramNode) (f : Function) (outcome : Except CallError (Option Value)) : Run Unit := do
  match outcome with
  | .error e => throw ((← callFailure f e).atNode n.id)
  | .ok result =>
    match n.dataOut.head?, f.result.map (·.form) with
    | some id, some form => (storeResult id form result).mapError (·.atNode n.id)
    | _, _ => liftTotal (result.forM Exec.drop)

def callNode (n : ProgramNode) (f : Function) : Told Unit := do
  let outcome ← withStack (withArguments invoke pull n f (f.params.zip n.dataIn) (makeCall invoke n f))
  of (settleCall n f outcome)

def pullTarget (n : ProgramNode) : Told Place := do
  let id ← of (nth n.dataIn 0)
  match ← pull id with
  | some place => return place
  | none => throw (((valueWasNull "target was null").atNode n.id).atPin id)

def fillField (n : ProgramNode) (offset : Nat) (type : Handle) (source : Place) : Run Unit := do
  let out ← nth n.dataOut 0
  let t := (← read).context.catalogue.info type
  let _ ← fillOwned out "field output has no storage" fun place =>
    lift (fun e => (callFailed s!"reading field failed: {e.message}").atNode n.id)
      (invoke.copyAt t place (source.shift offset))

def getField (n : ProgramNode) (offset : Nat) (type : Handle) : Told Unit := do
  let source ← pullTarget pull n
  of (fillField invoke n offset type source)

def compute (n : ProgramNode) : Told Unit :=
  match n.op with
  | .call f => callNode invoke pull n f
  | .fieldGet offset type => getField invoke pull n offset type
  | _ => throw ((Program.bug s!"{n.label} has no pure outputs").atNode n.id)

def evaluate (n : ProgramNode) : Told Unit := do
  of tick
  of (noteNode "Evaluating pure node" n)
  tell (.computed n.id)
  compute invoke pull n

/-- Computes an expression unless that happened since the last statement. -/
def refresh (n : ProgramNode) (output : PinId) : Told Unit := do
  if !isFresh (← of frame) output then evaluate invoke pull n

/-- The data of an output that an expression or a statement fills. -/
def askOutput (n : ProgramNode) (output : PinId) : Told (Option Place) := do
  tell (.asked output)
  if n.pure then
    refresh invoke pull n output
  else if !(← of frame).isFilled output then
    throw ((({ kind := .linkNotAllowed
               message := s!"output of {n.label} was read before the node ran" : ScriptError }).atNode
              n.id).atPin output)
  return (← of frame).value? (← of program) output

def pullOutput (output : PinId) : Told (Option Place) := do
  let n ← of (node (← of (pin output)).node)
  match n.op with
  | .reroute => do pull (← of (nth n.dataIn 0))
  | _ => askOutput invoke pull n output

def supply (id : PinId) : Told (Option Place) := do
  match (← of (pin id)).source with
  | some output => pullOutput invoke pull output
  | none => of (fallback invoke id)

def pullStep (id : PinId) : Told (Option Place) := do
  let data ← supply invoke pull id
  of (watchInput id data)
  return data

end Pulls

variable (invoke : Invoke)

def pullWithin : Nat → PinId → Told (Option Place)
  | 0 => fun id => throw ((Program.bug "pulls are nested too deeply").atPin id)
  | depth + 1 => pullStep invoke (pullWithin depth)

def pullInput (id : PinId) : Told (Option Place) := do
  pullWithin invoke ((← of program).pins.size + 1) id

def pullAtom (id : PinId) (name : String) (prim : Prim) : Told Atom := do
  match ← pullInput invoke id with
  | none => throw (nullInput id)
  | some place =>
    of (expectType id name)
    return (← of memory).read place prim

def pullBool (id : PinId) : Told Bool := return (← pullAtom invoke id "bool" .bool) == .bool true

def pullInt (id : PinId) : Told Int := do
  match ← pullAtom invoke id "i32" (.int .i32) with
  | .int n => return n
  | _ => return 0

/-- Goes on with the body of a counting loop, or leaves the loop. -/
def turnFor (n : ProgramNode) (index body completed : PinId) : Told (Option PinId) := do
  let stop ← pullInt invoke (← of (nth n.dataIn 1))
  if (← of (readInt index)) ≥ stop then of (complete n completed) else of (target body)

def visitFor (n : ProgramNode) (via : Option PinId) : Told (Option PinId) := do
  let break' ← of (nth n.flowIn 1)
  let index ← of (nth n.dataOut 0)
  let body ← of (nth n.flowOut 0)
  let completed ← of (nth n.flowOut 1)
  if via = some break' then of (complete n completed)
  else
    match via with
    | some _ =>
      let start ← pullInt invoke (← of (nth n.dataIn 0))
      of (writeInt index start)
      of (modifyFrame (·.enterLoop (.forLoop n.id)))
    | none =>
      let current ← of (readInt index)
      of (writeInt index (min (current + 1) 0x7fffffff))
    turnFor invoke n index body completed

def visitWhile (n : ProgramNode) (via : Option PinId) : Told (Option PinId) := do
  let break' ← of (nth n.flowIn 1)
  let body ← of (nth n.flowOut 0)
  let completed ← of (nth n.flowOut 1)
  if via = some break' then of (complete n completed)
  else
    if via.isSome then of (modifyFrame (·.enterLoop (.whileLoop n.id)))
    if ← pullBool invoke (← of (nth n.dataIn 0)) then of (target body) else of (complete n completed)

def storeField (n : ProgramNode) (offset : Nat) (type : Handle) (owner source : Place) : Run Unit := do
  let t := (← read).context.catalogue.info type
  Run.withStack do
    let temp ← (copyTemp invoke t source).mapError (·.atNode n.id)
    let field := owner.shift offset
    liftTotal do
      Exec.destroy t.destructor field
      Exec.modifyMemory (·.transfer temp field t.layout.size)
      Exec.modifyCare (·.lose ⟨temp, t.id⟩)
      Exec.free temp

def setField (n : ProgramNode) (offset : Nat) (type : Handle) : Told Unit := do
  let owner ← pullTarget (pullInput invoke) n
  let id ← of (nth n.dataIn 1)
  match ← pullInput invoke id with
  | none => throw ((valueWasNull "no value to store").atPin id)
  | some source => of (storeField invoke n offset type owner source)

def giveBack (n : ProgramNode) (ret : Option Place) (t : TypeInfo) (form : Form) (id : PinId)
    (value : Option Place) : Run (Option Value) := do
  if form.isOwning then
    match value with
    | none => throw (nullInput id)
    | some source =>
      produce t ret fun place => (handOver invoke t source place).mapError (·.atNode n.id)
  else
    match value with
    | none => if form.isPointer then return some (.null t.id form) else throw (nullInput id)
    | some place =>
      if finish.endsWithCall (← interpreter).stack (← Run.frame).mark place then
        throw ((({ kind := .linkNotAllowed
                   message := "returns a reference to a value that ends with the call"
                   : ScriptError }).atNode n.id).atPin id)
      else return some (.borrowed t.id form place)

def finish (n : ProgramNode) (ret : Option Place) : Told (Option Value) := do
  match (← of program).result with
  | none => return none
  | some (h, form) =>
    let t := (← of read).context.catalogue.info h
    let id ← of (nth n.dataIn 0)
    let value ← pullInput invoke id
    of (giveBack invoke n ret t form id value)

def statement (ret : Option Place) (arrival : Arrival) : Told Outcome := do
  match arrival with
  | .again marker =>
    let n ← of (node marker.node)
    of (noteNode "Executing node" n)
    match marker with
    | .forLoop _ => return .next (← visitFor invoke n none)
    | .whileLoop _ => return .next (← visitWhile invoke n none)
  | .through id =>
    let n ← of (node (← of (pin id)).node)
    of (noteNode "Executing node" n)
    match n.op with
    | .ret => return .done (← finish invoke n ret)
    | .call f =>
      callNode invoke (pullInput invoke) n f
      return .next (← of (target (← of (nth n.flowOut 0))))
    | .fieldSet offset type =>
      setField invoke n offset type
      return .next (← of (target (← of (nth n.flowOut 0))))
    | .branch =>
      let condition ← pullBool invoke (← of (nth n.dataIn 0))
      return .next (← of (target (← of (nth n.flowOut (if condition then 0 else 1)))))
    | .forLoop => return .next (← visitFor invoke n (some id))
    | .whileLoop => return .next (← visitWhile invoke n (some id))
    | .reroute => return .next (← of (target (← of (nth n.flowOut 0))))
    | .entry | .fieldGet .. | .comment =>
      throw ((Program.bug s!"{n.label} is not a statement").atNode n.id)

def statements (ret : Option Place) : Nat → Option PinId → Told (Option Value)
  | 0, _ => throw { kind := .executionTimeOut, message := "exceeded the execution steps" }
  | fuel + 1, next => do
    match arrival? next (← of frame) with
    | none => of (finishEmpty invoke ret)
    | some arrival =>
      of tick
      match ← statement invoke ret arrival with
      | .done result =>
        close
        return result
      | .next next =>
        of (modifyFrame fun f => { f with statements := f.statements + 1 })
        close
        statements ret fuel next

def body (args : List Value) (ret : Option Place) : Told (Option Value) := do
  let p ← of program
  let entry ← of (node p.entry)
  of (bindArguments 0 entry.dataOut (args.drop p.implicitArgs))
  if p.pure then
    of tick
    match p.returnNode with
    | none => throw (Program.bug "pure function without a Return node")
    | some id =>
      let result ← finish invoke (← of (node id)) ret
      close
      return result
  else
    let next ← match entry.flowOut.head? with
      | some output => of (target output)
      | none => pure none
    statements invoke ret patience next

/-! ## Forgetting what is told -/

def forget (x : Told α) (tale : Tale) : Run α := fun s a =>
  match x s ⟨a, tale⟩ with
  | .ok r t => .ok r t.act
  | .error e t => .error e t.act

/-- Whatever was told before, one computation is the other with a tale. -/
def Retells (x : Told α) (y : Run α) : Prop := ∀ tale, x.forget tale = y

namespace Retells

theorem of (x : Run α) : Retells (Told.of x) x := by
  intro tale
  funext s a
  simp only [forget, Told.of]
  cases x s a <;> rfl

theorem eval {x : Told α} {y : Run α} (h : Retells x y) (tale : Tale) (s : Scope) (a : Activation) :
    y s a = match x s ⟨a, tale⟩ with
      | .ok r t => .ok r t.act
      | .error e t => .error e t.act :=
  (congrFun (congrFun (h tale) s) a).symm

theorem pure (r : α) : Retells (Pure.pure r : Told α) (Pure.pure r) := fun _ => rfl

theorem throw (e : ScriptError) : Retells (MonadExcept.throw e : Told α) (MonadExcept.throw e) :=
  fun _ => rfl

theorem bind {x : Told β} {y : Run β} {f : β → Told α} {g : β → Run α} (hx : Retells x y)
    (hf : ∀ b, Retells (f b) (g b)) : Retells (x >>= f) (y >>= g) := by
  intro tale
  funext s a
  have hxa := congrFun (congrFun (hx tale) s) a
  simp only [forget, ReaderT.bind, EStateM.bind, Bind.bind] at hxa ⊢
  rw [← hxa]
  cases x s ⟨a, tale⟩ with
  | ok b t => exact congrFun (congrFun (hf b t.tale) s) t.act
  | error e t => rfl

theorem tell {d : Incident} {f : Unit → Told α} {y : Run α} (hf : Retells (f ()) y) :
    Retells (Told.tell d >>= f) y := fun tale => hf ⟨tale.visits, d :: tale.now⟩

theorem close {f : Unit → Told α} {y : Run α} (hf : Retells (f ()) y) : Retells (Told.close >>= f) y :=
  fun tale => hf ⟨tale.now :: tale.visits, []⟩

theorem andFinally {x : Told α} {y : Run α} (hx : Retells x y) (after : Exec Empty Unit) :
    Retells (x.andFinally after) (y.andFinally after) := by
  intro tale
  funext s a
  have hxa := congrFun (congrFun (hx tale) s) a
  simp only [forget, Told.andFinally, Run.andFinally] at hxa ⊢
  rw [← hxa]
  cases x s ⟨a, tale⟩ with
  | ok r t =>
    dsimp only
    cases after s.context t.act.machine with
    | ok => rfl
    | error e => cases e
  | error e t =>
    dsimp only
    cases after s.context t.act.machine with
    | ok => rfl
    | error e => cases e

theorem withStack {x : Told α} {y : Run α} (hx : Retells x y) :
    Retells x.withStack (Run.withStack y) :=
  bind (of _) fun _ => bind (y := read) (fun _ => rfl) fun _ => hx.andFinally _

theorem ite {c : Prop} [Decidable c] {x x' : Told α} {y y' : Run α} (hx : Retells x y)
    (hx' : Retells x' y') : Retells (if c then x else x') (if c then y else y') := by
  split
  · exact hx
  · exact hx'

end Retells

section Pulls

variable {invoke : Invoke} {pull : PinId → Told (Option Place)} {pull' : Pull}
  (hpull : ∀ id, Retells (pull id) (pull' id))
include hpull

theorem retells_withArguments (n : ProgramNode) (f : Function) (pins : List (Param × PinId))
    {k : List Value → Told α} {k' : List Value → Run α} (hk : ∀ args, Retells (k args) (k' args)) :
    Retells (withArguments invoke pull n f pins k) (Run.withArguments invoke pull' n f pins k') := by
  induction pins generalizing k k' with
  | nil => exact hk []
  | cons first rest ih =>
    obtain ⟨p, id⟩ := first
    refine .bind (hpull id) fun data => .bind (.of _) fun t => ?_
    cases data with
    | none => exact .ite (ih fun args => hk _) (.throw _)
    | some source =>
      refine .ite (.bind (.of _) fun temp => ?_) (ih fun args => hk _)
      exact (ih fun args => hk _).andFinally _

theorem retells_callNode (n : ProgramNode) (f : Function) :
    Retells (callNode invoke pull n f) (Run.callNode invoke pull' n f) := by
  refine .bind (.withStack (retells_withArguments hpull n f _ fun args => ?_)) fun outcome => ?_
  · refine .bind (.of _) fun buffer => .bind (.of _) fun _ => ?_
    -- The machine is looked at for the tale only.
    exact fun tale => funext fun s => funext fun a => congrFun (congrFun
      (Retells.tell (d := .called ⟨n.id, f, args, buffer, a.machine⟩)
        (f := fun _ => Told.of (liftTotal (Exec.attempt (invoke f args buffer)))) (.of _) tale) s) a
  · exact .of _

theorem retells_pullTarget (n : ProgramNode) :
    Retells (pullTarget pull n) (Run.pullTarget pull' n) := by
  refine .bind (.of _) fun id => .bind (hpull id) fun data => ?_
  cases data with
  | none => exact .throw _
  | some place => exact .pure place

theorem retells_getField (n : ProgramNode) (offset : Nat) (type : Handle) :
    Retells (getField invoke pull n offset type) (Run.getField invoke pull' n offset type) :=
  .bind (retells_pullTarget hpull n) fun _ => .of _

theorem retells_evaluate (n : ProgramNode) :
    Retells (evaluate invoke pull n) (Run.evaluate invoke pull' n) := by
  refine .bind (.of _) fun _ => .bind (.of _) fun _ => .tell ?_
  unfold compute
  cases n.op with
  | call f => exact retells_callNode hpull n f
  | fieldGet offset type => exact retells_getField hpull n offset type
  | _ => exact .throw _

theorem retells_askOutput (n : ProgramNode) (output : PinId) :
    Retells (askOutput invoke pull n output) (do
      if n.pure then
        if !isFresh (← Run.frame) output then Run.evaluate invoke pull' n
      else if !(← Run.frame).isFilled output then
        throw ((({ kind := .linkNotAllowed
                   message := s!"output of {n.label} was read before the node ran" : ScriptError }).atNode
                  n.id).atPin output)
      return (← Run.frame).value? (← Run.program) output) := by
  refine .tell ?_
  split
  · have hvalue : Retells (do return (← of Run.frame).value? (← of Run.program) output)
        (do return (← Run.frame).value? (← Run.program) output) :=
      .bind (.of _) fun _ => .bind (.of _) fun _ => .pure _
    simp only [refresh, bind_assoc]
    refine .bind (.of _) fun f => ?_
    split
    · exact .bind (retells_evaluate hpull n) fun _ => hvalue
    · exact hvalue
  · refine .bind (.of _) fun f => ?_
    split
    · exact .bind (.throw _) fun _ => .bind (.of _) fun _ => .bind (.of _) fun _ => .pure _
    · exact .bind (.of _) fun _ => .bind (.of _) fun _ => .pure _

theorem retells_pullOutput (output : PinId) :
    Retells (pullOutput invoke pull output) (Run.pullOutput invoke pull' output) := by
  refine .bind (.of _) fun q => .bind (.of _) fun n => ?_
  cases n.op with
  | reroute => exact .bind (.of _) fun id => hpull id
  | _ => exact retells_askOutput hpull n output

theorem retells_pullStep (id : PinId) :
    Retells (pullStep invoke pull id) (Run.pullStep invoke pull' id) := by
  refine .bind (.bind (.of _) fun q => ?_) fun data => .bind (.of _) fun _ => .pure data
  cases q.source with
  | some output => exact retells_pullOutput hpull output
  | none => exact .of _

end Pulls

variable {invoke}

theorem retells_pullWithin (depth : Nat) (id : PinId) :
    Retells (pullWithin invoke depth id) (Run.pullWithin invoke depth id) := by
  induction depth generalizing id with
  | zero => exact .throw _
  | succ depth ih => exact retells_pullStep ih id

theorem retells_pullInput (id : PinId) : Retells (pullInput invoke id) (Run.pullInput invoke id) :=
  .bind (.of _) fun _ => retells_pullWithin _ id

theorem retells_pullAtom (id : PinId) (name : String) (prim : Prim) :
    Retells (pullAtom invoke id name prim) (Run.pullAtom invoke id name prim) := by
  refine .bind (retells_pullInput id) fun data => ?_
  cases data with
  | none => exact .throw _
  | some place => exact .bind (.of _) fun _ => .bind (.of _) fun _ => .pure _

theorem retells_pullBool (id : PinId) : Retells (pullBool invoke id) (Run.pullBool invoke id) :=
  .bind (retells_pullAtom id _ _) fun _ => .pure _

theorem retells_pullInt (id : PinId) : Retells (pullInt invoke id) (Run.pullInt invoke id) := by
  refine .bind (retells_pullAtom id _ _) fun a => ?_
  cases a <;> exact .pure _

theorem retells_visitFor (n : ProgramNode) (via : Option PinId) :
    Retells (visitFor invoke n via) (Run.visitFor invoke n via) := by
  have hturn : ∀ index body completed, Retells (turnFor invoke n index body completed) (do
      let stop ← Run.pullInt invoke (← nth n.dataIn 1)
      if (← readInt index) ≥ stop then complete n completed else target body) := by
    intro index body completed
    unfold turnFor
    refine .bind (.of _) fun id => .bind (retells_pullInt id) fun stop => .bind (.of _) fun k => ?_
    split
    · exact .of _
    · exact .of _
  refine .bind (.of _) fun break' => .bind (.of _) fun index => .bind (.of _) fun body =>
    .bind (.of _) fun completed => .ite (.of _) ?_
  cases via with
  | some pin =>
    exact .bind (.of _) fun _ => .bind (retells_pullInt _) fun _ => .bind (.of _) fun _ =>
      .bind (.of _) fun _ => hturn index body completed
  | none => exact .bind (.of _) fun _ => .bind (.of _) fun _ => hturn index body completed

theorem retells_visitWhile (n : ProgramNode) (via : Option PinId) :
    Retells (visitWhile invoke n via) (Run.visitWhile invoke n via) := by
  refine .bind (.of _) fun break' => .bind (.of _) fun body => .bind (.of _) fun completed =>
    .ite (.of _) ?_
  have hturn : Retells (do
      if ← pullBool invoke (← of (nth n.dataIn 0)) then of (target body) else of (complete n completed))
      (do if ← Run.pullBool invoke (← nth n.dataIn 0) then target body else complete n completed) :=
    .bind (.of _) fun _ => .bind (retells_pullBool _) fun _ => .ite (.of _) (.of _)
  split
  · exact .bind (.of _) fun _ => hturn
  · exact hturn

theorem retells_setField (n : ProgramNode) (offset : Nat) (type : Handle) :
    Retells (setField invoke n offset type) (Run.setField invoke n offset type) := by
  refine .bind (retells_pullTarget retells_pullInput n) fun owner => .bind (.of _) fun id =>
    .bind (retells_pullInput id) fun data => ?_
  cases data with
  | none => exact .throw _
  | some source => exact .of _

theorem retells_finish (n : ProgramNode) (ret : Option Place) :
    Retells (finish invoke n ret) (Run.finish invoke n ret) := by
  refine .bind (.of _) fun p => ?_
  cases p.result with
  | none => exact .pure _
  | some result =>
    exact .bind (.of _) fun s => .bind (.of _) fun id => .bind (retells_pullInput id) fun data => .of _

theorem retells_statement (ret : Option Place) (arrival : Arrival) :
    Retells (statement invoke ret arrival) (Run.statement invoke ret arrival) := by
  have hnext : ∀ pins i, Retells (do return Outcome.next (← of (target (← of (nth pins i)))))
      (do return .next (← target (← nth pins i))) :=
    fun _ _ => .bind (.of _) fun _ => .bind (.of _) fun _ => .pure _
  cases arrival with
  | again marker =>
    refine .bind (.of _) fun n => .bind (.of _) fun _ => ?_
    cases marker with
    | forLoop id => exact .bind (retells_visitFor n none) fun _ => .pure _
    | whileLoop id => exact .bind (retells_visitWhile n none) fun _ => .pure _
  | through id =>
    refine .bind (.of _) fun q => .bind (.of _) fun n => .bind (.of _) fun _ => ?_
    cases n.op with
    | ret => exact .bind (retells_finish n ret) fun _ => .pure _
    | call f => exact .bind (retells_callNode retells_pullInput n f) fun _ => hnext _ _
    | fieldSet offset type => exact .bind (retells_setField n offset type) fun _ => hnext _ _
    | branch => exact .bind (.of _) fun _ => .bind (retells_pullBool _) fun _ => hnext _ _
    | forLoop => exact .bind (retells_visitFor n _) fun _ => .pure _
    | whileLoop => exact .bind (retells_visitWhile n _) fun _ => .pure _
    | reroute => exact hnext _ _
    | entry => exact .throw _
    | fieldGet offset type => exact .throw _
    | comment => exact .throw _

theorem retells_statements (ret : Option Place) (fuel : Nat) (next : Option PinId) :
    Retells (statements invoke ret fuel next) (Run.statements invoke ret fuel next) := by
  induction fuel generalizing next with
  | zero => exact .throw _
  | succ fuel ih =>
    refine .bind (.of _) fun f => ?_
    cases arrival? next f with
    | none => exact .of _
    | some arrival =>
      refine .bind (.of _) fun _ => .bind (retells_statement ret arrival) fun outcome => ?_
      cases outcome with
      | done result => exact .close (.pure _)
      | next next => exact .bind (.of _) fun _ => .close (ih next)

theorem retells_body (args : List Value) (ret : Option Place) :
    Retells (body invoke args ret) (Run.body invoke args ret) := by
  refine .bind (.of _) fun p => .bind (.of _) fun entry => .bind (.of _) fun _ => ?_
  split
  · refine .bind (.of _) fun _ => ?_
    cases p.returnNode with
    | none => exact .throw _
    | some id =>
      have hclose : ∀ r : Option Value, Retells (do close; return r) (Pure.pure r) :=
        fun r => .close (.pure r)
      refine .bind (.of _) fun n => ?_
      have hfinish : Retells (finish invoke n ret) (Run.finish invoke n ret) := retells_finish n ret
      have h := hfinish.bind hclose
      rwa [bind_pure] at h
  · cases entry.flowOut.head? with
    | some output => exact .bind (.of _) fun next => retells_statements ret patience next
    | none => exact retells_statements ret patience none

end Told
end Flowscript
