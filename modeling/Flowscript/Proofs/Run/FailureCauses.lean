import Flowscript.Proofs.Run.OwnErrors
import Flowscript.Proofs.Run.RecordedEvents

/-! # What a failing call is blamed on

A running call fails because of what it does itself, or because a call made by one of its nodes fails. The
tale of the run knows which: every call that was made before has succeeded, and if the last one has not,
the error is what became of its error.
-/
namespace Flowscript

open Run

variable {α β : Type}

/-- The error that a failed call of a function is turned into, given the failure that was recorded. -/
def ScriptError.blame (f : Function) (e : CallError) (failure : Option ScriptError) : ScriptError :=
  match failure with
  | some n => if n.kind.isBudget then n else callFailure.plain f e
  | none => callFailure.plain f e

theorem Run.callFailure_eq (f : Function) (e : CallError) (sc : Scope) (a : Activation) :
    callFailure f e sc a = .ok (ScriptError.blame f e (a.machine.outlook.failure sc.seat))
      ⟨a.frame, a.machine.modifyInterpreter sc.seat fun i => { i with nestedFailure := none }⟩ := by
  show (match (a.machine.interpreter sc.seat).nestedFailure with
    | some n => if n.kind.isBudget then return n else return callFailure.plain f e
    | none => return callFailure.plain f e : Run ScriptError) sc _ = _
  have hfailure : a.machine.outlook.failure sc.seat = (a.machine.interpreter sc.seat).nestedFailure := rfl
  rw [hfailure]
  unfold ScriptError.blame
  cases (a.machine.interpreter sc.seat).nestedFailure with
  | none => rfl
  | some n =>
    dsimp only
    split <;> rfl

def Incident.call? : Incident → Option NodeCall
  | .called call => some call
  | _ => none

/-- The calls that nodes have made, the latest first. -/
def Tale.calls (t : Tale) : List NodeCall := (t.now ++ t.visits.flatten).filterMap Incident.call?

def NodeCall.outcome (invoke : Invoke) (w : Context) (c : NodeCall) :
    EStateM.Result CallError Machine (Option Value) := invoke c.function c.args c.ret w c.machine

/-- A call that a Call node of the program makes where nothing has failed. -/
structure NodeCall.Proper (O : Outlook → Prop) (sc : Scope) (c : NodeCall) : Prop where
  node : ∃ n, sc.program.Has n ∧ n.id = c.node ∧ n.op = .call c.function
  outlook : O c.machine.outlook
  cleared : c.machine.outlook.failure sc.seat = none

def Tale.Calm (O : Outlook → Prop) (invoke : Invoke) (sc : Scope) (t : Tale) : Prop :=
  ∀ c ∈ t.calls, c.Proper O sc ∧ ∃ r m, c.outcome invoke sc.context = .ok r m

/-- The last call that was made has failed with an error, and left a machine. -/
def Tale.Fails (O : Outlook → Prop) (invoke : Invoke) (sc : Scope) (t : Tale) (c : NodeCall)
    (e : CallError) (m : Machine) : Prop :=
  c.Proper O sc ∧ c.outcome invoke sc.context = .error e m ∧
    ∃ before : Tale, t.calls = c :: before.calls ∧ before.Calm O invoke sc

/-- An error of the call's own, or what became of the error of the last call that was made. -/
def Tale.Explains (O : Outlook → Prop) (invoke : Invoke) (sc : Scope) (t : Tale) (e : ScriptError) : Prop :=
  t.Calm O invoke sc ∧ e.Own sc.program ∨
    ∃ c ce m, t.Fails O invoke sc c ce m ∧
      e = (ScriptError.blame c.function ce (m.outlook.failure sc.seat)).atNode c.node

@[simp] theorem Tale.calls_asked (t : Tale) (output : PinId) :
    ({ t with now := .asked output :: t.now } : Tale).calls = t.calls := rfl

@[simp] theorem Tale.calls_computed (t : Tale) (id : NodeId) :
    ({ t with now := .computed id :: t.now } : Tale).calls = t.calls := rfl

@[simp] theorem Tale.calls_called (t : Tale) (c : NodeCall) :
    ({ t with now := .called c :: t.now } : Tale).calls = c :: t.calls := rfl

@[simp] theorem Tale.calls_close (t : Tale) : (⟨t.now :: t.visits, []⟩ : Tale).calls = t.calls := rfl

def Leaves (x : Told α) (sc : Scope) (t : Telling) (Q : α → Outlook → Tale → Prop)
    (E : ScriptError → Outlook → Tale → Prop) : Prop :=
  Ensures x sc t (fun r t => Q r t.act.machine.outlook t.tale) fun e t => E e t.act.machine.outlook t.tale

variable {sc : Scope} {t : Telling} {Q : α → Outlook → Tale → Prop}
  {E : ScriptError → Outlook → Tale → Prop}

namespace Leaves

theorem andFinally {x : Told α} {after : Exec Empty Unit} (hx : Leaves x sc t Q E)
    (hafter : ∀ O, Minds O sc.context after) : Leaves (x.andFinally after) sc t Q E := by
  have hafter' : ∀ m, ∃ m', after sc.context m = .ok () m' ∧ m'.outlook = m.outlook := by
    intro m
    have h := hafter (· = m.outlook) m rfl
    unfold Ensures at h
    cases hm : after sc.context m with
    | ok u m' => rw [hm] at h; exact ⟨m', rfl, h.1⟩
    | error e m' => cases e
  simp only [Leaves, Ensures, Told.andFinally] at hx ⊢
  cases hr : x sc t with
  | ok r t' =>
    obtain ⟨m', hm', ho⟩ := hafter' t'.act.machine
    simpa only [hr, hm', ho] using hx
  | error e t' =>
    obtain ⟨m', hm', ho⟩ := hafter' t'.act.machine
    simpa only [hr, hm', ho] using hx

theorem withStack {x : Told α} (hx : Leaves x sc t Q E) : Leaves x.withStack sc t Q E :=
  hx.andFinally fun _ => minds_rewind _ _

end Leaves

/-- Where nothing has failed so far, either nothing does, or the tale explains the error. -/
def Reports (O : Outlook → Prop) (invoke : Invoke) (sc : Scope) (x : Told α) (R : α → Prop) : Prop :=
  ∀ t, O t.act.machine.outlook → t.tale.Calm O invoke sc →
    Leaves x sc t (fun r o tale => O o ∧ tale.Calm O invoke sc ∧ R r)
      fun e o tale => O o ∧ tale.Explains O invoke sc e

variable {O : Outlook → Prop} {invoke : Invoke} {R : α → Prop}

namespace Reports

theorem of {x : Run α} (hx : Frank O sc x R) : Reports O invoke sc (Told.of x) R := by
  intro t ho hcalm
  have h := hx t.act ho
  simp only [Leaves, Ensures, Told.of] at h ⊢
  cases hr : x sc t.act with
  | ok r a => rw [hr] at h; exact ⟨h.1, hcalm, h.2⟩
  | error e a => rw [hr] at h; exact ⟨h.1, .inl ⟨hcalm, h.2⟩⟩

theorem pure {r : α} (h : R r) : Reports O invoke sc (Pure.pure r) R := fun _ ho hcalm => ⟨ho, hcalm, h⟩

theorem throw {e : ScriptError} (he : e.Own sc.program) :
    Reports O invoke sc (MonadExcept.throw e : Told α) R := fun _ ho hcalm => ⟨ho, .inl ⟨hcalm, he⟩⟩

theorem bind {S : β → Prop} {x : Told β} {f : β → Told α} (hx : Reports O invoke sc x S)
    (hf : ∀ b, S b → Reports O invoke sc (f b) R) : Reports O invoke sc (x >>= f) R := by
  intro t ho hcalm
  refine Ensures.bind (hx t ho hcalm) fun b t' h => ?_
  exact hf b h.2.2 t' h.1 h.2.1

theorem andThen {S : β → Prop} {x : Told β} {f : β → Told α} (hx : Reports O invoke sc x S)
    (hf : ∀ b, Reports O invoke sc (f b) R) : Reports O invoke sc (x >>= f) R := hx.bind fun b _ => hf b

theorem ite {c : Prop} [Decidable c] {x y : Told α} (hx : Reports O invoke sc x R)
    (hy : Reports O invoke sc y R) : Reports O invoke sc (if c then x else y) R := by
  split
  · exact hx
  · exact hy

theorem asked (output : PinId) : Reports O invoke sc (Told.tell (.asked output)) fun _ => True :=
  fun _ ho hcalm => ⟨ho, hcalm, trivial⟩

theorem computed (id : NodeId) : Reports O invoke sc (Told.tell (.computed id)) fun _ => True :=
  fun _ ho hcalm => ⟨ho, hcalm, trivial⟩

theorem close : Reports O invoke sc Told.close fun _ => True := fun _ ho hcalm => ⟨ho, hcalm, trivial⟩

end Reports

/-- What a computation needs to know of the program and of what is called. -/
structure Scope.Minded (O : Outlook → Prop) (invoke : Invoke) (sc : Scope) : Prop where
  calls : invoke.Minds O sc.context
  /-- The failure of a nested call may be forgotten. -/
  clears : ∀ m : Machine, O m.outlook →
    O (m.modifyInterpreter sc.seat fun i => { i with nestedFailure := none }).outlook

namespace Told

section Pulls

variable (h : sc.Minded O invoke) {pull : PinId → Told (Option Place)}
  (hpull : ∀ id, sc.program.Rooted id → Reports O invoke sc (pull id) fun _ => True)
  {n : ProgramNode} (hn : sc.program.Has n)
include h hpull hn

theorem leaves_withArguments {f : Function} {k : List Value → Told α}
    (hexplains : ∀ e o tale, O o → tale.Explains O invoke sc e → E e o tale)
    (hk : ∀ args t, O t.act.machine.outlook → t.tale.Calm O invoke sc → Leaves (k args) sc t Q E)
    (pins : List (Param × PinId)) (hpins : ∀ x ∈ pins, x.2 ∈ n.dataIn) (ho : O t.act.machine.outlook)
    (hcalm : t.tale.Calm O invoke sc) : Leaves (withArguments invoke pull n f pins k) sc t Q E := by
  induction pins generalizing k t with
  | nil => exact hk [] t ho hcalm
  | cons first rest ih =>
    obtain ⟨p, id⟩ := first
    have hid := hn.rooted (hpins _ (.head rest))
    have hrest : ∀ x ∈ rest, x.2 ∈ n.dataIn := fun x hx => hpins x (.tail _ hx)
    have hfail : ∀ {e : ScriptError} {t : Telling},
        O t.act.machine.outlook ∧ t.tale.Explains O invoke sc e → E e t.act.machine.outlook t.tale :=
      fun h => hexplains _ _ _ h.1 h.2
    refine Ensures.bind ((hpull id hid t ho hcalm).mono (fun _ _ h => h) fun _ _ => hfail) ?_
    rintro data t₁ ⟨ho₁, hcalm₁, -⟩
    refine Ensures.bind ((Reports.of (frank_pinType id) t₁ ho₁ hcalm₁).mono (fun _ _ h => h)
      fun _ _ => hfail) ?_
    rintro ty t₂ ⟨ho₂, hcalm₂, -⟩
    cases data with
    | none =>
      dsimp only
      split
      · exact ih (fun args => hk _) hrest ho₂ hcalm₂
      · exact hfail ⟨ho₂, .inl ⟨hcalm₂, ((ScriptError.Own.bare _ _).atNode hn.hasNode).atPin hid.hasPin⟩⟩
    | some source =>
      dsimp only
      split
      · refine Ensures.bind ((Reports.of (Frank.mapError (frank_copyTemp h.calls ty source)
          fun _ he => (he.atNode hn.hasNode).atPin hid.hasPin) t₂ ho₂ hcalm₂).mono (fun _ _ h => h)
          fun _ _ => hfail) ?_
        rintro temp t₃ ⟨ho₃, hcalm₃, -⟩
        exact (ih (fun args => hk _) hrest ho₃ hcalm₃).andFinally fun _ =>
          (Exec.minds_endCharge _ _).bind fun _ => Exec.minds_free temp
      · exact ih (fun args => hk _) hrest ho₂ hcalm₂

omit hpull in
theorem leaves_makeCall {f : Function} (hop : n.op = .call f) (args : List Value)
    (ho : O t.act.machine.outlook) (hcalm : t.tale.Calm O invoke sc) :
    Leaves (makeCall invoke n f args) sc t
      (fun outcome o tale => O o ∧ match outcome with
        | .ok _ => tale.Calm O invoke sc
        | .error ce => ∃ c m, tale.Fails O invoke sc c ce m ∧ c.function = f ∧ c.node = n.id ∧
          o.failure sc.seat = m.outlook.failure sc.seat)
      fun e o tale => O o ∧ tale.Explains O invoke sc e := by
  refine Ensures.bind (Reports.of (frank_resultStorage _ _) t ho hcalm) ?_
  rintro buffer ⟨⟨frame, m₁⟩, tale⟩ ⟨ho₁, hcalm₁, -⟩
  have ho₂ := h.clears m₁ ho₁
  have hcleared : (m₁.modifyInterpreter sc.seat fun i => { i with nestedFailure := none }).outlook.failure
      sc.seat = none := by
    simp only [Machine.outlook, Machine.interpreter_modifyInterpreter]
  obtain ⟨m₂, hm₂⟩ : ∃ m₂,
      m₁.modifyInterpreter sc.seat (fun i => { i with nestedFailure := none }) = m₂ :=
    ⟨_, rfl⟩
  rw [hm₂] at ho₂ hcleared
  let call : NodeCall := ⟨n.id, f, args, buffer, m₂⟩
  have hproper : call.Proper O sc := ⟨⟨n, hn, rfl, hop⟩, ho₂, hcleared⟩
  have hcalls := h.calls f args buffer m₂ ho₂
  have hdone : (do
      of (modifyInterpreter fun i => { i with nestedFailure := none })
      tell (.called ⟨n.id, f, args, buffer, (← get).act.machine⟩)
      of (liftTotal (Exec.attempt (invoke f args buffer))) : Told (Except CallError (Option Value)))
        sc ⟨⟨frame, m₁⟩, tale⟩ =
      of (liftTotal (Exec.attempt (invoke f args buffer))) sc
        ⟨⟨frame, m₂⟩, { tale with now := .called call :: tale.now }⟩ := by
    subst hm₂
    rfl
  unfold Ensures at hcalls ⊢
  rw [hdone]
  simp only [of, liftTotal, Exec.attempt]
  cases houtcome : invoke f args buffer sc.context m₂ with
  | ok r m =>
    rw [houtcome] at hcalls
    refine ⟨hcalls.1, fun c hc => ?_⟩
    rw [Tale.calls_called] at hc
    rcases List.mem_cons.mp hc with rfl | hc
    · exact ⟨hproper, r, m, houtcome⟩
    · exact hcalm₁ c hc
  | error e m =>
    rw [houtcome] at hcalls
    exact ⟨hcalls, call, m, ⟨hproper, houtcome, tale, rfl, hcalm₁⟩, rfl, rfl, rfl⟩

theorem reports_callNode {f : Function} (hop : n.op = .call f) :
    Reports O invoke sc (callNode invoke pull n f) fun _ => True := by
  intro t ho hcalm
  have hcall := (leaves_withArguments h hpull hn (f := f) (t := t) (fun e o tale ho he => ⟨ho, he⟩)
    (fun args t => leaves_makeCall h hn hop args) (f.params.zip n.dataIn)
    (fun x hx => (List.of_mem_zip hx).2) ho hcalm).withStack
  refine Ensures.bind hcall ?_
  rintro outcome ⟨⟨frame, m⟩, tale⟩ ⟨ho', houtcome⟩
  cases outcome with
  | ok result =>
    refine Reports.of ?_ _ ho' houtcome
    unfold settleCall
    dsimp only
    split
    · exact Frank.mapError (frank_storeResult _ _ _) fun _ he => he.atNode hn.hasNode
    · exact .liftTotal (Exec.minds_dropResult _)
  | error ce =>
    obtain ⟨c, m', hfails, hf, hid, hfailure⟩ := houtcome
    have hsettle : of (settleCall n f (.error ce)) sc ⟨⟨frame, m⟩, tale⟩ = .error
        ((ScriptError.blame f ce (m.outlook.failure sc.seat)).atNode n.id)
        ⟨⟨frame, m.modifyInterpreter sc.seat fun i => { i with nestedFailure := none }⟩, tale⟩ := by
      simp only [of, settleCall, Bind.bind, ReaderT.bind, EStateM.bind, callFailure_eq]
      rfl
    show Ensures _ _ _ _ _
    unfold Ensures
    rw [hsettle]
    refine ⟨h.clears m ho', .inr ⟨c, ce, m', hfails, ?_⟩⟩
    rw [hf, hid, hfailure]

omit h in
theorem reports_pullTarget :
    Reports O invoke sc (pullTarget pull n) fun _ => True := by
  refine (Reports.of (frank_nth _ _)).bind fun id hid => ?_
  have hrooted := hn.rooted_of_getElem? hid
  refine (hpull id hrooted).andThen fun data => ?_
  cases data with
  | some place => exact .pure trivial
  | none => exact .throw (((ScriptError.Own.bare _ _).atNode hn.hasNode).atPin hrooted.hasPin)

theorem reports_getField (offset : Nat) (type : Handle) :
    Reports O invoke sc (getField invoke pull n offset type) fun _ => True := by
  refine (reports_pullTarget hpull hn).andThen fun source => .of ?_
  refine (frank_nth _ _).andThen fun out => frank_read.andThen fun s => ?_
  refine (frank_fillOwned out _ fun place => ?_).andThen fun _ => .pure trivial
  exact .lift (Invoke.minds_copyAt h.calls _ _ _) fun _ => (ScriptError.Own.bare _ _).atNode hn.hasNode

theorem reports_evaluate : Reports O invoke sc (evaluate invoke pull n) fun _ => True := by
  refine (Reports.of frank_tick).andThen fun _ => (Reports.of (frank_noteNode _ _)).andThen fun _ =>
    (Reports.computed n.id).andThen fun _ => ?_
  unfold compute
  cases hop : n.op with
  | call f => exact reports_callNode h hpull hn hop
  | fieldGet offset type => exact reports_getField h hpull hn offset type
  | _ => exact .throw ((ScriptError.Own.bare _ _).atNode hn.hasNode)

theorem reports_askOutput {output : PinId} (hout : sc.program.HasPin output) :
    Reports O invoke sc (askOutput invoke pull n output) fun _ => True := by
  have hvalue : Reports O invoke sc (do return (← of Run.frame).value? (← of Run.program) output)
      fun _ => True :=
    (Reports.of frank_frame).andThen fun _ => (Reports.of frank_program).bind fun _ _ => .pure trivial
  refine (Reports.asked output).andThen fun _ => ?_
  refine .ite ((Reports.andThen (.of frank_frame) fun f => .ite (reports_evaluate h hpull hn)
    (.pure trivial)).andThen fun _ => hvalue) ?_
  refine (Reports.of frank_frame).andThen fun f => .ite ?_ hvalue
  exact .throw (((ScriptError.Own.bare .linkNotAllowed _).atNode
    hn.hasNode).atPin hout)

omit hn

theorem reports_pullOutput (output : PinId) :
    Reports O invoke sc (pullOutput invoke pull output) fun _ => True := by
  refine (Reports.of (frank_pin output)).bind fun q hq => (Reports.of (frank_node _)).bind fun n hnode => ?_
  have hn := Program.has_of_node? hnode
  have hout := Program.hasPin_of_pin? hq
  cases n.op with
  | reroute => exact (Reports.of (frank_nth _ _)).bind fun id hid => hpull id (hn.rooted_of_getElem? hid)
  | _ => exact reports_askOutput h hpull hn hout

theorem reports_pullStep {id : PinId} (hid : sc.program.Rooted id) :
    Reports O invoke sc (pullStep invoke pull id) fun _ => True := by
  have hsupply : Reports O invoke sc (supply invoke pull id) fun _ => True := by
    refine (Reports.of (frank_pin id)).andThen fun q => ?_
    cases q.source with
    | some output => exact reports_pullOutput h hpull output
    | none => exact .of (frank_fallback h.calls hid)
  exact hsupply.andThen fun data => (Reports.of (frank_watchInput id data)).andThen fun _ => .pure trivial

end Pulls

section Statements

variable (h : sc.Minded O invoke)
include h

theorem reports_pullWithin (depth : Nat) {id : PinId} (hid : sc.program.Rooted id) :
    Reports O invoke sc (pullWithin invoke depth id) fun _ => True := by
  induction depth generalizing id with
  | zero => exact .throw ((ScriptError.Own.bare _ _).atPin hid.hasPin)
  | succ depth ih => exact reports_pullStep h (fun _ => ih) hid

theorem reports_pullInput {id : PinId} (hid : sc.program.Rooted id) :
    Reports O invoke sc (pullInput invoke id) fun _ => True :=
  (Reports.of frank_program).andThen fun _ => reports_pullWithin h _ hid

theorem reports_pullAtom {id : PinId} (hid : sc.program.Rooted id) (name : String) (prim : Prim) :
    Reports O invoke sc (pullAtom invoke id name prim) fun _ => True := by
  refine (reports_pullInput h hid).andThen fun data => ?_
  cases data with
  | none => exact .throw ((ScriptError.Own.bare _ _).atPin hid.hasPin)
  | some place =>
    exact (Reports.of (frank_expectType id name)).andThen fun _ =>
      (Reports.of frank_memory).andThen fun _ => .pure trivial

theorem reports_pullBool {id : PinId} (hid : sc.program.Rooted id) :
    Reports O invoke sc (pullBool invoke id) fun _ => True :=
  (reports_pullAtom h hid _ _).andThen fun _ => .pure trivial

theorem reports_pullInt {id : PinId} (hid : sc.program.Rooted id) :
    Reports O invoke sc (pullInt invoke id) fun _ => True := by
  refine (reports_pullAtom h hid _ _).andThen fun a => ?_
  cases a <;> exact .pure trivial

variable {n : ProgramNode} (hn : sc.program.Has n)
include hn

theorem reports_visitFor (via : Option PinId) :
    Reports O invoke sc (visitFor invoke n via) fun _ => True := by
  have hturn : ∀ index body completed, Reports O invoke sc (turnFor invoke n index body completed)
      fun _ => True := by
    intro index body completed
    refine (Reports.of (frank_nth _ _)).bind fun id hid =>
      (reports_pullInt h (hn.rooted_of_getElem? hid)).andThen fun stop =>
      (Reports.of (frank_readInt index)).andThen fun k => ?_
    exact .ite (.of (frank_complete n completed)) (.of (frank_target body))
  refine (Reports.of (frank_nth _ _)).andThen fun break' => (Reports.of (frank_nth _ _)).andThen fun index =>
    (Reports.of (frank_nth _ _)).andThen fun body => (Reports.of (frank_nth _ _)).andThen fun completed => ?_
  refine .ite (.of (frank_complete n completed)) ?_
  cases via with
  | some pin =>
    exact (Reports.of (frank_nth _ _)).bind fun id hid =>
      (reports_pullInt h (hn.rooted_of_getElem? hid)).andThen fun start =>
      (Reports.of (frank_writeInt index start)).andThen fun _ => (Reports.of (.modifyFrame _)).andThen
      fun _ => hturn index body completed
  | none =>
    exact (Reports.of (frank_readInt index)).andThen fun _ => (Reports.of (frank_writeInt index _)).andThen
      fun _ => hturn index body completed

theorem reports_visitWhile (via : Option PinId) :
    Reports O invoke sc (visitWhile invoke n via) fun _ => True := by
  refine (Reports.of (frank_nth _ _)).andThen fun break' => (Reports.of (frank_nth _ _)).andThen fun body =>
    (Reports.of (frank_nth _ _)).andThen fun completed => .ite (.of (frank_complete n completed)) ?_
  have hturn : Reports O invoke sc (do
      if ← pullBool invoke (← of (nth n.dataIn 0)) then of (target body) else of (complete n completed))
      fun _ => True :=
    (Reports.of (frank_nth _ _)).bind fun id hid =>
      (reports_pullBool h (hn.rooted_of_getElem? hid)).andThen fun _ =>
      .ite (.of (frank_target body)) (.of (frank_complete n completed))
  split
  · exact (Reports.of (.modifyFrame _)).andThen fun _ => hturn
  · exact hturn

theorem reports_setField (offset : Nat) (type : Handle) :
    Reports O invoke sc (setField invoke n offset type) fun _ => True := by
  refine (reports_pullTarget (fun _ => reports_pullInput h) hn).andThen fun owner =>
    (Reports.of (frank_nth _ _)).bind fun id hid => ?_
  have hrooted := hn.rooted_of_getElem? hid
  refine (reports_pullInput h hrooted).andThen fun data => ?_
  cases data with
  | none => exact .throw ((ScriptError.Own.bare _ _).atPin hrooted.hasPin)
  | some source =>
    refine .of (frank_read.andThen fun s => frank_withStack ?_)
    refine (Frank.mapError (frank_copyTemp h.calls _ source) fun _ he => he.atNode hn.hasNode).andThen
      fun temp => .liftTotal ?_
    exact (Exec.minds_destroy _ _).bind fun _ => (Exec.minds_modifyMemory _).bind fun _ =>
      (Exec.minds_modifyCare _).bind fun _ => Exec.minds_free temp

theorem reports_finish (ret : Option Place) :
    Reports O invoke sc (finish invoke n ret) fun _ => True := by
  refine (Reports.of frank_program).andThen fun p => ?_
  cases p.result with
  | none => exact .pure trivial
  | some result =>
    obtain ⟨ty, form⟩ := result
    refine (Reports.of frank_read).andThen fun s => (Reports.of (frank_nth _ _)).bind fun id hid => ?_
    have hrooted := hn.rooted_of_getElem? hid
    refine (reports_pullInput h hrooted).andThen fun value => .of (.ite ?_ ?_)
    · cases value with
      | none => exact .throw ((ScriptError.Own.bare _ _).atPin hrooted.hasPin)
      | some source =>
        exact frank_produce _ ret fun place =>
          .mapError (frank_handOver h.calls _ source place) fun _ he => he.atNode hn.hasNode
    · cases value with
      | none => exact .ite (.pure trivial) (.throw ((ScriptError.Own.bare _ _).atPin hrooted.hasPin))
      | some place =>
        refine frank_interpreter.andThen fun i => frank_frame.andThen fun f => .ite (.throw ?_) (.pure trivial)
        exact ((ScriptError.Own.bare .linkNotAllowed _).atNode
          hn.hasNode).atPin hrooted.hasPin

omit hn

theorem reports_statement (ret : Option Place) (arrival : Arrival) :
    Reports O invoke sc (statement invoke ret arrival) fun _ => True := by
  have hnext : ∀ pins i, Reports O invoke sc (do return Outcome.next (← of (target (← of (nth pins i)))))
      fun _ => True := fun _ _ =>
    (Reports.of (frank_nth _ _)).andThen fun id => (Reports.of (frank_target id)).andThen fun _ => .pure trivial
  cases arrival with
  | again marker =>
    refine (Reports.of (frank_node _)).bind fun n hnode => (Reports.of (frank_noteNode _ n)).andThen fun _ => ?_
    have hn := Program.has_of_node? hnode
    cases marker with
    | forLoop id => exact (reports_visitFor h hn none).andThen fun _ => .pure trivial
    | whileLoop id => exact (reports_visitWhile h hn none).andThen fun _ => .pure trivial
  | through id =>
    refine (Reports.of (frank_pin id)).andThen fun q => (Reports.of (frank_node _)).bind fun n hnode =>
      (Reports.of (frank_noteNode _ n)).andThen fun _ => ?_
    have hn := Program.has_of_node? hnode
    have hno : ∀ message, Reports O invoke sc
        (throw ((Program.bug message).atNode n.id) : Told Outcome) fun _ => True :=
      fun _ => .throw ((ScriptError.Own.bare _ _).atNode hn.hasNode)
    cases hop : n.op with
    | ret => exact (reports_finish h hn ret).andThen fun _ => .pure trivial
    | call f => exact (reports_callNode h (fun _ => reports_pullInput h) hn hop).andThen fun _ => hnext _ _
    | fieldSet offset type => exact (reports_setField h hn offset type).andThen fun _ => hnext _ _
    | branch =>
      exact (Reports.of (frank_nth _ _)).bind fun id hid =>
        (reports_pullBool h (hn.rooted_of_getElem? hid)).andThen fun _ => hnext _ _
    | forLoop => exact (reports_visitFor h hn _).andThen fun _ => .pure trivial
    | whileLoop => exact (reports_visitWhile h hn _).andThen fun _ => .pure trivial
    | reroute => exact hnext _ _
    | entry => exact hno _
    | fieldGet offset type => exact hno _
    | comment => exact hno _

theorem reports_statements (ret : Option Place) (fuel : Nat) (next : Option PinId) :
    Reports O invoke sc (statements invoke ret fuel next) fun _ => True := by
  induction fuel generalizing next with
  | zero => exact .throw (.bare _ _)
  | succ fuel ih =>
    refine (Reports.of frank_frame).andThen fun f => ?_
    cases arrival? next f with
    | none => exact .of (frank_finishEmpty h.calls ret)
    | some arrival =>
      refine (Reports.of frank_tick).andThen fun _ => (reports_statement h ret arrival).andThen fun outcome => ?_
      cases outcome with
      | done result => exact Reports.close.andThen fun _ => .pure trivial
      | next next => exact (Reports.of (.modifyFrame _)).andThen fun _ => Reports.close.andThen fun _ => ih next

/-- Whatever fails in a running call, its tale explains. -/
theorem reports_body (args : List Value) (ret : Option Place) :
    Reports O invoke sc (body invoke args ret) fun _ => True := by
  refine (Reports.of frank_program).andThen fun p => (Reports.of (frank_node _)).andThen fun entry =>
    (Reports.of (frank_bindArguments _ _ _)).andThen fun _ => .ite ?_ ?_
  · refine (Reports.of frank_tick).andThen fun _ => ?_
    cases p.returnNode with
    | none => exact .throw (.bare _ _)
    | some id =>
      exact (Reports.of (frank_node id)).bind fun n hnode =>
        (reports_finish h (Program.has_of_node? hnode) ret).andThen fun _ => Reports.close.andThen fun _ =>
          .pure trivial
  · cases entry.flowOut.head? with
    | some output => exact (Reports.of (frank_target output)).andThen fun _ => reports_statements h ret _ _
    | none => exact reports_statements h ret _ _

end Statements

end Told

end Flowscript
