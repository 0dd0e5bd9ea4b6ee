import Flowscript.Proofs.Run.RecordedEvents
import Flowscript.Proofs.Run.RunMoments
import Flowscript.Proofs.Run.SealedReferences

/-! # What lasts in a frame

Apart from entering and leaving loops, all that a call does to its frame is to set slots. So what lasts while
the slots of some pins are set holds after a computation that sets only these if it held before, whatever
the machine does meanwhile. What every statement leaves as it was holds between any two statements, and when the
call fails. When the call is over, its result may have been moved out of the frame.
-/
namespace Flowscript

variable {ε α β : Type} {J : Frame → Prop} {sc : Scope}

theorem Maintains.ite {ρ σ : Type} {I : σ → Prop} {r : ρ} {R : α → Prop} {c : Prop} [Decidable c]
    {x y : ReaderT ρ (EStateM ε σ) α} (hx : Maintains I r x R) (hy : Maintains I r y R) :
    Maintains I r (if c then x else y) R := by
  split
  · exact hx
  · exact hy

/-- A computation of a call leaves its frame in order. -/
abbrev Lasts (J : Frame → Prop) (sc : Scope) (x : Run α) : Prop :=
  Maintains (fun a => J a.frame) sc x fun _ => True

/-- Setting the slot of a pin leaves a frame in order. -/
def Frame.Spares (J : Frame → Prop) (id : PinId) : Prop := ∀ f state, J f → J (f.set id state)

/-- What pulling sets leaves a frame in order: inputs of nodes and outputs of expressions. -/
structure Frame.Tolerates (J : Frame → Prop) (p : Program) : Prop where
  inputs : ∀ id n, p.node? id = some n → ∀ i ∈ n.dataIn, Frame.Spares J i
  outputs : ∀ id n, p.node? id = some n → n.pure = true → ∀ o ∈ n.dataOut, Frame.Spares J o

theorem Frame.Tolerates.of_all {p : Program} (h : ∀ id, Frame.Spares J id) : Frame.Tolerates J p :=
  ⟨fun _ _ _ i _ => h i, fun _ _ _ _ o _ => h o⟩

theorem ensures_liftTotal (x : Exec Empty α) (a : Activation) :
    Ensures (Run.liftTotal x) sc a (fun _ b => b.frame = a.frame) fun _ _ => False := by
  refine Ensures.run_liftTotal_iff.mpr ?_
  unfold Ensures
  cases x sc.context a.machine with
  | ok r m => exact rfl
  | error e m => exact e.elim

namespace Lasts

theorem lift (f : ε → ScriptError) (x : Exec ε α) : Lasts J sc (Run.lift f x) := by
  intro a ha
  refine Ensures.run_lift_iff.mpr ?_
  unfold Ensures
  cases x sc.context a.machine with
  | ok r m => exact ⟨ha, trivial⟩
  | error e m => exact ha

theorem liftTotal (x : Exec Empty α) : Lasts J sc (Run.liftTotal x) := fun a ha =>
  (ensures_liftTotal x a).mono (fun _ b hb => ⟨show J b.frame from hb ▸ ha, trivial⟩) fun _ _ hb => hb.elim

theorem andFinally {x : Run α} (hx : Lasts J sc x) (after : Exec Empty Unit) :
    Lasts J sc (x.andFinally after) := by
  intro a ha
  refine Ensures.run_andFinally_iff.mpr ((hx a ha).mono (fun r b hb => ?_) fun e b hb => ?_)
  all_goals
    unfold Ensures
    cases after sc.context b.machine with
    | ok u m => exact hb
    | error e m => trivial

theorem modifyInterpreter (f : Interpreter → Interpreter) : Lasts J sc (Run.modifyInterpreter f) :=
  fun _ ha => ⟨ha, trivial⟩

theorem modifyFrame {f : Frame → Frame} (hf : ∀ g, J g → J (f g)) : Lasts J sc (Run.modifyFrame f) :=
  fun a ha => ⟨hf a.frame ha, trivial⟩

end Lasts

/-- A computation of a call finishes with a frame as it should be, and leaves it in order when it fails. -/
def Finishes (J : Frame → Prop) (sc : Scope) (x : Run α) (Q : α → Frame → Prop) : Prop :=
  ∀ a, J a.frame → Ensures x sc a (fun r b => Q r b.frame) fun _ b => J b.frame

theorem Maintains.finishes {Q : α → Frame → Prop} {R : α → Prop} {x : Run α}
    (hx : Maintains (fun a => J a.frame) sc x R) (hQ : ∀ r f, J f → R r → Q r f) : Finishes J sc x Q :=
  fun a ha => (hx a ha).mono (fun r b hb => hQ r b.frame hb.1 hb.2) fun _ _ hb => hb

namespace Finishes

variable {Q : α → Frame → Prop} {R : α → Prop} {x : Run α}

theorem maintains (hx : Finishes J sc x Q) (hQ : ∀ r f, Q r f → J f ∧ R r) :
    Maintains (fun a => J a.frame) sc x R :=
  fun a ha => (hx a ha).mono (fun r b hb => hQ r b.frame hb) fun _ _ hb => hb

theorem bind {R : β → Prop} {x : Run β} {f : β → Run α} (hx : Maintains (fun a => J a.frame) sc x R)
    (hf : ∀ r, R r → Finishes J sc (f r) Q) : Finishes J sc (x >>= f) Q :=
  fun a ha => (hx a ha).bind fun r b hb => hf r hb.2 b hb.1

theorem map {P : β → Frame → Prop} {x : Run β} {f : β → α} (hx : Finishes J sc x P)
    (hf : ∀ r g, P r g → Q (f r) g) : Finishes J sc (x >>= fun r => Pure.pure (f r)) Q :=
  fun a ha => (hx a ha).bind fun r b hb => hf r b.frame hb

theorem mapError (f : ScriptError → ScriptError) (hx : Finishes J sc x Q) : Finishes J sc (x.mapError f) Q :=
  fun a ha => Ensures.run_mapError_iff.mpr (hx a ha)

end Finishes

namespace Run

section Lookups

variable {I : Activation → Prop}

theorem maintains_pin (id : PinId) : Maintains I sc (pin id) fun q => sc.program.pin? id = some q := by
  rw [← bind_pure (pin id)]
  exact .look_pin fun q hq => .pure hq

theorem maintains_node (id : NodeId) : Maintains I sc (node id) fun n => sc.program.node? id = some n := by
  rw [← bind_pure (node id)]
  exact .look_node fun n hn => .pure hn

theorem maintains_nth (pins : List PinId) (index : Nat) :
    Maintains I sc (nth pins index) fun id => pins[index]? = some id := by
  rw [← bind_pure (nth pins index)]
  exact .look_nth fun id hid => .pure hid

theorem maintains_program : Maintains I sc program fun p => p = sc.program := by
  rw [← bind_pure program]
  exact .look_program (.pure rfl)

end Lookups

variable (invoke : Invoke)

theorem lasts_noteNode (message : String) (n : ProgramNode) : Lasts J sc (noteNode message n) := by
  refine .look_read ?_
  cases sc.context.traceLimit with
  | none => exact .pure trivial
  | some limit => exact Lasts.liftTotal _

theorem lasts_tick : Lasts J sc tick := by
  refine (Maintains.looks looks_interpreter).andThen fun i => ?_
  refine .ite ?_ (Lasts.modifyInterpreter _)
  exact (Lasts.modifyInterpreter _).andThen fun _ => .throw _

theorem lasts_allocTemp (l : Layout) : Lasts J sc (allocTemp l) := by
  refine (Maintains.looks looks_interpreter).andThen fun i => ?_
  cases i.stack.alloc? l with
  | none => exact .pure trivial
  | some room => exact (Lasts.modifyInterpreter _).andThen fun _ => fun _ ha => ⟨ha, trivial⟩

theorem lasts_withStack {x : Run α} (hx : Lasts J sc x) : Lasts J sc (withStack x) := by
  refine (Maintains.looks looks_interpreter).andThen fun _ => .look_read ?_
  exact hx.andFinally _

theorem lasts_copyTemp (t : TypeInfo) (source : Place) : Lasts J sc (copyTemp invoke t source) := by
  refine (lasts_allocTemp t.layout).andThen fun temp => ?_
  cases temp with
  | none => exact .throw _
  | some temp =>
    exact (Lasts.lift _ _).andThen fun _ => (Lasts.liftTotal _).andThen fun _ => .pure trivial

theorem lasts_callFailure (f : Function) (e : CallError) : Lasts J sc (callFailure f e) := by
  refine (Maintains.looks looks_interpreter).andThen fun i => (Lasts.modifyInterpreter _).andThen fun _ => ?_
  cases i.nestedFailure with
  | none => exact .pure trivial
  | some n => exact .ite (.pure trivial) (.pure trivial)

theorem lasts_watchInput (id : PinId) (data : Option Place) : Lasts J sc (watchInput id data) := by
  refine .look_read ?_
  split
  · exact Lasts.liftTotal _
  · exact .pure trivial

section Slot

variable {id : PinId} (hid : Frame.Spares J id)
include hid

theorem lasts_set (state : SlotState) : Lasts J sc (modifyFrame (·.set id state)) :=
  Lasts.modifyFrame fun f => hid f state

theorem lasts_clear : Lasts J sc (clear id) := by
  refine .look_program ((Maintains.looks looks_frame).andThen fun f => ?_)
  refine .ite ?_ (lasts_set hid .empty)
  split
  · exact .look_read ((Lasts.liftTotal _).andThen fun _ => lasts_set hid .empty)
  · exact lasts_set hid .empty

theorem lasts_setOwned : Lasts J sc (setOwned id) := by
  refine (Maintains.looks (looks_charge? id)).andThen fun charge => ?_
  cases charge with
  | some v => exact (Lasts.liftTotal _).andThen fun _ => lasts_set hid .owned
  | none => exact lasts_set hid .owned

theorem lasts_setBorrowed (place : Place) : Lasts J sc (setBorrowed id place) :=
  (lasts_clear hid).andThen fun _ => lasts_set hid (.borrowed place)

theorem lasts_setNull : Lasts J sc (setNull id) := (lasts_clear hid).andThen fun _ => lasts_set hid .null

theorem lasts_bindArgument (index : Nat) (v : Value) : Lasts J sc (bindArgument index id v) := by
  refine .look_pinType fun handle => .ite (.throw _) ?_
  cases v.place? with
  | some place => exact lasts_setBorrowed hid place
  | none => exact .ite (lasts_setNull hid) (.throw _)

theorem lasts_writeInt (k : Int) : Lasts J sc (writeInt id k) := by
  refine (lasts_clear hid).andThen fun _ => (Maintains.looks (looks_storage? id)).andThen fun place => ?_
  cases place with
  | some place => exact (Lasts.liftTotal _).andThen fun _ => lasts_setOwned hid
  | none => exact .pure trivial

theorem lasts_fillOwned (missing : String) {init : Place → Run Unit}
    (hinit : ∀ place, Lasts J sc (init place)) : Lasts J sc (fillOwned id missing init) := by
  refine (lasts_clear hid).andThen fun _ => (Maintains.looks (looks_storage id missing)).andThen fun place => ?_
  exact (hinit place).andThen fun _ => (lasts_setOwned hid).andThen fun _ => .pure trivial

theorem lasts_fallback : Lasts J sc (fallback invoke id) := by
  have hconstructed : ∀ q t world, Lasts J sc (fallback.constructed invoke id q t world) := by
    intro q t world
    unfold fallback.constructed
    split
    · exact .pure trivial
    · refine .ite (lasts_fillOwned hid _ fun _ => Lasts.lift _ _) (.ite ?_ (.throw _))
      exact (lasts_setNull hid).andThen fun _ => .pure trivial
  refine .look_pin fun q _ => .look_pinType fun handle => .look_read ?_
  cases q.default with
  | some j => exact lasts_fillOwned hid _ fun _ => Lasts.lift _ _
  | none =>
    refine (Maintains.looks looks_interpreter).andThen fun i => ?_
    split
    · exact .ite (.pure trivial) (hconstructed _ _ _)
    · exact hconstructed _ _ _

theorem lasts_storeResult (form : Form) (result : Option Value) : Lasts J sc (storeResult id form result) := by
  refine (Maintains.looks (looks_storage? id)).andThen fun place => ?_
  split
  · exact (Lasts.liftTotal _).andThen fun _ => .throw _
  · exact .ite (lasts_setOwned hid) (.throw _)
  · refine .ite ?_ ((Lasts.liftTotal _).andThen fun _ => ?_)
    · exact (lasts_clear hid).andThen fun _ => (Lasts.liftTotal _).andThen fun _ => lasts_setOwned hid
    · split
      · exact lasts_setBorrowed hid _
      · exact lasts_setNull hid

end Slot

theorem lasts_bindArguments {ids : List PinId} (hids : ∀ id ∈ ids, Frame.Spares J id) (index : Nat)
    (args : List Value) : Lasts J sc (bindArguments index ids args) := by
  induction ids generalizing index args with
  | nil => cases args <;> exact .pure trivial
  | cons id ids ih =>
    obtain ⟨hid, hids⟩ := List.forall_mem_cons.mp hids
    cases args with
    | nil => exact .pure trivial
    | cons v vs => exact (lasts_bindArgument hid index v).andThen fun _ => ih hids _ vs

section Node

variable {n : ProgramNode} (hout : ∀ o ∈ n.dataOut, Frame.Spares J o)
include hout

theorem lasts_resultStorage (form : Option Form) :
    Lasts J sc (resultStorage n.dataOut.head? form) := by
  unfold resultStorage
  split
  · rename_i id form hid
    refine .ite ?_ (.pure trivial)
    exact (lasts_clear (hout id (List.mem_of_mem_head? hid))).andThen fun _ => .looks (looks_storage? id)
  · exact .pure trivial

theorem lasts_settleCall (f : Function) (outcome : Except CallError (Option Value)) :
    Lasts J sc (Told.settleCall n f outcome) := by
  cases outcome with
  | error e => exact (lasts_callFailure f e).andThen fun _ => .throw _
  | ok result =>
    unfold Told.settleCall
    dsimp only
    split
    · rename_i id form hid _
      exact (lasts_storeResult (hout id (List.mem_of_mem_head? hid)) _ _).mapError _
    · exact Lasts.liftTotal _

theorem lasts_fillField (offset : Nat) (type : Handle) (source : Place) :
    Lasts J sc (Told.fillField invoke n offset type source) := by
  refine .look_nth fun out ho => .look_read ?_
  refine (lasts_fillOwned (hout out (List.mem_of_getElem? ho)) _ fun _ => ?_).andThen fun _ => .pure trivial
  exact Lasts.lift _ _

end Node

theorem lasts_storeField (n : ProgramNode) (offset : Nat) (type : Handle) (owner source : Place) :
    Lasts J sc (Told.storeField invoke n offset type owner source) := by
  refine .look_read (lasts_withStack ?_)
  exact ((lasts_copyTemp invoke _ source).mapError _).andThen fun _ => Lasts.liftTotal _

section Pulls

theorem lasts_withArguments {pull : Pull} (n : ProgramNode) (f : Function) {pins : List (Param × PinId)}
    {k : List Value → Run α} (hpull : ∀ x ∈ pins, Lasts J sc (pull x.2)) (hk : ∀ args, Lasts J sc (k args)) :
    Lasts J sc (withArguments invoke pull n f pins k) := by
  induction pins generalizing k with
  | nil => exact hk []
  | cons pin rest ih =>
    obtain ⟨p, id⟩ := pin
    obtain ⟨hid, hpull⟩ := List.forall_mem_cons.mp hpull
    refine hid.andThen fun source => .look_pinType fun handle => ?_
    cases source with
    | none => exact .ite (ih hpull fun args => hk _) (.throw _)
    | some source =>
      refine .ite ?_ (ih hpull fun args => hk _)
      refine ((lasts_copyTemp invoke _ source).mapError _).andThen fun temp => ?_
      exact Lasts.andFinally (ih hpull fun args => hk _) _

variable {pull : Pull} {n : ProgramNode} (hpull : ∀ id ∈ n.dataIn, Lasts J sc (pull id))
include hpull

theorem lasts_pullTarget : Lasts J sc (pullTarget pull n) := by
  refine .look_nth fun id hid => (hpull id (List.mem_of_getElem? hid)).andThen fun place => ?_
  cases place with
  | none => exact .throw _
  | some place => exact .pure trivial

theorem lasts_callNode (hout : ∀ o ∈ n.dataOut, Frame.Spares J o) (f : Function) :
    Lasts J sc (callNode invoke pull n f) := by
  refine (lasts_withStack (lasts_withArguments invoke n f (fun x hx => ?_) fun args => ?_)).andThen
    fun outcome => ?_
  · exact hpull x.2 (List.of_mem_zip (a := x.1) hx).2
  · refine (lasts_resultStorage hout _).andThen fun buffer => (Lasts.modifyInterpreter _).andThen fun _ => ?_
    exact Lasts.liftTotal _
  · exact lasts_settleCall hout f outcome

theorem lasts_evaluate (hout : ∀ o ∈ n.dataOut, Frame.Spares J o) : Lasts J sc (evaluate invoke pull n) := by
  refine lasts_tick.andThen fun _ => (lasts_noteNode _ n).andThen fun _ => ?_
  split
  · exact lasts_callNode invoke hpull hout _
  · exact (lasts_pullTarget hpull).andThen fun source => lasts_fillField invoke hout _ _ source
  · exact .throw _

omit hpull

variable (hJ : Frame.Tolerates J sc.program)
include hJ

theorem lasts_pullWithin (depth : Nat) {id : PinId} (hid : Frame.Spares J id) :
    Lasts J sc (pullWithin invoke depth id) := by
  induction depth generalizing id with
  | zero => exact .throw _
  | succ depth ih =>
    have hsupply : Lasts J sc (supply invoke (pullWithin invoke depth) id) := by
      refine .look_pin fun q _ => ?_
      cases q.source with
      | none => exact lasts_fallback invoke hid
      | some output =>
        refine .look_pin fun q _ => .look_node fun n hn => ?_
        have hin : ∀ i ∈ n.dataIn, Lasts J sc (pullWithin invoke depth i) := fun i hi =>
          ih (hJ.inputs _ n hn i hi)
        have hvalue : Lasts J sc (do return (← frame).value? (← program) output : Run (Option Place)) :=
          (Maintains.looks looks_frame).andThen fun _ => .look_program (.pure trivial)
        split
        · exact .look_nth fun i hi => hin i (List.mem_of_getElem? hi)
        · split
          · next hpure =>
            refine (Maintains.looks looks_frame).andThen fun f => ?_
            exact .ite ((lasts_evaluate invoke hin (hJ.outputs _ n hn hpure)).andThen fun _ => hvalue) hvalue
          · refine (Maintains.looks looks_frame).andThen fun f => ?_
            exact .ite (.throw _) hvalue
    exact hsupply.andThen fun data => (lasts_watchInput id data).andThen fun _ => .pure trivial

theorem lasts_pullInput {id : PinId} (hid : Frame.Spares J id) : Lasts J sc (pullInput invoke id) :=
  .look_program (lasts_pullWithin invoke hJ _ hid)

theorem lasts_pullAtom {id : PinId} (hid : Frame.Spares J id) (name : String) (prim : Prim) :
    Lasts J sc (pullAtom invoke id name prim) := by
  refine (lasts_pullInput invoke hJ hid).andThen fun place => ?_
  cases place with
  | none => exact .throw _
  | some place =>
    refine Maintains.andThen ?_ fun _ => (Maintains.looks looks_memory).andThen fun _ => .pure trivial
    exact .look_pinType fun handle => .ite (.throw _) (.pure trivial)

theorem lasts_pullBool {id : PinId} (hid : Frame.Spares J id) : Lasts J sc (pullBool invoke id) :=
  (lasts_pullAtom invoke hJ hid _ _).andThen fun _ => .pure trivial

theorem lasts_pullInt {id : PinId} (hid : Frame.Spares J id) : Lasts J sc (pullInt invoke id) := by
  refine (lasts_pullAtom invoke hJ hid _ _).andThen fun atom => ?_
  cases atom <;> exact .pure trivial

end Pulls

section Results

variable {D : Frame → Prop}

theorem finishes_produce (t : TypeInfo) (ret : Option Place) {init : Place → Run Unit}
    (hinit : ∀ place, Finishes J sc (init place) fun _ => D) : Finishes J sc (produce t ret init) fun _ => D := by
  cases ret with
  | some place => exact (hinit place).map fun _ _ h => h
  | none =>
    refine Finishes.bind (Lasts.liftTotal _) fun place _ a ha => ?_
    -- The value is adopted where it could be constructed, and its storage given up where it could not.
    refine Ensures.bind (P := fun outcome b => match outcome with | .ok _ => D b.frame | .error _ => J b.frame)
      (Ensures.run_attempt_iff.mpr (hinit place a ha)) fun outcome b hb => ?_
    cases outcome
    all_goals
      refine ((ensures_liftTotal _ b).mono (fun _ _ hc => hc) fun _ _ hc => hc.elim).bind fun _ c hc => ?_
      rw [← hc] at hb
      exact hb

variable (hkeep : ∀ f, J f → D f) (hempty : ∀ id f, J f → D (f.set id .empty))
include hkeep hempty

theorem finishes_handOver (t : TypeInfo) (source target : Place) :
    Finishes J sc (handOver invoke t source target) fun _ => D := by
  refine Finishes.bind (Maintains.looks looks_frame) fun f _ => .bind maintains_program fun p _ => ?_
  split
  · refine Finishes.bind (Maintains.looks (looks_charge? _)) fun _ _ => .bind (Lasts.liftTotal _) fun _ _ a ha => ?_
    exact hempty _ a.frame ha
  · exact (Lasts.lift _ _).finishes fun _ f hf _ => hkeep f hf

theorem finishes_giveBack (n : ProgramNode) (ret : Option Place) (t : TypeInfo) (form : Form) (id : PinId)
    (value : Option Place) : Finishes J sc (Told.giveBack invoke n ret t form id value) fun _ => D := by
  unfold Told.giveBack
  split
  · cases value with
    | none => exact Maintains.finishes (.throw _) fun _ _ _ => False.elim
    | some source =>
      exact finishes_produce t ret fun place => (finishes_handOver invoke hkeep hempty t source place).mapError _
  · refine Maintains.finishes (R := fun _ => True) ?_ fun _ f hf _ => hkeep f hf
    cases value with
    | none => exact .ite (.pure trivial) (.throw _)
    | some place =>
      refine (Maintains.looks looks_interpreter).andThen fun _ => (Maintains.looks looks_frame).andThen fun _ => ?_
      exact .ite (.throw _) (.pure trivial)

theorem finishes_finish (n : ProgramNode) (hpull : ∀ id ∈ n.dataIn, Lasts J sc (pullInput invoke id))
    (ret : Option Place) : Finishes J sc (finish invoke n ret) fun _ => D := by
  refine Finishes.bind maintains_program fun p hprogram => ?_
  subst hprogram
  cases sc.program.result with
  | none => exact Maintains.finishes (R := fun _ => True) (.pure trivial) fun _ f hf _ => hkeep f hf
  | some result =>
    obtain ⟨h, form⟩ := result
    refine Finishes.bind (Maintains.looks .read) fun s _ => .bind (maintains_nth n.dataIn 0) fun i hi => ?_
    exact .bind (hpull i (List.mem_of_getElem? hi)) fun value _ =>
      finishes_giveBack invoke hkeep hempty n ret _ form i value

end Results

theorem lasts_produce (t : TypeInfo) (ret : Option Place) {init : Place → Run Unit}
    (hinit : ∀ place, Lasts J sc (init place)) : Lasts J sc (produce t ret init) :=
  (finishes_produce t ret fun place => (hinit place).finishes fun _ _ hf _ => hf).maintains
    fun _ _ h => ⟨h, trivial⟩

theorem lasts_giveBack (hempty : ∀ id f, J f → J (f.set id .empty)) (n : ProgramNode) (ret : Option Place)
    (t : TypeInfo) (form : Form) (id : PinId) (value : Option Place) :
    Lasts J sc (Told.giveBack invoke n ret t form id value) :=
  (finishes_giveBack invoke (fun _ h => h) hempty n ret t form id value).maintains fun _ _ h => ⟨h, trivial⟩

theorem lasts_finishEmpty (ret : Option Place) : Lasts J sc (finishEmpty invoke ret) := by
  refine .look_program ?_
  cases sc.program.result with
  | none => exact .pure trivial
  | some result =>
    exact .look_read (.ite (.pure trivial) (.ite (.throw _) (lasts_produce _ ret fun _ => Lasts.lift _ _)))

/-- What a statement leaves behind: a frame in order and a place to go on, or the frame of a call that is over. -/
def Outcome.Leaves (J D : Frame → Prop) (R : Option PinId → Prop) (f : Frame) : Outcome → Prop
  | .next pin => R pin ∧ J f
  | .done _ => D f

/-- A node may be the next one to be visited, as one with an operation: a loop that is visited again is visited
as its marker says. -/
def Arrival.Treats (p : Program) (n : ProgramNode) (op : Op) : Arrival → Prop
  | .through t => ∃ r, p.pin? t = some r ∧ p.node? r.node = some n ∧ op = n.op
  | .again marker => p.node? marker.node = some n ∧ op = marker.op

/-- What a node does to a frame leaves it in order: it fills its outputs, and a loop is entered. The index of a
counting loop is filled first. -/
def Admits (J : Frame → Prop) (sc : Scope) (n : ProgramNode) : Op → Prop
  | .forLoop => ∀ index, n.dataOut[0]? = some index → ∀ k, Lasts J sc (writeInt index k) ∧
      Lasts J sc (do writeInt index k; modifyFrame (·.enterLoop (.forLoop n.id)))
  | .whileLoop => ∀ f, J f → J (f.enterLoop (.whileLoop n.id))
  | _ => ∀ o ∈ n.dataOut, Frame.Spares J o

/-- A statement at a node leaves frames in order, and leads where it should: it sets slots of the node and of
what it pulls, and it may enter and leave the loop of the node. -/
structure Steers (J : Frame → Prop) (R : Option PinId → Prop) (sc : Scope) (n : ProgramNode) (op : Op) : Prop where
  tolerates : Frame.Tolerates J sc.program
  inputs : ∀ i ∈ n.dataIn, Frame.Spares J i
  admits : Admits J sc n op
  exit : ∀ f, J f → J (f.exitLoop n.id)
  leads : ∀ o ∈ n.flowOut, Maintains (fun a => J a.frame) sc (target o) R

/-- Where any of a node's outputs may be set and its loop may be entered, a frame stays in order whatever it does. -/
theorem Admits.of_spares {n : ProgramNode} (hout : ∀ o ∈ n.dataOut, Frame.Spares J o)
    (henter : ∀ f marker, marker.node = n.id → J f → J (f.enterLoop marker)) (op : Op) : Admits J sc n op := by
  cases op with
  | forLoop =>
    intro index hindex k
    have hwrite : Lasts J sc (writeInt index k) := lasts_writeInt (hout index (List.mem_of_getElem? hindex)) k
    exact ⟨hwrite, hwrite.andThen fun _ => Lasts.modifyFrame fun f => henter f _ rfl⟩
  | whileLoop => exact fun f => henter f _ rfl
  | _ => exact hout

namespace Steers

variable {R : Option PinId → Prop} {n : ProgramNode} {op : Op} (h : Steers J R sc n op)
include h

theorem pull {i : PinId} (hi : i ∈ n.dataIn) : Lasts J sc (pullInput invoke i) :=
  lasts_pullInput invoke h.tolerates (h.inputs i hi)

theorem complete {o : PinId} (ho : o ∈ n.flowOut) : Maintains (fun a => J a.frame) sc (Run.complete n o) R :=
  (Lasts.modifyFrame fun f hf => h.exit f hf).andThen fun _ => h.leads o ho

theorem visitFor (hop : op = .forLoop) (via : Option PinId) :
    Maintains (fun a => J a.frame) sc (Run.visitFor invoke n via) R := by
  subst hop
  have hpull : ∀ i ∈ n.dataIn, Lasts J sc (pullInt invoke i) := fun i hi =>
    lasts_pullInt invoke h.tolerates (h.inputs i hi)
  refine .look_nth fun break' _ => .look_nth fun index hindex => .look_nth fun body hbody =>
    .look_nth fun completed hcompleted => ?_
  have hcomplete := h.complete (List.mem_of_getElem? hcompleted)
  have hend : Maintains (fun a => J a.frame) sc
      (nth n.dataIn 1 >>= fun i => pullInt invoke i >>= fun stop => readInt index >>= fun k =>
        if k ≥ stop then Run.complete n completed else target body) R :=
    .look_nth fun i hi => (hpull i (List.mem_of_getElem? hi)).andThen fun stop =>
      (Maintains.looks (looks_readInt index)).andThen fun k =>
        .ite hcomplete (h.leads body (List.mem_of_getElem? hbody))
  refine .ite hcomplete ?_
  cases via with
  | some input =>
    refine .look_nth fun i hi => (hpull i (List.mem_of_getElem? hi)).andThen fun start => ?_
    have henter := (h.admits index hindex start).2.andThen fun _ => hend
    rwa [bind_assoc] at henter
  | none =>
    exact (Maintains.looks (looks_readInt index)).andThen fun k =>
      (h.admits index hindex _).1.andThen fun _ => hend

theorem visitWhile (hop : op = .whileLoop) (via : Option PinId) :
    Maintains (fun a => J a.frame) sc (Run.visitWhile invoke n via) R := by
  subst hop
  refine .look_nth fun break' _ => .look_nth fun body hbody => .look_nth fun completed hcompleted => ?_
  have hcomplete := h.complete (List.mem_of_getElem? hcompleted)
  have hend : Maintains (fun a => J a.frame) sc
      (nth n.dataIn 0 >>= fun i => pullBool invoke i >>= fun condition =>
        if condition then target body else Run.complete n completed) R :=
    .look_nth fun i hi =>
      (lasts_pullBool invoke h.tolerates (h.inputs i (List.mem_of_getElem? hi))).andThen fun condition =>
        .ite (h.leads body (List.mem_of_getElem? hbody)) hcomplete
  refine .ite hcomplete (.ite ?_ hend)
  exact Maintains.andThen (Lasts.modifyFrame h.admits) fun _ => hend

theorem setField (offset : Nat) (type : Handle) : Lasts J sc (Run.setField invoke n offset type) := by
  refine (lasts_pullTarget fun i hi => h.pull invoke hi).andThen fun owner => .look_nth fun i hi =>
    (h.pull invoke (List.mem_of_getElem? hi)).andThen fun source => ?_
  cases source with
  | none => exact .throw _
  | some source => exact lasts_storeField invoke n offset type owner source

end Steers

/-- A statement leaves a frame in order and leads where it should, if that can be said of the nodes that it may
visit. A call that it ends may have moved its result out of the frame. -/
theorem finishes_statement {D : Frame → Prop} {R : Option PinId → Prop} (hkeep : ∀ f, J f → D f)
    (hempty : ∀ id f, J f → D (f.set id .empty)) (ret : Option Place) {arrival : Arrival}
    (hsteers : ∀ n op, arrival.Treats sc.program n op → Steers J R sc n op) :
    Finishes J sc (statement invoke ret arrival) fun outcome f => outcome.Leaves J D R f := by
  have hnext : ∀ {x : Run (Option PinId)}, Maintains (fun a => J a.frame) sc x R →
      Finishes J sc (x >>= fun next => Pure.pure (Outcome.next next)) fun outcome f => outcome.Leaves J D R f :=
    fun hx => (hx.finishes (Q := fun pin f => R pin ∧ J f) fun _ _ hf hpin => ⟨hpin, hf⟩).map fun _ _ h => h
  cases arrival with
  | again marker =>
    refine .bind (maintains_node marker.node) fun n hn => .bind (lasts_noteNode _ n) fun _ _ => ?_
    have h := hsteers n _ ⟨hn, rfl⟩
    cases marker with
    | forLoop id => exact hnext (h.visitFor invoke rfl none)
    | whileLoop id => exact hnext (h.visitWhile invoke rfl none)
  | through t =>
    refine .bind (maintains_pin t) fun r hr => .bind (maintains_node r.node) fun n hn =>
      .bind (lasts_noteNode _ n) fun _ _ => ?_
    have h := hsteers n _ ⟨r, hr, hn, rfl⟩
    have hfollow : ∀ index, Finishes J sc
        (nth n.flowOut index >>= fun o => target o >>= fun next => Pure.pure (Outcome.next next))
        fun outcome f => outcome.Leaves J D R f := fun index =>
      .bind (maintains_nth _ index) fun o ho => hnext (h.leads o (List.mem_of_getElem? ho))
    have hpull : ∀ i ∈ n.dataIn, Lasts J sc (pullInput invoke i) := fun i hi => h.pull invoke hi
    cases hop : n.op with
    | ret => exact (finishes_finish invoke hkeep hempty n hpull ret).map fun _ _ hf => hf
    | call f =>
      have hadmits := h.admits
      rw [hop] at hadmits
      exact .bind (lasts_callNode invoke hpull hadmits f) fun _ _ => hfollow 0
    | fieldSet offset type => exact .bind (h.setField invoke offset type) fun _ _ => hfollow 0
    | branch =>
      exact .bind (maintains_nth _ 0) fun i hi =>
        .bind (lasts_pullBool invoke h.tolerates (h.inputs i (List.mem_of_getElem? hi))) fun condition _ => hfollow _
    | forLoop => exact hnext (h.visitFor invoke hop (some t))
    | whileLoop => exact hnext (h.visitWhile invoke hop (some t))
    | reroute => exact hfollow 0
    | entry | fieldGet | comment => exact Maintains.finishes (.throw _) fun _ _ _ => False.elim

end Run

open Run

/-- Statements leave the frame of a call in order and lead where they should, from wherever they should lead to. -/
structure Run.Conserves (J D : Frame → Prop) (R : Option PinId → Prop) (sc : Scope) : Prop where
  keep : ∀ f, J f → D f
  empty : ∀ id f, J f → D (f.set id .empty)
  count : ∀ f, J f → J { f with statements := f.statements + 1 }
  steers : ∀ f next arrival, J f → R next → arrival? next f = some arrival →
    ∀ n op, arrival.Treats sc.program n op → Steers J R sc n op
  tolerates : Frame.Tolerates J sc.program
  arguments : ∀ n, sc.program.node? sc.program.entry = some n → ∀ o ∈ n.dataOut, Frame.Spares J o
  begins : ∀ n, sc.program.node? sc.program.entry = some n → R (sc.program.follow n 0)

namespace Run.Conserves

section Run

variable {J D : Frame → Prop} {R : Option PinId → Prop} {sc : Scope} (h : Conserves J D R sc) (invoke : Invoke)
include h

theorem statement (ret : Option Place) {f : Frame} (hf : J f) {next : Option PinId} (hnext : R next)
    {arrival : Arrival} (harrival : arrival? next f = some arrival) :
    Finishes J sc (Run.statement invoke ret arrival) fun outcome g => outcome.Leaves J D R g :=
  finishes_statement invoke h.keep h.empty ret (h.steers f next arrival hf hnext harrival)

theorem statements (ret : Option Place) (fuel : Nat) {next : Option PinId} (hnext : R next) :
    Finishes J sc (Run.statements invoke ret fuel next) fun _ => D := by
  induction fuel generalizing next with
  | zero => exact Maintains.finishes (.throw _) fun _ _ _ => False.elim
  | succ fuel ih =>
    have hframe : Maintains (fun a => J a.frame) sc frame J := fun _ ha => ⟨ha, ha⟩
    refine .bind hframe fun f hf => ?_
    cases harrival : arrival? next f with
    | none => exact (lasts_finishEmpty invoke ret).finishes fun _ g hg _ => h.keep g hg
    | some arrival =>
      refine .bind lasts_tick fun _ _ a ha => (h.statement invoke ret hf hnext harrival a ha).bind ?_
      rintro (next | result) b hb
      · exact ih hb.1 ⟨{ b.frame with statements := b.frame.statements + 1 }, b.machine⟩ (h.count _ hb.2)
      · exact hb

theorem body (args : List Value) (ret : Option Place) : Finishes J sc (Run.body invoke args ret) fun _ => D := by
  refine .bind maintains_program fun p hp => ?_
  subst hp
  refine .bind (maintains_node _) fun entry hentry =>
    .bind (lasts_bindArguments (h.arguments entry hentry) 0 _) fun _ _ => ?_
  split
  · refine .bind lasts_tick fun _ _ => ?_
    cases sc.program.returnNode with
    | none => exact Maintains.finishes (.throw _) fun _ _ _ => False.elim
    | some id =>
      refine .bind (maintains_node id) fun n hn => finishes_finish invoke h.keep h.empty n (fun i hi => ?_) ret
      exact lasts_pullInput invoke h.tolerates (h.tolerates.inputs id n hn i hi)
  · have hbegins := h.begins entry hentry
    unfold Program.follow at hbegins
    rw [← List.head?_eq_getElem?] at hbegins
    cases hout : entry.flowOut.head? with
    | none =>
      rw [hout] at hbegins
      exact h.statements invoke ret patience hbegins
    | some o =>
      rw [hout, Option.bind_some] at hbegins
      have htarget : Maintains (fun a => J a.frame) sc (target o) R :=
        .look_pin fun q hq => .pure (by rwa [hq] at hbegins)
      exact .bind htarget fun next hnext => h.statements invoke ret patience hnext

end Run

section Course

variable {J D : Frame → Prop} {R : Option PinId → Prop} {r : Course} (h : Conserves J D R r.scope) {m m' : Moment}
include h

theorem outcome (hnext : R m.next) (hframe : J m.act.frame) {res : EStateM.Result ScriptError Activation Outcome}
    (hres : r.outcome? m = some res) :
    (∀ outcome a, res = .ok outcome a → outcome.Leaves J D R a.frame) ∧
      ∀ e a, res = .error e a → J a.frame := by
  obtain ⟨arrival, harrival, rfl⟩ := Option.map_eq_some_iff.mp hres
  have hfinishes : Finishes J r.scope (do tick; Run.statement r.invoke r.ret arrival : Run Outcome)
      fun outcome f => outcome.Leaves J D R f :=
    .bind lasts_tick fun _ _ => h.statement r.invoke r.ret hframe hnext harrival
  exact ⟨fun outcome a he => (hfinishes m.act hframe).ok he, fun e a he => (hfinishes m.act hframe).error he⟩

theorem step (hnext : R m.next) (hframe : J m.act.frame) (hstep : r.step? m = some m') :
    R m'.next ∧ J m'.act.frame := by
  obtain ⟨b, houtcome, hact⟩ := Course.exists_outcome hstep
  obtain ⟨hnext', hframe'⟩ := (h.outcome hnext hframe houtcome).1 _ _ rfl
  rw [hact]
  exact ⟨hnext', h.count _ hframe'⟩

theorem runs {ms : List Moment} (hnext : R m.next) (hframe : J m.act.frame) (hruns : r.Runs m ms m') :
    R m'.next ∧ J m'.act.frame :=
  hruns.induct (P := fun v => R v.next ∧ J v.act.frame) (G := fun _ => True) ⟨hnext, hframe⟩ (fun _ _ => trivial)
    fun _ _ hv _ hstep => h.step hv.1 hv.2 hstep

end Course

end Run.Conserves

end Flowscript
