import Flowscript.Proofs.Machine.InterpreterOutlook

/-! # Errors of a call's own

An error that a running call raises itself names no function yet; a node or a pin that it names is one of
the program that runs. Only the error of a nested call that used up a budget comes from elsewhere.
-/
namespace Flowscript

variable {ε α β : Type}

namespace Program

/-- The numbers of nodes are their own, and their inputs are there, with the nodes that these name. -/
structure Numbered (p : Program) : Prop where
  node_id : ∀ id n, p.node? id = some n → n.id = id
  inputs : ∀ id n, p.node? id = some n → ∀ i ∈ n.dataIn,
    ∃ q, p.pin? i = some q ∧ (p.node? q.node).isSome

/-! What a run can say of the numbers that it meets, where numbers can be trusted. -/

def HasNode (p : Program) (id : NodeId) : Prop := p.Numbered → (p.node? id).isSome

def HasPin (p : Program) (id : PinId) : Prop := p.Numbered → (p.pin? id).isSome

def Rooted (p : Program) (id : PinId) : Prop :=
  p.Numbered → ∃ q, p.pin? id = some q ∧ (p.node? q.node).isSome

def Has (p : Program) (n : ProgramNode) : Prop :=
  (∃ id, p.node? id = some n) ∧ (p.Numbered → p.node? n.id = some n)

variable {p : Program} {n : ProgramNode} {id : PinId}

theorem has_of_node? {number : NodeId} (hn : p.node? number = some n) : p.Has n := by
  refine ⟨⟨number, hn⟩, fun h => ?_⟩
  rw [h.node_id number n hn]
  exact hn

theorem Has.rooted (hn : p.Has n) (hid : id ∈ n.dataIn) : p.Rooted id := fun h =>
  h.inputs n.id n (hn.2 h) id hid

theorem Has.rooted_of_getElem? (hn : p.Has n) {i : Nat} (hi : n.dataIn[i]? = some id) : p.Rooted id :=
  hn.rooted (List.mem_of_getElem? hi)

theorem Has.hasNode (hn : p.Has n) : p.HasNode n.id := fun h =>
  Option.isSome_iff_exists.mpr ⟨n, hn.2 h⟩

theorem Rooted.hasPin (hid : p.Rooted id) : p.HasPin id := fun h => by
  obtain ⟨q, hq, -⟩ := hid h
  exact Option.isSome_iff_exists.mpr ⟨q, hq⟩

theorem hasPin_of_pin? {q : ProgramPin} (hq : p.pin? id = some q) : p.HasPin id := fun _ =>
  Option.isSome_iff_exists.mpr ⟨q, hq⟩

end Program

namespace ScriptError

structure Own (p : Program) (e : ScriptError) : Prop where
  script : e.location.script = none
  function : e.location.function = none
  link : e.location.link = none
  node : ∀ id, e.location.node = some id → p.HasNode id
  pin : ∀ id, e.location.pin = some id → p.HasPin id

namespace Own

variable {p : Program} {e : ScriptError}

theorem bare (kind : ErrorKind) (message : String) : Own p { kind, message } :=
  ⟨rfl, rfl, rfl, fun _ h => (nomatch h), fun _ h => (nomatch h)⟩

theorem atNode (h : e.Own p) {id : NodeId} (hid : p.HasNode id) : (e.atNode id).Own p :=
  { h with node := fun _ h' => Option.some.inj h' ▸ hid }

theorem atPin (h : e.Own p) {id : PinId} (hid : p.HasPin id) : (e.atPin id).Own p :=
  { h with pin := fun _ h' => Option.some.inj h' ▸ hid }

end Own

end ScriptError

open ScriptError (Own)

/-- A computation of a running call that keeps what holds of the outlook and raises only errors of the
call's own; and what holds of its result. -/
def Frank (O : Outlook → Prop) (sc : Scope) (x : Run α) (R : α → Prop) : Prop :=
  ∀ a, O a.machine.outlook → Ensures x sc a (fun r b => O b.machine.outlook ∧ R r)
    fun e b => O b.machine.outlook ∧ e.Own sc.program

variable {O : Outlook → Prop} {sc : Scope} {R : α → Prop}

namespace Frank

theorem mono {R' : α → Prop} {x : Run α} (hx : Frank O sc x R) (hR : ∀ r, R r → R' r) :
    Frank O sc x R' := fun a ha =>
  (hx a ha).mono (fun r _ h => ⟨h.1, hR r h.2⟩) fun _ _ h => h

theorem pure {r : α} (h : R r) : Frank O sc (Pure.pure r : Run α) R := fun _ ha => ⟨ha, h⟩

theorem throw {e : ScriptError} (he : e.Own sc.program) :
    Frank O sc (MonadExcept.throw e : Run α) R := fun _ ha => ⟨ha, he⟩

theorem bind {S : β → Prop} {x : Run β} {f : β → Run α} (hx : Frank O sc x S)
    (hf : ∀ b, S b → Frank O sc (f b) R) : Frank O sc (x >>= f) R := fun a ha =>
  (hx a ha).bind fun b t ht => hf b ht.2 t ht.1

/-- The same if nothing has to be known of the first result. -/
theorem andThen {S : β → Prop} {x : Run β} {f : β → Run α} (hx : Frank O sc x S)
    (hf : ∀ b, Frank O sc (f b) R) : Frank O sc (x >>= f) R := hx.bind fun b _ => hf b

theorem lift {x : Exec ε α} {f : ε → ScriptError} (hx : Minds O sc.context x)
    (hf : ∀ e, (f e).Own sc.program) : Frank O sc (Run.lift f x) fun _ => True := fun a ha =>
  Ensures.run_lift_iff.mpr ((hx a.machine ha).mono (fun _ _ h => h) fun e _ h => ⟨h, hf e⟩)

theorem liftTotal {x : Exec Empty α} (hx : Minds O sc.context x) :
    Frank O sc (Run.liftTotal x) fun _ => True := fun a ha =>
  Ensures.run_liftTotal_iff.mpr ((hx a.machine ha).mono (fun _ _ h => h) fun _ _ _ => trivial)

theorem modifyFrame (f : Frame → Frame) : Frank O sc (Run.modifyFrame f) fun _ => True :=
  fun _ ha => ⟨ha, trivial⟩

theorem modifyInterpreter {f : Interpreter → Interpreter} (hdepth : ∀ i, (f i).depth = i.depth)
    (hfailure : ∀ i, (f i).nestedFailure = i.nestedFailure) :
    Frank O sc (Run.modifyInterpreter f) fun _ => True := fun a ha =>
  ⟨(congrArg O (a.machine.outlook_modifyInterpreter sc.seat hdepth hfailure)).mpr ha, trivial⟩

theorem mapError {x : Run α} {f : ScriptError → ScriptError} (hx : Frank O sc x R)
    (hf : ∀ e, e.Own sc.program → (f e).Own sc.program) : Frank O sc (x.mapError f) R := fun a ha =>
  Ensures.run_mapError_iff.mpr ((hx a ha).mono (fun _ _ h => h) fun e _ h => ⟨h.1, hf e h.2⟩)

theorem andFinally {x : Run α} {after : Exec Empty Unit} (hx : Frank O sc x R)
    (hafter : Minds O sc.context after) : Frank O sc (x.andFinally after) R := fun a ha =>
  Ensures.run_andFinally_iff.mpr ((hx a ha).mono
    (fun _ b h => (hafter b.machine h.1).mono (fun _ _ h' => ⟨h'.1, h.2⟩) fun _ _ _ => trivial)
    fun _ b h => (hafter b.machine h.1).mono (fun _ _ h' => ⟨h'.1, h.2⟩) fun _ _ _ => trivial)

theorem ite {c : Prop} [Decidable c] {x y : Run α} (hx : Frank O sc x R) (hy : Frank O sc y R) :
    Frank O sc (if c then x else y) R := by
  split
  · exact hx
  · exact hy

end Frank

namespace Run

variable {id : PinId} {n : ProgramNode}

theorem frank_read : Frank O sc (read : Run Scope) (· = sc) := fun _ ha => ⟨ha, rfl⟩

theorem frank_program : Frank O sc program (· = sc.program) := fun _ ha => ⟨ha, rfl⟩

theorem frank_frame : Frank O sc frame fun _ => True := fun _ ha => ⟨ha, trivial⟩

theorem frank_interpreter : Frank O sc interpreter fun _ => True := fun _ ha => ⟨ha, trivial⟩

theorem frank_memory : Frank O sc memory fun _ => True := fun _ ha => ⟨ha, trivial⟩

theorem frank_bug (message : String) : Frank O sc (throw (Program.bug message) : Run α) R :=
  .throw (.bare _ _)

theorem frank_node (id : NodeId) : Frank O sc (node id) fun n => sc.program.node? id = some n := by
  refine frank_program.bind fun p hp => ?_
  subst hp
  cases sc.program.node? id with
  | some n => exact .pure rfl
  | none => exact frank_bug _

theorem frank_pin (id : PinId) : Frank O sc (pin id) fun q => sc.program.pin? id = some q := by
  refine frank_program.bind fun p hp => ?_
  subst hp
  cases sc.program.pin? id with
  | some q => exact .pure rfl
  | none => exact frank_bug _

theorem frank_nth (pins : List PinId) (index : Nat) :
    Frank O sc (nth pins index) fun id => pins[index]? = some id := by
  unfold nth
  cases pins[index]? with
  | some id => exact .pure rfl
  | none => exact frank_bug _

theorem frank_pinType (id : PinId) :
    Frank O sc (pinType id) fun _ => sc.program.HasPin id := by
  refine (frank_pin id).bind fun q hq => ?_
  have hid := Program.hasPin_of_pin? hq
  cases q.type with
  | some h => exact frank_read.bind fun _ _ => .pure hid
  | none => exact .throw (Own.bare _ _ |>.atPin hid)

theorem frank_target (output : PinId) : Frank O sc (target output) fun _ => True :=
  (frank_pin output).bind fun _ _ => .pure trivial

theorem frank_storage? (id : PinId) :
    Frank O sc (storage? id) fun place => place.isSome → sc.program.HasPin id := by
  refine frank_frame.bind fun f _ => frank_program.bind fun p hp => .pure ?_
  subst hp
  unfold Frame.storage?
  cases hq : sc.program.pin? id with
  | some q => exact fun _ => Program.hasPin_of_pin? hq
  | none => exact fun h => nomatch h

theorem frank_storage (id : PinId) (missing : String) :
    Frank O sc (storage id missing) fun _ => True := by
  refine (frank_storage? id).bind fun place _ => ?_
  cases place with
  | some place => exact .pure trivial
  | none => exact frank_bug _

theorem frank_noteNode (message : String) (n : ProgramNode) :
    Frank O sc (noteNode message n) fun _ => True := by
  refine frank_read.bind fun s _ => ?_
  cases s.context.traceLimit with
  | none => exact .pure trivial
  | some limit => exact .liftTotal (Exec.minds_trace _ _)

theorem frank_tick : Frank O sc tick fun _ => True := by
  have hcount : ∀ f : Interpreter → Interpreter, (∀ i, (f i).depth = i.depth) →
      (∀ i, (f i).nestedFailure = i.nestedFailure) → Frank O sc (modifyInterpreter f) fun _ => True :=
    fun _ => .modifyInterpreter
  refine frank_interpreter.bind fun i _ => .ite ?_ (hcount _ (fun _ => rfl) fun _ => rfl)
  refine Frank.andThen (S := fun _ => True) ?_ fun _ => .throw (.bare _ _)
  exact hcount _ (fun _ => rfl) fun _ => rfl

theorem frank_clear (id : PinId) : Frank O sc (clear id) fun _ => True := by
  refine frank_program.bind fun p _ => frank_frame.bind fun f _ => ?_
  split
  · split
    · exact frank_read.bind fun s _ => (Frank.liftTotal (Exec.minds_endCharge _ _)).bind fun _ _ =>
        .modifyFrame _
    · exact .modifyFrame _
  · exact .modifyFrame _

theorem frank_charge? (id : PinId) : Frank O sc (charge? id) fun _ => True :=
  frank_read.bind fun _ _ => frank_frame.bind fun _ _ => .pure trivial

theorem frank_setOwned (id : PinId) : Frank O sc (setOwned id) fun _ => True := by
  refine (frank_charge? id).bind fun v _ => ?_
  cases v with
  | some v => exact (Frank.liftTotal (Exec.minds_modifyCare _)).bind fun _ _ => .modifyFrame _
  | none => exact .modifyFrame _

theorem frank_setBorrowed (id : PinId) (place : Place) :
    Frank O sc (setBorrowed id place) fun _ => True :=
  (frank_clear id).bind fun _ _ => .modifyFrame _

theorem frank_setNull (id : PinId) : Frank O sc (setNull id) fun _ => True :=
  (frank_clear id).bind fun _ _ => .modifyFrame _

theorem frank_readInt (id : PinId) : Frank O sc (readInt id) fun _ => True := by
  refine frank_frame.bind fun f _ => frank_program.bind fun p _ => ?_
  cases f.value? p id with
  | none => exact .pure trivial
  | some place =>
    refine frank_memory.bind fun m _ => ?_
    cases m.read place (.int .i32) <;> exact .pure trivial

theorem frank_writeInt (id : PinId) (k : Int) : Frank O sc (writeInt id k) fun _ => True := by
  refine (frank_clear id).bind fun _ _ => (frank_storage? id).bind fun place _ => ?_
  cases place with
  | some place =>
    exact (Frank.liftTotal (Exec.minds_modifyMemory _)).bind fun _ _ => frank_setOwned id
  | none => exact .pure trivial

theorem frank_allocTemp (l : Layout) : Frank O sc (allocTemp l) fun _ => True := fun a ha =>
  allocTemp_ensures (fun _ => ⟨ha, trivial⟩) fun _ stack _ =>
    ⟨(congrArg O (a.machine.outlook_modifyInterpreter sc.seat (f := fun i => { i with stack })
      (fun _ => rfl) fun _ => rfl)).mpr ha, trivial⟩

theorem minds_rewind {w : Context} (seat : Seat) (mark : Nat) :
    Minds O w (modify (·.modifyInterpreter seat fun i => { i with stack := i.stack.rewind mark }) :
      Exec Empty Unit) :=
  .modify fun m => m.outlook_modifyInterpreter seat (fun _ => rfl) fun _ => rfl

theorem frank_withStack {x : Run α} (hx : Frank O sc x R) : Frank O sc (withStack x) R :=
  frank_interpreter.bind fun _ _ => frank_read.bind fun _ _ => hx.andFinally (minds_rewind _ _)

theorem frank_expectType (id : PinId) (name : String) : Frank O sc (expectType id name) fun _ => True :=
  (frank_pinType id).bind fun _ hid => .ite (.throw (Own.bare _ _ |>.atPin hid)) (.pure trivial)

theorem frank_watchInput (id : PinId) (data : Option Place) :
    Frank O sc (watchInput id data) fun _ => True := by
  refine frank_read.bind fun s _ => ?_
  split
  · exact .liftTotal (.modify fun _ => rfl)
  · exact .pure trivial

theorem frank_complete (n : ProgramNode) (completed : PinId) :
    Frank O sc (complete n completed) fun _ => True :=
  (Frank.modifyFrame _).bind fun _ _ => frank_target completed

theorem frank_bindArgument (index : Nat) (id : PinId) (v : Value) :
    Frank O sc (bindArgument index id v) fun _ => True := by
  refine (frank_pinType id).bind fun t hid => .ite (.throw (Own.bare _ _ |>.atPin hid)) ?_
  cases v.place? with
  | some place => exact frank_setBorrowed id place
  | none => exact .ite (frank_setNull id) (.throw (Own.bare _ _ |>.atPin hid))

theorem frank_bindArguments (index : Nat) (ids : List PinId) (args : List Value) :
    Frank O sc (bindArguments index ids args) fun _ => True := by
  induction ids generalizing index args with
  | nil => exact .pure trivial
  | cons id ids ih =>
    cases args with
    | nil => exact .pure trivial
    | cons v vs => exact (frank_bindArgument index id v).bind fun _ _ => ih (index + 1) vs

theorem frank_clearAll (count : Nat) : Frank O sc (clearAll count) fun _ => True := by
  induction count with
  | zero => exact .pure trivial
  | succ count ih => exact (frank_clear _).bind fun _ _ => ih

theorem frank_resultStorage (out : Option PinId) (form : Option Form) :
    Frank O sc (resultStorage out form) fun _ => True := by
  unfold resultStorage
  split
  · exact .ite ((frank_clear _).bind fun _ _ => (frank_storage? _).mono fun _ _ => trivial) (.pure trivial)
  · exact .pure trivial

theorem frank_storeResult (id : PinId) (form : Form) (result : Option Value) :
    Frank O sc (storeResult id form result) fun _ => True := by
  refine (frank_storage? id).bind fun place hplace => ?_
  split
  · exact (Frank.liftTotal (Exec.minds_dropResult _)).bind fun _ _ => frank_bug _
  · exact .ite (frank_setOwned id) (.throw (Own.bare _ _ |>.atPin (hplace rfl)))
  · split
    · exact (frank_clear id).bind fun _ _ => (Frank.liftTotal (Exec.minds_relocate _ _)).bind
        fun _ _ => frank_setOwned id
    · refine (Frank.liftTotal (.modify fun m => m.outlook_watchResult _)).bind fun _ _ => ?_
      split
      · exact frank_setBorrowed id _
      · exact frank_setNull id

section Invoke

variable {invoke : Invoke} (h : invoke.Minds O sc.context)
include h

theorem frank_copyTemp (t : TypeInfo) (source : Place) :
    Frank O sc (copyTemp invoke t source) fun _ => True := by
  refine (frank_allocTemp t.layout).bind fun temp _ => ?_
  cases temp with
  | none => exact .throw (.bare _ _)
  | some temp =>
    exact (Frank.lift (Invoke.minds_copyAt h t temp source) fun _ => .bare _ _).bind fun _ _ =>
      (Frank.liftTotal (Exec.minds_modifyCare _)).bind fun _ _ => .pure trivial

omit h in
theorem frank_fillOwned (id : PinId) (missing : String) {init : Place → Run Unit}
    (hinit : ∀ place, Frank O sc (init place) fun _ => True) :
    Frank O sc (fillOwned id missing init) fun _ => True :=
  (frank_clear id).bind fun _ _ => (frank_storage id missing).bind fun place _ =>
    (hinit place).bind fun _ _ => (frank_setOwned id).bind fun _ _ => .pure trivial

theorem frank_fallback (hid : sc.program.Rooted id) :
    Frank O sc (fallback invoke id) fun _ => True := by
  have hpin := hid.hasPin
  have hconstructed : ∀ (info : ProgramPin) (t : TypeInfo) (world : Option (TypeId × Place)),
      sc.program.HasNode info.node →
      Frank O sc (fallback.constructed invoke id info t world) fun _ => True := by
    intro info t world hnode
    unfold fallback.constructed
    split
    · exact .pure trivial
    · refine .ite (frank_fillOwned id _ fun place => ?_) (.ite ?_ (.throw ?_))
      · exact .lift (Invoke.minds_defaultAt h t place) fun _ => (Own.bare _ _).atPin hpin
      · exact (frank_setNull id).bind fun _ _ => .pure trivial
      · exact ((Own.bare _ _).atNode hnode).atPin hpin
  refine (frank_pin id).bind fun info hinfo => (frank_pinType id).bind fun t _ =>
    frank_read.bind fun s _ => ?_
  have hnode : sc.program.HasNode info.node := by
    intro h
    obtain ⟨q, hq, hnode⟩ := hid h
    rw [hinfo] at hq
    cases hq
    exact hnode
  split
  · exact frank_fillOwned id _ fun place =>
      .lift (Invoke.minds_decodeAt h t _ place) fun _ => (Own.bare _ _).atPin hpin
  · refine frank_interpreter.bind fun i _ => ?_
    split
    · exact .ite (.pure trivial) (hconstructed info t _ hnode)
    · exact hconstructed info t _ hnode

theorem frank_handOver (t : TypeInfo) (source target : Place) :
    Frank O sc (handOver invoke t source target) fun _ => True := by
  refine frank_frame.bind fun f _ => frank_program.bind fun p _ => ?_
  cases f.owner? p source with
  | some owner =>
    exact (frank_charge? owner).bind fun _ _ =>
      (Frank.liftTotal ((Exec.minds_modifyMemory _).bind fun _ => Exec.minds_modifyCare _)).bind
        fun _ _ => .modifyFrame _
  | none => exact .lift (Invoke.minds_copyAt h t target source) fun _ => .bare _ _

omit h in
theorem frank_produce (t : TypeInfo) (ret : Option Place) {init : Place → Run Unit}
    (hinit : ∀ place, Frank O sc (init place) fun _ => True) :
    Frank O sc (produce t ret init) fun _ => True := by
  cases ret with
  | some place => exact (hinit place).bind fun _ _ => .pure trivial
  | none =>
    refine (Frank.liftTotal (Exec.minds_allocate _)).bind fun place _ => ?_
    refine Frank.bind (S := fun outcome => ∀ e, outcome = .error e → e.Own sc.program) ?_
      fun outcome hown => ?_
    · exact fun a ha => Ensures.run_attempt_iff.mpr ((hinit place a ha).mono
        (fun _ _ h => ⟨h.1, fun _ he => nomatch he⟩)
        fun e _ h => ⟨h.1, fun e' he => Except.error.inj he ▸ h.2⟩)
    · cases outcome with
      | ok u =>
        exact (Frank.liftTotal (Exec.minds_adopt _ _ _ _)).bind fun _ _ => .pure trivial
      | error e =>
        exact (Frank.liftTotal (Exec.minds_free place)).bind fun _ _ => .throw (hown e rfl)

theorem frank_finishEmpty (ret : Option Place) : Frank O sc (finishEmpty invoke ret) fun _ => True := by
  refine frank_program.bind fun p _ => ?_
  cases p.result with
  | none => exact .pure trivial
  | some result =>
    refine frank_read.bind fun s _ => .ite (.pure trivial) (.ite (.throw (.bare _ _)) ?_)
    exact frank_produce _ ret fun place =>
      .lift (Invoke.minds_defaultAt h _ place) fun _ => .bare _ _

end Invoke

end Run

end Flowscript
